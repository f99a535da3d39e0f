import DramatiqPostgres.Lib.Runs
import DramatiqPostgres.Queue.Queries

/-!
# The database as a step system

`Statement` lists every statement that writes the queue or the worker table,
with its parameters and the `NOW()` it runs at; `Database.exec` runs one, and is
undefined where the statement raises.  `statementSystem` is the step system of
all sequences of statements on a fresh installation.

What a statement can do to the queue is said once, in `exec_cases`:

* ENQUEUE and ENQUEUE_QUIET are `Queries.upsert` of their message id;
* every other statement rewrites the rows one by one by `Statement.onRow`.

Invariants are derived from that, statement by statement, without opening `exec`
again.

### Any parameters, in any order

No statement is asked to come at the right moment: `NOW()` may go back, a worker
may claim that has no row, ids and queues may be anything.  The program would
not send most of these sequences, but what holds of all of them holds of those
it sends, and does not depend on why it sends them.  Laws that need the clock or
the discipline of a worker add it as a condition on the run.

A sequence of atomic statements is what is left of concurrent transactions once
row locks have done their work; that they have is shown in `Lib/RowLocks.lean`,
and laws proved here are lifted there one by one.
-/

namespace DramatiqPostgres

open Pg

/-- The two tables the broker's statements write. -/
structure Database where
  queue : Queue
  workers : WorkerTable

/-- A fresh installation. -/
def Database.empty : Database := ⟨Queue.empty, Table.empty⟩

/-- A statement and its parameters.  `locked` in `claim` are the rows other
transactions lock at that moment, which the statement skips. -/
inductive Statement where
  | enqueue (now : Time) (queueName : String) (messageId : Uuid) (message : Json) (delay : ℤ)
  | enqueueQuiet (now : Time) (queueName : String) (messageId : Uuid) (message : Json) (delay : ℤ)
  | claim (now : Time) (queueName : String) (limit : ℕ) (workerId : Uuid) (locked : List Uuid)
  | ack (messageId : Uuid) (queueName channel idText : String)
  | nack (now : Time) (message : Json) (messageId : Uuid) (queueName channel idText : String)
  | requeue (now : Time) (ids : List Uuid)
  | reap (now ttl : Time)
  | recover (now minage : Time)
  | purge (now maxAge : Time)
  | flush
  /-- The first half of `action_retry`; the second is an `enqueue`. -/
  | deleteByPk (pk : Uuid)
  | discard (selected : List Uuid)
  | heartbeat (now : Time) (workerId : Uuid)
  | cleanWorkers (now maxAge : Time)

namespace Statement

/-- The message id an enqueue statement upserts. -/
def enqueued : Statement → Option Uuid
  | enqueue _ _ id _ _ => some id
  | enqueueQuiet _ _ id _ _ => some id
  | _ => none

/-- Whether the statement is NACK. -/
def isNack : Statement → Bool
  | nack .. => true
  | _ => false

/-- What a statement that is not an enqueue does to a row of the table: `none`
is its deletion.  It may depend on the rest of the database, as REAP does on the
workers and CLAIM on the rows in front. -/
def onRow (s : Database) : Statement → Row → Option Row
  | enqueue .. => some
  | enqueueQuiet .. => some
  | claim now queueName limit workerId locked => fun r =>
      some (if r.messageId ∈ (Queries.claimNext now queueName limit locked s.queue).map
        Row.messageId then Queries.claimSet now workerId r else r)
  | ack id queueName _ _ => fun r => if Queries.ackWhere id queueName r then none else some r
  | nack now message id queueName _ _ => fun r =>
      some (if Queries.nackWhere id queueName r then
        Queries.nackSet now (message.jsonb.getD .null) r else r)
  | requeue now ids => fun r =>
      some (if Queries.requeueWhere ids r then Queries.putBackSet now r else r)
  | reap now ttl => fun r =>
      some (if Queries.reapWhere s.workers now ttl r then Queries.putBackSet now r else r)
  | recover now minage => fun r =>
      some (if Queries.recoverWhere now minage r then Queries.recoverSet r else r)
  | purge now maxAge => fun r => if Queries.purgeWhere now maxAge r then none else some r
  | flush => fun r => if Queries.flushWhere r then none else some r
  | deleteByPk pk => fun r => if r.messageId = pk then none else some r
  | discard selected => fun r => if Queries.discardWhere selected r then none else some r
  | heartbeat .. => some
  | cleanWorkers .. => some

end Statement

namespace Database

/-- The database after a statement that may raise. -/
def ofResult (s : Database) : Except PgError (Queue × List Notification) → Option Database
  | .ok p => some { s with queue := p.1 }
  | .error _ => none

/-- Run a statement; `none` where it raises. -/
def exec (s : Database) : Statement → Option Database
  | .enqueue now queueName id message delay =>
      s.ofResult (Queries.enqueue now queueName id message delay s.queue)
  | .enqueueQuiet now queueName id message delay =>
      s.ofResult
        ((Queries.enqueueQuiet now queueName id message delay s.queue).map fun q => (q, []))
  | .claim now queueName limit workerId locked =>
      some { s with queue := (Queries.claim now queueName limit workerId locked s.queue).2 }
  | .ack id queueName channel idText =>
      s.ofResult (Queries.ack id queueName channel idText s.queue)
  | .nack now message id queueName channel idText =>
      s.ofResult (Queries.nack now message id queueName channel idText s.queue)
  | .requeue now ids => some { s with queue := Queries.requeue now ids s.queue }
  | .reap now ttl => some { s with queue := Queries.reap s.workers now ttl s.queue }
  | .recover now minage => some { s with queue := Queries.recover now minage s.queue }
  | .purge now maxAge => some { s with queue := Queries.purge now maxAge s.queue }
  | .flush => some { s with queue := Queries.flush s.queue }
  | .deleteByPk pk => some { s with queue := Queries.deleteByPk pk s.queue }
  | .discard selected => some { s with queue := Queries.discard selected s.queue }
  | .heartbeat now workerId => some { s with workers := Queries.heartbeat now workerId s.workers }
  | .cleanWorkers now maxAge => some { s with workers := Queries.cleanWorkers now maxAge s.workers }

theorem eq_of_ofResult {s t : Database} {result : Except PgError (Queue × List Notification)}
    (h : s.ofResult result = some t) :
    ∃ p, result = .ok p ∧ t = { s with queue := p.1 } := by
  cases result with
  | error e => cases h
  | ok p => exact ⟨p, rfl, (Option.some_inj.mp h).symm⟩

end Database

/-- All sequences of statements on a fresh installation. -/
def statementSystem : StepSystem Database Statement := ⟨Database.empty, Database.exec⟩

/-! ## What a statement does to the queue -/

/-- The rows of `q'` are those of `q` rewritten by `g`, and the sequence has not
moved. -/
structure Queue.AlteredBy (g : Row → Option Row) (q q' : Queue) : Prop where
  rows : q'.table.rows = q.table.rows.filterMap g
  nextPosition : q'.nextPosition = q.nextPosition

theorem Queue.AlteredBy.mem {g : Row → Option Row} {q q' : Queue} (h : Queue.AlteredBy g q q')
    {r' : Row} (hr' : r' ∈ q'.table) : ∃ r ∈ q.table, g r = some r' := by
  rw [Table.mem_def, h.rows, List.mem_filterMap] at hr'
  exact hr'

/-- What becomes of the row of an id. -/
theorem Queue.AlteredBy.find?_eq {g : Row → Option Row} {q q' : Queue}
    (h : Queue.AlteredBy g q q') (hg : ∀ r r', g r = some r' → r'.messageId = r.messageId)
    (id : Uuid) : q'.find? id = (q.find? id).bind g := by
  have hfind : q'.find? id = (q.table.alter g hg).find? id := by
    show q'.table.rows.find? _ = (q.table.rows.filterMap g).find? _
    rw [h.rows]
  rw [hfind, Table.find?_alter]
  rfl

theorem Queue.AlteredBy.unchanged {q : Queue} : Queue.AlteredBy some q q :=
  ⟨by simp, rfl⟩

theorem Queue.alteredBy_updateWhere (p : Row → Bool) (set : Row → Row)
    (hset : ∀ r, (set r).messageId = r.messageId) (q : Queue) :
    Queue.AlteredBy (fun r => some (if p r then set r else r)) q (q.updateWhere p set hset) :=
  ⟨rfl, rfl⟩

theorem Queue.alteredBy_deleteWhere (p : Row → Bool) (q : Queue) :
    Queue.AlteredBy (fun r => if p r then none else some r) q (q.deleteWhere p) :=
  ⟨rfl, rfl⟩

/-- **The one inversion of `exec`.**  A statement upserts its message id, or
rewrites the rows by its row function; besides, only HEARTBEAT and CLEAN_WORKERS
change the worker table. -/
theorem exec_cases {s t : Database} {a : Statement} (h : s.exec a = some t) :
    (a.enqueued = none ∧ Queue.AlteredBy (a.onRow s) s.queue t.queue) ∨
      ∃ now queueName id doc delay, a.enqueued = some id ∧
        t.queue = Queries.upsert now queueName id doc delay s.queue := by
  cases a with
  | enqueue now queueName id message delay =>
      obtain ⟨p, hp, rfl⟩ := Database.eq_of_ofResult h
      obtain ⟨doc, -, hq⟩ := Queries.exists_of_enqueue_ok hp
      exact Or.inr ⟨now, queueName, id, doc, delay, rfl, hq⟩
  | enqueueQuiet now queueName id message delay =>
      obtain ⟨p, hp, rfl⟩ := Database.eq_of_ofResult h
      cases hquiet : Queries.enqueueQuiet now queueName id message delay s.queue with
      | error e => rw [hquiet] at hp; cases hp
      | ok q =>
          rw [hquiet] at hp
          cases hp
          obtain ⟨doc, -, hq⟩ := Queries.exists_of_enqueueQuiet_ok hquiet
          exact Or.inr ⟨now, queueName, id, doc, delay, rfl, hq⟩
  | claim now queueName limit workerId locked =>
      cases h
      refine Or.inl ⟨rfl, ?_⟩
      have halter := Queue.alteredBy_updateWhere
        (fun r => r.messageId ∈ (Queries.claimNext now queueName limit locked s.queue).map
          Row.messageId) (Queries.claimSet now workerId)
        (Queries.messageId_claimSet now workerId) s.queue
      simp only [decide_eq_true_eq] at halter
      exact halter
  | ack id queueName channel idText =>
      obtain ⟨p, hp, rfl⟩ := Database.eq_of_ofResult h
      refine Or.inl ⟨rfl, ?_⟩
      simp only [Queries.of_ack_ok hp]
      exact Queue.alteredBy_deleteWhere _ _
  | nack now message id queueName channel idText =>
      obtain ⟨p, hp, rfl⟩ := Database.eq_of_ofResult h
      obtain ⟨doc, hdoc, hq⟩ := Queries.exists_of_nack_ok hp
      refine Or.inl ⟨rfl, ?_⟩
      simp only [hq, Statement.onRow, hdoc, Option.getD_some]
      exact Queue.alteredBy_updateWhere _ _ _ _
  | requeue now ids => cases h; exact Or.inl ⟨rfl, Queue.alteredBy_updateWhere _ _ _ _⟩
  | reap now ttl => cases h; exact Or.inl ⟨rfl, Queue.alteredBy_updateWhere _ _ _ _⟩
  | recover now minage => cases h; exact Or.inl ⟨rfl, Queue.alteredBy_updateWhere _ _ _ _⟩
  | purge now maxAge => cases h; exact Or.inl ⟨rfl, Queue.alteredBy_deleteWhere _ _⟩
  | flush => cases h; exact Or.inl ⟨rfl, Queue.alteredBy_deleteWhere _ _⟩
  | deleteByPk pk =>
      cases h
      have halter := Queue.alteredBy_deleteWhere (fun r => r.messageId = pk) s.queue
      simp only [decide_eq_true_eq] at halter
      exact Or.inl ⟨rfl, halter⟩
  | discard selected => cases h; exact Or.inl ⟨rfl, Queue.alteredBy_deleteWhere _ _⟩
  | heartbeat now workerId => cases h; exact Or.inl ⟨rfl, Queue.AlteredBy.unchanged⟩
  | cleanWorkers now maxAge => cases h; exact Or.inl ⟨rfl, Queue.AlteredBy.unchanged⟩

end DramatiqPostgres
