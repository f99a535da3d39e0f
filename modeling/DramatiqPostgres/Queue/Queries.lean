import DramatiqPostgres.Lib.Table
import DramatiqPostgres.Pg.Notify
import DramatiqPostgres.Pg.Uuid
import Mathlib.Data.List.Sort

/-!
# The queue and worker tables and their statements

The tables of `schema.sql` and one definition for each statement of
`broker.QUERIES` and `cli.QUERIES` that writes them, together with the two
deletions the admin makes through the ORM.

Each statement is a row-level predicate (its `WHERE`) and a row-level function
(its `SET`), put together by `Table.updateWhere`, `Table.deleteWhere` or
`Table.upsert`; `NOW()` is a parameter, the start of the statement's
transaction.  Keeping the two row-level parts as definitions of their own lets
the interleaving models, which lock and re-check rows one by one, speak of the
same `WHERE` and `SET`.

### What a statement returns

A statement that sends notifications can raise through `pg_notify`, and a raised
statement leaves no trace: it returns no table.  The others return the table
alone.  CLAIM also returns the rows it took, in an order that the SQL leaves
open, so whoever uses them gets a permutation.

### Choices that matter below

* **CLAIM skips locked rows.**  Which rows are locked is a parameter here, since
  a sequence of atomic statements has no locks; in the model of row locks it is
  a fact about the state.
* **An upsert keeps the position** of a row that is there, and writes everything
  else.  It also advances the sequence, as the insertion it attempts does.
* **ACK and NACK name the queue** besides the id, and ACK the state `consumed`,
  but neither names the worker.  Who calls them for a delivery that is not its
  own is not found out.
* **RECOVER does not write `mtime`**, which all other statements that set the
  state do.
-/

namespace DramatiqPostgres

open Pg

/-! ## Rows -/

/-- The enumeration `state`. -/
inductive JobState where
  | queued
  | consumed
  | rejected
  deriving DecidableEq, Repr

/-- A row of the table `queue`.  The columns that no row leaves NULL are not
optional here. -/
structure Row where
  messageId : Uuid
  queueName : String
  state : JobState
  mtime : Time
  /-- The message as encoded by dramatiq. -/
  message : Json
  /-- The enqueue counter, tie-breaker of the FIFO order. -/
  position : ℕ
  /-- Not delivered before this time. -/
  availableAt : Time
  /-- The worker that owns the message while it is consumed. -/
  workerId : Option Uuid
  consumedAt : Option Time

/-- A row of the table `worker`. -/
structure WorkerRow where
  workerId : Uuid
  heartbeatAt : Time

/-- The table `worker`. -/
abbrev WorkerTable := Table WorkerRow WorkerRow.workerId

/-- The table `queue`, and the next value of the sequence behind `position`. -/
structure Queue where
  table : Table Row Row.messageId
  nextPosition : ℕ

namespace Queue

/-- The queue of a fresh installation. -/
def empty : Queue := ⟨Table.empty, 1⟩

/-- The row of a message id. -/
def find? (q : Queue) (id : Uuid) : Option Row := q.table.find? id

/-- `UPDATE … SET set WHERE p`. -/
def updateWhere (p : Row → Bool) (set : Row → Row)
    (hset : ∀ r, (set r).messageId = r.messageId) (q : Queue) : Queue :=
  { q with table := q.table.updateWhere p set hset }

/-- `DELETE … WHERE p`. -/
def deleteWhere (p : Row → Bool) (q : Queue) : Queue :=
  { q with table := q.table.deleteWhere p }

@[simp] theorem find?_updateWhere (p : Row → Bool) (set : Row → Row)
    (hset : ∀ r, (set r).messageId = r.messageId) (q : Queue) (id : Uuid) :
    (q.updateWhere p set hset).find? id = (q.find? id).map fun r => if p r then set r else r :=
  Table.find?_updateWhere p set hset q.table id

@[simp] theorem find?_deleteWhere (p : Row → Bool) (q : Queue) (id : Uuid) :
    (q.deleteWhere p).find? id = (q.find? id).bind fun r => if p r then none else some r :=
  Table.find?_deleteWhere p q.table id

theorem messageId_of_find? {q : Queue} {id : Uuid} {r : Row} (h : q.find? id = some r) :
    r.messageId = id := Table.key_of_find? h

end Queue

namespace Queries

/-! ## ENQUEUE, ENQUEUE_QUIET -/

/-- `NOW() + make_interval(secs => delay / 1000.0)`, with the delay in
milliseconds. -/
def availableAt (now delay : ℤ) : Time := now + 1000 * delay

/-- The inserted row: columns not named by the statement take their defaults. -/
def enqueueRow (now : Time) (queueName : String) (messageId : Uuid) (message : Json) (delay : ℤ)
    (position : ℕ) : Row where
  messageId := messageId
  queueName := queueName
  state := .queued
  mtime := now
  message := message
  position := position
  availableAt := availableAt now delay
  workerId := none
  consumedAt := none

/-- `ON CONFLICT (message_id) DO UPDATE SET`. -/
def enqueueSet (now : Time) (queueName : String) (message : Json) (delay : ℤ) (r : Row) : Row :=
  { r with
    state := .queued
    message := message
    queueName := queueName
    availableAt := availableAt now delay
    workerId := none
    consumedAt := none
    mtime := now }

@[simp] theorem messageId_enqueueSet (now : Time) (queueName : String) (message : Json) (delay : ℤ)
    (r : Row) : (enqueueSet now queueName message delay r).messageId = r.messageId := rfl

/-- The upsert both statements make.  The sequence behind `position` advances
with every attempt, and an existing row keeps the position it has, so a message
that is enqueued again stays where it was in the order of its due time. -/
def upsert (now : Time) (queueName : String) (messageId : Uuid) (message : Json) (delay : ℤ)
    (q : Queue) : Queue where
  table := q.table.upsert (enqueueRow now queueName messageId message delay q.nextPosition)
    (enqueueSet now queueName message delay) (messageId_enqueueSet now queueName message delay)
  nextPosition := q.nextPosition + 1

/-- The values the upsert stores: both texts have to be storable. -/
def enqueueValues (queueName : String) (message : Json) : Except PgError Json :=
  if Json.storable queueName then
    match message.jsonb with
    | some doc => .ok doc
    | none => .error .untranslatable
  else .error .untranslatable

/-- `ENQUEUE_QUIET`. -/
def enqueueQuiet (now : Time) (queueName : String) (messageId : Uuid) (message : Json) (delay : ℤ)
    (q : Queue) : Except PgError Queue := do
  let doc ← enqueueValues queueName message
  return upsert now queueName messageId doc delay q

/-- `ENQUEUE`: the upsert, and one notification without a payload. -/
def enqueue (now : Time) (queueName : String) (messageId : Uuid) (message : Json) (delay : ℤ)
    (q : Queue) : Except PgError (Queue × List Notification) := do
  let doc ← enqueueValues queueName message
  let notification ← pgNotify ("dramatiq." ++ queueName ++ ".enqueue") .empty
  return (upsert now queueName messageId doc delay q, [notification])

theorem exists_of_enqueueQuiet_ok {now : Time} {queueName : String} {messageId : Uuid}
    {message : Json} {delay : ℤ} {q q' : Queue}
    (h : enqueueQuiet now queueName messageId message delay q = .ok q') :
    ∃ doc, message.jsonb = some doc ∧ q' = upsert now queueName messageId doc delay q := by
  unfold enqueueQuiet enqueueValues at h
  split_ifs at h
  · cases hdoc : message.jsonb with
    | none => simp [hdoc, bind, Except.bind] at h
    | some doc =>
        simp only [hdoc, bind, Except.bind, pure, Except.pure, Except.ok.injEq] at h
        exact ⟨doc, rfl, h.symm⟩
  · simp [bind, Except.bind] at h

theorem exists_of_enqueue_ok {now : Time} {queueName : String} {messageId : Uuid}
    {message : Json} {delay : ℤ} {q : Queue} {p : Queue × List Notification}
    (h : enqueue now queueName messageId message delay q = .ok p) :
    ∃ doc, message.jsonb = some doc ∧ p.1 = upsert now queueName messageId doc delay q := by
  have hquiet : enqueueQuiet now queueName messageId message delay q = .ok p.1 := by
    unfold enqueue at h
    unfold enqueueQuiet
    cases hvalues : enqueueValues queueName message with
    | error e => simp [hvalues, bind, Except.bind] at h
    | ok doc =>
        cases hnotify : pgNotify ("dramatiq." ++ queueName ++ ".enqueue") .empty with
        | error e => simp [hvalues, hnotify, bind, Except.bind] at h
        | ok n =>
            simp only [hvalues, hnotify, bind, Except.bind, pure, Except.pure,
              Except.ok.injEq] at h
            simp [bind, Except.bind, pure, Except.pure, ← h]
  exact exists_of_enqueueQuiet_ok hquiet

/-! ## CLAIM -/

/-- The `WHERE` of the candidate rows. -/
def claimWhere (now : Time) (queueName : String) (r : Row) : Bool :=
  r.queueName = queueName ∧ r.state = .queued ∧ r.availableAt ≤ now

/-- `ORDER BY available_at, position`. -/
def claimOrder (r s : Row) : Prop :=
  r.availableAt < s.availableAt ∨ (r.availableAt = s.availableAt ∧ r.position ≤ s.position)

instance : DecidableRel claimOrder := fun r s => by unfold claimOrder; infer_instance

/-- The rows of `next`: the first `limit` of those that meet the condition, in
the order of CLAIM.  Rows locked by other transactions are skipped, and do not
count. -/
def claimNext (now : Time) (queueName : String) (limit : ℕ) (locked : List Uuid) (q : Queue) :
    List Row :=
  ((q.table.rows.filter fun r => claimWhere now queueName r ∧ r.messageId ∉ locked).insertionSort
    claimOrder).take limit

/-- The `SET` of the update. -/
def claimSet (now : Time) (workerId : Uuid) (r : Row) : Row :=
  { r with state := .consumed, workerId := some workerId, consumedAt := some now, mtime := now }

@[simp] theorem messageId_claimSet (now : Time) (workerId : Uuid) (r : Row) :
    (claimSet now workerId r).messageId = r.messageId := rfl

/-- `UPDATE … FROM next WHERE q.message_id = next.message_id`. -/
def claimUpdate (now : Time) (workerId : Uuid) (ids : List Uuid) (q : Queue) : Queue :=
  q.updateWhere (fun r => r.messageId ∈ ids) (claimSet now workerId)
    (messageId_claimSet now workerId)

/-- `CLAIM`: the claimed rows, in an order the statement leaves open, and the
table. -/
def claim (now : Time) (queueName : String) (limit : ℕ) (workerId : Uuid) (locked : List Uuid)
    (q : Queue) : List Row × Queue :=
  let next := claimNext now queueName limit locked q
  (next.map (claimSet now workerId), claimUpdate now workerId (next.map Row.messageId) q)

theorem mem_claimNext {now : Time} {queueName : String} {limit : ℕ} {locked : List Uuid}
    {q : Queue} {r : Row} (h : r ∈ claimNext now queueName limit locked q) :
    r ∈ q.table ∧ claimWhere now queueName r = true ∧ r.messageId ∉ locked := by
  have hmem := (List.mem_insertionSort claimOrder).mp (List.mem_of_mem_take h)
  simp only [List.mem_filter, decide_eq_true_eq] at hmem
  exact hmem

/-- The ids of `next` single out its rows in the table. -/
theorem mem_claimNext_of_messageId {now : Time} {queueName : String} {limit : ℕ}
    {locked : List Uuid} {q : Queue} {r : Row} (hr : r ∈ q.table)
    (h : r.messageId ∈ (claimNext now queueName limit locked q).map Row.messageId) :
    r ∈ claimNext now queueName limit locked q := by
  obtain ⟨s, hs, hid⟩ := List.mem_map.mp h
  rwa [Table.eq_of_key_eq hr (mem_claimNext hs).1 hid.symm]

/-! ## ACK, NACK -/

/-- What ACK and NACK send: the stored message, or its id where that is too
long. -/
def donePayload (message : Json) (messageId : String) : PgText :=
  if 8000 ≤ message.octetLength then .json (.obj [("message_id", .str messageId)])
  else .json message

/-- The `WHERE` of ACK: any consumed row of the message in this queue, whoever
has claimed it. -/
def ackWhere (messageId : Uuid) (queueName : String) (r : Row) : Bool :=
  r.messageId = messageId ∧ r.queueName = queueName ∧ r.state = .consumed

/-- The `DELETE` of ACK, without its notification. -/
def ackDelete (messageId : Uuid) (queueName : String) (q : Queue) : Queue :=
  q.deleteWhere (ackWhere messageId queueName)

/-- `ACK`: delete the row and send it to `channel`. -/
def ack (messageId : Uuid) (queueName channel idText : String) (q : Queue) :
    Except PgError (Queue × List Notification) := do
  let acked := q.table.rows.filter (ackWhere messageId queueName)
  let notifications ← acked.mapM fun r => pgNotify channel (donePayload r.message idText)
  return (ackDelete messageId queueName q, notifications)

/-- The `WHERE` of NACK. -/
def nackWhere (messageId : Uuid) (queueName : String) (r : Row) : Bool :=
  r.messageId = messageId ∧ r.queueName = queueName ∧ r.state ≠ .rejected

/-- The `SET` of NACK. -/
def nackSet (now : Time) (message : Json) (r : Row) : Row :=
  { r with state := .rejected, message := message, workerId := none, mtime := now }

@[simp] theorem messageId_nackSet (now : Time) (message : Json) (r : Row) :
    (nackSet now message r).messageId = r.messageId := rfl

/-- The `UPDATE` of NACK, without its notification. -/
def nackUpdate (now : Time) (message : Json) (messageId : Uuid) (queueName : String) (q : Queue) :
    Queue :=
  q.updateWhere (nackWhere messageId queueName) (nackSet now message)
    (messageId_nackSet now message)

/-- `NACK`: reject the row and send it, with the new message, to `channel`. -/
def nack (now : Time) (message : Json) (messageId : Uuid) (queueName channel idText : String)
    (q : Queue) : Except PgError (Queue × List Notification) := do
  match message.jsonb with
  | none => .error .untranslatable
  | some doc =>
      let updated := q.table.rows.filter (nackWhere messageId queueName)
      let notifications ← updated.mapM fun _ => pgNotify channel (donePayload doc idText)
      return (nackUpdate now doc messageId queueName q, notifications)

theorem of_ack_ok {messageId : Uuid} {queueName channel idText : String} {q : Queue}
    {p : Queue × List Notification} (h : ack messageId queueName channel idText q = .ok p) :
    p.1 = ackDelete messageId queueName q := by
  unfold ack at h
  cases hsent : (q.table.rows.filter (ackWhere messageId queueName)).mapM
      fun r => pgNotify channel (donePayload r.message idText) with
  | error e => simp [hsent, bind, Except.bind] at h
  | ok ns =>
      simp only [hsent, bind, Except.bind, pure, Except.pure, Except.ok.injEq] at h
      rw [← h]

theorem exists_of_nack_ok {now : Time} {message : Json} {messageId : Uuid}
    {queueName channel idText : String} {q : Queue} {p : Queue × List Notification}
    (h : nack now message messageId queueName channel idText q = .ok p) :
    ∃ doc, message.jsonb = some doc ∧ p.1 = nackUpdate now doc messageId queueName q := by
  unfold nack at h
  cases hdoc : message.jsonb with
  | none => simp [hdoc] at h
  | some doc =>
      simp only [hdoc] at h
      cases hsent : (q.table.rows.filter (nackWhere messageId queueName)).mapM
          fun _ => pgNotify channel (donePayload doc idText) with
      | error e => simp [hsent, bind, Except.bind] at h
      | ok ns =>
          simp only [hsent, bind, Except.bind, pure, Except.pure, Except.ok.injEq] at h
          exact ⟨doc, rfl, by rw [← h]⟩

/-! ## REQUEUE, REAP, RECOVER -/

/-- The `SET` of REQUEUE and REAP. -/
def putBackSet (now : Time) (r : Row) : Row :=
  { r with state := .queued, workerId := none, consumedAt := none, mtime := now }

@[simp] theorem messageId_putBackSet (now : Time) (r : Row) :
    (putBackSet now r).messageId = r.messageId := rfl

/-- The `WHERE` of REQUEUE. -/
def requeueWhere (ids : List Uuid) (r : Row) : Bool := r.messageId ∈ ids ∧ r.state = .consumed

/-- `REQUEUE`. -/
def requeue (now : Time) (ids : List Uuid) (q : Queue) : Queue :=
  q.updateWhere (requeueWhere ids) (putBackSet now) (messageId_putBackSet now)

/-- `EXISTS (SELECT 1 FROM worker …)`: the worker's heartbeat is less than `ttl`
old. -/
def isAlive (workers : WorkerTable) (now ttl : Time) (workerId : Uuid) : Bool :=
  (workers.find? workerId).any fun w => now - ttl < w.heartbeatAt

/-- The `WHERE` of REAP: a consumed row whose owner is missing or has no fresh
heartbeat. -/
def reapWhere (workers : WorkerTable) (now ttl : Time) (r : Row) : Bool :=
  r.state = .consumed ∧ r.workerId.all (fun w => !isAlive workers now ttl w) = true

/-- `REAP`. -/
def reap (workers : WorkerTable) (now ttl : Time) (q : Queue) : Queue :=
  q.updateWhere (reapWhere workers now ttl) (putBackSet now) (messageId_putBackSet now)

/-- The `SET` of RECOVER, which leaves `mtime` alone. -/
def recoverSet (r : Row) : Row :=
  { r with state := .queued, workerId := none, consumedAt := none }

@[simp] theorem messageId_recoverSet (r : Row) : (recoverSet r).messageId = r.messageId := rfl

/-- The `WHERE` of RECOVER. -/
def recoverWhere (now minage : Time) (r : Row) : Bool :=
  r.state = .consumed ∧ r.mtime < now - minage

/-- `RECOVER` of the command line. -/
def recover (now minage : Time) (q : Queue) : Queue :=
  q.updateWhere (recoverWhere now minage) recoverSet messageId_recoverSet

/-! ## Deletions -/

/-- The `WHERE` of PURGE. -/
def purgeWhere (now maxAge : Time) (r : Row) : Bool :=
  r.state = .rejected ∧ r.mtime ≤ now - maxAge

/-- `PURGE`. -/
def purge (now maxAge : Time) (q : Queue) : Queue := q.deleteWhere (purgeWhere now maxAge)

/-- The `WHERE` of FLUSH. -/
def flushWhere (r : Row) : Bool := r.state = .queued ∨ r.state = .consumed

/-- `FLUSH` of the command line. -/
def flush (q : Queue) : Queue := q.deleteWhere flushWhere

/-- `Job.objects.filter(pk=pk).delete()`. -/
def deleteByPk (pk : Uuid) (q : Queue) : Queue := q.deleteWhere fun r => r.messageId = pk

/-- The `WHERE` of `action_discard`'s deletion. -/
def discardWhere (selected : List Uuid) (r : Row) : Bool :=
  r.messageId ∈ selected ∧ r.state ≠ .consumed

/-- `queryset.exclude(state=CONSUMED).delete()`. -/
def discard (selected : List Uuid) (q : Queue) : Queue := q.deleteWhere (discardWhere selected)

/-! ## The worker table -/

/-- `HEARTBEAT`. -/
def heartbeat (now : Time) (workerId : Uuid) (workers : WorkerTable) : WorkerTable :=
  workers.upsert ⟨workerId, now⟩ (fun w => { w with heartbeatAt := now }) (fun _ => rfl)

/-- `CLEAN_WORKERS`. -/
def cleanWorkers (now maxAge : Time) (workers : WorkerTable) : WorkerTable :=
  workers.deleteWhere fun w => w.heartbeatAt < now - maxAge

end Queries

end DramatiqPostgres
