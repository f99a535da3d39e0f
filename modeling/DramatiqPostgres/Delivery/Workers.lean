import DramatiqPostgres.Delivery.Held
import DramatiqPostgres.Lib.Runs

/-!
# Worker processes over one queue table

`deploymentSystem` is the step system of any number of worker processes,
reapers, administrators and senders on one database, one statement or one
in-memory step at a time.

A delivery is `running` from its claim on, whether it waits in a buffer or runs;
its run ends in `done` (to be acked) or `failed` (to be nacked). dramatiq's
`Retries` enqueues a failed message again *before* it acks the old delivery, and
its delay queue enqueues a due message on the base queue before it acks the copy
it holds; `retry` and `hop` are these two enqueues, and leave the delivery
`done`.  A crash forgets the deliveries of a process, nothing else.

Two histories are kept for the laws below: the generations an ack has committed
for, and those an administrator or the purge has removed.

### What is not asked of anybody

Reapers may take a worker for dead that is not, at any moment: the times in the
tables are whatever the statements are given.  An administrator may retry,
discard and recover what is running.  A worker may be as slow as it likes
between any two of its steps, and may never come back.  The laws of this folder
are about exactly this system, each with a condition on the steps of the run if
it needs one; when a worker *should* be taken for dead is the subject of
`Worker/Liveness.lean`.

### The invariant

`Ok` says that the ledger is well formed and that every held delivery is
accounted for (`HeldOk`).  It holds of every run without conditions.
`step_cases` splits a step into a CLAIM and a quiet step that makes no delivery,
and the invariant is one lemma for each.
-/

namespace DramatiqPostgres

open Pg

/-- Where a delivery stands. -/
inductive Phase where
  | running
  | done
  | failed
  deriving DecidableEq

/-- A delivery held by its worker. -/
structure Held where
  delivery : Delivery
  phase : Phase

/-- What identifies a delivery: a CLAIM takes the row of an id once. -/
structure Token where
  claim : ℕ
  messageId : Uuid
  deriving DecidableEq

/-- The token of a delivery. -/
def Delivery.token (d : Delivery) : Token := ⟨d.claim, d.messageId⟩

/-- The database and the deliveries held by the worker processes.  The two lists
are history: what was acked, and what was removed, each with its generation. -/
structure Deployment where
  ledger : Ledger
  held : List Held
  /-- The id and generation of every acked delivery. -/
  acked : List (Uuid × ℕ)
  /-- The id and generation of every row purged, flushed or discarded. -/
  removed : List (Uuid × ℕ)

/-- One step of one party. -/
inductive WorkerAction where
  | enqueue (notify : Bool) (now : Time) (millis : ℤ) (m : Message) (delay : Option ℤ)
  | claim (worker : Uuid) (now : Time) (queueName : String) (limit : ℕ) (locked : List Uuid)
  /-- A run ends well. -/
  | succeed (token : Token)
  /-- A run ends badly, with no retry left. -/
  | fail (token : Token)
  /-- A run ends badly, and `Retries` enqueues its message again, with new
  options. -/
  | retry (token : Token) (notify : Bool) (now : Time) (millis : ℤ)
      (options : List (String × Json)) (delay : Option ℤ)
  /-- The delay queue enqueues a due message on the base queue. -/
  | hop (token : Token) (notify : Bool) (now : Time) (millis : ℤ)
  | ack (token : Token)
  /-- The options of the message may have changed since its claim. -/
  | nack (token : Token) (now : Time) (options : List (String × Json))
  | requeue (worker : Uuid) (tokens : List Token) (now : Time)
  | reap (now ttl : Time)
  | recover (now minage : Time)
  | purge (now maxAge : Time)
  | flush
  | discard (selected : List Uuid)
  | heartbeat (now : Time) (worker : Uuid)
  | cleanWorkers (now maxAge : Time)
  /-- The process of a worker dies. -/
  | crash (worker : Uuid)

namespace Deployment

/-- A fresh installation without workers. -/
def empty : Deployment := ⟨Ledger.empty, [], [], []⟩

/-- The held delivery of a token, in a given phase. -/
def held? (s : Deployment) (token : Token) (phase : Phase) : Option Delivery :=
  (s.held.find? fun h => h.delivery.token = token ∧ h.phase = phase).map Held.delivery

/-- Replace the ledger. -/
def withLedger (s : Deployment) (l : Ledger) : Deployment := { s with ledger := l }

/-- Replace the queue. -/
def withQueue (s : Deployment) (q : Queue) : Deployment := s.withLedger (s.ledger.withQueue q)

/-- Replace the worker table. -/
def withWorkers (s : Deployment) (workers : WorkerTable) : Deployment :=
  s.withLedger { s.ledger with db := { s.ledger.db with workers := workers } }

/-- The run of a delivery ends. -/
def endRun (s : Deployment) (token : Token) (phase : Phase) : Deployment :=
  { s with held := s.held.map fun h =>
      if h.delivery.token = token then { h with phase := phase } else h }

/-- The deliveries of these tokens are settled. -/
def drop (s : Deployment) (tokens : List Token) : Deployment :=
  { s with held := s.held.filter fun h => h.delivery.token ∉ tokens }

/-- `DELETE … WHERE p` by the purge or an administrator. -/
def remove (s : Deployment) (p : Row → Bool) : Deployment :=
  { s.withQueue (s.ledger.db.queue.deleteWhere p) with
    removed := s.removed ++ (s.ledger.db.queue.table.rows.filter p).map fun r =>
      (r.messageId, s.ledger.generation r.messageId) }

/-- The message the delay queue enqueues: on the base queue, without an
`eta`. -/
def hopped (qName : String → String) (m : Message) : Message :=
  { m with queueName := qName m.queueName, options := m.options.filter fun o => o.1 ≠ "eta" }

/-- The state after a step; `none` where it cannot happen, or raises and changes
nothing. -/
def step (dqName qName : String → String) (s : Deployment) : WorkerAction → Option Deployment
  | .enqueue notify now millis m delay =>
      (s.ledger.enqueue dqName notify now millis m delay).map s.withLedger
  | .claim worker now queueName limit locked =>
      (s.ledger.claim worker now queueName limit locked).map fun p =>
        { s.withLedger p.2 with held := s.held ++ p.1.map fun d => ⟨d, .running⟩ }
  | .succeed token => (s.held? token .running).map fun _ => s.endRun token .done
  | .fail token => (s.held? token .running).map fun _ => s.endRun token .failed
  | .retry token notify now millis options delay =>
      (s.held? token .running).bind fun d =>
        (s.ledger.enqueue dqName notify now millis { d.message with options := options } delay).map
          fun l => (s.withLedger l).endRun token .done
  | .hop token notify now millis =>
      (s.held? token .running).bind fun d =>
        (s.ledger.enqueue dqName notify now millis (hopped qName d.message) none).map
          fun l => (s.withLedger l).endRun token .done
  | .ack token =>
      (s.held? token .done).bind fun d => (s.ledger.ack d.message).map fun l =>
        { (s.withLedger l).drop [token] with acked := s.acked ++ [(d.messageId, d.generation)] }
  | .nack token now options =>
      (s.held? token .failed).bind fun d =>
        (s.ledger.nack now { d.message with options := options }).map fun l =>
          (s.withLedger l).drop [token]
  | .requeue worker tokens now =>
      (tokens.mapM fun token => s.held? token .running).bind fun ds =>
        if ∀ d ∈ ds, d.worker = worker then
          (s.ledger.requeue now (ds.map Delivery.message)).map fun l =>
            (s.withLedger l).drop tokens
        else none
  | .reap now ttl => some (s.withQueue (Queries.reap s.ledger.db.workers now ttl s.ledger.db.queue))
  | .recover now minage => some (s.withQueue (Queries.recover now minage s.ledger.db.queue))
  | .purge now maxAge => some (s.remove (Queries.purgeWhere now maxAge))
  | .flush => some (s.remove Queries.flushWhere)
  | .discard selected => some (s.remove (Queries.discardWhere selected))
  | .heartbeat now worker =>
      some (s.withWorkers (Queries.heartbeat now worker s.ledger.db.workers))
  | .cleanWorkers now maxAge =>
      some (s.withWorkers (Queries.cleanWorkers now maxAge s.ledger.db.workers))
  | .crash worker => some { s with held := s.held.filter fun h => h.delivery.worker ≠ worker }

end Deployment

/-- Every run of every number of workers on a fresh installation.  `dqName` and
`qName` are dramatiq's names of a delay queue and of a base queue; nothing is
assumed of them here. -/
def deploymentSystem (dqName qName : String → String) : StepSystem Deployment WorkerAction :=
  ⟨Deployment.empty, Deployment.step dqName qName⟩

/-! ## What a step does -/

namespace Deployment

variable {dqName qName : String → String} {s t : Deployment}

theorem mem_of_held? {token : Token} {phase : Phase} {d : Delivery}
    (h : s.held? token phase = some d) :
    (∃ x ∈ s.held, x.delivery = d) ∧ d.token = token := by
  obtain ⟨x, hx, rfl⟩ := Option.map_eq_some_iff.mp h
  have hp := List.find?_some hx
  simp only [decide_eq_true_eq] at hp
  exact ⟨⟨x, List.mem_of_find?_eq_some hx, rfl⟩, hp.1⟩

/-- Every delivery held in `t` is held in `s`. -/
def HeldFrame (s t : Deployment) : Prop := ∀ x ∈ t.held, ∃ y ∈ s.held, y.delivery = x.delivery

theorem HeldFrame.of_eq (h : t.held = s.held) : HeldFrame s t :=
  fun x hx => ⟨x, h ▸ hx, rfl⟩

theorem heldFrame_endRun (token : Token) (phase : Phase) : HeldFrame s (s.endRun token phase) := by
  intro x hx
  obtain ⟨y, hy, rfl⟩ := List.mem_map.mp hx
  refine ⟨y, hy, ?_⟩
  split_ifs <;> rfl

theorem heldFrame_drop (tokens : List Token) : HeldFrame s (s.drop tokens) :=
  fun x hx => ⟨x, (List.mem_filter.mp hx).1, rfl⟩

/-- A step that is a CLAIM, with the deliveries it makes. -/
structure ClaimStep (s : Deployment) (a : WorkerAction) (t : Deployment) (worker : Uuid)
    (now : Time) (queueName : String) (limit : ℕ) (locked : List Uuid)
    (deliveries : List Delivery) : Prop where
  action : a = .claim worker now queueName limit locked
  claim : s.ledger.claim worker now queueName limit locked = some (deliveries, t.ledger)
  held : t.held = s.held ++ deliveries.map fun d => ⟨d, .running⟩

theorem quiet_withWorkers (s : Deployment) (workers : WorkerTable) :
    s.ledger.Quiet (s.withWorkers workers).ledger :=
  ⟨StateFrame.refl _, fun h => ⟨h.decodes, h.lastClaim_lt⟩, rfl, rfl, fun _ => le_rfl,
    fun _ _ _ _ => rfl⟩

/-- **The one inversion of `step`**: a CLAIM, or a quiet step that makes no
delivery. -/
theorem step_cases {a : WorkerAction} (h : step dqName qName s a = some t) :
    (s.ledger.Quiet t.ledger ∧ HeldFrame s t) ∨
      ∃ worker now queueName limit locked deliveries,
        ClaimStep s a t worker now queueName limit locked deliveries := by
  cases a with
  | enqueue notify now millis m delay =>
      obtain ⟨l, hl, rfl⟩ := Option.map_eq_some_iff.mp h
      exact Or.inl ⟨Ledger.quiet_enqueue hl, HeldFrame.of_eq rfl⟩
  | claim worker now queueName limit locked =>
      obtain ⟨⟨ds, l⟩, hl, rfl⟩ := Option.map_eq_some_iff.mp h
      exact Or.inr ⟨worker, now, queueName, limit, locked, ds, rfl, hl, rfl⟩
  | succeed token | fail token =>
      obtain ⟨d, -, rfl⟩ := Option.map_eq_some_iff.mp h
      exact Or.inl ⟨Ledger.Quiet.refl _, heldFrame_endRun _ _⟩
  | retry | hop =>
      obtain ⟨d, -, h⟩ := Option.bind_eq_some_iff.mp h
      obtain ⟨l, hl, rfl⟩ := Option.map_eq_some_iff.mp h
      exact Or.inl ⟨Ledger.quiet_enqueue hl, heldFrame_endRun (s := s.withLedger l) _ _⟩
  | ack token =>
      obtain ⟨d, -, h⟩ := Option.bind_eq_some_iff.mp h
      obtain ⟨l, hl, rfl⟩ := Option.map_eq_some_iff.mp h
      exact Or.inl ⟨Ledger.quiet_ack hl, heldFrame_drop (s := s.withLedger l) _⟩
  | nack token now options =>
      obtain ⟨d, -, h⟩ := Option.bind_eq_some_iff.mp h
      obtain ⟨l, hl, rfl⟩ := Option.map_eq_some_iff.mp h
      exact Or.inl ⟨Ledger.quiet_nack hl, heldFrame_drop (s := s.withLedger l) _⟩
  | requeue worker tokens now =>
      obtain ⟨ds, -, h⟩ := Option.bind_eq_some_iff.mp h
      split_ifs at h
      obtain ⟨l, hl, rfl⟩ := Option.map_eq_some_iff.mp h
      exact Or.inl ⟨Ledger.quiet_requeue hl, heldFrame_drop (s := s.withLedger l) _⟩
  | reap now ttl =>
      cases h
      exact Or.inl ⟨Ledger.quiet_putBack _ _ _, HeldFrame.of_eq rfl⟩
  | recover now minage =>
      cases h
      exact Or.inl ⟨Ledger.quiet_recover _ _ _, HeldFrame.of_eq rfl⟩
  | purge | flush | discard =>
      cases h
      exact Or.inl ⟨Ledger.quiet_deleteWhere _ _, HeldFrame.of_eq rfl⟩
  | heartbeat | cleanWorkers =>
      cases h
      exact Or.inl ⟨quiet_withWorkers s _, HeldFrame.of_eq rfl⟩
  | crash worker =>
      cases h
      exact Or.inl ⟨Ledger.Quiet.refl _, fun x hx => ⟨x, (List.mem_filter.mp hx).1, rfl⟩⟩

/-! ## The invariant of every run -/

/-- The ledger is well formed, and every held delivery is accounted for. -/
structure Ok (s : Deployment) : Prop where
  wf : s.ledger.Wf
  held : ∀ x ∈ s.held, HeldOk s.ledger x.delivery

theorem ok_empty : Ok empty := ⟨Ledger.wf_empty, fun _ hx => by simp [empty] at hx⟩

/-- **Every step keeps the invariant.** -/
theorem Ok.step {a : WorkerAction} (hok : Ok s) (h : step dqName qName s a = some t) : Ok t := by
  rcases step_cases h with ⟨hquiet, hheld⟩ | ⟨worker, now, queueName, limit, locked, ds, hstep⟩
  · refine ⟨hquiet.wf hok.wf, fun x hx => ?_⟩
    obtain ⟨y, hy, hxy⟩ := hheld x hx
    exact hxy ▸ (hok.held y hy).quiet hquiet
  · refine ⟨Ledger.wf_claim hok.wf hstep.claim, fun x hx => ?_⟩
    rw [hstep.held, List.mem_append] at hx
    rcases hx with hx | hx
    · exact (hok.held x hx).claim hstep.claim
    · obtain ⟨d, hd, rfl⟩ := List.mem_map.mp hx
      exact heldOk_of_claim hok.wf hstep.claim hd

/-- A quiet statement of a party outside keeps the invariant, and so does its
claim. -/
theorem Ok.withLedger {l : Ledger} (hok : Ok s) (hquiet : s.ledger.Quiet l) : Ok (s.withLedger l) :=
  ⟨hquiet.wf hok.wf, fun x hx => (hok.held x hx).quiet hquiet⟩

theorem Ok.withLedger_claim {l : Ledger} {worker : Uuid} {now : Time} {queueName : String}
    {limit : ℕ} {locked : List Uuid} {ds : List Delivery} (hok : Ok s)
    (h : s.ledger.claim worker now queueName limit locked = some (ds, l)) : Ok (s.withLedger l) :=
  ⟨Ledger.wf_claim hok.wf h, fun x hx => (hok.held x hx).claim h⟩

/-- The invariant at the steps of a run. -/
theorem ok_of_mem_taken {as : List WorkerAction} {p : Deployment × WorkerAction}
    (hp : p ∈ (deploymentSystem dqName qName).taken as) : Ok p.1 :=
  StepSystem.inv_of_mem_taken (C := fun _ _ => True) ok_empty
    (fun _ _ _ hok _ hstep => hok.step hstep) (fun _ _ => trivial) hp

theorem Ok.heldOk {token : Token} {phase : Phase} {d : Delivery} (hok : Ok s)
    (h : s.held? token phase = some d) : HeldOk s.ledger d := by
  obtain ⟨⟨x, hx, rfl⟩, -⟩ := mem_of_held? h
  exact hok.held x hx

end Deployment

end DramatiqPostgres
