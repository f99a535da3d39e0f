import DramatiqPostgres.Delivery.Held
import DramatiqPostgres.Lib.Runs

/-!
# The admin's "Requeue selected jobs"

`action_retry` reads the selected jobs once.  It then skips those whose *copy*
is running or has no actor, and for each of the others deletes the row by its
primary key and enqueues the message again.  The deletion does not look at the
state the row has by then.

`retrySystem` interleaves any number of administrators, one step of
`action_retry` at a time, with the statements of everybody else.  Between the
read and the deletion of a job anything may happen to its row: a worker may
claim it, settle it, or it may be purged.

### The law

`TakesNone` is about one step, in the state before it: a deletion meets no
`consumed` row, and neither does an enqueue, whose upsert would set the row back
to `queued`.  It is not about the reply to the administrator, nor about a job
that is lost (`Admin.RetryFailure`).

### Which hypothesis is load-bearing

Only CLAIM makes a row consumed (`consumedFrame_exec`), so the law holds in
every run whose claims leave alone what a running `action_retry` has read as
idle (`takesNone_of_undisturbed`).  `Undisturbed` says that of each step: a
condition on the rows a claim would take, and on the copies the action still has
to work on.  It does not ask that no claim runs meanwhile.

The second half of `Undisturbed` is about payloads.  The action deletes by the
primary key and enqueues under the id of the payload, and the two are the same
for every message the broker has written (`key?_rebuild`).  For a row whose
payload carries another id, the enqueue could meet the row of another message,
which no test of the action has looked at.

The invariant is that nothing reserved is consumed, where `Task.reserved` is
what a task still has to delete or to enqueue.  It is true of the queryset as it
is read, because the copies that are running are skipped.
-/

namespace DramatiqPostgres

open Pg

/-! ## Rebuilding a message -/

namespace Admin

/-- `payload.get(key) or default`, for a text.  An empty one is replaced as
well. -/
def textOr (payload : Json) (key default : String) : String :=
  match payload.get? key with
  | some (.str s) => if s = "" then default else s
  | _ => default

/-- `payload.get(key) or default`, for a number. -/
def numberOr (payload : Json) (key : String) (default : ℤ) : ℤ :=
  match payload.get? key with
  | some (.int n) => if n = 0 then default else n
  | _ => default

/-- `payload.get(key) or []`. -/
def itemsOr (payload : Json) (key : String) : List Json :=
  match payload.get? key with
  | some (.arr items) => items
  | _ => []

/-- `payload.get(key) or {}`. -/
def fieldsOr (payload : Json) (key : String) : List (String × Json) :=
  match payload.get? key with
  | some (.obj fields) => fields
  | _ => []

/-- `Job.is_running`, of the copy that was read. -/
def isRunning (job : Row) : Bool := job.state = .consumed

/-- Whether the payload has an actor; without one the job is skipped. -/
def hasActor (job : Row) : Bool := textOr job.message "actor_name" "" ≠ ""

/-- The jobs `action_retry` does not skip.  Both tests are on the copy. -/
def retries (job : Row) : Bool := !isRunning job && hasActor job

/-- The message `action_retry` enqueues for a job, without its retry counter and
traceback, so that it gets its full retry cycle again. -/
def rebuild (millis : ℤ) (job : Row) : Message where
  queueName := textOr job.message "queue_name" job.queueName
  actorName := textOr job.message "actor_name" ""
  args := itemsOr job.message "args"
  kwargs := fieldsOr job.message "kwargs"
  options := (fieldsOr job.message "options").filter fun o => o.1 ≠ "retries" ∧ o.1 ≠ "traceback"
  messageId := textOr job.message "message_id" job.messageId.toText
  messageTimestamp := numberOr job.message "message_timestamp" millis

/-- A job whose payload decodes is rebuilt under its own id: the broker writes
the id of the message into the row. -/
theorem key?_rebuild {job : Row} (h : job.Decodes) (millis : ℤ) :
    (rebuild millis job).key? = some job.messageId := by
  obtain ⟨m, hm, hkey, -⟩ := h
  have hid : job.message.get? "message_id" = some (.str m.messageId) := by
    unfold Message.ofJson? at hm
    split at hm
    · next hid _ =>
        cases hm
        exact hid
    · cases hm
  show Uuid.ofText? (textOr job.message "message_id" job.messageId.toText) = _
  unfold textOr
  simp only [hid]
  split_ifs with hempty
  · exact Uuid.ofText?_toText _
  · exact hkey

/-! ## The action, step by step -/

/-- Where an administrator's `action_retry` is.  The copies it holds are those
of the queryset, as they were then. -/
inductive Task where
  | idle
  /-- About to check the first of these copies. -/
  | looping (jobs : List Row)
  /-- Past the checks of `job`, about to delete its row. -/
  | deleting (job : Row) (rest : List Row)
  /-- The row is deleted, and the message about to be enqueued. -/
  | enqueueing (m : Message) (rest : List Row)

/-- The database and the administrators, of whom each has one task at a time. -/
structure State (n : ℕ) where
  db : Database
  tasks : Fin n → Task

/-- One step of an administrator, or a statement of another party. -/
inductive Action (n : ℕ) where
  /-- The queryset is evaluated: the selected jobs that exist, in its order. -/
  | evaluate (i : Fin n) (selected : List Uuid)
  | check (i : Fin n)
  | delete (i : Fin n) (millis : ℤ)
  /-- `broker.enqueue`; an exception ends the action. -/
  | enqueue (i : Fin n) (notify : Bool) (now : Time) (millis : ℤ)
  | other (a : Statement)

namespace State

variable {n : ℕ}

/-- Replace an administrator's task. -/
def setTask (s : State n) (i : Fin n) (task : Task) : State n :=
  { s with tasks := Function.update s.tasks i task }

/-- Replace the queue. -/
def withQueue (s : State n) (q : Queue) : State n := { s with db := { s.db with queue := q } }

/-- The state after a step.  The two statements of a retried job are two steps:
Django commits the deletion before the broker takes a connection. -/
def step (dqName : String → String) (s : State n) : Action n → Option (State n)
  | .evaluate i selected =>
      match s.tasks i with
      | .idle => some (s.setTask i (.looping (selected.filterMap s.db.queue.find?)))
      | _ => none
  | .check i =>
      match s.tasks i with
      | .looping (job :: rest) =>
          some (s.setTask i (if retries job then .deleting job rest else .looping rest))
      | .looping [] => some (s.setTask i .idle)
      | _ => none
  | .delete i millis =>
      match s.tasks i with
      | .deleting job rest =>
          some ((s.withQueue (Queries.deleteByPk job.messageId s.db.queue)).setTask i
            (.enqueueing (rebuild millis job) rest))
      | _ => none
  | .enqueue i notify now millis =>
      match s.tasks i with
      | .enqueueing m rest =>
          match PostgresBroker.enqueue dqName notify now millis m none s.db.queue with
          | .ok p => some ((s.withQueue p.2.1).setTask i (.looping rest))
          | .error _ => some (s.setTask i .idle)
      | _ => none
  | .other a => (s.db.exec a).map fun db => { s with db := db }

end State

/-- Every run of `n` administrators on a database, in any state and with any
messages in it. -/
def retrySystem (n : ℕ) (dqName : String → String) (db : Database) :
    StepSystem (State n) (Action n) :=
  ⟨⟨db, fun _ => .idle⟩, State.step dqName⟩

/-! ## The law and its condition -/

section Law

variable {n : ℕ}

/-- The row of an id is consumed: a worker holds the message, or has died with
it. -/
def IsConsumed (q : Queue) (id : Uuid) : Prop := ∃ r, q.find? id = some r ∧ r.state = .consumed

/-- **`action_retry` takes no message from a worker**: what it deletes is not
consumed, and neither is a row it enqueues. -/
structure TakesNone (s : State n) (a : Action n) : Prop where
  delete : ∀ i millis job rest, a = .delete i millis → s.tasks i = .deleting job rest →
    ¬ IsConsumed s.db.queue job.messageId
  enqueue : ∀ i notify now millis m rest id, a = .enqueue i notify now millis →
    s.tasks i = .enqueueing m rest → m.key? = some id → ¬ IsConsumed s.db.queue id

/-- The ids a task still has to delete or to enqueue. -/
def Task.reserved : Task → List Uuid
  | idle => []
  | looping jobs => (jobs.filter retries).map Row.messageId
  | deleting job rest => job.messageId :: (rest.filter retries).map Row.messageId
  | enqueueing m rest => m.key?.toList ++ (rest.filter retries).map Row.messageId

/-- **What must not happen while `action_retry` runs**: a claim of a message
that a running action has read as idle, and a retry of a payload with another id
than its row's. -/
def Undisturbed (s : State n) : Action n → Prop
  -- A claim takes no message that a running action has read as idle and is not done with.
  | .other (.claim now queueName limit _ locked) =>
      ∀ i, ∀ id ∈ (s.tasks i).reserved, id ∉ claimedIds now queueName limit locked s.db.queue
  -- The payload of a job to be retried carries the job's own id.
  | .delete i millis =>
      match s.tasks i with
      | .deleting job _ => (rebuild millis job).key? = some job.messageId
      | _ => True
  | _ => True

instance (s : State n) (a : Action n) : Decidable (Undisturbed s a) := by
  unfold Undisturbed
  split
  · infer_instance
  · split <;> infer_instance
  · infer_instance

end Law

/-! ## What statements make consumed -/

/-- **Only CLAIM makes a row consumed.**  An upsert leaves its row queued, and
no other statement sets that state. -/
theorem consumedFrame_exec {db db' : Database} {a : Statement} (h : db.exec a = some db')
    (hclaim : ∀ now queueName limit workerId locked,
      a ≠ .claim now queueName limit workerId locked) :
    StateFrame .consumed db.queue db'.queue := by
  rcases exec_cases h with ⟨-, halter⟩ | ⟨now, queueName, id, doc, delay, -, hq⟩
  · refine halter.stateFrame fun r r' hr hconsumed => ?_
    cases a with
    | claim now queueName limit workerId locked => exact absurd rfl (hclaim _ _ _ _ _)
    | enqueue | enqueueQuiet | heartbeat | cleanWorkers => exact Option.some_inj.mp hr
    | ack | purge | flush | deleteByPk | discard =>
        simp only [Statement.onRow] at hr
        split_ifs at hr
        exact Option.some_inj.mp hr
    | nack | requeue | reap | recover =>
        simp only [Statement.onRow, Option.some_inj] at hr
        split_ifs at hr
        · rw [← hr] at hconsumed
          cases hconsumed
        · exact hr
  · rw [hq]
    exact Queries.stateFrame_upsert (by decide) now queueName id doc delay db.queue

theorem IsConsumed.of_frame {q q' : Queue} (hframe : StateFrame .consumed q q') {id : Uuid}
    (h : IsConsumed q' id) : IsConsumed q id := by
  obtain ⟨r, hr, hconsumed⟩ := h
  exact ⟨r, hframe id r hr hconsumed, hconsumed⟩

/-- A claim makes nothing consumed but what it takes. -/
theorem IsConsumed.of_claim {now : Time} {queueName : String} {limit : ℕ} {workerId : Uuid}
    {locked : List Uuid} {q : Queue} {id : Uuid}
    (h : IsConsumed (Queries.claim now queueName limit workerId locked q).2 id)
    (hid : id ∉ claimedIds now queueName limit locked q) : IsConsumed q id := by
  obtain ⟨r, hr, hconsumed⟩ := h
  rcases find?_claimUpdate workerId now queueName limit locked q id with ⟨hin, -⟩ | ⟨-, hsame⟩
  · exact absurd hin hid
  · exact ⟨r, hsame.symm.trans hr, hconsumed⟩

/-! ## The invariant -/

section Invariant

variable {n : ℕ} {dqName : String → String} {s t : State n}

/-- No row that a running action still has to delete or to enqueue is
consumed. -/
def Ok (s : State n) : Prop := ∀ i, ∀ id ∈ (s.tasks i).reserved, ¬ IsConsumed s.db.queue id

theorem ok_init (db : Database) : Ok (⟨db, fun _ => .idle⟩ : State n) :=
  fun _ _ hid => absurd hid List.not_mem_nil

/-- A step of one administrator: its own task is in order, and nothing becomes
consumed. -/
theorem ok_setTask {i : Fin n} {task : Task} (hok : Ok s)
    (htasks : t.tasks = Function.update s.tasks i task)
    (hframe : StateFrame .consumed s.db.queue t.db.queue)
    (htask : ∀ id ∈ task.reserved, ¬ IsConsumed t.db.queue id) : Ok t := by
  intro j id hid
  rw [htasks] at hid
  by_cases hj : j = i
  · rw [hj, Function.update_self] at hid
    exact htask id hid
  · rw [Function.update_of_ne hj] at hid
    exact fun hconsumed => hok j id hid (hconsumed.of_frame hframe)

/-- The copies that are not running were read in another state than consumed,
and the rows still are in that state when the queryset has just been read. -/
theorem not_isConsumed_of_evaluate {q : Queue} {selected : List Uuid} {id : Uuid}
    (h : id ∈ (Task.looping (selected.filterMap q.find?)).reserved) : ¬ IsConsumed q id := by
  obtain ⟨job, hjob, rfl⟩ := List.mem_map.mp h
  obtain ⟨hmem, hretries⟩ := List.mem_filter.mp hjob
  obtain ⟨k, -, hk⟩ := List.mem_filterMap.mp hmem
  have hid := Queue.messageId_of_find? hk
  rintro ⟨r, hr, hconsumed⟩
  rw [hid, hk, Option.some_inj] at hr
  subst hr
  simp [retries, isRunning, hconsumed] at hretries

theorem not_isConsumed_deleteByPk (id : Uuid) (q : Queue) :
    ¬ IsConsumed (Queries.deleteByPk id q) id := by
  rintro ⟨r, hr, -⟩
  rw [Queries.deleteByPk, Queue.find?_deleteWhere, Option.bind_eq_some_iff] at hr
  obtain ⟨r', hr', hr⟩ := hr
  simp [Queue.messageId_of_find? hr'] at hr

/-- `broker.enqueue` makes nothing consumed. -/
theorem consumedFrame_enqueue {notify : Bool} {now : Time} {millis : ℤ} {m : Message}
    {q : Queue} {p : Message × Queue × List Notification}
    (h : PostgresBroker.enqueue dqName notify now millis m none q = .ok p) :
    StateFrame .consumed q p.2.1 := by
  obtain ⟨id, doc, -, -, hq⟩ := PostgresBroker.of_enqueue_ok h
  rw [hq]
  exact Queries.stateFrame_upsert (by decide) _ _ _ _ _ _

/-- **Step lemma.**  An undisturbed step keeps what is reserved from being
consumed. -/
theorem ok_step {a : Action n} (hok : Ok s) (hundisturbed : Undisturbed s a)
    (hstep : s.step dqName a = some t) : Ok t := by
  cases a with
  | evaluate i selected =>
      simp only [State.step] at hstep
      split at hstep
      · cases hstep
        exact ok_setTask hok rfl (StateFrame.refl _) fun id hid =>
          not_isConsumed_of_evaluate hid
      · cases hstep
  | check i =>
      simp only [State.step] at hstep
      split at hstep
      · next job rest htask =>
          cases hstep
          refine ok_setTask hok rfl (StateFrame.refl _) fun id hid => hok i id ?_
          rw [htask]
          by_cases hretries : retries job = true
          · simpa [Task.reserved, hretries] using hid
          · simpa [Task.reserved, hretries] using hid
      · cases hstep
        exact ok_setTask hok rfl (StateFrame.refl _) fun id hid => absurd hid List.not_mem_nil
      · cases hstep
  | delete i millis =>
      simp only [State.step] at hstep
      split at hstep
      · next job rest htask =>
          cases hstep
          simp only [Undisturbed, htask] at hundisturbed
          have hframe :
              StateFrame .consumed s.db.queue (Queries.deleteByPk job.messageId s.db.queue) :=
            stateFrame_deleteWhere _ _
          refine ok_setTask hok rfl hframe fun id hid => ?_
          rw [Task.reserved, hundisturbed, List.mem_append, Option.mem_toList,
            Option.some_inj] at hid
          rcases hid with rfl | hid
          · exact not_isConsumed_deleteByPk _ _
          · refine fun hconsumed => hok i id ?_ (hconsumed.of_frame hframe)
            rw [htask]
            exact List.mem_cons_of_mem _ hid
      · cases hstep
  | enqueue i notify now millis =>
      simp only [State.step] at hstep
      split at hstep
      · next m rest htask =>
          split at hstep
          · next p hp =>
              cases hstep
              have hframe := consumedFrame_enqueue hp
              refine ok_setTask hok rfl hframe fun id hid => ?_
              refine fun hconsumed => hok i id ?_ (hconsumed.of_frame hframe)
              rw [htask]
              exact List.mem_append_right _ hid
          · cases hstep
            exact ok_setTask hok rfl (StateFrame.refl _) fun id hid =>
              absurd hid List.not_mem_nil
      · cases hstep
  | other a =>
      obtain ⟨db, hdb, rfl⟩ := Option.map_eq_some_iff.mp hstep
      intro i id hid hconsumed
      by_cases hclaim : ∃ now queueName limit workerId locked,
          a = .claim now queueName limit workerId locked
      · obtain ⟨now, queueName, limit, workerId, locked, rfl⟩ := hclaim
        cases hdb
        exact hok i id hid (hconsumed.of_claim (hundisturbed i id hid))
      · push Not at hclaim
        exact hok i id hid (hconsumed.of_frame (consumedFrame_exec hdb hclaim))

end Invariant

/-- **`action_retry` takes no message from a worker in any run whose claims
leave alone what a running action has read as idle.**  The administrators may
select the same jobs. -/
theorem takesNone_of_undisturbed (n : ℕ) (dqName : String → String) (db : Database)
    (as : List (Action n))
    (hundisturbed : ∀ p ∈ (retrySystem n dqName db).taken as, Undisturbed p.1 p.2) :
    ∀ p ∈ (retrySystem n dqName db).taken as, TakesNone p.1 p.2 := by
  intro p hp
  have hok : Ok p.1 := StepSystem.inv_of_mem_taken (I := Ok) (ok_init db)
    (fun _ _ _ hok hundisturbed hstep => ok_step hok hundisturbed hstep) hundisturbed hp
  refine ⟨?_, ?_⟩
  · intro i millis job rest _ htask
    refine hok i job.messageId ?_
    rw [htask]
    exact List.mem_cons_self
  · intro i notify now millis m rest id _ htask hkey
    refine hok i id ?_
    rw [htask, Task.reserved, hkey]
    exact List.mem_append_left _ (List.mem_singleton_self _)

/-- An administrator requeues a job, and a worker claims it afterwards. -/
def undisturbedRun : List (Action 1) :=
  [.other (.enqueueQuiet 0 "q" (Uuid.small 1) (Message.plain "q" (Uuid.small 1)).toJson 0),
    .evaluate 0 [Uuid.small 1], .check 0, .delete 0 0, .enqueue 0 true 10 0,
    .other (.claim 20 "q" 8 (Uuid.small 7) [])]

theorem takesNone_undisturbedRun :
    (∀ p ∈ (retrySystem 1 (· ++ ".DQ") Database.empty).taken undisturbedRun,
      Undisturbed p.1 p.2) ∧
    ∀ p ∈ (retrySystem 1 (· ++ ".DQ") Database.empty).taken undisturbedRun,
      TakesNone p.1 p.2 := by
  have hundisturbed : ∀ p ∈ (retrySystem 1 (· ++ ".DQ") Database.empty).taken undisturbedRun,
      Undisturbed p.1 p.2 := by decide +kernel
  exact ⟨hundisturbed, takesNone_of_undisturbed _ _ _ _ hundisturbed⟩

/-- The worker claims the job between the read of the queryset and the deletion,
which is all it takes. -/
def disturbedRun : List (Action 1) :=
  [.other (.enqueueQuiet 0 "q" (Uuid.small 1) (Message.plain "q" (Uuid.small 1)).toJson 0),
    .evaluate 0 [Uuid.small 1], .other (.claim 20 "q" 8 (Uuid.small 7) []), .check 0,
    .delete 0 0, .enqueue 0 true 30 0]

/-- **The action deletes a message that a worker holds.** -/
theorem not_takesNone_disturbedRun :
    ¬ ∀ p ∈ (retrySystem 1 (· ++ ".DQ") Database.empty).taken disturbedRun,
      TakesNone p.1 p.2 := by
  intro hlaw
  have htaken : ∃ p ∈ (retrySystem 1 (· ++ ".DQ") Database.empty).taken disturbedRun,
      (match p.2, p.1.tasks 0 with
        | .delete 0 _, .deleting job _ =>
            (p.1.db.queue.find? job.messageId).any fun r => r.state = .consumed
        | _, _ => false) = true := by decide +kernel
  obtain ⟨⟨s, a⟩, hp, htest⟩ := htaken
  have htakes := hlaw _ hp
  split at htest
  · next millis job rest ha htask =>
      obtain ⟨r, hr, hconsumed⟩ := (Option.any_eq_true _ _).mp htest
      exact htakes.delete 0 millis job rest ha htask ⟨r, hr, of_decide_eq_true hconsumed⟩
  · cases htest

end Admin

end DramatiqPostgres
