import DramatiqPostgres.Queue.RowInvariant

/-!
# mtime is the time of the last state change

Seven statements insert a row or set its state.  `stateSet` says which row a
statement gives which state, and at what time; `mtimeSystem` records this beside
the database.

`KeepsMtime` compares the column with the record.  All seven write both but
RECOVER, which sets the state to queued and leaves `mtime` alone.  So `mtime` is
late in a run exactly if some RECOVER of it requeues a row (`keepsMtime_iff`).
Rejected and consumed rows are not concerned: their `mtime` is always the time
of their rejection, or of their claim (`Ok`), on which PURGE and RECOVER rely.

### The record is history

`setAt` and `setTo` are read off the statements that ran, their `WHERE` and
their `NOW()`, and not off the column they are compared with.  No statement
reads them.  `RecoversNone` is the condition on the state before a RECOVER: no
row of its `WHERE` is there, but for one whose `mtime` happens to be its own
`NOW()`.

### The two halves

That the column is right in a run without such a RECOVER is a step lemma
(`mtime_of_step`).  That one such RECOVER makes it wrong, in the state right
after, is `recoversNone_of_step`: the row it requeues keeps an `mtime` that is
not its `NOW()`.  So the condition is exact for every run, and not only for the
run that is the counterexample.
-/

namespace DramatiqPostgres

namespace Mtime

open Pg

/-! ## The record -/

/-- The row of an id is in the `WHERE` of an update, which sets its state. -/
def setWhere (q : Queue) (id : Uuid) (p : Row → Bool) (state : JobState) (now : Time) :
    Option (JobState × Time) :=
  if (q.find? id).any p then some (state, now) else none

/-- The state that a statement gives to the row of an id, inserted or updated,
and its `NOW()`. -/
def stateSet (s : Database) (a : Statement) (id : Uuid) : Option (JobState × Time) :=
  match a with
  | .enqueue now _ k _ _ => if id = k then some (.queued, now) else none
  | .enqueueQuiet now _ k _ _ => if id = k then some (.queued, now) else none
  | .claim now queueName limit _ locked =>
      if id ∈ (Queries.claimNext now queueName limit locked s.queue).map Row.messageId then
        some (.consumed, now)
      else none
  | .nack now _ k queueName _ _ => setWhere s.queue id (Queries.nackWhere k queueName) .rejected now
  | .requeue now ids => setWhere s.queue id (Queries.requeueWhere ids) .queued now
  | .reap now ttl => setWhere s.queue id (Queries.reapWhere s.workers now ttl) .queued now
  | .recover now minage => setWhere s.queue id (Queries.recoverWhere now minage) .queued now
  | .ack .. | .purge .. | .flush | .deleteByPk _ | .discard _ | .heartbeat .. | .cleanWorkers .. =>
      none

/-- The database, and when the states of the rows were set. -/
structure State where
  db : Database
  /-- History: the `NOW()` of the latest statement that inserted the row of an
  id, or set its state. -/
  setAt : Uuid → Time
  /-- History: the `NOW()` of the latest statement that gave it this state. -/
  setTo : JobState → Uuid → Time

namespace State

/-- A fresh installation. -/
def init : State := ⟨Database.empty, fun _ => 0, fun _ _ => 0⟩

/-- The record after a statement. -/
def record (s : State) (a : Statement) (db : Database) : State where
  db := db
  setAt := fun id => ((stateSet s.db a id).map Prod.snd).getD (s.setAt id)
  setTo := fun state id =>
    (((stateSet s.db a id).filter fun e => e.1 = state).map Prod.snd).getD (s.setTo state id)

/-- The state after a statement. -/
def step (s : State) (a : Statement) : Option State := (s.db.exec a).map (s.record a)

end State

/-- All sequences of statements, at any times. -/
def mtimeSystem : StepSystem State Statement := ⟨State.init, State.step⟩

/-! ## The law and its condition -/

/-- **mtime is the time of the last state change** in a run, and hence PURGE and
RECOVER wait long enough. -/
structure KeepsMtime (as : List Statement) : Prop where
  mtime : ∀ s ∈ mtimeSystem.visited as, ∀ r ∈ s.db.queue.table, r.mtime = s.setAt r.messageId
  /-- A rejected row is removed only once `maxAge` has passed since its
  rejection. -/
  purge : ∀ p ∈ mtimeSystem.taken as, ∀ now maxAge, p.2 = .purge now maxAge →
    ∀ r ∈ p.1.db.queue.table, Queries.purgeWhere now maxAge r = true →
      p.1.setTo .rejected r.messageId + maxAge ≤ now
  /-- A consumed row is requeued only once `minage` has passed since its
  claim. -/
  recover : ∀ p ∈ mtimeSystem.taken as, ∀ now minage, p.2 = .recover now minage →
    ∀ r ∈ p.1.db.queue.table, Queries.recoverWhere now minage r = true →
      p.1.setTo .consumed r.messageId + minage < now

/-- The statement is no RECOVER that requeues a row, unless the row's `mtime` is
its own `NOW()`. -/
def RecoversNone (s : State) : Statement → Prop
  | .recover now minage =>
      ∀ r ∈ s.db.queue.table.rows, Queries.recoverWhere now minage r = true → r.mtime = now
  | _ => True

instance (s : State) (a : Statement) : Decidable (RecoversNone s a) := by
  unfold RecoversNone
  split <;> infer_instance

/-! ## What a statement does to a row and its record -/

/-- How a row of the table comes out of a statement.  Of the three cases only
the last breaks the law. -/
inductive RowStep (s : Database) (a : Statement) (r' : Row) : Prop where
  /-- Its state is not set. -/
  | kept (r : Row) (hr : r ∈ s.queue.table) (hid : r'.messageId = r.messageId)
      (hstate : r'.state = r.state) (hmtime : r'.mtime = r.mtime)
      (hset : stateSet s a r'.messageId = none)
  /-- Its state is set, and its `mtime`. -/
  | stamped (now : Time) (hmtime : r'.mtime = now)
      (hset : stateSet s a r'.messageId = some (r'.state, now))
  /-- RECOVER requeues it. -/
  | recovered (now minage : Time) (r : Row) (hr : r ∈ s.queue.table)
      (ha : a = .recover now minage) (hwhere : Queries.recoverWhere now minage r = true)
      (hrow : r' = Queries.recoverSet r)
      (hset : stateSet s a r'.messageId = some (.queued, now))

section Rows

variable {s t : Database} {r r' : Row}

theorem setWhere_of_mem (hr : r ∈ s.queue.table) (p : Row → Bool) (state : JobState) (now : Time) :
    setWhere s.queue r.messageId p state now = if p r then some (state, now) else none := by
  have hfind : s.queue.find? r.messageId = some r := Table.find?_key hr
  rw [setWhere, hfind, Option.any_some]

/-- An update that sets the state and `mtime` of the rows in its `WHERE`. -/
theorem RowStep.ofUpdate {a : Statement} {p : Row → Bool} {set : Row → Row} {state : JobState}
    {now : Time} (hr : r ∈ s.queue.table) (h : some (if p r then set r else r) = some r')
    (hset : ∀ id, stateSet s a id = setWhere s.queue id p state now)
    (hid : (set r).messageId = r.messageId) (hstate : (set r).state = state)
    (hmtime : (set r).mtime = now) : RowStep s a r' := by
  rw [Option.some_inj] at h
  split_ifs at h with hp
  · subst h
    refine .stamped now hmtime ?_
    rw [hset, hid, setWhere_of_mem hr, if_pos hp, hstate]
  · subst h
    refine .kept r hr rfl rfl rfl ?_
    rw [hset, setWhere_of_mem hr, if_neg hp]

/-- The upsert of ENQUEUE and ENQUEUE_QUIET. -/
theorem RowStep.ofUpsert {a : Statement} {now : Time} {queueName : String} {id : Uuid} {doc : Json}
    {delay : ℤ} (hr' : r' ∈ (Queries.upsert now queueName id doc delay s.queue).table)
    (hset : ∀ k, stateSet s a k = if k = id then some (.queued, now) else none) :
    RowStep s a r' := by
  have hfind := Table.find?_key hr'
  simp only [Queries.upsert] at hfind
  rw [Table.find?_upsert] at hfind
  split_ifs at hfind with hid
  · have hrow : r'.mtime = now ∧ r'.state = .queued := by
      rw [← Option.some_inj.mp hfind]
      cases s.queue.table.find? r'.messageId <;> exact ⟨rfl, rfl⟩
    refine .stamped now hrow.1 ?_
    rw [hset, hrow.2]
    exact if_pos hid
  · refine .kept r' (Table.mem_of_find? hfind) rfl rfl rfl ?_
    rw [hset]
    exact if_neg hid

/-- **What a statement does to a row**: it keeps its state, or sets it with its
`mtime`, or is RECOVER. -/
theorem rowStep_of_exec {a : Statement} (h : s.exec a = some t) (hr' : r' ∈ t.queue.table) :
    RowStep s a r' := by
  have haltered : a.enqueued = none → ∃ r ∈ s.queue.table, a.onRow s r = some r' := by
    intro hnone
    rcases exec_cases h with ⟨-, halter⟩ | ⟨now, queueName, id, doc, delay, hsome, -⟩
    · exact halter.mem hr'
    · rw [hnone] at hsome
      cases hsome
  cases a with
  | enqueue now queueName id message delay =>
      obtain ⟨p, hp, rfl⟩ := Database.eq_of_ofResult h
      obtain ⟨doc, -, hq⟩ := Queries.exists_of_enqueue_ok hp
      simp only [hq] at hr'
      exact .ofUpsert hr' fun _ => rfl
  | enqueueQuiet now queueName id message delay =>
      obtain ⟨p, hp, rfl⟩ := Database.eq_of_ofResult h
      cases hquiet : Queries.enqueueQuiet now queueName id message delay s.queue with
      | error e => rw [hquiet] at hp; cases hp
      | ok q =>
          rw [hquiet] at hp
          cases hp
          obtain ⟨doc, -, rfl⟩ := Queries.exists_of_enqueueQuiet_ok hquiet
          exact .ofUpsert hr' fun _ => rfl
  | claim now queueName limit workerId locked =>
      obtain ⟨r, hr, hrow⟩ := haltered rfl
      simp only [Statement.onRow, Option.some_inj] at hrow
      split_ifs at hrow with hmem
      · subst hrow
        exact .stamped now rfl (if_pos hmem)
      · subst hrow
        exact .kept r hr rfl rfl rfl (if_neg hmem)
  | nack now message id queueName channel idText =>
      obtain ⟨r, hr, hrow⟩ := haltered rfl
      exact .ofUpdate hr hrow (fun _ => rfl) rfl rfl rfl
  | requeue now ids =>
      obtain ⟨r, hr, hrow⟩ := haltered rfl
      exact .ofUpdate hr hrow (fun _ => rfl) rfl rfl rfl
  | reap now ttl =>
      obtain ⟨r, hr, hrow⟩ := haltered rfl
      exact .ofUpdate hr hrow (fun _ => rfl) rfl rfl rfl
  | recover now minage =>
      obtain ⟨r, hr, hrow⟩ := haltered rfl
      simp only [Statement.onRow, Option.some_inj] at hrow
      split_ifs at hrow with hwhere
      · subst hrow
        refine .recovered now minage r hr rfl hwhere rfl ?_
        exact (setWhere_of_mem hr _ _ _).trans (if_pos hwhere)
      · subst hrow
        exact .kept r hr rfl rfl rfl ((setWhere_of_mem hr _ _ _).trans (if_neg hwhere))
  | ack | purge | flush | deleteByPk | discard =>
      obtain ⟨r, hr, hrow⟩ := haltered rfl
      simp only [Statement.onRow] at hrow
      split_ifs at hrow
      rw [Option.some_inj] at hrow
      subst hrow
      exact .kept r hr rfl rfl rfl rfl
  | heartbeat | cleanWorkers =>
      obtain ⟨r, hr, hrow⟩ := haltered rfl
      obtain rfl : r = r' := Option.some_inj.mp hrow
      exact .kept r hr rfl rfl rfl rfl

end Rows

/-! ## The invariant of every run -/

/-- The `mtime` of rejected and consumed rows is that of their rejection, or of
their claim. -/
structure Ok (s : State) : Prop where
  rejected : ∀ r ∈ s.db.queue.table, r.state = .rejected → r.mtime = s.setTo .rejected r.messageId
  consumed : ∀ r ∈ s.db.queue.table, r.state = .consumed → r.mtime = s.setTo .consumed r.messageId

section Steps

variable {s t : State} {a : Statement} {r' : Row}

theorem ok_init : Ok State.init where
  rejected := fun r hr => absurd hr (Table.not_mem_empty r)
  consumed := fun r hr => absurd hr (Table.not_mem_empty r)

/-- A step is a statement and its record. -/
theorem exec_of_step (h : s.step a = some t) :
    s.db.exec a = some t.db ∧ t = s.record a t.db := by
  obtain ⟨db, hexec, rfl⟩ := Option.map_eq_some_iff.mp h
  exact ⟨hexec, rfl⟩

theorem setAt_of_none (h : s.step a = some t) {id : Uuid} (hset : stateSet s.db a id = none) :
    t.setAt id = s.setAt id := by
  obtain ⟨db, -, rfl⟩ := Option.map_eq_some_iff.mp h
  simp only [State.record, hset, Option.map_none, Option.getD_none]

theorem setAt_of_some (h : s.step a = some t) {id : Uuid} {state : JobState} {now : Time}
    (hset : stateSet s.db a id = some (state, now)) : t.setAt id = now := by
  obtain ⟨db, -, rfl⟩ := Option.map_eq_some_iff.mp h
  simp only [State.record, hset, Option.map_some, Option.getD_some]

theorem setTo_of_none (h : s.step a = some t) {id : Uuid} (hset : stateSet s.db a id = none)
    (state : JobState) : t.setTo state id = s.setTo state id := by
  obtain ⟨db, -, rfl⟩ := Option.map_eq_some_iff.mp h
  simp only [State.record, hset, Option.filter_none, Option.map_none, Option.getD_none]

theorem setTo_of_some (h : s.step a = some t) {id : Uuid} {state : JobState} {now : Time}
    (hset : stateSet s.db a id = some (state, now)) : t.setTo state id = now := by
  obtain ⟨db, -, rfl⟩ := Option.map_eq_some_iff.mp h
  simp only [State.record, hset, Option.filter_some, decide_true, if_true, Option.map_some,
    Option.getD_some]

/-- A statement keeps the invariant for one state other than queued. -/
theorem setTo_of_step {state : JobState} (hqueued : state ≠ .queued)
    (hok : ∀ r ∈ s.db.queue.table, r.state = state → r.mtime = s.setTo state r.messageId)
    (h : s.step a = some t) (hr' : r' ∈ t.db.queue.table) (hstate' : r'.state = state) :
    r'.mtime = t.setTo state r'.messageId := by
  cases rowStep_of_exec (exec_of_step h).1 hr' with
  | kept r hr hid hstate hmtime hset =>
      rw [setTo_of_none h hset, hmtime, hid]
      exact hok r hr (hstate ▸ hstate')
  | stamped now hmtime hset =>
      rw [hstate'] at hset
      rw [setTo_of_some h hset, hmtime]
  | recovered now minage r hr ha hwhere hrow hset =>
      rw [hrow] at hstate'
      exact absurd hstate'.symm hqueued

/-- **Step lemma.**  Every statement keeps the invariant. -/
theorem Ok.step (hok : Ok s) (h : s.step a = some t) : Ok t where
  rejected := fun _ hr' hstate => setTo_of_step nofun hok.rejected h hr' hstate
  consumed := fun _ hr' hstate => setTo_of_step nofun hok.consumed h hr' hstate

/-- **Step lemma** of the law: the statement is no RECOVER that requeues a
row. -/
theorem mtime_of_step (hnone : RecoversNone s a)
    (hlaw : ∀ r ∈ s.db.queue.table, r.mtime = s.setAt r.messageId) (h : s.step a = some t)
    (hr' : r' ∈ t.db.queue.table) : r'.mtime = t.setAt r'.messageId := by
  cases rowStep_of_exec (exec_of_step h).1 hr' with
  | kept r hr hid hstate hmtime hset =>
      rw [setAt_of_none h hset, hmtime, hid]
      exact hlaw r hr
  | stamped now hmtime hset => rw [setAt_of_some h hset, hmtime]
  | recovered now minage r hr ha hwhere hrow hset =>
      subst ha
      rw [setAt_of_some h hset, hrow]
      exact hnone r hr hwhere

/-- A RECOVER that requeues a row leaves its old `mtime`. -/
theorem recoversNone_of_step (h : s.step a = some t)
    (hlaw : ∀ r ∈ t.db.queue.table, r.mtime = t.setAt r.messageId) : RecoversNone s a := by
  cases a with
  | recover now minage =>
      intro r hr hwhere
      obtain ⟨hexec, -⟩ := exec_of_step h
      have hmem : Queries.recoverSet r ∈ t.db.queue.table := by
        rw [← Option.some_inj.mp hexec]
        show Queries.recoverSet r ∈ s.db.queue.table.updateWhere (Queries.recoverWhere now minage)
          Queries.recoverSet Queries.messageId_recoverSet
        exact Table.mem_updateWhere.mpr ⟨r, hr, if_pos hwhere⟩
      have hset : stateSet s.db (.recover now minage) r.messageId = some (.queued, now) :=
        (setWhere_of_mem hr _ _ _).trans (if_pos hwhere)
      have hmtime := hlaw _ hmem
      rwa [Queries.messageId_recoverSet, setAt_of_some h hset] at hmtime
  | _ => exact trivial

end Steps

/-! ## The theorem -/

/-- The invariant at the steps of a run. -/
theorem ok_of_mem_taken {as : List Statement} {p : State × Statement}
    (hp : p ∈ mtimeSystem.taken as) : Ok p.1 :=
  StepSystem.inv_of_mem_taken (C := fun _ _ => True) ok_init
    (fun _ _ _ hok _ hstep => hok.step hstep) (fun _ _ => trivial) hp

/-- **mtime is the time of the last state change in exactly the runs whose
RECOVERs requeue nothing**, or only rows whose `mtime` is their own `NOW()`. -/
theorem keepsMtime_iff (as : List Statement) :
    KeepsMtime as ↔ ∀ p ∈ mtimeSystem.taken as, RecoversNone p.1 p.2 := by
  constructor
  · intro hkeeps p hp
    obtain ⟨-, t, hstep, ht⟩ := StepSystem.exists_step_of_mem_takenFrom hp
    exact recoversNone_of_step hstep (hkeeps.mtime t ht)
  · intro hnone
    refine ⟨?_, ?_, ?_⟩
    · refine StepSystem.inv_of_mem_visitedFrom (C := RecoversNone) ?_ ?_ hnone
      · exact fun s a t hlaw hnone hstep r' hr' => mtime_of_step hnone hlaw hstep hr'
      · exact fun r hr => absurd hr (Table.not_mem_empty r)
    · intro p hp now maxAge _ r hr hwhere
      simp only [Queries.purgeWhere, decide_eq_true_eq] at hwhere
      rw [← (ok_of_mem_taken hp).rejected r hr hwhere.1]
      exact le_sub_iff_add_le.mp hwhere.2
    · intro p hp now minage _ r hr hwhere
      simp only [Queries.recoverWhere, decide_eq_true_eq] at hwhere
      rw [← (ok_of_mem_taken hp).consumed r hr hwhere.1]
      exact lt_sub_iff_add_lt.mp hwhere.2

/-- A message is enqueued at 0, claimed at 10, and recovered at 100, having been
consumed for more than 50. -/
def recoveredRun : List Statement :=
  [.enqueueQuiet 0 "q" (Uuid.small 1) (.obj []) 0, .claim 10 "q" 1 (Uuid.small 7) [],
    .recover 100 50]

/-- Its `mtime` is still the time of the claim. -/
theorem not_keepsMtime_recoveredRun : ¬ KeepsMtime recoveredRun := by
  intro hkeeps
  have hrun : ∃ s ∈ mtimeSystem.visited recoveredRun, ∃ r ∈ s.db.queue.table.rows,
      r.mtime ≠ s.setAt r.messageId := by decide +kernel
  obtain ⟨s, hs, r, hr, hne⟩ := hrun
  exact hne (hkeeps.mtime s hs r hr)

end Mtime

end DramatiqPostgres
