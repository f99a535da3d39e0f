import DramatiqPostgres.Admin.Retry

/-!
# "Requeue selected jobs" when the enqueue raises

The deletion of a job goes through Django's connection, which commits it at
once, and the enqueue goes through a connection of the broker's pool.  Between
the two the job is in neither place, and an exception of `broker.enqueue` ends
the action there.

`actionRetry` is the action as one function of the queue, on a table nobody else
writes meanwhile: what other parties do to the rows is the subject of
`Admin.Retry`, and would only add ways to lose a job.  Whether each call of
`broker.enqueue` gets a connection is part of its input; a call that does may
still raise, on a payload PostgreSQL rejects.

### What is lost, and what is not

* Whatever the jobs and wherever it raises so, the row of the job at that
  position is gone, and nothing has been enqueued in its place
  (`not_losesNone_of_raised`).  There is no condition under which an action that
  raises before its COMMIT loses nothing.
* It is the only such job, if every payload carries the id of its row
  (`losesOne_of_raised`): those before it are in their rows or enqueued anew,
  and those behind it are in their rows.  Without that hypothesis the enqueue of
  one job may set the row of another one back, which is then another message.

### The answer of a COMMIT that is lost

`broker.enqueue` can also raise although its last upsert has committed: the
connection fails at the COMMIT, and no further attempt gets one.  The action
ends there in the same way, but the job has been enqueued anew by then.
`actionRetryLost` is that end of the action, and it loses no job
(`keepsAll_of_lostAnswer`).  The administrator cannot tell the two apart: all
that is shown is the exception.
-/

namespace DramatiqPostgres

namespace Admin

open Pg

/-- The circumstances of one call of `broker.enqueue`, which the action does not
choose. -/
structure EnqueueCall where
  /-- The pool has a connection, and it stays up. -/
  connected : Bool
  now : Time
  /-- `current_millis()`. -/
  millis : ℤ

/-- `broker.enqueue(msg)`; `none` is an exception, before anything has
committed. -/
def enqueueCall (dqName : String → String) (notify : Bool) (call : EnqueueCall) (m : Message)
    (q : Queue) : Option Queue :=
  if call.connected then
    (PostgresBroker.enqueue dqName notify call.now call.millis m none q).toOption.map fun p => p.2.1
  else none

section Action

variable (dqName : String → String) (notify : Bool) (calls : ℕ → EnqueueCall)

/-- The loop of `action_retry`, from the job at position `i` on: the queue it
leaves, and the position at which it raised, if it did.  The deletion of that
job stands. -/
def retryFrom : ℕ → List Row → Queue → Queue × Option ℕ
  | _, [], q => (q, none)
  | i, job :: rest, q =>
      if retries job then
        let deleted := Queries.deleteByPk job.messageId q
        match enqueueCall dqName notify (calls i) (rebuild (calls i).millis job) deleted with
        | some q' => retryFrom (i + 1) rest q'
        | none => (deleted, some i)
      else retryFrom (i + 1) rest q

/-- `action_retry` on the selected jobs that exist. -/
def actionRetry (selected : List Uuid) (q : Queue) : Queue × Option ℕ :=
  retryFrom dqName notify calls 0 (selected.filterMap q.find?) q

/-- `action_retry` where the call of `broker.enqueue` at position `k` raises,
although its COMMIT took effect: the action comes as far as the job at that
position. -/
def actionRetryLost (selected : List Uuid) (k : ℕ) (q : Queue) : Queue × Option ℕ :=
  retryFrom dqName notify calls 0 ((selected.filterMap q.find?).take (k + 1)) q

end Action

/-! ## The law -/

/-- A message waits in the queue, under its own id. -/
def Requeued (m : Message) (q : Queue) : Prop :=
  ∃ id r, m.key? = some id ∧ q.find? id = some r ∧ r.state = .queued

/-- A job before the position `k` is in its row, or enqueued anew. -/
def KeptBefore (calls : ℕ → EnqueueCall) (jobs : List Row) (k : ℕ) (q : Queue) : Prop :=
  ∀ i job, i < k → jobs[i]? = some job → isRunning job = false →
    q.find? job.messageId = some job ∨ Requeued (rebuild (calls i).millis job) q

/-- A job from the position `k` on is in its row. -/
def KeptFrom (jobs : List Row) (k : ℕ) (q : Queue) : Prop :=
  ∀ i job, k ≤ i → jobs[i]? = some job → isRunning job = false →
    q.find? job.messageId = some job

/-- **No idle job is lost** by an action that raised at position `k` and left
the queue `q`: each is in its row, or was before that position and waits in the
queue again. -/
def LosesNone (calls : ℕ → EnqueueCall) (jobs : List Row) (k : ℕ) (q : Queue) : Prop :=
  KeptBefore calls jobs k q ∧ KeptFrom jobs k q

/-! ## The job that is lost -/

section Loop

variable {dqName : String → String} {notify : Bool} {calls : ℕ → EnqueueCall}

theorem find?_deleteByPk_self (id : Uuid) (q : Queue) :
    (Queries.deleteByPk id q).find? id = none := by
  rw [Queries.deleteByPk, Queue.find?_deleteWhere]
  cases h : q.find? id with
  | none => rfl
  | some r => simp [Queue.messageId_of_find? h]

theorem find?_deleteByPk_of_ne {id pk : Uuid} (h : id ≠ pk) (q : Queue) :
    (Queries.deleteByPk pk q).find? id = q.find? id := by
  rw [Queries.deleteByPk, Queue.find?_deleteWhere]
  cases hfind : q.find? id with
  | none => rfl
  | some r => simp [Queue.messageId_of_find? hfind, h]

/-! What the loop does with its first job: skip it, enqueue it, or raise. -/

theorem retryFrom_of_skipped {job : Row} (h : retries job = false) (i : ℕ) (rest : List Row)
    (q : Queue) : retryFrom dqName notify calls i (job :: rest) q =
      retryFrom dqName notify calls (i + 1) rest q := by
  rw [retryFrom, h]
  rfl

theorem retryFrom_of_enqueued {job : Row} (h : retries job = true) {i : ℕ} {q q' : Queue}
    (hcall : enqueueCall dqName notify (calls i) (rebuild (calls i).millis job)
      (Queries.deleteByPk job.messageId q) = some q') (rest : List Row) :
    retryFrom dqName notify calls i (job :: rest) q =
      retryFrom dqName notify calls (i + 1) rest q' := by
  rw [retryFrom, if_pos h]
  simp only [hcall]

theorem retryFrom_of_raised {job : Row} (h : retries job = true) {i : ℕ} {q : Queue}
    (hcall : enqueueCall dqName notify (calls i) (rebuild (calls i).millis job)
      (Queries.deleteByPk job.messageId q) = none) (rest : List Row) :
    retryFrom dqName notify calls i (job :: rest) q =
      (Queries.deleteByPk job.messageId q, some i) := by
  rw [retryFrom, if_pos h]
  simp only [hcall]

/-- **Step lemma.**  Where the loop raises, it has just deleted an idle job.  By
induction on the jobs that are left. -/
theorem exists_lost_of_retryFrom {jobs : List Row} {i k : ℕ} {q : Queue}
    (h : (retryFrom dqName notify calls i jobs q).2 = some k) :
    ∃ job, i ≤ k ∧ jobs[k - i]? = some job ∧ retries job = true ∧
      (retryFrom dqName notify calls i jobs q).1.find? job.messageId = none := by
  induction jobs generalizing i q with
  | nil => cases h
  | cons job rest ih =>
      have hlater : ∀ {q' : Queue}, (retryFrom dqName notify calls (i + 1) rest q').2 = some k →
          ∃ job', i ≤ k ∧ (job :: rest)[k - i]? = some job' ∧ retries job' = true ∧
            (retryFrom dqName notify calls (i + 1) rest q').1.find? job'.messageId = none := by
        intro q' h'
        obtain ⟨job', hle, hjob', hretries, hlost⟩ := ih h'
        have hshift : k - i = (k - (i + 1)) + 1 := by omega
        refine ⟨job', by omega, ?_, hretries, hlost⟩
        rw [hshift, List.getElem?_cons_succ]
        exact hjob'
      cases hretries : retries job with
      | true =>
          cases hcall : enqueueCall dqName notify (calls i) (rebuild (calls i).millis job)
              (Queries.deleteByPk job.messageId q) with
          | some q' =>
              rw [retryFrom_of_enqueued hretries hcall] at h ⊢
              exact hlater h
          | none =>
              rw [retryFrom_of_raised hretries hcall] at h ⊢
              cases h
              exact ⟨job, le_rfl, by simp, hretries, find?_deleteByPk_self _ _⟩
      | false =>
          rw [retryFrom_of_skipped hretries] at h ⊢
          exact hlater h

/-- What the action loses: an idle job, at the position where it raised. -/
theorem exists_lost_of_raised {selected : List Uuid} {q : Queue} {k : ℕ}
    (h : (actionRetry dqName notify calls selected q).2 = some k) :
    ∃ job, (selected.filterMap q.find?)[k]? = some job ∧ isRunning job = false ∧
      (actionRetry dqName notify calls selected q).1.find? job.messageId = none := by
  obtain ⟨job, -, hjob, hretries, hlost⟩ := exists_lost_of_retryFrom h
  simp only [retries, Bool.and_eq_true, Bool.not_eq_true'] at hretries
  exact ⟨job, hjob, hretries.1, hlost⟩

end Loop

/-- **An action that raises has lost a job**: the one at the position where it
raised.  For any jobs, any circumstances of the calls, and any such position. -/
theorem not_losesNone_of_raised (dqName : String → String) (notify : Bool)
    (calls : ℕ → EnqueueCall) (selected : List Uuid) (q : Queue) (k : ℕ)
    (hraised : (actionRetry dqName notify calls selected q).2 = some k) :
    ¬ LosesNone calls (selected.filterMap q.find?) k
      (actionRetry dqName notify calls selected q).1 := by
  rintro ⟨-, hkept⟩
  obtain ⟨job, hjob, hidle, hlost⟩ := exists_lost_of_raised hraised
  have hpresent := hkept k job le_rfl hjob hidle
  rw [hlost] at hpresent
  cases hpresent

/-- One job in the queue. -/
def oneJob : Queue :=
  Queries.upsert 0 "q" (Uuid.small 1) (Message.plain "q" (Uuid.small 1)).toJson 0 Queue.empty

/-- A broker without a connection, so that the first call raises. -/
def noConnection : ℕ → EnqueueCall := fun _ => ⟨false, 0, 0⟩

theorem not_losesNone_of_raised_oneJob :
    (actionRetry (· ++ ".DQ") true noConnection [Uuid.small 1] oneJob).2 = some 0 ∧
    ¬ LosesNone noConnection ([Uuid.small 1].filterMap oneJob.find?) 0
      (actionRetry (· ++ ".DQ") true noConnection [Uuid.small 1] oneJob).1 := by
  have hraised : (actionRetry (· ++ ".DQ") true noConnection [Uuid.small 1] oneJob).2
      = some 0 := by decide +kernel
  exact ⟨hraised, not_losesNone_of_raised _ _ _ _ _ _ hraised⟩

/-- **The one job of a queue is lost** to a connection that fails between the
two statements. -/
theorem not_losesNone_oneJob :
    ¬ ∀ k, (actionRetry (· ++ ".DQ") true noConnection [Uuid.small 1] oneJob).2 = some k →
      LosesNone noConnection ([Uuid.small 1].filterMap oneJob.find?) k
        (actionRetry (· ++ ".DQ") true noConnection [Uuid.small 1] oneJob).1 := by
  intro hlaw
  have hraised : (actionRetry (· ++ ".DQ") true noConnection [Uuid.small 1] oneJob).2
      = some 0 := by decide +kernel
  obtain ⟨job, hjob, hidle, hlost⟩ := exists_lost_of_raised hraised
  have hpresent := (hlaw 0 hraised).2 0 job le_rfl hjob hidle
  rw [hlost] at hpresent
  cases hpresent

/-! ## The other jobs -/

section Others

variable {dqName : String → String} {notify : Bool} {calls : ℕ → EnqueueCall}

/-- An enqueue that returns leaves its message queued, and the other ids
alone. -/
theorem of_enqueueCall {call : EnqueueCall} {m : Message} {id : Uuid} {q q' : Queue}
    (hkey : m.key? = some id) (h : enqueueCall dqName notify call m q = some q') :
    Requeued m q' ∧ ∀ id', id' ≠ id → q'.find? id' = q.find? id' := by
  unfold enqueueCall at h
  split_ifs at h
  cases henqueue : PostgresBroker.enqueue dqName notify call.now call.millis m none q with
  | error e => rw [henqueue] at h; cases h
  | ok p =>
      rw [henqueue] at h
      cases h
      obtain ⟨id', doc, hkey', -, hq⟩ := PostgresBroker.of_enqueue_ok henqueue
      rw [hkey, Option.some_inj] at hkey'
      subst hkey'
      simp only [hq]
      obtain ⟨r, hr, hqueued, -⟩ := Queries.exists_find?_upsert call.now _ id doc _ q
      exact ⟨⟨id, r, hkey, hr, hqueued⟩, fun id' hne => Queries.find?_upsert_of_ne hne⟩

/-- Every job that is enqueued anew carries its own id, as those do that the
broker has written. -/
def CarryOwnIds (calls : ℕ → EnqueueCall) (jobs : List Row) : Prop :=
  ∀ i, ∀ job ∈ jobs, (rebuild (calls i).millis job).key? = some job.messageId

/-- The loop touches the rows of its jobs only.  This needs the ids: an enqueue
upserts the row of the payload's id. -/
theorem find?_retryFrom_of_not_mem {jobs : List Row} (hown : CarryOwnIds calls jobs) {id : Uuid}
    (hid : id ∉ jobs.map Row.messageId) (i : ℕ) (q : Queue) :
    (retryFrom dqName notify calls i jobs q).1.find? id = q.find? id := by
  induction jobs generalizing i q with
  | nil => rfl
  | cons job rest ih =>
      rw [List.map_cons, List.mem_cons, not_or] at hid
      have hrest := fun q' => ih (fun i job' hjob' => hown i job' (List.mem_cons_of_mem _ hjob'))
        hid.2 (i + 1) q'
      cases hretries : retries job with
      | true =>
          cases hcall : enqueueCall dqName notify (calls i) (rebuild (calls i).millis job)
              (Queries.deleteByPk job.messageId q) with
          | some q' =>
              have hframe := (of_enqueueCall (hown i job List.mem_cons_self) hcall).2 id hid.1
              rw [retryFrom_of_enqueued hretries hcall, hrest, hframe,
                find?_deleteByPk_of_ne hid.1]
          | none =>
              rw [retryFrom_of_raised hretries hcall]
              exact find?_deleteByPk_of_ne hid.1 q
      | false =>
          rw [retryFrom_of_skipped hretries]
          exact hrest q

/-- The rows of jobs that are all there. -/
theorem find?_of_mem_filterMap {selected : List Uuid} {q : Queue} {job : Row}
    (h : job ∈ selected.filterMap q.find?) : q.find? job.messageId = some job := by
  obtain ⟨id, -, hid⟩ := List.mem_filterMap.mp h
  rwa [Queue.messageId_of_find? hid]

theorem nodup_filterMap_find? {selected : List Uuid} (h : selected.Nodup) (q : Queue) :
    ((selected.filterMap q.find?).map Row.messageId).Nodup :=
  (Table.map_filterMap_find?_sublist q.table selected).nodup h

/-- **Run lemma.**  All jobs but the one the loop raised at, if it did, are in
their rows or enqueued anew; those behind it are in their rows. -/
theorem kept_retryFrom {jobs : List Row} (hown : CarryOwnIds calls jobs)
    (hnodup : (jobs.map Row.messageId).Nodup) {i : ℕ} {q : Queue}
    (hrows : ∀ job ∈ jobs, q.find? job.messageId = some job) :
    ∀ j job, jobs[j]? = some job →
      ((retryFrom dqName notify calls i jobs q).2 ≠ some (i + j) →
        (retryFrom dqName notify calls i jobs q).1.find? job.messageId = some job ∨
        Requeued (rebuild (calls (i + j)).millis job)
          (retryFrom dqName notify calls i jobs q).1) ∧
      ∀ k, (retryFrom dqName notify calls i jobs q).2 = some k → k < i + j →
        (retryFrom dqName notify calls i jobs q).1.find? job.messageId = some job := by
  induction jobs generalizing i q with
  | nil => intro j job hjob; simp at hjob
  | cons job rest ih =>
      rw [List.map_cons, List.nodup_cons] at hnodup
      have hownRest : CarryOwnIds calls rest :=
        fun i job' hjob' => hown i job' (List.mem_cons_of_mem _ hjob')
      have hne : ∀ job' ∈ rest, job'.messageId ≠ job.messageId := fun job' hjob' heq =>
        hnodup.1 (heq ▸ List.mem_map_of_mem hjob')
      have hhead : ∀ q', (retryFrom dqName notify calls (i + 1) rest q').1.find? job.messageId =
          q'.find? job.messageId := fun q' => find?_retryFrom_of_not_mem hownRest hnodup.1 _ _
      -- the jobs after the first are as they were when the loop comes to them
      have hlater : ∀ q', (∀ job' ∈ rest, q'.find? job'.messageId = some job') →
            ∀ j job', rest[j]? = some job' →
          ((retryFrom dqName notify calls (i + 1) rest q').2 ≠ some (i + (j + 1)) →
            (retryFrom dqName notify calls (i + 1) rest q').1.find? job'.messageId = some job' ∨
            Requeued (rebuild (calls (i + (j + 1))).millis job')
              (retryFrom dqName notify calls (i + 1) rest q').1) ∧
          ∀ k, (retryFrom dqName notify calls (i + 1) rest q').2 = some k → k < i + (j + 1) →
            (retryFrom dqName notify calls (i + 1) rest q').1.find? job'.messageId
              = some job' := by
        intro q' hq' j job' hjob'
        have hshift : i + 1 + j = i + (j + 1) := by omega
        have hrest := ih hownRest hnodup.2 (i := i + 1) hq' j job' hjob'
        rwa [hshift] at hrest
      have hrest : ∀ job' ∈ rest, q.find? job'.messageId = some job' :=
        fun job' hjob' => hrows job' (List.mem_cons_of_mem _ hjob')
      have hdeleted : ∀ job' ∈ rest,
          (Queries.deleteByPk job.messageId q).find? job'.messageId = some job' :=
        fun job' hjob' => (find?_deleteByPk_of_ne (hne job' hjob') q).trans (hrest job' hjob')
      -- the loop goes on behind its first job
      have hbehind : ∀ {q' k}, (retryFrom dqName notify calls (i + 1) rest q').2 = some k →
          ¬ k < i := by
        intro q' k hk
        obtain ⟨-, hle, -⟩ := exists_lost_of_retryFrom hk
        omega
      cases hretries : retries job with
      | true =>
          cases hcall : enqueueCall dqName notify (calls i) (rebuild (calls i).millis job)
              (Queries.deleteByPk job.messageId q) with
          | some q' =>
              rw [retryFrom_of_enqueued hretries hcall]
              obtain ⟨⟨id, r, hid, hr, hqueued⟩, hframe⟩ :=
                of_enqueueCall (hown i job List.mem_cons_self) hcall
              have hid' := (hown i job List.mem_cons_self).symm.trans hid
              rw [Option.some_inj] at hid'
              have hq' : ∀ job' ∈ rest, q'.find? job'.messageId = some job' := fun job' hjob' =>
                (hframe _ (hne job' hjob')).trans (hdeleted job' hjob')
              intro j job' hjob'
              cases j with
              | zero =>
                  rw [List.getElem?_cons_zero, Option.some_inj] at hjob'
                  subst hjob'
                  refine ⟨fun _ => Or.inr ⟨id, r, hid, ?_, hqueued⟩,
                    fun k hk hlt => absurd hlt (hbehind hk)⟩
                  rw [← hid', hhead, hid', hr]
              | succ j => exact hlater q' hq' j job' hjob'
          | none =>
              rw [retryFrom_of_raised hretries hcall]
              intro j job' hjob'
              cases j with
              | zero => exact ⟨fun hne => absurd rfl hne, fun k hk hlt => by cases hk; omega⟩
              | succ j =>
                  rw [List.getElem?_cons_succ] at hjob'
                  have hkept := hdeleted job' (List.mem_of_getElem? hjob')
                  exact ⟨fun _ => Or.inl hkept, fun _ _ _ => hkept⟩
      | false =>
          rw [retryFrom_of_skipped hretries]
          intro j job' hjob'
          cases j with
          | zero =>
              rw [List.getElem?_cons_zero, Option.some_inj] at hjob'
              subst hjob'
              have hkept := (hhead q).trans (hrows job List.mem_cons_self)
              exact ⟨fun _ => Or.inl hkept, fun _ _ _ => hkept⟩
          | succ j => exact hlater q hrest j job' hjob'

end Others

/-- **No other job is lost**, if every payload carries the id of its row: those
before the one that is lost are in their rows or enqueued anew, and those after
it are in their rows. -/
theorem losesOne_of_raised (dqName : String → String) (notify : Bool) (calls : ℕ → EnqueueCall)
    (selected : List Uuid) (q : Queue) (k : ℕ) (hnodup : selected.Nodup)
    (hown : CarryOwnIds calls (selected.filterMap q.find?))
    (hraised : (actionRetry dqName notify calls selected q).2 = some k) :
    KeptBefore calls (selected.filterMap q.find?) k
        (actionRetry dqName notify calls selected q).1 ∧
      KeptFrom (selected.filterMap q.find?) (k + 1)
        (actionRetry dqName notify calls selected q).1 := by
  have hkept := @kept_retryFrom dqName notify calls _ hown (nodup_filterMap_find? hnodup q) 0 q
    fun _ => find?_of_mem_filterMap
  refine ⟨fun i job hlt hjob _ => ?_, fun i job hle hjob _ => ?_⟩
  · have hi := (hkept i job hjob).1
    rw [Nat.zero_add] at hi
    refine hi fun heq => ?_
    have hik := Option.some_inj.mp (heq.symm.trans hraised)
    omega
  · exact (hkept i job hjob).2 k hraised (by omega)

/-- **A lost answer loses no job**, if every payload carries the id of its row:
those up to the position where the action ends are in their rows or enqueued
anew, and those after it are in their rows. -/
theorem keepsAll_of_lostAnswer (dqName : String → String) (notify : Bool)
    (calls : ℕ → EnqueueCall) (selected : List Uuid) (q : Queue) (k : ℕ) (hnodup : selected.Nodup)
    (hown : CarryOwnIds calls (selected.filterMap q.find?))
    (hended : (actionRetryLost dqName notify calls selected k q).2 = none) :
    KeptBefore calls (selected.filterMap q.find?) (k + 1)
        (actionRetryLost dqName notify calls selected k q).1 ∧
      KeptFrom (selected.filterMap q.find?) (k + 1)
        (actionRetryLost dqName notify calls selected k q).1 := by
  have hids := nodup_filterMap_find? hnodup q
  have hownTake : CarryOwnIds calls ((selected.filterMap q.find?).take (k + 1)) :=
    fun i job hjob => hown i job (List.mem_of_mem_take hjob)
  refine ⟨fun i job hlt hjob _ => ?_, fun i job hle hjob _ => ?_⟩
  · have htaken : ((selected.filterMap q.find?).take (k + 1))[i]? = some job := by
      rw [List.getElem?_take_of_lt hlt, hjob]
    have hkept := (kept_retryFrom hownTake (((List.take_sublist _ _).map _).nodup hids)
      (fun job hjob => find?_of_mem_filterMap (List.mem_of_mem_take hjob)) i job htaken).1
      (by rw [actionRetryLost] at hended; rw [hended]; exact nofun)
    rwa [Nat.zero_add] at hkept
  · -- a job that the action has not come to
    have hnot : job.messageId ∉ ((selected.filterMap q.find?).take (k + 1)).map Row.messageId := by
      intro hmem
      rw [← List.take_append_drop (k + 1) (selected.filterMap q.find?), List.map_append,
        List.nodup_append] at hids
      have hdrop : job ∈ (selected.filterMap q.find?).drop (k + 1) := by
        refine List.mem_of_getElem? (i := i - (k + 1)) ?_
        rw [List.getElem?_drop, Nat.add_sub_cancel' hle, hjob]
      exact hids.2.2 _ hmem _ (List.mem_map_of_mem hdrop) rfl
    rw [actionRetryLost, find?_retryFrom_of_not_mem hownTake hnot]
    exact find?_of_mem_filterMap (List.mem_of_getElem? hjob)

end Admin

end DramatiqPostgres
