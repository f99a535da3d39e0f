import DramatiqPostgres.Worker.Heartbeat

/-!
# A process that keeps calling is not reaped

The reaper takes a process for dead when its worker row is older than
`heartbeat_ttl`, or missing.  The row is as old as the last committed heartbeat,
and heartbeats are made by `__next__` calls alone, at most one an interval; so
how old the row can become depends on how the process keeps calling.

`Pace` bounds that: some thread passes its check at least every `gap`, and no
thread takes longer than `delay` from its call to the end of its heartbeat.
While a run keeps the pace (`Punctual`), the row is never older than
`interval + gap + 2 * delay` (`Steady.fresh`), and any reaper with a longer time
to live leaves all rows of the process alone (`reapsNone_of_punctual`).

## What a punctual run assumes

* **No heartbeat fails.**  A thread announces its heartbeat before it makes it,
  and the others rely on the announcement for an interval; one that fails is
  made up for an interval later.
* **`delay` is shorter than the interval.**  Otherwise a second heartbeat can be
  announced while the first is on its way, and overtake it.
* **Other processes clean no row away that is younger than the bound**
  (`Patient`).  Their own settings decide how old a row `CLEAN_WORKERS` takes
  for dead.

The law begins with the first heartbeat that is committed.  Before that the
process has no row: a thread that relies on an announcement can claim, and a
reaper takes what it claimed.

## The invariant

The two halves of the bound are the two promises of `Steady`: the announced
heartbeat is younger than the interval at the last check, and what is announced
is committed, or one thread is about to commit it.  There is never a second such
thread, since `delay` is shorter than the interval.

## Where the bound comes from

At a check that is suppressed the announced heartbeat is at most an interval
old; the next check comes within `gap`, counted from check to check; a check is
made at most `delay` after its call, and the heartbeat it announces, which bears
the time of the reading, is committed at most `delay` after it.  So when the
next heartbeat commits, the last one is at most that sum old.  With the default
settings and threads that are called every ten seconds the bound is well below
the time to live.
-/

namespace DramatiqPostgres

namespace Heartbeat

open Pg

/-! ## The pace of a process -/

/-- How a process keeps calling: how often its threads check, and how long one
takes. -/
structure Pace (timing : Timing) where
  /-- Some thread passes its check within this time. -/
  gap : Time
  /-- A thread gets from its call to the end of its heartbeat within this
  time. -/
  delay : Time
  gap_nonneg : 0 ≤ gap
  delay_nonneg : 0 ≤ delay
  delay_lt : delay < timing.interval

/-- The age that the worker row can reach: the interval, the gap to the next
check, and a delay for each of two heartbeats. -/
def Pace.bound {timing : Timing} (pace : Pace timing) : Time :=
  timing.interval + pace.gap + 2 * pace.delay

/-- When a thread was called that has not come to the end of its heartbeat. -/
def Thread.busySince : Thread → Option Time
  | .called time => some time
  | .read time _ => some time
  | .due time => some time
  | .beating time _ => some time
  | _ => none

/-- Whether the thread has announced a heartbeat that is not committed. -/
def Thread.isPending : Thread → Bool
  | .due _ => true
  | .beating .. => true
  | _ => false

/-- The process, and the time of its last check, which the pace speaks of. -/
structure Watched (n : ℕ) where
  state : State n
  /-- History: when a thread last passed its check; at first, when the process
  started. -/
  checkedAt : Time

namespace Watched

variable {n : ℕ}

/-- The start of the process. -/
def empty (n : ℕ) (clock : Time) : Watched n := ⟨State.empty n clock, clock⟩

/-- The state after a step. -/
def step (timing : Timing) (me : Uuid) (s : Watched n) (a : Action n) : Option (Watched n) :=
  (s.state.step timing me a).map fun t =>
    ⟨t, match a with
      | .check _ => s.state.clock
      | _ => s.checkedAt⟩

end Watched

/-- Every run of the process, with the time of its last check. -/
def watchedSystem (n : ℕ) (timing : Timing) (me : Uuid) (clock : Time) :
    StepSystem (Watched n) (Action n) :=
  ⟨Watched.empty n clock, Watched.step timing me⟩

section Law

variable {n : ℕ} {timing : Timing}

/-- A statement of another process cleans away only workers that are long dead.
It is the one thing asked of the others. -/
def Patient (pace : Pace timing) (s : Watched n) : Statement → Prop
  | .cleanWorkers now maxAge => now ≤ s.state.clock ∧ pace.bound ≤ maxAge
  | _ => True

instance (pace : Pace timing) (s : Watched n) (statement : Statement) :
    Decidable (Patient pace s statement) := by
  unfold Patient
  split <;> infer_instance

/-- The step keeps the pace: no tick makes a thread late or the next check
overdue, no heartbeat fails, and other parties are patient with the worker
row. -/
def Punctual (pace : Pace timing) (s : Watched n) : Action n → Prop
  | .tick elapsed =>
      s.state.clock + elapsed - s.checkedAt ≤ pace.gap ∧
        ∀ i, ∀ called ∈ (s.state.threads i).busySince,
          s.state.clock + elapsed - called ≤ pace.delay
  -- No heartbeat fails.
  | .raise i => (s.state.threads i).isPending = false
  | .other statement => Patient pace s statement
  | _ => True

instance (pace : Pace timing) (s : Watched n) : DecidablePred (Punctual pace s)
  | .tick _ => inferInstanceAs (Decidable (_ ∧ _))
  | .raise _ => inferInstanceAs (Decidable (_ = _))
  | .other statement => inferInstanceAs (Decidable (Patient pace s statement))
  | .call _ | .readClock _ | .check _ | .beginHeartbeat _ | .commitHeartbeat _ | .skip _
  | .claim .. => isTrue trivial

/-- The worker row of the process, once it is there, is younger than the
bound. -/
def Fresh (pace : Pace timing) (me : Uuid) (s : State n) : Prop :=
  ∀ w, s.db.workers.find? me = some w → s.clock - pace.bound ≤ w.heartbeatAt

/-- **A reaper leaves the rows of a process alone**, whichever it takes, with
any `NOW()` up to the clock. -/
def ReapsNone (timing : Timing) (me : Uuid) (s : State n) : Prop :=
  ∀ now ≤ s.clock, ∀ id r, s.db.queue.find? id = some r → r.workerId = some me →
    (Queries.reap s.db.workers now timing.ttl s.db.queue).find? id = some r

end Law

/-! ## The invariant -/

/-- What is known of a thread at a time: it is not late, and its announcement is
the current one. -/
def Timely (delay clock heartbeatAt : Time) : Thread → Prop
  | .idle => True
  | .called called => 0 < called ∧ called ≤ clock ∧ clock - called ≤ delay
  | .read called now => 0 < called ∧ called ≤ now ∧ now ≤ clock ∧ clock - called ≤ delay
  | .due called => 0 < called ∧ called ≤ heartbeatAt ∧ heartbeatAt ≤ clock ∧ clock - called ≤ delay
  | .beating called now =>
      0 < called ∧ called ≤ heartbeatAt ∧ heartbeatAt ≤ now ∧ now ≤ clock ∧ clock - called ≤ delay
  | .ready _ => True

/-- What a punctual run keeps.  All of it is about announcements and times; the
table comes in with the last clauses only, once a heartbeat is committed. -/
structure Steady {timing : Timing} {n : ℕ} (pace : Pace timing) (me : Uuid) (s : Watched n) :
    Prop where
  clock : 0 < s.state.clock
  checked : s.checkedAt ≤ s.state.clock ∧ s.state.clock - s.checkedAt ≤ pace.gap
  threads : ∀ i, Timely pace.delay s.state.clock s.state.heartbeatAt (s.state.threads i)
  /-- One thread at most is to commit a heartbeat. -/
  unique : ∀ i j, (s.state.threads i).isPending = true → (s.state.threads j).isPending = true →
    i = j
  /-- The announced heartbeat was younger than the interval at the last
  check. -/
  announced : s.state.heartbeatAt ≠ 0 → s.state.heartbeatAt ≤ s.state.clock ∧
    s.checkedAt - s.state.heartbeatAt ≤ timing.interval + pace.delay
  row : ∀ w, s.state.db.workers.find? me = some w → s.state.heartbeatAt ≠ 0
  /-- The announced heartbeat is committed, or a thread is about to commit
  it. -/
  committed : ∀ w, s.state.db.workers.find? me = some w → s.state.heartbeatAt ≤ w.heartbeatAt ∨
    ∃ i called, (s.state.threads i).isPending = true ∧
      called ∈ (s.state.threads i).busySince ∧
      called - (timing.interval + pace.gap + pace.delay) ≤ w.heartbeatAt

section Steps

variable {n : ℕ} {timing : Timing} {pace : Pace timing} {me : Uuid} {s t : Watched n}

theorem exists_busySince {thread : Thread} (h : thread.isPending = true) :
    ∃ since, since ∈ thread.busySince := by
  cases thread with
  | due | beating => exact ⟨_, rfl⟩
  | _ => cases h

theorem timely_pending {delay clock heartbeatAt called : Time} {thread : Thread}
    (h : Timely delay clock heartbeatAt thread) (hpending : thread.isPending = true)
    (hcalled : called ∈ thread.busySince) :
    0 < called ∧ called ≤ heartbeatAt ∧ clock - called ≤ delay := by
  cases thread with
  | due => cases hcalled; exact ⟨h.1, h.2.1, h.2.2.2⟩
  | beating => cases hcalled; exact ⟨h.1, h.2.1, h.2.2.2.2⟩
  | _ => cases hpending

/-- **The row is young while the invariant holds.**  The arithmetic of the bound
is here, and nowhere else. -/
theorem Steady.fresh (hsteady : Steady pace me s) : Fresh pace me s.state := by
  intro w hw
  have hgap := hsteady.checked.2
  have hdelay := pace.delay_nonneg
  have hannounced := (hsteady.announced (hsteady.row w hw)).2
  unfold Pace.bound
  rcases hsteady.committed w hw with hle | ⟨i, called, hpending, hcalled, hle⟩
  · linarith
  · have hlate := (timely_pending (hsteady.threads i) hpending hcalled).2.2
    linarith

theorem steady_empty {clock : Time} (hclock : 0 < clock) :
    Steady pace me (Watched.empty n clock) where
  clock := hclock
  checked := ⟨le_refl clock, by simpa [Watched.empty, State.empty] using pace.gap_nonneg⟩
  threads := fun _ => trivial
  unique := fun i j h => by cases h
  announced := fun h => absurd rfl h
  row := fun w hw => by cases hw
  committed := fun w hw => by cases hw

/-- A step of one thread that announces nothing, before it and after it. -/
theorem Steady.setThread {i : Fin n} {thread : Thread} (hsteady : Steady pace me s)
    (hthreads : t.state.threads = Function.update s.state.threads i thread)
    (hclock : t.state.clock = s.state.clock)
    (hheartbeat : t.state.heartbeatAt = s.state.heartbeatAt)
    (hworkers : t.state.db.workers = s.state.db.workers)
    (hchecked : t.checkedAt = s.checkedAt ∨ t.checkedAt = s.state.clock ∧
      (s.state.heartbeatAt ≠ 0 →
        s.state.clock - s.state.heartbeatAt ≤ timing.interval + pace.delay))
    (hold : (s.state.threads i).isPending = false) (hnew : thread.isPending = false)
    (htimely : Timely pace.delay s.state.clock s.state.heartbeatAt thread) :
    Steady pace me t := by
  have hsame : ∀ j, (t.state.threads j).isPending = true →
      t.state.threads j = s.state.threads j := by
    intro j hj
    rw [hthreads] at hj ⊢
    by_cases hji : j = i
    · rw [hji, Function.update_self, hnew] at hj
      cases hj
    · rw [Function.update_of_ne hji]
  constructor
  · rw [hclock]
    exact hsteady.clock
  · rw [hclock]
    rcases hchecked with hchecked | ⟨hchecked, -⟩ <;> rw [hchecked]
    · exact hsteady.checked
    · exact ⟨le_rfl, by simpa using pace.gap_nonneg⟩
  · intro j
    rw [hclock, hheartbeat, hthreads]
    by_cases hji : j = i
    · rw [hji, Function.update_self]
      exact htimely
    · rw [Function.update_of_ne hji]
      exact hsteady.threads j
  · intro j k hj hk
    exact hsteady.unique j k (hsame j hj ▸ hj) (hsame k hk ▸ hk)
  · intro hne
    rw [hheartbeat] at hne ⊢
    rw [hclock]
    refine ⟨(hsteady.announced hne).1, ?_⟩
    rcases hchecked with hchecked | ⟨hchecked, hyoung⟩ <;> rw [hchecked]
    · exact (hsteady.announced hne).2
    · exact hyoung hne
  · intro w hw
    rw [hworkers] at hw
    rw [hheartbeat]
    exact hsteady.row w hw
  · intro w hw
    rw [hworkers] at hw
    rw [hheartbeat]
    rcases hsteady.committed w hw with hle | ⟨j, called, hpending, hcalled, hle⟩
    · exact Or.inl hle
    · have hji : j ≠ i := by
        rintro rfl
        rw [hold] at hpending
        cases hpending
      have hthread : t.state.threads j = s.state.threads j := by
        rw [hthreads, Function.update_of_ne hji]
      exact Or.inr ⟨j, called, hthread ▸ hpending, hthread ▸ hcalled, hle⟩

/-- The clock ticks, and no thread gets late. -/
theorem timely_tick {clock clock' heartbeatAt : Time} {thread : Thread} (hle : clock ≤ clock')
    (h : Timely pace.delay clock heartbeatAt thread)
    (hbusy : ∀ called ∈ thread.busySince, clock' - called ≤ pace.delay) :
    Timely pace.delay clock' heartbeatAt thread := by
  cases thread with
  | idle | ready => trivial
  | called called => exact ⟨h.1, h.2.1.trans hle, hbusy called rfl⟩
  | read called now => exact ⟨h.1, h.2.1, h.2.2.1.trans hle, hbusy called rfl⟩
  | due called => exact ⟨h.1, h.2.1, h.2.2.1.trans hle, hbusy called rfl⟩
  | beating called now => exact ⟨h.1, h.2.1, h.2.2.1, h.2.2.2.1.trans hle, hbusy called rfl⟩

/-- A heartbeat is announced only when none is pending: the last one announced
is older than the interval, and no thread takes that long. -/
theorem Steady.not_pending {i : Fin n} {called now : Time} (hsteady : Steady pace me s)
    (hthread : s.state.threads i = .read called now)
    (hnot : ¬ s.state.suppressed timing now = true) (j : Fin n) :
    (s.state.threads j).isPending = false := by
  by_contra hpending
  rw [Bool.not_eq_false] at hpending
  have hread := hsteady.threads i
  rw [hthread] at hread
  obtain ⟨since, hsince⟩ := exists_busySince hpending
  obtain ⟨hpos, hle, hlate⟩ := timely_pending (hsteady.threads j) hpending hsince
  have hne : s.state.heartbeatAt ≠ 0 := (hpos.trans_le hle).ne'
  have hold : ¬ now - s.state.heartbeatAt < timing.interval := fun hlt =>
    hnot (by simp [State.suppressed, hne, hlt])
  have hlt := pace.delay_lt
  have hnow : now ≤ s.state.clock := hread.2.2.1
  linarith

/-- A thread announces a heartbeat. -/
theorem Steady.announce {i : Fin n} {called now : Time} (hsteady : Steady pace me s)
    (hthread : s.state.threads i = .read called now)
    (hnot : ¬ s.state.suppressed timing now = true) :
    Steady pace me
      ⟨{ s.state.setThread i (.due called) with heartbeatAt := now }, s.state.clock⟩ := by
  have hnone := hsteady.not_pending hthread hnot
  have hread := hsteady.threads i
  rw [hthread] at hread
  obtain ⟨hpos, hcalled, hnow, hlate⟩ := hread
  have honly : ∀ j, (Function.update s.state.threads i (.due called) j).isPending = true →
      j = i := by
    intro j hj
    by_contra hji
    rw [Function.update_of_ne hji, hnone] at hj
    cases hj
  constructor
  · exact hsteady.clock
  · exact ⟨le_rfl, by simpa [State.setThread] using pace.gap_nonneg⟩
  · intro j
    show Timely _ s.state.clock now (Function.update s.state.threads i (.due called) j)
    by_cases hji : j = i
    · rw [hji, Function.update_self]
      exact ⟨hpos, hcalled, hnow, hlate⟩
    · rw [Function.update_of_ne hji]
      have hj := hsteady.threads j
      have hcalm := hnone j
      cases hthread' : s.state.threads j with
      | due | beating => rw [hthread'] at hcalm; cases hcalm
      | _ => rw [hthread'] at hj; exact hj
  · intro j k hj hk
    rw [honly j hj, honly k hk]
  · intro _
    refine ⟨hnow, ?_⟩
    show s.state.clock - now ≤ _
    have hnonneg := timing.interval_nonneg
    linarith
  · intro w _
    show now ≠ 0
    exact (hpos.trans_le hcalled).ne'
  · intro w hw
    -- the row is that of the heartbeat announced before
    have hrow := hsteady.committed w hw
    right
    refine ⟨i, called, ?_, ?_, ?_⟩
    · show (Function.update s.state.threads i (.due called) i).isPending = true
      rw [Function.update_self]
      rfl
    · show called ∈ (Function.update s.state.threads i (.due called) i).busySince
      rw [Function.update_self]
      rfl
    · rcases hrow with hle | ⟨j, _, hpending, -⟩
      · have hyoung := (hsteady.announced (hsteady.row w hw)).2
        have hgap := hsteady.checked.2
        linarith
      · rw [hnone j] at hpending
        cases hpending

/-- The transaction of a heartbeat begins. -/
theorem Steady.beginHeartbeat {i : Fin n} {called : Time} (hsteady : Steady pace me s)
    (hthread : s.state.threads i = .due called) :
    Steady pace me ⟨s.state.setThread i (.beating called s.state.clock), s.checkedAt⟩ := by
  have hsame : ∀ j, ((s.state.setThread i (.beating called s.state.clock)).threads j).isPending =
      (s.state.threads j).isPending ∧
      ((s.state.setThread i (.beating called s.state.clock)).threads j).busySince =
      (s.state.threads j).busySince := by
    intro j
    simp only [State.setThread]
    by_cases hji : j = i
    · subst hji
      rw [Function.update_self, hthread]
      exact ⟨rfl, rfl⟩
    · rw [Function.update_of_ne hji]
      exact ⟨rfl, rfl⟩
  refine ⟨hsteady.clock, hsteady.checked, fun j => ?_, fun j k hj hk => ?_, hsteady.announced,
    hsteady.row, fun w hw => ?_⟩
  · show Timely _ s.state.clock s.state.heartbeatAt
      (Function.update s.state.threads i (.beating called s.state.clock) j)
    by_cases hji : j = i
    · have hdue := hsteady.threads i
      rw [hthread] at hdue
      rw [hji, Function.update_self]
      exact ⟨hdue.1, hdue.2.1, hdue.2.2.1, le_rfl, hdue.2.2.2⟩
    · rw [Function.update_of_ne hji]
      exact hsteady.threads j
  · exact hsteady.unique j k ((hsame j).1 ▸ hj) ((hsame k).1 ▸ hk)
  · rcases hsteady.committed w hw with hle | ⟨j, since, hpending, hsince, hle⟩
    · exact Or.inl hle
    · exact Or.inr ⟨j, since, (hsame j).1.symm ▸ hpending, (hsame j).2.symm ▸ hsince, hle⟩

/-- The transaction of a heartbeat commits. -/
theorem Steady.commitHeartbeat {i : Fin n} {called now : Time} (hsteady : Steady pace me s)
    (hthread : s.state.threads i = .beating called now) :
    Steady pace me
      ⟨{ s.state.setThread i (.ready called) with
          db := { s.state.db with workers := Queries.heartbeat now me s.state.db.workers } },
        s.checkedAt⟩ := by
  have hbeating := hsteady.threads i
  rw [hthread] at hbeating
  obtain ⟨hpos, hcalled, hbegun, -, -⟩ := hbeating
  have hsame : ∀ j, (Function.update s.state.threads i (.ready called) j).isPending = true →
      (s.state.threads j).isPending = true := by
    intro j hj
    by_cases hji : j = i
    · rw [hji, Function.update_self] at hj
      cases hj
    · rwa [Function.update_of_ne hji] at hj
  have hrow := find?_heartbeat now me s.state.db.workers
  refine ⟨hsteady.clock, hsteady.checked, fun j => ?_,
    fun j k hj hk => hsteady.unique j k (hsame j hj) (hsame k hk), hsteady.announced,
    fun w _ => (hpos.trans_le hcalled).ne', fun w hw => Or.inl ?_⟩
  · show Timely _ s.state.clock s.state.heartbeatAt
      (Function.update s.state.threads i (.ready called) j)
    by_cases hji : j = i
    · rw [hji, Function.update_self]
      trivial
    · rw [Function.update_of_ne hji]
      exact hsteady.threads j
  · obtain rfl := Option.some_inj.mp (hrow.symm.trans hw)
    exact hbegun

/-- **Step lemma.**  A step that keeps the pace keeps the invariant. -/
theorem Steady.step {a : Action n} (hsteady : Steady pace me s) (hpunctual : Punctual pace s a)
    (hstep : s.step timing me a = some t) : Steady pace me t := by
  obtain ⟨u, hu, rfl⟩ := Option.map_eq_some_iff.mp hstep
  cases a with
  | tick elapsed =>
      cases hu
      obtain ⟨hgap, hbusy⟩ := hpunctual
      have hle : s.state.clock ≤ s.state.clock + elapsed := by linarith
      refine ⟨hsteady.clock.trans_le hle, ⟨hsteady.checked.1.trans hle, hgap⟩, fun i => ?_,
        hsteady.unique, fun hne => ?_, hsteady.row, hsteady.committed⟩
      · exact timely_tick hle (hsteady.threads i) (hbusy i)
      · obtain ⟨hbefore, hyoung⟩ := hsteady.announced hne
        exact ⟨hbefore.trans hle, hyoung⟩
  | call i =>
      simp only [State.step] at hu
      split at hu
      · next hthread =>
          cases hu
          refine hsteady.setThread rfl rfl rfl rfl (Or.inl rfl) (by rw [hthread]; rfl) rfl ?_
          exact ⟨hsteady.clock, le_rfl, by simpa using pace.delay_nonneg⟩
      · cases hu
  | readClock i =>
      simp only [State.step] at hu
      split at hu
      · next called hthread =>
          cases hu
          have hcalled := hsteady.threads i
          rw [hthread] at hcalled
          refine hsteady.setThread rfl rfl rfl rfl (Or.inl rfl) (by rw [hthread]; rfl) rfl ?_
          exact ⟨hcalled.1, hcalled.2.1, le_rfl, hcalled.2.2⟩
      · cases hu
  | check i =>
      simp only [State.step] at hu
      split at hu
      · next called now hthread =>
          have hread := hsteady.threads i
          rw [hthread] at hread
          split_ifs at hu with hsuppressed
          · cases hu
            -- the announced heartbeat is younger than the interval
            simp only [State.suppressed, decide_eq_true_eq] at hsuppressed
            refine hsteady.setThread rfl rfl rfl rfl (Or.inr ⟨rfl, fun _ => ?_⟩)
              (by rw [hthread]; rfl) rfl trivial
            have hcalled := hread.2.1
            have hlate := hread.2.2.2
            linarith [hsuppressed.2]
          · cases hu
            exact hsteady.announce hthread hsuppressed
      · cases hu
  | beginHeartbeat i =>
      simp only [State.step] at hu
      split at hu
      · next called hthread =>
          cases hu
          exact hsteady.beginHeartbeat hthread
      · cases hu
  | commitHeartbeat i =>
      simp only [State.step] at hu
      split at hu
      · next called now hthread =>
          cases hu
          exact hsteady.commitHeartbeat hthread
      · cases hu
  | raise i =>
      cases hu
      exact hsteady.setThread rfl rfl rfl rfl (Or.inl rfl) hpunctual rfl trivial
  | skip i =>
      simp only [State.step] at hu
      split at hu
      · next called hthread =>
          cases hu
          exact hsteady.setThread rfl rfl rfl rfl (Or.inl rfl) (by rw [hthread]; rfl) rfl trivial
      · cases hu
  | claim i queueName limit locked =>
      simp only [State.step] at hu
      split at hu
      · next called hthread =>
          cases hu
          exact hsteady.setThread rfl rfl rfl rfl (Or.inl rfl) (by rw [hthread]; rfl) rfl trivial
      · cases hu
  | other a =>
      simp only [State.step] at hu
      split_ifs at hu with hown
      obtain ⟨db, hdb, rfl⟩ := Option.map_eq_some_iff.mp hu
      have hrow : db.workers.find? me = s.state.db.workers.find? me := by
        rcases find?_workers_exec hdb (Bool.eq_false_iff.mpr hown) with
          hsame | ⟨now, maxAge, w, rfl, hw, hold⟩
        · exact hsame
        · -- the row is too young to be cleaned away
          obtain ⟨hnow, hage⟩ := hpunctual
          have hfresh := hsteady.fresh w hw
          linarith
      exact ⟨hsteady.clock, hsteady.checked, hsteady.threads, hsteady.unique, hsteady.announced,
        fun w hw => hsteady.row w (hrow ▸ hw), fun w hw => hsteady.committed w (hrow ▸ hw)⟩

/-- **The row stays**: no statement of another process takes it from a process
that keeps on calling, since it is younger than what they clean away. -/
theorem exists_row_step {a : Action n} (hsteady : Steady pace me s) (hpunctual : Punctual pace s a)
    (hstep : s.step timing me a = some t)
    (hbeat : (∃ w, s.state.db.workers.find? me = some w) ∨ ∃ i, a = .commitHeartbeat i) :
    ∃ w, t.state.db.workers.find? me = some w := by
  obtain ⟨u, hu, rfl⟩ := Option.map_eq_some_iff.mp hstep
  cases a with
  | commitHeartbeat i =>
      simp only [State.step] at hu
      split at hu
      · cases hu
        exact ⟨_, find?_heartbeat ..⟩
      · cases hu
  | other a =>
      have hrow := hbeat.resolve_right (by rintro ⟨i, ha⟩; cases ha)
      simp only [State.step] at hu
      split_ifs at hu with hown
      obtain ⟨db, hdb, rfl⟩ := Option.map_eq_some_iff.mp hu
      rcases find?_workers_exec hdb (Bool.eq_false_iff.mpr hown) with
        hsame | ⟨now, maxAge, w, rfl, hw, hold⟩
      · exact hrow.imp fun w hw => hsame.trans hw
      · obtain ⟨hnow, hage⟩ := hpunctual
        have hfresh := hsteady.fresh w hw
        linarith
  | tick | raise =>
      cases hu
      exact hbeat.resolve_right (by rintro ⟨i, ha⟩; cases ha)
  | call | readClock | check | beginHeartbeat | skip | claim =>
      have hrow := hbeat.resolve_right (by rintro ⟨i, ha⟩; cases ha)
      simp only [State.step] at hu
      split at hu
      · first
          | cases hu
            exact hrow
          | split_ifs at hu <;> cases hu <;> exact hrow
      · cases hu

end Steps

/-! ## The law of every run -/

/-- A young row keeps the reaper away. -/
theorem reapsNone_of_fresh {n : ℕ} {timing : Timing} {pace : Pace timing} {me : Uuid} {s : State n}
    (hfresh : Fresh pace me s) (hbound : pace.bound < timing.ttl) {w : WorkerRow}
    (hw : s.db.workers.find? me = some w) : ReapsNone timing me s := by
  intro now hnow id r hr hworker
  have hyoung := hfresh w hw
  have halive : Queries.isAlive s.db.workers now timing.ttl me = true := by
    rw [Queries.isAlive, hw, Option.any_some, decide_eq_true_eq]
    linarith
  have hspared : Queries.reapWhere s.db.workers now timing.ttl r = false := by
    simp [Queries.reapWhere, hworker, halive]
  rw [Queries.reap, Queue.find?_updateWhere, hr, Option.map_some, hspared]
  rfl

/-- **A process that keeps calling is not reaped.**  In a run that keeps a pace
whose bound is below the time to live, from the first committed heartbeat on the
process has its worker row, the row is younger than the bound, and no reaper
takes a row of the process. -/
theorem reapsNone_of_punctual (n : ℕ) {timing : Timing} (pace : Pace timing)
    (hbound : pace.bound < timing.ttl) (me : Uuid) {clock : Time} (hclock : 0 < clock)
    (before after : List (Action n)) (i : Fin n)
    (hpunctual : ∀ p ∈ (watchedSystem n timing me clock).taken
      (before ++ [.commitHeartbeat i] ++ after), Punctual pace p.1 p.2)
    {s : Watched n} (hs : (watchedSystem n timing me clock).after (.empty n clock)
      (before ++ [.commitHeartbeat i]) = some s) :
    ∀ t ∈ (watchedSystem n timing me clock).visitedFrom s after,
      ∃ w, t.state.db.workers.find? me = some w ∧
        t.state.clock - pace.bound ≤ w.heartbeatAt ∧ ReapsNone timing me t.state := by
  have hkeep : ∀ s a t, Steady pace me s → Punctual pace s a →
      (watchedSystem n timing me clock).step s a = some t → Steady pace me t :=
    fun s a t hsteady hpunctual hstep => hsteady.step hpunctual hstep
  -- The first part of the run, up to the heartbeat.
  rw [StepSystem.after_append] at hs
  obtain ⟨u, hu, hcommit⟩ := Option.bind_eq_some_iff.mp hs
  have hbefore : Steady pace me u := StepSystem.inv_of_mem_visitedFrom hkeep (steady_empty hclock)
    (fun p hp => hpunctual p (StepSystem.mem_takenFrom_append_left
      (StepSystem.mem_takenFrom_append_left hp))) u (StepSystem.mem_visitedFrom_of_after hu)
  obtain ⟨s', hstep, hs'⟩ := Option.bind_eq_some_iff.mp hcommit
  obtain rfl : s' = s := Option.some_inj.mp hs'
  have hpace : Punctual pace u (.commitHeartbeat i) := trivial
  have hrow := exists_row_step hbefore hpace hstep (Or.inr ⟨i, rfl⟩)
  -- The rest of it.
  intro t ht
  obtain ⟨hsteady, w, hw⟩ := StepSystem.inv_of_mem_visitedFrom (C := Punctual pace)
    (I := fun s => Steady pace me s ∧ ∃ w, s.state.db.workers.find? me = some w)
    (fun s a t h hpunctual hstep => ⟨hkeep s a t h.1 hpunctual hstep,
      exists_row_step h.1 hpunctual hstep (Or.inl h.2)⟩) ⟨hbefore.step hpace hstep, hrow⟩
    (fun p hp => hpunctual p (StepSystem.mem_takenFrom_append
      ((StepSystem.after_append ..).trans hs) hp)) t ht
  exact ⟨w, hw, hsteady.fresh w hw, reapsNone_of_fresh hsteady.fresh hbound hw⟩

/-- Checks every ten seconds, and five seconds for a heartbeat: with the default
settings the row is never older than 35 seconds. -/
def briskPace : Pace defaultTiming := ⟨10000000, 5000000, by decide, by decide, by decide⟩

/-- A first heartbeat. -/
def firstHeartbeat : List (Action 3) :=
  [.call 0, .readClock 0, .check 0, .tick 1000000, .beginHeartbeat 0] ++ [.commitHeartbeat 0]

/-- A claim after it, a check that makes none, and a second heartbeat. -/
def callingRun : List (Action 3) :=
  [.other (.enqueueQuiet 2000000 "q" (Uuid.small 1) .null 0), .claim 0 "q" 8 [], .tick 8000000,
    .call 1, .readClock 1, .check 1, .skip 1, .tick 9000000, .call 1, .readClock 1, .check 1,
    .beginHeartbeat 1, .tick 2000000, .commitHeartbeat 1]

theorem isSome_firstHeartbeat : ((watchedSystem 3 defaultTiming (Uuid.small 7) 1000000).after
    (.empty 3 1000000) firstHeartbeat).isSome := by decide +kernel

theorem reapsNone_callingRun :
    ∃ s, (watchedSystem 3 defaultTiming (Uuid.small 7) 1000000).after (.empty 3 1000000)
        firstHeartbeat = some s ∧
      (∃ t ∈ (watchedSystem 3 defaultTiming (Uuid.small 7) 1000000).visitedFrom s callingRun,
        (t.state.db.queue.find? (Uuid.small 1)).any
          (fun r => r.workerId = some (Uuid.small 7)) = true) ∧
      ∀ t ∈ (watchedSystem 3 defaultTiming (Uuid.small 7) 1000000).visitedFrom s callingRun,
        ∃ w, t.state.db.workers.find? (Uuid.small 7) = some w ∧
          t.state.clock - briskPace.bound ≤ w.heartbeatAt ∧
            ReapsNone defaultTiming (Uuid.small 7) t.state := by
  have hafter := (Option.some_get isSome_firstHeartbeat).symm
  have hpunctual : ∀ p ∈ (watchedSystem 3 defaultTiming (Uuid.small 7) 1000000).taken
      (firstHeartbeat ++ callingRun), Punctual briskPace p.1 p.2 := by decide +kernel
  refine ⟨((watchedSystem 3 defaultTiming (Uuid.small 7) 1000000).after (.empty 3 1000000)
    firstHeartbeat).get isSome_firstHeartbeat, hafter, by decide +kernel, ?_⟩
  exact reapsNone_of_punctual 3 briskPace (by decide) (Uuid.small 7) (by decide) _ callingRun 0
    hpunctual hafter

end Heartbeat

end DramatiqPostgres
