import DramatiqPostgres.Delivery.Held
import DramatiqPostgres.Lib.Runs
import Mathlib.Tactic.Linarith

/-!
# Heartbeats of one worker process

The consumer threads of a process share `_heartbeat_at`, the time of the last
heartbeat; a thread that finds it younger than `heartbeat_interval` goes on to
claim without one.  The field is written under a lock, but *before* the upsert
runs.  Between the two — and for a whole interval when the upsert fails — it
announces a heartbeat that the worker table does not hold.

`processSystem` has one step for every point at which the threads of the
process, the clock and the other parties can interleave.  The process' clock and
the server's advance together, and `NOW()` is the start of a transaction.

`HeartbeatFirst` is the law: a claim is covered by a committed heartbeat no
older than the interval, counted from its `__next__` call.  It holds in every
run whose steps are `Confirmed` (`heartbeatFirst_of_confirmed`), through the
invariant `Covered` of the threads that are past their check.  That a reaper
then leaves the claimed rows alone takes one thing more: the claim must not come
later than `heartbeat_ttl - heartbeat_interval` after its `__next__` call.

### The condition

`Confirmed` is about three kinds of steps, each by the state before it:

* a check that is suppressed finds the announced heartbeat committed;
* a heartbeat does not overtake one that began later, which would set the worker
  row back;
* nobody cleans the worker row away while a thread is between its check and its
  claim.

The first is where two threads go wrong: the one that announced has not come to
its upsert yet, and the other one relies on it.  The other two are about the
worker row, which the check does not look at.

### The invariant

`Covered` says, point by point of `__next__`, in which order the times of a
thread were read, and from its check on that a committed heartbeat covers it.
It is about each thread by itself; what one thread's step does to the others is
only that heartbeats do not go back (`Covered.mono`).
-/

namespace DramatiqPostgres

namespace Heartbeat

open Pg

/-- The two settings. -/
structure Timing where
  interval : Time
  ttl : Time
  interval_nonneg : 0 ≤ interval

/-- Where a consumer thread is in `__next__`; `called` is the time of the
call. -/
inductive Thread where
  | idle
  | called (called : Time)
  /-- `now = time.monotonic()` is read. -/
  | read (called now : Time)
  /-- Past the check, with a heartbeat to make. -/
  | due (called : Time)
  /-- The heartbeat's transaction has begun, at `now`. -/
  | beating (called now : Time)
  /-- `maybe_heartbeat` has returned. -/
  | ready (called : Time)

/-- Whether the thread is past its heartbeat and before its claim. -/
def Thread.isReady : Thread → Bool
  | ready _ => true
  | _ => false

/-- The tables, the clock, and the memory of the process.  The clock of the
process and the server's are one; what separates two readings of it are
ticks. -/
structure State (n : ℕ) where
  db : Database
  clock : Time
  /-- `_heartbeat_at`, zero before the first heartbeat. -/
  heartbeatAt : Time
  /-- The consumer threads of the process. -/
  threads : Fin n → Thread

/-- One step of a thread, of the clock or of another party. -/
inductive Action (n : ℕ) where
  | tick (elapsed : ℕ)
  | call (i : Fin n)
  | readClock (i : Fin n)
  | check (i : Fin n)
  | beginHeartbeat (i : Fin n)
  | commitHeartbeat (i : Fin n)
  /-- An exception: the thread's consumer is replaced. -/
  | raise (i : Fin n)
  /-- `__next__` does not claim. -/
  | skip (i : Fin n)
  | claim (i : Fin n) (queueName : String) (limit : ℕ) (locked : List Uuid)
  | other (a : Statement)

namespace State

variable {n : ℕ}

/-- Replace a thread. -/
def setThread (s : State n) (i : Fin n) (thread : Thread) : State n :=
  { s with threads := Function.update s.threads i thread }

/-- A fresh installation. -/
def empty (n : ℕ) (clock : Time) : State n := ⟨Database.empty, clock, 0, fun _ => .idle⟩

/-- The test of the locked check: a heartbeat younger than the interval is
announced. -/
def suppressed (timing : Timing) (s : State n) (now : Time) : Bool :=
  s.heartbeatAt ≠ 0 ∧ now - s.heartbeatAt < timing.interval

/-- A statement of this process' own: the others do not use its worker id. -/
def isOwn (me : Uuid) : Statement → Bool
  | .claim _ _ _ workerId _ => workerId = me
  | .heartbeat _ workerId => workerId = me
  | _ => false

/-- The state after a step. -/
def step (timing : Timing) (me : Uuid) (s : State n) : Action n → Option (State n)
  | .tick elapsed => some { s with clock := s.clock + elapsed }
  | .call i =>
      match s.threads i with
      | .idle => some (s.setThread i (.called s.clock))
      | _ => none
  | .readClock i =>
      match s.threads i with
      | .called called => some (s.setThread i (.read called s.clock))
      | _ => none
  | .check i =>
      match s.threads i with
      | .read called now =>
          if s.suppressed timing now then some (s.setThread i (.ready called))
          else some { s.setThread i (.due called) with heartbeatAt := now }
      | _ => none
  | .beginHeartbeat i =>
      match s.threads i with
      | .due called => some (s.setThread i (.beating called s.clock))
      | _ => none
  | .commitHeartbeat i =>
      match s.threads i with
      | .beating called now =>
          some { s.setThread i (.ready called) with
            db := { s.db with workers := Queries.heartbeat now me s.db.workers } }
      | _ => none
  | .raise i => some (s.setThread i .idle)
  | .skip i =>
      match s.threads i with
      | .ready _ => some (s.setThread i .idle)
      | _ => none
  | .claim i queueName limit locked =>
      match s.threads i with
      | .ready _ =>
          some { s.setThread i .idle with
            db := { s.db with
              queue := (Queries.claim s.clock queueName limit me locked s.db.queue).2 } }
      | _ => none
  | .other a => if isOwn me a then none else (s.db.exec a).map fun db => { s with db := db }

end State

/-- Every run of the process `me` with `n` consumer threads, from any time
on. -/
def processSystem (n : ℕ) (timing : Timing) (me : Uuid) (clock : Time) :
    StepSystem (State n) (Action n) :=
  ⟨State.empty n clock, State.step timing me⟩

/-! ## The law and its condition -/

section Law

variable {n : ℕ}

/-- A committed heartbeat of `me`, not older than `time`. -/
def BeatSince (me : Uuid) (s : State n) (time : Time) : Prop :=
  ∃ w, s.db.workers.find? me = some w ∧ time ≤ w.heartbeatAt

instance (me : Uuid) (s : State n) (time : Time) : Decidable (BeatSince me s time) :=
  decidable_of_iff ((s.db.workers.find? me).any (fun w => time ≤ w.heartbeatAt) = true) <| by
    simp [BeatSince, Option.any_eq_true]

/-- **Heartbeat before claim.**  A claim is covered by a committed heartbeat
that is at most the interval older than the `__next__` call. -/
def HeartbeatFirst (timing : Timing) (me : Uuid) (s : State n) (a : Action n) : Prop :=
  ∀ i queueName limit locked called, a = .claim i queueName limit locked →
    s.threads i = .ready called → BeatSince me s (called - timing.interval)

/-- A reaper right after the claim leaves the rows it took alone. -/
def ReapSpares (timing : Timing) (me : Uuid) (s : State n) (a : Action n) : Prop :=
  ∀ i queueName limit locked t, a = .claim i queueName limit locked →
    s.step timing me a = some t →
      ∀ id ∈ claimedIds s.clock queueName limit locked s.db.queue,
        (Queries.reap t.db.workers t.clock timing.ttl t.db.queue).find? id = t.db.queue.find? id

/-- The claim commits less than `ttl - interval` after its `__next__` call. -/
def OnTime (timing : Timing) (s : State n) (a : Action n) : Prop :=
  ∀ i queueName limit locked called, a = .claim i queueName limit locked →
    s.threads i = .ready called → s.clock - called < timing.ttl - timing.interval

/-- **What the announcement in `_heartbeat_at` and the worker table have to
agree on**, before a step. -/
def Confirmed (timing : Timing) (me : Uuid) (s : State n) : Action n → Prop
  -- A check that is suppressed finds the announced heartbeat committed.
  | .check i =>
      match s.threads i with
      | .read _ now => s.suppressed timing now = true → BeatSince me s s.heartbeatAt
      | _ => True
  -- A heartbeat does not overtake one that began later.
  | .commitHeartbeat i =>
      match s.threads i with
      | .beating _ now => ∀ w ∈ s.db.workers.find? me, w.heartbeatAt ≤ now
      | _ => True
  -- The worker row is not cleaned away between a check and its claim.
  | .other (.cleanWorkers now maxAge) =>
      (∃ w ∈ s.db.workers.find? me, w.heartbeatAt < now - maxAge) →
        ∀ i, (s.threads i).isReady = false
  | _ => True

instance (timing : Timing) (me : Uuid) (s : State n) (a : Action n) :
    Decidable (Confirmed timing me s a) := by
  unfold Confirmed
  split
  · split <;> infer_instance
  · split <;> infer_instance
  · infer_instance
  · infer_instance

end Law

/-! ## The worker table -/

theorem find?_heartbeat (now : Time) (me : Uuid) (workers : WorkerTable) :
    (Queries.heartbeat now me workers).find? me = some ⟨me, now⟩ := by
  rw [Queries.heartbeat, Table.find?_upsert, if_pos rfl]
  cases h : workers.find? me with
  | none => rfl
  | some w =>
      have hkey : w.workerId = me := Table.key_of_find? h
      simp [← hkey]

theorem find?_heartbeat_of_ne {now : Time} {me other : Uuid} {workers : WorkerTable}
    (h : me ≠ other) : (Queries.heartbeat now other workers).find? me = workers.find? me := by
  rw [Queries.heartbeat, Table.find?_upsert, if_neg h]

/-- A statement of another party leaves the row of `me` alone, or cleans it
away. -/
theorem find?_workers_exec {db db' : Database} {a : Statement} {me : Uuid}
    (h : db.exec a = some db') (hown : State.isOwn me a = false) :
    db'.workers.find? me = db.workers.find? me ∨
      ∃ now maxAge w, a = .cleanWorkers now maxAge ∧ db.workers.find? me = some w ∧
        w.heartbeatAt < now - maxAge := by
  cases a with
  | enqueue | enqueueQuiet | ack | nack =>
      obtain ⟨p, -, rfl⟩ := Database.eq_of_ofResult h
      exact Or.inl rfl
  | claim | requeue | reap | recover | purge | flush | deleteByPk | discard =>
      cases h
      exact Or.inl rfl
  | heartbeat now workerId =>
      cases h
      have hne : me ≠ workerId := by
        rintro rfl
        simp [State.isOwn] at hown
      exact Or.inl (find?_heartbeat_of_ne hne)
  | cleanWorkers now maxAge =>
      cases h
      cases hw : db.workers.find? me with
      | none => exact Or.inl (by simp [Queries.cleanWorkers, hw])
      | some w =>
          by_cases hold : w.heartbeatAt < now - maxAge
          · exact Or.inr ⟨now, maxAge, w, rfl, rfl, hold⟩
          · exact Or.inl (by simp [Queries.cleanWorkers, hw, hold])

/-! ## The invariant -/

/-- What is known of a thread.  Times are in the order they were read in, and a
thread past its check is covered by a heartbeat. -/
def Covered {n : ℕ} (timing : Timing) (me : Uuid) (s : State n) : Thread → Prop
  | .idle => True
  | .called called => called ≤ s.clock
  | .read called now => called ≤ now ∧ now ≤ s.clock
  | .due called => called ≤ s.clock
  | .beating called now => called ≤ now ∧ now ≤ s.clock
  | .ready called => called ≤ s.clock ∧ BeatSince me s (called - timing.interval)

/-- Every thread is covered. -/
def Ok {n : ℕ} (timing : Timing) (me : Uuid) (s : State n) : Prop :=
  ∀ i, Covered timing me s (s.threads i)

variable {n : ℕ} {timing : Timing} {me : Uuid} {s t : State n}

theorem ok_empty (clock : Time) : Ok timing me (State.empty n clock) := fun _ => trivial

/-- Covers survive while the clock runs and heartbeats do not go back. -/
theorem Covered.mono {thread : Thread} (h : Covered timing me s thread) (hclock : s.clock ≤ t.clock)
    (hbeat : ∀ called, thread = .ready called → ∀ time, BeatSince me s time → BeatSince me t time) :
    Covered timing me t thread := by
  cases thread with
  | idle => trivial
  | called | due => exact le_trans h hclock
  | read | beating => exact ⟨h.1, h.2.trans hclock⟩
  | ready called => exact ⟨h.1.trans hclock, hbeat called rfl _ h.2⟩

/-- A step of one thread: its new place is covered, and the other threads keep
their covers. -/
theorem ok_setThread {i : Fin n} {thread : Thread} (hok : Ok timing me s)
    (hthreads : t.threads = Function.update s.threads i thread) (hclock : t.clock = s.clock)
    (hbeat : ∀ time, BeatSince me s time → BeatSince me t time)
    (hthread : Covered timing me t thread) : Ok timing me t := by
  intro j
  rw [hthreads]
  by_cases hj : j = i
  · rw [hj, Function.update_self]
    exact hthread
  · rw [Function.update_of_ne hj]
    exact (hok j).mono hclock.ge fun _ _ time => hbeat time

/-- **Step lemma.**  A confirmed step keeps every thread covered. -/
theorem ok_step {a : Action n} (hok : Ok timing me s) (hconfirmed : Confirmed timing me s a)
    (hstep : s.step timing me a = some t) : Ok timing me t := by
  cases a with
  | tick elapsed =>
      cases hstep
      have hclock : s.clock ≤ s.clock + elapsed := by linarith
      exact fun i => (hok i).mono hclock fun _ _ _ h => h
  | call i =>
      simp only [State.step] at hstep
      split at hstep
      · cases hstep
        exact ok_setThread hok rfl rfl (fun _ h => h) (le_refl s.clock)
      · cases hstep
  | readClock i =>
      simp only [State.step] at hstep
      split at hstep
      · next called hthread =>
          cases hstep
          have hcalled := hok i
          rw [hthread] at hcalled
          exact ok_setThread hok rfl rfl (fun _ h => h) ⟨hcalled, le_refl s.clock⟩
      · cases hstep
  | check i =>
      simp only [State.step] at hstep
      split at hstep
      · next called now hthread =>
          have hread := hok i
          rw [hthread] at hread
          split_ifs at hstep with hsuppressed
          · cases hstep
            -- The announced heartbeat is committed, and younger than the interval.
            simp only [Confirmed, hthread] at hconfirmed
            obtain ⟨w, hw, hbeat⟩ := hconfirmed hsuppressed
            simp only [State.suppressed, decide_eq_true_eq] at hsuppressed
            refine ok_setThread hok rfl rfl (fun _ h => h) ⟨hread.1.trans hread.2, w, hw, ?_⟩
            have hle : called ≤ now := hread.1
            linarith
          · cases hstep
            have hdue : Covered timing me s (.due called) := hread.1.trans hread.2
            exact ok_setThread hok rfl rfl (fun _ h => h) hdue
      · cases hstep
  | beginHeartbeat i =>
      simp only [State.step] at hstep
      split at hstep
      · next called hthread =>
          cases hstep
          have hdue := hok i
          rw [hthread] at hdue
          exact ok_setThread hok rfl rfl (fun _ h => h) ⟨hdue, le_refl s.clock⟩
      · cases hstep
  | commitHeartbeat i =>
      simp only [State.step] at hstep
      split at hstep
      · next called now hthread =>
          cases hstep
          have hbeating := hok i
          rw [hthread] at hbeating
          have hrow := find?_heartbeat now me s.db.workers
          refine ok_setThread hok rfl rfl ?_ ⟨hbeating.1.trans hbeating.2, ⟨me, now⟩, hrow, ?_⟩
          · simp only [Confirmed, hthread] at hconfirmed
            rintro time ⟨w, hw, hle⟩
            exact ⟨⟨me, now⟩, hrow, hle.trans (hconfirmed w hw)⟩
          · have hle : called ≤ now := hbeating.1
            have hnonneg := timing.interval_nonneg
            show called - timing.interval ≤ now
            linarith
      · cases hstep
  | raise i =>
      cases hstep
      exact ok_setThread hok rfl rfl (fun _ h => h) trivial
  | skip i =>
      simp only [State.step] at hstep
      split at hstep
      · cases hstep
        exact ok_setThread hok rfl rfl (fun _ h => h) trivial
      · cases hstep
  | claim i queueName limit locked =>
      simp only [State.step] at hstep
      split at hstep
      · cases hstep
        exact ok_setThread hok rfl rfl (fun _ h => h) trivial
      · cases hstep
  | other a =>
      simp only [State.step] at hstep
      split_ifs at hstep with hown
      obtain ⟨db, hdb, rfl⟩ := Option.map_eq_some_iff.mp hstep
      intro j
      refine (hok j).mono le_rfl fun called hready time hbeat => ?_
      rcases find?_workers_exec hdb (Bool.eq_false_iff.mpr hown) with
        hsame | ⟨now, maxAge, w, rfl, hw, hold⟩
      · obtain ⟨w, hw, hle⟩ := hbeat
        exact ⟨w, hsame.trans hw, hle⟩
      · have hnot := hconfirmed ⟨w, hw, hold⟩ j
        rw [hready] at hnot
        cases hnot

/-! ## The law of every run -/

/-- A fresh heartbeat keeps the reaper away. -/
theorem isAlive_of_beatSince {called : Time} (hbeat : BeatSince me s (called - timing.interval))
    (hontime : s.clock - called < timing.ttl - timing.interval) :
    Queries.isAlive s.db.workers s.clock timing.ttl me = true := by
  obtain ⟨w, hw, hle⟩ := hbeat
  rw [Queries.isAlive, hw, Option.any_some, decide_eq_true_eq]
  linarith

/-- A claim that is covered and on time is safe from the reaper. -/
theorem reapSpares_of_onTime {a : Action n} (hbeat : HeartbeatFirst timing me s a)
    (hontime : OnTime timing s a) : ReapSpares timing me s a := by
  rintro i queueName limit locked t rfl hstep id hid
  simp only [State.step] at hstep
  split at hstep
  · next called hthread =>
      cases hstep
      have halive := isAlive_of_beatSince (hbeat i queueName limit locked called rfl hthread)
        (hontime i queueName limit locked called rfl hthread)
      rcases find?_claimUpdate me s.clock queueName limit locked s.db.queue id with
        ⟨-, r, -, -, hset⟩ | ⟨hnot, -⟩
      · show (Queries.reap s.db.workers s.clock timing.ttl _).find? id = _
        rw [Queries.reap, Queue.find?_updateWhere, hset, Option.map_some]
        have hspared : Queries.reapWhere s.db.workers s.clock timing.ttl
            (Queries.claimSet s.clock me r) = false := by
          simp [Queries.reapWhere, Queries.claimSet, halive]
        rw [hspared]
        rfl
      · exact absurd hid hnot
  · cases hstep

/-- **In a run whose announced heartbeats are confirmed, every claim is covered
by a committed heartbeat, and every claim that is on time is safe from the
reaper.**  The number of threads, the settings and the statements of all others
are arbitrary. -/
theorem heartbeatFirst_of_confirmed (n : ℕ) (timing : Timing) (me : Uuid) (clock : Time)
    (as : List (Action n))
    (hconfirmed : ∀ p ∈ (processSystem n timing me clock).taken as, Confirmed timing me p.1 p.2) :
    ∀ p ∈ (processSystem n timing me clock).taken as,
      HeartbeatFirst timing me p.1 p.2 ∧
        (OnTime timing p.1 p.2 → ReapSpares timing me p.1 p.2) := by
  intro p hp
  have hok : Ok timing me p.1 :=
    StepSystem.inv_of_mem_taken (I := Ok timing me) (ok_empty clock)
      (fun s a t hok hconf hstep => ok_step hok hconf hstep) hconfirmed hp
  have hbeat : HeartbeatFirst timing me p.1 p.2 := by
    intro i queueName limit locked called _ hthread
    have hcovered := hok i
    rw [hthread] at hcovered
    exact hcovered.2
  exact ⟨hbeat, reapSpares_of_onTime hbeat⟩

/-- The default settings: an interval of 15 seconds, and a time to live of
60. -/
def defaultTiming : Timing := ⟨15000000, 60000000, by decide⟩

/-- The first of two threads heartbeats; then the second finds its heartbeat and
claims a message. -/
def beatingRun : List (Action 2) :=
  [.call 0, .readClock 0, .check 0, .tick 5, .beginHeartbeat 0, .tick 3, .commitHeartbeat 0,
    .other (.enqueueQuiet 1005 "q" (Uuid.small 1) .null 0), .call 1, .readClock 1, .check 1,
    .claim 1 "q" 8 []]

theorem heartbeatFirst_beatingRun :
    (∀ p ∈ (processSystem 2 defaultTiming (Uuid.small 7) 1000).taken beatingRun,
      Confirmed defaultTiming (Uuid.small 7) p.1 p.2) ∧
    ∀ p ∈ (processSystem 2 defaultTiming (Uuid.small 7) 1000).taken beatingRun,
      HeartbeatFirst defaultTiming (Uuid.small 7) p.1 p.2 ∧
        (OnTime defaultTiming p.1 p.2 → ReapSpares defaultTiming (Uuid.small 7) p.1 p.2) := by
  have hconfirmed : ∀ p ∈ (processSystem 2 defaultTiming (Uuid.small 7) 1000).taken beatingRun,
      Confirmed defaultTiming (Uuid.small 7) p.1 p.2 := by decide +kernel
  exact ⟨hconfirmed, heartbeatFirst_of_confirmed _ _ _ _ _ hconfirmed⟩

/-- Two threads start together.  The first writes `_heartbeat_at`; before its
upsert runs, the second finds it fresh and claims a message. -/
def racingRun : List (Action 2) :=
  [.other (.enqueueQuiet 900 "q" (Uuid.small 1) .null 0), .call 0, .readClock 0, .check 0,
    .call 1, .readClock 1, .check 1, .claim 1 "q" 8 []]

/-- **The second thread's claim commits without any heartbeat of its
process.** -/
theorem not_heartbeatFirst_racingRun :
    (∃ s ∈ (processSystem 2 defaultTiming (Uuid.small 7) 1000).visited racingRun,
      (s.db.queue.find? (Uuid.small 1)).any (fun r => r.workerId = some (Uuid.small 7)) = true) ∧
    ¬ ∀ p ∈ (processSystem 2 defaultTiming (Uuid.small 7) 1000).taken racingRun,
      HeartbeatFirst defaultTiming (Uuid.small 7) p.1 p.2 := by
  refine ⟨by decide +kernel, fun hlaw => ?_⟩
  have hbare : ∃ p ∈ (processSystem 2 defaultTiming (Uuid.small 7) 1000).taken racingRun,
      (match p.2, p.1.threads 1 with
        | .claim 1 _ _ _, .ready called =>
            !decide (BeatSince (Uuid.small 7) p.1 (called - defaultTiming.interval))
        | _, _ => false) = true := by decide +kernel
  obtain ⟨⟨s, a⟩, hp, htest⟩ := hbare
  have hbeat := hlaw _ hp
  split at htest
  · next queueName limit locked called ha hthread =>
      have hcovered := hbeat 1 queueName limit locked called ha hthread
      simp only [hcovered, decide_true, Bool.not_true] at htest
      cases htest
  · cases htest

end Heartbeat

end DramatiqPostgres
