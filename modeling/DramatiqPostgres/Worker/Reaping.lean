import DramatiqPostgres.Admin.Retry
import DramatiqPostgres.Worker.Heartbeat
import DramatiqPostgres.Worker.Maintenance

/-!
# How soon the messages of a dead worker come back

A worker that dies keeps its consumed rows until a maintenance run puts them
back.  Each process starts one when `_maintenance_at` has passed, draws the next
time between half and one and a half `maintenance_interval`, and does nothing if
another process holds the advisory lock.  So how long a row can be left behind
depends on one process that stays alive and on every holder of the lock.

`Pace` bounds both, as for the heartbeats: some thread of the process comes
through its check at least every `gap`, and whoever takes part in a run of
maintenance is through within `delay`.  While a run of the system keeps the
pace, the last maintenance is at most `Pace.bound` old (`Steady.recent`),
whatever the tables were at first.

## What is promised of a row

`NoneForgotten` is what a maintenance so recent leaves of the consumed rows.  A
row can have been claimed since, by a transaction that began up to `delay`
earlier: so its claim is at most the bound **and one delay** old.  Or its owner
was not dead for that maintenance, and then has given a heartbeat at most
`heartbeat_ttl` before it.  No row is promised to be back within the bound
itself: `NOW()` is the beginning of a transaction, and a row is claimed when it
commits.

## What a punctual run assumes

* **No maintenance fails**, neither of the process nor of another one that has
  the lock.
* **Four delays are shorter than `maintenance_interval`**, so that the run of
  maintenance that a check obliges to is over before the next check can pass.
* **`delay` is shorter than `heartbeat_ttl`**, so that a heartbeat is not dead
  when it commits.

Nothing is assumed of the tables, nor of the draws but their range, nor of who
gets the lock.

## The argument

The argument follows what a check that passes obliges to.  Either its own
transaction gets the lock, or it finds a run under way that began at most
`delay` before; in both cases a run of maintenance as recent as the check ends
within `2 * delay`, and until then the one before is not too old.

The invariant has a part for the process (`OnPace`), one for the lock
(`LockOk`), one that says that the last check that passed is served or about to
be (`Served`), and one for the tables (`Owned`).  They are kept apart because
most steps touch one of them: a statement of another party leaves the first
three alone, and a thread's step the last.
-/

namespace DramatiqPostgres

namespace Reaping

open Pg Maintenance

/-! ## The process and the lock -/

/-- The settings of the deployment. -/
structure Timing where
  /-- `maintenance_interval`. -/
  interval : Time
  settings : Settings
  interval_nonneg : 0 ≤ interval

/-- The longest time a check can draw: one and a half `maintenance_interval`. -/
def Timing.longest (timing : Timing) : Time := 3 * timing.interval / 2

/-- Where a consumer thread is in `maybe_maintenance`; `called` is the time of
the `__next__` call, from which the pace counts. -/
inductive Thread where
  | idle
  | called (called : Time)
  /-- `now = time.monotonic()` is read. -/
  | read (called now : Time)
  /-- Past the check. -/
  | due (called : Time)
  /-- The transaction has begun, at `now`. -/
  | begun (called now : Time)
  /-- It has the lock. -/
  | locked (called now : Time)
  /-- Its statements have run. -/
  | ran (called : Time)

namespace Thread

/-- When a thread was called that is in `maybe_maintenance`. -/
def busySince : Thread → Option Time
  | idle => none
  | called time | read time _ | due time | begun time _ | locked time _ | ran time => some time

/-- Past the check, and not through with what follows: such a thread has an
obligation that the invariant follows. -/
def isPending : Thread → Bool
  | due _ | begun .. | locked .. | ran _ => true
  | _ => false

/-- Past the check, before its statements: the maintenance it was let through
for is still to come. -/
def isAwaited : Thread → Bool
  | due _ | begun .. | locked .. => true
  | _ => false

/-- Whether the thread's transaction has the lock. -/
def hasLock : Thread → Bool
  | locked .. | ran _ => true
  | _ => false

end Thread

/-- Who has the advisory lock: a thread of the process, or a transaction of
another one, which has no place of its own in the state. -/
inductive Holder (n : ℕ) where
  | own (i : Fin n)
  /-- A transaction of another process, begun at `now`, and whether its
  statements have run. -/
  | other (now : Time) (ran : Bool)

/-- The process, with its clock.  The two histories are when the last check was
made, and what the last one that went on had read. -/
structure Process (n : ℕ) where
  clock : Time
  /-- `_maintenance_at`, zero before the first check. -/
  maintenanceAt : Time
  threads : Fin n → Thread
  /-- History: when a thread last passed or left its check. -/
  checkedAt : Time
  /-- History: the time read by the last thread that went on from its check. -/
  passedAt : Time

/-- The process, the tables and the advisory lock. -/
structure State (n : ℕ) where
  process : Process n
  tables : Tables
  lock : Option (Holder n)
  /-- History: the `NOW()` of the latest maintenance whose statements have
  run. -/
  upkeptAt : Option Time

/-- One step of a thread, of the clock or of another party. -/
inductive Action (n : ℕ) where
  | tick (elapsed : ℕ)
  | call (i : Fin n)
  | readClock (i : Fin n)
  /-- The locked check, with the time to the next run that it draws. -/
  | check (i : Fin n) (drawn : Time)
  | begin (i : Fin n)
  | tryLock (i : Fin n)
  | statements (i : Fin n)
  | commit (i : Fin n)
  /-- An exception: the transaction is rolled back, and the thread's consumer
  replaced. -/
  | raise (i : Fin n)
  | otherLock (now : Time)
  | otherStatements
  | otherCommit
  | otherAbort
  | other (a : Statement)

/-- The statements that only maintenance runs; other parties run them under the
lock. -/
def isUpkeep : Statement → Bool
  | .reap .. | .cleanWorkers .. => true
  | _ => false

/-- `maintenance_interval * (0.5 + random.random())`. -/
def Timing.draws (timing : Timing) (drawn : Time) : Prop :=
  timing.interval ≤ 2 * drawn ∧ 2 * drawn ≤ 3 * timing.interval

instance (timing : Timing) (drawn : Time) : Decidable (timing.draws drawn) :=
  inferInstanceAs (Decidable (_ ∧ _))

namespace Process

variable {n : ℕ}

/-- Replace a thread. -/
def setThread (p : Process n) (i : Fin n) (thread : Thread) : Process n :=
  { p with threads := Function.update p.threads i thread }

/-- The test of the locked check. -/
def suppressed (p : Process n) (now : Time) : Bool := p.maintenanceAt ≠ 0 ∧ now < p.maintenanceAt

/-- A thread stops at its check, since the announced time has not come. -/
def stop (p : Process n) (i : Fin n) : Process n :=
  { p.setThread i .idle with checkedAt := p.clock }

/-- A thread goes on from its check, and announces the next time it has
drawn. -/
def pass (p : Process n) (i : Fin n) (called now drawn : Time) : Process n :=
  { p.setThread i (.due called) with
    maintenanceAt := now + drawn
    checkedAt := p.clock
    passedAt := now }

end Process

namespace State

variable {n : ℕ}

/-- The start of the process, with any tables. -/
def start (n : ℕ) (tables : Tables) (clock : Time) : State n :=
  ⟨⟨clock, 0, fun _ => .idle, clock, clock⟩, tables, none, none⟩

/-- Replace a thread. -/
def setThread (s : State n) (i : Fin n) (thread : Thread) : State n :=
  { s with process := s.process.setThread i thread }

/-- The statements of a maintenance transaction, all with the `NOW()` of its
beginning. -/
def upkeep (timing : Timing) (now : Time) (s : State n) : State n :=
  { s with
    tables := Maintenance.upkeep timing.settings now s.tables
    upkeptAt := some (s.upkeptAt.elim now (max now)) }

/-- Another statement, on the queue and the worker table. -/
def exec (s : State n) (a : Statement) : Option (State n) :=
  (Database.exec ⟨s.tables.queue, s.tables.workers⟩ a).map fun db =>
    { s with tables := { s.tables with queue := db.queue, workers := db.workers } }

/-- The state after a step. -/
def step (timing : Timing) (s : State n) : Action n → Option (State n)
  | .tick elapsed =>
      some { s with process := { s.process with clock := s.process.clock + elapsed } }
  | .call i =>
      match s.process.threads i with
      | .idle => some (s.setThread i (.called s.process.clock))
      | _ => none
  | .readClock i =>
      match s.process.threads i with
      | .called called => some (s.setThread i (.read called s.process.clock))
      | _ => none
  | .check i drawn =>
      match s.process.threads i with
      | .read called now =>
          if s.process.suppressed now then some { s with process := s.process.stop i }
          else if timing.draws drawn then
            some { s with process := s.process.pass i called now drawn }
          else none
      | _ => none
  | .begin i =>
      match s.process.threads i with
      | .due called => some (s.setThread i (.begun called s.process.clock))
      | _ => none
  | .tryLock i =>
      match s.process.threads i with
      | .begun called now =>
          match s.lock with
          | none => some { s.setThread i (.locked called now) with lock := some (.own i) }
          -- `if not locked: return`
          | some _ => some (s.setThread i .idle)
      | _ => none
  | .statements i =>
      match s.process.threads i with
      | .locked called now => some ((s.upkeep timing now).setThread i (.ran called))
      | _ => none
  | .commit i =>
      match s.process.threads i with
      | .ran _ => some { s.setThread i .idle with lock := none }
      | _ => none
  | .raise i =>
      match s.process.threads i with
      | .locked _ _ => some { s.setThread i .idle with lock := none }
      -- What its statements did would have to be undone: they are taken to run to the end.
      | .ran _ => none
      | _ => some (s.setThread i .idle)
  | .otherLock now =>
      match s.lock with
      | none =>
          if now ≤ s.process.clock then some { s with lock := some (.other now false) } else none
      | _ => none
  | .otherStatements =>
      match s.lock with
      | some (.other now false) => some { s.upkeep timing now with lock := some (.other now true) }
      | _ => none
  | .otherCommit =>
      match s.lock with
      | some (.other _ true) => some { s with lock := none }
      | _ => none
  | .otherAbort =>
      match s.lock with
      | some (.other _ false) => some { s with lock := none }
      | _ => none
  | .other a => if isUpkeep a then none else s.exec a

/-- When the transaction of another process began that has the lock. -/
def otherSince (s : State n) : Option Time :=
  match s.lock with
  | some (.other now _) => some now
  | _ => none

end State

/-- Every run of a process with `n` consumer threads, from any tables and any
time on. -/
def maintenanceSystem (n : ℕ) (timing : Timing) (tables : Tables) (clock : Time) :
    StepSystem (State n) (Action n) :=
  ⟨State.start n tables clock, State.step timing⟩

/-! ## The pace -/

/-- How the process keeps calling, and how fast maintenance is. -/
structure Pace (timing : Timing) where
  /-- Some thread comes through its check within this time. -/
  gap : Time
  /-- A thread is through with `maybe_maintenance`, and a transaction of another
  process with its maintenance or its statement, within this time. -/
  delay : Time
  gap_nonneg : 0 ≤ gap
  delay_nonneg : 0 ≤ delay
  delay_lt : 4 * delay < timing.interval
  delay_lt_ttl : delay < timing.settings.heartbeatTtl

/-- How old the latest maintenance can become: the longest draw and the gap to
the next check, and the delays on the way to its statements. -/
def Pace.bound {timing : Timing} (pace : Pace timing) : Time :=
  timing.longest + pace.gap + 4 * pace.delay

section Law

variable {n : ℕ} {timing : Timing}

/-- A statement of a transaction that began at most `delay` before the clock.
Without it a claim of long ago could commit now, and its row would look
forgotten at once. -/
def Prompt (pace : Pace timing) (clock : Time) : Statement → Prop
  | .claim now .. | .heartbeat now _ => clock - pace.delay ≤ now
  | _ => True

instance (pace : Pace timing) (clock : Time) : DecidablePred (Prompt pace clock)
  | .claim .. | .heartbeat .. => inferInstanceAs (Decidable (_ ≤ _))
  | .enqueue .. | .enqueueQuiet .. | .ack .. | .nack .. | .requeue .. | .reap .. | .recover ..
  | .purge .. | .flush | .deleteByPk .. | .discard .. | .cleanWorkers .. => isTrue trivial

/-- The step keeps the pace: no tick makes a thread, the holder of the lock or
the next check late, no maintenance is rolled back, and the statements of others
are of recent transactions. -/
def Punctual (pace : Pace timing) (s : State n) : Action n → Prop
  | .tick elapsed =>
      s.process.clock + elapsed - s.process.checkedAt ≤ pace.gap ∧
        (∀ i, ∀ called ∈ (s.process.threads i).busySince,
          s.process.clock + elapsed - called ≤ pace.delay) ∧
        ∀ now ∈ s.otherSince, s.process.clock + elapsed - now ≤ pace.delay
  -- No maintenance fails.
  | .raise i => (s.process.threads i).isPending = false
  | .otherLock now => s.process.clock - now ≤ pace.delay
  | .otherAbort => False
  | .other a => Prompt pace s.process.clock a
  | _ => True

instance (pace : Pace timing) (s : State n) : DecidablePred (Punctual pace s)
  | .tick _ => inferInstanceAs (Decidable (_ ∧ _ ∧ _))
  | .raise _ => inferInstanceAs (Decidable (_ = _))
  | .otherLock _ => inferInstanceAs (Decidable (_ ≤ _))
  | .otherAbort => isFalse id
  | .other a => inferInstanceAs (Decidable (Prompt pace s.process.clock a))
  | .call _ | .readClock _ | .check .. | .begin _ | .tryLock _ | .statements _ | .commit _
  | .otherStatements | .otherCommit => isTrue trivial

/-- **No message is left behind**: each consumed row was claimed at most the
bound and one delay ago, or its owner gave a heartbeat at most the bound and the
TTL ago. -/
def NoneForgotten (pace : Pace timing) (s : State n) : Prop :=
  ∀ r ∈ s.tables.queue.table, r.state = .consumed →
    (∃ time ∈ r.consumedAt, s.process.clock - (pace.bound + pace.delay) ≤ time) ∨
      ∃ w row, r.workerId = some w ∧ s.tables.workers.find? w = some row ∧
        s.process.clock - (pace.bound + timing.settings.heartbeatTtl) < row.heartbeatAt

end Law

/-! ## The process -/

/-- What is known of a thread at a time: it is not late, and where it is pending
it is the one that went on last. -/
def Timely (delay clock passedAt : Time) : Thread → Prop
  | .idle => True
  | .called called => 0 < called ∧ called ≤ clock ∧ clock - called ≤ delay
  | .read called now => 0 < called ∧ called ≤ now ∧ now ≤ clock ∧ clock - called ≤ delay
  | .due called | .ran called => called ≤ passedAt ∧ clock - called ≤ delay
  | .begun called now | .locked called now =>
      called ≤ passedAt ∧ passedAt ≤ now ∧ now ≤ clock ∧ clock - called ≤ delay

section OnPace

variable {n : ℕ} {timing : Timing} {pace : Pace timing} {p : Process n} {i : Fin n}

/-- What a punctual run keeps of the process, without the lock and the
tables. -/
structure OnPace (pace : Pace timing) (p : Process n) : Prop where
  clock : 0 < p.clock
  checked : p.checkedAt ≤ p.clock ∧ p.clock - p.checkedAt ≤ pace.gap
  passed : p.passedAt ≤ p.clock ∧ p.checkedAt ≤ p.passedAt + timing.longest + pace.delay
  drawn : p.maintenanceAt ≠ 0 →
    timing.interval ≤ 2 * (p.maintenanceAt - p.passedAt) ∧
      p.maintenanceAt ≤ p.passedAt + timing.longest
  threads : ∀ i, Timely pace.delay p.clock p.passedAt (p.threads i)
  /-- One thread at most is past its check. -/
  unique : ∀ i j, (p.threads i).isPending = true → (p.threads j).isPending = true → i = j
  started : ∀ i, (p.threads i).isPending = true → p.maintenanceAt ≠ 0

theorem isPending_of_isAwaited {thread : Thread} (h : thread.isAwaited = true) :
    thread.isPending = true := by
  cases thread <;> first | rfl | cases h

theorem isPending_of_hasLock {thread : Thread} (h : thread.hasLock = true) :
    thread.isPending = true := by
  cases thread <;> first | rfl | cases h

theorem Timing.longest_nonneg (timing : Timing) : 0 ≤ timing.longest :=
  Int.ediv_nonneg (mul_nonneg (by norm_num) timing.interval_nonneg) (by norm_num)

theorem le_of_timely {delay clock passedAt : Time} {thread : Thread}
    (h : Timely delay clock passedAt thread) (hpending : thread.isPending = true) :
    clock ≤ passedAt + delay := by
  cases thread with
  | due | ran => obtain ⟨hcalled, hlate⟩ := h; linarith
  | begun | locked => obtain ⟨hcalled, -, -, hlate⟩ := h; linarith
  | _ => cases hpending

/-- The clock ticks, and no thread gets late. -/
theorem timely_tick {clock clock' passedAt : Time} {thread : Thread} (hle : clock ≤ clock')
    (h : Timely pace.delay clock passedAt thread)
    (hbusy : ∀ called ∈ thread.busySince, clock' - called ≤ pace.delay) :
    Timely pace.delay clock' passedAt thread := by
  cases thread with
  | idle => trivial
  | called called => exact ⟨h.1, h.2.1.trans hle, hbusy called rfl⟩
  | read called now => exact ⟨h.1, h.2.1, h.2.2.1.trans hle, hbusy called rfl⟩
  | due called | ran called => exact ⟨h.1, hbusy called rfl⟩
  | begun called now | locked called now =>
      exact ⟨h.1, h.2.1, h.2.2.1.trans hle, hbusy called rfl⟩

theorem onPace_start {clock : Time} (hclock : 0 < clock) :
    OnPace pace (⟨clock, 0, fun _ => .idle, clock, clock⟩ : Process n) where
  clock := hclock
  checked := ⟨le_rfl, by simpa using pace.gap_nonneg⟩
  passed := by
    have hlongest := timing.longest_nonneg
    have hdelay := pace.delay_nonneg
    exact ⟨le_rfl, by show clock ≤ _; linarith⟩
  drawn := fun h => absurd rfl h
  threads := fun _ => trivial
  unique := fun _ _ h => by cases h
  started := fun _ h => by cases h

namespace OnPace

theorem tick {elapsed : ℕ} (h : OnPace pace p) (hgap : p.clock + elapsed - p.checkedAt ≤ pace.gap)
    (hbusy : ∀ i, ∀ called ∈ (p.threads i).busySince, p.clock + elapsed - called ≤ pace.delay) :
    OnPace pace { p with clock := p.clock + elapsed } := by
  have hle : p.clock ≤ p.clock + elapsed := by linarith
  exact ⟨h.clock.trans_le hle, ⟨h.checked.1.trans hle, hgap⟩, ⟨h.passed.1.trans hle, h.passed.2⟩,
    h.drawn, fun i => timely_tick hle (h.threads i) (hbusy i), h.unique, h.started⟩

/-- A step of one thread that is past its check only if it was so before. -/
theorem setThread {thread : Thread} (h : OnPace pace p)
    (hpending : thread.isPending = true → (p.threads i).isPending = true)
    (htimely : Timely pace.delay p.clock p.passedAt thread) :
    OnPace pace (p.setThread i thread) := by
  have hold : ∀ j, ((p.setThread i thread).threads j).isPending = true →
      (p.threads j).isPending = true := by
    intro j hj
    simp only [Process.setThread] at hj
    by_cases hji : j = i
    · rw [hji, Function.update_self] at hj
      exact hji ▸ hpending hj
    · rwa [Function.update_of_ne hji] at hj
  refine ⟨h.clock, h.checked, h.passed, h.drawn, fun j => ?_,
    fun j k hj hk => h.unique j k (hold j hj) (hold k hk), fun j hj => h.started j (hold j hj)⟩
  show Timely _ p.clock p.passedAt (Function.update p.threads i thread j)
  by_cases hji : j = i
  · rw [hji, Function.update_self]
    exact htimely
  · rw [Function.update_of_ne hji]
    exact h.threads j

/-- A thread stops at its check only before the time that was drawn. -/
theorem stop {called now : Time} (h : OnPace pace p) (hthread : p.threads i = .read called now)
    (hsuppressed : p.suppressed now = true) : OnPace pace (p.stop i) := by
  have hset : OnPace pace (p.setThread i .idle) := h.setThread (fun h => by cases h) trivial
  have hread := h.threads i
  rw [hthread] at hread
  obtain ⟨-, hcalled, -, hlate⟩ := hread
  simp only [Process.suppressed, decide_eq_true_eq] at hsuppressed
  have hdrawn := (h.drawn hsuppressed.1).2
  refine ⟨h.clock, ⟨le_rfl, by simpa [Process.stop, Process.setThread] using pace.gap_nonneg⟩,
    ⟨h.passed.1, ?_⟩, h.drawn, hset.threads, hset.unique, hset.started⟩
  show p.clock ≤ p.passedAt + timing.longest + pace.delay
  linarith [hsuppressed.2]

/-- A thread goes on from its check long after the last one that did: half an
interval is more than two delays. -/
theorem lt_of_not_suppressed {now : Time} (h : OnPace pace p) (hne : p.maintenanceAt ≠ 0)
    (hnot : ¬ p.suppressed now = true) : p.passedAt + 2 * pace.delay < now := by
  have hle : p.maintenanceAt ≤ now := by simpa [Process.suppressed, hne] using hnot
  have hdrawn := (h.drawn hne).1
  have hdelay := pace.delay_lt
  linarith

/-- No other thread is past its check then, since the one that was last let
through is through with everything. -/
theorem not_pending {called now : Time} (h : OnPace pace p)
    (hthread : p.threads i = .read called now) (hnot : ¬ p.suppressed now = true) (j : Fin n) :
    (p.threads j).isPending = false := by
  by_contra hpending
  rw [Bool.not_eq_false] at hpending
  have hread := h.threads i
  rw [hthread] at hread
  have hnow : now ≤ p.clock := hread.2.2.1
  have hlate := le_of_timely (h.threads j) hpending
  have hlong := h.lt_of_not_suppressed (h.started j hpending) hnot
  have hdelay := pace.delay_nonneg
  linarith

theorem pass {called now drawn : Time} (h : OnPace pace p)
    (hthread : p.threads i = .read called now) (hnot : ¬ p.suppressed now = true)
    (hdraws : timing.draws drawn) : OnPace pace (p.pass i called now drawn) := by
  have hnone := h.not_pending hthread hnot
  have hread := h.threads i
  rw [hthread] at hread
  obtain ⟨hpos, hcalled, hnow, hlate⟩ := hread
  have honly : ∀ j, ((p.pass i called now drawn).threads j).isPending = true → j = i := by
    intro j hj
    by_contra hji
    simp only [Process.pass, Process.setThread] at hj
    rw [Function.update_of_ne hji, hnone] at hj
    cases hj
  have hnonneg := timing.interval_nonneg
  have hdrawn : drawn ≤ timing.longest := by
    refine Int.le_ediv_of_mul_le (by norm_num) ?_
    linarith [hdraws.2]
  refine ⟨h.clock, ⟨le_rfl, by simpa [Process.pass, Process.setThread] using pace.gap_nonneg⟩,
    ⟨hnow, ?_⟩, fun _ => ⟨?_, ?_⟩, fun j => ?_, fun j k hj hk => ?_, fun j _ => ?_⟩
  · show p.clock ≤ now + timing.longest + pace.delay
    have hlongest := timing.longest_nonneg
    linarith
  · show timing.interval ≤ 2 * (now + drawn - now)
    linarith [hdraws.1]
  · show now + drawn ≤ now + timing.longest
    linarith
  · show Timely _ p.clock now (Function.update p.threads i (.due called) j)
    by_cases hji : j = i
    · rw [hji, Function.update_self]
      exact ⟨hcalled, hlate⟩
    · rw [Function.update_of_ne hji]
      have hj := h.threads j
      have hcalm := hnone j
      cases hthread' : p.threads j with
      | idle | called | read => rw [hthread'] at hj; exact hj
      | _ => rw [hthread'] at hcalm; cases hcalm
  · rw [honly j hj, honly k hk]
  · show now + drawn ≠ 0
    have hlow := hdraws.1
    linarith

end OnPace

end OnPace

/-! ## The lock -/

section Lock

variable {n : ℕ} {timing : Timing} {pace : Pace timing} {startedAt : Time} {s t : State n}
  {i : Fin n}

/-- The latest maintenance, or the start of the process where there was none. -/
def State.latest (startedAt : Time) (s : State n) : Time := s.upkeptAt.getD startedAt

/-- A run of maintenance whose statements are still to come, and which will do
for the last thread that went on: its own, or one of another process that began
not long before. -/
def Awaited (pace : Pace timing) (s : State n) : Prop :=
  (∃ i, (s.process.threads i).isAwaited = true) ∨
    ∃ now, s.lock = some (.other now false) ∧ now ≤ s.process.passedAt + pace.delay

/-- Who has the lock, and how old its transaction can be. -/
structure LockOk (pace : Pace timing) (startedAt : Time) (s : State n) : Prop where
  own : ∀ i, s.lock = some (.own i) ↔ (s.process.threads i).hasLock = true
  other : ∀ now ran, s.lock = some (.other now ran) →
    now ≤ s.process.clock ∧ s.process.clock - now ≤ pace.delay ∧
      (ran = true → now ≤ s.latest startedAt)

/-- The last thread that went on has had its maintenance, or is about to have
it.  This is what the bound is derived from. -/
def Served (pace : Pace timing) (startedAt : Time) (s : State n) : Prop :=
  s.process.passedAt ≤ s.latest startedAt + pace.delay ∨
    s.process.maintenanceAt ≠ 0 ∧
      s.process.passedAt ≤
        s.latest startedAt + timing.longest + pace.gap + 2 * pace.delay ∧ Awaited pace s

/-- A step of one thread that stays awaited if it was. -/
theorem Awaited.setThread {thread : Thread} (h : Awaited pace s)
    (hkeeps : (s.process.threads i).isAwaited = true → thread.isAwaited = true) :
    Awaited pace (s.setThread i thread) := by
  rcases h with ⟨j, hj⟩ | hother
  · left
    refine ⟨j, ?_⟩
    show (Function.update s.process.threads i thread j).isAwaited = true
    by_cases hji : j = i
    · rw [hji, Function.update_self]
      exact hkeeps (hji ▸ hj)
    · rwa [Function.update_of_ne hji]
  · exact Or.inr hother

/-- Nothing but what is awaited changes. -/
theorem Served.imp (h : Served pace startedAt s)
    (hpassed : t.process.passedAt = s.process.passedAt)
    (hmaintenance : t.process.maintenanceAt = s.process.maintenanceAt)
    (hlatest : t.latest startedAt = s.latest startedAt)
    (hawaited : Awaited pace s → Awaited pace t) : Served pace startedAt t := by
  unfold Served
  rw [hpassed, hmaintenance, hlatest]
  exact h.imp_right fun h => ⟨h.1, h.2.1, hawaited h.2.2⟩

/-- The lock stays with its holder. -/
theorem LockOk.setThread {thread : Thread} (h : LockOk pace startedAt s)
    (hsame : thread.hasLock = (s.process.threads i).hasLock) :
    LockOk pace startedAt (s.setThread i thread) := by
  refine ⟨fun j => (h.own j).trans ?_, h.other⟩
  show _ ↔ (Function.update s.process.threads i thread j).hasLock = true
  by_cases hji : j = i
  · rw [hji, Function.update_self, hsame]
  · rw [Function.update_of_ne hji]

/-- No thread has a lock that another transaction holds, or none. -/
theorem LockOk.hasLock_eq_false (h : LockOk pace startedAt s) (hlock : ∀ j, s.lock ≠ some (.own j))
    (j : Fin n) : (s.process.threads j).hasLock = false := by
  rw [← Bool.not_eq_true, ← h.own j]
  exact hlock j

end Lock

/-! ## The tables -/

section Tables

variable {timing : Timing} {pace : Pace timing} {tables : Tables} {clock since : Time}

/-- Every consumed row was claimed since the maintenance at `since`, or its
owner was alive then or has been since.  This is what a maintenance brings about
and every other statement keeps. -/
def Owned (pace : Pace timing) (since : Time) (tables : Tables) : Prop :=
  ∀ r ∈ tables.queue.table, r.state = .consumed →
    (∃ time ∈ r.consumedAt, since - pace.delay ≤ time) ∨
      ∃ w row, r.workerId = some w ∧ tables.workers.find? w = some row ∧
        since - timing.settings.heartbeatTtl < row.heartbeatAt

/-- Maintenance makes nothing consumed. -/
theorem find?_of_upkeep {settings : Settings} {now : Time} {id : Uuid} {r : Row}
    (hr : (Maintenance.upkeep settings now tables).queue.find? id = some r)
    (hconsumed : r.state = .consumed) : tables.queue.find? id = some r := by
  rw [find?_upkeep, Option.bind_eq_some_iff] at hr
  obtain ⟨r₀, hr₀, hrepair⟩ := hr
  unfold repair at hrepair
  split_ifs at hrepair
  · rw [← Option.some_inj.mp hrepair] at hconsumed
    cases hconsumed
  · exact hrepair ▸ hr₀

/-- **A run of maintenance leaves no row that is not owned**, also where it
began before the latest.  REAP takes exactly the consumed rows whose owner it
does not find alive. -/
theorem owned_upkeep {upkeptAt : Option Time} (hold : ∀ since ∈ upkeptAt, Owned pace since tables)
    (now : Time) :
    Owned pace (upkeptAt.elim now (max now)) (Maintenance.upkeep timing.settings now tables) := by
  intro r hr hconsumed
  have hfind := Table.find?_key hr
  obtain ⟨w, row, hw, hrow, hbeat⟩ := exists_owner_of_consumed hfind hconsumed
  have hkept := find?_cleanWorkers_of_alive hrow hbeat
  rw [← workers_upkeep timing.settings now tables] at hkept
  cases hupkept : upkeptAt with
  | none => exact Or.inr ⟨w, row, hw, hkept, hbeat⟩
  | some since =>
      rw [Option.elim_some]
      rcases le_total since now with hle | hle
      · rw [max_eq_left hle]
        exact Or.inr ⟨w, row, hw, hkept, hbeat⟩
      · rw [max_eq_right hle]
        have hmem := Table.mem_of_find? (find?_of_upkeep hfind hconsumed)
        rcases hold since hupkept r hmem hconsumed with hclaimed | ⟨w', row', hw', hrow', hbeat'⟩
        · exact Or.inl hclaimed
        · obtain rfl := Option.some_inj.mp (hw.symm.trans hw')
          obtain rfl := Option.some_inj.mp (hrow.symm.trans hrow')
          exact Or.inr ⟨w, row, hw, hkept, hbeat'⟩

variable {db : Database} {a : Statement}

/-- A row that is consumed after a statement was so before, or has just been
claimed by a transaction that is at most one delay old. -/
theorem consumed_exec (hexec : Database.exec ⟨tables.queue, tables.workers⟩ a = some db)
    (hprompt : Prompt pace clock a) {r : Row} (hr : r ∈ db.queue.table)
    (hconsumed : r.state = .consumed) :
    (∃ time ∈ r.consumedAt, clock - pace.delay ≤ time) ∨ r ∈ tables.queue.table := by
  have hfind := Table.find?_key hr
  by_cases hclaim : ∃ now queueName limit workerId locked,
      a = .claim now queueName limit workerId locked
  · obtain ⟨now, queueName, limit, workerId, locked, rfl⟩ := hclaim
    cases hexec
    rcases find?_claimUpdate workerId now queueName limit locked tables.queue r.messageId with
      ⟨-, r₀, -, -, hset⟩ | ⟨-, hsame⟩
    · obtain rfl := Option.some_inj.mp (hset.symm.trans hfind)
      exact Or.inl ⟨now, rfl, hprompt⟩
    · exact Or.inr (Table.mem_of_find? (hsame.symm.trans hfind))
  · have hframe := Admin.consumedFrame_exec hexec fun now queueName limit workerId locked h =>
      hclaim ⟨now, queueName, limit, workerId, locked, h⟩
    exact Or.inr (Table.mem_of_find? (hframe _ r hfind hconsumed))

/-- No statement but maintenance takes a worker's heartbeat back. -/
theorem worker_exec (hexec : Database.exec ⟨tables.queue, tables.workers⟩ a = some db)
    (hupkeep : isUpkeep a = false) (hprompt : Prompt pace clock a) {w : Uuid} {row : WorkerRow}
    (hrow : tables.workers.find? w = some row) :
    db.workers.find? w = some row ∨
      ∃ now, db.workers.find? w = some ⟨w, now⟩ ∧ clock - pace.delay ≤ now := by
  by_cases hown : Heartbeat.State.isOwn w a = true
  · cases a with
    | claim => cases hexec; exact Or.inl hrow
    | heartbeat now workerId =>
        cases hexec
        obtain rfl : workerId = w := by simpa [Heartbeat.State.isOwn] using hown
        exact Or.inr ⟨now, Heartbeat.find?_heartbeat now workerId tables.workers, hprompt⟩
    | _ => cases hown
  · rcases Heartbeat.find?_workers_exec hexec (Bool.eq_false_iff.mpr hown) with
      hsame | ⟨now, maxAge, -, rfl, -⟩
    · exact Or.inl (hsame.trans hrow)
    · cases hupkeep

/-- The other statements leave no row that is not owned either. -/
theorem Owned.exec (h : Owned pace since tables) (hsince : since ≤ clock)
    (hexec : Database.exec ⟨tables.queue, tables.workers⟩ a = some db)
    (hupkeep : isUpkeep a = false) (hprompt : Prompt pace clock a) :
    Owned pace since { tables with queue := db.queue, workers := db.workers } := by
  intro r hr hconsumed
  rcases consumed_exec hexec hprompt hr hconsumed with ⟨time, htime, hle⟩ | hr
  · exact Or.inl ⟨time, htime, by linarith⟩
  · rcases h r hr hconsumed with hclaimed | ⟨w, row, hw, hrow, hbeat⟩
    · exact Or.inl hclaimed
    · rcases worker_exec hexec hupkeep hprompt hrow with hrow | ⟨now, hrow, hnow⟩
      · exact Or.inr ⟨w, row, hw, hrow, hbeat⟩
      · refine Or.inr ⟨w, ⟨w, now⟩, hw, hrow, ?_⟩
        show since - timing.settings.heartbeatTtl < now
        linarith [pace.delay_lt_ttl]

end Tables

/-! ## The invariant -/

section Invariant

variable {n : ℕ} {timing : Timing} {pace : Pace timing} {startedAt : Time} {s t : State n}
  {i : Fin n}

/-- What a punctual run keeps: the process, the lock, the last obligation, and
the tables. -/
structure Steady (pace : Pace timing) (startedAt : Time) (s : State n) : Prop where
  onPace : OnPace pace s.process
  lockOk : LockOk pace startedAt s
  latest : s.latest startedAt ≤ s.process.clock
  served : Served pace startedAt s
  owned : ∀ since ∈ s.upkeptAt, Owned pace since s.tables

namespace Steady

/-- **The latest maintenance is recent while the invariant holds.**  By what the
last check that went on is served with, and by how long ago it can be. -/
theorem recent (h : Steady pace startedAt s) :
    s.process.clock - s.latest startedAt ≤ pace.bound := by
  have hgap := h.onPace.checked.2
  have hpassed := h.onPace.passed.2
  have hdelay := pace.delay_nonneg
  unfold Pace.bound
  rcases h.served with hserved | ⟨-, hold, ⟨i, hawaited⟩ | ⟨now, hlock, hnow⟩⟩
  · linarith
  · have hlate := le_of_timely (h.onPace.threads i) (isPending_of_isAwaited hawaited)
    linarith
  · have hlate := (h.lockOk.other now false hlock).2.1
    linarith

theorem start (tables : Tables) {clock : Time} (hclock : 0 < clock) :
    Steady pace clock (State.start n tables clock) where
  onPace := onPace_start hclock
  lockOk := ⟨fun _ => iff_of_false (by simp [State.start]) (by simp [State.start, Thread.hasLock]),
    fun _ _ h => by cases h⟩
  latest := le_refl clock
  served := Or.inl (by
    have hdelay := pace.delay_nonneg
    show clock ≤ clock + pace.delay
    linarith)
  owned := fun _ h => by cases h

/-- A step of one thread that has nothing to do with the lock. -/
theorem setThread {thread : Thread} (h : Steady pace startedAt s)
    (hpending : thread.isPending = true → (s.process.threads i).isPending = true)
    (hlock : thread.hasLock = (s.process.threads i).hasLock)
    (hawaited : (s.process.threads i).isAwaited = true → thread.isAwaited = true)
    (htimely : Timely pace.delay s.process.clock s.process.passedAt thread) :
    Steady pace startedAt (s.setThread i thread) where
  onPace := h.onPace.setThread hpending htimely
  lockOk := h.lockOk.setThread hlock
  latest := h.latest
  served := h.served.imp rfl rfl rfl fun hs => hs.setThread hawaited
  owned := h.owned

theorem tick {elapsed : ℕ} (h : Steady pace startedAt s)
    (hpunctual : Punctual pace s (.tick elapsed)) :
    Steady pace startedAt
      { s with process := { s.process with clock := s.process.clock + elapsed } } := by
  obtain ⟨hgap, hbusy, hother⟩ := hpunctual
  have hle : s.process.clock ≤ s.process.clock + elapsed := by linarith
  refine ⟨h.onPace.tick hgap hbusy, ⟨h.lockOk.own, fun now ran hlock => ?_⟩, h.latest.trans hle,
    h.served.imp rfl rfl rfl id, h.owned⟩
  obtain ⟨hnow, -, hran⟩ := h.lockOk.other now ran hlock
  refine ⟨hnow.trans hle, hother now ?_, hran⟩
  rw [State.otherSince, show s.lock = some (.other now ran) from hlock]
  rfl

theorem stop {called now : Time} (h : Steady pace startedAt s)
    (hthread : s.process.threads i = .read called now)
    (hsuppressed : s.process.suppressed now = true) :
    Steady pace startedAt { s with process := s.process.stop i } where
  onPace := h.onPace.stop hthread hsuppressed
  lockOk := by
    have hset : LockOk pace startedAt (s.setThread i .idle) :=
      h.lockOk.setThread (by rw [hthread]; rfl)
    exact ⟨hset.own, hset.other⟩
  latest := h.latest
  served := h.served.imp rfl rfl rfl fun hs => by
    have hset : Awaited pace (s.setThread i .idle) :=
      hs.setThread fun h => by rw [hthread] at h; cases h
    exact hset
  owned := h.owned

/-- A thread goes on from its check: the last one that did has been served, or
is not the reason why the latest maintenance would be old. -/
theorem pass {called now drawn : Time} (h : Steady pace startedAt s)
    (hthread : s.process.threads i = .read called now) (hnot : ¬ s.process.suppressed now = true)
    (hdraws : timing.draws drawn) :
    Steady pace startedAt { s with process := s.process.pass i called now drawn } where
  onPace := h.onPace.pass hthread hnot hdraws
  lockOk := by
    have hset : LockOk pace startedAt (s.setThread i (.due called)) :=
      h.lockOk.setThread (by rw [hthread]; rfl)
    exact ⟨hset.own, hset.other⟩
  latest := h.latest
  served := by
    have honPace := h.onPace.pass hthread hnot hdraws
    have hdue : (Function.update s.process.threads i (.due called) i) = .due called :=
      Function.update_self ..
    have hread := h.onPace.threads i
    rw [hthread] at hread
    have hnow : now ≤ s.process.clock := hread.2.2.1
    refine Or.inr ⟨honPace.started i ?_, ?_, Or.inl ⟨i, ?_⟩⟩
    · show (Function.update s.process.threads i (.due called) i).isPending = true
      rw [hdue]
      rfl
    · show now ≤ s.latest startedAt + timing.longest + pace.gap + 2 * pace.delay
      rcases h.served with hserved | ⟨hne, -, ⟨j, hawaited⟩ | ⟨time, hlock, htime⟩⟩
      · linarith [h.onPace.checked.2, h.onPace.passed.2]
      · have hcalm := h.onPace.not_pending hthread hnot j
        rw [isPending_of_isAwaited hawaited] at hcalm
        cases hcalm
      · -- a transaction of another process does not take that long
        have hlong := h.onPace.lt_of_not_suppressed hne hnot
        have hlate := (h.lockOk.other time false hlock).2.1
        linarith
    · show (Function.update s.process.threads i (.due called) i).isAwaited = true
      rw [hdue]
      rfl
  owned := h.owned

/-- A thread gets the lock. -/
theorem lock {called now : Time} (h : Steady pace startedAt s)
    (hthread : s.process.threads i = .begun called now) (hfree : s.lock = none) :
    Steady pace startedAt { s.setThread i (.locked called now) with lock := some (.own i) } where
  onPace := h.onPace.setThread (fun _ => by rw [hthread]; rfl) (by
    have hbegun := h.onPace.threads i
    rwa [hthread] at hbegun)
  lockOk := by
    have hnone := h.lockOk.hasLock_eq_false (fun j h => by rw [hfree] at h; cases h)
    refine ⟨fun j => ?_, fun _ _ h => by cases h⟩
    show some (Holder.own i) = some (.own j) ↔
      (Function.update s.process.threads i (.locked called now) j).hasLock = true
    by_cases hji : j = i
    · rw [hji, Function.update_self]
      exact iff_of_true rfl rfl
    · rw [Function.update_of_ne hji, hnone j]
      refine iff_of_false (fun h => hji ?_) (by decide)
      cases h
      rfl
  latest := h.latest
  served := h.served.imp rfl rfl rfl fun _ => Or.inl ⟨i, by
    show (Function.update s.process.threads i (.locked called now) i).isAwaited = true
    rw [Function.update_self]
    rfl⟩
  owned := h.owned

/-- A thread that does not get the lock leaves its work to the transaction that
has it, whose maintenance is about as recent as its own would have been. -/
theorem leave {called now : Time} {holder : Holder n} (h : Steady pace startedAt s)
    (hthread : s.process.threads i = .begun called now) (hheld : s.lock = some holder) :
    Steady pace startedAt (s.setThread i .idle) where
  onPace := h.onPace.setThread (fun h => by cases h) trivial
  lockOk := h.lockOk.setThread (by rw [hthread]; rfl)
  latest := h.latest
  served := by
    have hlate := le_of_timely (h.onPace.threads i) (by rw [hthread]; rfl)
    have hpassed := h.onPace.passed.1
    cases holder with
    | own j =>
        -- no other thread is past its check
        have hlock := (h.lockOk.own j).mp hheld
        have hij := h.onPace.unique i j (by rw [hthread]; rfl) (isPending_of_hasLock hlock)
        rw [← hij, hthread] at hlock
        cases hlock
    | other time ran =>
        obtain ⟨htime, hyoung, hran⟩ := h.lockOk.other time ran hheld
        cases ran with
        | true =>
            left
            show s.process.passedAt ≤ s.latest startedAt + pace.delay
            linarith [hran rfl]
        | false =>
            exact h.served.imp rfl rfl rfl fun _ => Or.inr ⟨time, hheld, htime.trans hlate⟩
  owned := h.owned

/-- The statements of a maintenance transaction that is not late. -/
theorem upkeep_latest (h : Steady pace startedAt s) {now : Time} (hnow : now ≤ s.process.clock) :
    now ≤ (s.upkeep timing now).latest startedAt ∧
      (s.upkeep timing now).latest startedAt ≤ s.process.clock := by
  have hlatest := h.latest
  simp only [State.latest, State.upkeep, Option.getD_some] at hlatest ⊢
  cases hupkept : s.upkeptAt with
  | none => exact ⟨le_rfl, hnow⟩
  | some since =>
      rw [hupkept, Option.getD_some] at hlatest
      exact ⟨le_max_left now since, max_le hnow hlatest⟩

theorem statements {called now : Time} (h : Steady pace startedAt s)
    (hthread : s.process.threads i = .locked called now) :
    Steady pace startedAt ((s.upkeep timing now).setThread i (.ran called)) := by
  have hlocked := h.onPace.threads i
  rw [hthread] at hlocked
  obtain ⟨hcalled, hpassed, hnow, hlate⟩ := hlocked
  obtain ⟨hle, hlatest⟩ := h.upkeep_latest hnow
  have hown : s.lock = some (.own i) := (h.lockOk.own i).mpr (by rw [hthread]; rfl)
  have hset : LockOk pace startedAt (s.setThread i (.ran called)) :=
    h.lockOk.setThread (by rw [hthread]; rfl)
  refine ⟨h.onPace.setThread (fun _ => by rw [hthread]; rfl) ⟨hcalled, hlate⟩,
    ⟨hset.own, fun time ran hlock => ?_⟩, hlatest, Or.inl ?_, fun since hsince => ?_⟩
  · have hother : s.lock = some (.other time ran) := hlock
    rw [hown] at hother
    cases hother
  · show s.process.passedAt ≤ (s.upkeep timing now).latest startedAt + pace.delay
    linarith [pace.delay_nonneg]
  · cases hsince
    exact owned_upkeep h.owned now

theorem commit {called : Time} (h : Steady pace startedAt s)
    (hthread : s.process.threads i = .ran called) :
    Steady pace startedAt { s.setThread i .idle with lock := none } where
  onPace := h.onPace.setThread (fun h => by cases h) trivial
  lockOk := by
    refine ⟨fun j => ?_, fun _ _ h => by cases h⟩
    show none = some (Holder.own j) ↔ (Function.update s.process.threads i .idle j).hasLock = true
    refine iff_of_false (fun h => by cases h) fun hlock => ?_
    by_cases hji : j = i
    · rw [hji, Function.update_self] at hlock
      cases hlock
    · rw [Function.update_of_ne hji] at hlock
      exact hji (h.onPace.unique j i (isPending_of_hasLock hlock) (by rw [hthread]; rfl))
  latest := h.latest
  served := h.served.imp rfl rfl rfl fun hs => by
    have hown : s.lock = some (.own i) := (h.lockOk.own i).mpr (by rw [hthread]; rfl)
    have hset : Awaited pace (s.setThread i .idle) :=
      hs.setThread fun h => by rw [hthread] at h; cases h
    rcases hset with hthread' | ⟨now, hlock, -⟩
    · exact Or.inl hthread'
    · have hother : s.lock = some (.other now false) := hlock
      rw [hown] at hother
      cases hother
  owned := h.owned

theorem otherLock {now : Time} (h : Steady pace startedAt s) (hfree : s.lock = none)
    (hnow : now ≤ s.process.clock) (hyoung : s.process.clock - now ≤ pace.delay) :
    Steady pace startedAt { s with lock := some (.other now false) } where
  onPace := h.onPace
  lockOk := by
    have hnone := h.lockOk.hasLock_eq_false (fun j h => by rw [hfree] at h; cases h)
    refine ⟨fun j => iff_of_false (fun h => by cases h) ?_, fun time ran hlock => ?_⟩
    · show ¬ (s.process.threads j).hasLock = true
      rw [hnone j]
      exact Bool.false_ne_true
    · cases hlock
      exact ⟨hnow, hyoung, fun h => by cases h⟩
  latest := h.latest
  served := h.served.imp rfl rfl rfl fun hs => by
    rcases hs with hthread | ⟨time, hlock, -⟩
    · exact Or.inl hthread
    · rw [hfree] at hlock
      cases hlock
  owned := h.owned

theorem otherStatements {now : Time} (h : Steady pace startedAt s)
    (hlock : s.lock = some (.other now false)) :
    Steady pace startedAt { s.upkeep timing now with lock := some (.other now true) } := by
  obtain ⟨hnow, hyoung, -⟩ := h.lockOk.other now false hlock
  obtain ⟨hle, hlatest⟩ := h.upkeep_latest hnow
  have hnone := h.lockOk.hasLock_eq_false (fun j h => by rw [hlock] at h; cases h)
  refine ⟨h.onPace, ⟨fun j => iff_of_false (fun h => by cases h) ?_, fun time ran hlock => ?_⟩,
    hlatest, Or.inl ?_, fun since hsince => ?_⟩
  · show ¬ (s.process.threads j).hasLock = true
    rw [hnone j]
    exact Bool.false_ne_true
  · cases hlock
    exact ⟨hnow, hyoung, fun _ => hle⟩
  · show s.process.passedAt ≤ (s.upkeep timing now).latest startedAt + pace.delay
    linarith [h.onPace.passed.1]
  · cases hsince
    exact owned_upkeep h.owned now

theorem otherCommit {now : Time} (h : Steady pace startedAt s)
    (hlock : s.lock = some (.other now true)) :
    Steady pace startedAt { s with lock := none } where
  onPace := h.onPace
  lockOk := by
    have hnone := h.lockOk.hasLock_eq_false (fun j h => by rw [hlock] at h; cases h)
    refine ⟨fun j => iff_of_false (fun h => by cases h) ?_, fun _ _ h => by cases h⟩
    show ¬ (s.process.threads j).hasLock = true
    rw [hnone j]
    exact Bool.false_ne_true
  latest := h.latest
  served := h.served.imp rfl rfl rfl fun hs => by
    rcases hs with hthread | ⟨time, hother, -⟩
    · exact Or.inl hthread
    · rw [hlock] at hother
      cases hother
  owned := h.owned

/-- **Step lemma.**  A step that keeps the pace keeps the invariant. -/
theorem step {a : Action n} (h : Steady pace startedAt s) (hpunctual : Punctual pace s a)
    (hstep : s.step timing a = some t) : Steady pace startedAt t := by
  cases a with
  | tick elapsed =>
      cases hstep
      exact h.tick hpunctual
  | call i =>
      simp only [State.step] at hstep
      split at hstep
      · next hthread =>
          cases hstep
          refine h.setThread (fun h => by cases h) (by rw [hthread]; rfl)
            (fun h => by rw [hthread] at h; cases h) ⟨h.onPace.clock, le_rfl, ?_⟩
          simpa using pace.delay_nonneg
      · cases hstep
  | readClock i =>
      simp only [State.step] at hstep
      split at hstep
      · next called hthread =>
          cases hstep
          have hcalled := h.onPace.threads i
          rw [hthread] at hcalled
          exact h.setThread (fun h => by cases h) (by rw [hthread]; rfl)
            (fun h => by rw [hthread] at h; cases h) ⟨hcalled.1, hcalled.2.1, le_rfl, hcalled.2.2⟩
      · cases hstep
  | check i drawn =>
      simp only [State.step] at hstep
      split at hstep
      · next called now hthread =>
          split_ifs at hstep with hsuppressed hdraws
          · cases hstep
            exact h.stop hthread hsuppressed
          · cases hstep
            exact h.pass hthread hsuppressed hdraws
      · cases hstep
  | begin i =>
      simp only [State.step] at hstep
      split at hstep
      · next called hthread =>
          cases hstep
          have hdue := h.onPace.threads i
          rw [hthread] at hdue
          exact h.setThread (fun _ => by rw [hthread]; rfl) (by rw [hthread]; rfl) (fun _ => rfl)
            ⟨hdue.1, h.onPace.passed.1, le_rfl, hdue.2⟩
      · cases hstep
  | tryLock i =>
      simp only [State.step] at hstep
      split at hstep
      · next called now hthread =>
          split at hstep
          · next hfree =>
              cases hstep
              exact h.lock hthread hfree
          · next holder hheld =>
              cases hstep
              exact h.leave hthread hheld
      · cases hstep
  | statements i =>
      simp only [State.step] at hstep
      split at hstep
      · next called now hthread =>
          cases hstep
          exact h.statements hthread
      · cases hstep
  | commit i =>
      simp only [State.step] at hstep
      split at hstep
      · next called hthread =>
          cases hstep
          exact h.commit hthread
      · cases hstep
  | raise i =>
      have hcalm : (s.process.threads i).isPending = false := hpunctual
      simp only [State.step] at hstep
      split at hstep
      · next hthread => rw [hthread] at hcalm; cases hcalm
      · cases hstep
      · cases hstep
        refine h.setThread (fun h => by cases h) ?_ (fun h => ?_) trivial
        · cases hthread : s.process.threads i <;>
            first | rfl | (rw [hthread] at hcalm; cases hcalm)
        · rw [isPending_of_isAwaited h] at hcalm
          cases hcalm
  | otherLock now =>
      simp only [State.step] at hstep
      split at hstep
      · next hfree =>
          split_ifs at hstep with hnow
          cases hstep
          exact h.otherLock hfree hnow hpunctual
      · cases hstep
  | otherStatements =>
      simp only [State.step] at hstep
      split at hstep
      · next now hlock =>
          cases hstep
          exact h.otherStatements hlock
      · cases hstep
  | otherCommit =>
      simp only [State.step] at hstep
      split at hstep
      · next hlock =>
          cases hstep
          exact h.otherCommit hlock
      · cases hstep
  | otherAbort => exact hpunctual.elim
  | other a =>
      simp only [State.step] at hstep
      split_ifs at hstep with hupkeep
      obtain ⟨db, hdb, rfl⟩ := Option.map_eq_some_iff.mp hstep
      refine ⟨h.onPace, ⟨h.lockOk.own, h.lockOk.other⟩, h.latest, h.served.imp rfl rfl rfl id,
        fun since hsince => ?_⟩
      have hle : since ≤ s.process.clock := by
        have hlatest := h.latest
        rwa [State.latest, show s.upkeptAt = some since from hsince, Option.getD_some] at hlatest
      exact (h.owned since hsince).exec hle hdb (Bool.eq_false_iff.mpr hupkeep) hpunctual

end Steady

end Invariant

/-! ## The law of every run -/

/-- **Messages of dead workers come back in time.**  In a run that keeps its
pace, from the bound on after the start, each consumed row was claimed within
the bound and one delay, or its owner has given a heartbeat within the bound and
the TTL. -/
theorem noneForgotten_of_punctual (n : ℕ) {timing : Timing} (pace : Pace timing) (tables : Tables)
    {clock : Time} (hclock : 0 < clock) (as : List (Action n))
    (hpunctual : ∀ p ∈ (maintenanceSystem n timing tables clock).taken as, Punctual pace p.1 p.2) :
    ∀ s ∈ (maintenanceSystem n timing tables clock).visited as,
      clock + pace.bound < s.process.clock → NoneForgotten pace s := by
  intro s hs hlater r hr hconsumed
  have hsteady : Steady pace clock s :=
    StepSystem.inv_of_mem_visitedFrom (C := Punctual pace)
      (fun s a t hs hpunctual hstep => hs.step hpunctual hstep) (Steady.start tables hclock)
      hpunctual s hs
  have hrecent := hsteady.recent
  cases hupkept : s.upkeptAt with
  | none =>
      rw [State.latest, hupkept, Option.getD_none] at hrecent
      linarith
  | some since =>
      rw [State.latest, hupkept, Option.getD_some] at hrecent
      rcases hsteady.owned since hupkept r hr hconsumed with ⟨time, htime, hle⟩ |
        ⟨w, row, hw, hrow, hbeat⟩
      · exact Or.inl ⟨time, htime, by linarith⟩
      · exact Or.inr ⟨w, row, hw, hrow, by linarith⟩

/-- The defaults: maintenance every 30 seconds, a time to live of 60, and 30
days. -/
def defaultTiming : Timing :=
  ⟨30000000, ⟨60000000, some 2592000000000, by decide⟩, by decide⟩

/-- A check every twelve seconds, and four seconds for a run: with the default
settings the latest maintenance is never older than 73 seconds. -/
def briskPace : Pace defaultTiming :=
  ⟨12000000, 4000000, by decide, by decide, by decide, by decide⟩

/-- A message of a worker whose last heartbeat was 20 seconds before the
start. -/
def deadWorker : Tables where
  queue := ⟨⟨[⟨Uuid.small 1, "q", .consumed, 0, .null, 1, 0, some (Uuid.small 7), some 0⟩],
    List.nodup_singleton _⟩, 2⟩
  workers := Queries.heartbeat (-20000000) (Uuid.small 7) Table.empty
  results := Table.empty

/-- Ten seconds, and a check that stops. -/
def stopping : List (Action 4) := [.tick 10000000, .call 1, .readClock 1, .check 1 0]

/-- A maintenance that comes too early, four checks that stop, and one that goes
on while another process has the lock. -/
def sharedRun : List (Action 4) :=
  [.call 0, .readClock 0, .check 0 45000000, .begin 0, .tryLock 0, .statements 0, .commit 0] ++
    stopping ++ stopping ++ stopping ++ stopping ++
    [.tick 10000000, .otherLock 50000000, .call 0, .readClock 0, .check 0 45000000, .begin 0,
      .tryLock 0, .otherStatements, .otherCommit] ++
    stopping ++ stopping ++ stopping

theorem noneForgotten_sharedRun :
    (∃ s ∈ (maintenanceSystem 4 defaultTiming deadWorker 1).visited sharedRun,
      1 + briskPace.bound < s.process.clock ∧
        (s.tables.queue.find? (Uuid.small 1)).any (fun r => r.state = .queued) = true) ∧
    ∀ s ∈ (maintenanceSystem 4 defaultTiming deadWorker 1).visited sharedRun,
      1 + briskPace.bound < s.process.clock → NoneForgotten briskPace s := by
  have hpunctual : ∀ p ∈ (maintenanceSystem 4 defaultTiming deadWorker 1).taken sharedRun,
      Punctual briskPace p.1 p.2 := by decide +kernel
  exact ⟨by decide +kernel,
    noneForgotten_of_punctual 4 briskPace deadWorker (by decide) sharedRun hpunctual⟩

end Reaping

end DramatiqPostgres
