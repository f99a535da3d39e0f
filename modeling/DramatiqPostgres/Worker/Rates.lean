import DramatiqPostgres.Lib.Gate
import DramatiqPostgres.Worker.Reaping

/-!
# How often a process heartbeats and runs maintenance

`maybe_heartbeat` and `maybe_maintenance` are gates: the threads share the time
at which the next one is due, read the clock before they take the lock, and act
after they have given it back.  So two heartbeats can reach the server right
after each other, from a thread that passed long ago and one that has just
passed, and a thread that reads the clock early can find a time announced that
is later than its own.

In the long run neither matters.  A process that has run for `elapsed` has begun
at most one heartbeat for every `heartbeat_interval` in it, and one more
(`heartbeats_rateLimited`), and at most one maintenance for every half
`maintenance_interval`, and one more (`maintenance_rateLimited`), however many
threads it has and whatever the draws.

### Both are one law

The two methods differ in what they set the gate to, the one to a whole interval
after the reading and the other to a time it draws, and in what the thread does
when it is through.  `Gate.system` leaves both open, so each of them is shown to
map to it: `gateView` sees a thread's place in `__next__` as its phase at the
gate, and `gateLabel` says which of its steps is the pass and which the act.
The rest of the state, tables and all, is not seen.

The first check of a process finds no time announced, and passes.  That is the
"one more".
-/

namespace DramatiqPostgres

open Pg

/-! ## Heartbeats -/

namespace Heartbeat

variable {n : ℕ} {timing : Timing} {me : Uuid} {s t : State n}

/-- A thread at the gate: away while it has nothing to do with the heartbeat,
due from its announcement to the beginning of its transaction. -/
def Thread.phase : Thread → Gate.Phase
  | read _ now => .read now
  | due _ => .due
  | idle | called _ | beating .. | ready _ => .away

/-- The time that a check announces, which is the time the thread has read and
not the time of the check. -/
def announced? (timing : Timing) (s : State n) : Action n → Option Time
  | .check i =>
      match s.threads i with
      | .read _ now => if s.suppressed timing now then none else some now
      | _ => none
  | _ => none

/-- Whether the step begins the transaction of a heartbeat. -/
def Action.isBegin : Action n → Bool
  | .beginHeartbeat _ => true
  | _ => false

/-- The gate of the heartbeats: it opens an interval after the last
announcement.  The clock is the process's, and the tables are not seen. -/
def gateView (timing : Timing) (s : State n) : Gate.State (Fin n) where
  clock := s.clock
  opensAt := if s.heartbeatAt = 0 then none else some (s.heartbeatAt + timing.interval)
  phase := fun i => (s.threads i).phase

/-- What a step is at the gate.  The passes are the checks that announce, the
acts the transactions that begin, and a thread that raises goes away.  What a
step does to the tables is nothing there. -/
def gateLabel (timing : Timing) (s : State n) : Action n → Option (Gate.Action (Fin n))
  | .tick elapsed => some (.tick elapsed)
  | .readClock i => some (.read i)
  | .check i =>
      match s.threads i with
      | .read _ now =>
          if s.suppressed timing now then some (.leave i) else some (.pass i timing.interval)
      | _ => none
  | .beginHeartbeat i => some (.act i)
  | .raise i => some (.leave i)
  | .call _ | .commitHeartbeat _ | .skip _ | .claim .. | .other _ => none

theorem gateView_setThread (i : Fin n) (thread : Thread) :
    gateView timing (s.setThread i thread) = (gateView timing s).set i thread.phase :=
  (Gate.set_eq_update Thread.phase _ _ s.threads i thread).symm

/-- A thread that stays away from the gate. -/
theorem gateView_setThread_of_away {i : Fin n} {thread : Thread}
    (hbefore : (s.threads i).phase = .away) (hafter : thread.phase = .away) :
    gateView timing (s.setThread i thread) = gateView timing s := by
  rw [gateView_setThread, hafter]
  exact Gate.set_of_phase hbefore

/-- A check that goes on passes the gate: what it tests is that the gate is open
at the time it has read, and it closes it for an interval from then. -/
theorem gateView_pass {clock : Time} (hclock : 0 < clock) {i : Fin n} {called now : Time}
    (hreads : Gate.ReadsOk clock (gateView timing s)) (hthread : s.threads i = .read called now)
    (hpass : ¬ s.suppressed timing now = true) :
    (gateView timing s).step timing.interval (.pass i timing.interval)
      = some (gateView timing { s.setThread i (.due called) with heartbeatAt := now }) := by
  have hphase : (gateView timing s).phase i = .read now := congrArg Thread.phase hthread
  have hnow : clock ≤ now := (hreads.2 i now hphase).1
  have hopen : ∀ time ∈ (gateView timing s).opensAt, time ≤ now := by
    intro time htime
    simp only [gateView] at htime
    split_ifs at htime with hfirst
    · cases htime
    · cases htime
      simp only [State.suppressed, decide_eq_true_eq, not_and, not_lt] at hpass
      have hdue := hpass hfirst
      linarith
  have hset : gateView timing (s.setThread i (.due called)) = (gateView timing s).set i .due :=
    gateView_setThread i _
  refine (Gate.step_pass hphase le_rfl hopen).trans (congrArg some ?_)
  rw [← hset]
  show Gate.State.mk s.clock (some (now + timing.interval)) _
    = Gate.State.mk s.clock (if now = 0 then none else some (now + timing.interval)) _
  rw [if_neg (hclock.trans_le hnow).ne']
  rfl

/-- **Step lemma.**  The steps of the process are steps at the gate, by cases on
the thread's place. -/
theorem gateView_step {clock : Time} (hclock : 0 < clock) {a : Action n}
    (hreads : Gate.ReadsOk clock (gateView timing s)) (hstep : s.step timing me a = some t) :
    (Gate.system (Fin n) timing.interval clock).stepOrStay (gateView timing s)
      (gateLabel timing s a) = some (gateView timing t) := by
  cases a with
  | tick elapsed =>
      cases hstep
      rfl
  | call i =>
      simp only [State.step] at hstep
      split at hstep
      · next hthread =>
          cases hstep
          exact congrArg some (gateView_setThread_of_away (by rw [hthread]; rfl) rfl).symm
      · cases hstep
  | readClock i =>
      simp only [State.step] at hstep
      split at hstep
      · next called hthread =>
          cases hstep
          rw [gateView_setThread]
          show (gateView timing s).step timing.interval (.read i) = _
          exact Gate.step_read (congrArg Thread.phase hthread)
      · cases hstep
  | check i =>
      simp only [State.step] at hstep
      split at hstep
      · next called now hthread =>
          simp only [gateLabel, hthread]
          split_ifs at hstep ⊢ with hsuppressed
          · cases hstep
            show some ((gateView timing s).set i .away) = _
            exact congrArg some (gateView_setThread i (.ready called)).symm
          · cases hstep
            exact gateView_pass hclock hreads hthread hsuppressed
      · cases hstep
  | beginHeartbeat i =>
      simp only [State.step] at hstep
      split at hstep
      · next called hthread =>
          cases hstep
          rw [gateView_setThread]
          show (gateView timing s).step timing.interval (.act i) = _
          exact Gate.step_act (congrArg Thread.phase hthread)
      · cases hstep
  | commitHeartbeat i =>
      simp only [State.step] at hstep
      split at hstep
      · next called now hthread =>
          cases hstep
          exact congrArg some (gateView_setThread_of_away (by rw [hthread]; rfl) rfl).symm
      · cases hstep
  | raise i =>
      cases hstep
      show some _ = some _
      rw [gateView_setThread]
      rfl
  | skip i =>
      simp only [State.step] at hstep
      split at hstep
      · next called hthread =>
          cases hstep
          exact congrArg some (gateView_setThread_of_away (by rw [hthread]; rfl) rfl).symm
      · cases hstep
  | claim i queueName limit locked =>
      simp only [State.step] at hstep
      split at hstep
      · next called hthread =>
          cases hstep
          exact congrArg some (gateView_setThread_of_away (by rw [hthread]; rfl) rfl).symm
      · cases hstep
  | other a =>
      simp only [State.step] at hstep
      split_ifs at hstep
      obtain ⟨db, -, rfl⟩ := Option.map_eq_some_iff.mp hstep
      rfl

/-- **A process heartbeats at most every `heartbeat_interval`**, and once more:
in every interleaving of its threads, and counted where the transactions begin.
Whether they commit does not matter, so failing ones are counted too. -/
theorem heartbeats_rateLimited (n : ℕ) (timing : Timing) (me : Uuid) {clock : Time}
    (hclock : 0 < clock) (as : List (Action n)) :
    Gate.RateLimited timing.interval (((processSystem n timing me clock).last as).clock - clock)
      (((processSystem n timing me clock).taken as).filterMap fun p => announced? timing p.1 p.2)
      (((processSystem n timing me clock).taken as).countP fun p => p.2.isBegin) := by
  have hmaps : (processSystem n timing me clock).Maps (Gate.system (Fin n) timing.interval clock)
      (gateView timing) (gateLabel timing) :=
    Gate.maps_of_step rfl fun s a t hreads hstep => gateView_step hclock hreads hstep
  refine Gate.rateLimited_of_maps hmaps timing.interval_nonneg (fun s a => ?_) (fun s a => ?_) as
  · cases a with
    | check i =>
        simp only [gateLabel, announced?]
        split
        · next called now hthread =>
            have hphase : (gateView timing s).phase i = .read now := congrArg Thread.phase hthread
            split_ifs
            · rfl
            · simp only [Option.bind_some, Gate.passedAt, hphase]
        · rfl
    | _ => rfl
  · cases a with
    | check i =>
        simp only [gateLabel]
        split
        · split_ifs <;> rfl
        · rfl
    | _ => rfl

/-- Two of five threads pass an interval apart, and heartbeat in the opposite
order. -/
def overtakingRun : List (Action 5) :=
  [.call 0, .readClock 0, .check 0, .tick 15000000, .call 1, .readClock 1, .check 1,
    .beginHeartbeat 1, .beginHeartbeat 0, .commitHeartbeat 0, .commitHeartbeat 1]

theorem heartbeats_rateLimited_overtakingRun :
    ((processSystem 5 defaultTiming (Uuid.small 7) 1000).taken overtakingRun).countP
        (fun p => p.2.isBegin) = 2 ∧
      Gate.RateLimited defaultTiming.interval
        (((processSystem 5 defaultTiming (Uuid.small 7) 1000).last overtakingRun).clock - 1000)
        (((processSystem 5 defaultTiming (Uuid.small 7) 1000).taken overtakingRun).filterMap
          fun p => announced? defaultTiming p.1 p.2)
        (((processSystem 5 defaultTiming (Uuid.small 7) 1000).taken overtakingRun).countP
          fun p => p.2.isBegin) :=
  ⟨by decide +kernel, heartbeats_rateLimited 5 defaultTiming (Uuid.small 7) (by decide) _⟩

end Heartbeat

/-! ## Maintenance -/

namespace Reaping

open Maintenance

variable {n : ℕ} {timing : Timing} {s t : State n}

/-- The shortest time a check can draw: half of `maintenance_interval`, which is
all that the gate is promised. -/
def Timing.shortest (timing : Timing) : Time := timing.interval / 2

/-- A thread at the gate of the maintenance: due from its check to the beginning
of its transaction, in which it asks for the lock. -/
def Thread.phase : Thread → Gate.Phase
  | read _ now => .read now
  | due _ => .due
  | idle | called _ | begun .. | locked .. | ran _ => .away

/-- The time that a thread has read whose check goes on. -/
def passed? (s : State n) : Action n → Option Time
  | .check i _ =>
      match s.process.threads i with
      | .read _ now => if s.process.suppressed now then none else some now
      | _ => none
  | _ => none

/-- Whether the step begins the transaction of a maintenance. -/
def Action.isBegin : Action n → Bool
  | .begin _ => true
  | _ => false

/-- The gate of the maintenance, which opens at `_maintenance_at`.  It stands at
zero before the first check, and is open then. -/
def gateView (p : Process n) : Gate.State (Fin n) where
  clock := p.clock
  opensAt := if p.maintenanceAt = 0 then none else some p.maintenanceAt
  phase := fun i => (p.threads i).phase

/-- What a step is at the gate.  A pass closes it for what was drawn, which is
the pause of the action. -/
def gateLabel (s : State n) : Action n → Option (Gate.Action (Fin n))
  | .tick elapsed => some (.tick elapsed)
  | .readClock i => some (.read i)
  | .check i drawn =>
      match s.process.threads i with
      | .read _ now =>
          if s.process.suppressed now then some (.leave i) else some (.pass i drawn)
      | _ => none
  | .begin i => some (.act i)
  | .raise i => some (.leave i)
  | .call _ | .tryLock _ | .statements _ | .commit _ | .otherLock _ | .otherStatements
  | .otherCommit | .otherAbort | .other _ => none

theorem gateView_setThread (p : Process n) (i : Fin n) (thread : Thread) :
    gateView (p.setThread i thread) = (gateView p).set i thread.phase :=
  (Gate.set_eq_update Thread.phase _ _ p.threads i thread).symm

/-- A thread that stays away from the gate. -/
theorem gateView_setThread_of_away {p : Process n} {i : Fin n} {thread : Thread}
    (hbefore : (p.threads i).phase = .away) (hafter : thread.phase = .away) :
    gateView (p.setThread i thread) = gateView p := by
  rw [gateView_setThread, hafter]
  exact Gate.set_of_phase hbefore

/-- A check that goes on passes the gate. -/
theorem gateView_pass {p : Process n} {clock : Time} (hclock : 0 < clock) {i : Fin n}
    {called now drawn : Time} (hreads : Gate.ReadsOk clock (gateView p))
    (hthread : p.threads i = .read called now) (hpass : ¬ p.suppressed now = true)
    (hdrawn : timing.draws drawn) :
    (gateView p).step timing.shortest (.pass i drawn)
      = some (gateView (p.pass i called now drawn)) := by
  have hphase : (gateView p).phase i = .read now := congrArg Thread.phase hthread
  have hnow : clock ≤ now := (hreads.2 i now hphase).1
  have hnonneg := timing.interval_nonneg
  have hopen : ∀ time ∈ (gateView p).opensAt, time ≤ now := by
    intro time htime
    simp only [gateView] at htime
    split_ifs at htime with hfirst
    · cases htime
    · cases htime
      simp only [Process.suppressed, decide_eq_true_eq, not_and, not_lt] at hpass
      exact hpass hfirst
  have hshortest : timing.shortest ≤ drawn :=
    Int.ediv_le_of_le_mul two_pos (by linarith [hdrawn.1])
  have hlater : 0 < now + drawn := by linarith [hdrawn.1]
  refine (Gate.step_pass hphase hshortest hopen).trans (congrArg some ?_)
  have hset : gateView (p.setThread i (.due called)) = (gateView p).set i .due :=
    gateView_setThread p i _
  rw [← hset]
  show Gate.State.mk p.clock (some (now + drawn)) _
    = Gate.State.mk p.clock (if now + drawn = 0 then none else some (now + drawn)) _
  rw [if_neg hlater.ne']
  rfl

/-- **Step lemma.**  The steps of the process are steps at the gate. -/
theorem gateView_step {clock : Time} (hclock : 0 < clock) {a : Action n}
    (hreads : Gate.ReadsOk clock (gateView s.process)) (hstep : s.step timing a = some t) :
    (Gate.system (Fin n) timing.shortest clock).stepOrStay (gateView s.process) (gateLabel s a)
      = some (gateView t.process) := by
  cases a with
  | tick elapsed =>
      cases hstep
      rfl
  | call i =>
      simp only [State.step] at hstep
      split at hstep
      · next hthread =>
          cases hstep
          exact congrArg some (gateView_setThread_of_away (by rw [hthread]; rfl) rfl).symm
      · cases hstep
  | readClock i =>
      simp only [State.step] at hstep
      split at hstep
      · next called hthread =>
          cases hstep
          show (gateView s.process).step timing.shortest (.read i)
            = some (gateView (s.process.setThread i (.read called s.process.clock)))
          rw [gateView_setThread]
          exact Gate.step_read (congrArg Thread.phase hthread)
      · cases hstep
  | check i drawn =>
      simp only [State.step] at hstep
      split at hstep
      · next called now hthread =>
          simp only [gateLabel, hthread]
          split_ifs at hstep ⊢ with hsuppressed hdraws
          · cases hstep
            show some ((gateView s.process).set i .away) = _
            exact congrArg some (gateView_setThread s.process i .idle).symm
          · cases hstep
            exact gateView_pass hclock hreads hthread hsuppressed hdraws
      · cases hstep
  | begin i =>
      simp only [State.step] at hstep
      split at hstep
      · next called hthread =>
          cases hstep
          show (gateView s.process).step timing.shortest (.act i)
            = some (gateView (s.process.setThread i (.begun called s.process.clock)))
          rw [gateView_setThread]
          exact Gate.step_act (congrArg Thread.phase hthread)
      · cases hstep
  | tryLock i =>
      simp only [State.step] at hstep
      split at hstep
      · next called now hthread =>
          split at hstep <;> cases hstep
          · exact congrArg some (gateView_setThread_of_away (by rw [hthread]; rfl) rfl).symm
          · exact congrArg some (gateView_setThread_of_away (by rw [hthread]; rfl) rfl).symm
      · cases hstep
  | statements i =>
      simp only [State.step] at hstep
      split at hstep
      · next called now hthread =>
          cases hstep
          exact congrArg some (gateView_setThread_of_away (by rw [hthread]; rfl) rfl).symm
      · cases hstep
  | commit i =>
      simp only [State.step] at hstep
      split at hstep
      · next called hthread =>
          cases hstep
          exact congrArg some (gateView_setThread_of_away (by rw [hthread]; rfl) rfl).symm
      · cases hstep
  | raise i =>
      simp only [State.step] at hstep
      split at hstep <;> cases hstep
      · exact congrArg some (gateView_setThread s.process i .idle).symm
      · exact congrArg some (gateView_setThread s.process i .idle).symm
  | otherLock now =>
      simp only [State.step] at hstep
      split at hstep
      · split_ifs at hstep
        cases hstep
        rfl
      · cases hstep
  | otherStatements | otherCommit | otherAbort =>
      simp only [State.step] at hstep
      split at hstep <;> cases hstep
      rfl
  | other a =>
      simp only [State.step] at hstep
      split_ifs at hstep
      obtain ⟨db, -, rfl⟩ := Option.map_eq_some_iff.mp hstep
      rfl

/-- **A process begins a maintenance at most every half
`maintenance_interval`**, and once more: in every interleaving of its threads,
and whatever they draw.  Those that do not get the lock are counted as well. -/
theorem maintenance_rateLimited (n : ℕ) (timing : Timing) (tables : Tables) {clock : Time}
    (hclock : 0 < clock) (as : List (Action n)) :
    Gate.RateLimited timing.shortest
      (((maintenanceSystem n timing tables clock).last as).process.clock - clock)
      (((maintenanceSystem n timing tables clock).taken as).filterMap fun p => passed? p.1 p.2)
      (((maintenanceSystem n timing tables clock).taken as).countP fun p => p.2.isBegin) := by
  have hmaps : (maintenanceSystem n timing tables clock).Maps
      (Gate.system (Fin n) timing.shortest clock) (fun s => gateView s.process) gateLabel :=
    Gate.maps_of_step rfl fun s a t hreads hstep => gateView_step hclock hreads hstep
  have hnonneg : 0 ≤ timing.shortest := Int.ediv_nonneg timing.interval_nonneg two_pos.le
  refine Gate.rateLimited_of_maps hmaps hnonneg (fun s a => ?_) (fun s a => ?_) as
  · cases a with
    | check i drawn =>
        simp only [gateLabel, passed?]
        split
        · next called now hthread =>
            have hphase : (gateView s.process).phase i = .read now :=
              congrArg Thread.phase hthread
            split_ifs
            · rfl
            · simp only [Option.bind_some, Gate.passedAt, hphase]
        · rfl
    | _ => rfl
  · cases a with
    | check i drawn =>
        simp only [gateLabel]
        split
        · split_ifs <;> rfl
        · rfl
    | _ => rfl

/-- Two of six threads draw the shortest time, and the second one finds the lock
taken. -/
def hastyRun : List (Action 6) :=
  [.call 0, .readClock 0, .check 0 15000000, .begin 0, .tick 15000000, .call 1, .readClock 1,
    .check 1 15000000, .tryLock 0, .begin 1, .tryLock 1, .statements 0, .commit 0]

theorem maintenance_rateLimited_hastyRun :
    ((maintenanceSystem 6 defaultTiming deadWorker 1).taken hastyRun).countP
        (fun p => p.2.isBegin) = 2 ∧
      Gate.RateLimited defaultTiming.shortest
        (((maintenanceSystem 6 defaultTiming deadWorker 1).last hastyRun).process.clock - 1)
        (((maintenanceSystem 6 defaultTiming deadWorker 1).taken hastyRun).filterMap
          fun p => passed? p.1 p.2)
        (((maintenanceSystem 6 defaultTiming deadWorker 1).taken hastyRun).countP
          fun p => p.2.isBegin) :=
  ⟨by decide +kernel, maintenance_rateLimited 6 defaultTiming deadWorker (by decide) _⟩

end Reaping

end DramatiqPostgres
