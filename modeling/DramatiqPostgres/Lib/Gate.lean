import DramatiqPostgres.Lib.Runs
import Mathlib.Algebra.BigOperators.Group.Finset.Piecewise
import Mathlib.Data.Fintype.Basic
import Mathlib.Tactic.Linarith

/-!
# A gate that opens from time to time

Many parties share a duty that is due again some time after one of them last
took it on.  The time it is due at is shared, and a party that finds it come
sets it forward before it acts; the test and the update are one step, but the
party has read the clock before.  So a party can come to the gate with an old
time, parties act in another order than they passed, and some never act.

`system` is every interleaving of the parties and the clock.  However they
interleave, those that pass have read times that are `apart` from each other,
and no more of them act than pass (`rateLimited`): in any run the parties act at
most once for every `apart` that it lasts, and once more.

### Why the law is about the times that were read

The times at which the parties act are not spaced at all: a party can sleep
between its pass and its act, and two acts can come at the same moment.  What
the gate spaces are the readings of those that pass.  The bound on the acts
comes from two facts about these: they all lie between the start and the end of
the run (`ReadsOk`), and a list of times `apart` from each other that fits into
a span is short (`Spaced.mul_length_le`).

### Using it

A system that maps to this one has the same law (`rateLimited_of_maps`);
`maps_of_step` reduces that to its single steps.  What the parties otherwise do
and how far apart they set the gate, if at least `apart`, is their own business.
-/

universe u v w

namespace Gate

variable {ι : Type u}

/-- Where a party is: away, with a reading of the clock, or past the gate. -/
inductive Phase where
  | away
  /-- It has read the clock. -/
  | read (now : ℤ)
  /-- It has passed the gate, and has still to act. -/
  | due

/-- Whether a party has still to act. -/
def Phase.isDue : Phase → Bool
  | due => true
  | _ => false

/-- The clock, the gate and the parties.  `opensAt` is the shared time; each
party's phase is its own. -/
structure State (ι : Type u) where
  clock : ℤ
  /-- When the gate opens; it is open until the first has passed. -/
  opensAt : Option ℤ
  phase : ι → Phase

/-- One step of a party or of the clock. -/
inductive Action (ι : Type u) where
  | tick (elapsed : ℕ)
  | read (i : ι)
  /-- The gate is open, and closed for `pause` from the time the party has
  read. -/
  | pass (i : ι) (pause : ℤ)
  | act (i : ι)
  | leave (i : ι)

section Step

variable [DecidableEq ι]

/-- Put a party into a phase. -/
def State.set (s : State ι) (i : ι) (phase : Phase) : State ι :=
  { s with phase := Function.update s.phase i phase }

/-- The state after a step.  A party that finds the gate closed goes away again,
and does nothing to it. -/
def State.step (apart : ℤ) (s : State ι) : Action ι → Option (State ι)
  | .tick elapsed => some { s with clock := s.clock + elapsed }
  | .read i =>
      match s.phase i with
      | .away => some (s.set i (.read s.clock))
      | _ => none
  | .pass i pause =>
      match s.phase i with
      | .read now =>
          if apart ≤ pause ∧ (∀ time ∈ s.opensAt, time ≤ now) then
            some { s.set i .due with opensAt := some (now + pause) }
          else none
      | _ => none
  | .act i =>
      match s.phase i with
      | .due => some (s.set i .away)
      | _ => none
  | .leave i => some (s.set i .away)

section

variable {apart : ℤ} {s : State ι} {i : ι}

theorem step_read (h : s.phase i = .away) :
    s.step apart (.read i) = some (s.set i (.read s.clock)) := by
  rw [State.step, h]

theorem step_pass {now pause : ℤ} (h : s.phase i = .read now) (hpause : apart ≤ pause)
    (hopen : ∀ time ∈ s.opensAt, time ≤ now) :
    s.step apart (.pass i pause) = some { s.set i .due with opensAt := some (now + pause) } := by
  simp only [State.step, h]
  exact if_pos ⟨hpause, hopen⟩

theorem step_act (h : s.phase i = .due) : s.step apart (.act i) = some (s.set i .away) := by
  rw [State.step, h]

end

/-- Every interleaving of the parties, from a time on. -/
def system (ι : Type u) [DecidableEq ι] (apart clock : ℤ) : StepSystem (State ι) (Action ι) :=
  ⟨⟨clock, none, fun _ => .away⟩, State.step apart⟩

end Step

/-- The time a party that passes has read. -/
def passedAt (s : State ι) : Action ι → Option ℤ
  | .pass i _ =>
      match s.phase i with
      | .read now => some now
      | _ => none
  | _ => none

/-- Whether a step is an act. -/
def Action.isAct : Action ι → Bool
  | .act _ => true
  | _ => false

/-! ## The law -/

/-- The times that the parties that pass have read, in the order they pass.
They need not be the times of the clock at which they passed. -/
def passes (steps : List (State ι × Action ι)) : List ℤ :=
  steps.filterMap fun p => passedAt p.1 p.2

/-- How often the parties act. -/
def acts (steps : List (State ι × Action ι)) : ℕ := steps.countP fun p => p.2.isAct

/-- Times that come one after the other, with `apart` between them. -/
def Spaced (apart : ℤ) (times : List ℤ) : Prop :=
  times.Pairwise fun time time' => time + apart ≤ time'

/-- **The law of a gate**, for a run that takes `elapsed`: the passes are
spaced, there are no more acts than passes, and so many passes take their
time. -/
structure RateLimited (apart elapsed : ℤ) (passes : List ℤ) (acts : ℕ) : Prop where
  spaced : Spaced apart passes
  acts_le : acts ≤ passes.length
  /-- One act is free, and each further one takes `apart`. -/
  rate : apart * (acts - 1 : ℕ) ≤ elapsed

/-! ## A step -/

section Steps

variable [DecidableEq ι] {apart start : ℤ} {s t : State ι} {a : Action ι}

/-- Only a pass moves the gate, and it moves it on: to at least `apart` after a
time at which it was open. -/
theorem opensAt_step (h : s.step apart a = some t) :
    (passedAt s a = none ∧ t.opensAt = s.opensAt) ∨
      ∃ now pause, passedAt s a = some now ∧ apart ≤ pause ∧ (∀ time ∈ s.opensAt, time ≤ now) ∧
        t.opensAt = some (now + pause) := by
  cases a with
  | tick elapsed | leave i =>
      cases h
      exact Or.inl ⟨rfl, rfl⟩
  | read i | act i =>
      simp only [State.step] at h
      split at h <;> cases h
      exact Or.inl ⟨rfl, rfl⟩
  | pass i pause =>
      simp only [State.step] at h
      split at h
      · next now hphase =>
          split_ifs at h with hopen
          cases h
          exact Or.inr ⟨now, pause, by simp only [passedAt, hphase], hopen.1, hopen.2, rfl⟩
      · cases h

omit [DecidableEq ι] in
/-- Who passes has read the clock. -/
theorem exists_of_passedAt {now : ℤ} (h : passedAt s a = some now) :
    ∃ i, s.phase i = .read now := by
  cases a with
  | pass i pause =>
      simp only [passedAt] at h
      split at h
      · next hphase =>
          cases h
          exact ⟨i, hphase⟩
      · cases h
  | _ => cases h

/-- Every time that was read lies between the start and the clock.  A party's
reading may be arbitrarily old, but not older than the run. -/
def ReadsOk (start : ℤ) (s : State ι) : Prop :=
  start ≤ s.clock ∧ ∀ i now, s.phase i = .read now → start ≤ now ∧ now ≤ s.clock

theorem ReadsOk.set {i : ι} {phase : Phase} (h : ReadsOk start s)
    (hphase : ∀ now, phase = .read now → start ≤ now ∧ now ≤ s.clock) :
    ReadsOk start (s.set i phase) := by
  refine ⟨h.1, fun j now hj => ?_⟩
  simp only [State.set] at hj
  by_cases hij : j = i
  · rw [hij, Function.update_self] at hj
    exact hphase now hj
  · rw [Function.update_of_ne hij] at hj
    exact h.2 j now hj

theorem ReadsOk.step (h : ReadsOk start s) (hstep : s.step apart a = some t) :
    ReadsOk start t ∧ s.clock ≤ t.clock := by
  cases a with
  | tick elapsed =>
      cases hstep
      have hclock : s.clock ≤ s.clock + elapsed := by omega
      exact ⟨⟨h.1.trans hclock, fun i now hi => ⟨(h.2 i now hi).1, (h.2 i now hi).2.trans hclock⟩⟩,
        hclock⟩
  | read i =>
      simp only [State.step] at hstep
      split at hstep <;> cases hstep
      refine ⟨h.set fun now hnow => ?_, le_refl s.clock⟩
      cases hnow
      exact ⟨h.1, le_refl s.clock⟩
  | pass i pause =>
      simp only [State.step] at hstep
      split at hstep
      · split_ifs at hstep
        cases hstep
        have hset : ReadsOk start (s.set i .due) := h.set fun now hnow => by cases hnow
        exact ⟨⟨hset.1, hset.2⟩, le_refl s.clock⟩
      · cases hstep
  | act i =>
      simp only [State.step] at hstep
      split at hstep <;> cases hstep
      exact ⟨h.set (fun now hnow => by cases hnow), le_refl s.clock⟩
  | leave i =>
      cases hstep
      exact ⟨h.set (fun now hnow => by cases hnow), le_refl s.clock⟩

/-! ## Who has still to act -/

variable [Fintype ι]

/-- How many parties have still to act: the difference between passes and acts,
as the state has it. -/
def State.dues (s : State ι) : ℕ := ∑ i, (s.phase i).isDue.toNat

theorem dues_set (s : State ι) (i : ι) (phase : Phase) :
    (s.set i phase).dues + (s.phase i).isDue.toNat = s.dues + phase.isDue.toNat := by
  have hupdate : (fun j => ((s.set i phase).phase j).isDue.toNat)
      = Function.update (fun j => (s.phase j).isDue.toNat) i phase.isDue.toNat := by
    funext j
    exact Function.apply_update (fun _ (phase : Phase) => phase.isDue.toNat) s.phase i phase j
  show (∑ j, ((s.set i phase).phase j).isDue.toNat) + _ = (∑ j, (s.phase j).isDue.toNat) + _
  rw [hupdate, Finset.sum_update_of_mem (Finset.mem_univ i),
    ← Finset.add_sum_erase _ _ (Finset.mem_univ i), Finset.sdiff_singleton_eq_erase]
  omega

/-- A pass lets one party act, and only that: each act uses up a pass.  With it
the acts of a run are counted against its passes, whoever makes them and in
whatever order. -/
theorem dues_step (h : s.step apart a = some t) :
    t.dues + a.isAct.toNat ≤ s.dues + (passedAt s a).toList.length := by
  cases a with
  | tick elapsed =>
      cases h
      exact le_refl s.dues
  | read i =>
      simp only [State.step] at h
      split at h <;> cases h
      have hset := dues_set s i (.read s.clock)
      simp only [Phase.isDue, Bool.toNat_false] at hset
      show (s.set i _).dues + 0 ≤ s.dues + 0
      omega
  | pass i pause =>
      simp only [State.step] at h
      split at h
      · next now hphase =>
          split_ifs at h
          cases h
          have hset := dues_set s i .due
          simp only [hphase, Phase.isDue, Bool.toNat_false, Bool.toNat_true] at hset
          simp only [passedAt, hphase, Option.toList_some, List.length_singleton]
          show (s.set i .due).dues + 0 ≤ s.dues + 1
          omega
      · cases h
  | act i =>
      simp only [State.step] at h
      split at h
      · next hphase =>
          cases h
          have hset := dues_set s i .away
          simp only [hphase, Phase.isDue, Bool.toNat_false, Bool.toNat_true] at hset
          show (s.set i .away).dues + 1 ≤ s.dues + 0
          omega
      · cases h
  | leave i =>
      cases h
      have hset := dues_set s i .away
      simp only [Phase.isDue, Bool.toNat_false] at hset
      show (s.set i .away).dues + 0 ≤ s.dues + 0
      omega

end Steps

/-! ## Every run -/

section Runs

variable [DecidableEq ι] {apart clock : ℤ}

omit [DecidableEq ι] in
theorem passes_cons (s : State ι) (a : Action ι) (steps : List (State ι × Action ι)) :
    passes ((s, a) :: steps) = (passedAt s a).toList ++ passes steps := by
  cases h : passedAt s a with
  | none => exact List.filterMap_cons_none h
  | some now => exact List.filterMap_cons_some h

omit [DecidableEq ι] in
theorem acts_cons (s : State ι) (a : Action ι) (steps : List (State ι × Action ι)) :
    acts ((s, a) :: steps) = acts steps + a.isAct.toNat := by
  cases h : a.isAct with
  | false => exact List.countP_cons_of_neg (by rw [h]; exact Bool.false_ne_true)
  | true => exact List.countP_cons_of_pos h

/-- The passes of a run are spaced, and the gate is open at the first.  The
induction is on the schedule. -/
theorem spaced_from (hapart : 0 ≤ apart) (as : List (Action ι)) (s : State ι) :
    (∀ time ∈ s.opensAt, ∀ now ∈ passes ((system ι apart clock).takenFrom s as), time ≤ now) ∧
      Spaced apart (passes ((system ι apart clock).takenFrom s as)) := by
  induction as generalizing s with
  | nil => exact ⟨fun _ _ _ h => absurd h List.not_mem_nil, List.Pairwise.nil⟩
  | cons a as ih =>
      cases hstep : (system ι apart clock).step s a with
      | none =>
          rw [StepSystem.takenFrom, hstep]
          exact ⟨fun _ _ _ h => absurd h List.not_mem_nil, List.Pairwise.nil⟩
      | some t =>
          rw [StepSystem.takenFrom_cons_of_step hstep, passes_cons]
          obtain ⟨hopen, hspaced⟩ := ih t
          rcases opensAt_step hstep with ⟨hquiet, hsame⟩ | ⟨now, pause, hpass, hpause, hnow, hnext⟩
          · rw [hquiet, Option.toList_none, List.nil_append, ← hsame]
            exact ⟨hopen, hspaced⟩
          · rw [hpass, Option.toList_some, List.singleton_append]
            have hlater := hopen (now + pause) hnext
            refine ⟨fun time htime now' hnow' => ?_,
              List.Pairwise.cons (fun now' hnow' => ?_) hspaced⟩
            · have hle : time ≤ now := hnow time htime
              rcases List.mem_cons.mp hnow' with rfl | hnow'
              · exact hle
              · have hle' : now + pause ≤ now' := hlater now' hnow'
                omega
            · have hle' : now + pause ≤ now' := hlater now' hnow'
              omega

/-- The passes of a run lie between its start and its end, by induction on the
schedule with `ReadsOk`. -/
theorem bounds_from {start : ℤ} (as : List (Action ι)) {s : State ι} (h : ReadsOk start s) :
    s.clock ≤ ((system ι apart clock).lastFrom s as).clock ∧
      ∀ now ∈ passes ((system ι apart clock).takenFrom s as),
        start ≤ now ∧ now ≤ ((system ι apart clock).lastFrom s as).clock := by
  induction as generalizing s with
  | nil => exact ⟨le_refl s.clock, fun _ h => absurd h List.not_mem_nil⟩
  | cons a as ih =>
      cases hstep : (system ι apart clock).step s a with
      | none =>
          rw [StepSystem.takenFrom, StepSystem.lastFrom, hstep]
          exact ⟨le_refl s.clock, fun _ h => absurd h List.not_mem_nil⟩
      | some t =>
          rw [StepSystem.takenFrom_cons_of_step hstep, StepSystem.lastFrom_cons_of_step hstep,
            passes_cons]
          obtain ⟨hreads, hclock⟩ := h.step hstep
          obtain ⟨hlast, hall⟩ := ih hreads
          refine ⟨hclock.trans hlast, fun now hnow => ?_⟩
          rcases List.mem_append.mp hnow with hnow | hnow
          · obtain ⟨i, hphase⟩ := exists_of_passedAt (Option.mem_toList.mp hnow)
            have hread := h.2 i now hphase
            exact ⟨hread.1, hread.2.trans (hclock.trans hlast)⟩
          · exact hall now hnow

/-- No more parties act than had to or pass, by induction on the schedule with
`dues_step`. -/
theorem acts_from [Fintype ι] (as : List (Action ι)) (s : State ι) :
    acts ((system ι apart clock).takenFrom s as) ≤
      s.dues + (passes ((system ι apart clock).takenFrom s as)).length := by
  induction as generalizing s with
  | nil => exact Nat.zero_le _
  | cons a as ih =>
      cases hstep : (system ι apart clock).step s a with
      | none =>
          rw [StepSystem.takenFrom, hstep]
          exact Nat.zero_le _
      | some t =>
          rw [StepSystem.takenFrom_cons_of_step hstep, passes_cons, acts_cons, List.length_append]
          have hdues : t.dues + a.isAct.toNat ≤ s.dues + (passedAt s a).toList.length :=
            dues_step hstep
          have hrest := ih t
          omega

/-- Spaced times take their time: so many of them, less one, fit between the
first and the last. -/
theorem Spaced.mul_length_le {first last : ℤ} {times : List ℤ} (h : Spaced apart times)
    (hbounds : ∀ time ∈ times, first ≤ time ∧ time ≤ last) (hle : first ≤ last) :
    apart * (times.length - 1 : ℕ) ≤ last - first := by
  induction times generalizing first with
  | nil =>
      rw [List.length_nil, Nat.zero_sub, Nat.cast_zero, mul_zero]
      omega
  | cons time times ih =>
      cases times with
      | nil =>
          rw [List.length_singleton, Nat.sub_self, Nat.cast_zero, mul_zero]
          omega
      | cons time' times =>
          obtain ⟨hnext, hspaced⟩ := List.pairwise_cons.mp h
          have hrest : apart * ((time' :: times).length - 1 : ℕ) ≤ last - (time + apart) := by
            refine ih hspaced (fun later hlater => ⟨hnext later hlater, ?_⟩) ?_
            · exact (hbounds later (List.mem_cons_of_mem _ hlater)).2
            · exact (hnext time' List.mem_cons_self).trans
                (hbounds time' (List.mem_cons_of_mem _ List.mem_cons_self)).2
          have hfirst := (hbounds time List.mem_cons_self).1
          simp only [List.length_cons, Nat.add_sub_cancel] at hrest ⊢
          rw [Nat.cast_add, Nat.cast_one, mul_add, mul_one]
          omega

/-- **In every interleaving the gate limits the rate.**  Nothing is asked of the
order in which the parties that passed act, nor that they do. -/
theorem rateLimited [Fintype ι] (hapart : 0 ≤ apart) (clock : ℤ) (as : List (Action ι)) :
    RateLimited apart (((system ι apart clock).last as).clock - clock)
      (passes ((system ι apart clock).taken as)) (acts ((system ι apart clock).taken as)) := by
  have hstart : ReadsOk clock (system ι apart clock).init :=
    ⟨le_refl clock, fun _ _ h => by cases h⟩
  obtain ⟨hlast, hbounds⟩ := bounds_from as hstart
  obtain ⟨-, hspaced⟩ := spaced_from hapart as (system ι apart clock).init
  have hacts : acts ((system ι apart clock).taken as) ≤
      (system ι apart clock).init.dues + (passes ((system ι apart clock).taken as)).length :=
    acts_from as _
  have hdues : (system ι apart clock).init.dues = 0 := Finset.sum_eq_zero fun _ _ => rfl
  rw [hdues, Nat.zero_add] at hacts
  refine ⟨hspaced, hacts, le_trans ?_ (hspaced.mul_length_le hbounds hlast)⟩
  exact mul_le_mul_of_nonneg_left (Int.ofNat_le.mpr (Nat.sub_le_sub_right hacts 1)) hapart

/-- Parties that are seen through their phase: one of them is replaced. -/
theorem set_eq_update {τ : Type v} (phase : τ → Phase) (clock : ℤ) (opensAt : Option ℤ)
    (parties : ι → τ) (i : ι) (party : τ) :
    State.set ⟨clock, opensAt, fun j => phase (parties j)⟩ i (phase party)
      = ⟨clock, opensAt, fun j => phase (Function.update parties i party j)⟩ := by
  unfold State.set
  congr 1
  funext j
  exact (Function.apply_update (fun _ => phase) parties i party j).symm

theorem set_of_phase {s : State ι} {i : ι} {phase : Phase} (h : s.phase i = phase) :
    s.set i phase = s := by
  rw [State.set, ← h, Function.update_eq_self]

/-- A system maps to the gate's if its steps do, from states whose reads lie
between the start and the clock.  `ReadsOk` may be assumed because the gate's
own runs have it. -/
theorem maps_of_step {σ : Type v} {α : Type w} {M : StepSystem σ α} {view : σ → State ι}
    {label : σ → α → Option (Action ι)} (hinit : view M.init = (system ι apart clock).init)
    (hstep : ∀ s a t, ReadsOk clock (view s) → M.step s a = some t →
      (system ι apart clock).stepOrStay (view s) (label s a) = some (view t)) :
    M.Maps (system ι apart clock) view label := by
  refine ⟨hinit, fun s a t hreach => hstep s a t ?_⟩
  refine hreach.inv (I := fun s => ReadsOk clock (view s)) ?_ fun s a t hs h => ?_
  · rw [hinit]
    exact ⟨le_refl clock, fun _ _ h => by cases h⟩
  · have hview := hstep s a t hs h
    cases hlabel : label s a with
    | none =>
        rw [hlabel, StepSystem.stepOrStay, Option.some_inj] at hview
        rwa [← hview]
    | some b =>
        rw [hlabel] at hview
        exact (hs.step hview).1

/-- **So it does in a system that maps to the gate's.**  Its passes and acts are
those of its labels. -/
theorem rateLimited_of_maps [Fintype ι] {σ : Type v} {α : Type w} {M : StepSystem σ α}
    {view : σ → State ι} {label : σ → α → Option (Action ι)}
    (h : M.Maps (system ι apart clock) view label) (hapart : 0 ≤ apart)
    {passed : σ → α → Option ℤ} {act : α → Bool}
    (hpassed : ∀ s a, (label s a).bind (passedAt (view s)) = passed s a)
    (hact : ∀ s a, (label s a).any Action.isAct = act a) (as : List α) :
    RateLimited apart ((view (M.last as)).clock - clock)
      ((M.taken as).filterMap fun p => passed p.1 p.2)
      ((M.taken as).countP fun p => act p.2) := by
  obtain ⟨htaken, hlast⟩ := h.run as
  have hlaw := rateLimited hapart clock (M.labelsFrom label M.init as)
  rw [hlast, htaken, passes, acts, List.filterMap_filterMap, List.countP_filterMap] at hlaw
  have hpasses : (fun p : σ × α => ((label p.1 p.2).map fun b => (view p.1, b)).bind
      fun q => passedAt q.1 q.2) = fun p => passed p.1 p.2 := by
    funext p
    rw [Option.bind_map, ← hpassed]
    rfl
  have hacts : (fun p : σ × α => (((label p.1 p.2).map fun b => (view p.1, b)).map
      fun q => q.2.isAct).getD false) = fun p => act p.2 := by
    funext p
    rw [← hact p.1 p.2]
    cases label p.1 p.2 <;> rfl
  rwa [hpasses, hacts] at hlaw

end Runs

end Gate
