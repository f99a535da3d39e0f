import DramatiqPostgres.Lib.Runs
import Mathlib.Data.Finset.Card
import Mathlib.Data.Fintype.Basic
import Mathlib.Data.Fintype.Card
import Mathlib.Data.Finset.Powerset
import Mathlib.Data.Nat.SuccPred
import Mathlib.Order.Interval.Finset.Nat

/-!
# A bounded pool that is shared

A pool gives out at most `max` resources at a time.  Each user has one slot: it
asks only while the slot is empty, waits until the pool gives it a resource or
refuses, and puts back the resource it holds.  A user that never asks while it
holds one can always go on, so the users cannot wait for each other in a circle;
what they can wait for is a resource that someone **keeps**.

What a user does is left to its program.  `Programs` says, for each user, which
sequences of answers and returns (`Kind`) it can have gone through; the pool
adds nothing to that but its bound, and that two slots never hold one resource.
`system` is every interleaving of such programs.

`Serves programs max keeps i` is the law that user `i`, whenever it waits, can
be given a resource without any keeper giving back what it has: the other users
go on with their programs, and that is enough.  `serves_iff` is its condition:
there are more resources than keepers besides `i`.

### What is asked of the programs

Both directions rest on `Programs.Fair`.  `finishes` is what makes the condition
enough: a user that is no keeper, and holds a resource, comes to the point where
it puts it back.  A program that lost its resource, or that asked for a second
one while it holds the first, would not.  `starts` is what makes it necessary:
every user may begin by taking a resource, so the keepers of a pool that is too
small can take all it has.

### Design notes

**Resources have numbers in the events, not in the programs.**  Which connection
a call gets is the pool's choice, and a program that behaved differently for it
would not be one; `Kind` forgets the number, and `full_of_after` gets from the
kinds back whether the slot is full.

**Served, not granted next.**  A pool may serve its waiters in any order, and
refuse one that has waited too long, after which its program goes on as it
does.  So the law cannot be that a waiter gets the next resource; it is that no
state is reached from which it cannot be served.

**The weight of a state** is how many users hold something they do not keep.
Each of them can put it back (`exists_put`), which makes the weight smaller, and
when it is zero only keepers hold resources, so the pool has one left.
-/

universe u

namespace SharedPool

/-- What passes between a user and the pool. -/
inductive Event where
  /-- The pool gave up on a request. -/
  | refused
  | given (resource : ℕ)
  | put (resource : ℕ)
  deriving DecidableEq

/-- A slot holds a resource or none.  A user asks the pool only while it holds
none, and puts back the one it holds. -/
def slotStep : Option ℕ → Event → Option (Option ℕ)
  | none, .refused => some none
  | none, .given resource => some (some resource)
  | some resource, .put resource' => if resource' = resource then some none else none
  | _, _ => none

/-- An empty slot, and what may happen to it. -/
def slotSystem : StepSystem (Option ℕ) Event := ⟨none, slotStep⟩

/-- An event without its resource, which a slot of one resource determines. -/
inductive Kind where
  | refused
  | given
  | put
  deriving DecidableEq

/-- The kind of an event. -/
def Event.kind : Event → Kind
  | .refused => .refused
  | .given _ => .given
  | .put _ => .put

/-- Whether a slot holds a resource after a past like this. -/
def full (past : List Kind) : Bool :=
  past.foldl (fun holds kind => match kind with
    | .refused => holds
    | .given => true
    | .put => false) false

/-- What the program of a user can have gone through: the sequences of answers
and returns that some run of it begins with. -/
abbrev Programs (ι : Type u) := ι → List Kind → Prop

/-- The programs of users of which some keep what they are given.  Both fields
are facts about programs alone, to be shown for the programs at hand; the pool
does not come into them. -/
structure Programs.Fair {ι : Type u} (programs : Programs ι) (keeps : ι → Bool) : Prop where
  /-- A user that is no keeper puts back what it holds. -/
  finishes : ∀ i past, keeps i = false → programs i past → full past = true →
    programs i (past ++ [.put])
  /-- Every user may begin by asking. -/
  starts : ∀ i, programs i [.given]

/-- The slots of the users, what they have gone through, and who waits for an
answer of the pool. -/
structure State (ι : Type u) where
  held : ι → Option ℕ
  past : ι → List Kind
  asking : ι → Bool

/-- A user asks, or something passes between it and the pool. -/
inductive Action (ι : Type u) where
  | ask (i : ι)
  | pass (i : ι) (event : Event)

section Members

variable {ι : Type u} [Fintype ι] [DecidableEq ι]

namespace State

/-- The users that hold a resource. -/
def holders (s : State ι) : Finset ι := Finset.univ.filter fun i => (s.held i).isSome = true

/-- A user asks. -/
def ask (s : State ι) (i : ι) : State ι := { s with asking := Function.update s.asking i true }

/-- Set the slot of a user after an event, which answers its request. -/
def set (s : State ι) (i : ι) (held : Option ℕ) (kind : Kind) : State ι where
  held := Function.update s.held i held
  past := Function.update s.past i (s.past i ++ [kind])
  asking := Function.update s.asking i false

/-- Whether the pool can give a resource: it has one left, and nobody holds this
one. -/
def canGive (max : ℕ) (s : State ι) (resource : ℕ) : Prop :=
  s.holders.card < max ∧ ∀ i, s.held i ≠ some resource

/-- Whether the pool lets an event happen. -/
def Allows (max : ℕ) (s : State ι) (i : ι) : Event → Prop
  | .put _ => True
  | .given resource => s.asking i = true ∧ s.canGive max resource
  | .refused => s.asking i = true

open Classical in
/-- The state after an action.  A user asks where its program can go on with a
resource. -/
noncomputable def step (programs : Programs ι) (max : ℕ) (s : State ι) :
    Action ι → Option (State ι)
  | .ask i =>
      if s.held i = none ∧ s.asking i = false ∧ programs i (s.past i ++ [.given]) then
        some (s.ask i)
      else none
  | .pass i event =>
      if s.Allows max i event ∧ programs i (s.past i ++ [event.kind]) then
        (slotStep (s.held i) event).map fun held => s.set i held event.kind
      else none

end State

/-- Users that have done nothing, and a pool of `max` resources. -/
noncomputable def system (programs : Programs ι) (max : ℕ) : StepSystem (State ι) (Action ι) :=
  ⟨⟨fun _ => none, fun _ => [], fun _ => false⟩, State.step programs max⟩

/-- No keeper puts its resource back. -/
def Action.Calm (keeps : ι → Bool) : Action ι → Prop
  | .pass i (.put _) => keeps i = false
  | _ => True

/-- **Whenever `i` waits, it can be served** while the keepers keep what they
have: from every reachable state the others can go on, by their programs, until
it is. -/
def Serves (programs : Programs ι) (max : ℕ) (keeps : ι → Bool) (i : ι) : Prop :=
  ∀ s, (system programs max).Reachable s → s.asking i = true →
    ∃ as t, (∀ a ∈ as, Action.Calm keeps a) ∧ (system programs max).after s as = some t ∧
      (t.held i).isSome = true

/-- The other users that keep what they are given. -/
def keepersBesides (keeps : ι → Bool) (i : ι) : Finset ι :=
  Finset.univ.filter fun k => keeps k = true ∧ k ≠ i

/-! ## Slots -/

variable {programs : Programs ι} {max : ℕ} {keeps : ι → Bool} {s t : State ι} {i j : ι}

theorem full_concat (past : List Kind) (kind : Kind) :
    full (past ++ [kind]) = match kind with
      | .refused => full past
      | .given => true
      | .put => false := by
  rw [full, List.foldl_append]
  cases kind <;> rfl

/-- A past tells whether the slot is full. -/
theorem full_of_slotStep {held held' : Option ℕ} {event : Event} {past : List Kind}
    (hfull : full past = held.isSome) (h : slotStep held event = some held') :
    full (past ++ [event.kind]) = held'.isSome := by
  rw [full_concat]
  cases held with
  | none =>
      cases event with
      | refused => cases h; exact hfull
      | given resource => cases h; rfl
      | put resource => cases h
  | some resource =>
      cases event with
      | refused | given => cases h
      | put resource' =>
          rw [slotStep] at h
          split_ifs at h
          cases h
          rfl

/-- What a slot has gone through tells whether it is full. -/
theorem full_of_after {events : List Event} {held : Option ℕ}
    (h : slotSystem.after none events = some held) :
    full (events.map Event.kind) = held.isSome := by
  have hfrom : ∀ (events : List Event) (past : List Kind) (held held' : Option ℕ),
      full past = held.isSome → slotSystem.after held events = some held' →
        full (past ++ events.map Event.kind) = held'.isSome := by
    intro events
    induction events with
    | nil =>
        intro past held held' hfull h
        rw [List.map_nil, List.append_nil, hfull, Option.some_inj.mp h]
    | cons event events ih =>
        intro past held held' hfull h
        obtain ⟨held₁, hstep, hrest⟩ := Option.bind_eq_some_iff.mp h
        have hnext := ih _ _ _ (full_of_slotStep hfull hstep) hrest
        rwa [List.append_assoc] at hnext
  exact hfrom events [] none held rfl h

/-- A slot that is empty in the end puts back what it holds, as soon as anything
happens to it. -/
theorem exists_put_of_after {before rest : List Event}
    (h : slotSystem.after none (before ++ rest) = some none)
    (hfull : full (before.map Event.kind) = true) :
    ∃ resource rest', rest = .put resource :: rest' := by
  rw [StepSystem.after_append] at h
  obtain ⟨held, hbefore, hrest⟩ := Option.bind_eq_some_iff.mp h
  rw [full_of_after hbefore] at hfull
  obtain ⟨resource, rfl⟩ := Option.isSome_iff_exists.mp hfull
  cases rest with
  | nil => cases hrest
  | cons event rest' =>
      cases event with
      | put resource' => exact ⟨resource', rest', rfl⟩
      | refused | given => cases hrest

omit [DecidableEq ι] in
theorem mem_holders : i ∈ s.holders ↔ (s.held i).isSome = true := by simp [State.holders]

omit [Fintype ι] in
@[simp] theorem held_set_self (s : State ι) (i : ι) (held : Option ℕ) (kind : Kind) :
    (s.set i held kind).held i = held := Function.update_self ..

omit [Fintype ι] in
theorem held_set_of_ne (h : j ≠ i) (held : Option ℕ) (kind : Kind) :
    (s.set i held kind).held j = s.held j := Function.update_of_ne h ..

omit [Fintype ι] in
theorem past_set_of_ne (h : j ≠ i) (held : Option ℕ) (kind : Kind) :
    (s.set i held kind).past j = s.past j := Function.update_of_ne h ..

omit [Fintype ι] in
theorem asking_set_of_ne (h : j ≠ i) (held : Option ℕ) (kind : Kind) :
    (s.set i held kind).asking j = s.asking j := Function.update_of_ne h ..

theorem holders_set_some (s : State ι) (i : ι) (resource : ℕ) (kind : Kind) :
    (s.set i (some resource) kind).holders = insert i s.holders := by
  ext j
  by_cases h : j = i
  · subst h
    simp [mem_holders]
  · simp [mem_holders, held_set_of_ne h, h]

theorem holders_set_none (s : State ι) (i : ι) (kind : Kind) :
    (s.set i none kind).holders = s.holders.erase i := by
  ext j
  by_cases h : j = i
  · subst h
    simp [mem_holders]
  · simp [mem_holders, held_set_of_ne h, h]

omit [DecidableEq ι] in
/-- Some resource is in nobody's slot. -/
theorem exists_free (s : State ι) : ∃ resource, ∀ i, s.held i ≠ some resource := by
  obtain ⟨resource, hfree⟩ :=
    Infinite.exists_notMem_finset (Finset.eraseNone (Finset.univ.image s.held))
  refine ⟨resource, fun i hi => hfree ?_⟩
  rw [Finset.mem_eraseNone, ← hi]
  exact Finset.mem_image_of_mem _ (Finset.mem_univ i)

/-- What a step does to the slots: one of them is set, as `slotStep`, the pool
and the program allow, or none. -/
theorem step_cases {a : Action ι} (h : s.step programs max a = some t) :
    (∃ j, a = .ask j ∧ s.held j = none ∧ programs j (s.past j ++ [.given]) ∧ t = s.ask j) ∨
      (∃ j event held, a = .pass j event ∧ s.Allows max j event ∧
        programs j (s.past j ++ [event.kind]) ∧ slotStep (s.held j) event = some held ∧
        t = s.set j held event.kind) := by
  cases a with
  | ask j =>
      simp only [State.step] at h
      split_ifs at h with hask
      cases h
      exact Or.inl ⟨j, rfl, hask.1, hask.2.2, rfl⟩
  | pass j event =>
      simp only [State.step] at h
      split_ifs at h with hpass
      obtain ⟨held, hstep, rfl⟩ := Option.map_eq_some_iff.mp h
      exact Or.inr ⟨j, event, held, rfl, hpass.1, hpass.2, hstep, rfl⟩

/-- Every user is somewhere in its program: the slot is as the past says, the
past is one of the program, and who asks can go on with a resource. -/
structure Ok (programs : Programs ι) (s : State ι) : Prop where
  full : ∀ i, full (s.past i) = (s.held i).isSome
  past : ∀ i, s.past i = [] ∨ programs i (s.past i)
  asking : ∀ i, s.asking i = true → s.held i = none ∧ programs i (s.past i ++ [.given])

theorem Ok.step {a : Action ι} (hs : Ok programs s) (h : s.step programs max a = some t) :
    Ok programs t := by
  rcases step_cases h with ⟨j, -, hheld, hgoes, rfl⟩ | ⟨j, event, held, -, -, hgoes, hslot, rfl⟩
  · refine ⟨hs.full, hs.past, fun i hi => ?_⟩
    by_cases hij : i = j
    · rw [hij]
      exact ⟨hheld, hgoes⟩
    · exact hs.asking i (by rwa [← Function.update_of_ne hij true s.asking])
  · have hself : (s.set j held event.kind).past j = s.past j ++ [event.kind] :=
      Function.update_self ..
    refine ⟨fun i => ?_, fun i => ?_, fun i hi => ?_⟩
    · by_cases hij : i = j
      · rw [hij, hself, held_set_self]
        exact full_of_slotStep (hs.full j) hslot
      · rw [past_set_of_ne hij, held_set_of_ne hij]
        exact hs.full i
    · by_cases hij : i = j
      · rw [hij, hself]
        exact Or.inr hgoes
      · rw [past_set_of_ne hij]
        exact hs.past i
    · have hij : i ≠ j := by
        rintro rfl
        simp [State.set] at hi
      rw [asking_set_of_ne hij] at hi
      rw [past_set_of_ne hij, held_set_of_ne hij]
      exact hs.asking i hi

theorem ok_of_reachable (h : (system programs max).Reachable s) : Ok programs s := by
  have hinit : Ok programs (system programs max).init :=
    ⟨fun _ => rfl, fun _ => Or.inl rfl, fun _ hi => by cases hi⟩
  exact h.inv hinit fun _ _ _ hs (hstep : State.step programs max _ _ = some _) => hs.step hstep

/-! ## Enough resources -/

theorem step_ask (max : ℕ) (hheld : s.held i = none) (hi : s.asking i = false)
    (hgoes : programs i (s.past i ++ [.given])) :
    s.step programs max (.ask i) = some (s.ask i) := if_pos ⟨hheld, hi, hgoes⟩

/-- The pool gives `i` a resource. -/
theorem exists_given (hi : s.asking i = true) (hheld : s.held i = none)
    (hgoes : programs i (s.past i ++ [.given])) (hroom : s.holders.card < max) :
    ∃ resource, s.step programs max (.pass i (.given resource))
      = some (s.set i (some resource) .given) := by
  obtain ⟨resource, hfree⟩ := exists_free s
  refine ⟨resource, ?_⟩
  have hallows : s.Allows max i (.given resource) := ⟨hi, hroom, hfree⟩
  simp only [State.step]
  rw [if_pos ⟨hallows, hgoes⟩, hheld]
  rfl

/-- A user that holds a resource, and is no keeper, puts it back. -/
theorem exists_put (max : ℕ) (hfair : programs.Fair keeps) (hs : Ok programs s)
    (hj : keeps j = false) (hheld : (s.held j).isSome = true) :
    ∃ resource, s.step programs max (.pass j (.put resource)) = some (s.set j none .put) := by
  obtain ⟨resource, hresource⟩ := Option.isSome_iff_exists.mp hheld
  have hfull : full (s.past j) = true := (hs.full j).trans hheld
  have hpast : programs j (s.past j) := (hs.past j).resolve_left fun hnil => by
    rw [hnil] at hfull
    cases hfull
  refine ⟨resource, ?_⟩
  simp only [State.step]
  rw [if_pos ⟨trivial, hfair.finishes j _ hj hpast hfull⟩, hresource, slotStep, if_pos rfl]
  rfl

/-- While there are more resources than keepers, there is room, or someone else
puts one back.  The induction is on the number of these. -/
theorem exists_served (hfair : programs.Fair keeps) (hmax : (keepersBesides keeps i).card < max)
    (hs : Ok programs s) (hi : s.asking i = true) :
    ∃ as t, (∀ a ∈ as, Action.Calm keeps a) ∧ (system programs max).after s as = some t ∧
      (t.held i).isSome = true := by
  induction hn : (s.holders.filter fun j => keeps j = false).card using Nat.strong_induction_on
    generalizing s with
  | h n ih =>
      obtain ⟨hheld, hgoes⟩ := hs.asking i hi
      by_cases hroom : s.holders.card < max
      · obtain ⟨resource, hgiven⟩ := exists_given hi hheld hgoes hroom
        refine ⟨[.pass i (.given resource)], s.set i (some resource) .given, ?_, ?_, by simp⟩
        · intro a ha
          rw [List.mem_singleton.mp ha]
          trivial
        · exact Option.bind_eq_some_iff.mpr ⟨_, hgiven, rfl⟩
      · -- The holders are not all keepers: one of them finishes what it does.
        obtain ⟨j, hj, hjk⟩ :=
          Finset.exists_mem_notMem_of_card_lt_card (hmax.trans_le (not_lt.mp hroom))
        have hholds := mem_holders.mp hj
        have hji : j ≠ i := by
          rintro rfl
          rw [hheld] at hholds
          cases hholds
        have hcaller : keeps j = false := by
          simpa [keepersBesides, hji] using hjk
        obtain ⟨resource, hput⟩ := exists_put max hfair hs hcaller hholds
        have hless :
            ((s.set j none .put).holders.filter fun k => keeps k = false).card < n := by
          rw [holders_set_none, Finset.filter_erase, ← hn]
          exact Finset.card_erase_lt_of_mem (Finset.mem_filter.mpr ⟨hj, hcaller⟩)
        have hasking : (s.set j none .put).asking i = true :=
          (asking_set_of_ne hji.symm none .put).trans hi
        obtain ⟨as, t, hcalm, hafter, hserved⟩ := ih _ hless (hs.step hput) hasking rfl
        refine ⟨.pass j (.put resource) :: as, t, ?_, ?_, hserved⟩
        · intro a ha
          rcases List.mem_cons.mp ha with rfl | ha
          · exact hcaller
          · exact hcalm a ha
        · exact Option.bind_eq_some_iff.mpr ⟨_, hput, hafter⟩

/-! ## Too few -/

/-- The pool can be brought to have given one resource to each user of a set, if
it has as many; the others have done nothing. -/
theorem exists_holders (hfair : programs.Fair keeps) (S : Finset ι) (hS : S.card ≤ max) :
    ∃ as s, (system programs max).after (system programs max).init as = some s ∧ s.holders = S ∧
      (∀ i, s.asking i = false) ∧ ∀ i ∉ S, s.past i = [] := by
  induction S using Finset.induction_on with
  | empty => exact ⟨[], _, rfl, by ext i; simp [mem_holders, system], fun _ => rfl, fun _ _ => rfl⟩
  | insert j S hj ih =>
      rw [Finset.card_insert_of_notMem hj] at hS
      obtain ⟨as, s, hafter, hholders, hasking, hpast⟩ := ih (Nat.le_of_succ_le hS)
      have hheld : s.held j = none := by
        rw [← hholders, mem_holders, Bool.not_eq_true, Option.isSome_eq_false_iff,
          Option.isNone_iff_eq_none] at hj
        exact hj
      have hgoes : programs j (s.past j ++ [.given]) := by
        rw [hpast j hj]
        exact hfair.starts j
      have hasks : (s.ask j).asking j = true := Function.update_self ..
      have hroom : (s.ask j).holders.card < max := by
        show s.holders.card < max
        rw [hholders]
        omega
      obtain ⟨resource, hgiven⟩ := exists_given hasks hheld hgoes hroom
      refine ⟨as ++ [.ask j, .pass j (.given resource)], (s.ask j).set j (some resource) .given,
        ?_, ?_, fun i => ?_, fun i hi => ?_⟩
      · rw [StepSystem.after_append, hafter]
        exact (Option.bind_some _ _).trans (Option.bind_eq_some_iff.mpr
          ⟨_, step_ask max hheld (hasking j) hgoes, Option.bind_eq_some_iff.mpr
            ⟨_, hgiven, rfl⟩⟩)
      · rw [holders_set_some]
        exact congrArg (insert j) hholders
      · by_cases hij : i = j
        · exact hij ▸ Function.update_self ..
        · exact (Function.update_of_ne hij ..).trans
            ((Function.update_of_ne hij ..).trans (hasking i))
      · rw [Finset.mem_insert, not_or] at hi
        exact (past_set_of_ne hi.1 _ _).trans (hpast i hi.2)

/-- Keepers that have all there is leave nothing for `i`. -/
theorem held_eq_none_of_full {S : Finset ι} (hS : max ≤ S.card) (hkeeps : ∀ k ∈ S, keeps k = true)
    {as : List (Action ι)} (hcalm : ∀ a ∈ as, Action.Calm keeps a)
    (hafter : (system programs max).after s as = some t) (hfull : S ⊆ s.holders)
    (hi : s.held i = none) : t.held i = none := by
  induction as generalizing s with
  | nil => exact Option.some_inj.mp hafter ▸ hi
  | cons a as ih =>
      obtain ⟨u, hstep, hafter⟩ := Option.bind_eq_some_iff.mp hafter
      have hrest := ih (s := u) (fun a ha => hcalm a (List.mem_cons_of_mem _ ha)) hafter
      rcases step_cases hstep with
        ⟨j, -, -, -, rfl⟩ | ⟨j, event, held, rfl, hallows, -, hslot, rfl⟩
      · exact hrest hfull hi
      · cases event with
        | given resource =>
            have hroom := hallows.2.1
            exact absurd (Finset.card_le_card hfull) (by omega)
        | put resource =>
            have hcaller : keeps j = false := hcalm _ List.mem_cons_self
            have hnone : held = none := by
              cases hj : s.held j with
              | none => rw [hj] at hslot; cases hslot
              | some c =>
                  rw [hj, slotStep] at hslot
                  split_ifs at hslot
                  exact (Option.some_inj.mp hslot).symm
            subst hnone
            refine hrest ?_ ?_
            · rw [holders_set_none]
              refine Finset.subset_erase.mpr ⟨hfull, fun hj => ?_⟩
              rw [hkeeps j hj] at hcaller
              cases hcaller
            · by_cases hij : i = j
              · exact hij ▸ held_set_self ..
              · rw [held_set_of_ne hij, hi]
        | refused =>
            cases hj : s.held j with
            | some c => rw [hj] at hslot; cases hslot
            | none =>
                rw [hj] at hslot
                cases hslot
                refine hrest ?_ ?_
                · rw [holders_set_none]
                  refine Finset.subset_erase.mpr ⟨hfull, fun hmem => ?_⟩
                  have hsome := mem_holders.mp (hfull hmem)
                  rw [hj] at hsome
                  cases hsome
                · by_cases hij : i = j
                  · exact hij ▸ held_set_self ..
                  · rw [held_set_of_ne hij, hi]

/-- **The condition**: more resources than other keepers. -/
theorem serves_iff (hfair : programs.Fair keeps) (max : ℕ) (i : ι) :
    Serves programs max keeps i ↔ (keepersBesides keeps i).card < max := by
  constructor
  · intro hserves
    by_contra hmax
    obtain ⟨S, hsub, hcard⟩ := Finset.exists_subset_card_eq (not_lt.mp hmax)
    obtain ⟨as, s, hafter, hholders, hasking, hpast⟩ := exists_holders hfair S hcard.le
    have hnotMem : i ∉ S := fun hi => by simpa [keepersBesides] using hsub hi
    have hheld : s.held i = none := by
      rw [← hholders, mem_holders, Bool.not_eq_true, Option.isSome_eq_false_iff,
        Option.isNone_iff_eq_none] at hnotMem
      exact hnotMem
    have hgoes : programs i (s.past i ++ [.given]) := by
      rw [hpast i hnotMem]
      exact hfair.starts i
    have hreach : (system programs max).Reachable (s.ask i) := by
      refine ⟨as ++ [.ask i], StepSystem.mem_visitedFrom_of_after ?_⟩
      rw [StepSystem.after_append, hafter]
      exact (Option.bind_some _ _).trans (Option.bind_eq_some_iff.mpr
        ⟨_, step_ask max hheld (hasking i) hgoes, rfl⟩)
    obtain ⟨bs, t, hcalm, hserved, hsome⟩ := hserves _ hreach (Function.update_self ..)
    have hnone := held_eq_none_of_full hcard.ge
      (fun k hk => (Finset.mem_filter.mp (hsub hk)).2.1) hcalm hserved hholders.ge hheld
    rw [hnone] at hsome
    cases hsome
  · intro hmax s hreach hi
    exact exists_served hfair hmax (ok_of_reachable hreach) hi

end Members

end SharedPool
