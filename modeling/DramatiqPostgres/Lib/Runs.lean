import Mathlib.Algebra.Ring.Nat
import Mathlib.Data.List.Basic

/-!
# Runs of a step system

A program whose steps interleave is modelled as a **partial step function**:
`step s a` is the state after the action `a`, and `none` where `a` cannot happen
in `s`.  A schedule is a list of actions, so a statement about every
interleaving is a statement about every list.

Four things are read off a schedule:

* `visitedFrom s as` — the states the run goes through, its first state
  included;
* `takenFrom s as` — the steps the run takes, each as the state it starts in and
  its action;
* `transitionsFrom s as` — the same steps, each with the state it leads to;
* `lastFrom s as` — the state it stops in.

### Two design decisions

**Schedules may be nonsense.**  A schedule stops at its first action that is not
enabled, so all four are total and computable, and a law about runs needs no
hypothesis that the schedule is a legal one.  What a law says of a schedule it
says of its enabled beginning; and as every beginning of a run is a run, nothing
is lost.

**Conditions are on steps.**  Many laws hold only of runs in which nobody does a
certain thing at the wrong moment.  Such a condition is a relation `C s a`
between the state a step starts in and its action, and the run meets it if all
of `taken` does.  It speaks of the state *before* the step; what comes out of
the step, the law says.

### The rules

`inv_of_mem_visitedFrom` is the rule for invariants: one kept by every step that
meets the side condition holds in every state of every run all of whose steps
meet it.  The unconditional rule is its instance at the trivial condition, and
`Reachable.inv` is that rule for states of which only some run is known.

A system that `Maps` to another inherits the laws of its runs: each of its runs
is carried to the run of its labels (`Maps.run`).  A step without a label leaves
the image where it is, so the system that maps may have more steps than its
image.

Laws that count are about a quantity `f` of the states: what a run adds to it
and takes from it, step by step, is what separates `f` at its two ends
(`add_sum_eq_of_transitionsFrom` and its inequality).
-/

universe u v w x

/-- An initial state and a partial step function.  Both are data: an
interleaving of given parties can be run, and a test of a model is a run of
it. -/
structure StepSystem (σ : Type u) (α : Type v) where
  /-- The state every run starts in. -/
  init : σ
  /-- The state after an action, `none` where the action is not enabled. -/
  step : σ → α → Option σ

namespace StepSystem

variable {σ : Type u} {α : Type v} (M : StepSystem σ α)

/-- The states a schedule goes through from `s`, up to its first action that is
not enabled.  The list is never empty: it begins with `s`. -/
def visitedFrom : σ → List α → List σ
  | s, [] => [s]
  | s, a :: as =>
      s :: match M.step s a with
        | some t => visitedFrom t as
        | none => []

/-- The steps a schedule takes from `s`: the state each starts in, and its
action.  This is what a condition on a run is about. -/
def takenFrom : σ → List α → List (σ × α)
  | _, [] => []
  | s, a :: as =>
      match M.step s a with
      | some t => (s, a) :: takenFrom t as
      | none => []

/-- The steps a schedule takes from `s`, each with the state it leads to.  This
is what a law that counts is about. -/
def transitionsFrom : σ → List α → List (σ × α × σ)
  | _, [] => []
  | s, a :: as =>
      match M.step s a with
      | some t => (s, a, t) :: transitionsFrom t as
      | none => []

/-- The state in which a schedule from `s` stops. -/
def lastFrom : σ → List α → σ
  | s, [] => s
  | s, a :: as =>
      match M.step s a with
      | some t => lastFrom t as
      | none => s

/-- The states a schedule goes through from the initial state. -/
def visited (as : List α) : List σ := M.visitedFrom M.init as

/-- The steps a schedule takes from the initial state. -/
def taken (as : List α) : List (σ × α) := M.takenFrom M.init as

/-- The transitions of a schedule from the initial state. -/
def transitions (as : List α) : List (σ × α × σ) := M.transitionsFrom M.init as

/-- The state in which a schedule from the initial state stops. -/
def last (as : List α) : σ := M.lastFrom M.init as

/-- The state after a schedule from `s`, all of whose actions are enabled. -/
def after : σ → List α → Option σ
  | s, [] => some s
  | s, a :: as => (M.step s a).bind fun t => after t as

/-- Some schedule goes through `s`. -/
def Reachable (s : σ) : Prop := ∃ as, s ∈ M.visited as

variable {M}

theorem mem_visitedFrom_self (s : σ) (as : List α) : s ∈ M.visitedFrom s as := by
  cases as <;> simp [visitedFrom]

theorem visitedFrom_cons_of_step {s t : σ} {a : α} (h : M.step s a = some t) (as : List α) :
    M.visitedFrom s (a :: as) = s :: M.visitedFrom t as := by
  simp [visitedFrom, h]

theorem takenFrom_cons_of_step {s t : σ} {a : α} (h : M.step s a = some t) (as : List α) :
    M.takenFrom s (a :: as) = (s, a) :: M.takenFrom t as := by
  simp [takenFrom, h]

theorem mem_visitedFrom_of_after {as : List α} {s t : σ} (h : M.after s as = some t) :
    t ∈ M.visitedFrom s as := by
  induction as generalizing s with
  | nil =>
      rw [after, Option.some_inj] at h
      exact h ▸ mem_visitedFrom_self s []
  | cons a as ih =>
      obtain ⟨u, hstep, h⟩ := Option.bind_eq_some_iff.mp h
      rw [visitedFrom_cons_of_step hstep]
      exact List.mem_cons_of_mem _ (ih h)

theorem after_append (as bs : List α) (s : σ) :
    M.after s (as ++ bs) = (M.after s as).bind fun t => M.after t bs := by
  induction as generalizing s with
  | nil => rfl
  | cons a as ih => simp only [List.cons_append, after, Option.bind_assoc, ih]

/-- The steps after a schedule that goes through are steps of the whole. -/
theorem mem_takenFrom_append {as bs : List α} {s t : σ} {p : σ × α} (hs : M.after s as = some t)
    (hp : p ∈ M.takenFrom t bs) : p ∈ M.takenFrom s (as ++ bs) := by
  induction as generalizing s with
  | nil =>
      rw [after, Option.some_inj] at hs
      exact hs ▸ hp
  | cons a as ih =>
      obtain ⟨u, hstep, hu⟩ := Option.bind_eq_some_iff.mp hs
      rw [List.cons_append, takenFrom_cons_of_step hstep]
      exact List.mem_cons_of_mem _ (ih hu)

/-- So are the steps of its beginning. -/
theorem mem_takenFrom_append_left {as bs : List α} {s : σ} {p : σ × α}
    (hp : p ∈ M.takenFrom s as) : p ∈ M.takenFrom s (as ++ bs) := by
  induction as generalizing s with
  | nil => cases hp
  | cons a as ih =>
      cases hstep : M.step s a with
      | none => simp [takenFrom, hstep] at hp
      | some t =>
          rw [takenFrom_cons_of_step hstep] at hp
          rw [List.cons_append, takenFrom_cons_of_step hstep]
          exact (List.mem_cons.mp hp).elim (fun heq => heq ▸ List.mem_cons_self)
            fun hp => List.mem_cons_of_mem _ (ih hp)

theorem step_of_after_concat {as : List α} {a : α} {s t u : σ} (hs : M.after s as = some t)
    (h : M.after s (as ++ [a]) = some u) : M.step t a = some u := by
  induction as generalizing s with
  | nil =>
      rw [after, Option.some_inj] at hs
      subst hs
      obtain ⟨v, hstep, hv⟩ := Option.bind_eq_some_iff.mp h
      rw [hstep]
      exact hv
  | cons b as ih =>
      obtain ⟨v, hstep, hs⟩ := Option.bind_eq_some_iff.mp hs
      obtain ⟨w, hstep', h⟩ := Option.bind_eq_some_iff.mp h
      rw [hstep, Option.some_inj] at hstep'
      exact ih hs (hstep' ▸ h)

/-- **A taken step lies inside its run**: it starts in a visited state, it is
enabled there, and the state it leads to is visited as well.  With it an
invariant is at hand wherever a condition on the steps is to be shown. -/
theorem exists_step_of_mem_takenFrom :
    ∀ {as : List α} {s : σ} {p : σ × α}, p ∈ M.takenFrom s as →
      p.1 ∈ M.visitedFrom s as ∧ ∃ t, M.step p.1 p.2 = some t ∧ t ∈ M.visitedFrom s as := by
  intro as
  induction as with
  | nil => intro s p h; simp [takenFrom] at h
  | cons a as ih =>
      intro s p h
      cases hstep : M.step s a with
      | none => simp [takenFrom, hstep] at h
      | some t =>
          rw [takenFrom_cons_of_step hstep, List.mem_cons] at h
          rw [visitedFrom_cons_of_step hstep]
          rcases h with rfl | h
          · exact ⟨List.mem_cons_self, t, hstep,
              List.mem_cons_of_mem _ (mem_visitedFrom_self t as)⟩
          · obtain ⟨hpre, u, hu, hpost⟩ := ih h
            exact ⟨List.mem_cons_of_mem _ hpre, u, hu, List.mem_cons_of_mem _ hpost⟩

/-- A step of a run is its first, or one of the rest. -/
theorem cases_of_mem_takenFrom {s : σ} {a : α} {as : List α} {p : σ × α}
    (h : p ∈ M.takenFrom s (a :: as)) :
    p = (s, a) ∨ ∃ t, M.step s a = some t ∧ p ∈ M.takenFrom t as := by
  cases hstep : M.step s a with
  | none => simp [takenFrom, hstep] at h
  | some t =>
      rw [takenFrom_cons_of_step hstep, List.mem_cons] at h
      exact h.imp id fun h => ⟨t, rfl, h⟩

/-- The actions of a run are those of its schedule. -/
theorem snd_mem_of_mem_takenFrom {as : List α} {s : σ} {p : σ × α} (h : p ∈ M.takenFrom s as) :
    p.2 ∈ as := by
  induction as generalizing s with
  | nil => exact absurd h List.not_mem_nil
  | cons a as ih =>
      rcases cases_of_mem_takenFrom h with rfl | ⟨t, -, h⟩
      · exact List.mem_cons_self
      · exact List.mem_cons_of_mem _ (ih h)

/-- **Invariants of conditioned runs.**  An invariant that holds at the start
and is kept by every step meeting the condition `C` holds in every state of a
run whose steps all meet `C`.  The induction is on the schedule, with the state
it starts from general; nothing is asked of the actions behind the first that is
not enabled. -/
theorem inv_of_mem_visitedFrom {I : σ → Prop} {C : σ → α → Prop}
    (keep : ∀ s a t, I s → C s a → M.step s a = some t → I t) :
    ∀ {as : List α} {s : σ}, I s → (∀ p ∈ M.takenFrom s as, C p.1 p.2) →
      ∀ u ∈ M.visitedFrom s as, I u := by
  intro as
  induction as with
  | nil =>
      intro s hs _ u hu
      rw [visitedFrom, List.mem_singleton] at hu
      exact hu ▸ hs
  | cons a as ih =>
      intro s hs hC u hu
      cases hstep : M.step s a with
      | none =>
          simp only [visitedFrom, hstep, List.mem_singleton] at hu
          exact hu ▸ hs
      | some t =>
          rw [takenFrom_cons_of_step hstep] at hC
          rw [visitedFrom_cons_of_step hstep, List.mem_cons] at hu
          have hCa : C s a := hC (s, a) List.mem_cons_self
          rcases hu with rfl | hu
          · exact hs
          · exact ih (keep s a t hs hCa hstep)
              (fun p hp => hC p (List.mem_cons_of_mem _ hp)) u hu

/-- The same rule for runs from the initial state, at the states its steps start
in. -/
theorem inv_of_mem_taken {I : σ → Prop} {C : σ → α → Prop} (hinit : I M.init)
    (keep : ∀ s a t, I s → C s a → M.step s a = some t → I t) {as : List α}
    (hC : ∀ p ∈ M.taken as, C p.1 p.2) {p : σ × α} (hp : p ∈ M.taken as) : I p.1 :=
  inv_of_mem_visitedFrom keep hinit hC p.1 (exists_step_of_mem_takenFrom hp).1

/-- The invariant rule without a side condition. -/
theorem inv_of_mem_visited {I : σ → Prop} (hinit : I M.init)
    (keep : ∀ s a t, I s → M.step s a = some t → I t) {as : List α} {u : σ}
    (hu : u ∈ M.visited as) : I u :=
  inv_of_mem_visitedFrom (C := fun _ _ => True) (fun s a t hs _ => keep s a t hs) hinit
    (fun _ _ => trivial) u hu

/-- **An inductive invariant holds in every reachable state.** -/
theorem Reachable.inv {I : σ → Prop} (hinit : I M.init)
    (keep : ∀ s a t, I s → M.step s a = some t → I t) {s : σ} (h : M.Reachable s) : I s := by
  obtain ⟨as, hs⟩ := h
  exact inv_of_mem_visited hinit keep hs

/-! ## Transitions -/

theorem transitionsFrom_cons_of_step {s t : σ} {a : α} (h : M.step s a = some t) (as : List α) :
    M.transitionsFrom s (a :: as) = (s, a, t) :: M.transitionsFrom t as := by
  simp [transitionsFrom, h]

theorem lastFrom_cons_of_step {s t : σ} {a : α} (h : M.step s a = some t) (as : List α) :
    M.lastFrom s (a :: as) = M.lastFrom t as := by
  simp [lastFrom, h]

/-- A run goes through the state it stops in. -/
theorem lastFrom_mem_visitedFrom (s : σ) (as : List α) : M.lastFrom s as ∈ M.visitedFrom s as := by
  induction as generalizing s with
  | nil => exact mem_visitedFrom_self s []
  | cons a as ih =>
      cases hstep : M.step s a with
      | none =>
          rw [lastFrom, hstep]
          exact mem_visitedFrom_self s (a :: as)
      | some t =>
          rw [lastFrom_cons_of_step hstep, visitedFrom_cons_of_step hstep]
          exact List.mem_cons_of_mem _ (ih t)

/-- The steps of a run are its transitions. -/
theorem takenFrom_eq_map (s : σ) (as : List α) :
    M.takenFrom s as = (M.transitionsFrom s as).map fun m => (m.1, m.2.1) := by
  induction as generalizing s with
  | nil => rfl
  | cons a as ih =>
      cases hstep : M.step s a with
      | none => simp [takenFrom, transitionsFrom, hstep]
      | some t =>
          rw [takenFrom_cons_of_step hstep, transitionsFrom_cons_of_step hstep, ih, List.map_cons]

/-- **A transition is a step between two visited states.** -/
theorem step_of_mem_transitionsFrom :
    ∀ {as : List α} {s : σ} {p : σ × α × σ}, p ∈ M.transitionsFrom s as →
      M.step p.1 p.2.1 = some p.2.2 ∧ p.1 ∈ M.visitedFrom s as ∧ p.2.2 ∈ M.visitedFrom s as := by
  intro as
  induction as with
  | nil => intro s p h; simp [transitionsFrom] at h
  | cons a as ih =>
      intro s p h
      cases hstep : M.step s a with
      | none => simp [transitionsFrom, hstep] at h
      | some t =>
          rw [transitionsFrom_cons_of_step hstep, List.mem_cons] at h
          rw [visitedFrom_cons_of_step hstep]
          rcases h with rfl | h
          · exact ⟨hstep, List.mem_cons_self, List.mem_cons_of_mem _ (mem_visitedFrom_self t as)⟩
          · obtain ⟨hp, hpre, hpost⟩ := ih h
            exact ⟨hp, List.mem_cons_of_mem _ hpre, List.mem_cons_of_mem _ hpost⟩

/-! ## Maps between systems -/

section Maps

variable {τ : Type w} {β : Type x} {N : StepSystem τ β} {view : σ → τ} {label : σ → α → Option β}

/-- The state after an action, or without one. -/
def stepOrStay (N : StepSystem τ β) (u : τ) : Option β → Option τ
  | some b => N.step u b
  | none => some u

/-- `view` carries `M` into `N`: a step of `M` is the step of `N` that `label`
names, and one without a label leaves the view alone.  Only steps from reachable
states count, so an invariant of `M` may be used to show it. -/
structure Maps (M : StepSystem σ α) (N : StepSystem τ β) (view : σ → τ)
    (label : σ → α → Option β) : Prop where
  init : view M.init = N.init
  step : ∀ s a t, M.Reachable s → M.step s a = some t →
    N.stepOrStay (view s) (label s a) = some (view t)

/-- The schedule of the labels. -/
def labelsFrom (M : StepSystem σ α) (label : σ → α → Option β) (s : σ) (as : List α) : List β :=
  (M.takenFrom s as).filterMap fun p => label p.1 p.2

theorem labelsFrom_cons_of_step {s t : σ} {a : α} (h : M.step s a = some t) (as : List α) :
    M.labelsFrom label s (a :: as) = (label s a).toList ++ M.labelsFrom label t as := by
  rw [labelsFrom, takenFrom_cons_of_step h]
  cases hlabel : label s a with
  | none => exact List.filterMap_cons_none hlabel
  | some b => exact List.filterMap_cons_some hlabel

/-- **A run is carried to the run of its labels**, step by step, and stops where
the image of the run stops.  So a law of the runs of `N` is one of the runs of
`M`, read through `view`. -/
theorem Maps.run_from (h : M.Maps N view label) :
    ∀ {as : List α} {s : σ}, (∀ p ∈ M.transitionsFrom s as, M.Reachable p.1) →
      N.takenFrom (view s) (M.labelsFrom label s as) =
          (M.takenFrom s as).filterMap (fun p => (label p.1 p.2).map fun b => (view p.1, b)) ∧
        N.lastFrom (view s) (M.labelsFrom label s as) = view (M.lastFrom s as) := by
  intro as
  induction as with
  | nil => exact fun _ => ⟨rfl, rfl⟩
  | cons a as ih =>
      intro s hreach
      cases hstep : M.step s a with
      | none =>
          rw [labelsFrom, takenFrom, lastFrom, hstep]
          exact ⟨rfl, rfl⟩
      | some t =>
          rw [transitionsFrom_cons_of_step hstep] at hreach
          have hs : M.Reachable s := hreach _ List.mem_cons_self
          obtain ⟨htaken, hlast⟩ := ih fun p hp => hreach p (List.mem_cons_of_mem _ hp)
          rw [labelsFrom_cons_of_step hstep, takenFrom_cons_of_step hstep,
            lastFrom_cons_of_step hstep]
          have hview := h.step s a t hs hstep
          cases hlabel : label s a with
          | none =>
              rw [hlabel, stepOrStay, Option.some_inj] at hview
              rw [List.filterMap_cons_none (by rw [hlabel]; rfl), hview]
              exact ⟨htaken, hlast⟩
          | some b =>
              have hmove : N.step (view s) b = some (view t) := by rwa [hlabel] at hview
              rw [List.filterMap_cons_some (by rw [hlabel]; rfl), Option.toList_some,
                List.singleton_append, takenFrom_cons_of_step hmove, lastFrom_cons_of_step hmove,
                htaken]
              exact ⟨rfl, hlast⟩

theorem Maps.run (h : M.Maps N view label) (as : List α) :
    N.taken (M.labelsFrom label M.init as) =
        (M.taken as).filterMap (fun p => (label p.1 p.2).map fun b => (view p.1, b)) ∧
      N.last (M.labelsFrom label M.init as) = view (M.last as) := by
  have hrun := h.run_from fun p hp => ⟨as, (step_of_mem_transitionsFrom hp).2.1⟩
  rw [h.init] at hrun
  exact hrun

end Maps

/-! ## Quantities along a run -/

section Quantities

variable {f : σ → ℕ} {gained lost : σ × α × σ → ℕ}

/-- **Balance.**  Where every transition adds `gained` to a quantity and takes
`lost` from it, so does the run in total. -/
theorem add_sum_eq_of_transitionsFrom :
    ∀ {as : List α} {s : σ},
      (∀ p ∈ M.transitionsFrom s as, f p.2.2 + lost p = f p.1 + gained p) →
      f (M.lastFrom s as) + ((M.transitionsFrom s as).map lost).sum =
        f s + ((M.transitionsFrom s as).map gained).sum := by
  intro as
  induction as with
  | nil => intro s _; simp [transitionsFrom, lastFrom]
  | cons a as ih =>
      intro s h
      cases hstep : M.step s a with
      | none => simp [transitionsFrom, lastFrom, hstep]
      | some t =>
          rw [transitionsFrom_cons_of_step hstep] at h
          rw [transitionsFrom_cons_of_step hstep, lastFrom_cons_of_step hstep]
          have hfirst : f t + lost (s, a, t) = f s + gained (s, a, t) := h _ List.mem_cons_self
          have hrest := ih fun p hp => h p (List.mem_cons_of_mem _ hp)
          simp only [List.map_cons, List.sum_cons]
          omega

/-- **Budget.**  A run takes no more from a quantity than was there and it has
added. -/
theorem add_sum_le_of_transitionsFrom :
    ∀ {as : List α} {s : σ},
      (∀ p ∈ M.transitionsFrom s as, f p.2.2 + lost p ≤ f p.1 + gained p) →
      f (M.lastFrom s as) + ((M.transitionsFrom s as).map lost).sum ≤
        f s + ((M.transitionsFrom s as).map gained).sum := by
  intro as
  induction as with
  | nil => intro s _; simp [transitionsFrom, lastFrom]
  | cons a as ih =>
      intro s h
      cases hstep : M.step s a with
      | none => simp [transitionsFrom, lastFrom, hstep]
      | some t =>
          rw [transitionsFrom_cons_of_step hstep] at h
          rw [transitionsFrom_cons_of_step hstep, lastFrom_cons_of_step hstep]
          have hfirst : f t + lost (s, a, t) ≤ f s + gained (s, a, t) := h _ List.mem_cons_self
          have hrest := ih fun p hp => h p (List.mem_cons_of_mem _ hp)
          simp only [List.map_cons, List.sum_cons]
          omega

end Quantities

end StepSystem
