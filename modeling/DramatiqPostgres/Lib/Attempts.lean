import Mathlib

/-!
# Programs that raise, clean up and try again

A program that changes a state and returns a value or raises an error is an
`EStateM ε σ α`.  What an attempt changed before it raised stays changed:
nothing is rolled back.

Two control structures are missing from what `Std.Do` has rules for:

* `tryFinally x f` runs `f` after `x`, whether `x` returns or raises;
* `attempts again n x` runs `x`, and up to `n` times more while it raises an
  error that `again` accepts; the last error is the one it raises.

Both get a rule.  The invariant of `attempts_spec` is indexed by the number of
attempts that have failed, so that what an attempt costs is counted once.

### Two ways to speak of a program

**Triples** say what a program returns or raises and in which state, and its
parts are verified with the rules of `Std.Do`.  `triple_iff` turns a triple into
a statement about every run, which is where a law leaves the program logic.

**`Within R x`** is for facts where it does not matter what a program returns or
raises: `x` leads from a state to one related to it.  For a preorder `R` every
control structure keeps this, so a program is within `R` when its calls are; no
postcondition has to be found for any part of it.  A predicate that the program
keeps is the instance of the preorder `fun s t => I s → I t`.
-/

open Std.Do

set_option mvcgen.warning false

universe u

variable {ε σ α β : Type u}

/-- Run `x`, and again while it raises an error to be tried again, `n` times at
most.  The state is handed from one attempt to the next as the failed one left
it. -/
def attempts (again : ε → Bool) : ℕ → EStateM ε σ α → EStateM ε σ α
  | 0, x => x
  | n + 1, x => tryCatch x fun e => if again e then attempts again n x else throw e

namespace Attempts

/-- A triple, read as a statement about every run. -/
theorem triple_iff {P : σ → Prop} {x : EStateM ε σ α} {Q : α → σ → Prop} {R : ε → σ → Prop} :
    (⦃fun s => ⌜P s⌝⦄ x ⦃post⟨fun a s => ⌜Q a s⌝, fun e s => ⌜R e s⌝⟩⦄) ↔
      ∀ s, P s → match x.run s with
        | .ok a t => Q a t
        | .error e t => R e t := by
  rw [Triple.iff]
  refine forall_congr' fun s => imp_congr Iff.rfl ?_
  simp only [wp, PredTrans.apply]
  cases x.run s <;> exact Iff.rfl

/-- From what a program does in each state to what it does in all states of a
kind. -/
theorem triple_of_each {P : σ → Prop} {x : EStateM ε σ α} {Q : α → σ → Prop}
    {R : ε → σ → Prop} {Q₀ : σ → α → σ → Prop} {R₀ : σ → ε → σ → Prop}
    (h : ∀ s₀, ⦃fun s => ⌜s = s₀⌝⦄ x ⦃post⟨fun a s => ⌜Q₀ s₀ a s⌝, fun e s => ⌜R₀ s₀ e s⌝⟩⦄)
    (hQ : ∀ s a t, P s → Q₀ s a t → Q a t) (hR : ∀ s e t, P s → R₀ s e t → R e t) :
    ⦃fun s => ⌜P s⌝⦄ x ⦃post⟨fun a s => ⌜Q a s⌝, fun e s => ⌜R e s⌝⟩⦄ := by
  refine triple_iff.mpr fun s hs => ?_
  have hrun := triple_iff.mp (h s) s rfl
  cases hx : x.run s with
  | ok a t =>
      rw [hx] at hrun
      exact hQ s a t hs hrun
  | error e t =>
      rw [hx] at hrun
      exact hR s e t hs hrun

/-- What a handler starts from is the state in which the error was raised. -/
@[spec 2000]
theorem tryCatch_spec (x : EStateM ε σ α) (handler : ε → EStateM ε σ α)
    (Q : PostCond α (.except ε (.arg σ .pure))) :
    Triple (MonadExceptOf.tryCatch x handler)
      (fun s => wp⟦x⟧ (Q.1, fun e => wp⟦handler e⟧ Q, Q.2.2) s) Q := by
  simp only [Triple.iff, WP.tryCatch_EStateM]
  intro s h
  exact h

theorem run_tryCatch (x : EStateM ε σ α) (handler : ε → EStateM ε σ α) (s : σ) :
    (tryCatch x handler).run s =
      match x.run s with
      | .ok a t => .ok a t
      | .error e t => (handler e).run t := by
  show EStateM.tryCatch x handler s = _
  unfold EStateM.tryCatch EStateM.run
  cases x s <;> rfl

theorem run_tryFinally (x : EStateM ε σ α) (f : EStateM ε σ β) (s : σ) :
    (tryFinally x f).run s =
      match x.run s with
      | .ok a t =>
          match f.run t with
          | .ok _ u => .ok a u
          | .error e u => .error e u
      | .error e t =>
          match f.run t with
          | .ok _ u => .error e u
          | .error e u => .error e u := by
  simp only [tryFinally, tryFinally', Functor.map, EStateM.map, EStateM.run]
  cases x s with
  | ok a t => dsimp only; cases f t <;> rfl
  | error e t => dsimp only; cases f t <;> rfl

/-- An error of the finalizer takes the place of what the program returns or
raises; otherwise that is what comes out, in the state the finalizer leaves. -/
@[spec]
theorem tryFinally_spec (x : EStateM ε σ α) (f : EStateM ε σ β)
    (Q : PostCond α (.except ε (.arg σ .pure))) :
    Triple (tryFinally x f)
      (fun s => wp⟦x⟧ (fun a => wp⟦f⟧ (fun _ => Q.1 a, Q.2),
        fun e => wp⟦f⟧ (fun _ => Q.2.1 e, Q.2), PUnit.unit) s) Q := by
  intro s h
  simp only [wp, PredTrans.apply] at h ⊢
  rw [run_tryFinally]
  cases hx : x.run s with
  | ok a t | error a t =>
      simp only [hx] at h
      cases hf : f.run t <;> simp only [hf] at h ⊢ <;> exact h

/-- What `attempts_spec` is an induction on. -/
theorem attempts_from {I : ℕ → σ → Prop} {x : EStateM ε σ α} {again : ε → Bool}
    {Q : α → σ → Prop} {R : ε → σ → Prop} {n : ℕ}
    (h : ∀ k ≤ n, ⦃fun s => ⌜I k s⌝⦄ x
      ⦃post⟨fun a s => ⌜Q a s⌝,
        fun e s => ⌜(k < n → again e = true → I (k + 1) s) ∧
          (again e = true → k = n → R e s) ∧ (again e = false → R e s)⌝⟩⦄) :
    ⦃fun s => ⌜I 0 s⌝⦄ attempts again n x ⦃post⟨fun a s => ⌜Q a s⌝, fun e s => ⌜R e s⌝⟩⦄ := by
  induction n generalizing I with
  | zero =>
      have honly := h 0 le_rfl
      mvcgen [attempts, honly]
      · exact id
      · rename_i e s
        intro _ hlast hother
        cases hagain : again e with
        | true => exact hlast hagain
        | false => exact hother hagain
  | succ n ih =>
      have hfirst := h 0 n.succ.zero_le
      have hrest := ih (I := fun k => I (k + 1)) fun k hk => by
        simpa only [Nat.add_lt_add_iff_right, Nat.add_right_cancel_iff]
          using h (k + 1) (Nat.succ_le_succ hk)
      mvcgen [attempts, hfirst, hrest]
      · exact id
      · rename_i hagain s herror
        exact herror.1 n.succ_pos hagain
      · rename_i hagain s herror
        exact herror.2.2 (Bool.not_eq_true _ ▸ hagain)

/-- **Rule for repeated attempts.**  `I k` holds when `k` attempts have failed;
the errors that come out are those that are not tried again, and whatever the
last attempt raises. -/
theorem attempts_spec {P : σ → Prop} (I : ℕ → σ → Prop) {x : EStateM ε σ α} {again : ε → Bool}
    {Q : α → σ → Prop} {R : ε → σ → Prop} {n : ℕ} (hstart : ∀ s, P s → I 0 s)
    (h : ∀ k ≤ n, ⦃fun s => ⌜I k s⌝⦄ x
      ⦃post⟨fun a s => ⌜Q a s⌝,
        fun e s => ⌜(k < n → again e = true → I (k + 1) s) ∧
          (again e = true → k = n → R e s) ∧ (again e = false → R e s)⌝⟩⦄) :
    ⦃fun s => ⌜P s⌝⦄ attempts again n x ⦃post⟨fun a s => ⌜Q a s⌝, fun e s => ⌜R e s⌝⟩⦄ :=
  triple_iff.mpr fun s hs => triple_iff.mp (attempts_from h) s (hstart s hs)

/-! ## Programs within a preorder -/

/-- The state a run ends in. -/
def stateOf : EStateM.Result ε σ α → σ
  | .ok _ s => s
  | .error _ s => s

/-- Every run of the program ends in a state related to the one it starts in,
whether it returns or raises. -/
def Within (R : σ → σ → Prop) (x : EStateM ε σ α) : Prop := ∀ s, R s (stateOf (x.run s))

namespace Within

variable {R : σ → σ → Prop} {x : EStateM ε σ α}

theorem iff_triple :
    Within R x ↔
      ∀ s₀, ⦃fun s => ⌜s = s₀⌝⦄ x ⦃post⟨fun _ s => ⌜R s₀ s⌝, fun _ s => ⌜R s₀ s⌝⟩⦄ := by
  refine forall_congr' fun s => ?_
  rw [triple_iff, forall_eq]
  cases x.run s <;> exact Iff.rfl

theorem mono {S : σ → σ → Prop} (h : Within R x) (hRS : ∀ s t, R s t → S s t) : Within S x :=
  fun s => hRS s _ (h s)

theorem of_modify {f : σ → σ} (h : ∀ s, R s (f s)) :
    Within (ε := ε) R (modify f : EStateM ε σ PUnit) := h

variable [IsPreorder σ R]

theorem pure (a : α) : Within (ε := ε) R (Pure.pure a : EStateM ε σ α) := fun s => refl_of R s

theorem throw (e : ε) : Within (α := α) R (MonadExcept.throw e : EStateM ε σ α) :=
  fun s => refl_of R s

theorem get : Within (ε := ε) R (MonadState.get : EStateM ε σ σ) := fun s => refl_of R s

omit [IsPreorder σ R] in
/-- A program that reads the state first is looked at state by state. -/
theorem get_bind {f : σ → EStateM ε σ α} (h : ∀ s, R s (stateOf ((f s).run s))) :
    Within R (MonadState.get >>= f) := h

omit [IsPreorder σ R] in
theorem at_of_triple {s₀ : σ}
    (h : ⦃fun s => ⌜s = s₀⌝⦄ x ⦃post⟨fun _ s => ⌜R s₀ s⌝, fun _ s => ⌜R s₀ s⌝⟩⦄) :
    R s₀ (stateOf (x.run s₀)) := by
  have hrun := triple_iff.mp h s₀ rfl
  cases hx : x.run s₀ with
  | ok a t | error a t =>
      rw [hx] at hrun
      exact hrun

theorem bind {f : α → EStateM ε σ β} (h : Within R x) (hf : ∀ a, Within R (f a)) :
    Within R (x >>= f) := by
  intro s
  have hx := h s
  show R s (stateOf (EStateM.bind x f s))
  unfold EStateM.bind
  cases hrun : x s with
  | ok a t =>
      rw [EStateM.run, hrun] at hx
      exact trans_of R hx (hf a t)
  | error e t =>
      rw [EStateM.run, hrun] at hx
      exact hx

theorem tryCatch {handler : ε → EStateM ε σ α} (h : Within R x)
    (hhandler : ∀ e, Within R (handler e)) : Within R (MonadExcept.tryCatch x handler) := by
  intro s
  have hx := h s
  rw [run_tryCatch]
  cases hrun : x.run s with
  | ok a t =>
      rw [hrun] at hx
      exact hx
  | error e t =>
      rw [hrun] at hx
      exact trans_of R hx (hhandler e t)

theorem tryFinally {f : EStateM ε σ β} (h : Within R x) (hf : Within R f) :
    Within R (tryFinally x f) := by
  intro s
  have hx := h s
  rw [run_tryFinally]
  cases hrun : x.run s with
  | ok a t | error a t =>
      rw [hrun] at hx
      have hend := trans_of R hx (hf t)
      cases hfin : f.run t with
      | ok b u | error b u =>
          simp only [hfin] at hend ⊢
          exact hend

theorem attempts {again : ε → Bool} (h : Within R x) (n : ℕ) : Within R (attempts again n x) := by
  induction n with
  | zero => exact h
  | succ n ih =>
      refine tryCatch h fun e => ?_
      split_ifs
      · exact ih
      · exact throw e

theorem forM {f : α → EStateM ε σ PUnit} (hf : ∀ a, Within R (f a)) (as : List α) :
    Within R (as.forM f) := by
  induction as with
  | nil => exact pure _
  | cons a as ih => exact bind (hf a) fun _ => ih

end Within

end Attempts
