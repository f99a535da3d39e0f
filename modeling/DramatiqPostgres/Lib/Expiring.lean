import Mathlib.Order.Lattice

/-!
# Maps whose entries expire

A store that keeps each entry up to a deadline may forget an entry at any time
after it: whoever looks at the entries that are live cannot tell.
`Forgets now m full` says that `m` is `full` but for entries that had expired by
`now`.  Puts on both sides keep it (`Forgets.put`), removing what has expired
brings about no more than it (`Forgets.sweep`), and at `now` or later the two
maps have the same live entries (`Forgets.lookup_eq`).

Before `now` the smaller map may miss an entry, but what it has is right
(`Forgets.of_lookup`), and what it misses has expired by `now`
(`Forgets.of_lookup_none`).  Readers whose clock stands still while others sweep
are in that position.

### Why a relation and not a function

What a store has forgotten depends on when it was swept, which its readers do
not know.  `full`, the map of all puts, is what the readers are promised; the
relation says that sweeping, however often and whenever, keeps the promise.  The
time in it only grows (`Forgets.mono`), so a run of puts and sweeps keeps one
invariant with the time of its last sweep.
-/

universe u v w

/-- A map from keys to values, each with the time up to which it is live, if
any. -/
abbrev Expiring (κ : Type u) (ν : Type v) (τ : Type w) := κ → Option (ν × Option τ)

namespace Expiring

variable {κ : Type u} {ν : Type v} {τ : Type w}

/-- No entry. -/
def empty : Expiring κ ν τ := fun _ => none

section Puts

variable [DecidableEq κ]

/-- Set the entry of a key. -/
def put (k : κ) (entry : ν × Option τ) (m : Expiring κ ν τ) : Expiring κ ν τ :=
  Function.update m k (some entry)

/-- The map after a sequence of puts, oldest first. -/
def ofPuts (puts : List (κ × ν × Option τ)) : Expiring κ ν τ :=
  puts.foldl (fun m p => m.put p.1 p.2) empty

@[simp] theorem put_self (k : κ) (entry : ν × Option τ) (m : Expiring κ ν τ) :
    m.put k entry k = some entry := Function.update_self ..

theorem put_of_ne {k key : κ} (h : k ≠ key) (entry : ν × Option τ) (m : Expiring κ ν τ) :
    m.put key entry k = m k := Function.update_of_ne h ..

theorem ofPuts_concat (puts : List (κ × ν × Option τ)) (k : κ) (entry : ν × Option τ) :
    ofPuts (puts ++ [(k, entry)]) = (ofPuts puts).put k entry := by
  simp [ofPuts]

end Puts

variable [LinearOrder τ]

/-- An entry is live strictly before its deadline; one without a deadline is
always live. -/
def isLive (now : τ) (entry : ν × Option τ) : Bool := entry.2.all fun t => now < t

/-- The live entry of a key. -/
def lookup (now : τ) (m : Expiring κ ν τ) (k : κ) : Option ν :=
  ((m k).filter (isLive now)).map Prod.fst

/-- Remove what has expired. -/
def sweep (now : τ) (m : Expiring κ ν τ) : Expiring κ ν τ := fun k => (m k).filter (isLive now)

theorem isLive_mono {now later : τ} {entry : ν × Option τ} (h : isLive later entry = true)
    (hle : now ≤ later) : isLive now entry = true := by
  simp only [isLive, Option.all_eq_true, decide_eq_true_eq] at h ⊢
  exact fun t ht => hle.trans_lt (h t ht)

theorem lookup_eq_some_iff {now : τ} {m : Expiring κ ν τ} {k : κ} {v : ν} :
    m.lookup now k = some v ↔ ∃ deadline, m k = some (v, deadline) ∧ ∀ t ∈ deadline, now < t := by
  simp only [lookup, Option.map_eq_some_iff, Option.filter_eq_some_iff, isLive, Option.all_eq_true,
    decide_eq_true_eq]
  constructor
  · rintro ⟨⟨_, deadline⟩, ⟨hentry, hlive⟩, rfl⟩
    exact ⟨deadline, hentry, hlive⟩
  · rintro ⟨deadline, hentry, hlive⟩
    exact ⟨(v, deadline), ⟨hentry, hlive⟩, rfl⟩

theorem lookup_eq_none_iff {now : τ} {m : Expiring κ ν τ} {k : κ} :
    m.lookup now k = none ↔ ∀ entry ∈ m k, isLive now entry = false := by
  rw [lookup, Option.map_eq_none_iff, Option.filter_eq_none_iff]
  simp only [Bool.not_eq_true, Option.mem_def]

/-- What has expired stays expired. -/
theorem lookup_eq_none_of_le {now later : τ} {m : Expiring κ ν τ} {k : κ}
    (h : m.lookup now k = none) (hle : now ≤ later) : m.lookup later k = none := by
  refine lookup_eq_none_iff.mpr fun entry hentry => ?_
  have hdead := lookup_eq_none_iff.mp h entry hentry
  cases hlive : isLive later entry with
  | false => rfl
  | true => rw [isLive_mono hlive hle] at hdead; cases hdead

/-- `m` has the entries of `full`, but for some that had expired by `now`.  It
never has an entry that `full` has not. -/
def Forgets (now : τ) (m full : Expiring κ ν τ) : Prop :=
  ∀ k, m k = full k ∨ m k = none ∧ full.lookup now k = none

theorem Forgets.refl (now : τ) (m : Expiring κ ν τ) : Forgets now m m := fun _ => Or.inl rfl

namespace Forgets

variable {now later : τ} {m full : Expiring κ ν τ} {k : κ}

theorem mono (h : Forgets now m full) (hle : now ≤ later) : Forgets later m full := by
  intro k
  rcases h k with heq | ⟨hnone, hexpired⟩
  · exact Or.inl heq
  · exact Or.inr ⟨hnone, lookup_eq_none_of_le hexpired hle⟩

theorem put [DecidableEq κ] (h : Forgets now m full) (key : κ) (entry : ν × Option τ) :
    Forgets now (m.put key entry) (full.put key entry) := by
  intro k
  by_cases hk : k = key
  · subst hk
    left
    rw [put_self, put_self]
  · rw [lookup, put_of_ne hk, put_of_ne hk]
    exact h k

/-- Removing what has expired forgets no more. -/
theorem sweep {earlier : τ} (h : Forgets now m full) (hle : earlier ≤ now) :
    Forgets now (m.sweep earlier) full := by
  intro k
  rcases h k with heq | ⟨hnone, hexpired⟩
  · cases hlook : full.lookup earlier k with
    | some v =>
        obtain ⟨deadline, hentry, hlive⟩ := lookup_eq_some_iff.mp hlook
        left
        rw [Expiring.sweep, heq, hentry, Option.filter_some_pos]
        simpa [isLive, Option.all_eq_true] using hlive
    | none =>
        refine Or.inr ⟨?_, lookup_eq_none_of_le hlook hle⟩
        rw [Expiring.sweep, heq, Option.filter_eq_none_iff]
        simpa using lookup_eq_none_iff.mp hlook
  · exact Or.inr ⟨by rw [Expiring.sweep, hnone]; rfl, hexpired⟩

/-- **From `now` on the two maps look the same.** -/
theorem lookup_eq (h : Forgets now m full) (hle : now ≤ later) (k : κ) :
    m.lookup later k = full.lookup later k := by
  rcases (h.mono hle) k with heq | ⟨hnone, hexpired⟩
  · rw [lookup, lookup, heq]
  · rw [hexpired, lookup, hnone]
    rfl

/-- What is found is right, at any time. -/
theorem of_lookup {v : ν} {before : τ} (h : Forgets now m full)
    (hfound : m.lookup before k = some v) : full.lookup before k = some v := by
  rcases h k with heq | ⟨hnone, -⟩
  · rwa [lookup, ← heq]
  · rw [lookup, hnone] at hfound
    cases hfound

/-- What is not found has expired by `now`. -/
theorem of_lookup_none {before : τ} (h : Forgets now m full) (hle : before ≤ now)
    (hmissing : m.lookup before k = none) : full.lookup now k = none := by
  rcases h k with heq | ⟨-, hexpired⟩
  · rw [lookup, heq] at hmissing
    exact lookup_eq_none_of_le hmissing hle
  · exact hexpired

end Forgets

/-- **A sweep is complete**: it leaves the live entries of the map, and nothing
else, so that after it nothing of what was forgotten before matters. -/
theorem Forgets.sweep_eq {now : τ} {m full : Expiring κ ν τ} (h : Forgets now m full) :
    m.sweep now = full.sweep now := by
  funext k
  rcases h k with heq | ⟨hnone, hexpired⟩
  · rw [Expiring.sweep, Expiring.sweep, heq]
  · rw [Expiring.sweep, Expiring.sweep, hnone, eq_comm, Option.filter_eq_none_iff.mpr]
    · rfl
    · simpa using lookup_eq_none_iff.mp hexpired

end Expiring
