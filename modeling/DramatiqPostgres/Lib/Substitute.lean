import Mathlib.Data.List.Infix

/-!
# Substitution in texts

`substitute table text` reads a text from left to right.  Where a key of the
table begins, its value takes its place, and reading goes on behind the key; any
other symbol is copied.  A table with one entry replaces all occurrences of its
key, from the left, without overlaps.

Three rules say what a substitution does to a text that is given in pieces:

* a piece in which no key begins (`Free`) is copied
  (`substitute_append_of_free`);
* a key is replaced by its value (`substitute_append_of_entryAt`);
* an occurrence of a key lies behind a piece in which it does not begin
  (`Free.exists_of_append`).

`Free` speaks of a piece and of what comes after it, since an occurrence may
begin in the one and end in the other.  That is the point at which a template
can go wrong: a value that is put in, and what stands next to it, can make up a
key together.  Substituting all keys at once, as here, never reads a value
again, so it cannot happen; substituting one key after the other can.
-/

namespace Substitution

variable {α : Type*} [DecidableEq α]

/-! ## Definitions -/

/-- The first entry whose key begins the text. -/
def entryAt (table : List (List α × List α)) (text : List α) : Option (List α × List α) :=
  table.find? fun e => e.1.isPrefixOf text

/-- Substitution behind the next symbols, which belong to a key. -/
def substituteFrom (table : List (List α × List α)) : ℕ → List α → List α
  | _, [] => []
  | n + 1, _ :: cs => substituteFrom table n cs
  | 0, c :: cs =>
      match entryAt table (c :: cs) with
      | some e => e.2 ++ substituteFrom table (e.1.length - 1) cs
      | none => c :: substituteFrom table 0 cs

/-- Simultaneous substitution of the keys, none of which is empty, by their
values.  Where several keys begin, the first entry of the table counts. -/
def substitute (table : List (List α × List α)) (text : List α) : List α :=
  substituteFrom table 0 text

/-- Replacement of one key. -/
def replace (key value text : List α) : List α := substitute [(key, value)] text

/-- No occurrence of `key` in `xs ++ ys` begins in `xs`, be it that it ends in
`ys`. -/
def Free (key xs ys : List α) : Prop := ∀ a c b, xs = a ++ c :: b → ¬ key <+: c :: (b ++ ys)

/-! ## Pieces in which no key begins -/

omit [DecidableEq α] in
theorem free_nil (key ys : List α) : Free key [] ys := by
  intro a c b h
  cases a <;> cases h

omit [DecidableEq α] in
theorem Free.cons {key xs ys : List α} {c : α} (hc : ¬ key <+: c :: (xs ++ ys))
    (h : Free key xs ys) : Free key (c :: xs) ys := by
  intro a d b hsplit
  cases a with
  | nil =>
      cases hsplit
      exact hc
  | cons e a =>
      cases hsplit
      exact h a d b rfl

omit [DecidableEq α] in
/-- A key does not begin where its first symbol does not occur. -/
theorem free_of_not_mem {c : α} {xs : List α} (h : c ∉ xs) (key ys : List α) :
    Free (c :: key) xs ys := by
  intro a d b hsplit hpre
  obtain ⟨rfl, -⟩ := List.cons_prefix_cons.mp hpre
  exact h (hsplit ▸ List.mem_append_right a List.mem_cons_self)

omit [DecidableEq α] in
/-- An occurrence of a key lies behind a piece in which it does not begin. -/
theorem Free.exists_of_append {key xs ys before after : List α} (h : Free key xs ys)
    (hsplit : xs ++ ys = before ++ key ++ after) :
    ∃ rest, before = xs ++ rest ∧ ys = rest ++ key ++ after := by
  rw [List.append_assoc] at hsplit
  rcases List.append_eq_append_iff.mp hsplit with ⟨rest, hbefore, hys⟩ | ⟨rest, hxs, hkeyAfter⟩
  · exact ⟨rest, hbefore, by rw [hys, List.append_assoc]⟩
  · cases rest with
    | nil =>
        rw [List.append_nil] at hxs
        exact ⟨[], by rw [hxs, List.append_nil], hkeyAfter.symm⟩
    | cons c rest =>
        exact absurd ⟨after, hkeyAfter⟩ (h before c rest hxs)

/-! ## What a substitution does -/

variable {table : List (List α × List α)}

@[simp] theorem substitute_nil : substitute table [] = [] := rfl

theorem substituteFrom_length (xs ys : List α) :
    substituteFrom table xs.length (xs ++ ys) = substitute table ys := by
  induction xs with
  | nil => rfl
  | cons c xs ih => exact ih

/-- **A key is replaced by its value.** -/
theorem substitute_append_of_entryAt {key value ys : List α}
    (h : entryAt table (key ++ ys) = some (key, value)) (hkey : key ≠ []) :
    substitute table (key ++ ys) = value ++ substitute table ys := by
  cases key with
  | nil => exact absurd rfl hkey
  | cons c key =>
      rw [List.cons_append] at h ⊢
      rw [substitute, substituteFrom, h]
      exact congrArg (value ++ ·) (substituteFrom_length key ys)

/-- **A piece in which no key begins is copied.** -/
theorem substitute_append_of_free {xs ys : List α} (h : ∀ e ∈ table, Free e.1 xs ys) :
    substitute table (xs ++ ys) = xs ++ substitute table ys := by
  induction xs with
  | nil => rfl
  | cons c xs ih =>
      have hnone : entryAt table (c :: (xs ++ ys)) = none := by
        rw [entryAt, List.find?_eq_none]
        intro e he
        rw [List.isPrefixOf_iff_prefix]
        exact h e he [] c xs rfl
      rw [List.cons_append, substitute, substituteFrom, hnone]
      exact congrArg (c :: ·)
        (ih fun e he a d b hsplit => h e he (c :: a) d b (congrArg (c :: ·) hsplit))

end Substitution
