import DramatiqPostgres.Lib.Dict
import Mathlib.Algebra.BigOperators.Group.List.Lemmas
import Mathlib.Algebra.Ring.Nat

/-!
# Counting by groups

`SELECT key, count(*) … GROUP BY key` answers one row for each key that occurs,
in an order of its own choosing (`Grouped`).  Whatever that order is, adding up
the groups whose key satisfies a predicate counts the rows whose key does
(`Grouped.sum_eq`), so a program may regroup them, as often as it likes, and
still count rows.

The law is stated for predicates because that is what regrouping needs: a
coarser group is the predicate that picks its members, and the total is the
predicate that is always true.  The last part is about a program that adds up
the counts in a dictionary as it reads them: an assignment replaces one summand,
and a default of zero adds none.
-/

universe u v

variable {α : Type u} {κ : Type v} [DecidableEq κ]

/-- The groups of a list, each with the number of its members. -/
def groupCount (key : α → κ) (rows : List α) : List (κ × ℕ) :=
  (rows.map key).dedup.map fun k => (k, (rows.map key).count k)

/-- An answer to `SELECT key, count(*) … GROUP BY key`: the groups of the rows,
in any order. -/
def Grouped (key : α → κ) (rows : List α) (groups : List (κ × ℕ)) : Prop :=
  groups.Perm (groupCount key rows)

instance (key : α → κ) (rows : List α) (groups : List (κ × ℕ)) :
    Decidable (Grouped key rows groups) :=
  inferInstanceAs (Decidable (groups.Perm (groupCount key rows)))

namespace Grouped

variable {key : α → κ} {rows : List α} {groups : List (κ × ℕ)}

/-- The members of the groups that satisfy a predicate. -/
theorem sum_eq (h : Grouped key rows groups) (p : κ → Bool) :
    ((groups.filter fun g => p g.1).map Prod.snd).sum = rows.countP fun r => p (key r) := by
  rw [((h.filter _).map _).sum_eq, groupCount, List.filter_map, List.map_map]
  have hcount := List.sum_map_count_dedup_filter_eq_countP p (rows.map key)
  rw [List.countP_map] at hcount
  exact hcount

theorem mem_keys_iff (h : Grouped key rows groups) (k : κ) :
    k ∈ groups.map Prod.fst ↔ ∃ r ∈ rows, key r = k := by
  rw [(h.map _).mem_iff, groupCount, List.map_map]
  simp

/-- Reading the answer as a dictionary, with zero for a key that does not
occur. -/
theorem get?_getD (h : Grouped key rows groups) (k : κ) :
    (Dict.get? k groups).getD 0 = rows.countP fun r => key r = k := by
  have hcount : rows.countP (fun r => key r = k) = (rows.map key).count k := by
    rw [List.count, List.countP_map]
    rfl
  rw [hcount]
  cases hget : Dict.get? k groups with
  | some n =>
      have hmem := h.mem_iff.mp (Dict.mem_of_get? hget)
      obtain ⟨k', -, heq⟩ := List.mem_map.mp hmem
      cases heq
      rfl
  | none =>
      rw [Dict.get?_eq_none_iff, h.mem_keys_iff] at hget
      refine (List.count_eq_zero.mpr fun hmem => hget ?_).symm
      simpa using hmem

end Grouped

/-! ## Sums in a dictionary -/

namespace Dict

variable {κ : Type u} {α : Type v} [DecidableEq κ]

/-- An assignment replaces one summand. -/
theorem sum_set {d : List (κ × α)} (hd : (d.map Prod.fst).Nodup) (f : α → ℕ) (key : κ) (value : α) :
    ((set key value d).map fun e => f e.2).sum + (get? key d).elim 0 f =
      (d.map fun e => f e.2).sum + f value := by
  induction d with
  | nil => simp [set, get?]
  | cons e d ih =>
      rw [List.map_cons, List.nodup_cons] at hd
      by_cases he : e.1 = key
      · subst he
        have hnone : get? e.1 d = none := get?_eq_none_iff.mpr hd.1
        simp only [set, get?, hnone, if_pos, Option.none_or, Option.elim_some, List.map_cons,
          List.sum_cons]
        omega
      · have hih := ih hd.2
        simp only [set, get?, if_neg he, Option.or_none, List.map_cons, List.sum_cons]
        omega

theorem sum_setDefault (f : α → ℕ) (key : κ) {value : α} (hvalue : f value = 0)
    (d : List (κ × α)) :
    ((setDefault key value d).map fun e => f e.2).sum = (d.map fun e => f e.2).sum := by
  rw [setDefault]
  split_ifs with hmem
  · rfl
  · simp [hvalue]

end Dict
