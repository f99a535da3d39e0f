import Mathlib.Data.List.Forall2
import Mathlib.Data.List.Nodup
import Mathlib.Data.List.Perm.Basic

/-!
# Mapping a partial function over a list

`xs.mapM f` is defined where `f` is defined on all of `xs`, and relates the two
lists item by item (`mapM_eq_some_iff`).  What a caller needs is mostly the
membership form: every result comes from an item, and every item has a result.

A loop that stops at the first item its function is not defined on goes through
`takeWhile`; what it leaves behind is said by `forall_mem_takeWhile_iff`, and it
depends on the order of the items.

An answer in another order than it was asked for is a list of places, read with
`mapM`.  That it is a permutation of the list, and when it is the list itself,
is said by `perm_of_mapM_getElem?` and `eq_iff_of_mapM_getElem?`.
-/

universe u v

namespace List

variable {α : Type u} {β : Type v} {f : α → Option β}

/-- Defined on the list is defined on every item: the two lists are related item
by item. -/
theorem mapM_eq_some_iff {xs : List α} {ys : List β} :
    xs.mapM f = some ys ↔ Forall₂ (fun x y => f x = some y) xs ys := by
  induction xs generalizing ys with
  | nil => simp [eq_comm]
  | cons x xs ih =>
      simp only [mapM_cons, Option.bind_eq_bind, Option.bind_eq_some_iff, Option.pure_def,
        Option.some_inj, forall₂_cons_left_iff]
      constructor
      · rintro ⟨y, hy, ys', hys, rfl⟩
        exact ⟨y, ys', hy, ih.mp hys, rfl⟩
      · rintro ⟨y, ys', hy, hys, rfl⟩
        exact ⟨y, hy, ys', ih.mpr hys, rfl⟩

/-- Every result comes from an item. -/
theorem exists_of_mem_mapM {xs : List α} {ys : List β} (h : xs.mapM f = some ys) {y : β}
    (hy : y ∈ ys) : ∃ x ∈ xs, f x = some y := by
  rw [mapM_eq_some_iff] at h
  induction h with
  | nil => simp at hy
  | cons hxy _ ih =>
      rcases mem_cons.mp hy with rfl | hy
      · exact ⟨_, mem_cons_self, hxy⟩
      · obtain ⟨x, hx, hfx⟩ := ih hy
        exact ⟨x, mem_cons_of_mem _ hx, hfx⟩

/-- Every item has a result. -/
theorem exists_mem_of_mapM {xs : List α} {ys : List β} (h : xs.mapM f = some ys) {x : α}
    (hx : x ∈ xs) : ∃ y ∈ ys, f x = some y := by
  rw [mapM_eq_some_iff] at h
  induction h with
  | nil => simp at hx
  | cons hxy _ ih =>
      rcases mem_cons.mp hx with rfl | hx
      · exact ⟨_, mem_cons_self, hxy⟩
      · obtain ⟨y, hy, hfx⟩ := ih hx
        exact ⟨y, mem_cons_of_mem _ hy, hfx⟩

/-- A function defined on every item is defined on the list. -/
theorem exists_mapM {xs : List α} (h : ∀ x ∈ xs, ∃ y, f x = some y) :
    ∃ ys, xs.mapM f = some ys := by
  induction xs with
  | nil => exact ⟨[], rfl⟩
  | cons x xs ih =>
      obtain ⟨y, hy⟩ := h x mem_cons_self
      obtain ⟨ys, hys⟩ := ih fun x' hx' => h x' (mem_cons_of_mem _ hx')
      exact ⟨y :: ys, by simp [mapM_cons, hy, hys]⟩

/-- What results and items have in common, item by item, the two lists have in
common. -/
theorem map_eq_map_of_mapM {γ : Type*} {g : β → γ} {k : α → γ}
    (hf : ∀ x y, f x = some y → g y = k x) {xs : List α} {ys : List β}
    (h : xs.mapM f = some ys) : ys.map g = xs.map k := by
  rw [mapM_eq_some_iff] at h
  induction h with
  | nil => rfl
  | cons hxy _ ih => rw [map_cons, map_cons, hf _ _ hxy, ih]

/-- Places of a list are places of its images, so a list of places can be read
before or after the items are mapped. -/
theorem mapM_getElem?_map {γ : Type*} {g : α → γ} {xs ys : List α} {order : List ℕ}
    (h : order.mapM (fun i => xs[i]?) = some ys) :
    order.mapM (fun i => (xs.map g)[i]?) = some (ys.map g) := by
  rw [mapM_eq_some_iff] at h ⊢
  induction h with
  | nil => exact .nil
  | cons hi _ ih => exact .cons (by rw [getElem?_map, hi, Option.map_some]) ih

/-- A permutation of the places of a list permutes the list. -/
theorem perm_of_mapM_getElem? {xs ys : List α} {order : List ℕ}
    (horder : order.Perm (range xs.length)) (h : order.mapM (fun i => xs[i]?) = some ys) :
    ys.Perm xs := by
  have hplaced : ys.map some = order.map (fun i => xs[i]?) :=
    map_eq_map_of_mapM (fun _ _ hi => hi.symm) h
  have hall : (range xs.length).map (fun i => xs[i]?) = xs.map some := by
    refine ext_getElem (by simp) fun i hi _ => ?_
    rw [length_map, length_range] at hi
    rw [getElem_map, getElem_map, getElem_range, getElem?_eq_getElem hi]
  refine (map_perm_map_iff fun _ _ => Option.some_inj.mp).mp ?_
  rw [hplaced, ← hall]
  exact horder.map _

/-- A permutation of the places of a list without repetition keeps the list only
if it keeps the places.  With repetitions it could exchange equal items. -/
theorem eq_iff_of_mapM_getElem? {xs ys : List α} {order : List ℕ} (hnodup : xs.Nodup)
    (horder : order.Perm (range xs.length)) (h : order.mapM (fun i => xs[i]?) = some ys) :
    ys = xs ↔ order = range xs.length := by
  rw [mapM_eq_some_iff, forall₂_iff_get] at h
  obtain ⟨hlength, hget⟩ := h
  have horderLength : order.length = xs.length := by rw [horder.length_eq, length_range]
  have hplace : ∀ i (hi : i < order.length) (hi' : i < ys.length), xs[order[i]]? = some ys[i] :=
    fun i hi hi' => by simpa using hget i hi hi'
  constructor
  · rintro rfl
    refine ext_getElem (by rw [horderLength, length_range]) fun i hi _ => ?_
    have hiy : i < ys.length := horderLength ▸ hi
    obtain ⟨hlt, heq⟩ := List.getElem?_eq_some_iff.mp (hplace i hi hiy)
    rw [getElem_range]
    exact hnodup.getElem_inj_iff.mp heq
  · rintro rfl
    refine ext_getElem (by rw [← hlength, length_range]) fun i hi hi' => ?_
    have hplace' := hplace i (by rwa [length_range]) hi
    rw [getElem_range, getElem?_eq_getElem hi', Option.some_inj] at hplace'
    exact hplace'.symm

/-- **What a loop that stops early leaves behind**: it reaches every item that
meets `p` exactly when none of them comes after one that does not. -/
theorem forall_mem_takeWhile_iff {p : α → Bool} {xs : List α} (hnodup : xs.Nodup) :
    (∀ x ∈ xs, p x = true → x ∈ xs.takeWhile p) ↔
      xs.Pairwise fun x y => p x = false → p y = false := by
  induction xs with
  | nil => simp
  | cons x xs ih =>
      rw [nodup_cons] at hnodup
      rw [pairwise_cons, ← ih hnodup.2]
      cases hx : p x with
      | true =>
          rw [takeWhile_cons_of_pos hx]
          constructor
          · intro h
            refine ⟨fun _ _ hfalse => absurd hfalse (by simp), fun y hy hpy => ?_⟩
            rcases mem_cons.mp (h y (mem_cons_of_mem _ hy) hpy) with rfl | hmem
            · exact absurd hy hnodup.1
            · exact hmem
          · rintro ⟨-, h⟩ y hy hpy
            rcases mem_cons.mp hy with rfl | hy
            · exact mem_cons_self
            · exact mem_cons_of_mem _ (h y hy hpy)
      | false =>
          rw [takeWhile_cons_of_neg (by rw [hx]; decide)]
          constructor
          · intro h
            have hnone : ∀ y ∈ xs, p y = false := fun y hy => by
              cases hpy : p y with
              | true => exact absurd (h y (mem_cons_of_mem _ hy) hpy) not_mem_nil
              | false => rfl
            exact ⟨fun y hy _ => hnone y hy, fun y hy hpy => absurd (hnone y hy) (by simp [hpy])⟩
          · rintro ⟨h, -⟩ y hy hpy
            rcases mem_cons.mp hy with rfl | hy
            · rw [hx] at hpy
              cases hpy
            · rw [h y hy rfl] at hpy
              cases hpy

end List
