import Mathlib.Data.List.Nodup
import Mathlib.Data.List.Basic

/-!
# Tables with a primary key

A table is a list of rows in which no two rows have the same key; the key
constraint is a field of the type, so a table that violates it cannot be built.

Data-changing statements come in two shapes, and both are determined by what
they do to the row of each key (`find?_alter`, `find?_upsert`):

* `alter g` rewrites every row by `g`, dropping the rows `g` sends to `none`.
  `updateWhere` and `deleteWhere` (SQL's `UPDATE … WHERE` and `DELETE … WHERE`)
  are its instances.
* `upsert` is `INSERT … ON CONFLICT (key) DO UPDATE`: a new row when the key is
  free, an update of the row that holds the key otherwise.

### Design notes

**Rows stay in their order**, the order of first insertion.  SQL promises none,
and no statement here depends on it: whoever wants rows in an order sorts them,
and where a statement may return them in any, the program that uses it gets a
permutation.

**A rewriting keeps keys**, by its type: `g` and the function of an upsert come
with the proof.  So a statement can be written down only if the result is a
table, and no later proof has to ask.

**Lookup is the interface.**  `find?_updateWhere`, `find?_deleteWhere` and
`find?_upsert` are in the simp set, and laws about what becomes of one row are
proved by them, without going into the list.
-/

universe u v

/-- A list of rows with pairwise distinct keys. -/
structure Table (ρ : Type u) {κ : Type v} (key : ρ → κ) where
  /-- The rows, oldest insertion first. -/
  rows : List ρ
  /-- The primary key constraint. -/
  nodup : (rows.map key).Nodup

namespace Table

variable {ρ : Type u} {κ : Type v} {key : ρ → κ}

/-- The table without rows. -/
def empty : Table ρ key := ⟨[], List.nodup_nil⟩

instance : Membership ρ (Table ρ key) := ⟨fun t r => r ∈ t.rows⟩

theorem mem_def {t : Table ρ key} {r : ρ} : r ∈ t ↔ r ∈ t.rows := Iff.rfl

@[simp] theorem not_mem_empty (r : ρ) : r ∉ (empty : Table ρ key) := by simp [mem_def, empty]

/-- The key determines the row. -/
theorem eq_of_key_eq {t : Table ρ key} {r r' : ρ} (hr : r ∈ t) (hr' : r' ∈ t)
    (h : key r = key r') : r = r' :=
  List.inj_on_of_nodup_map t.nodup hr hr' h

/-! ## Lookup by key -/

section Find

variable [DecidableEq κ]

/-- The row with key `k`. -/
def find? (t : Table ρ key) (k : κ) : Option ρ := t.rows.find? fun r => key r = k

/-- **Lookup is membership.** -/
theorem find?_eq_some_iff {t : Table ρ key} {k : κ} {r : ρ} :
    t.find? k = some r ↔ r ∈ t ∧ key r = k := by
  constructor
  · intro h
    exact ⟨List.mem_of_find?_eq_some h, by simpa using List.find?_some h⟩
  · rintro ⟨hr, rfl⟩
    cases hfind : t.find? (key r) with
    | none => exact absurd (List.find?_eq_none.mp hfind r hr) (by simp)
    | some r' =>
        have hkey : key r' = key r := by simpa using List.find?_some hfind
        rw [eq_of_key_eq (List.mem_of_find?_eq_some hfind) hr hkey]

theorem find?_key {t : Table ρ key} {r : ρ} (h : r ∈ t) : t.find? (key r) = some r :=
  find?_eq_some_iff.mpr ⟨h, rfl⟩

theorem mem_of_find? {t : Table ρ key} {k : κ} {r : ρ} (h : t.find? k = some r) : r ∈ t :=
  (find?_eq_some_iff.mp h).1

theorem key_of_find? {t : Table ρ key} {k : κ} {r : ρ} (h : t.find? k = some r) : key r = k :=
  (find?_eq_some_iff.mp h).2

/-- Rows looked up by a list of keys have these keys. -/
theorem map_filterMap_find?_sublist (t : Table ρ key) (ks : List κ) :
    ((ks.filterMap t.find?).map key).Sublist ks := by
  induction ks with
  | nil => exact .slnil
  | cons k ks ih =>
      cases hk : t.find? k with
      | none => simpa [hk] using ih.cons k
      | some r => simpa [hk, key_of_find? hk] using ih

theorem find?_eq_none_iff {t : Table ρ key} {k : κ} :
    t.find? k = none ↔ ∀ r ∈ t, key r ≠ k := by
  simp [find?, mem_def]

end Find

/-! ## Updates and deletions -/

/-- A column that `g` keeps is, after the rewriting, a sublist of what it
was. -/
theorem map_filterMap_sublist {α : Type*} {column : ρ → α} {g : ρ → Option ρ}
    (hg : ∀ r r', g r = some r' → column r' = column r) (rows : List ρ) :
    ((rows.filterMap g).map column).Sublist (rows.map column) := by
  induction rows with
  | nil => simp
  | cons r rs ih =>
      cases hr : g r with
      | none => simpa [hr] using ih.cons (column r)
      | some r' => simpa [hr, hg r r' hr] using ih

/-- Rewrite every row by `g`, which keeps keys; a row sent to `none` is
deleted.  `UPDATE` and `DELETE` with a condition are instances of it. -/
def alter (g : ρ → Option ρ) (hg : ∀ r r', g r = some r' → key r' = key r) (t : Table ρ key) :
    Table ρ key where
  rows := t.rows.filterMap g
  nodup := (map_filterMap_sublist hg t.rows).nodup t.nodup

/-- `UPDATE … SET f WHERE p`. -/
def updateWhere (p : ρ → Bool) (f : ρ → ρ) (hf : ∀ r, key (f r) = key r) (t : Table ρ key) :
    Table ρ key :=
  t.alter (fun r => some (if p r then f r else r)) <| by
    intro r r' h
    by_cases hp : p r = true
    · simp only [hp, if_true, Option.some.injEq] at h; rw [← h, hf]
    · simp only [hp, Bool.false_eq_true, if_false, Option.some.injEq] at h; rw [h]

/-- `DELETE … WHERE p`. -/
def deleteWhere (p : ρ → Bool) (t : Table ρ key) : Table ρ key :=
  t.alter (fun r => if p r then none else some r) <| by
    intro r r' h
    by_cases hp : p r = true
    · simp [hp] at h
    · simp only [hp, Bool.false_eq_true, if_false, Option.some.injEq] at h; rw [h]

/-- A rewriting that keeps every row changes nothing. -/
theorem alter_eq_self {g : ρ → Option ρ} {hg : ∀ r r', g r = some r' → key r' = key r}
    {t : Table ρ key} (h : ∀ r ∈ t, g r = some r) : t.alter g hg = t := by
  have hrows : ∀ rows : List ρ, (∀ r ∈ rows, g r = some r) → rows.filterMap g = rows := by
    intro rows
    induction rows with
    | nil => intro _; rfl
    | cons r rs ih =>
        intro hr
        rw [List.filterMap_cons_some (hr r List.mem_cons_self),
          ih fun r' hr' => hr r' (List.mem_cons_of_mem _ hr')]
  cases t with
  | mk rows nodup =>
      have hsame := hrows rows h
      simp only [alter, hsame]

theorem updateWhere_eq_self {p : ρ → Bool} {f : ρ → ρ} {hf : ∀ r, key (f r) = key r}
    {t : Table ρ key} (h : ∀ r ∈ t, p r = false) : t.updateWhere p f hf = t :=
  alter_eq_self fun r hr => by simp [h r hr]

theorem deleteWhere_eq_self {p : ρ → Bool} {t : Table ρ key} (h : ∀ r ∈ t, p r = false) :
    t.deleteWhere p = t :=
  alter_eq_self fun r hr => by simp [h r hr]

theorem mem_alter {g : ρ → Option ρ} {hg : ∀ r r', g r = some r' → key r' = key r}
    {t : Table ρ key} {r' : ρ} : r' ∈ t.alter g hg ↔ ∃ r ∈ t, g r = some r' := by
  simp [mem_def, alter]

/-- A row after an update is an old row that was not matched, or the update of
one that was. -/
theorem mem_updateWhere {p : ρ → Bool} {f : ρ → ρ} {hf : ∀ r, key (f r) = key r}
    {t : Table ρ key} {r' : ρ} :
    r' ∈ t.updateWhere p f hf ↔ ∃ r ∈ t, (if p r then f r else r) = r' := by
  simp [updateWhere, mem_alter]

section Find

variable [DecidableEq κ]

/-- **An alteration acts on the row of each key separately.** -/
theorem find?_alter {g : ρ → Option ρ} {hg : ∀ r r', g r = some r' → key r' = key r}
    (t : Table ρ key) (k : κ) : (t.alter g hg).find? k = (t.find? k).bind g := by
  cases h : t.find? k with
  | none =>
      rw [find?_eq_none_iff] at h
      simp only [Option.bind_none]
      rw [find?_eq_none_iff]
      intro r' hr'
      obtain ⟨r, hr, hgr⟩ := mem_alter.mp hr'
      rw [hg r r' hgr]
      exact h r hr
  | some r =>
      obtain ⟨hr, rfl⟩ := find?_eq_some_iff.mp h
      cases hgr : g r with
      | some r' =>
          simp only [Option.bind_some, hgr]
          exact find?_eq_some_iff.mpr ⟨mem_alter.mpr ⟨r, hr, hgr⟩, hg r r' hgr⟩
      | none =>
          simp only [Option.bind_some, hgr]
          rw [find?_eq_none_iff]
          intro s' hs' hkey
          obtain ⟨s, hs, hgs⟩ := mem_alter.mp hs'
          have : s = r := eq_of_key_eq hs hr ((hg s s' hgs).symm.trans hkey)
          rw [this, hgr] at hgs
          cases hgs

@[simp] theorem find?_updateWhere (p : ρ → Bool) (f : ρ → ρ) (hf : ∀ r, key (f r) = key r)
    (t : Table ρ key) (k : κ) :
    (t.updateWhere p f hf).find? k = (t.find? k).map fun r => if p r then f r else r := by
  rw [updateWhere, find?_alter]
  cases t.find? k <;> rfl

@[simp] theorem find?_deleteWhere (p : ρ → Bool) (t : Table ρ key) (k : κ) :
    (t.deleteWhere p).find? k = (t.find? k).bind fun r => if p r then none else some r := by
  rw [deleteWhere, find?_alter]

end Find

/-! ## Upserts -/

section Upsert

variable [DecidableEq κ]

/-- `INSERT r ON CONFLICT (key) DO UPDATE SET f`.  The row that holds the key,
if there is one, keeps its place and gets what `f` makes of it; `r` is then not
used. -/
def upsert (r : ρ) (f : ρ → ρ) (hf : ∀ s, key (f s) = key s) (t : Table ρ key) : Table ρ key :=
  match h : t.find? (key r) with
  | some _ => t.updateWhere (fun s => key s = key r) f hf
  | none =>
      { rows := t.rows ++ [r]
        nodup := by
          have hfree := find?_eq_none_iff.mp h
          rw [List.map_append, List.map_singleton, List.nodup_append]
          refine ⟨t.nodup, List.nodup_singleton _, ?_⟩
          intro k hk k' hk'
          obtain ⟨s, hs, rfl⟩ := List.mem_map.mp hk
          rw [List.mem_singleton] at hk'
          exact hk' ▸ hfree s hs }

theorem upsert_of_find?_some {r s : ρ} {f : ρ → ρ} {hf : ∀ s, key (f s) = key s}
    {t : Table ρ key} (h : t.find? (key r) = some s) :
    t.upsert r f hf = t.updateWhere (fun s => key s = key r) f hf := by
  unfold upsert
  split
  · rfl
  · next hnone => rw [h] at hnone; cases hnone

theorem rows_upsert_of_find?_none {r : ρ} {f : ρ → ρ} {hf : ∀ s, key (f s) = key s}
    {t : Table ρ key} (h : t.find? (key r) = none) : (t.upsert r f hf).rows = t.rows ++ [r] := by
  unfold upsert
  split
  · next s hsome => rw [h] at hsome; cases hsome
  · rfl

theorem mem_upsert_of_find?_none {r r' : ρ} {f : ρ → ρ} {hf : ∀ s, key (f s) = key s}
    {t : Table ρ key} (h : t.find? (key r) = none) :
    r' ∈ t.upsert r f hf ↔ r' ∈ t ∨ r' = r := by
  simp [mem_def, rows_upsert_of_find?_none h]

/-- **An upsert touches the row of its own key only.** -/
theorem find?_upsert (r : ρ) (f : ρ → ρ) (hf : ∀ s, key (f s) = key s) (t : Table ρ key)
    (k : κ) :
    (t.upsert r f hf).find? k =
      if k = key r then some ((t.find? k).elim r f) else t.find? k := by
  cases h : t.find? (key r) with
  | some s =>
      rw [upsert_of_find?_some h, find?_updateWhere]
      by_cases hk : k = key r
      · subst hk; simp [h, key_of_find? h]
      · rw [if_neg hk]
        cases hfind : t.find? k with
        | none => rfl
        | some s' => simp [key_of_find? hfind, hk]
  | none =>
      by_cases hk : k = key r
      · subst hk
        rw [if_pos rfl, h, Option.elim_none]
        exact find?_eq_some_iff.mpr ⟨(mem_upsert_of_find?_none h).mpr (Or.inr rfl), rfl⟩
      · rw [if_neg hk]
        ext r'
        rw [find?_eq_some_iff, find?_eq_some_iff, mem_upsert_of_find?_none h]
        constructor
        · rintro ⟨hmem | rfl, hkey⟩
          · exact ⟨hmem, hkey⟩
          · exact absurd hkey.symm hk
        · rintro ⟨hmem, hkey⟩
          exact ⟨Or.inl hmem, hkey⟩

end Upsert

end Table
