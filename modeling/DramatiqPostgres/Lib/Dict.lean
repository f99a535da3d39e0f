import Mathlib.Data.List.Basic
import Mathlib.Data.List.Induction
import Mathlib.Data.List.Nodup

/-!
# Dictionaries as lists of entries

A dictionary that remembers the order of insertion is a list of entries without
repeated keys.  `Dict.set` is assignment: a key that is there keeps its place, a
new one comes last.  `ofEntries` assigns the entries of a list one after the
other, so that of several with one key the last one stays; `get?` reads a list
of entries the same way.

### Two views of a dictionary

Where the order matters, as it does in a text that is written from a dictionary,
the laws are equations between lists: assignments to different keys commute only
if one of the keys is there already (`set_comm`), and renaming all keys of a
list commutes with building the dictionary only if the renaming is one to one on
the key in question (`ofEntries_map_set`).

Where only the values matter, `get?` is all there is to know, and its equations
need no such conditions (`get?_set`, `get?_ofEntries`, `get?_map`).  The first
view is the one to avoid.

That keys are distinct is a hypothesis of the lemmas and not a field of a type:
the lists come from elsewhere, and `nodup_ofEntries` says of every list that is
built here that they are.
-/

universe u v w

namespace Dict

variable {κ : Type u} {ι : Type u} {α : Type v} {β : Type w} [DecidableEq κ] [DecidableEq ι]

/-- `d[key] = value`.  The first entry with the key gets the value, and where
there is none a new entry comes last. -/
def set (key : κ) (value : α) : List (κ × α) → List (κ × α)
  | [] => [(key, value)]
  | e :: es => if e.1 = key then (key, value) :: es else e :: set key value es

/-- The dictionary of a list of entries, assigned from left to right.  It has no
repeated key, whatever the list has (`nodup_ofEntries`). -/
def ofEntries (es : List (κ × α)) : List (κ × α) := es.foldl (fun d e => set e.1 e.2 d) []

/-! ## Assignment -/

theorem set_of_not_mem {key : κ} {d : List (κ × α)} (h : key ∉ d.map Prod.fst) (value : α) :
    set key value d = d ++ [(key, value)] := by
  induction d with
  | nil => rfl
  | cons e d ih =>
      rw [List.map_cons, List.mem_cons, not_or] at h
      rw [set, if_neg (Ne.symm h.1), ih h.2, List.cons_append]

theorem map_fst_set_of_mem {key : κ} {d : List (κ × α)} (h : key ∈ d.map Prod.fst) (value : α) :
    (set key value d).map Prod.fst = d.map Prod.fst := by
  induction d with
  | nil => simp at h
  | cons e d ih =>
      rw [set]
      by_cases he : e.1 = key
      · rw [if_pos he, List.map_cons, List.map_cons, he]
      · rw [List.map_cons, List.mem_cons] at h
        rw [if_neg he, List.map_cons, List.map_cons, ih (h.resolve_left (Ne.symm he))]

theorem mem_map_fst_set (key : κ) (value : α) (d : List (κ × α)) :
    key ∈ (set key value d).map Prod.fst := by
  by_cases h : key ∈ d.map Prod.fst
  · rwa [map_fst_set_of_mem h]
  · rw [set_of_not_mem h]
    simp

/-- Assignment keeps the keys distinct, new or not. -/
theorem nodup_set {d : List (κ × α)} (h : (d.map Prod.fst).Nodup) (key : κ) (value : α) :
    ((set key value d).map Prod.fst).Nodup := by
  by_cases hkey : key ∈ d.map Prod.fst
  · rwa [map_fst_set_of_mem hkey]
  · rw [set_of_not_mem hkey, List.map_append, List.map_singleton, ← List.concat_eq_append]
    exact h.concat hkey

/-- Of two assignments to one key the second counts. -/
theorem mem_of_mem_set {key : κ} {value : α} {d : List (κ × α)} {e : κ × α}
    (h : e ∈ set key value d) : e = (key, value) ∨ e ∈ d := by
  induction d with
  | nil => exact Or.inl (List.mem_singleton.mp h)
  | cons e' es ih =>
      rw [set] at h
      split_ifs at h with hkey
      · exact (List.mem_cons.mp h).imp_right (List.mem_cons_of_mem _)
      · rcases List.mem_cons.mp h with heq | hmem
        · exact Or.inr (List.mem_cons.mpr (Or.inl heq))
        · exact (ih hmem).imp_right (List.mem_cons_of_mem _)

/-- Of two assignments to one key the second counts, and the key keeps the place
the first gave it. -/
theorem set_set (key : κ) (value value' : α) (d : List (κ × α)) :
    set key value (set key value' d) = set key value d := by
  induction d with
  | nil => simp [set]
  | cons e d ih =>
      by_cases he : e.1 = key
      · simp [set, he]
      · simp [set, he, ih]

/-- An assignment to a key that is there commutes with those to other keys.  For
a key that is not there it would not: the two keys would come in the other
order. -/
theorem set_comm {key key' : κ} (hne : key' ≠ key) {d : List (κ × α)}
    (h : key ∈ d.map Prod.fst) (value value' : α) :
    set key' value' (set key value d) = set key value (set key' value' d) := by
  induction d with
  | nil => simp at h
  | cons e d ih =>
      by_cases he : e.1 = key
      · simp [set, he, Ne.symm hne]
      · rw [List.map_cons, List.mem_cons] at h
        have hd := ih (h.resolve_left (Ne.symm he))
        by_cases he' : e.1 = key'
        · simp [set, he', hne]
        · simp [set, he, he', hd]

theorem map_set (f : α → β) (key : κ) (value : α) (d : List (κ × α)) :
    (set key value d).map (Prod.map id f) = set key (f value) (d.map (Prod.map id f)) := by
  induction d with
  | nil => rfl
  | cons e d ih =>
      by_cases he : e.1 = key
      · simp [set, he]
      · simp [set, he, ih]

/-! ## Lists of entries -/

theorem ofEntries_concat (es : List (κ × α)) (e : κ × α) :
    ofEntries (es ++ [e]) = set e.1 e.2 (ofEntries es) := by
  rw [ofEntries, List.foldl_concat, ofEntries]

theorem nodup_foldl_set (es : List (κ × α)) {d : List (κ × α)} (h : (d.map Prod.fst).Nodup) :
    ((es.foldl (fun d e => set e.1 e.2 d) d).map Prod.fst).Nodup := by
  induction es generalizing d with
  | nil => exact h
  | cons e es ih => exact ih (nodup_set h e.1 e.2)

/-- A dictionary has no repeated key. -/
theorem nodup_ofEntries (es : List (κ × α)) : ((ofEntries es).map Prod.fst).Nodup :=
  nodup_foldl_set es List.nodup_nil

theorem foldl_set_of_nodup {es d : List (κ × α)} (h : ((d ++ es).map Prod.fst).Nodup) :
    es.foldl (fun d e => set e.1 e.2 d) d = d ++ es := by
  induction es generalizing d with
  | nil => rw [List.foldl_nil, List.append_nil]
  | cons e es ih =>
      have hmem : e.1 ∉ d.map Prod.fst := by
        rw [List.map_append, List.nodup_append] at h
        exact fun hd => h.2.2 e.1 hd e.1 (by simp) rfl
      rw [List.append_cons] at h
      rw [List.foldl_cons, set_of_not_mem hmem, ih h, List.append_assoc, List.singleton_append]

/-- Distinct keys are assigned as they are, so a dictionary that is taken apart
and built again is the same. -/
theorem ofEntries_of_nodup {es : List (κ × α)} (h : (es.map Prod.fst).Nodup) :
    ofEntries es = es :=
  foldl_set_of_nodup (d := []) h

/-- Values can be changed before or after the dictionary is built. -/
theorem map_ofEntries (f : α → β) (es : List (κ × α)) :
    (ofEntries es).map (Prod.map id f) = ofEntries (es.map (Prod.map id f)) := by
  induction es using List.reverseRecOn with
  | nil => rfl
  | append_singleton es e ih =>
      rw [ofEntries_concat, map_set, ih, List.map_append, List.map_singleton, ofEntries_concat]
      rfl

/-- A key that is not assigned any more can be assigned last, if it is there
already. -/
theorem foldl_set_comm {key : κ} {es d : List (κ × α)} (hes : key ∉ es.map Prod.fst)
    (h : key ∈ d.map Prod.fst) (value : α) :
    es.foldl (fun d e => set e.1 e.2 d) (set key value d) =
      set key value (es.foldl (fun d e => set e.1 e.2 d) d) := by
  induction es generalizing d with
  | nil => rfl
  | cons e es ih =>
      rw [List.map_cons, List.mem_cons, not_or] at hes
      rw [List.foldl_cons, List.foldl_cons, set_comm (Ne.symm hes.1) h]
      refine ih hes.2 ?_
      by_cases he : e.1 ∈ d.map Prod.fst
      · rwa [map_fst_set_of_mem he]
      · rw [set_of_not_mem he, List.map_append, List.mem_append]
        exact Or.inl h

/-- **Renaming keys, with one key that no other is renamed to**: assigning to it
before is assigning to its new name after.  The hypothesis is about this one
key; others may well be renamed to the same. -/
theorem ofEntries_map_set {g : κ → ι} {f : α → β} {key : κ} (hg : ∀ k, g k = g key → k = key)
    {es : List (κ × α)} (h : (es.map Prod.fst).Nodup) (value : α) :
    ofEntries ((set key value es).map (Prod.map g f)) =
      set (g key) (f value) (ofEntries (es.map (Prod.map g f))) := by
  suffices hfold : ∀ d : List (ι × β),
      ((set key value es).map (Prod.map g f)).foldl (fun d e => set e.1 e.2 d) d =
        set (g key) (f value)
          ((es.map (Prod.map g f)).foldl (fun d e => set e.1 e.2 d) d) from hfold []
  induction es with
  | nil => intro d; rfl
  | cons e es ih =>
      intro d
      rw [List.map_cons, List.nodup_cons] at h
      by_cases he : e.1 = key
      · have hrest : g key ∉ (es.map (Prod.map g f)).map Prod.fst := by
          intro hmem
          simp only [List.map_map, List.mem_map, Function.comp_apply, Prod.map_fst] at hmem
          obtain ⟨e', he', hsame⟩ := hmem
          exact h.1 (he ▸ hg _ hsame ▸ List.mem_map_of_mem he')
        rw [set, if_pos he, List.map_cons, List.map_cons, List.foldl_cons, List.foldl_cons,
          ← foldl_set_comm hrest (by rw [← he]; exact mem_map_fst_set _ _ _)]
        simp only [Prod.map_fst, Prod.map_snd, he, set_set]
      · rw [set, if_neg he, List.map_cons, List.map_cons, List.foldl_cons, List.foldl_cons]
        exact ih h.2 _

/-! ## Reading -/

/-- `d.get(key)`: of several entries with the key the last one counts, as in the
dictionary they make. -/
def get? (key : κ) : List (κ × α) → Option α
  | [] => none
  | e :: es => (get? key es).or (if e.1 = key then some e.2 else none)

/-- `d.setdefault(key, value)`: assignment, unless the key is there. -/
def setDefault (key : κ) (value : α) (d : List (κ × α)) : List (κ × α) :=
  if key ∈ d.map Prod.fst then d else d ++ [(key, value)]

/-- `del d[key]`, which does nothing where the key is not there. -/
def erase (key : κ) (d : List (κ × α)) : List (κ × α) := d.filter fun e => e.1 ≠ key

@[simp] theorem get?_append (key : κ) (d es : List (κ × α)) :
    get? key (d ++ es) = (get? key es).or (get? key d) := by
  induction d with
  | nil => simp [get?]
  | cons e d ih => rw [List.cons_append, get?, ih, Option.or_assoc, ← get?]

@[simp] theorem get?_singleton (key : κ) (e : κ × α) :
    get? key [e] = if e.1 = key then some e.2 else none := by
  simp [get?]

theorem get?_eq_none_iff {key : κ} {d : List (κ × α)} :
    get? key d = none ↔ key ∉ d.map Prod.fst := by
  induction d with
  | nil => simp [get?]
  | cons e d ih =>
      rw [get?, Option.or_eq_none_iff, ih, List.map_cons, List.mem_cons, not_or, and_comm]
      simp [eq_comm]

theorem mem_of_get? {key : κ} {value : α} {d : List (κ × α)} (h : get? key d = some value) :
    (key, value) ∈ d := by
  induction d with
  | nil => cases h
  | cons e d ih =>
      rw [get?, Option.or_eq_some_iff] at h
      obtain h | ⟨-, h⟩ := h
      · exact List.mem_cons_of_mem _ (ih h)
      · split_ifs at h with he
        cases h
        rw [← he]
        exact List.mem_cons_self

theorem get?_of_mem {key : κ} {value : α} {d : List (κ × α)} (h : (d.map Prod.fst).Nodup)
    (hmem : (key, value) ∈ d) : get? key d = some value := by
  induction d with
  | nil => cases hmem
  | cons e d ih =>
      rw [List.map_cons, List.nodup_cons] at h
      rw [get?]
      rcases List.mem_cons.mp hmem with rfl | hmem
      · rw [get?_eq_none_iff.mpr h.1, Option.none_or, if_pos rfl]
      · rw [ih h.2 hmem, Option.some_or]

/-- Reading a dictionary after an assignment.  With distinct keys only, since
assignment sets the first entry and reading finds the last. -/
theorem get?_set {d : List (κ × α)} (h : (d.map Prod.fst).Nodup) (key key' : κ) (value : α) :
    get? key (set key' value d) = if key' = key then some value else get? key d := by
  by_cases hmem : key' ∈ d.map Prod.fst
  · induction d with
    | nil => cases hmem
    | cons e d ih =>
        rw [List.map_cons, List.nodup_cons] at h
        rw [set]
        by_cases he : e.1 = key'
        · subst he
          rw [if_pos rfl, get?, get?]
          show (get? key d).or (if e.1 = key then some value else none) = _
          split_ifs with hkey
          · rw [← hkey, get?_eq_none_iff.mpr h.1]
            rfl
          · rfl
        · rw [List.map_cons, List.mem_cons] at hmem
          rw [if_neg he, get?, ih h.2 (hmem.resolve_left (Ne.symm he)), get?]
          split_ifs <;> rfl
  · rw [set_of_not_mem hmem, get?_append, get?_singleton]
    split_ifs <;> simp

/-- A dictionary is read as the entries it was made of, so that for reading it
need not be built. -/
@[simp] theorem get?_ofEntries (key : κ) (es : List (κ × α)) :
    get? key (ofEntries es) = get? key es := by
  induction es using List.reverseRecOn with
  | nil => rfl
  | append_singleton es e ih =>
      rw [ofEntries_concat, get?_set (nodup_ofEntries es), ih, get?_append, get?_singleton]
      split_ifs <;> simp

theorem get?_setDefault (key key' : κ) (value : α) (d : List (κ × α)) :
    get? key (setDefault key' value d) =
      (get? key d).or (if key' = key then some value else none) := by
  rw [setDefault]
  split_ifs with hmem hkey hkey
  · subst hkey
    have hsome : get? key' d ≠ none := fun hnone => get?_eq_none_iff.mp hnone hmem
    obtain ⟨value', hvalue⟩ := Option.ne_none_iff_exists'.mp hsome
    rw [hvalue, Option.some_or]
  · rw [Option.or_none]
  · subst hkey
    rw [get?_append, get?_singleton, if_pos rfl, get?_eq_none_iff.mpr hmem]
    rfl
  · rw [get?_append, get?_singleton, if_neg hkey, Option.or_none, Option.none_or]

theorem nodup_setDefault {d : List (κ × α)} (h : (d.map Prod.fst).Nodup) (key : κ) (value : α) :
    ((setDefault key value d).map Prod.fst).Nodup := by
  rw [setDefault]
  split_ifs with hmem
  · exact h
  · rw [List.map_append, List.map_singleton]
    exact h.append (List.nodup_singleton _) (List.disjoint_singleton.mpr hmem)

/-- Defaults are read where nothing was there, and nowhere else. -/
theorem get?_foldl_setDefault {es : List (κ × α)} (h : (es.map Prod.fst).Nodup) (key : κ)
    (d : List (κ × α)) :
    get? key (es.foldl (fun d e => setDefault e.1 e.2 d) d) = (get? key d).or (get? key es) := by
  induction es generalizing d with
  | nil => simp [get?]
  | cons e es ih =>
      rw [List.map_cons, List.nodup_cons] at h
      rw [List.foldl_cons, ih h.2, get?_setDefault, get?, Option.or_assoc]
      split_ifs with hkey
      · rw [← hkey, get?_eq_none_iff.mpr h.1]
        rfl
      · rw [Option.or_none, Option.none_or]

theorem get?_erase (key key' : κ) (d : List (κ × α)) :
    get? key (erase key' d) = if key = key' then none else get? key d := by
  induction d with
  | nil => simp [erase, get?]
  | cons e d ih =>
      by_cases he : e.1 = key'
      · rw [erase, List.filter_cons_of_neg (by simpa using he), ← erase, ih, get?]
        split_ifs with hkey hkey'
        · rfl
        · exact absurd (hkey'.symm.trans he) hkey
        · rw [Option.or_none]
      · rw [erase, List.filter_cons_of_pos (by simpa using he), ← erase, get?, ih, get?]
        split_ifs with hkey hkey'
        · exact absurd (hkey'.trans hkey) he
        · rfl
        · rfl
        · rfl

/-- Renamed one to one, a key is read under its new name.  All keys have to be
renamed one to one here, other than in `ofEntries_map_set`. -/
theorem get?_map {g : κ → ι} (hg : Function.Injective g) (f : α → β) (key : κ)
    (d : List (κ × α)) : get? (g key) (d.map (Prod.map g f)) = (get? key d).map f := by
  induction d with
  | nil => rfl
  | cons e d ih =>
      rw [List.map_cons, get?, ih, get?, Option.map_or]
      by_cases he : e.1 = key
      · simp [he]
      · simp [he, hg.ne he]

end Dict
