import DramatiqPostgres.Pg.Notify
import Mathlib.Data.Finset.Card
import Mathlib.Data.Finset.Image

/-!
# Names that PostgreSQL chooses

A CREATE enters more into the catalog than the name it is given: the array type
of a type, the index of a PRIMARY KEY, the sequence of an identity column, and,
for CREATE INDEX without a name, the index itself.  The server makes these names
up as it goes along, and this file is about how.

## Main definitions

* `makeObjectName` — one candidate: the name of the table, an addition and a
  label, the first two shortened until the whole has at most 63 bytes.
* `arrayTypeName`, `relationName` — the candidates for an array type and for a
  relation, in the order in which the server tries them.
* `firstFree` — the search itself: the first candidate that the catalog does not
  have.

## Design notes

The search looks at the names its own transaction can **see**.  A candidate that
a concurrent transaction has entered and not committed counts as free, so that
two transactions can choose one name: that the search is sound
(`firstFree_notMem`) says nothing about them, and who uses it has to ask about
concurrent transactions separately.

`firstFree` is bounded by the number of names that are taken, where the server
searches on for ever.  The bound loses nothing: the candidates from the second
on are distinct (`injective_arrayTypeName`, `injective_relationName`), so one of
them is free.
-/

namespace Pg

/-! ## One candidate -/

/-- How many bytes are left of two names: the longer one loses a byte at a
time. -/
def shorten : ℕ → ℕ × ℕ → ℕ × ℕ
  | 0, sizes => sizes
  | excess + 1, (m, n) =>
      if n < m then shorten excess (m - 1, n) else shorten excess (m, n - 1)

/-- A part of a name after the first one, with the underscore in front of it. -/
def joined : Option String → String
  | none => ""
  | some part => "_" ++ part

/-- `makeObjectName`, in the server's `indexcmds.c`: the label is never cut. -/
def makeObjectName (name1 : String) (name2 label : Option String) : String :=
  let given := name1.utf8ByteSize + (joined name2).utf8ByteSize + (joined label).utf8ByteSize
  let (m, n) := shorten (given - 63) (name1.utf8ByteSize, (name2.getD "").utf8ByteSize)
  String.ofList (clip m name1.toList) ++
    joined (name2.map fun name => String.ofList (clip n name.toList)) ++ joined label

/-- The label of the first candidate is the plain one, the others are
numbered. -/
def numbered (label : String) : ℕ → String
  | 0 => label
  | pass + 1 => label ++ Nat.repr (pass + 1)

/-- The candidates for the name of the array type of a type. -/
def arrayTypeName (typeName : String) : ℕ → String
  | 0 => makeObjectName "" (some typeName) none
  | pass + 1 => makeObjectName "" (some typeName) (some (numbered "" (pass + 1)))

/-- The candidates for the name of a sequence or of an index,
`ChooseRelationName`. -/
def relationName (table : String) (addition : Option String) (label : String) (pass : ℕ) :
    String :=
  makeObjectName table addition (some (numbered label pass))

/-! ## The candidates are distinct -/

/-- Every candidate ends in its label. -/
theorem exists_stem (name1 : String) (name2 : Option String) (label : String) :
    ∃ stem, makeObjectName name1 name2 (some label) = stem ++ ("_" ++ label) :=
  ⟨_, rfl⟩

/-- The digits at the end of a text. -/
def lastDigits (text : String) : List Char := text.toList.reverse.takeWhile Char.isDigit

/-- A number behind a text that does not end in a digit is read back. -/
theorem lastDigits_append {text : String} {c : Char} (hlast : text.toList.getLast? = some c)
    (hc : c.isDigit = false) (n : ℕ) :
    lastDigits (text ++ Nat.repr n) = (Nat.toDigits 10 n).reverse := by
  have hdigits : ∀ d ∈ (Nat.toDigits 10 n).reverse, d.isDigit = true := fun d hd =>
    Nat.isDigit_of_mem_toDigits (by decide) (by decide) (List.mem_reverse.mp hd)
  obtain ⟨front, hfront⟩ := List.getLast?_eq_some_iff.mp hlast
  rw [lastDigits, String.toList_append, List.reverse_append, Nat.toList_repr,
    List.takeWhile_append_of_pos hdigits, hfront, List.reverse_append]
  simp [hc]

theorem toDigits_injective {m n : ℕ} (h : Nat.toDigits 10 m = Nat.toDigits 10 n) : m = n := by
  have hread := congrArg (fun digits => Nat.ofDigitChars 10 digits 0) h
  simpa using hread

/-- Two numbered labels with one end have one number. -/
theorem eq_of_numbered {label stem stem' : String} {c : Char}
    (hlast : ("_" ++ label).toList.getLast? = some c) (hc : c.isDigit = false) {m n : ℕ}
    (h : stem ++ ("_" ++ numbered label (m + 1)) = stem' ++ ("_" ++ numbered label (n + 1))) :
    m = n := by
  have hstem : ∀ (s : String) (k : ℕ), lastDigits (s ++ ("_" ++ numbered label (k + 1))) =
      (Nat.toDigits 10 (k + 1)).reverse := by
    intro s k
    have hend : (s ++ ("_" ++ label)).toList.getLast? = some c := by
      rw [String.toList_append, List.getLast?_append, hlast, Option.some_or]
    have hassoc : s ++ ("_" ++ numbered label (k + 1)) =
        s ++ ("_" ++ label) ++ Nat.repr (k + 1) := by
      rw [numbered, String.append_assoc, String.append_assoc]
    rw [hassoc, lastDigits_append hend hc]
  have hdigits := congrArg lastDigits h
  rw [hstem, hstem, List.reverse_inj] at hdigits
  have hsucc := toDigits_injective hdigits
  omega

theorem injective_arrayTypeName (typeName : String) :
    Function.Injective fun pass => arrayTypeName typeName (pass + 1) := by
  intro m n h
  obtain ⟨stem, hstem⟩ := exists_stem "" (some typeName) (numbered "" (m + 1))
  obtain ⟨stem', hstem'⟩ := exists_stem "" (some typeName) (numbered "" (n + 1))
  have hnames : stem ++ ("_" ++ numbered "" (m + 1)) = stem' ++ ("_" ++ numbered "" (n + 1)) := by
    rw [← hstem, ← hstem']
    exact h
  have hlast : ("_" ++ "").toList.getLast? = some '_' := by decide
  exact eq_of_numbered hlast (by decide) hnames

theorem injective_relationName (table : String) (addition : Option String) {label : String}
    {c : Char} (hlast : ("_" ++ label).toList.getLast? = some c) (hc : c.isDigit = false) :
    Function.Injective fun pass => relationName table addition label (pass + 1) := by
  intro m n h
  obtain ⟨stem, hstem⟩ := exists_stem table addition (numbered label (m + 1))
  obtain ⟨stem', hstem'⟩ := exists_stem table addition (numbered label (n + 1))
  have hnames : stem ++ ("_" ++ numbered label (m + 1)) =
      stem' ++ ("_" ++ numbered label (n + 1)) := by
    rw [← hstem, ← hstem']
    exact h
  exact eq_of_numbered hlast hc hnames

/-- A numbered label ends as the label does, or in a digit. -/
theorem getLast?_numbered {label : String} {c : Char}
    (hlast : ("_" ++ label).toList.getLast? = some c) (pass : ℕ) :
    ∃ d, ("_" ++ numbered label pass).toList.getLast? = some d ∧ (d = c ∨ d.isDigit = true) := by
  cases pass with
  | zero => exact ⟨c, hlast, Or.inl rfl⟩
  | succ pass =>
      have hne : Nat.toDigits 10 (pass + 1) ≠ [] := Nat.toDigits_ne_nil
      refine ⟨(Nat.toDigits 10 (pass + 1)).getLast hne, ?_, Or.inr ?_⟩
      · rw [numbered, ← String.append_assoc, String.toList_append, Nat.toList_repr,
          List.getLast?_append, List.getLast?_eq_some_getLast hne, Option.some_or]
      · exact Nat.isDigit_of_mem_toDigits (by decide) (by decide) (List.getLast_mem hne)

/-- A relation the server names ends as its label does, or in a digit. -/
theorem getLast?_relationName (table : String) (addition : Option String) {label : String}
    {c : Char} (hlast : ("_" ++ label).toList.getLast? = some c) (pass : ℕ) :
    ∃ d, (relationName table addition label pass).toList.getLast? = some d ∧
      (d = c ∨ d.isDigit = true) := by
  obtain ⟨stem, hstem⟩ := exists_stem table addition (numbered label pass)
  obtain ⟨d, hd, hcases⟩ := getLast?_numbered hlast pass
  refine ⟨d, ?_, hcases⟩
  rw [relationName, hstem, String.toList_append, List.getLast?_append, hd, Option.some_or]

/-! ## The search -/

/-- The number of the first candidate that is not taken. -/
def firstFree {α : Type*} [DecidableEq α] (candidate : ℕ → α) (taken : List α) : ℕ :=
  ((List.range (taken.length + 2)).find? fun pass => decide (candidate pass ∉ taken)).getD 0

/-- **The search ends**: distinct candidates cannot all be taken. -/
theorem exists_free {α : Type*} [DecidableEq α] {candidate : ℕ → α}
    (hinjective : Function.Injective fun pass => candidate (pass + 1)) (taken : List α) :
    ∃ pass < taken.length + 2, candidate pass ∉ taken := by
  by_contra hnone
  have hall : ∀ pass < taken.length + 2, candidate pass ∈ taken := fun pass hpass =>
    not_not.mp fun hfree => hnone ⟨pass, hpass, hfree⟩
  have hsub : (Finset.range (taken.length + 1)).image (fun pass => candidate (pass + 1)) ⊆
      taken.toFinset := by
    intro name hname
    obtain ⟨pass, hpass, rfl⟩ := Finset.mem_image.mp hname
    exact List.mem_toFinset.mpr (hall _ (by simpa using hpass))
  have hcard := Finset.card_le_card hsub
  rw [Finset.card_image_of_injective _ hinjective, Finset.card_range] at hcard
  exact absurd (hcard.trans (List.toFinset_card_le taken)) (by omega)

/-- **The search is sound.** -/
theorem firstFree_notMem {α : Type*} [DecidableEq α] (candidate : ℕ → α)
    (hinjective : Function.Injective fun pass => candidate (pass + 1)) (taken : List α) :
    candidate (firstFree candidate taken) ∉ taken := by
  obtain ⟨pass, hpass, hfree⟩ := exists_free hinjective taken
  cases hfind : (List.range (taken.length + 2)).find?
      fun pass => decide (candidate pass ∉ taken) with
  | none =>
      have htaken := List.find?_eq_none.mp hfind pass (List.mem_range.mpr hpass)
      exact absurd (decide_eq_true hfree) htaken
  | some first =>
      have hfirst := List.find?_some hfind
      rw [firstFree, hfind, Option.getD_some]
      exact of_decide_eq_true hfirst

example : relationName "queue" (some "position") "seq" 0 = "queue_position_seq" := by decide

end Pg
