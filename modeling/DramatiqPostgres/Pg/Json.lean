import Mathlib.Data.List.Basic
import Mathlib.Data.List.Sort
import Mathlib.Algebra.Order.Group.Unbundled.Int
import Mathlib.Data.Int.Basic

/-!
# JSON documents and PostgreSQL's `jsonb`

A `Json` is a parsed JSON document with the leaves Python's `json` module
distinguishes: integers, floats (by their shortest decimal form, with the three
literals outside the JSON grammar that Python writes and accepts), booleans,
strings and `null`.  Objects are association lists; a document read by
`json.loads` has no repeated key.  Strings are sequences of Unicode scalar
values, so they have no lone surrogates, which Python's strings can have.

* `Json.jsonb` is what storing a document in a `jsonb` column keeps: text with
  the character U+0000 and the non-numbers are rejected, and a number is
  normalised to an exact decimal printed without an exponent — so a float of
  `1e16` or more comes back as an integer.  The order of the keys of an object,
  which `jsonb` does not keep, is not observable through `Json.get?`.
* `Json.canonical` sorts the keys of every object: two documents with the same
  canonical form are equal up to the order of their keys.
* `Json.text` is `jsonb`'s output function; only its length in bytes matters
  below.

### What a column does to a document

`jsonb` is partial: a document that cannot be stored is an error of the
statement, and undoes all of it.  Where it is defined it is idempotent
(`jsonb_jsonb`), so a document that was read from a column is stored as it is;
and it works on the fields of an object one by one (`jsonbFields_filter`).
These two are what a round trip through the queue rests on.

### Why floats are decimals

A float enters this model only to be stored and read back, never to be computed
with.  What Python writes for one is its shortest decimal, and what it reads is
the float nearest to a decimal, so on such decimals writing and reading are
inverse, and the binary float behind them is not needed.
-/

namespace Pg

/-- A Python float: the shortest decimal `mantissa * 10 ^ exponent` that denotes
it, or one of the literals `NaN`, `Infinity` and `-Infinity`. -/
inductive JsonFloat where
  | finite (mantissa exponent : ℤ)
  | nan
  | infinity
  | negInfinity
  deriving DecidableEq, Repr

/-- A JSON document.  Objects are lists of fields, since the text that is
written from one depends on their order. -/
inductive Json where
  | null
  | bool (b : Bool)
  | int (n : ℤ)
  | float (x : JsonFloat)
  | str (s : String)
  | arr (items : List Json)
  | obj (fields : List (String × Json))

namespace Json

/-- `dict.get`: the value of a key, when the document is an object that has
it. -/
def get? (key : String) : Json → Option Json
  | obj fields => (fields.find? fun f => f.1 = key).map Prod.snd
  | _ => none

/-! ## What a `jsonb` column keeps -/

/-- Decimal digits of an integer. -/
def digits (n : ℤ) : List Char := Nat.toDigits 10 n.natAbs

/-- `jsonb` numbers are exact decimals printed without an exponent.  A float of
sixteen digits or more before the point is written with an exponent by Python,
and read back as an integer. -/
def jsonbFloat : JsonFloat → Option Json
  | .finite m e =>
      if 16 < ((digits m).length : ℤ) + e then some (int (m * 10 ^ e.toNat))
      else some (float (.finite m e))
  | _ => none

/-- Text values hold every character but U+0000. -/
def storable (s : String) : Bool := '\x00' ∉ s.toList

mutual

/-- The document a `jsonb` column holds after storing this one, `none` where it
is rejected.  A document is rejected if any part of it is. -/
def jsonb : Json → Option Json
  | null => some null
  | bool b => some (bool b)
  | int n => some (int n)
  | float x => jsonbFloat x
  | str s => if storable s then some (str s) else none
  | arr items => (jsonbItems items).map arr
  | obj fields => (jsonbFields fields).map obj

/-- `jsonb` on the items of an array. -/
def jsonbItems : List Json → Option (List Json)
  | [] => some []
  | j :: js => (jsonb j).bind fun k => (jsonbItems js).map fun ks => k :: ks

/-- `jsonb` on the fields of an object. -/
def jsonbFields : List (String × Json) → Option (List (String × Json))
  | [] => some []
  | f :: fs =>
      if storable f.1 then
        (jsonb f.2).bind fun k => (jsonbFields fs).map fun ks => (f.1, k) :: ks
      else none

end

@[simp] theorem jsonb_str (s : String) :
    jsonb (str s) = if storable s then some (str s) else none := by rw [jsonb]

@[simp] theorem jsonb_int (n : ℤ) : jsonb (int n) = some (int n) := by rw [jsonb]

@[simp] theorem jsonb_arr (items : List Json) :
    jsonb (arr items) = (jsonbItems items).map arr := by rw [jsonb]

@[simp] theorem jsonb_obj (fields : List (String × Json)) :
    jsonb (obj fields) = (jsonbFields fields).map obj := by rw [jsonb]

@[simp] theorem jsonbFields_nil : jsonbFields [] = some [] := by rw [jsonbFields]

theorem jsonbFields_cons (f : String × Json) (fs : List (String × Json)) :
    jsonbFields (f :: fs) =
      if storable f.1 then
        (jsonb f.2).bind fun k => (jsonbFields fs).map fun ks => (f.1, k) :: ks
      else none := by rw [jsonbFields]

mutual

/-- What a column keeps, it keeps as it is.  The proof is by recursion on the
document, mutual with its items and fields. -/
theorem jsonb_jsonb : ∀ {j k : Json}, jsonb j = some k → jsonb k = some k
  | null, k, h | bool _, k, h | int _, k, h => by
      rw [jsonb, Option.some_inj] at h
      rw [← h, jsonb]
  | float x, k, h => by
      rw [jsonb] at h
      cases x with
      | finite m e =>
          rw [jsonbFloat] at h
          split_ifs at h with hlarge
          · rw [← Option.some_inj.mp h, jsonb]
          · rw [← Option.some_inj.mp h, jsonb, jsonbFloat, if_neg hlarge]
      | nan | infinity | negInfinity => cases h
  | str s, k, h => by
      rw [jsonb_str] at h
      split_ifs at h with hs
      rw [← Option.some_inj.mp h, jsonb_str, if_pos hs]
  | arr items, k, h => by
      rw [jsonb_arr, Option.map_eq_some_iff] at h
      obtain ⟨kept, hkept, rfl⟩ := h
      rw [jsonb_arr, jsonbItems_jsonbItems hkept, Option.map_some]
  | obj fields, k, h => by
      rw [jsonb_obj, Option.map_eq_some_iff] at h
      obtain ⟨kept, hkept, rfl⟩ := h
      rw [jsonb_obj, jsonbFields_jsonbFields hkept, Option.map_some]

theorem jsonbItems_jsonbItems :
    ∀ {js ks : List Json}, jsonbItems js = some ks → jsonbItems ks = some ks
  | [], ks, h => by
      rw [jsonbItems, Option.some_inj] at h
      rw [← h, jsonbItems]
  | j :: js, ks, h => by
      rw [jsonbItems, Option.bind_eq_some_iff] at h
      obtain ⟨k, hk, h⟩ := h
      obtain ⟨rest, hrest, rfl⟩ := Option.map_eq_some_iff.mp h
      rw [jsonbItems, jsonb_jsonb hk, jsonbItems_jsonbItems hrest]
      rfl

theorem jsonbFields_jsonbFields :
    ∀ {fs gs : List (String × Json)}, jsonbFields fs = some gs → jsonbFields gs = some gs
  | [], gs, h => by
      rw [jsonbFields_nil, Option.some_inj] at h
      rw [← h, jsonbFields_nil]
  | f :: fs, gs, h => by
      rw [jsonbFields_cons] at h
      split_ifs at h with hkey
      rw [Option.bind_eq_some_iff] at h
      obtain ⟨k, hk, h⟩ := h
      obtain ⟨rest, hrest, rfl⟩ := Option.map_eq_some_iff.mp h
      rw [jsonbFields_cons, if_pos hkey, jsonb_jsonb hk, jsonbFields_jsonbFields hrest]
      rfl

end

/-- Fields are kept one by one. -/
theorem jsonbFields_filter (p : String → Bool) {fs gs : List (String × Json)}
    (h : jsonbFields fs = some gs) :
    jsonbFields (fs.filter fun f => p f.1) = some (gs.filter fun f => p f.1) := by
  induction fs generalizing gs with
  | nil =>
      rw [jsonbFields_nil, Option.some_inj] at h
      rw [← h]
      exact jsonbFields_nil
  | cons f fs ih =>
      rw [jsonbFields_cons] at h
      split_ifs at h with hkey
      rw [Option.bind_eq_some_iff] at h
      obtain ⟨k, hk, h⟩ := h
      obtain ⟨rest, hrest, rfl⟩ := Option.map_eq_some_iff.mp h
      rw [List.filter_cons, List.filter_cons]
      by_cases hp : p f.1 = true
      · rw [if_pos hp, if_pos hp, jsonbFields_cons, if_pos hkey, hk, ih hrest]
        rfl
      · rw [if_neg hp, if_neg hp]
        exact ih hrest

/-! ## The order of keys -/

mutual

/-- The document with the keys of every object in order, at all depths.  What
`jsonb` forgets of a document is at most what this does. -/
def canonical : Json → Json
  | null => null
  | bool b => bool b
  | int n => int n
  | float x => float x
  | str s => str s
  | arr items => arr (canonicalItems items)
  | obj fields => obj (canonicalFields fields)

/-- `canonical` on the items of an array. -/
def canonicalItems : List Json → List Json
  | [] => []
  | j :: js => canonical j :: canonicalItems js

/-- `canonical` on the fields of an object. -/
def canonicalFields : List (String × Json) → List (String × Json)
  | [] => []
  | f :: fs => (canonicalFields fs).orderedInsert (fun g h => g.1 ≤ h.1) (f.1, canonical f.2)

end

/-! ## Output -/

/-- One character of a string literal. -/
def escapeChar (c : Char) : String :=
  if c = '"' then "\\\""
  else if c = '\\' then "\\\\"
  else if c = '\n' then "\\n"
  else if c = '\r' then "\\r"
  else if c = '\t' then "\\t"
  else if c.toNat = 8 then "\\b"
  else if c.toNat = 12 then "\\f"
  else if c.toNat < 16 then "\\u000" ++ String.singleton (Nat.digitChar c.toNat)
  else if c.toNat < 32 then "\\u001" ++ String.singleton (Nat.digitChar (c.toNat - 16))
  else String.singleton c

/-- The characters of a string literal. -/
def escape : List Char → String
  | [] => ""
  | c :: cs => escapeChar c ++ escape cs

/-- A string literal. -/
def quote (s : String) : String := "\"" ++ escape s.toList ++ "\""

/-- The sign of a number. -/
def sign (n : ℤ) : String := if n < 0 then "-" else ""

/-- A finite float without an exponent. -/
def floatText (m e : ℤ) : String :=
  if 0 ≤ e then sign m ++ String.ofList (digits m ++ List.replicate e.toNat '0') ++ ".0"
  else
    let scale := (-e).toNat
    let ds := List.replicate (scale + 1 - (digits m).length) '0' ++ digits m
    sign m ++ String.ofList (ds.take (ds.length - scale)) ++ "."
      ++ String.ofList (ds.drop (ds.length - scale))

mutual

/-- `jsonb_out`.  The non-numbers, which no `jsonb` value holds, are given
Python's spelling. -/
def text : Json → String
  | null => "null"
  | bool b => if b then "true" else "false"
  | int n => sign n ++ String.ofList (digits n)
  | float (.finite m e) => floatText m e
  | float .nan => "NaN"
  | float .infinity => "Infinity"
  | float .negInfinity => "-Infinity"
  | str s => quote s
  | arr items => "[" ++ itemsText items ++ "]"
  | obj fields => "\x7b" ++ fieldsText fields ++ "\x7d"

/-- The items of an array. -/
def itemsText : List Json → String
  | [] => ""
  | [j] => text j
  | j :: k :: js => text j ++ ", " ++ itemsText (k :: js)

/-- The fields of an object. -/
def fieldsText : List (String × Json) → String
  | [] => ""
  | [f] => quote f.1 ++ ": " ++ text f.2
  | f :: g :: fs => quote f.1 ++ ": " ++ text f.2 ++ ", " ++ fieldsText (g :: fs)

end

/-- `octet_length(doc::text)`. -/
def octetLength (j : Json) : ℕ := (text j).utf8ByteSize

theorem utf8ByteSize_escapeChar_le (c : Char) : (escapeChar c).utf8ByteSize ≤ 6 := by
  have hsize : ∀ d : Char, (String.singleton d).utf8ByteSize ≤ 4 := fun d => by
    simpa [String.utf8ByteSize_singleton] using d.utf8Size_le_four
  have hdigit : ∀ n < 16, (String.singleton (Nat.digitChar n)).utf8ByteSize = 1 := by decide
  unfold escapeChar
  split_ifs with _ _ _ _ _ _ _ h16 h32
  · decide
  · decide
  · decide
  · decide
  · decide
  · decide
  · decide
  · rw [String.utf8ByteSize_append, hdigit _ h16]
    decide
  · rw [String.utf8ByteSize_append, hdigit _ (by omega)]
    decide
  · exact (hsize c).trans (by omega)

theorem utf8ByteSize_escape_le (cs : List Char) : (escape cs).utf8ByteSize ≤ 6 * cs.length := by
  induction cs with
  | nil => simp [escape]
  | cons c cs ih =>
      have hc := utf8ByteSize_escapeChar_le c
      rw [escape, String.utf8ByteSize_append, List.length_cons]
      omega

/-- A string literal takes at most six bytes a character, and its two quotes. -/
theorem octetLength_str_le (s : String) : octetLength (str s) ≤ 6 * s.toList.length + 2 := by
  have hs := utf8ByteSize_escape_le s.toList
  have hquote : ("\"" : String).utf8ByteSize = 1 := by decide
  rw [octetLength, text, quote, String.utf8ByteSize_append, String.utf8ByteSize_append, hquote]
  omega

end Json

end Pg
