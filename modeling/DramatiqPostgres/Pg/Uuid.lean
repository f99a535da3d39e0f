import Mathlib.Data.List.Basic
import Mathlib.Data.Fin.Basic

/-!
# PostgreSQL's `uuid` type

A value is sixteen bytes.  `Uuid.toText` is the output function: thirty-two
lower-case hexadecimal digits in groups of 8, 4, 4, 4 and 12.  `Uuid.ofText?` is
the more liberal input function: either case, an optional pair of braces, and an
optional hyphen after every second byte but the last.

`ofText?_toText` — every value is read back from the text it is printed as — is
what makes the printed form *canonical*, and `length_le_of_ofText?` bounds every
accepted spelling.

The program keeps message ids as texts and the tables keep them as values.
Where the two meet, on a channel whose name has an id in it or in a lookup by a
text, the spelling matters; everywhere else it is the value that is compared,
and two spellings of one value address one row.
-/

namespace Pg

/-- Sixteen bytes. -/
structure Uuid where
  /-- The bytes, most significant first. -/
  bytes : List (Fin 256)
  /-- There are sixteen of them. -/
  size : bytes.length = 16
  deriving DecidableEq

namespace Uuid

/-- The `uuid` whose last byte is `n`, all others zero. -/
def small (n : ℕ) : Uuid where
  bytes := List.replicate 15 0 ++ [Fin.ofNat 256 n]
  size := rfl

/-! ## Hexadecimal digits -/

/-- The lower-case digit of a half byte. -/
def hexDigit (n : Fin 16) : Char :=
  ['0', '1', '2', '3', '4', '5', '6', '7', '8', '9', 'a', 'b', 'c', 'd', 'e', 'f'].get n

/-- The half byte of a digit of either case. -/
def hexValue (c : Char) : Option (Fin 16) :=
  if '0' ≤ c ∧ c ≤ '9' then some (Fin.ofNat 16 (c.toNat - 48))
  else if 'a' ≤ c ∧ c ≤ 'f' then some (Fin.ofNat 16 (c.toNat - 87))
  else if 'A' ≤ c ∧ c ≤ 'F' then some (Fin.ofNat 16 (c.toNat - 55))
  else none

theorem hexValue_hexDigit (n : Fin 16) : hexValue (hexDigit n) = some n := by
  revert n
  decide

theorem hexDigit_ne_hyphen (n : Fin 16) : hexDigit n ≠ '-' := by
  revert n
  decide

theorem hexDigit_ne_brace (n : Fin 16) : hexDigit n ≠ '\x7b' := by
  revert n
  decide

/-- The half bytes of a byte. -/
def halves (b : Fin 256) : Fin 16 × Fin 16 := (Fin.ofNat 16 (b.val / 16), Fin.ofNat 16 b.val)

/-- The byte made of two halves. -/
def ofHalves (hi lo : Fin 16) : Fin 256 := Fin.ofNat 256 (16 * hi.val + lo.val)

theorem ofHalves_halves (b : Fin 256) : ofHalves (halves b).1 (halves b).2 = b := by
  apply Fin.ext
  have hb := b.isLt
  simp only [ofHalves, halves, Fin.ofNat]
  omega

/-! ## Output -/

/-- The digits of the bytes from index `i` on, with the hyphens that end the
first four groups. -/
def bytesText : ℕ → List (Fin 256) → List Char
  | _, [] => []
  | i, b :: bs =>
      hexDigit (halves b).1 :: hexDigit (halves b).2 ::
        if i = 3 ∨ i = 5 ∨ i = 7 ∨ i = 9 then '-' :: bytesText (i + 1) bs
        else bytesText (i + 1) bs

/-- `uuid_out`. -/
def toText (u : Uuid) : String := String.ofList (bytesText 0 u.bytes)

theorem utf8ByteSize_ofList_cons (c : Char) (cs : List Char) :
    (String.ofList (c :: cs)).utf8ByteSize = c.utf8Size + (String.ofList cs).utf8ByteSize := by
  rw [String.ofList_cons, String.utf8ByteSize_append, String.utf8ByteSize_singleton]

/-- The hyphens `bytesText` writes for `n` bytes from index `i` on. -/
def hyphens : ℕ → ℕ → ℕ
  | _, 0 => 0
  | i, n + 1 => (if i = 3 ∨ i = 5 ∨ i = 7 ∨ i = 9 then 1 else 0) + hyphens (i + 1) n

theorem utf8ByteSize_bytesText (i : ℕ) (bs : List (Fin 256)) :
    (String.ofList (bytesText i bs)).utf8ByteSize = 2 * bs.length + hyphens i bs.length := by
  have hdigit : ∀ n : Fin 16, (hexDigit n).utf8Size = 1 := by decide
  induction bs generalizing i with
  | nil => rfl
  | cons b bs ih =>
      rw [bytesText, List.length_cons, hyphens, utf8ByteSize_ofList_cons, utf8ByteSize_ofList_cons,
        hdigit, hdigit]
      split_ifs
      · rw [utf8ByteSize_ofList_cons, ih, show ('-' : Char).utf8Size = 1 by decide]
        omega
      · rw [ih]
        omega

/-- The printed form has 36 bytes. -/
theorem utf8ByteSize_toText (u : Uuid) : u.toText.utf8ByteSize = 36 := by
  rw [toText, utf8ByteSize_bytesText, u.size]
  decide

/-! ## Input -/

/-- Skip the hyphen that may follow the byte of index `i`. -/
def skipHyphen (i : ℕ) : List Char → List Char
  | '-' :: cs => if i % 2 = 1 ∧ i < 15 then cs else '-' :: cs
  | cs => cs

/-- Read `n` bytes, the first of which has index `i`; also returns what is left
of the text. -/
def parseBytes : ℕ → ℕ → List Char → Option (List (Fin 256) × List Char)
  | 0, _, cs => some ([], cs)
  | n + 1, i, c :: d :: cs =>
      (hexValue c).bind fun hi => (hexValue d).bind fun lo =>
        (parseBytes n (i + 1) (skipHyphen i cs)).map fun p => (ofHalves hi lo :: p.1, p.2)
  | _ + 1, _, _ => none

/-- Sixteen bytes followed by exactly `close`. -/
def parseUntil (close : List Char) (cs : List Char) : Option Uuid :=
  (parseBytes 16 0 cs).bind fun p =>
    if h : p.1.length = 16 ∧ p.2 = close then some ⟨p.1, h.1⟩ else none

/-- `uuid_in`; `none` is its syntax error. -/
def ofText? (s : String) : Option Uuid :=
  match s.toList with
  | '\x7b' :: cs => parseUntil ['\x7d'] cs
  | cs => parseUntil [] cs

/-! ## Round trip -/

theorem skipHyphen_of_ne {cs : List Char} (h : cs.head? ≠ some '-') (i : ℕ) :
    skipHyphen i cs = cs := by
  unfold skipHyphen
  split
  · simp at h
  · rfl

theorem head?_bytesText_ne (i : ℕ) (bs : List (Fin 256)) : (bytesText i bs).head? ≠ some '-' := by
  cases bs with
  | nil => simp [bytesText]
  | cons b bs => simpa [bytesText] using hexDigit_ne_hyphen _

/-- The input loop undoes the output loop, byte by byte. -/
theorem parseBytes_bytesText (bs : List (Fin 256)) :
    ∀ i : ℕ, parseBytes bs.length i (bytesText i bs) = some (bs, []) := by
  induction bs with
  | nil => intro i; rfl
  | cons b bs ih =>
      intro i
      have hskip : skipHyphen i (if i = 3 ∨ i = 5 ∨ i = 7 ∨ i = 9
          then '-' :: bytesText (i + 1) bs else bytesText (i + 1) bs) = bytesText (i + 1) bs := by
        by_cases hi : i = 3 ∨ i = 5 ∨ i = 7 ∨ i = 9
        · have hodd : i % 2 = 1 ∧ i < 15 := by omega
          rw [if_pos hi, skipHyphen, if_pos hodd]
        · rw [if_neg hi, skipHyphen_of_ne (head?_bytesText_ne _ _)]
      simp only [bytesText, List.length_cons, parseBytes, hexValue_hexDigit, Option.bind_some,
        hskip, ih, Option.map_some, ofHalves_halves]

/-- **Every value is read back from its printed form.**  The converse does not
hold: a value has many spellings, of which it is printed as one. -/
theorem ofText?_toText (u : Uuid) : ofText? u.toText = some u := by
  have hparse : parseUntil [] (bytesText 0 u.bytes) = some u := by
    have hbytes := parseBytes_bytesText u.bytes 0
    rw [u.size] at hbytes
    simp [parseUntil, hbytes, u.size]
  unfold ofText? toText
  rw [String.toList_ofList]
  split
  · next cs hcs =>
      cases hb : u.bytes with
      | nil => have := u.size; simp [hb] at this
      | cons b bs =>
          rw [hb, bytesText, List.cons.injEq] at hcs
          exact absurd hcs.1 (hexDigit_ne_brace _)
  · exact hparse

/-- Printing is injective. -/
theorem toText_injective : Function.Injective toText := by
  intro u v h
  have := ofText?_toText u
  rw [h, ofText?_toText, Option.some_inj] at this
  exact this.symm

/-! ## Accepted spellings are short -/

theorem length_le_skipHyphen (i : ℕ) (cs : List Char) :
    cs.length ≤ (skipHyphen i cs).length + 1 := by
  unfold skipHyphen
  split
  · split <;> simp
  · omega

theorem length_le_of_parseBytes :
    ∀ {n i : ℕ} {cs : List Char} {p : List (Fin 256) × List Char},
      parseBytes n i cs = some p → cs.length ≤ 3 * n + p.2.length := by
  intro n
  induction n with
  | zero => intro i cs p h; cases h; simp
  | succ n ih =>
      intro i cs p h
      match cs with
      | [] => simp [parseBytes] at h
      | [c] => simp [parseBytes] at h
      | c :: d :: cs =>
          rw [parseBytes, Option.bind_eq_some_iff] at h
          obtain ⟨hi, -, h⟩ := h
          rw [Option.bind_eq_some_iff] at h
          obtain ⟨lo, -, h⟩ := h
          rw [Option.map_eq_some_iff] at h
          obtain ⟨q, hq, rfl⟩ := h
          have hrest := ih hq
          have hskip := length_le_skipHyphen i cs
          simp only [List.length_cons]
          omega

theorem length_le_of_parseUntil {close cs : List Char} {u : Uuid}
    (h : parseUntil close cs = some u) : cs.length ≤ 48 + close.length := by
  rw [parseUntil, Option.bind_eq_some_iff] at h
  obtain ⟨p, hp, h⟩ := h
  split at h
  · next hclose =>
      have := length_le_of_parseBytes hp
      rw [hclose.2] at this
      omega
  · cases h

/-- No spelling of a `uuid` has more than fifty characters. -/
theorem length_le_of_ofText? {s : String} {u : Uuid} (h : ofText? s = some u) :
    s.toList.length ≤ 50 := by
  unfold ofText? at h
  split at h
  · next cs hcs =>
      have := length_le_of_parseUntil h
      rw [hcs]
      simp only [List.length_cons, List.length_nil] at this ⊢
      omega
  · have := length_le_of_parseUntil h
    simp only [List.length_nil] at this
    omega

end Uuid

end Pg
