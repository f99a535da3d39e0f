import DramatiqPostgres.Lib.Dict
import DramatiqPostgres.Pg.Json

/-!
# Python values through JSON and `jsonb`

`Value` is what dramatiq's JSON encoder accepts: beside the values of JSON there
are tuples, and dictionaries whose keys are any scalars.  `dumps` writes the
document of a value and `loads` makes a value of a document.

* `loads_dumps`: reading back what was written turns tuples into lists and keys
  into their texts; where two keys have one text, the last entry stays
  (`listed`).
* `jsonb_dumps`: a `jsonb` column keeps a value that is `storable`, with its
  numbers as exact decimals (`decimal`).
* `decimal_listed_eq_iff`: both leave a value alone exactly if it is `Plain`.

### Two functions that say what is lost

`listed` and `decimal` are on values, not on documents: they say in Python's
terms what a value has become, the first by the text and the second by the
column.  They commute (`listed_decimal`), each is idempotent, and a value goes
through both once and then stays as it is, however often the message is stored
and read again.

### Three mutual recursions

Values nest, so every function comes in three parts, for a value, for items and
for entries, and every proof does.  The part about entries is where the work is:
a dictionary of the text may have fewer entries than the one it was written
from, because two keys can have one text, and what stays is the last of them.
`ofEntries_map_set` of the library is the fact behind it.

### What is left out

Strings are sequences of Unicode scalar values; a Python string with a lone
surrogate, which `json.dumps` writes as an escape and `jsonb` refuses, is not
among the values.  Nor are values that `json.dumps` refuses, by their type or
because they are nested too deeply.
-/

namespace DramatiqPostgres

namespace Values

open Pg

/-! ## Values -/

/-- A key of a `dict`, of the types `json.dumps` accepts; `null` is `None`. -/
inductive Key where
  | str (s : String)
  | int (n : ℤ)
  | float (x : JsonFloat)
  | bool (b : Bool)
  | null
  deriving DecidableEq, Repr

/-- A value, of the types `json.dumps` accepts; `null` is `None`. -/
inductive Value where
  | null
  | bool (b : Bool)
  | int (n : ℤ)
  | float (x : JsonFloat)
  | str (s : String)
  | list (items : List Value)
  | tuple (items : List Value)
  | dict (entries : List (Key × Value))

/-- Decimal text of an integer. -/
def intRepr (n : ℤ) : String := Json.sign n ++ String.ofList (Json.digits n)

/-- The exponent of a float, with a sign and at least two digits. -/
def exponentRepr (e : ℤ) : String :=
  (if e < 0 then "e-" else "e+") ++
    (if e.natAbs < 10 then "0" else "") ++ String.ofList (Json.digits e)

/-- `float.__repr__`: there is an exponent where the point would stand after
more than sixteen digits, or before more than three zeros. -/
def floatRepr : JsonFloat → String
  | .finite m e =>
      let point : ℤ := (Json.digits m).length + e
      if -4 < point ∧ point ≤ 16 then Json.floatText m e
      else
        Json.sign m ++ String.ofList ((Json.digits m).take 1) ++
          (if (Json.digits m).length = 1 then "" else ".") ++
            String.ofList ((Json.digits m).drop 1) ++ exponentRepr (point - 1)
  | .nan => "NaN"
  | .infinity => "Infinity"
  | .negInfinity => "-Infinity"

/-- The text `json.dumps` writes for a key.  Different keys can have one text,
such as `1` and `"1"`. -/
def Key.text : Key → String
  | .str s => s
  | .int n => intRepr n
  | .float x => floatRepr x
  | .bool true => "true"
  | .bool false => "false"
  | .null => "null"

mutual

/-- `json.dumps`. -/
def dumps : Value → Json
  | .null => .null
  | .bool b => .bool b
  | .int n => .int n
  | .float x => .float x
  | .str s => .str s
  | .list items => .arr (dumpsItems items)
  | .tuple items => .arr (dumpsItems items)
  | .dict entries => .obj (dumpsEntries entries)

/-- `json.dumps` on the items of a list. -/
def dumpsItems : List Value → List Json
  | [] => []
  | v :: vs => dumps v :: dumpsItems vs

/-- `json.dumps` on the entries of a `dict`. -/
def dumpsEntries : List (Key × Value) → List (String × Json)
  | [] => []
  | e :: es => (e.1.text, dumps e.2) :: dumpsEntries es

end

/-- A `dict` of entries with text keys; of several entries with one key the last
one stays, in the place of the first. -/
def dictOf (es : List (String × Value)) : List (Key × Value) :=
  (Dict.ofEntries es).map fun e => (.str e.1, e.2)

mutual

/-- `json.loads`. -/
def loads : Json → Value
  | .null => .null
  | .bool b => .bool b
  | .int n => .int n
  | .float x => .float x
  | .str s => .str s
  | .arr items => .list (loadsItems items)
  | .obj fields => .dict (dictOf (loadsFields fields))

/-- `json.loads` on the items of an array. -/
def loadsItems : List Json → List Value
  | [] => []
  | j :: js => loads j :: loadsItems js

/-- `json.loads` on the fields of an object. -/
def loadsFields : List (String × Json) → List (String × Value)
  | [] => []
  | f :: fs => (f.1, loads f.2) :: loadsFields fs

end

/-! ## What becomes of a value -/

mutual

/-- A value as JSON has it: tuples are lists and keys are texts.  Entries whose
keys have one text are merged, and the last one stays. -/
def listed : Value → Value
  | .list items => .list (listedItems items)
  | .tuple items => .list (listedItems items)
  | .dict entries => .dict (dictOf (listedEntries entries))
  | .null => .null
  | .bool b => .bool b
  | .int n => .int n
  | .float x => .float x
  | .str s => .str s

/-- `listed` on items. -/
def listedItems : List Value → List Value
  | [] => []
  | v :: vs => listed v :: listedItems vs

/-- `listed` on entries, before those with one key are merged. -/
def listedEntries : List (Key × Value) → List (String × Value)
  | [] => []
  | e :: es => (e.1.text, listed e.2) :: listedEntries es

end

/-- A float that Python writes with a positive exponent is the integer of its
decimals; every other one stays a float. -/
def decimalFloat : JsonFloat → Value
  | .finite m e =>
      if 16 < ((Json.digits m).length : ℤ) + e then .int (m * 10 ^ e.toNat)
      else .float (.finite m e)
  | x => .float x

mutual

/-- A value with the numbers `jsonb` makes of its floats. -/
def decimal : Value → Value
  | .float x => decimalFloat x
  | .list items => .list (decimalItems items)
  | .tuple items => .tuple (decimalItems items)
  | .dict entries => .dict (decimalEntries entries)
  | .null => .null
  | .bool b => .bool b
  | .int n => .int n
  | .str s => .str s

/-- `decimal` on items. -/
def decimalItems : List Value → List Value
  | [] => []
  | v :: vs => decimal v :: decimalItems vs

/-- `decimal` on entries. -/
def decimalEntries : List (Key × Value) → List (Key × Value)
  | [] => []
  | e :: es => (e.1, decimal e.2) :: decimalEntries es

end

/-- A number `jsonb` has. -/
def isFinite : JsonFloat → Bool
  | .finite _ _ => true
  | _ => false

mutual

/-- No U+0000 in a string or in the text of a key, and no float that is not a
number or infinite.  A column refuses a document for nothing else. -/
def storable : Value → Bool
  | .float x => isFinite x
  | .str s => Json.storable s
  | .list items => storableItems items
  | .tuple items => storableItems items
  | .dict entries => storableEntries entries
  | .null => true
  | .bool _ => true
  | .int _ => true

/-- `storable` on items. -/
def storableItems : List Value → Bool
  | [] => true
  | v :: vs => storable v && storableItems vs

/-- `storable` on entries. -/
def storableEntries : List (Key × Value) → Bool
  | [] => true
  | e :: es => Json.storable e.1.text && storable e.2 && storableEntries es

end

/-- The key is a `str`. -/
def Key.isStr : Key → Bool
  | .str _ => true
  | _ => false

mutual

/-- No tuple, no key but texts, no float written with a positive exponent:
nothing that a text or a column writes in another way. -/
def Plain : Value → Prop
  | .float x => decimalFloat x = .float x
  | .list items => PlainItems items
  | .tuple _ => False
  | .dict entries => (entries.map Prod.fst).Nodup ∧ PlainEntries entries
  | .null => True
  | .bool _ => True
  | .int _ => True
  | .str _ => True

/-- `Plain` on items. -/
def PlainItems : List Value → Prop
  | [] => True
  | v :: vs => Plain v ∧ PlainItems vs

/-- `Plain` on entries. -/
def PlainEntries : List (Key × Value) → Prop
  | [] => True
  | e :: es => e.1.isStr = true ∧ Plain e.2 ∧ PlainEntries es

end

/-! ## Through the text and back -/

mutual

/-- **What was written is read back** with lists for tuples and texts for keys.
By induction on the value; the entries of a dictionary are merged as they are
read. -/
theorem loads_dumps : ∀ v : Value, loads (dumps v) = listed v
  | .null | .bool _ | .int _ | .float _ | .str _ => by simp only [dumps, loads, listed]
  | .list items => by rw [dumps, loads, listed, loadsItems_dumpsItems items]
  | .tuple items => by rw [dumps, loads, listed, loadsItems_dumpsItems items]
  | .dict entries => by rw [dumps, loads, listed, loadsFields_dumpsEntries entries]

theorem loadsItems_dumpsItems : ∀ vs : List Value, loadsItems (dumpsItems vs) = listedItems vs
  | [] => rfl
  | v :: vs => by rw [dumpsItems, loadsItems, listedItems, loads_dumps v, loadsItems_dumpsItems vs]

theorem loadsFields_dumpsEntries :
    ∀ es : List (Key × Value), loadsFields (dumpsEntries es) = listedEntries es
  | [] => rfl
  | e :: es => by
      rw [dumpsEntries, loadsFields, listedEntries, loads_dumps e.2, loadsFields_dumpsEntries es]

end

theorem listedEntries_eq_map (es : List (Key × Value)) :
    listedEntries es = es.map fun e => (e.1.text, listed e.2) := by
  induction es with
  | nil => rfl
  | cons e es ih => rw [listedEntries, ih, List.map_cons]

theorem decimalEntries_eq_map (es : List (Key × Value)) :
    decimalEntries es = es.map (Prod.map id decimal) := by
  induction es with
  | nil => rfl
  | cons e es ih => rw [decimalEntries, ih, List.map_cons]; rfl

/-- Values can be changed before or after a `dict` is made of the entries. -/
theorem dictOf_map (f : Value → Value) (es : List (String × Value)) :
    dictOf (es.map (Prod.map id f)) = (dictOf es).map (Prod.map id f) := by
  rw [dictOf, dictOf, ← Dict.map_ofEntries, List.map_map, List.map_map]
  rfl

/-- The keys of a `dict` that is made are distinct. -/
theorem nodup_dictOf (es : List (String × Value)) : ((dictOf es).map Prod.fst).Nodup := by
  have h := (Dict.nodup_ofEntries es).map (f := Key.str) fun _ _ h => Key.str.inj h
  rw [List.map_map] at h
  rwa [dictOf, List.map_map]

theorem listedEntries_dictOf (es : List (String × Value)) :
    listedEntries (dictOf es) = (Dict.ofEntries es).map (Prod.map id listed) := by
  rw [listedEntries_eq_map, dictOf, List.map_map]
  rfl

mutual

/-- Reading a value back a second time changes nothing. -/
theorem listed_listed : ∀ v : Value, listed (listed v) = listed v
  | .null | .bool _ | .int _ | .float _ | .str _ => by simp only [listed]
  | .list items => by rw [listed, listed, listedItems_listedItems items]
  | .tuple items => by rw [listed, listed, listedItems_listedItems items]
  | .dict entries => by
      rw [listed, listed, listedEntries_dictOf, Dict.map_ofEntries,
        map_listed_listedEntries entries, dictOf, dictOf,
        Dict.ofEntries_of_nodup (Dict.nodup_ofEntries _)]

theorem listedItems_listedItems : ∀ vs : List Value, listedItems (listedItems vs) = listedItems vs
  | [] => rfl
  | v :: vs => by rw [listedItems, listedItems, listed_listed v, listedItems_listedItems vs]

theorem map_listed_listedEntries :
    ∀ es : List (Key × Value), (listedEntries es).map (Prod.map id listed) = listedEntries es
  | [] => rfl
  | e :: es => by
      rw [listedEntries, List.map_cons, map_listed_listedEntries es]
      show (e.1.text, listed (listed e.2)) :: _ = _
      rw [listed_listed e.2]

end

mutual

/-- The numbers can be changed before or after. -/
theorem listed_decimal : ∀ v : Value, listed (decimal v) = decimal (listed v)
  | .null | .bool _ | .int _ | .str _ => by simp only [decimal, listed]
  | .float x => by
      rw [listed, decimal]
      cases x with
      | finite m e => rw [decimalFloat]; split_ifs <;> rw [listed]
      | nan | infinity | negInfinity =>
          rw [decimalFloat, listed]
          simp
  | .list items => by rw [decimal, listed, listed, decimal, listedItems_decimalItems items]
  | .tuple items => by rw [decimal, listed, listed, decimal, listedItems_decimalItems items]
  | .dict entries => by
      rw [decimal, listed, listed, decimal, listedEntries_decimalEntries entries, dictOf_map,
        decimalEntries_eq_map]

theorem listedItems_decimalItems :
    ∀ vs : List Value, listedItems (decimalItems vs) = decimalItems (listedItems vs)
  | [] => rfl
  | v :: vs => by
      rw [decimalItems, listedItems, listedItems, decimalItems, listed_decimal v,
        listedItems_decimalItems vs]

theorem listedEntries_decimalEntries :
    ∀ es : List (Key × Value),
      listedEntries (decimalEntries es) = (listedEntries es).map (Prod.map id decimal)
  | [] => rfl
  | e :: es => by
      rw [decimalEntries, listedEntries, listedEntries, List.map_cons, listed_decimal e.2,
        listedEntries_decimalEntries es]
      rfl

end

theorem dictOf_ofEntries (es : List (String × Value)) :
    dictOf (Dict.ofEntries es) = dictOf es := by
  rw [dictOf, dictOf, Dict.ofEntries_of_nodup (Dict.nodup_ofEntries es)]

/-- A `dict` that has been through both is left alone by another reading. -/
theorem dictOf_listedEntries_decimalEntries (es : List (Key × Value)) :
    dictOf (listedEntries (decimalEntries (dictOf (listedEntries es)))) =
      decimalEntries (dictOf (listedEntries es)) := by
  rw [listedEntries_decimalEntries, listedEntries_dictOf, Dict.map_ofEntries,
    map_listed_listedEntries, dictOf_map, dictOf_ofEntries, decimalEntries_eq_map]

/-!
## The text of a key

The text of a number has no `t` in it, so that no other key is written like
`eta`.
-/

theorem not_mem_sign (n : ℤ) : 't' ∉ (Json.sign n).toList := by
  rw [Json.sign]
  split <;> decide

theorem not_mem_digits (n : ℤ) : 't' ∉ Json.digits n := by
  intro h
  have hdigit := Nat.isDigit_of_mem_toDigits (by decide) (by decide) h
  exact absurd hdigit (by decide)

theorem not_mem_floatText (m e : ℤ) : 't' ∉ (Json.floatText m e).toList := by
  have hzeros (k : ℕ) : 't' ∉ List.replicate k '0' ++ Json.digits m := by
    simp [not_mem_digits]
  rw [Json.floatText]
  split
  · simp [not_mem_sign, not_mem_digits]
  · simp only [String.toList_append, String.toList_ofList, List.mem_append, not_or]
    exact ⟨⟨⟨not_mem_sign m, fun h => hzeros _ (List.mem_of_mem_take h)⟩, by decide⟩,
      fun h => hzeros _ (List.mem_of_mem_drop h)⟩

theorem not_mem_exponentRepr (e : ℤ) : 't' ∉ (exponentRepr e).toList := by
  rw [exponentRepr, String.toList_append, String.toList_append, String.toList_ofList,
    List.mem_append, List.mem_append, not_or, not_or]
  refine ⟨⟨?_, ?_⟩, not_mem_digits e⟩
  · split <;> decide
  · split <;> decide

theorem not_mem_floatRepr (m e : ℤ) : 't' ∉ (floatRepr (.finite m e)).toList := by
  simp only [floatRepr]
  split
  · exact not_mem_floatText m e
  · simp only [String.toList_append, String.toList_ofList, List.mem_append, not_or]
    refine ⟨⟨⟨⟨not_mem_sign m, fun h => not_mem_digits m (List.mem_of_mem_take h)⟩, ?_⟩,
      fun h => not_mem_digits m (List.mem_of_mem_drop h)⟩, not_mem_exponentRepr _⟩
    split <;> decide

/-- No other key is written like `eta`. -/
theorem eq_of_text_eq_eta {k : Key} (h : k.text = (Key.str "eta").text) : k = .str "eta" := by
  have hmem : 't' ∈ k.text.toList := by
    rw [h]
    decide
  cases k with
  | str s => exact congrArg Key.str h
  | int n =>
      refine absurd hmem ?_
      rw [Key.text, intRepr, String.toList_append, String.toList_ofList, List.mem_append, not_or]
      exact ⟨not_mem_sign n, not_mem_digits n⟩
  | float x =>
      cases x with
      | finite m e => exact absurd hmem (not_mem_floatRepr m e)
      | nan | infinity | negInfinity => exact absurd h (by decide)
  | bool b => cases b <;> exact absurd h (by decide)
  | null => exact absurd h (by decide)

/-! ## What a `jsonb` column keeps of it -/

theorem jsonb_float (x : JsonFloat) :
    Json.jsonb (.float x) = if isFinite x then some (dumps (decimalFloat x)) else none := by
  rw [Json.jsonb]
  cases x with
  | finite m e =>
      rw [Json.jsonbFloat, decimalFloat, isFinite, if_pos rfl]
      split_ifs <;> rw [dumps]
  | nan | infinity | negInfinity => rfl

mutual

/-- **A `jsonb` column keeps what is storable**, with its numbers as exact
decimals, and refuses the rest. -/
theorem jsonb_dumps :
    ∀ v : Value, (dumps v).jsonb = if storable v then some (dumps (decimal v)) else none
  | .null | .bool _ | .int _ => by simp [dumps, decimal, storable, Json.jsonb]
  | .str s => by rw [dumps, Json.jsonb_str, storable, decimal, dumps]
  | .float x => by rw [dumps, jsonb_float, storable, decimal]
  | .list items => by
      rw [dumps, Json.jsonb_arr, jsonbItems_dumpsItems items, storable, decimal, dumps]
      split_ifs <;> rfl
  | .tuple items => by
      rw [dumps, Json.jsonb_arr, jsonbItems_dumpsItems items, storable, decimal, dumps]
      split_ifs <;> rfl
  | .dict entries => by
      rw [dumps, Json.jsonb_obj, jsonbFields_dumpsEntries entries, storable, decimal, dumps]
      split_ifs <;> rfl

theorem jsonbItems_dumpsItems :
    ∀ vs : List Value, Json.jsonbItems (dumpsItems vs) =
      if storableItems vs then some (dumpsItems (decimalItems vs)) else none
  | [] => by rw [dumpsItems, Json.jsonbItems, storableItems, if_pos rfl]; rfl
  | v :: vs => by
      rw [dumpsItems, Json.jsonbItems, jsonb_dumps v, jsonbItems_dumpsItems vs, storableItems,
        decimalItems, dumpsItems]
      cases storable v <;> cases storableItems vs <;> rfl

theorem jsonbFields_dumpsEntries :
    ∀ es : List (Key × Value), Json.jsonbFields (dumpsEntries es) =
      if storableEntries es then some (dumpsEntries (decimalEntries es)) else none
  | [] => by rw [dumpsEntries, Json.jsonbFields_nil, storableEntries, if_pos rfl]; rfl
  | e :: es => by
      rw [dumpsEntries, Json.jsonbFields_cons, jsonb_dumps e.2, jsonbFields_dumpsEntries es,
        storableEntries, decimalEntries, dumpsEntries]
      cases Json.storable e.1.text <;> cases storable e.2 <;> cases storableEntries es <;> rfl

end

/-! ## What is left alone -/

theorem isStr_of_plainEntries {es : List (Key × Value)} (h : PlainEntries es) :
    ∀ e ∈ es, e.1.isStr = true := by
  induction es with
  | nil => simp
  | cons e es ih =>
      rw [PlainEntries] at h
      simpa using ⟨h.1, fun k v hmem => ih h.2.2 (k, v) hmem⟩

/-- Distinct texts are distinct keys. -/
theorem ofEntries_listedEntries {es : List (Key × Value)} (hstr : ∀ e ∈ es, e.1.isStr = true)
    (hnodup : (es.map Prod.fst).Nodup) :
    Dict.ofEntries (listedEntries es) = listedEntries es := by
  apply Dict.ofEntries_of_nodup
  have hkeys : (listedEntries es).map Prod.fst = (es.map Prod.fst).map Key.text := by
    rw [listedEntries_eq_map, List.map_map, List.map_map]
    rfl
  rw [hkeys]
  refine hnodup.map_on fun j hj k hk hsame => ?_
  obtain ⟨e, he, rfl⟩ := List.mem_map.mp hj
  obtain ⟨f, hf, rfl⟩ := List.mem_map.mp hk
  have hes := hstr e he
  have hfs := hstr f hf
  revert hsame hes hfs
  cases e.1 <;> cases f.1 <;> simp [Key.isStr, Key.text]

theorem str_text_eq_iff {k : Key} : Key.str k.text = k ↔ k.isStr = true := by
  cases k <;> simp [Key.isStr, Key.text]

mutual

/-- **Storage leaves a value alone exactly if it is plain.**  To any depth, in
all three parts of the recursion. -/
theorem decimal_listed_eq_iff : ∀ v : Value, decimal (listed v) = v ↔ Plain v
  | .null | .bool _ | .int _ | .str _ => by simp [decimal, listed, Plain]
  | .float x => by rw [listed, decimal, Plain]
  | .list items => by rw [listed, decimal, Plain, ← decimalItems_listedItems_eq_iff items,
      Value.list.injEq]
  | .tuple items => by simp [listed, decimal, Plain]
  | .dict entries => by
      rw [listed, decimal, Plain, Value.dict.injEq, decimalEntries_eq_map, dictOf, List.map_map,
        ← map_decimal_listedEntries_eq_iff entries]
      constructor
      · intro h
        have hstr : ∀ e ∈ entries, e.1.isStr = true := by
          intro e he
          rw [← h] at he
          obtain ⟨f, -, rfl⟩ := List.mem_map.mp he
          rfl
        have hnodup : (entries.map Prod.fst).Nodup := by
          have hd := nodup_dictOf (listedEntries entries)
          rw [dictOf, List.map_map] at hd
          rw [← h, List.map_map]
          exact hd
        rw [ofEntries_listedEntries hstr hnodup] at h
        exact ⟨hnodup, h⟩
      · rintro ⟨hnodup, h⟩
        have hstr := isStr_of_plainEntries ((map_decimal_listedEntries_eq_iff entries).mp h)
        rw [ofEntries_listedEntries hstr hnodup]
        exact h

theorem decimalItems_listedItems_eq_iff :
    ∀ vs : List Value, decimalItems (listedItems vs) = vs ↔ PlainItems vs
  | [] => by simp [listedItems, decimalItems, PlainItems]
  | v :: vs => by
      rw [listedItems, decimalItems, PlainItems, List.cons.injEq, decimal_listed_eq_iff v,
        decimalItems_listedItems_eq_iff vs]

theorem map_decimal_listedEntries_eq_iff :
    ∀ es : List (Key × Value),
      (listedEntries es).map (Prod.map id decimal ∘ fun e => (Key.str e.1, e.2)) = es ↔
        PlainEntries es
  | [] => by simp [listedEntries, PlainEntries]
  | e :: es => by
      rw [listedEntries, List.map_cons, PlainEntries, List.cons.injEq,
        map_decimal_listedEntries_eq_iff es, ← decimal_listed_eq_iff e.2, ← str_text_eq_iff,
        ← and_assoc]
      refine and_congr_left' ?_
      exact Prod.ext_iff

end

end Values

end DramatiqPostgres
