import DramatiqPostgres.Results.Store

/-!
# The paths of a result

A result is written through one encoder and read through up to three paths.
`_store` encodes it with the *global* encoder, reads that text back with
`json.loads`, and stores the document in a `jsonb` column.  `get_result` reads

* the column, on its first or its second GET: psycopg decodes it with
  `json.loads`;
* the payload of the notification, which is the text of the column: the
  *backend's* encoder decodes it.

`PathsAgree` is the law that all of them hand the object to `unwrap_result` that
the backend's encoder makes of its own text.

### When the paths agree

The code never applies `decode` to the column, and never asks the backend's
encoder what to write.  So the paths agree where neither matters, which is a
condition on the two encoders and the value:

* `ReadsPlainly` — the backend's encoder reads the text it writes for the value
  as plain JSON.  An encoder that tags its values, a date for instance, does
  not.
* `KeepsWritten` — the document it writes for the value is the one `jsonb` keeps
  of the global encoder's text, up to the order of keys.  It fails where the two
  encoders write the value differently, and for floats that `jsonb` turns into
  integers.
* `ReadsDocuments` — the backend's encoder reads a text by the document in it,
  however it is spelled.  `jsonb` prints a document its own way: besides the
  order of keys and the white space, its escapes and its numbers are not those
  Python writes.  Only payloads need this, so nothing is asked where the result
  is too large for one.

The three are enough (`pathsAgree_of_readsPlainly`), and of the first two none
can be missing alone: where the paths agree, either of them implies the other.
What is left open is an encoder that meets neither; there the paths can agree by
coincidence only, its `decode` undoing for this very value what the store has
done to it.
-/

universe u

namespace DramatiqPostgres

namespace Results

open Pg

/-- A JSON text, with the document `json.loads` reads from it. -/
structure JsonText where
  text : String
  doc : Json

/-- The text of a `jsonb` value. -/
def JsonText.ofJsonb (doc : Json) : JsonText := ⟨doc.text, doc⟩

/-- What the program uses of its runtime, over the objects `V`. -/
structure Python (V : Type u) where
  /-- `json.loads`, after parsing. -/
  loads : Json → V
  /-- A message as the dictionary it encodes itself as; any other object as
  itself. -/
  asdict : V → V

/-- A dramatiq encoder that writes JSON text, `none` being an exception. -/
structure Encoder (V : Type u) where
  encode : V → Option JsonText
  decode : JsonText → Option V

/-- What a path of `get_result` hands to `unwrap_result`, if it comes to
that. -/
inductive Handed (V : Type u) where
  | value (x : V)
  /-- `ResultMissing`. -/
  | missing
  /-- Another exception. -/
  | raised

section Paths

variable {V : Type u} (py : Python V)

/-- `tidy4json`, with the global encoder. -/
def tidy4json (globalEncoder : Encoder V) (data : V) : Option Json :=
  (globalEncoder.encode (py.asdict data)).map JsonText.doc

/-- `_store`; `none` is any exception. -/
def store (globalEncoder : Encoder V) (now : Time) (key : String) (result : V) (ttl : ℤ)
    (table : ResultTable) : Option (ResultTable × Notification) :=
  (tidy4json py globalEncoder result).bind fun doc =>
    (ResultQueries.store now key doc ttl table).toOption

/-- An object decoded by an encoder. -/
def decoded (encoder : Encoder V) (text : JsonText) : Handed V :=
  (encoder.decode text).elim .raised .value

/-- The path of a GET. -/
def fromTable (now : Time) (key : String) (table : ResultTable) : Handed V :=
  match ResultQueries.get now key table with
  | .ok (some doc) => .value (py.loads doc)
  | .ok none => .missing
  | .error _ => .raised

end Paths

/-! ## An encoder that tags its dates -/

/-- Python objects: those `json.loads` makes, and dates. -/
abbrev Dated := Json ⊕ ℤ

/-- `json.loads` makes no dates, and no value is a message. -/
def datedPython : Python Dated := ⟨fun doc => .inl doc.canonical, id⟩

/-- The object an encoder's `object_hook` makes of a document. -/
def dateHook : Json → Dated
  | .obj [("__datetime__", .int t)] => .inr t
  | doc => .inl doc

/-- An encoder that writes a date as an object with a tag. -/
def dateEncoder : Encoder Dated where
  encode := fun
    | .inl doc => some ⟨doc.text, doc⟩
    | .inr t =>
        let doc := Json.obj [("__datetime__", .int t)]
        some ⟨doc.text, doc⟩
  decode := fun text => some (dateHook text.doc.canonical)

end Results

end DramatiqPostgres
