import DramatiqPostgres.Lib.Traverse
import DramatiqPostgres.Lib.Url

/-!
# Connection strings

libpq takes a connection string for a URI if it begins with one of two schemes
and `://`, and for a list of keywords and values otherwise.  Either way it reads
a list of settings, of which the last one with a keyword counts, and refuses a
keyword it does not know.

### libpq is a parameter

`Libpq` has what passes through it: which settings a string makes, how a part of
a URI is decoded, and which keywords there are.  `Libpq.Documented` is what its
documentation says and is used here:

* how the parameters of a URI are read (`uriParams`) and where they begin;
* what stands before them, and that it makes the settings of `frontKeywords`
  only;
* which blanks of a keyword/value string can be left out (`BlanksApart`).

What the server does with a setting, and which values it takes, is not asked.
`plainLibpq` is a libpq that is as documented on URIs whose front is a host and
a database (`plainLibpq_documented`), so the laws about any documented one are
about something.

### Where two readers of a query differ

`urllib` and libpq both take the query of a URI apart, and not alike. libpq
refuses a percent sign that starts no escape, where `urllib` leaves it; `urllib`
reads a plus sign as a space, drops blank values and replaces bytes that are not
UTF-8, where libpq does none of it.  `IntactField` is the condition on a field
under which the two agree, and `map_parseQsl` lifts it to a query.

Which tabs and line breaks `urlsplit` may drop from a keyword/value string
depends on where they stand, so `BlanksApart` follows the string character by
character through the places of `Place`.
-/

namespace Pg

open Url

/-- A keyword and its value. -/
abbrev Setting := Bytes × Bytes

def keyword (name : String) : Bytes := utf8 name.toList

/-! ## URIs -/

def uriSchemes : List Text := ["postgresql", "postgres"].map String.toList

/-- A connection string that is read as a URI. -/
def IsUri (s : Text) : Prop :=
  ∃ scheme ∈ uriSchemes, ∃ rest, s = scheme ++ ':' :: '/' :: '/' :: rest

/-- A part of a URI, decoded.  Other than `urllib`, libpq refuses a percent sign
that starts no escape, and `%00`. -/
def percentDecode : Text → Option Bytes
  | '%' :: c :: d :: text =>
      (hexByte c d).bind fun b => if b = 0 then none else (percentDecode text).map (b :: ·)
  | '%' :: _ => none
  | c :: text => (percentDecode text).map (String.utf8EncodeChar c ++ ·)
  | [] => some []

/-- A text without the spaces around it. -/
def stripSpaces (text : Text) : Text := (text.dropWhile (· = ' ')).rdropWhile (· = ' ')

/-- One parameter of a URI.  `ssl=true` is another spelling of
`sslmode=require`. -/
def uriParam (part : Text → Option Bytes) (field : Text) : Option Setting :=
  match cut '=' field with
  | (name, some value) =>
      if '=' ∈ value then none
      else
        (part name).bind fun k => (part value).map fun v =>
          if k = keyword "ssl" ∧ v = keyword "true" then (keyword "sslmode", keyword "require")
          else (k, v)
  | (_, none) => none

/-- The parameters of a URI.  An ampersand may also stand after the last one. -/
def uriParams (part : Text → Option Bytes) (query : Text) : Option (List Setting) :=
  let fields := query.splitOn '&'
  (if fields.getLast? = some [] then fields.dropLast else fields).mapM (uriParam part)

/-- What libpq decodes `urllib` decodes to the same bytes. -/
theorem unquoteToBytes_of_percentDecode {text : Text} {bytes : Bytes}
    (h : percentDecode text = some bytes) : unquoteToBytes text = bytes := by
  fun_induction percentDecode text generalizing bytes with
  | case1 c d text ih =>
      rw [Option.bind_eq_some_iff] at h
      obtain ⟨b, hb, h⟩ := h
      split_ifs at h
      rw [Option.map_eq_some_iff] at h
      obtain ⟨rest, hrest, rfl⟩ := h
      rw [unquoteToBytes, hb]
      exact congrArg (b :: ·) (ih hrest)
  | case2 => cases h
  | case3 c text hpair _ ih =>
      rw [Option.map_eq_some_iff] at h
      obtain ⟨rest, hrest, rfl⟩ := h
      rw [unquoteToBytes, ih hrest]
      exact hpair
  | case4 =>
      cases h
      rfl

/-- A part of a URI that `unquote_plus` decodes as libpq does.  The condition is
on the text alone: what it spells, not what either reader makes of it. -/
structure Intact (text : Text) : Prop where
  no_plus : '+' ∉ text
  no_spaces : stripSpaces text = text
  /-- Its escapes are UTF-8, and decoding loses none of them. -/
  isUtf8 : utf8 (decodeUtf8 (unquoteToBytes text)) = unquoteToBytes text

instance (text : Text) : Decidable (Intact text) :=
  decidable_of_iff ('+' ∉ text ∧ stripSpaces text = text ∧
      utf8 (decodeUtf8 (unquoteToBytes text)) = unquoteToBytes text)
    ⟨fun h => ⟨h.1, h.2.1, h.2.2⟩, fun h => ⟨h.no_plus, h.no_spaces, h.isUtf8⟩⟩

/-- A field that `parse_qsl` reads as libpq does. -/
def IntactField (field : Text) : Prop :=
  ∀ value ∈ (cut '=' field).2, value ≠ [] ∧ Intact (cut '=' field).1 ∧ Intact value ∧
    unquoteToBytes (cut '=' field).1 ≠ keyword "ssl"

instance (field : Text) : Decidable (IntactField field) :=
  inferInstanceAs (Decidable (∀ value ∈ (cut '=' field).2, value ≠ [] ∧
    Intact (cut '=' field).1 ∧ Intact value ∧ unquoteToBytes (cut '=' field).1 ≠ keyword "ssl"))

/-- The decoding of a part of a URI, with or without the spaces around it. -/
def Decodes (part : Text → Option Bytes) : Prop :=
  ∀ text bytes, part text = some bytes →
    percentDecode text = some bytes ∨ percentDecode (stripSpaces text) = some bytes

theorem utf8_unquotePlus {part : Text → Option Bytes} (hpart : Decodes part) {text : Text}
    {bytes : Bytes} (htext : Intact text) (h : part text = some bytes) :
    unquoteToBytes text = bytes ∧ utf8 (unquotePlus text) = bytes := by
  have hdecode : percentDecode text = some bytes := by
    obtain h | h := hpart text bytes h
    · exact h
    · rwa [htext.no_spaces] at h
  have hbytes := unquoteToBytes_of_percentDecode hdecode
  refine ⟨hbytes, ?_⟩
  rw [unquotePlus_eq htext.no_plus htext.isUtf8.symm, htext.isUtf8, hbytes]

theorem readField_eq {part : Text → Option Bytes} (hpart : Decodes part) {field : Text}
    {setting : Setting} (hfield : IntactField field) (h : uriParam part field = some setting) :
    ∃ e, readField field = some e ∧ Prod.map utf8 utf8 e = setting := by
  rw [uriParam] at h
  cases hcut : cut '=' field with
  | mk name value =>
      cases value with
      | none =>
          rw [hcut] at h
          cases h
      | some value =>
          rw [IntactField, hcut] at hfield
          obtain ⟨hblank, hname, hvalue, hssl⟩ := hfield value rfl
          rw [hcut] at h
          dsimp only at h
          split_ifs at h
          obtain ⟨k, hk, hrest⟩ := Option.bind_eq_some_iff.mp h
          obtain ⟨v, hv, hsetting⟩ := Option.map_eq_some_iff.mp hrest
          obtain ⟨hkey, hkey'⟩ := utf8_unquotePlus hpart hname hk
          obtain ⟨-, hvalue'⟩ := utf8_unquotePlus hpart hvalue hv
          rw [if_neg fun hold => hssl (hkey.trans hold.1)] at hsetting
          obtain ⟨c, value, rfl⟩ := List.exists_cons_of_ne_nil hblank
          refine ⟨_, by rw [readField, hcut], ?_⟩
          rw [← hsetting, Prod.map_apply, hkey', hvalue']

/-- **The fields of a query are the parameters of the URI**, if each is read
alike: in the same order, so that the same one of several with a keyword
counts. -/
theorem map_parseQsl {part : Text → Option Bytes} (hpart : Decodes part) {query : Text}
    {params : List Setting} (hquery : ∀ field ∈ query.splitOn '&', IntactField field)
    (h : uriParams part query = some params) :
    (parseQsl query).map (Prod.map utf8 utf8) = params := by
  have hfields : ∀ fields : List Text, (∀ field ∈ fields, IntactField field) →
      ∀ params, fields.mapM (uriParam part) = some params →
      (fields.filterMap readField).map (Prod.map utf8 utf8) = params := by
    intro fields hintact params hparams
    rw [List.mapM_eq_some_iff] at hparams
    induction hparams with
    | nil => rfl
    | cons hsetting _ ih =>
        obtain ⟨e, he, rfl⟩ := readField_eq hpart (hintact _ List.mem_cons_self) hsetting
        rw [List.filterMap_cons, he]
        exact congrArg (Prod.map utf8 utf8 e :: ·)
          (ih fun field hmem => hintact field (List.mem_cons_of_mem _ hmem))
  rw [uriParams] at h
  split_ifs at h with hlast
  · -- an empty field after the last ampersand is no field for either
    have hsplit := List.dropLast_append_getLast? [] hlast
    rw [parseQsl, ← hsplit, List.filterMap_append]
    show (_ ++ ([] : List (Text × Text))).map _ = params
    rw [List.append_nil]
    refine hfields _ (fun field hmem => hquery field ?_) _ h
    exact (List.dropLast_sublist _).subset hmem
  · exact hfields _ hquery _ h

/-! ## Keywords and values -/

/-- Where a character of a keyword/value string stands. -/
inductive Place where
  /-- between settings, in a keyword, or before its equals sign -/
  | keyword
  /-- after the equals sign -/
  | equals
  /-- in a value without quotes -/
  | bare
  | bareEscape
  /-- after tabs and line breaks that end a value without quotes -/
  | bareEnd
  | quoted
  | quotedEscape
  deriving DecidableEq, Repr

def isBlank (c : Char) : Bool :=
  c = ' ' || c = '\t' || c = '\n' || c = '\r' || c = '\x0B' || c = '\x0C'

/-- The place after one more character. -/
def Place.next : Place → Char → Place
  | .keyword, c => if c = '=' then .equals else .keyword
  | .equals, c =>
      if isBlank c then .equals
      else if c = '\'' then .quoted
      else if c = '\\' then .bareEscape
      else .bare
  | .bare, c => if isBlank c then .keyword else if c = '\\' then .bareEscape else .bare
  | .bareEscape, _ => .bare
  | .bareEnd, _ => .keyword
  | .quoted, c =>
      if c = '\'' then .keyword else if c = '\\' then .quotedEscape else .quoted
  | .quotedEscape, _ => .quoted

/-- The place after a tab or a line break that is left out, unless it belongs to
a value. -/
def Place.skip : Place → Option Place
  | .keyword => some .keyword
  | .equals => some .equals
  | .bare => some .bareEnd
  | .bareEnd => some .bareEnd
  | _ => none

/-- Whether no tab or line break belongs to a value, and none is all that ends
one. -/
def separates : Place → Text → Bool
  | _, [] => true
  | place, c :: s =>
      if isDropped c then
        match place.skip with
        | some place => separates place s
        | none => false
      else if place = .bareEnd ∧ isBlank c = false then false
      else separates (place.next c) s

/-- What `urlsplit` leaves out of a keyword/value string are blanks between its
settings, and other blanks stay where they are needed.  A tab inside of a quoted
value would be lost; one that ends a value would join it to the next keyword. -/
def BlanksApart (s : Text) : Prop :=
  (s.takeWhile isLeading).all isBlank = true ∧ separates .keyword s = true

instance (s : Text) : Decidable (BlanksApart s) :=
  inferInstanceAs (Decidable ((s.takeWhile isLeading).all isBlank = true ∧
    separates .keyword s = true))

/-! ## libpq -/

/-- What goes through libpq. -/
structure Libpq where
  /-- The settings of a connection string, in the order in which they are
  made. -/
  settings : Text → Option (List Setting)
  /-- The decoding of a keyword or a value of a URI. -/
  part : Text → Option Bytes
  /-- Whether there is a parameter of this name. -/
  known : Bytes → Bool
  /-- `PQlibVersion`. -/
  version : ℕ

/-- The settings that stand before the parameters of a URI. -/
def frontKeywords : List Bytes := ["user", "password", "host", "port", "dbname"].map keyword

/-- Whether every opening bracket is closed. -/
def closed : Text → Bool
  | [] => true
  | c :: text => (c != '[' || decide (']' ∈ text)) && closed text

/-- What the documentation says of libpq, as far as a string that is taken apart
and put together again depends on it. -/
structure Libpq.Documented (libpq : Libpq) : Prop where
  /-- Parts of a URI are decoded; spaces around them may be ignored. -/
  part_decodes : Decodes libpq.part
  /-- The parameters of a URI follow the first question mark that stands neither
  in the credentials, which reach to an at sign before the first slash, nor in a
  bracketed host. -/
  uri_params : ∀ scheme ∈ uriSchemes, ∀ netloc path query : Text,
    '/' ∉ netloc → '?' ∉ netloc → closed netloc = true →
    (∀ c ∈ path.head?, c = '/') → '?' ∉ path →
    (path ≠ [] ∨ '@' ∈ netloc ∨ '@' ∉ query.takeWhile (· ≠ '/')) →
    libpq.settings (scheme ++ ':' :: '/' :: '/' :: (netloc ++ (path ++ '?' :: query))) =
      (libpq.settings (scheme ++ ':' :: '/' :: '/' :: (netloc ++ path))).bind fun front =>
        (uriParams libpq.part query).map (front ++ ·)
  /-- What stands before them is the user, the password, the host, the port and
  the database. -/
  uri_front : ∀ scheme ∈ uriSchemes, ∀ rest front, '?' ∉ rest →
    libpq.settings (scheme ++ ':' :: '/' :: '/' :: rest) = some front →
    ∀ setting ∈ front, setting.1 ∈ frontKeywords
  /-- Settings are separated by blanks, and blanks around an equals sign are
  optional. -/
  blanks : ∀ s settings, ¬ IsUri s → ¬ IsUri (sanitize s) → BlanksApart s →
    libpq.settings s = some settings → libpq.settings (sanitize s) = some settings
  /-- No keyword begins with the scheme of a URI and a colon. -/
  no_scheme : ∀ scheme ∈ uriSchemes, ∀ rest settings, ¬ IsUri (scheme ++ ':' :: rest) →
    libpq.settings (scheme ++ ':' :: rest) = some settings →
    ∃ setting ∈ settings, libpq.known setting.1 = false
  known_keepalives : ∀ name ∈ ["application_name", "keepalives", "keepalives_count",
    "keepalives_idle", "keepalives_interval"], libpq.known (keyword name) = true
  known_tcp_user_timeout : 120000 ≤ libpq.version →
    libpq.known (keyword "tcp_user_timeout") = true

/-! ## URIs without credentials -/

/-- The settings of a front that is a host and a database. -/
def plainFront (front : Text) : Option (List Setting) :=
  let host := front.takeWhile (· ≠ '/')
  let dbname := (front.dropWhile (· ≠ '/')).tail
  if front.any fun c => "@[]:,%# ".toList.contains c then none
  else some ((if host = [] then [] else [(keyword "host", utf8 host)]) ++
    if dbname = [] then [] else [(keyword "dbname", utf8 dbname)])

def plainRest (rest : Text) : Option (List Setting) :=
  match cut '?' rest with
  | (front, none) => plainFront front
  | (front, some query) =>
      (plainFront front).bind fun settings =>
        (uriParams percentDecode query).map (settings ++ ·)

def plainSettings (s : Text) : Option (List Setting) :=
  (cut ':' s).2.bind fun rest =>
    if uriSchemes.contains (cut ':' s).1 = true ∧ rest.take 2 = ['/', '/'] then
      plainRest (rest.drop 2)
    else none

/-- libpq 16, on URIs whose front is a host and a database. -/
def plainLibpq : Libpq where
  settings := plainSettings
  part := percentDecode
  known := fun key => (["host", "port", "dbname", "user", "password", "passfile", "options",
    "application_name", "fallback_application_name", "connect_timeout", "client_encoding",
    "keepalives", "keepalives_idle", "keepalives_interval", "keepalives_count",
    "tcp_user_timeout", "sslmode", "target_session_attrs"].map keyword).contains key
  version := 160000

theorem colon_notMem_uriSchemes : ∀ scheme ∈ uriSchemes, ':' ∉ scheme := by decide +kernel

theorem plainSettings_uri {scheme : Text} (h : scheme ∈ uriSchemes) (rest : Text) :
    plainSettings (scheme ++ ':' :: '/' :: '/' :: rest) = plainRest rest := by
  rw [plainSettings, cut_append (colon_notMem_uriSchemes scheme h)]
  exact if_pos ⟨List.contains_iff_mem.mpr h, rfl⟩

theorem isUri_of_plainSettings {s : Text} {settings : List Setting}
    (h : plainSettings s = some settings) : IsUri s := by
  rw [plainSettings, Option.bind_eq_some_iff] at h
  obtain ⟨rest, hrest, h⟩ := h
  split_ifs at h with hscheme
  refine ⟨(cut ':' s).1, List.contains_iff_mem.mp hscheme.1, rest.drop 2, ?_⟩
  have hslashes : '/' :: '/' :: rest.drop 2 = rest := by
    have happend := List.take_append_drop 2 rest
    rwa [hscheme.2] at happend
  rw [hslashes]
  exact eq_of_cut (Prod.ext rfl hrest)

theorem fst_mem_of_plainFront {front : Text} {settings : List Setting}
    (h : plainFront front = some settings) : ∀ setting ∈ settings, setting.1 ∈ frontKeywords := by
  rw [plainFront] at h
  split_ifs at h
  all_goals
    cases h
    simp [frontKeywords]

/-- It is as documented. -/
theorem plainLibpq_documented : plainLibpq.Documented where
  part_decodes := fun _ _ h => Or.inl h
  uri_params := by
    intro scheme hscheme netloc path query _ hnetloc _ _ hpath _
    have hfront : '?' ∉ netloc ++ path := by simp [hnetloc, hpath]
    show plainSettings _ = (plainSettings _).bind _
    rw [plainSettings_uri hscheme, plainSettings_uri hscheme, ← List.append_assoc, plainRest,
      cut_append hfront, plainRest, cut_of_not_mem hfront]
    rfl
  uri_front := by
    intro scheme hscheme rest front hrest hfront
    have hplain : plainSettings _ = some front := hfront
    rw [plainSettings_uri hscheme, plainRest, cut_of_not_mem hrest] at hplain
    exact fst_mem_of_plainFront hplain
  blanks := fun _ _ huri _ _ h => absurd (isUri_of_plainSettings h) huri
  no_scheme := fun _ _ _ _ huri h => absurd (isUri_of_plainSettings h) huri
  known_keepalives := by decide +kernel
  known_tcp_user_timeout := fun _ => by decide +kernel

end Pg
