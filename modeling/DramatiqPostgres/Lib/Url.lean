import Mathlib.Data.List.DropRight
import Mathlib.Data.List.Induction

/-!
# URLs the way `urllib.parse` takes them apart

`urlparse` knows nothing of the grammar of the text it is given.  It drops
leading blanks and every tab and line break, and then cuts: at the first colon
if what stands before it can be a scheme, at the end of what follows two
slashes, at the first `#`, and at the first `?` before that.  `geturl` writes
the parts back, each with its delimiter unless the part is empty; the two
slashes come back only with an authority, or for one of the schemes in
`usesNetloc`.

`parseQsl` reads the query the way a form is read: blank values are dropped and
a plus sign is a space.

### When the text comes back

`geturl_of_unsplit` and `geturl_of_authority` say when `geturl` gives back the
text that was parsed.  Neither direction of that is a matter of course.  An
empty authority loses its slashes unless the scheme is in the table, an empty
query or fragment loses its delimiter, and a path that begins with two slashes
would be read as an authority.  The conditions of the two theorems name what is
cut.

### Design notes

**Every part of the library that can touch the text is here**, down to the
decoding of escapes: a text that comes out changed is the point of the laws that
use this module, so nothing may be assumed away.  Two checks of an authority are
a parameter, that a bracketed host is an IP address and that normalising it
brings no delimiter into it; the laws hold whatever they answer.

**Texts are lists of characters** and bytes lists of bytes, since all work on
them goes from the front.  Decoding with replacement characters is total, as it
is in Python; on what was encoded it is the inverse (`decodeUtf8_utf8`).
-/

namespace Url

abbrev Text := List Char

abbrev Bytes := List UInt8

/-! ## UTF-8 -/

/-- `text.encode("utf-8")`. -/
def utf8 (text : Text) : Bytes := text.flatMap String.utf8EncodeChar

/-- Whether a byte continues a character. -/
def continues (b : UInt8) : Bool := 0x80 ≤ b && b ≤ 0xBF

/-- Whether `c` can follow `b`, the first byte of a character of three or four
bytes. -/
def follows (b c : UInt8) : Bool :=
  if b = 0xE0 then 0xA0 ≤ c && c ≤ 0xBF
  else if b = 0xED then 0x80 ≤ c && c ≤ 0x9F
  else if b = 0xF0 then 0x90 ≤ c && c ≤ 0xBF
  else if b = 0xF4 then 0x80 ≤ c && c ≤ 0x8F
  else 0xE1 ≤ b && b ≤ 0xF3 && continues c

/-- How many more bytes one replacement character stands for, after a byte that
starts no character: those that could still have been the beginning of one. -/
def illFormed (b : UInt8) : Bytes → ℕ
  | [] => 0
  | c :: bs =>
      if follows b c then
        if 0xF0 ≤ b && bs.head?.any continues then 2 else 1
      else 0

/-- Decode after skipping some bytes. -/
def decodeSkipping : ℕ → Bytes → Text
  | _, [] => []
  | n + 1, _ :: bs => decodeSkipping n bs
  | 0, b :: bs =>
      match (b :: bs).toByteArray.utf8DecodeChar? 0 with
      | some c => c :: decodeSkipping (c.utf8Size - 1) bs
      | none => '\uFFFD' :: decodeSkipping (illFormed b bs) bs

/-- `bytes.decode("utf-8", "replace")`. -/
def decodeUtf8 (bytes : Bytes) : Text := decodeSkipping 0 bytes

theorem decodeSkipping_append {n : ℕ} {skipped : Bytes} (h : skipped.length = n) (bs : Bytes) :
    decodeSkipping n (skipped ++ bs) = decodeSkipping 0 bs := by
  induction skipped generalizing n with
  | nil =>
      subst h
      rfl
  | cons b skipped ih =>
      subst h
      exact ih rfl

/-- Decoding undoes encoding. -/
@[simp] theorem decodeUtf8_utf8 (text : Text) : decodeUtf8 (utf8 text) = text := by
  induction text with
  | nil => rfl
  | cons c text ih =>
      have hsize := c.utf8Size_pos
      have hlength := String.length_utf8EncodeChar c
      obtain ⟨b, bs, hbytes⟩ : ∃ b bs, String.utf8EncodeChar c = b :: bs :=
        List.exists_cons_of_length_pos (by omega)
      have hfirst : (b :: (bs ++ utf8 text)).toByteArray.utf8DecodeChar? 0 = some c := by
        have hchar :=
          List.utf8DecodeChar?_utf8Encode_singleton_append (b := (utf8 text).toByteArray)
          (c := c)
        rwa [List.utf8Encode_singleton, ← List.toByteArray_append, hbytes] at hchar
      have hrest : bs.length = c.utf8Size - 1 := by
        rw [hbytes, List.length_cons] at hlength
        omega
      rw [utf8, List.flatMap_cons, hbytes]
      show decodeSkipping 0 (b :: (bs ++ utf8 text)) = c :: text
      rw [decodeSkipping, hfirst]
      show c :: decodeSkipping (c.utf8Size - 1) (bs ++ utf8 text) = c :: text
      rw [decodeSkipping_append hrest]
      exact congrArg (c :: ·) ih

theorem utf8_injective : Function.Injective utf8 :=
  Function.LeftInverse.injective decodeUtf8_utf8

/-! ## Percent escapes -/

def hexDigit (c : Char) : Option UInt8 :=
  if '0' ≤ c ∧ c ≤ '9' then some (c.toNat - '0'.toNat).toUInt8
  else if 'a' ≤ c ∧ c ≤ 'f' then some (c.toNat - 'a'.toNat + 10).toUInt8
  else if 'A' ≤ c ∧ c ≤ 'F' then some (c.toNat - 'A'.toNat + 10).toUInt8
  else none

/-- The byte two hexadecimal digits stand for. -/
def hexByte (c d : Char) : Option UInt8 :=
  (hexDigit c).bind fun high => (hexDigit d).map fun low => 16 * high + low

/-- `unquote_to_bytes`: a percent sign that starts no escape stays. -/
def unquoteToBytes : Text → Bytes
  | '%' :: c :: d :: text =>
      match hexByte c d with
      | some b => b :: unquoteToBytes text
      | none => String.utf8EncodeChar '%' ++ unquoteToBytes (c :: d :: text)
  | c :: text => String.utf8EncodeChar c ++ unquoteToBytes text
  | [] => []

/-- `unquote`.  `urllib` decodes each run of ASCII characters for itself, which
comes to the same: the first byte of another character is never one that
continues what stands before it. -/
def unquote (text : Text) : Text := decodeUtf8 (unquoteToBytes text)

/-- `unquote_plus`. -/
def unquotePlus (text : Text) : Text := unquote (text.map fun c => if c = '+' then ' ' else c)

/-- Escapes of UTF-8 are decoded to the text whose bytes they spell. -/
theorem unquotePlus_eq {text decoded : Text} (hplus : '+' ∉ text)
    (h : unquoteToBytes text = utf8 decoded) : unquotePlus text = decoded := by
  have hmap : text.map (fun c => if c = '+' then ' ' else c) = text := by
    conv_rhs => rw [← List.map_id text]
    apply List.map_congr_left
    intro c hc
    have hne : c ≠ '+' := by
      rintro rfl
      exact hplus hc
    rw [if_neg hne, id]
  rw [unquotePlus, hmap, unquote, h, decodeUtf8_utf8]

/-! ## Cutting a text -/

/-- What stands before the first `c`, and what stands after it if there is one.
All of `urlsplit` is a sequence of such cuts. -/
def cut (c : Char) : Text → Text × Option Text
  | [] => ([], none)
  | d :: text => if d = c then ([], some text) else (d :: (cut c text).1, (cut c text).2)

theorem cut_append {c : Char} {before : Text} (h : c ∉ before) (after : Text) :
    cut c (before ++ c :: after) = (before, some after) := by
  induction before with
  | nil => exact if_pos rfl
  | cons d before ih =>
      rw [List.mem_cons, not_or] at h
      rw [List.cons_append, cut, if_neg (Ne.symm h.1), ih h.2]

theorem cut_of_not_mem {c : Char} {text : Text} (h : c ∉ text) : cut c text = (text, none) := by
  induction text with
  | nil => rfl
  | cons d text ih =>
      rw [List.mem_cons, not_or] at h
      rw [cut, if_neg (Ne.symm h.1), ih h.2]

theorem eq_of_cut {c : Char} {text before after : Text} (h : cut c text = (before, some after)) :
    text = before ++ c :: after := by
  induction text generalizing before with
  | nil => cases h
  | cons d text ih =>
      rw [cut] at h
      split_ifs at h with hd
      · cases h
        rw [hd, List.nil_append]
      · obtain ⟨hbefore, hafter⟩ := Prod.mk.inj h
        rw [← hbefore, List.cons_append]
        exact congrArg (d :: ·) (ih (Prod.ext rfl hafter))

theorem cut_prefix (c : Char) (text : Text) : (cut c text).1 <+: text := by
  induction text with
  | nil => exact List.prefix_rfl
  | cons d text ih =>
      rw [cut]
      split_ifs
      · exact List.nil_prefix
      · exact List.cons_prefix_cons.mpr ⟨rfl, ih⟩

/-! ## `urlparse` -/

/-- The parts of a URL. -/
structure Parts where
  scheme : Text
  netloc : Text
  path : Text
  params : Text
  query : Text
  fragment : Text
  deriving DecidableEq, Repr

def usesNetloc : List Text :=
  ["", "ftp", "http", "gopher", "nntp", "telnet", "imap", "wais", "file", "mms", "https", "shttp",
    "snews", "prospero", "rtsp", "rtsps", "rtspu", "rsync", "svn", "svn+ssh", "sftp", "nfs", "git",
    "git+ssh", "ws", "wss", "itms-services"].map String.toList

def usesParams : List Text :=
  ["", "ftp", "hdl", "prospero", "http", "imap", "https", "shttp", "rtsp", "rtsps", "rtspu", "sip",
    "sips", "mms", "sftp", "tel"].map String.toList

/-- Tabs and line breaks, which are dropped wherever they stand. -/
def isDropped (c : Char) : Bool := c = '\t' || c = '\r' || c = '\n'

/-- A control character or a space. -/
def isLeading (c : Char) : Bool := c ≤ ' '

/-- The text `urlsplit` looks at. -/
def sanitize (url : Text) : Text := (url.dropWhile isLeading).filter fun c => !isDropped c

def isScheme : Text → Bool
  | [] => false
  | c :: text => c.isAlpha && (c :: text).all fun d => d.isAlphanum || d = '+' || d = '-' || d = '.'

/-- The scheme, in lower case, and what follows its colon. -/
def splitScheme (url : Text) : Text × Text :=
  match cut ':' url with
  | (scheme, some rest) => if isScheme scheme then (scheme.map Char.toLower, rest) else ([], url)
  | (_, none) => ([], url)

/-- A character that ends the authority. -/
def endsNetloc (c : Char) : Bool := c = '/' || c = '?' || c = '#'

/-- The authority, and what follows it: there is one only behind two slashes. -/
def splitNetloc : Text → Text × Text
  | '/' :: '/' :: rest =>
      (rest.takeWhile fun c => !endsNetloc c, rest.dropWhile fun c => !endsNetloc c)
  | url => ([], url)

/-- The parameters after the first semicolon of the last segment of a path. -/
def splitParams (path : Text) : Text × Text :=
  match cut ';' (path.rtakeWhile (· ≠ '/')) with
  | (base, some params) => (path.rdropWhile (· ≠ '/') ++ base, params)
  | (_, none) => (path, [])

/-- `urlsplit`, with an empty `params`.  An authority with unbalanced brackets
is refused, and so are those that fail `checks`: that a bracketed host is an IP
address, and that normalising the authority brings no delimiter into it. -/
def urlsplit (checks : Text → Bool) (url : Text) : Option Parts :=
  let (scheme, url) := splitScheme (sanitize url)
  let (netloc, url) := splitNetloc url
  if ('[' ∈ netloc ∧ ']' ∉ netloc) ∨ (']' ∈ netloc ∧ '[' ∉ netloc) then none
  else if netloc ≠ [] ∧ checks netloc = false then none
  else
    let (url, fragment) := cut '#' url
    let (path, query) := cut '?' url
    some ⟨scheme, netloc, path, [], query.getD [], fragment.getD []⟩

/-- `urlparse`. -/
def urlparse (checks : Text → Bool) (url : Text) : Option Parts :=
  (urlsplit checks url).map fun parts =>
    if parts.scheme ∈ usesParams ∧ ';' ∈ parts.path then
      { parts with path := (splitParams parts.path).1, params := (splitParams parts.path).2 }
    else parts

/-- `geturl`: the parts are joined, each with its delimiter unless it is empty.
The authority's slashes are written if there is an authority, or if the scheme
is one that has them and the path does not begin with two. -/
def geturl (parts : Parts) : Text :=
  let url := if parts.params = [] then parts.path else parts.path ++ ';' :: parts.params
  let url :=
    if parts.netloc ≠ [] ∨
        (parts.scheme ≠ [] ∧ parts.scheme ∈ usesNetloc ∧ url.take 2 ≠ ['/', '/']) then
      '/' :: '/' :: (parts.netloc ++
        if url ≠ [] ∧ url.head? ≠ some '/' then '/' :: url else url)
    else url
  let url := if parts.scheme = [] then url else parts.scheme ++ ':' :: url
  let url := if parts.query = [] then url else url ++ '?' :: parts.query
  if parts.fragment = [] then url else url ++ '#' :: parts.fragment

/-- A field of a query, unless its value is blank. -/
def readField (field : Text) : Option (Text × Text) :=
  match cut '=' field with
  | (name, some (c :: value)) => some (unquotePlus name, unquotePlus (c :: value))
  | _ => none

/-- `parse_qsl`. -/
def parseQsl (query : Text) : List (Text × Text) := (query.splitOn '&').filterMap readField

/-! ## The text comes back -/

theorem sanitize_eq_self {url : Text} (hhead : ∀ c ∈ url.head?, isLeading c = false)
    (h : ∀ c ∈ url, isDropped c = false) : sanitize url = url := by
  have hlead : url.dropWhile isLeading = url := by
    cases url with
    | nil => rfl
    | cons c url => exact List.dropWhile_cons_of_neg (by simp [hhead c rfl])
  rw [sanitize, hlead, List.filter_eq_self]
  intro c hc
  rw [h c hc]
  rfl

theorem forall_mem_of_all {p : Char → Bool} {text : Text}
    (h : (text.all fun c => !p c) = true) : ∀ c ∈ text, p c = false := by
  intro c hc
  rw [List.all_eq_true] at h
  exact Bool.not_eq_true' _ ▸ h c hc

/-- The end of a text that is written back as it was: nothing, or a fragment
that is not empty. -/
def IsTail (tail : Text) : Prop := tail = [] ∨ ∃ fragment, fragment ≠ [] ∧ tail = '#' :: fragment

theorem splitScheme_of_isScheme {scheme : Text} (h : isScheme scheme = true)
    (hlower : scheme.map Char.toLower = scheme) (rest : Text) :
    splitScheme (scheme ++ ':' :: rest) = (scheme, rest) := by
  have hcolon : ':' ∉ scheme := by
    intro hmem
    cases scheme with
    | nil => cases hmem
    | cons c scheme =>
        rw [isScheme, Bool.and_eq_true, List.all_eq_true] at h
        exact absurd (h.2 ':' hmem) (by decide)
  rw [splitScheme, cut_append hcolon]
  show (if isScheme scheme = true then _ else _) = _
  rw [if_pos h, hlower]

theorem splitNetloc_append {netloc rest : Text} (h : ∀ c ∈ netloc, endsNetloc c = false)
    (hrest : ∀ c ∈ rest.head?, endsNetloc c = true) :
    splitNetloc ('/' :: '/' :: (netloc ++ rest)) = (netloc, rest) := by
  have hkeep : ∀ c ∈ netloc, (!endsNetloc c) = true := fun c hc => by rw [h c hc]; rfl
  have hstop : rest.takeWhile (fun c => !endsNetloc c) = [] ∧
      rest.dropWhile (fun c => !endsNetloc c) = rest := by
    cases rest with
    | nil => exact ⟨rfl, rfl⟩
    | cons c rest =>
        have hc : ¬ (!endsNetloc c) = true := by simp [hrest c rfl]
        exact ⟨List.takeWhile_cons_of_neg hc, List.dropWhile_cons_of_neg hc⟩
  rw [splitNetloc, List.takeWhile_append_of_pos hkeep, List.dropWhile_append_of_pos hkeep, hstop.1,
    hstop.2, List.append_nil]

/-- An authority `urlsplit` takes. -/
def IsNetloc (checks : Text → Bool) (netloc : Text) : Prop :=
  (∀ c ∈ netloc, endsNetloc c = false) ∧ ('[' ∈ netloc ↔ ']' ∈ netloc) ∧
    (netloc ≠ [] → checks netloc = true)

theorem isNetloc_nil (checks : Text → Bool) : IsNetloc checks [] := by
  refine ⟨by simp, by simp, fun h => absurd rfl h⟩

/-- What `urlsplit` returns, cut by cut. -/
theorem urlsplit_eq {checks : Text → Bool} {url scheme rest netloc rest' rest'' path : Text}
    {fragment query : Option Text} (hscheme : splitScheme (sanitize url) = (scheme, rest))
    (hsplit : splitNetloc rest = (netloc, rest')) (hnetloc : IsNetloc checks netloc)
    (hfragment : cut '#' rest' = (rest'', fragment)) (hquery : cut '?' rest'' = (path, query)) :
    urlsplit checks url = some ⟨scheme, netloc, path, [], query.getD [], fragment.getD []⟩ := by
  obtain ⟨-, hbrackets, hchecks⟩ := hnetloc
  simp only [urlsplit, hscheme, hsplit, hfragment, hquery]
  rw [if_neg, if_neg]
  · rintro ⟨hne, hfails⟩
    rw [hchecks hne] at hfails
    cases hfails
  · rintro (⟨hopen, hclose⟩ | ⟨hclose, hopen⟩)
    · exact hclose (hbrackets.mp hopen)
    · exact hopen (hbrackets.mpr hclose)

theorem splitParams_join {path : Text} (h : (cut ';' (path.rtakeWhile (· ≠ '/'))).2 ≠ some []) :
    (if (splitParams path).2 = [] then (splitParams path).1
      else (splitParams path).1 ++ ';' :: (splitParams path).2) = path := by
  rw [splitParams]
  cases hcut : cut ';' (path.rtakeWhile (· ≠ '/')) with
  | mk base params =>
      cases params with
      | none => exact if_pos rfl
      | some params =>
          have hne : params ≠ [] := by
            rintro rfl
            exact h (by rw [hcut])
          show (if params = [] then _ else _) = _
          rw [if_neg hne, List.append_assoc, ← eq_of_cut hcut]
          exact List.rdropWhile_append_rtakeWhile

theorem cut_tail {path tail : Text} (hpath : '#' ∉ path) (htail : IsTail tail) :
    ∃ fragment, cut '#' (path ++ tail) = (path, fragment) ∧
      (if fragment.getD [] = [] then path else path ++ '#' :: fragment.getD []) = path ++ tail := by
  obtain rfl | ⟨fragment, hne, rfl⟩ := htail
  · refine ⟨none, ?_, ?_⟩
    · rw [List.append_nil, cut_of_not_mem hpath]
    · rw [List.append_nil]
      rfl
  · exact ⟨some fragment, cut_append hpath fragment, if_neg hne⟩

/-- Without scheme and authority the path is written back first. -/
theorem geturl_of_path {path params joined : Text}
    (h : (if params = [] then path else path ++ ';' :: params) = joined) (fragment : Text) :
    geturl ⟨[], [], path, params, [], fragment⟩ =
      if fragment = [] then joined else joined ++ '#' :: fragment := by
  simp [geturl, h]

/-- **A text without scheme and authority comes back**, unless a query or a
delimiter with nothing after it is cut off. -/
theorem geturl_of_unsplit (checks : Text → Bool) {url path tail : Text}
    (hurl : sanitize url = path ++ tail)
    (hscheme : splitScheme (path ++ tail) = ([], path ++ tail))
    (hslashes : splitNetloc (path ++ tail) = ([], path ++ tail))
    (hpath : '#' ∉ path ∧ '?' ∉ path) (htail : IsTail tail)
    (hparams : (cut ';' (path.rtakeWhile (· ≠ '/'))).2 ≠ some []) :
    ∃ parts, urlparse checks url = some parts ∧ parts.query = [] ∧
      geturl { parts with query := [] } = path ++ tail := by
  obtain ⟨fragment, hcut, hjoin⟩ := cut_tail hpath.1 htail
  rw [← hurl] at hscheme
  have hsplit := urlsplit_eq hscheme (by rw [hurl]; exact hslashes) (isNetloc_nil checks) hcut
    (cut_of_not_mem hpath.2)
  rw [urlparse, hsplit, Option.map_some, ← hjoin]
  by_cases hsemicolon : [] ∈ usesParams ∧ ';' ∈ path
  · exact ⟨_, by rw [if_pos hsemicolon], rfl, geturl_of_path (splitParams_join hparams) _⟩
  · exact ⟨_, by rw [if_neg hsemicolon], rfl, geturl_of_path (if_pos rfl) _⟩

/-- What follows an authority. -/
def IsPath (path : Text) : Prop := (∀ c ∈ path.head?, c = '/') ∧ '#' ∉ path ∧ '?' ∉ path

/-- The parts of a URL with a scheme that has no parameters. -/
theorem urlparse_of_scheme {checks : Text → Bool} {url scheme netloc rest rest' path : Text}
    {fragment query : Option Text}
    (hurl : sanitize url = scheme ++ ':' :: '/' :: '/' :: (netloc ++ rest))
    (hscheme : isScheme scheme = true) (hlower : scheme.map Char.toLower = scheme)
    (hparams : scheme ∉ usesParams) (hnetloc : IsNetloc checks netloc)
    (hrest : ∀ c ∈ rest.head?, endsNetloc c = true) (hfragment : cut '#' rest = (rest', fragment))
    (hquery : cut '?' rest' = (path, query)) :
    urlparse checks url = some ⟨scheme, netloc, path, [], query.getD [], fragment.getD []⟩ := by
  have hsplit := urlsplit_eq (hurl ▸ splitScheme_of_isScheme hscheme hlower _)
    (splitNetloc_append hnetloc.1 hrest) hnetloc hfragment hquery
  rw [urlparse, hsplit, Option.map_some, if_neg fun h => hparams h.1]

/-- An authority comes back with its two slashes. -/
theorem geturl_of_netloc {scheme netloc path : Text} (hscheme : scheme ≠ []) (hnetloc : netloc ≠ [])
    (hpath : ∀ c ∈ path.head?, c = '/') (fragment : Text) :
    geturl ⟨scheme, netloc, path, [], [], fragment⟩ =
      scheme ++ ':' :: '/' :: '/' :: (netloc ++
        if fragment = [] then path else path ++ '#' :: fragment) := by
  have hslash : ¬ (path ≠ [] ∧ path.head? ≠ some '/') := by
    rintro ⟨hne, hhead⟩
    cases path with
    | nil => exact hne rfl
    | cons c path => exact hhead (by rw [List.head?_cons, hpath c rfl])
  simp only [geturl, if_true, if_pos (Or.inl hnetloc), if_neg hslash, if_neg hscheme]
  split_ifs
  · rfl
  · simp

/-- An empty authority comes back without its slashes. -/
theorem geturl_of_netloc_nil {scheme path : Text} (hscheme : scheme ≠ [])
    (hslashes : scheme ∉ usesNetloc) (fragment : Text) :
    geturl ⟨scheme, [], path, [], [], fragment⟩ =
      scheme ++ ':' :: if fragment = [] then path else path ++ '#' :: fragment := by
  have hno : ¬ (([] : Text) ≠ [] ∨
      (scheme ≠ [] ∧ scheme ∈ usesNetloc ∧ path.take 2 ≠ ['/', '/'])) := by
    simp [hslashes]
  simp only [geturl, if_true, if_neg hno, if_neg hscheme]
  split_ifs
  · rfl
  · simp

/-- A path without its slashes does not get them from a fragment. -/
theorem ne_of_fragment {path fragment : Text} (hpath : ∀ path', path ≠ '/' :: '/' :: path') :
    ∀ path', (if fragment = [] then path else path ++ '#' :: fragment) ≠ '/' :: '/' :: path' := by
  intro path' hsame
  split_ifs at hsame with hempty
  · exact hpath path' hsame
  · cases path with
    | nil => cases hsame
    | cons c path =>
        cases path with
        | nil => cases hsame
        | cons d path =>
            cases hsame
            exact hpath path rfl

/-- **A URL with an authority and no query comes back.** -/
theorem geturl_of_authority {checks : Text → Bool} {url scheme netloc path tail : Text}
    (hurl : sanitize url = scheme ++ ':' :: '/' :: '/' :: (netloc ++ (path ++ tail)))
    (hscheme : isScheme scheme = true) (hlower : scheme.map Char.toLower = scheme)
    (hparams : scheme ∉ usesParams) (hnetloc : IsNetloc checks netloc) (hne : netloc ≠ [])
    (hpath : IsPath path) (htail : IsTail tail) :
    ∃ parts, urlparse checks url = some parts ∧ parts.query = [] ∧
      geturl { parts with query := [] } =
        scheme ++ ':' :: '/' :: '/' :: (netloc ++ (path ++ tail)) := by
  obtain ⟨fragment, hcut, hjoin⟩ := cut_tail hpath.2.1 htail
  have hrest : ∀ c ∈ (path ++ tail).head?, endsNetloc c = true := by
    intro c hc
    rw [List.head?_append, Option.mem_def, Option.or_eq_some_iff] at hc
    obtain hc | ⟨-, hc⟩ := hc
    · rw [hpath.1 c hc]
      rfl
    · obtain rfl | ⟨fragment, -, rfl⟩ := htail
      · cases hc
      · cases hc
        rfl
  have hparse := urlparse_of_scheme hurl hscheme hlower hparams hnetloc hrest hcut
    (cut_of_not_mem hpath.2.2)
  refine ⟨_, hparse, rfl, ?_⟩
  have hscheme' : scheme ≠ [] := by
    rintro rfl
    cases hscheme
  rw [← hjoin]
  exact geturl_of_netloc hscheme' hne hpath.1 _

/-- **Of a URL with an authority and a query, the front comes back.** -/
theorem geturl_of_query {checks : Text → Bool} {url scheme netloc path query : Text}
    (hurl : sanitize url = scheme ++ ':' :: '/' :: '/' :: (netloc ++ (path ++ '?' :: query)))
    (hscheme : isScheme scheme = true) (hlower : scheme.map Char.toLower = scheme)
    (hparams : scheme ∉ usesParams) (hnetloc : IsNetloc checks netloc) (hne : netloc ≠ [])
    (hpath : IsPath path) (hquery : '#' ∉ query) :
    ∃ parts, urlparse checks url = some parts ∧ parts.query = query ∧
      geturl { parts with query := [] } = scheme ++ ':' :: '/' :: '/' :: (netloc ++ path) := by
  have hrest : ∀ c ∈ (path ++ '?' :: query).head?, endsNetloc c = true := by
    intro c hc
    rw [List.head?_append, Option.mem_def, Option.or_eq_some_iff] at hc
    obtain hc | ⟨-, hc⟩ := hc
    · rw [hpath.1 c hc]
      rfl
    · cases hc
      rfl
  have hhash : '#' ∉ path ++ '?' :: query := by
    simp [hpath.2.1, hquery]
  have hparse := urlparse_of_scheme hurl hscheme hlower hparams hnetloc hrest
    (cut_of_not_mem hhash) (cut_append hpath.2.2 query)
  refine ⟨_, hparse, rfl, ?_⟩
  have hscheme' : scheme ≠ [] := by
    rintro rfl
    cases hscheme
  exact geturl_of_netloc hscheme' hne hpath.1 []

end Url
