import DramatiqPostgres.Lib.Dict
import DramatiqPostgres.Pg.Conninfo

/-!
# `make_pool`

The broker, the results backend and the command line open their pools with
`make_pool`.  It takes the connection string apart with `urlparse`, whatever its
grammar: the query becomes keyword arguments of the connection, and the rest is
written back as the `conninfo`.  `minconn` and `maxconn` are taken out of the
keyword arguments, and a few settings get defaults there.

psycopg adds the keyword arguments to the settings of the `conninfo`, so that
they override them (`PoolArgs.settings`).  A pool denotes the settings of a
connection string if it has all of them but the two sizes, and the defaults
where the string sets nothing (`Denotes`).

### The parties

* `urllib.parse` is modelled in full, in `Lib.Url`: `urlparse`, `geturl` and
  `parse_qsl`, with the checks of `urlsplit` on a netloc as a parameter.
* libpq is a parameter, with what its documentation says as hypotheses
  (`Libpq.Documented` of `Pg.Conninfo`): where the parameters of a URI are and
  how they are decoded, what can stand before them, which blanks of a
  keyword/value string may go, and a few keywords it knows.
* `int` is a parameter too, since only its values on the two sizes matter.

### Which strings survive

* A string whose settings `urlparse` leaves in one piece (`Unsplit`) comes
  through if and only if it sets neither a size nor another value for a setting
  with a default (`survives_iff_of_unsplit`).  The sizes would stay in the
  `conninfo`, where libpq refuses them, and the defaults would override it.
* A URI with an authority and parameters comes through if `urlparse` finds the
  parameters where libpq does and reads them as libpq does (`WithParams`,
  `survives_of_withParams`).
* A URI without authority is written back without its slashes, and libpq does
  not take it for a URI any more (`not_survives_of_emptyAuthority`).

The second case is stated in one direction.  A string that `urlparse` reads in
another way than libpq may denote the same settings by accident, and to say
exactly when one would have to compare two percent decodings of arbitrary texts.
-/

namespace DramatiqPostgres

open Url Pg

/-! ## The pool of a connection string -/

/-- The value of a keyword argument: `make_pool` passes texts, and a mapping may
hold integers. -/
inductive KwargValue where
  | str (text : Text)
  | int (n : ℤ)
  deriving DecidableEq, Repr

/-- The value as a setting of the connection. -/
def KwargValue.bytes : KwargValue → Bytes
  | .str text => utf8 text
  | .int n => utf8 (toString n).toList

/-- What `make_pool` can be given: a connection string, or a mapping of
settings. -/
inductive PoolUrl where
  | str (url : Text)
  | dict (kwargs : List (Text × KwargValue))

/-- The arguments of `ConnectionPool` that depend on what `make_pool` is
given. -/
structure PoolArgs where
  conninfo : Text
  kwargs : List (Text × KwargValue)
  minSize : ℤ
  maxSize : ℤ
  deriving DecidableEq, Repr

def minconnKey : Text := "minconn".toList

def maxconnKey : Text := "maxconn".toList

/-- The settings `make_pool` has defaults for, by the version of libpq. -/
def poolDefaults (version : ℕ) : List (Text × Text) :=
  [("application_name", "dramatiq-postgres"), ("keepalives", "1"), ("keepalives_count", "2"),
    ("keepalives_idle", "5"), ("keepalives_interval", "2")].map
      (Prod.map String.toList String.toList) ++
  if 120000 ≤ version then [("tcp_user_timeout".toList, "10000".toList)] else []

/-- Settings written as texts. -/
def encoded (fields : List (Text × Text)) : List Setting := fields.map (Prod.map utf8 utf8)

section Pool

variable (libpq : Libpq) (checks : Text → Bool) (int : Text → Option ℤ)

/-- `int(value)`. -/
def KwargValue.toInt : KwargValue → Option ℤ
  | .str text => int text
  | .int n => some n

/-- `make_pool`, up to the pool: what it calls `ConnectionPool` with, if it gets
so far. -/
def makePool (url : PoolUrl) (maxconn : ℤ) : Option PoolArgs :=
  let read : Option (Text × List (Text × KwargValue)) :=
    match url with
    | .str url =>
        (urlparse checks url).map fun parts =>
          (geturl { parts with query := [] },
            Dict.ofEntries ((parseQsl parts.query).map (Prod.map id KwargValue.str)))
    | .dict kwargs => some ([], kwargs)
  read.bind fun (conninfo, kwargs) =>
    let kwargs := ((poolDefaults libpq.version).map (Prod.map id KwargValue.str)).foldl
      (fun kwargs e => Dict.setDefault e.1 e.2 kwargs) kwargs
    ((Dict.get? maxconnKey kwargs).elim (some maxconn) (KwargValue.toInt int)).bind fun maxconn =>
      let kwargs := Dict.erase maxconnKey kwargs
      ((Dict.get? minconnKey kwargs).elim (some 0) (KwargValue.toInt int)).map fun minconn =>
        let kwargs := Dict.erase minconnKey kwargs
        { conninfo := conninfo, kwargs := kwargs, minSize := minconn, maxSize := maxconn }

/-- The settings of the pool's connections: keyword arguments override the
`conninfo`. -/
def PoolArgs.settings (args : PoolArgs) : Option (List Setting) :=
  (libpq.settings args.conninfo).map (· ++ args.kwargs.map (Prod.map utf8 KwargValue.bytes))

/-- A size of the pool, as the settings of the connection string have it. -/
def sizeOf (settings : List Setting) (key : Text) (default : ℤ) : Option ℤ :=
  (Dict.get? (utf8 key) settings).elim (some default) fun bytes => int (decodeUtf8 bytes)

/-- A connection string that libpq accepts without the two sizes, which are
integers.  The settings are those libpq reads from the whole string. -/
structure Accepted (maxconn : ℤ) (s : Text) (settings : List Setting) : Prop where
  settings_eq : libpq.settings s = some settings
  known : ∀ setting ∈ settings, libpq.known setting.1 = true ∨ setting.1 = utf8 minconnKey ∨
    setting.1 = utf8 maxconnKey
  minconn : (sizeOf int settings minconnKey 0).isSome
  maxconn : (sizeOf int settings maxconnKey maxconn).isSome

/-- What a setting of the pool's connections should be: the string's, or the
default, and none for the sizes. -/
def expected (settings : List Setting) (key : Bytes) : Option Bytes :=
  if key = utf8 minconnKey ∨ key = utf8 maxconnKey then none
  else (Dict.get? key settings).or
    (Dict.get? key (encoded (poolDefaults libpq.version)))

/-- The pool is accepted by libpq and has the settings of the connection string,
but for its sizes and with the defaults, and the sizes are its own. -/
structure Denotes (maxconn : ℤ) (settings : List Setting) (args : PoolArgs) : Prop where
  accepted : ∃ own, args.settings libpq = some own ∧
    (∀ setting ∈ own, libpq.known setting.1 = true) ∧
    ∀ key, Dict.get? key own = expected libpq settings key
  minSize : sizeOf int settings minconnKey 0 = some args.minSize
  maxSize : sizeOf int settings maxconnKey maxconn = some args.maxSize

/-- The settings of a connection string survive `make_pool`: it does not raise,
and the pool it opens denotes them. -/
def Survives (maxconn : ℤ) (s : Text) (settings : List Setting) : Prop :=
  ∃ args, makePool libpq checks int (.str s) maxconn = some args ∧
    Denotes libpq int maxconn settings args

/-! ## What `make_pool` passes on -/

variable {libpq checks int}

theorem nodup_poolDefaults (version : ℕ) : ((poolDefaults version).map Prod.fst).Nodup := by
  unfold poolDefaults
  split_ifs
  · decide +kernel
  · decide +kernel

theorem get?_poolDefaults {key : Text} (h : key = minconnKey ∨ key = maxconnKey) (version : ℕ) :
    Dict.get? key (poolDefaults version) = none := by
  unfold poolDefaults
  obtain rfl | rfl := h
  · split_ifs
    · decide +kernel
    · decide +kernel
  · split_ifs
    · decide +kernel
    · decide +kernel

theorem get?_encoded_of_forall_ne {α : Type} {key : Bytes} (h : ∀ text, utf8 text ≠ key)
    (f : α → Bytes) (d : List (Text × α)) : Dict.get? key (d.map (Prod.map utf8 f)) = none := by
  rw [Dict.get?_eq_none_iff, List.map_map]
  intro hmem
  obtain ⟨e, -, he⟩ := List.mem_map.mp hmem
  exact h e.1 he

/-- Keyword arguments that are read like two lists of texts are set like
them. -/
theorem get?_kwargs {kwargs : List (Text × KwargValue)} {fields defaults : List (Text × Text)}
    (h : ∀ key, Dict.get? key kwargs = if key = minconnKey ∨ key = maxconnKey then none
      else ((Dict.get? key fields).or (Dict.get? key defaults)).map KwargValue.str) (key : Bytes) :
    Dict.get? key (kwargs.map (Prod.map utf8 KwargValue.bytes)) =
      if key = utf8 minconnKey ∨ key = utf8 maxconnKey then none
      else (Dict.get? key (encoded fields)).or (Dict.get? key (encoded defaults)) := by
  by_cases htext : ∃ text, utf8 text = key
  · obtain ⟨text, rfl⟩ := htext
    rw [Dict.get?_map utf8_injective, h, encoded, encoded, Dict.get?_map utf8_injective,
      Dict.get?_map utf8_injective]
    simp only [utf8_injective.eq_iff]
    split_ifs
    · rfl
    · rw [Option.map_map, ← Option.map_or]
      rfl
  · rw [not_exists] at htext
    rw [encoded, encoded, get?_encoded_of_forall_ne htext, get?_encoded_of_forall_ne htext,
      get?_encoded_of_forall_ne htext]
    split_ifs <;> rfl

theorem sizeOf_encoded (fields : List (Text × Text)) (key : Text) (default : ℤ) :
    sizeOf int (encoded fields) key default =
      (Dict.get? key fields).elim (some default) int := by
  rw [sizeOf, encoded, Dict.get?_map utf8_injective]
  cases Dict.get? key fields with
  | none => rfl
  | some value => exact congrArg int (decodeUtf8_utf8 value)

variable (libpq) in
/-- **What `make_pool` makes of the parts of a URL**: the query in the keyword
arguments, without the sizes and with the defaults, and the rest in the
`conninfo`.  The cases below differ only in what the parts are. -/
theorem makePool_of_parts {s : Text} {parts : Parts} (hparts : urlparse checks s = some parts)
    {maxconn minSize maxSize : ℤ}
    (hmin : sizeOf int (encoded (parseQsl parts.query)) minconnKey 0 = some minSize)
    (hmax : sizeOf int (encoded (parseQsl parts.query)) maxconnKey maxconn = some maxSize) :
    ∃ kwargs, makePool libpq checks int (.str s) maxconn =
        some ⟨geturl { parts with query := [] }, kwargs, minSize, maxSize⟩ ∧
      ∀ key, Dict.get? key (kwargs.map (Prod.map utf8 KwargValue.bytes)) =
        if key = utf8 minconnKey ∨ key = utf8 maxconnKey then none
        else (Dict.get? key (encoded (parseQsl parts.query))).or
          (Dict.get? key (encoded (poolDefaults libpq.version))) := by
  rw [sizeOf_encoded] at hmin hmax
  -- the keyword arguments with the defaults, before the sizes are taken out
  let defaults := poolDefaults libpq.version
  let kwargs := (defaults.map (Prod.map id KwargValue.str)).foldl
    (fun kwargs e => Dict.setDefault e.1 e.2 kwargs)
    (Dict.ofEntries ((parseQsl parts.query).map (Prod.map id KwargValue.str)))
  have hkwargs : ∀ key, Dict.get? key kwargs =
      ((Dict.get? key (parseQsl parts.query)).or (Dict.get? key defaults)).map KwargValue.str := by
    intro key
    have hnodup : ((defaults.map (Prod.map id KwargValue.str)).map Prod.fst).Nodup := by
      rw [List.map_map]
      exact nodup_poolDefaults _
    have hfields := Dict.get?_map Function.injective_id KwargValue.str key (parseQsl parts.query)
    have hdefaults := Dict.get?_map Function.injective_id KwargValue.str key defaults
    rw [id] at hfields hdefaults
    rw [Dict.get?_foldl_setDefault hnodup, Dict.get?_ofEntries, hfields, hdefaults, Option.map_or]
  have hsize : ∀ key default, key = minconnKey ∨ key = maxconnKey →
      (Dict.get? key kwargs).elim (some default) (KwargValue.toInt int) =
        (Dict.get? key (parseQsl parts.query)).elim (some default) int := by
    intro key default hkey
    rw [hkwargs, get?_poolDefaults hkey, Option.or_none]
    cases Dict.get? key (parseQsl parts.query) with
    | none => rfl
    | some value => rfl
  refine ⟨Dict.erase minconnKey (Dict.erase maxconnKey kwargs), ?_, get?_kwargs ?_⟩
  · have hne : minconnKey ≠ maxconnKey := by decide +kernel
    rw [← hsize _ _ (Or.inl rfl)] at hmin
    rw [← hsize _ _ (Or.inr rfl)] at hmax
    rw [makePool, hparts, Option.map_some, Option.bind_some]
    show ((Dict.get? maxconnKey kwargs).elim (some maxconn) (KwargValue.toInt int)).bind _ = _
    rw [hmax, Option.bind_some]
    show ((Dict.get? minconnKey (Dict.erase maxconnKey kwargs)).elim (some 0)
      (KwargValue.toInt int)).map _ = _
    rw [Dict.get?_erase, if_neg hne, hmin]
    rfl
  · intro key
    rw [Dict.get?_erase, Dict.get?_erase, hkwargs]
    by_cases hmin' : key = minconnKey
    · rw [if_pos hmin', if_pos (Or.inl hmin')]
    · by_cases hmax' : key = maxconnKey
      · rw [if_neg hmin', if_pos hmax', if_pos (Or.inr hmax')]
      · rw [if_neg hmin', if_neg hmax', if_neg (not_or.mpr ⟨hmin', hmax'⟩)]

/-! ## Strings that stay in one piece -/

/-- The front of a URI, as `urlparse` and libpq both find it. -/
structure IsFront (checks : Text → Bool) (scheme netloc path : Text) : Prop where
  scheme_mem : scheme ∈ uriSchemes
  isNetloc : IsNetloc checks netloc
  netloc_ne : netloc ≠ []
  isPath : IsPath path

/-- A connection string that `urlparse` leaves in one piece: no query is cut
off, no delimiter is lost, and the tabs and line breaks that are dropped are no
part of a value. -/
inductive Unsplit (checks : Text → Bool) : Text → Prop
  | keyValue {s path tail : Text} (not_uri : ¬ IsUri s) (not_uri' : ¬ IsUri (path ++ tail))
      (blanks : BlanksApart s) (sanitize_eq : sanitize s = path ++ tail)
      (no_scheme : splitScheme (path ++ tail) = ([], path ++ tail))
      (no_netloc : splitNetloc (path ++ tail) = ([], path ++ tail))
      (isPath : '#' ∉ path ∧ '?' ∉ path) (isTail : IsTail tail)
      (no_params : (cut ';' (path.rtakeWhile (· ≠ '/'))).2 ≠ some []) : Unsplit checks s
  | uri {scheme netloc path tail : Text} (front : IsFront checks scheme netloc path)
      (isTail : IsTail tail) (undropped : ∀ c ∈ netloc ++ (path ++ tail), isDropped c = false) :
      Unsplit checks (scheme ++ ':' :: '/' :: '/' :: (netloc ++ (path ++ tail)))

/-- Neither size is set, and no setting with a default has another value: a
condition on the settings alone. -/
def Quiet (version : ℕ) (settings : List Setting) : Prop :=
  Dict.get? (utf8 minconnKey) settings = none ∧ Dict.get? (utf8 maxconnKey) settings = none ∧
    ∀ key value, Dict.get? key (encoded (poolDefaults version)) = some value →
      Dict.get? key settings = none ∨ Dict.get? key settings = some value

theorem of_mem_uriSchemes {scheme : Text} (h : scheme ∈ uriSchemes) :
    isScheme scheme = true ∧ scheme.map Char.toLower = scheme ∧ scheme ∉ usesParams ∧
      scheme ∉ usesNetloc ∧ (scheme.all fun c => !isDropped c) = true ∧
      (scheme.all fun c => !isLeading c) = true := by
  revert scheme
  decide +kernel

/-- `urlsplit` looks at a URI as it is, unless there is a tab or a line break in
it. -/
theorem sanitize_uri {scheme rest : Text} (hscheme : scheme ∈ uriSchemes)
    (hrest : ∀ c ∈ rest, isDropped c = false) :
    sanitize (scheme ++ ':' :: '/' :: '/' :: rest) = scheme ++ ':' :: '/' :: '/' :: rest := by
  obtain ⟨hisScheme, -, -, -, hdropped, hleading⟩ := of_mem_uriSchemes hscheme
  apply sanitize_eq_self
  · intro c hc
    cases scheme with
    | nil => cases hisScheme
    | cons d scheme =>
        cases hc
        exact forall_mem_of_all hleading _ List.mem_cons_self
  · intro c hc
    rw [List.mem_append, List.mem_cons, List.mem_cons, List.mem_cons] at hc
    obtain hc | rfl | rfl | rfl | hc := hc
    · exact forall_mem_of_all hdropped c hc
    · rfl
    · rfl
    · rfl
    · exact hrest c hc

/-- The `conninfo` of a string in one piece has its settings, and there is no
query. -/
theorem Unsplit.settings_geturl {s : Text} {settings : List Setting} (h : libpq.Documented)
    (hs : Unsplit checks s) (hsettings : libpq.settings s = some settings) :
    ∃ parts, urlparse checks s = some parts ∧ parts.query = [] ∧
      libpq.settings (geturl { parts with query := [] }) = some settings := by
  cases hs with
  | keyValue huri huri' hblanks hsanitize hscheme hnetloc hpath htail hparams =>
      obtain ⟨parts, hparts, hquery, hgeturl⟩ :=
        geturl_of_unsplit checks hsanitize hscheme hnetloc hpath htail hparams
      refine ⟨parts, hparts, hquery, ?_⟩
      rw [hgeturl, ← hsanitize]
      exact h.blanks _ _ huri (by rwa [hsanitize]) hblanks hsettings
  | uri front htail hdropped =>
      obtain ⟨hisScheme, hlower, hparams, -⟩ := of_mem_uriSchemes front.scheme_mem
      obtain ⟨parts, hparts, hquery, hgeturl⟩ :=
        geturl_of_authority (sanitize_uri front.scheme_mem hdropped) hisScheme hlower hparams
          front.isNetloc front.netloc_ne front.isPath htail
      refine ⟨parts, hparts, hquery, ?_⟩
      rw [hgeturl]
      exact hsettings

theorem mem_poolDefaults {version : ℕ} {e : Text × Text} (h : e ∈ poolDefaults version) :
    e.1 ∈ ["application_name", "keepalives", "keepalives_count", "keepalives_idle",
      "keepalives_interval"].map String.toList ∨
      (120000 ≤ version ∧ e.1 = "tcp_user_timeout".toList) := by
  rw [poolDefaults, List.mem_append] at h
  obtain h | h := h
  · left
    revert e
    decide +kernel
  · right
    split_ifs at h with hversion
    · rw [List.mem_singleton] at h
      exact ⟨hversion, by rw [h]⟩
    · cases h

/-- libpq knows the settings that have defaults. -/
theorem known_poolDefaults (h : libpq.Documented) {key value : Bytes}
    (hkey : Dict.get? key (encoded (poolDefaults libpq.version)) = some value) :
    libpq.known key = true := by
  obtain ⟨e, he, hsame⟩ := List.mem_map.mp (Dict.mem_of_get? hkey)
  obtain ⟨rfl, -⟩ := Prod.mk.inj hsame
  obtain hmem | ⟨hversion, htimeout⟩ := mem_poolDefaults he
  · obtain ⟨name, hname, hkey⟩ := List.mem_map.mp hmem
    rw [← hkey]
    exact h.known_keepalives name hname
  · rw [htimeout]
    exact h.known_tcp_user_timeout hversion

/-- The settings of the pool are known, if those of its `conninfo` and the
parameters are. -/
theorem known_own (h : libpq.Documented) {front params kwargs : List Setting}
    (hkwargs : ∀ key, Dict.get? key kwargs =
      if key = utf8 minconnKey ∨ key = utf8 maxconnKey then none
      else (Dict.get? key params).or (Dict.get? key (encoded (poolDefaults libpq.version))))
    (hfront : ∀ setting ∈ front, libpq.known setting.1 = true)
    (hparams : ∀ setting ∈ params, libpq.known setting.1 = true ∨ setting.1 = utf8 minconnKey ∨
      setting.1 = utf8 maxconnKey) :
    ∀ setting ∈ front ++ kwargs, libpq.known setting.1 = true := by
  intro setting hmem
  obtain hmem | hmem := List.mem_append.mp hmem
  · exact hfront setting hmem
  · have hsome : Dict.get? setting.1 kwargs ≠ none :=
      fun hnone => Dict.get?_eq_none_iff.mp hnone (List.mem_map_of_mem hmem)
    rw [hkwargs] at hsome
    split_ifs at hsome with hsize
    · exact absurd rfl hsome
    · obtain ⟨value, hvalue⟩ := Option.ne_none_iff_exists'.mp hsome
      rw [Option.or_eq_some_iff] at hvalue
      obtain hvalue | ⟨-, hvalue⟩ := hvalue
      · exact (hparams _ (Dict.mem_of_get? hvalue)).resolve_right hsize
      · exact known_poolDefaults h hvalue

/-- **A string in one piece survives if and only if it sets neither a size nor
another value for a setting with a default**: the sizes stay in the `conninfo`,
where libpq refuses them, and the defaults override the `conninfo`. -/
theorem survives_iff_of_unsplit (h : libpq.Documented) {maxconn : ℤ} {s : Text}
    {settings : List Setting} (hs : Accepted libpq int maxconn s settings)
    (hunsplit : Unsplit checks s) :
    Survives libpq checks int maxconn s settings ↔ Quiet libpq.version settings := by
  obtain ⟨parts, hparts, hquery, hconninfo⟩ := hunsplit.settings_geturl h hs.settings_eq
  have hempty : encoded (parseQsl parts.query) = [] := by
    rw [hquery]
    rfl
  have hmin : sizeOf int (encoded (parseQsl parts.query)) minconnKey 0 = some 0 := by
    rw [hempty]
    rfl
  have hmax : sizeOf int (encoded (parseQsl parts.query)) maxconnKey maxconn = some maxconn := by
    rw [hempty]
    rfl
  obtain ⟨kwargs, hmake, hkwargs⟩ := makePool_of_parts libpq hparts hmin hmax
  rw [hempty] at hkwargs
  have hown : (PoolArgs.settings libpq
      ⟨geturl { parts with query := [] }, kwargs, 0, maxconn⟩) =
        some (settings ++ kwargs.map (Prod.map utf8 KwargValue.bytes)) := by
    rw [PoolArgs.settings, hconninfo, Option.map_some]
  constructor
  · rintro ⟨args, hargs, hdenotes⟩
    obtain rfl := Option.some.inj (hmake.symm.trans hargs)
    obtain ⟨own, hown', -, heq⟩ := hdenotes.accepted
    obtain rfl := Option.some.inj (hown.symm.trans hown')
    have hsize : ∀ key, key = utf8 minconnKey ∨ key = utf8 maxconnKey →
        Dict.get? key settings = none := by
      intro key hkey
      have hnone := heq key
      rw [expected, if_pos hkey, Dict.get?_append, Option.or_eq_none_iff] at hnone
      exact hnone.2
    refine ⟨hsize _ (Or.inl rfl), hsize _ (Or.inr rfl), ?_⟩
    intro key value hvalue
    by_cases hkey : key = utf8 minconnKey ∨ key = utf8 maxconnKey
    · exact Or.inl (hsize key hkey)
    · have hsame := heq key
      rw [expected, if_neg hkey, Dict.get?_append, hkwargs, if_neg hkey, hvalue] at hsame
      cases hget : Dict.get? key settings with
      | none => exact Or.inl rfl
      | some value' =>
          right
          rw [hget] at hsame
          exact hsame.symm
  · rintro ⟨hmin', hmax', hdefaults⟩
    refine ⟨_, hmake, ⟨_, hown, ?_, ?_⟩, ?_, ?_⟩
    · refine known_own h hkwargs ?_ (by simp)
      intro setting hmem
      obtain hknown | hkey := hs.known setting hmem
      · exact hknown
      · have hnone : Dict.get? setting.1 settings = none := by
          obtain hkey | hkey := hkey
          · rw [hkey, hmin']
          · rw [hkey, hmax']
        exact absurd (List.mem_map_of_mem hmem) (Dict.get?_eq_none_iff.mp hnone)
    · intro key
      rw [expected, Dict.get?_append, hkwargs]
      split_ifs with hkey
      · obtain rfl | rfl := hkey
        · exact hmin'
        · exact hmax'
      · cases hvalue : Dict.get? key (encoded (poolDefaults libpq.version)) with
        | none => exact Option.or_none.symm
        | some value =>
            obtain hnone | hsame := hdefaults key value hvalue
            · rw [hnone]
              rfl
            · rw [hsame]
              rfl
    · rw [sizeOf, hmin']
      rfl
    · rw [sizeOf, hmax']
      rfl

/-! ## URIs with parameters -/

/-- A URI with an authority and parameters, which `urlparse` and libpq find in
the same place and read alike. -/
inductive WithParams (checks : Text → Bool) : Text → Prop
  | intro {scheme netloc path query : Text} (front : IsFront checks scheme netloc path)
      (isClosed : closed netloc = true)
      (starts : path ≠ [] ∨ '@' ∈ netloc ∨ '@' ∉ query.takeWhile (· ≠ '/'))
      (no_fragment : '#' ∉ query)
      (undropped : ∀ c ∈ netloc ++ (path ++ '?' :: query), isDropped c = false)
      (fields : ∀ field ∈ query.splitOn '&', IntactField field) :
      WithParams checks (scheme ++ ':' :: '/' :: '/' :: (netloc ++ (path ++ '?' :: query)))

/-- What stands before the parameters is neither a size nor a setting with a
default. -/
theorem of_mem_frontKeywords (version : ℕ) : ∀ key ∈ frontKeywords,
    ¬ (key = utf8 minconnKey ∨ key = utf8 maxconnKey) ∧
      Dict.get? key (encoded (poolDefaults version)) = none := by
  unfold poolDefaults
  split_ifs
  · decide +kernel
  · decide +kernel

/-- **The parameters survive**, as keyword arguments. -/
theorem survives_of_withParams (h : libpq.Documented) {maxconn : ℤ} {s : Text}
    {settings : List Setting} (hs : Accepted libpq int maxconn s settings)
    (hparams : WithParams checks s) : Survives libpq checks int maxconn s settings := by
  obtain ⟨front, hclosed, hstarts, hfragment, hdropped, hfields⟩ := hparams
  rename_i scheme netloc path query
  obtain ⟨hscheme, hnetloc, hne, hpath⟩ := front
  have hdelimiter : ∀ c, endsNetloc c = true → c ∉ netloc := by
    intro c hc hmem
    rw [hnetloc.1 c hmem] at hc
    cases hc
  -- what libpq reads: the settings of the front, and then the parameters
  have hsettings := hs.settings_eq
  rw [h.uri_params scheme hscheme netloc path query (hdelimiter _ rfl) (hdelimiter _ rfl) hclosed
    hpath.1 hpath.2.2 hstarts] at hsettings
  obtain ⟨front, hfront, hsettings⟩ := Option.bind_eq_some_iff.mp hsettings
  obtain ⟨params, hparams, rfl⟩ := Option.map_eq_some_iff.mp hsettings
  have hkeys : ∀ setting ∈ front, setting.1 ∈ frontKeywords := by
    refine h.uri_front scheme hscheme (netloc ++ path) front ?_ hfront
    rw [List.mem_append, not_or]
    exact ⟨hdelimiter _ rfl, hpath.2.2⟩
  have hnone : ∀ key, (key = utf8 minconnKey ∨ key = utf8 maxconnKey) →
      Dict.get? key front = none := by
    intro key hkey
    rw [Dict.get?_eq_none_iff]
    intro hmem
    obtain ⟨setting, hsetting, rfl⟩ := List.mem_map.mp hmem
    exact (of_mem_frontKeywords libpq.version _ (hkeys setting hsetting)).1 hkey
  -- what `make_pool` reads
  obtain ⟨hisScheme, hlower, hnoParams, -⟩ := of_mem_uriSchemes hscheme
  obtain ⟨parts, hparts, hquery, hgeturl⟩ := geturl_of_query (sanitize_uri hscheme hdropped)
    hisScheme hlower hnoParams hnetloc hne hpath hfragment
  have hencoded : encoded (parseQsl parts.query) = params := by
    rw [hquery]
    exact map_parseQsl h.part_decodes hfields hparams
  have hsize : ∀ key default, (utf8 key = utf8 minconnKey ∨ utf8 key = utf8 maxconnKey) →
      sizeOf int (encoded (parseQsl parts.query)) key default =
        sizeOf int (front ++ params) key default := by
    intro key default hkey
    rw [hencoded, sizeOf, sizeOf, Dict.get?_append, hnone _ hkey, Option.or_none]
  obtain ⟨minSize, hmin⟩ := Option.isSome_iff_exists.mp hs.minconn
  obtain ⟨maxSize, hmax⟩ := Option.isSome_iff_exists.mp hs.maxconn
  obtain ⟨kwargs, hmake, hkwargs⟩ := makePool_of_parts libpq hparts
    ((hsize _ _ (Or.inl rfl)).trans hmin) ((hsize _ _ (Or.inr rfl)).trans hmax)
  rw [hencoded] at hkwargs
  refine ⟨_, hmake, ⟨front ++ kwargs.map (Prod.map utf8 KwargValue.bytes), ?_, ?_, ?_⟩, hmin, hmax⟩
  · rw [PoolArgs.settings, hgeturl, hfront]
    rfl
  · refine known_own h hkwargs (fun setting hmem => ?_) fun setting hmem =>
      hs.known setting (List.mem_append_right _ hmem)
    exact (hs.known setting (List.mem_append_left _ hmem)).resolve_right
      (of_mem_frontKeywords libpq.version _ (hkeys setting hmem)).1
  · intro key
    rw [expected, Dict.get?_append, Dict.get?_append, hkwargs]
    split_ifs with hkey
    · rw [hnone key hkey]
      rfl
    · by_cases hmem : key ∈ frontKeywords
      · rw [(of_mem_frontKeywords libpq.version _ hmem).2, Option.or_none, Option.or_none]
      · have hfree : Dict.get? key front = none := by
          rw [Dict.get?_eq_none_iff]
          intro hkey'
          obtain ⟨setting, hsetting, rfl⟩ := List.mem_map.mp hkey'
          exact hmem (hkeys setting hsetting)
        rw [hfree, Option.or_none, Option.or_none]

/-! ## URIs without authority -/

theorem urlparse_of_makePool {s : Text} {maxconn : ℤ} {args : PoolArgs}
    (h : makePool libpq checks int (.str s) maxconn = some args) :
    ∃ parts, urlparse checks s = some parts ∧
      args.conninfo = geturl { parts with query := [] } := by
  rw [makePool] at h
  obtain ⟨⟨conninfo, kwargs⟩, hread, hsizes⟩ := Option.bind_eq_some_iff.mp h
  obtain ⟨parts, hparts, hconninfo⟩ := Option.map_eq_some_iff.mp hread
  obtain ⟨maxSize, -, hmin⟩ := Option.bind_eq_some_iff.mp hsizes
  obtain ⟨minSize, -, rfl⟩ := Option.map_eq_some_iff.mp hmin
  exact ⟨parts, hparts, (Prod.mk.inj hconninfo).1.symm⟩

/-- A scheme and a colon begin a URI only with two slashes after them. -/
theorem not_isUri {scheme rest : Text} (hscheme : scheme ∈ uriSchemes)
    (hrest : ∀ rest', rest ≠ '/' :: '/' :: rest') : ¬ IsUri (scheme ++ ':' :: rest) := by
  rintro ⟨scheme', hscheme', rest', hsame⟩
  have hcut := cut_append (colon_notMem_uriSchemes scheme hscheme) rest
  rw [hsame, cut_append (colon_notMem_uriSchemes scheme' hscheme')] at hcut
  cases hcut
  exact hrest rest' rfl

/-- A URI that begins with its path, its parameters or nothing. -/
def EmptyAuthority (s : Text) : Prop :=
  ∃ scheme ∈ uriSchemes, ∃ rest, sanitize s = scheme ++ ':' :: '/' :: '/' :: rest ∧
    (∀ c ∈ rest.head?, endsNetloc c = true) ∧ ∀ rest', rest ≠ '/' :: '/' :: rest'

/-- **A URI without authority never survives**: its slashes are lost, and libpq
does not take it for a URI any more.  That is `postgresql:///mydb`, and what the
documentation recommends. -/
theorem not_survives_of_emptyAuthority (h : libpq.Documented) {maxconn : ℤ} {s : Text}
    (hs : EmptyAuthority s) (settings : List Setting) :
    ¬ Survives libpq checks int maxconn s settings := by
  obtain ⟨scheme, hscheme, rest, hs, hauthority, hslashes⟩ := hs
  rintro ⟨args, hmake, hdenotes⟩
  obtain ⟨own, hown, hknown, -⟩ := hdenotes.accepted
  obtain ⟨parts, hparts, hconninfo⟩ := urlparse_of_makePool hmake
  obtain ⟨hisScheme, hlower, hnoParams, hnoNetloc, -⟩ := of_mem_uriSchemes hscheme
  have hscheme' : scheme ≠ [] := by
    rintro rfl
    cases hisScheme
  cases hfragment : cut '#' rest with
  | mk rest' fragment =>
      cases hquery : cut '?' rest' with
      | mk path query =>
          have hparse := urlparse_of_scheme hs hisScheme hlower hnoParams (isNetloc_nil checks)
            hauthority hfragment hquery
          obtain rfl := Option.some.inj (hparts.symm.trans hparse)
          rw [geturl_of_netloc_nil hscheme' hnoNetloc] at hconninfo
          have hpath : ∀ path', path ≠ '/' :: '/' :: path' := by
            rintro path' rfl
            have hfirst := cut_prefix '?' rest'
            have hsecond := cut_prefix '#' rest
            rw [hquery] at hfirst
            rw [hfragment] at hsecond
            obtain ⟨more, hmore⟩ := hfirst.trans hsecond
            exact hslashes (path' ++ more) hmore.symm
          have hnotUri : ¬ IsUri args.conninfo := by
            rw [hconninfo]
            exact not_isUri hscheme (ne_of_fragment hpath)
          rw [PoolArgs.settings, Option.map_eq_some_iff] at hown
          obtain ⟨front, hfront, rfl⟩ := hown
          rw [hconninfo] at hfront hnotUri
          obtain ⟨setting, hmem, hunknown⟩ := h.no_scheme scheme hscheme _ front hnotUri hfront
          rw [hknown setting (List.mem_append_left _ hmem)] at hunknown
          cases hunknown

/-- A string that comes through: in one piece without sizes or other values for
the settings with defaults, or as a URI whose parameters are read alike.  It
speaks of the string and of its settings, and not of what `make_pool` does with
it. -/
def ComesThrough (checks : Text → Bool) (version : ℕ) (s : Text) (settings : List Setting) : Prop :=
  (Unsplit checks s ∧ Quiet version settings) ∨ WithParams checks s

/-- **Connection settings survive `make_pool`** where the string comes through.
Of the strings in one piece and the URIs without authority no others survive, so
for these the condition is exact. -/
theorem survives_of_comesThrough (h : libpq.Documented) {maxconn : ℤ} {s : Text}
    {settings : List Setting} (hs : Accepted libpq int maxconn s settings) :
    (ComesThrough checks libpq.version s settings →
      Survives libpq checks int maxconn s settings) ∧
    (Unsplit checks s ∨ EmptyAuthority s →
      (Survives libpq checks int maxconn s settings ↔
        ComesThrough checks libpq.version s settings)) := by
  have hsurvives : ComesThrough checks libpq.version s settings →
      Survives libpq checks int maxconn s settings := by
    rintro (⟨hunsplit, hquiet⟩ | hparams)
    · exact (survives_iff_of_unsplit h hs hunsplit).mpr hquiet
    · exact survives_of_withParams h hs hparams
  refine ⟨hsurvives, fun hkind => ⟨fun hs' => ?_, hsurvives⟩⟩
  obtain hunsplit | hempty := hkind
  · exact Or.inl ⟨hunsplit, (survives_iff_of_unsplit h hs hunsplit).mp hs'⟩
  · exact absurd hs' (not_survives_of_emptyAuthority h hempty settings)

end Pool

/-! ## Two runs -/

/-- `int` of a text of digits. -/
def intOfDigits (text : Text) : Option ℤ :=
  if text ≠ [] ∧ text.all Char.isDigit = true then
    some (text.foldl (fun n c => 10 * n + (c.toNat - '0'.toNat)) 0 : ℕ)
  else none

/-- A URI with both sizes and a name with an escaped space. -/
def sizedUrl : Text :=
  "postgresql".toList ++ ':' :: '/' :: '/' :: ("db".toList ++ ("/app".toList ++
    '?' :: "minconn=4&maxconn=10&application_name=job%20runner".toList))

def sizedSettings : List Setting :=
  [("host", "db"), ("dbname", "app"), ("minconn", "4"), ("maxconn", "10"),
    ("application_name", "job runner")].map (Prod.map keyword keyword)

theorem survives_sizedUrl : Survives plainLibpq (fun _ => true) intOfDigits 16 sizedUrl
    sizedSettings := by
  have hfront : IsFront (fun _ => true) "postgresql".toList "db".toList "/app".toList := by
    refine ⟨by decide +kernel, ⟨forall_mem_of_all (by decide +kernel), by decide +kernel,
      fun _ => rfl⟩, by decide +kernel, ⟨?_, by decide +kernel, by decide +kernel⟩⟩
    intro c hc
    have hhead : "/app".toList.head? = some '/' := by decide +kernel
    rw [hhead] at hc
    cases hc
    rfl
  have hparams : WithParams (fun _ => true) sizedUrl :=
    .intro hfront (by decide +kernel) (by decide +kernel) (by decide +kernel)
      (forall_mem_of_all (by decide +kernel)) (by decide +kernel)
  exact (survives_of_comesThrough plainLibpq_documented
    ⟨by decide +kernel, by decide +kernel, by decide +kernel, by decide +kernel⟩).1
      (Or.inr hparams)

/-- **The URL of the documentation does not survive**: its database is lost with
the slashes. -/
theorem not_survives_readmeUrl : ¬ ∀ s settings, Accepted plainLibpq intOfDigits 16 s settings →
    Survives plainLibpq (fun _ => true) intOfDigits 16 s settings := by
  intro hall
  have haccepted : Accepted plainLibpq intOfDigits 16 "postgresql:///mydb".toList
      [(keyword "dbname", keyword "mydb")] :=
    ⟨by decide +kernel, by decide +kernel, by decide +kernel, by decide +kernel⟩
  have hurl : sanitize "postgresql:///mydb".toList =
      "postgresql".toList ++ ':' :: '/' :: '/' :: "/mydb".toList := by decide +kernel
  have hauthority : ∀ c ∈ "/mydb".toList.head?, endsNetloc c = true := by
    intro c hc
    have hhead : "/mydb".toList.head? = some '/' := by decide +kernel
    rw [hhead] at hc
    cases hc
    rfl
  have hslashes : ∀ rest, "/mydb".toList ≠ '/' :: '/' :: rest := by
    intro rest hsame
    have htwo : "/mydb".toList.take 2 = ['/', '/'] := by
      rw [hsame]
      rfl
    exact absurd htwo (by decide +kernel)
  exact not_survives_of_emptyAuthority plainLibpq_documented
    ⟨_, by decide +kernel, _, hurl, hauthority, hslashes⟩ _ (hall _ _ haccepted)

end DramatiqPostgres
