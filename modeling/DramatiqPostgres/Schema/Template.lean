import DramatiqPostgres.Lib.Substitute
import DramatiqPostgres.Utils.QueryManager

/-!
# The DDL template

`schema.sql` is written for psql, with the variables `:"schema"`, `:"state"`,
`:"queue"`, `:"worker"` and `:"result"`.  `process_psql_lines` puts quoted
identifiers in their places by five calls of `str.replace` on each line, one
after the other, so that a later call also reads what the earlier ones have
written.  It looks as if a schema called `x:"queue"` could be taken apart by the
replacement of `:"queue"`; this module says that no name can be.

### Why no name can be

What is written is an identifier, and it writes no variable.  Inside of an
identifier a quote is doubled, so that `:"` is followed by a second quote there;
and where a name ends in a colon, its closing quote is followed by the next
character of the template, with which no variable begins.  So five replacements
are one simultaneous substitution, for every schema and every prefix
(`substituted_of_mem_schemaSql`), and each identifier is read back as the name
it stands for.

### What is asked of the template

The second half of the argument is about `schema.sql` and not about names:
behind each variable there has to be a character that neither continues the
identifier nor the name of a variable (`isCloser`), and no quote may follow a
colon elsewhere.  `isSafe` says this of the pieces of a line, and is decided for
the lines of `schema.sql` once (`isTemplate_schemaSql`); the theorems are about
every safe line.  A line such as `:"schema""` would not be one.

### How the proof goes

`Lib.Substitute` has the general fact, that replacements one after the other are
one simultaneous substitution if no pattern begins inside of what was already
written (`Free`).  `free_render` supplies it, by the kind of the piece: a
character, a variable that is still there, and an identifier in the place of one
that is not.  The lines that psql would execute itself are skipped, and the
script that `init` sends is what is left of them all (`generateInitSql_eq`).
-/

namespace DramatiqPostgres

namespace SchemaTemplate

open Pg Substitution

/-! ## The program -/

/-- A psql variable of the script. -/
inductive Variable where
  | schema | state | queue | worker | result
  deriving DecidableEq, Repr

namespace Variable

/-- Its name. -/
def name : Variable → List Char
  | schema => ['s', 'c', 'h', 'e', 'm', 'a']
  | state => ['s', 't', 'a', 't', 'e']
  | queue => ['q', 'u', 'e', 'u', 'e']
  | worker => ['w', 'o', 'r', 'k', 'e', 'r']
  | result => ['r', 'e', 's', 'u', 'l', 't']

/-- How it stands in the script: `:"name"`. psql would quote what it puts there,
which is why the program has to. -/
def marker (v : Variable) : List Char := ':' :: '"' :: (v.name ++ ['"'])

/-- The name of the schema, type or table that it stands for. -/
def raw (schemaName tablePrefix : String) : Variable → String
  | schema => schemaName
  | v => tablePrefix ++ String.ofList v.name

/-- The identifier that takes its place: `quote_ident` of its name. -/
def identifier (schemaName tablePrefix : String) (v : Variable) : List Char :=
  QueryTexts.quoteIdent (v.raw schemaName tablePrefix)

/-- In the order of their replacement, which turns out not to matter. -/
def all : List Variable := [schema, state, queue, worker, result]

end Variable

/-- What `process_psql_lines` makes of a line that it does not skip: five
replacements, each of all occurrences in what the one before has left. -/
def processLine (schemaName tablePrefix : String) (line : List Char) : List Char :=
  let identifier := Variable.identifier schemaName tablePrefix
  let line := replace Variable.schema.marker (identifier .schema) line
  let line := replace Variable.state.marker (identifier .state) line
  let line := replace Variable.queue.marker (identifier .queue) line
  let line := replace Variable.worker.marker (identifier .worker) line
  replace Variable.result.marker (identifier .result) line

/-- `process_psql_lines`: the lines for psql itself are dropped, the others are
processed one by one. -/
def processPsqlLines (rawLines : List String) (schemaName tablePrefix : String) : List String :=
  (rawLines.filter fun line => line.toList.head? ≠ some '\\').map fun line =>
    String.ofList (processLine schemaName tablePrefix line.toList)

/-- The lines of `schema.sql`, as the source has them. -/
def schemaSql : List String :=
  [
    "\\set ON_ERROR_STOP on\n",
    "\\set schema 'dramatiq'\n",
    "\\set state 'state'\n",
    "\\set queue 'queue'\n",
    "\\set worker 'worker'\n",
    "\\set result 'result'\n",
    "\n",
    "CREATE SCHEMA IF NOT EXISTS :\"schema\";\n",
    "\n",
    "CREATE TYPE :\"schema\".:\"state\" AS ENUM (\n",
    "  'queued',\n",
    "  'consumed',\n",
    "  'rejected'\n",
    ");\n",
    "\n",
    "CREATE TABLE :\"schema\".:\"queue\"(\n",
    "  message_id uuid PRIMARY KEY,\n",
    "  queue_name TEXT NOT NULL DEFAULT 'default',\n",
    "  \"state\" :\"schema\".:\"state\",\n",
    "  mtime TIMESTAMP WITH TIME ZONE DEFAULT NOW(),\n",
    "  -- message as encoded by dramatiq.\n",
    "  message JSONB,\n",
    "  -- Monotonic enqueue counter, tie-breaker for FIFO ordering.\n",
    "  position BIGINT GENERATED BY DEFAULT AS IDENTITY,\n",
    "  -- Do not deliver before this timestamp. Implements delay/eta server-side.\n",
    "  available_at TIMESTAMP WITH TIME ZONE NOT NULL DEFAULT NOW(),\n",
    "  -- Worker owning the message while consumed. NULL once requeued.\n",
    "  worker_id uuid,\n",
    "  consumed_at TIMESTAMP WITH TIME ZONE\n",
    ") WITHOUT OIDS;\n",
    "\n",
    "-- Hot claim path: workers poll due messages per queue in FIFO order. The\n",
    "-- partial predicate keeps the index tiny whatever the table size.\n",
    "CREATE INDEX ON :\"schema\".:\"queue\"(queue_name, available_at, position)\n",
    "  WHERE \"state\" = 'queued';\n",
    "\n",
    "-- Index state and mtime together to speed up purge and recovery.\n",
    "CREATE INDEX ON :\"schema\".:\"queue\"(\"state\", mtime);\n",
    "\n",
    "-- One row per live worker process. Rows with a stale heartbeat mark dead\n",
    "-- workers whose consumed messages must be requeued.\n",
    "CREATE TABLE :\"schema\".:\"worker\"(\n",
    "  worker_id uuid PRIMARY KEY,\n",
    "  heartbeat_at TIMESTAMP WITH TIME ZONE NOT NULL\n",
    ") WITHOUT OIDS;\n",
    "\n",
    "-- Actor results, decoupled from the queue so acknowledged messages can be\n",
    "-- deleted from the hot table immediately.\n",
    "CREATE TABLE :\"schema\".:\"result\"(\n",
    "  message_id uuid PRIMARY KEY,\n",
    "  \"result\" JSONB,\n",
    "  expires_at TIMESTAMP WITH TIME ZONE\n",
    ") WITHOUT OIDS;\n"
  ]

/-- `generate_init_sql`. -/
def generateInitSql (schemaName tablePrefix : String) : String :=
  "\n".intercalate (processPsqlLines schemaSql schemaName tablePrefix)

/-! ## The law -/

/-- Variables with the identifiers that take their places, as a table of
replacements. -/
def table (schemaName tablePrefix : String) (vs : List Variable) : List (List Char × List Char) :=
  vs.map fun v => (v.marker, v.identifier schemaName tablePrefix)

/-- The line after the replacement of some variables, one after the other. -/
def replacing (schemaName tablePrefix : String) (vs : List Variable) (line : List Char) :
    List Char :=
  vs.foldl (fun line v => replace v.marker (v.identifier schemaName tablePrefix) line) line

/-- `process_psql_lines` replaces all variables. -/
theorem processLine_eq (schemaName tablePrefix : String) (line : List Char) :
    processLine schemaName tablePrefix line =
      replacing schemaName tablePrefix Variable.all line := rfl

/-- **The variables of a line are substituted correctly**: in one go, in the
places of the template only, and with identifiers that are read back as the
names. -/
structure Substituted (schemaName tablePrefix : String) (line : List Char) : Prop where
  /-- The five replacements are one simultaneous substitution. -/
  simultaneous : processLine schemaName tablePrefix line =
    substitute (table schemaName tablePrefix Variable.all) line
  /-- Behind the replacement of `done`, a variable stands only where the line
  has it. -/
  createsNone : ∀ done rest, Variable.all = done ++ rest → ∀ v ∈ rest, ∀ before after,
    replacing schemaName tablePrefix done line = before ++ v.marker ++ after →
      ∃ before' after', line = before' ++ v.marker ++ after' ∧
        before = replacing schemaName tablePrefix done before' ∧
        after = replacing schemaName tablePrefix done after'
  /-- In the place of a variable stands a quoted identifier, which is read back
  as its name. -/
  readBack : ∀ v : Variable, ∀ before after, line = before ++ v.marker ++ after →
    ∃ text, processLine schemaName tablePrefix line =
        processLine schemaName tablePrefix before ++ '"' :: text ∧
      readName text =
        some ((v.raw schemaName tablePrefix).toList, processLine schemaName tablePrefix after)

/-! ## Markers -/

namespace Variable

variable {v w : Variable}

/-- A variable begins with a colon, a quote, and a letter that no identifier has
there, since behind a quote inside of one there is a second quote. -/
theorem exists_letter (v : Variable) :
    ∃ letter rest, v.marker = ':' :: '"' :: letter :: rest ∧
      ['"', 's', 'q', 'w', 'r'].contains letter = true ∧ letter ≠ '"' := by
  cases v <;> exact ⟨_, _, rfl, by decide, by decide⟩

theorem marker_ne_nil (v : Variable) : v.marker ≠ [] := List.cons_ne_nil _ _

/-- Only its colon begins a variable inside of a variable. -/
theorem colon_not_mem_tail (v : Variable) : ':' ∉ '"' :: (v.name ++ ['"']) := by
  cases v <;> decide

/-- No variable is the beginning of another one. -/
theorem eq_of_marker_prefix {ys : List Char} (h : v.marker <+: w.marker ++ ys) : v = w := by
  rw [← List.isPrefixOf_iff_prefix] at h
  cases v <;> cases w <;> first | rfl | exact absurd h Bool.false_ne_true

/-- What begins with a colon alone begins with no variable. -/
theorem not_marker_prefix_of_ne {c : Char} {cs : List Char} (hc : c ≠ ':') :
    ¬ v.marker <+: c :: cs := by
  intro h
  exact hc (List.cons_prefix_cons.mp h).1.symm

end Variable

/-! ## Templates -/

/-- A piece of a line: a character, or a variable. -/
inductive Piece where
  | char (c : Char)
  | var (v : Variable)
  deriving DecidableEq, Repr

/-- A piece with its variable replaced. -/
def Piece.render (value : Variable → List Char) : Piece → List Char
  | char c => [c]
  | var v => value v

/-- A line with its variables replaced. -/
def render (value : Variable → List Char) : List Piece → List Char
  | [] => []
  | p :: ps => p.render value ++ render value ps

/-- The pieces of a line, behind the next characters, which belong to a
variable.  The number of those to skip makes the recursion structural. -/
def pieces : ℕ → List Char → List Piece
  | _, [] => []
  | n + 1, _ :: cs => pieces n cs
  | 0, c :: cs =>
      match Variable.all.find? fun v => v.marker.isPrefixOf (c :: cs) with
      | some v => .var v :: pieces (v.marker.length - 1) cs
      | none => .char c :: pieces 0 cs

/-- The next piece, if there is one, is a character that is allowed. -/
def follows (allowed : Char → Bool) : List Piece → Bool
  | [] => true
  | .char c :: _ => allowed c
  | .var _ :: _ => false

/-- A character that may follow a variable: neither a quote, nor the beginning
of a name. -/
def isCloser (c : Char) : Bool := !(['"', 's', 'q', 'w', 'r'].contains c)

/-- No quote follows a colon, and what follows a variable cannot continue its
identifier, nor a variable that begins with its closing quote. -/
def isSafe : List Piece → Bool
  | [] => true
  | .char c :: ps => (c != ':' || follows (· != '"') ps) && isSafe ps
  | .var _ :: ps => follows isCloser ps && isSafe ps

/-- A line that is the text of a safe template: its pieces are safe, and make
the line again. -/
def isTemplate (line : List Char) : Bool :=
  isSafe (pieces 0 line) && render Variable.marker (pieces 0 line) == line

theorem isTemplate_of_eq {line : String} {cs : List Char} (hline : line = String.ofList cs)
    (h : isTemplate cs = true) : isTemplate line.toList = true := by
  rw [hline, String.toList_ofList]
  exact h

/-! ## Where no variable begins -/

section Free

variable {schemaName tablePrefix : String} {v w : Variable} {c : Char} {ys : List Char}

theorem free_cons_of_ne {xs : List Char} (hc : c ≠ ':') (h : Free v.marker xs ys) :
    Free v.marker (c :: xs) ys :=
  h.cons (Variable.not_marker_prefix_of_ne hc)

/-- A colon before anything but a quote. -/
theorem not_marker_prefix_of_head {cs : List Char} (h : cs.head? ≠ some '"') :
    ¬ v.marker <+: ':' :: cs := by
  intro hpre
  obtain ⟨-, hpre⟩ := List.cons_prefix_cons.mp hpre
  cases cs with
  | nil => cases List.eq_nil_of_prefix_nil hpre
  | cons d cs => exact h (congrArg some (List.cons_prefix_cons.mp hpre).1.symm)

/-- A colon and a quote, before anything but the first letter of a name. -/
theorem not_marker_prefix_of_closer {cs : List Char}
    (h : ∀ d ∈ cs.head?, isCloser d = true ∨ d = '"') : ¬ v.marker <+: ':' :: '"' :: cs := by
  intro hpre
  obtain ⟨letter, rest, hmarker, hletter, hne⟩ := v.exists_letter
  rw [hmarker] at hpre
  obtain ⟨-, hpre⟩ := List.cons_prefix_cons.mp hpre
  obtain ⟨-, hpre⟩ := List.cons_prefix_cons.mp hpre
  cases cs with
  | nil => cases List.eq_nil_of_prefix_nil hpre
  | cons d cs =>
      obtain ⟨rfl, -⟩ := List.cons_prefix_cons.mp hpre
      rcases h letter rfl with hcloser | hquote
      · rw [isCloser, hletter] at hcloser
        cases hcloser
      · exact hne hquote

/-- **No variable begins in an identifier**, whatever it says: behind a colon
comes a doubled quote or the closing one, before a closer.  By induction on the
name, with what follows it as a hypothesis. -/
theorem free_doubled (name : List Char) (h : ∀ d ∈ ys.head?, isCloser d = true) :
    Free v.marker (doubled name ++ ['"']) ys := by
  induction name with
  | nil => exact free_cons_of_ne (by decide) (free_nil _ _)
  | cons c name ih =>
      by_cases hquote : c = '"'
      · subst hquote
        exact free_cons_of_ne (by decide) (free_cons_of_ne (by decide) ih)
      · have hdoubled : doubled (c :: name) = c :: doubled name := by
          rw [doubled, List.flatMap_cons, if_neg hquote]
          rfl
        rw [hdoubled]
        refine ih.cons ?_
        by_cases hcolon : c = ':'
        · subst hcolon
          cases name with
          | nil => exact not_marker_prefix_of_closer fun d hd => Or.inl (h d hd)
          | cons d name =>
              by_cases hd : d = '"'
              · subst hd
                refine not_marker_prefix_of_closer fun e he => Or.inr ?_
                exact (Option.some_inj.mp he).symm
              · refine not_marker_prefix_of_head ?_
                rw [doubled, List.flatMap_cons, if_neg hd]
                exact fun hhead => hd (Option.some_inj.mp hhead)
        · exact Variable.not_marker_prefix_of_ne hcolon

theorem free_identifier (w : Variable) (h : ∀ d ∈ ys.head?, isCloser d = true) :
    Free v.marker (w.identifier schemaName tablePrefix) ys :=
  free_cons_of_ne (by decide) (free_doubled _ h)

/-- No other variable begins in a variable. -/
theorem free_marker (hne : v ≠ w) : Free v.marker w.marker ys := by
  refine (free_of_not_mem w.colon_not_mem_tail _ _).cons fun hpre => ?_
  exact hne (Variable.eq_of_marker_prefix hpre)

end Free

/-! ## Templates that are safe -/

section Template

variable {schemaName tablePrefix : String} {v : Variable} {p : Piece} {ps : List Piece}

/-- What stands for a variable once `done` are replaced: its identifier, or
still its marker. -/
def valueAfter (schemaName tablePrefix : String) (done : List Variable) (v : Variable) :
    List Char :=
  if v ∈ done then v.identifier schemaName tablePrefix else v.marker

theorem render_append (value : Variable → List Char) (ps qs : List Piece) :
    render value (ps ++ qs) = render value ps ++ render value qs := by
  induction ps with
  | nil => rfl
  | cons p ps ih => rw [List.cons_append, render, ih, render, List.append_assoc]

theorem head?_render {allowed : Char → Bool} (h : follows allowed ps = true)
    (value : Variable → List Char) : ∀ d ∈ (render value ps).head?, allowed d = true := by
  cases ps with
  | nil => exact nofun
  | cons p ps =>
      cases p with
      | char c =>
          rintro d ⟨⟩
          exact h
      | var v => cases h

theorem isSafe_of_cons (h : isSafe (p :: ps) = true) : isSafe ps = true := by
  cases p <;> exact (Bool.and_eq_true _ _ ▸ h).2

theorem isSafe_of_append_right {qs : List Piece} (h : isSafe (ps ++ qs) = true) :
    isSafe qs = true := by
  induction ps with
  | nil => exact h
  | cons p ps ih => exact ih (isSafe_of_cons h)

theorem follows_of_append {allowed : Char → Bool} {qs : List Piece}
    (h : follows allowed (ps ++ qs) = true) : follows allowed ps = true := by
  cases ps with
  | nil => rfl
  | cons p ps => cases p <;> exact h

theorem isSafe_of_append_left {qs : List Piece} (h : isSafe (ps ++ qs) = true) :
    isSafe ps = true := by
  induction ps with
  | nil => rfl
  | cons p ps ih =>
      have htail := ih (isSafe_of_cons h)
      cases p with
      | char c =>
          simp only [List.cons_append, isSafe, Bool.and_eq_true, Bool.or_eq_true] at h ⊢
          exact ⟨h.1.imp_right follows_of_append, htail⟩
      | var v =>
          simp only [List.cons_append, isSafe, Bool.and_eq_true] at h ⊢
          exact ⟨follows_of_append h.1, htail⟩

/-- **A variable begins in no piece but its own**, replaced or not.  All that a
replacement can meet on its way through a line is here. -/
theorem free_render (done : List Variable) (hsafe : isSafe (p :: ps) = true) (hp : p ≠ .var v) :
    Free v.marker (p.render (valueAfter schemaName tablePrefix done))
      (render (valueAfter schemaName tablePrefix done) ps) := by
  cases p with
  | char c =>
      refine (free_nil _ _).cons ?_
      by_cases hc : c = ':'
      · subst hc
        simp only [isSafe, bne_self_eq_false, Bool.false_or, Bool.and_eq_true] at hsafe
        refine not_marker_prefix_of_head fun hhead => ?_
        exact absurd (head?_render hsafe.1 _ '"' hhead) (by decide)
      · exact Variable.not_marker_prefix_of_ne hc
  | var w =>
      simp only [isSafe, Bool.and_eq_true] at hsafe
      rw [Piece.render, valueAfter]
      split_ifs
      · exact free_identifier w (head?_render hsafe.1 _)
      · exact free_marker fun heq => hp (congrArg Piece.var heq.symm)

theorem entryAt_table {now : List Variable} (hv : v ∈ now) (ys : List Char) :
    entryAt (table schemaName tablePrefix now) (v.marker ++ ys) =
      some (v.marker, v.identifier schemaName tablePrefix) := by
  induction now with
  | nil => cases hv
  | cons w now ih =>
      rw [table, List.map_cons, entryAt, List.find?_cons]
      by_cases hw : w = v
      · subst hw
        have hpre : w.marker.isPrefixOf (w.marker ++ ys) = true :=
          List.isPrefixOf_iff_prefix.mpr (List.prefix_append _ _)
        rw [hpre]
      · have hnot : w.marker.isPrefixOf (v.marker ++ ys) = false := by
          rw [← Bool.not_eq_true, List.isPrefixOf_iff_prefix]
          exact fun hpre => hw (Variable.eq_of_marker_prefix hpre)
        rw [hnot]
        exact ih ((List.mem_cons.mp hv).resolve_left (Ne.symm hw))

/-- **Substitution in a safe template** replaces the variables, and nothing
else. -/
theorem substitute_render {done now : List Variable} (hnew : ∀ v ∈ now, v ∉ done)
    (hsafe : isSafe ps = true) :
    substitute (table schemaName tablePrefix now)
        (render (valueAfter schemaName tablePrefix done) ps) =
      render (valueAfter schemaName tablePrefix (done ++ now)) ps := by
  induction ps with
  | nil => rfl
  | cons p ps ih =>
      have ih := ih (isSafe_of_cons hsafe)
      rw [render, render, ← ih]
      by_cases hp : ∃ v ∈ now, p = .var v
      · obtain ⟨v, hv, rfl⟩ := hp
        rw [Piece.render, Piece.render, valueAfter, valueAfter, if_neg (hnew v hv),
          if_pos (List.mem_append_right done hv)]
        exact substitute_append_of_entryAt (entryAt_table hv _) v.marker_ne_nil
      · have hsame : p.render (valueAfter schemaName tablePrefix (done ++ now)) =
            p.render (valueAfter schemaName tablePrefix done) := by
          cases p with
          | char c => rfl
          | var w =>
              have hw : w ∉ now := fun hw => hp ⟨w, hw, rfl⟩
              rw [Piece.render, Piece.render, valueAfter, valueAfter]
              simp only [List.mem_append, hw, or_false]
        rw [hsame]
        refine substitute_append_of_free fun e he => ?_
        obtain ⟨v, hv, rfl⟩ := List.mem_map.mp he
        exact free_render done hsafe fun heq => hp ⟨v, hv, heq⟩

/-- The replacements, one after the other, do the same, by induction on the
variables that are left to replace. -/
theorem replacing_render {done vs : List Variable} (hnodup : (done ++ vs).Nodup)
    (hsafe : isSafe ps = true) :
    replacing schemaName tablePrefix vs (render (valueAfter schemaName tablePrefix done) ps) =
      render (valueAfter schemaName tablePrefix (done ++ vs)) ps := by
  induction vs generalizing done with
  | nil => rw [List.append_nil]; rfl
  | cons v vs ih =>
      have hassoc : done ++ v :: vs = (done ++ [v]) ++ vs := (List.append_cons _ _ _)
      have hv : ∀ w ∈ [v], w ∉ done := by
        intro w hw hmem
        rw [List.mem_singleton] at hw
        subst hw
        exact (List.nodup_append.mp hnodup).2.2 w hmem w List.mem_cons_self rfl
      rw [hassoc] at hnodup ⊢
      rw [← ih hnodup]
      exact congrArg (replacing schemaName tablePrefix vs) (substitute_render hv hsafe)

/-- The replacements in the line itself. -/
theorem replacing_marker {vs : List Variable} (hnodup : vs.Nodup) (hsafe : isSafe ps = true) :
    replacing schemaName tablePrefix vs (render Variable.marker ps) =
      render (valueAfter schemaName tablePrefix vs) ps := by
  show replacing schemaName tablePrefix vs (render (valueAfter schemaName tablePrefix []) ps) =
    render (valueAfter schemaName tablePrefix ([] ++ vs)) ps
  exact replacing_render hnodup hsafe

/-- **A variable stands only where the template has it**, at every stage of the
replacements. -/
theorem exists_of_render {done : List Variable} (hv : v ∉ done) {before after : List Char}
    (hsafe : isSafe ps = true)
    (h : render (valueAfter schemaName tablePrefix done) ps = before ++ v.marker ++ after) :
    ∃ pre post, ps = pre ++ .var v :: post ∧
      before = render (valueAfter schemaName tablePrefix done) pre ∧
      after = render (valueAfter schemaName tablePrefix done) post := by
  induction ps generalizing before with
  | nil =>
      rw [render, eq_comm, List.append_eq_nil_iff, List.append_eq_nil_iff] at h
      exact absurd h.1.2 v.marker_ne_nil
  | cons p ps ih =>
      -- an occurrence behind the first piece
      have hbehind : ∀ rest, before = p.render (valueAfter schemaName tablePrefix done) ++ rest →
          render (valueAfter schemaName tablePrefix done) ps = rest ++ v.marker ++ after →
          ∃ pre post, p :: ps = pre ++ .var v :: post ∧
            before = render (valueAfter schemaName tablePrefix done) pre ∧
            after = render (valueAfter schemaName tablePrefix done) post := by
        intro rest hbefore hrest
        obtain ⟨pre, post, hps, hpre, hpost⟩ := ih (isSafe_of_cons hsafe) hrest
        refine ⟨p :: pre, post, by rw [hps, List.cons_append], ?_, hpost⟩
        rw [hbefore, hpre, render]
      rw [render] at h
      by_cases hp : p = .var v
      · subst hp
        have hmarker :
            (Piece.var v).render (valueAfter schemaName tablePrefix done) = v.marker := by
          rw [Piece.render, valueAfter, if_neg hv]
        cases before with
        | nil =>
            rw [hmarker, List.nil_append, List.append_cancel_left_eq] at h
            exact ⟨[], ps, rfl, rfl, h.symm⟩
        | cons c before =>
            -- no second occurrence begins inside of the variable
            rw [hmarker] at h
            obtain ⟨rfl, htail⟩ := List.cons.inj h
            obtain ⟨rest, hbefore, hrest⟩ :=
              (free_of_not_mem v.colon_not_mem_tail _ _).exists_of_append htail
            refine hbehind rest ?_ hrest
            rw [hmarker, hbefore]
            rfl
      · obtain ⟨rest, hbefore, hrest⟩ := (free_render done hsafe hp).exists_of_append h
        exact hbehind rest hbefore hrest

/-- **The variables of a safe template are substituted correctly.**  Nothing is
asked of the schema and the prefix. -/
theorem substituted_of_isSafe (schemaName tablePrefix : String) (hsafe : isSafe ps = true) :
    Substituted schemaName tablePrefix (render Variable.marker ps) := by
  have hnodup : Variable.all.Nodup := by decide
  have hall (v : Variable) : v ∈ Variable.all := by cases v <;> decide
  have hline : ∀ qs, isSafe qs = true →
      processLine schemaName tablePrefix (render Variable.marker qs) =
        render (valueAfter schemaName tablePrefix Variable.all) qs :=
    fun qs hqs => replacing_marker hnodup hqs
  refine ⟨?_, ?_, ?_⟩
  · rw [hline ps hsafe]
    exact (substitute_render (fun _ _ => List.not_mem_nil) hsafe).symm
  · intro done rest hsplit v hv before after h
    rw [hsplit] at hnodup
    obtain ⟨hdone, -, hdisjoint⟩ := List.nodup_append.mp hnodup
    have hnot : v ∉ done := fun hmem => hdisjoint v hmem v hv rfl
    rw [replacing_marker hdone hsafe] at h
    obtain ⟨pre, post, rfl, hbefore, hafter⟩ := exists_of_render hnot hsafe h
    refine ⟨render Variable.marker pre, render Variable.marker post, ?_, ?_, ?_⟩
    · rw [render_append, render, ← List.append_assoc]
      rfl
    · rw [hbefore, replacing_marker hdone (isSafe_of_append_left hsafe)]
    · rw [hafter, replacing_marker hdone (isSafe_of_cons (isSafe_of_append_right hsafe))]
  · intro v before after h
    change render (valueAfter schemaName tablePrefix []) ps = before ++ v.marker ++ after at h
    obtain ⟨pre, post, rfl, rfl, rfl⟩ := exists_of_render List.not_mem_nil hsafe h
    have hpost : isSafe (.var v :: post) = true := isSafe_of_append_right hsafe
    have hbefore := hline pre (isSafe_of_append_left hsafe)
    have hafter := hline post (isSafe_of_cons hpost)
    change processLine schemaName tablePrefix
      (render (valueAfter schemaName tablePrefix []) pre) = _ at hbefore
    change processLine schemaName tablePrefix
      (render (valueAfter schemaName tablePrefix []) post) = _ at hafter
    rw [hline _ hsafe, hbefore, hafter]
    refine ⟨doubled (v.raw schemaName tablePrefix).toList ++
      '"' :: render (valueAfter schemaName tablePrefix Variable.all) post, ?_, ?_⟩
    · rw [render_append, render, Piece.render, valueAfter, if_pos (hall v), Variable.identifier,
        QueryTexts.quoteIdent, List.cons_append, List.append_assoc]
      rfl
    · refine readName_doubled _ fun hhead => ?_
      simp only [isSafe, Bool.and_eq_true] at hpost
      exact absurd (head?_render hpost.1 _ '"' hhead) (by decide)

end Template

/-! ## The theorem -/

/-- Every line of the script is one.  This is decided, line by line. -/
theorem isTemplate_schemaSql : ∀ line ∈ schemaSql, isTemplate line.toList = true := by
  simp only [schemaSql, List.forall_mem_cons]
  -- the characters of a literal come from `rfl`: evaluating `toList` decodes it byte by byte
  repeat refine ⟨isTemplate_of_eq rfl (by decide +kernel), ?_⟩
  exact fun line hline => absurd hline List.not_mem_nil

theorem substituted_of_isTemplate (schemaName tablePrefix : String) {line : List Char}
    (h : isTemplate line = true) : Substituted schemaName tablePrefix line := by
  rw [isTemplate, Bool.and_eq_true, beq_iff_eq] at h
  have hsubstituted := substituted_of_isSafe schemaName tablePrefix h.1
  rwa [h.2] at hsubstituted

/-- **The DDL template is substituted correctly**, for every schema and every
prefix: quotes, colons and names of variables included. -/
theorem substituted_of_mem_schemaSql (schemaName tablePrefix : String) :
    ∀ line ∈ schemaSql, Substituted schemaName tablePrefix line.toList :=
  fun line hline =>
    substituted_of_isTemplate schemaName tablePrefix (isTemplate_schemaSql line hline)

theorem substituted_createTable :
    "CREATE TABLE :\"schema\".:\"queue\"(\n" ∈ schemaSql ∧
    Substituted "a:" ":\"worker\"" "CREATE TABLE :\"schema\".:\"queue\"(\n".toList := by
  have hline : "CREATE TABLE :\"schema\".:\"queue\"(\n" ∈ schemaSql := by decide +kernel
  exact ⟨hline, substituted_of_mem_schemaSql _ _ _ hline⟩

/-- Neither a colon at the end of the schema nor a variable in the prefix does
harm. -/
example : processLine "a:" ":\"worker\"" ":\"schema\".:\"queue\"(".toList =
    "\"a:\".\":\"\"worker\"\"queue\"(".toList := by decide +kernel

/-- The script that `init` executes is one simultaneous substitution in the
lines for the server. -/
theorem generateInitSql_eq (schemaName tablePrefix : String) :
    generateInitSql schemaName tablePrefix =
      "\n".intercalate ((schemaSql.filter fun line => line.toList.head? ≠ some '\\').map fun line =>
        String.ofList (substitute (table schemaName tablePrefix Variable.all) line.toList)) := by
  rw [generateInitSql, processPsqlLines]
  refine congrArg _ (List.map_congr_left fun line hline => ?_)
  have htemplate := isTemplate_schemaSql line (List.mem_filter.mp hline).1
  rw [(substituted_of_isTemplate schemaName tablePrefix htemplate).simultaneous]

end SchemaTemplate

end DramatiqPostgres
