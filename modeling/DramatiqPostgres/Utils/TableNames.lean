import DramatiqPostgres.Utils.QueryManager

/-!
# The names of the tables

Three paths turn a schema and a prefix into the names of tables.

* `build_queries` quotes the names into format strings, which psycopg reads for
  placeholders when they are executed.
* `schema_exists` quotes the name of the queue table into a parameter of its
  own, for `to_regclass`, which reads it as the server reads an identifier.
* `table_name` of the Django models puts quotes around both as they are; Django
  takes a `db_table` that begins and ends with a quote for quoted already, and
  passes it on.

`SameTables` says that all of them name the tables of the schema and the prefix,
for every statement of the broker, of the results and of the command line.  It
holds exactly of names without percent signs and double quotes
(`sameTables_iff`): the first are read as placeholders, the second end the names
of the models.

### Why the condition is exact

Each of the paths fails on its own account.  A name with a percent sign cannot
be in a query with parameters: a single one is no placeholder that psycopg
knows, and of a doubled one it takes half, which is another name.  One query
with parameters is enough to see it, and CLAIM is one.  A name with a double
quote is no obstacle to `quote_ident`, but the models do not double it, and the
identifier they put into a statement ends there.  What `schema_exists` looks up
is right for every name (`lookedUp_eq`).
-/

namespace DramatiqPostgres

namespace QueryTexts

open Pg

/-! ## The paths -/

/-- The queries of `cli.QUERIES`, which all name the queue table only. -/
inductive CliQuery where
  | recover | stats | flush
  deriving DecidableEq, Repr

/-- Their format strings. -/
def CliQuery.template : CliQuery → String
  | .recover =>
        "UPDATE {schema}.{tablename}
        SET state = 'queued', worker_id = NULL, consumed_at = NULL
        WHERE state = 'consumed'
            AND mtime < NOW() - %s::interval;
        "
  | .stats =>
        "SELECT \"state\", count(1)
        FROM {schema}.{tablename}
        GROUP BY \"state\";
        "
  | .flush =>
        "DELETE FROM {schema}.{tablename}
        WHERE \"state\" IN ('queued', 'consumed');
        "

/-- The number of parameters it is executed with, if with any. -/
def CliQuery.params : CliQuery → Option ℕ
  | .recover => some 1
  | .stats | .flush => none

/-- A statement of one of the three managers. -/
inductive Statement where
  | query (q : Query)
  | cli (q : CliQuery)
  deriving DecidableEq, Repr

/-- Its text, once `build_queries` was called with a schema and a prefix. -/
def Statement.text (schema tablePrefix : String) : Statement → Option (List Char)
  | .query (.broker q) =>
      ((QueryManager.new BrokerQuery.template).buildQueries (some schema)
        (some tablePrefix)).built q
  | .query (.results q) =>
      ((QueryManager.new ResultsQuery.template).buildQueries (some schema)
        (some tablePrefix)).built q
  | .cli q =>
      ((QueryManager.new CliQuery.template).buildQueries (some schema) (some tablePrefix)).built q

/-- Its format string. -/
def Statement.template : Statement → String
  | .query q => q.template
  | .cli q => q.template

/-- The number of parameters it is executed with, if with any. -/
def Statement.params : Statement → Option ℕ
  | .query q => q.params
  | .cli q => q.params

/-- The tables it names, in the order of its text. -/
def Statement.tables : Statement → List Table
  | .query q => q.tables
  | .cli _ => [.queue]

/-- The tables it addresses when it is executed; nothing if psycopg finds other
placeholders than its parameters. -/
def Statement.addressed (schema tablePrefix : String) (s : Statement) :
    Option (List (String × String)) :=
  ((s.text schema tablePrefix).bind (Psycopg.sent · s.params)).map qualifiedNames

/-- The table that a name read by itself is, as the server reads an
identifier. -/
def named (text : List Char) : Option (String × String) :=
  (qualifiedName? text).map fun p => (String.ofList p.1, String.ofList p.2)

/-- The query of `schema_exists`. -/
def schemaExistsQuery : String := "SELECT to_regclass(%s);"

/-- Its parameter. -/
def schemaExistsParam (schema tablePrefix : String) : List Char :=
  quoteIdent schema ++ '.' :: quoteIdent (tablePrefix ++ "queue")

/-- The table `schema_exists` looks up. -/
def lookedUp (schema tablePrefix : String) : Option (String × String) :=
  (Psycopg.sent schemaExistsQuery.toList (some 1)).bind fun _ =>
    named (schemaExistsParam schema tablePrefix)

/-- `table_name`, which becomes the `db_table` of a model.  The names are put
between quotes as they are. -/
def tableName (name : String) (schema tablePrefix : Option String) : List Char :=
  '"' :: (orDefault schema "dramatiq").toList ++ '"' :: '.' ::
    '"' :: ((orDefault tablePrefix "").toList ++ name.toList) ++ ['"']

/-! ## The law -/

/-- **All paths name the same tables**, those of the schema and the prefix. -/
structure SameTables (schema tablePrefix : String) : Prop where
  statements : ∀ s : Statement,
    s.addressed schema tablePrefix = some (s.tables.map (Location.mk schema tablePrefix).table)
  lookup : lookedUp schema tablePrefix = some ((Location.mk schema tablePrefix).table .queue)
  models : ∀ t : Table, named (tableName t.name (some schema) (some tablePrefix)) =
    some ((Location.mk schema tablePrefix).table t)

/-- A name without percent signs and double quotes.  Any other character is
allowed, the empty prefix too. -/
def isPlain (name : String) : Bool := name.toList.all fun c => c ≠ '%' && c ≠ '"'

theorem isPlain_iff {name : String} :
    isPlain name = true ↔ '%' ∉ name.toList ∧ '"' ∉ name.toList := by
  rw [isPlain, List.all_eq_true]
  constructor
  · intro h
    have hne : ∀ c ∈ name.toList, c ≠ '%' ∧ c ≠ '"' := fun c hc => by simpa using h c hc
    exact ⟨fun hmem => (hne _ hmem).1 rfl, fun hmem => (hne _ hmem).2 rfl⟩
  · rintro ⟨hpercent, hquote⟩ c hc
    have hp : c ≠ '%' := fun heq => hpercent (heq ▸ hc)
    have hq : c ≠ '"' := fun heq => hquote (heq ▸ hc)
    simp [hp, hq]

/-! ## The statements -/

set_option maxRecDepth 20000 in
theorem isReadable_cli (q : CliQuery) :
    isReadable [.queue] q.params q.template.toList = true := by
  cases q with
  | recover => exact isReadable_of_eq rfl (by decide +kernel)
  | stats => exact isReadable_of_eq rfl (by decide +kernel)
  | flush => exact isReadable_of_eq rfl (by decide +kernel)

theorem Statement.isReadable_template (s : Statement) :
    isReadable s.tables s.params s.template.toList = true := by
  cases s with
  | query q => exact QueryTexts.isReadable_template q
  | cli q => exact isReadable_cli q

/-- A schema that is given is not replaced by the default one. -/
theorem Location.of_some {schema : String} (h : schema ≠ "") (tablePrefix : String) :
    Location.of (some schema) (some tablePrefix) = ⟨schema, tablePrefix⟩ := by
  have hprefix : orDefault (some tablePrefix) "" = tablePrefix := by
    rw [orDefault]
    split_ifs with hempty
    · exact hempty.symm
    · rfl
  rw [Location.of, hprefix, orDefault, if_neg h]

theorem QueryManager.built_buildQueries {ν : Type} (m : QueryManager ν) {schema : String}
    (h : schema ≠ "") (tablePrefix : String) (name : ν) :
    (m.buildQueries (some schema) (some tablePrefix)).built name
      = format (m.queries name) (Location.mk schema tablePrefix).field := by
  have hnamed : (!(truthy (some schema) || truthy (some tablePrefix))) = false := by
    simp [truthy, h]
  rw [QueryManager.buildQueries, hnamed, Location.of_some h]
  rfl

theorem Statement.addressed_eq {schema : String} (h : schema ≠ "") (tablePrefix : String)
    (s : Statement) :
    s.addressed schema tablePrefix = addressedBy s.template s.params ⟨schema, tablePrefix⟩ := by
  have htext : s.text schema tablePrefix
      = format s.template (Location.mk schema tablePrefix).field := by
    cases s with
    | query q => cases q <;> exact QueryManager.built_buildQueries _ h tablePrefix _
    | cli q => exact QueryManager.built_buildQueries _ h tablePrefix _
  rw [Statement.addressed, htext, addressedBy]

/-- psycopg passes on a location as it is exactly if its names have no percent
sign. -/
theorem Location.halved_eq_self_iff (l : Location) :
    l.halved = some l ↔ '%' ∉ l.schema.toList ∧ '%' ∉ l.tablePrefix.toList := by
  rw [← Psycopg.halved_eq_self_iff, ← Psycopg.halved_eq_self_iff]
  constructor
  · intro h
    have hschema := halved_fieldName h .schema
    simp only [Location.halved, Option.bind_eq_some_iff, Option.map_eq_some_iff] at h
    obtain ⟨schema, -, tablePrefix, hhalf, hl⟩ := h
    refine ⟨hschema, ?_⟩
    rw [hhalf, ← hl, String.toList_ofList]
  · rintro ⟨hschema, htable⟩
    rw [Location.halved, hschema, Option.bind_some, htable, Option.map_some,
      String.ofList_toList, String.ofList_toList]

/-- The statements address their own tables exactly if no name has a percent
sign.  For the converse CLAIM is enough, which has parameters and names a
table. -/
theorem statements_iff {schema : String} (h : schema ≠ "") (tablePrefix : String) :
    (∀ s : Statement, s.addressed schema tablePrefix
        = some (s.tables.map (Location.mk schema tablePrefix).table)) ↔
      '%' ∉ schema.toList ∧ '%' ∉ tablePrefix.toList := by
  rw [show ('%' ∉ schema.toList ∧ '%' ∉ tablePrefix.toList) ↔
    (Location.mk schema tablePrefix).halved = some ⟨schema, tablePrefix⟩ from
      (Location.halved_eq_self_iff ⟨schema, tablePrefix⟩).symm]
  constructor
  · intro hall
    -- CLAIM has parameters and names a table
    have hclaim := hall (.query (.broker .claim))
    rw [Statement.addressed_eq h] at hclaim
    exact halved_of_addressedBy (Statement.isReadable_template (.query (.broker .claim)))
      (t := .queue) List.mem_cons_self hclaim
  · intro hhalved s
    have hread := s.isReadable_template
    rw [Statement.addressed_eq h]
    cases hn : s.params with
    | none =>
        rw [hn] at hread
        exact addressedBy_none hread _
    | some n =>
        rw [hn] at hread
        exact addressedBy_of_halved hread hhalved

/-! ## The names by themselves -/

theorem named_quoteIdent (a b : String) :
    named (quoteIdent a ++ '.' :: quoteIdent b) = some (a, b) := by
  have htext : quoteIdent a ++ '.' :: quoteIdent b =
      '"' :: doubled a.toList ++ '"' :: '.' :: '"' :: doubled b.toList ++ ['"'] := by
    simp [quoteIdent]
  rw [named, htext, qualifiedName?_doubled, Option.map_some, String.ofList_toList,
    String.ofList_toList]

/-- `schema_exists` looks up the queue table, whatever the names are. -/
theorem lookedUp_eq (schema tablePrefix : String) :
    lookedUp schema tablePrefix = some ((Location.mk schema tablePrefix).table .queue) := by
  have hsent : Psycopg.sent schemaExistsQuery.toList (some 1)
      = some "SELECT to_regclass($);".toList := by decide +kernel
  rw [lookedUp, hsent, Option.bind_some]
  exact named_quoteIdent schema (tablePrefix ++ "queue")

/-- Names in quotes that are not doubled are read back exactly if they have no
quotes. -/
theorem qualifiedName?_raw_iff (a b : List Char) :
    qualifiedName? ('"' :: a ++ '"' :: '.' :: '"' :: b ++ ['"']) = some (a, b) ↔
      '"' ∉ a ∧ '"' ∉ b := by
  constructor
  · intro h
    -- the text has room for no doubled quote
    have hlength := congrArg List.length (eq_of_qualifiedName? h)
    have ha := length_le_length_doubled a
    have hb := length_le_length_doubled b
    simp only [List.length_append, List.length_cons, List.length_nil] at hlength
    exact ⟨(length_doubled_eq_iff a).mp (by omega), (length_doubled_eq_iff b).mp (by omega)⟩
  · rintro ⟨ha, hb⟩
    have h := qualifiedName?_doubled a b
    rwa [doubled_eq_self ha, doubled_eq_self hb] at h

theorem named_tableName_iff {schema : String} (h : schema ≠ "") (tablePrefix : String) (t : Table) :
    named (tableName t.name (some schema) (some tablePrefix))
        = some ((Location.mk schema tablePrefix).table t) ↔
      '"' ∉ schema.toList ∧ '"' ∉ tablePrefix.toList := by
  have hof := Location.of_some h tablePrefix
  have hschema : orDefault (some schema) "dramatiq" = schema := congrArg Location.schema hof
  have hprefix : orDefault (some tablePrefix) "" = tablePrefix :=
    congrArg Location.tablePrefix hof
  have hname : '"' ∉ t.name.toList := by cases t <;> decide
  have hraw := qualifiedName?_raw_iff schema.toList (tablePrefix.toList ++ t.name.toList)
  rw [List.mem_append, not_or, and_iff_left hname] at hraw
  rw [named, tableName, hschema, hprefix, ← hraw, Option.map_eq_some_iff]
  constructor
  · rintro ⟨⟨a, b⟩, hread, heq⟩
    simp only [Location.table, Prod.mk.injEq] at heq
    rw [hread, ← heq.1, ← String.toList_append, ← heq.2, String.toList_ofList,
      String.toList_ofList]
  · intro hread
    refine ⟨_, hread, ?_⟩
    simp only [Location.table, String.ofList_toList, ← String.toList_append]

/-! ## The theorem -/

/-- **All paths name the same tables exactly if the schema and the prefix have
no percent sign and no double quote.**  An empty schema is excluded, since it
stands for the default one. -/
theorem sameTables_iff (schema tablePrefix : String) (h : schema ≠ "") :
    SameTables schema tablePrefix ↔ isPlain schema ∧ isPlain tablePrefix := by
  rw [isPlain_iff, isPlain_iff]
  constructor
  · intro hsame
    have hpercent := (statements_iff h tablePrefix).mp hsame.statements
    have hquote := (named_tableName_iff h tablePrefix .queue).mp (hsame.models .queue)
    exact ⟨⟨hpercent.1, hquote.1⟩, hpercent.2, hquote.2⟩
  · rintro ⟨⟨hpercent, hquote⟩, hpercent', hquote'⟩
    exact
      { statements := (statements_iff h tablePrefix).mpr ⟨hpercent, hpercent'⟩
        lookup := lookedUp_eq schema tablePrefix
        models := fun t => (named_tableName_iff h tablePrefix t).mpr ⟨hquote, hquote'⟩ }

theorem sameTables_plainNames : "jobs" ≠ "" ∧ SameTables "jobs" "app_" := by
  have hne : "jobs" ≠ "" := by decide
  exact ⟨hne, (sameTables_iff "jobs" "app_" hne).mpr ⟨by decide, by decide⟩⟩

/-- A percent sign is read as a placeholder, and a quote ends the name of a
model. -/
theorem not_sameTables_oddNames : ¬ SameTables "50%" "" ∧ ¬ SameTables "a\"b" "" := by
  constructor
  · intro hsame
    have hpercent := (statements_iff (by decide) "").mp hsame.statements
    exact hpercent.1 (by decide)
  · intro hsame
    have hquote := (named_tableName_iff (by decide) "" .queue).mp (hsame.models .queue)
    exact hquote.1 (by decide)

end QueryTexts

end DramatiqPostgres
