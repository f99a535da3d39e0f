import DramatiqPostgres.Lib.Runs
import DramatiqPostgres.Pg.ObjectNames
import Mathlib.Data.Fintype.Defs
import Mathlib.Logic.Function.Basic

/-!
# Concurrent initialisations

Every deploy may call `init`, in a transaction of its own: it takes an advisory
lock for its schema and prefix, asks whether the queue table exists, runs
`schema.sql` if not, and the transaction commits, which is when the lock is
released.

`initSystem` interleaves any finite number of such transactions.  Its unit is
not the statement but the **entry**: one name that a statement enters into the
catalog.  A CREATE TABLE enters several, and can wait for a concurrent
transaction in front of any of them.

## Main definitions

* `Entry`, `script` — `schema.sql` as the names it enters, in their order.
* `Naming`, `pgNaming` — the candidates for the names that `schema.sql` leaves
  to the server, as a parameter, and PostgreSQL's own.
* `initSystem` — every interleaving of the transactions' entries, looks and
  commits.
* `Lawful` — what the docstring of `init` promises, of one state.
* `Uncontended` — the condition on a step: the name it enters into the catalog
  is not one that another open transaction has entered.

## Main results

* `lawful_of_uncontended` — every state of an uncontended run is lawful.
* `lawful_of_ownSchemas` — where different deployments have different schemas,
  that is every run.
* `separate_of_fits`, `apart_of_fits` — names of fewer than 64 bytes meet the
  conditions on names.

## Design notes

**What the lock protects.**  Transactions for the same schema and prefix exclude
each other (`Ok.exclusive`), so no deployment is ever created twice.  What the
lock does not protect is what different deployments share: a schema that does
not exist yet, and the names that PostgreSQL makes up.  The latter are at most
63 bytes long and are looked for among the names one can see, so two prefixes
that begin alike lead both transactions to the same name of an index.

**Waiting.**  A name that another open transaction has entered makes a CREATE
wait, and fail once that transaction has committed.
`CREATE SCHEMA IF NOT EXISTS` looks for a schema it can see before that, and not
again.

**Array types.**  An array type is a type, so the unique index on the names of
types counts it (`CatalogName.key`), but CREATE TYPE and CREATE TABLE do not
fail on one: they give it another name (`Entry.moved`).  Its old name stays in
`catalog` here, where the new type has it as well.

The hash function is a parameter, and no property of it is used: a collision
only makes transactions wait that need not.
-/

namespace DramatiqPostgres

namespace SchemaInit

open Pg

/-! ## Names -/

/-- The arguments of a call of `init`. -/
structure Call where
  schema : String
  tablePrefix : String
  deriving DecidableEq, Repr

/-- A name in the catalog of a database: a schema, or a relation or type in
one. -/
inductive CatalogName where
  | schema (name : String)
  /-- A table, an index or a sequence. -/
  | relation (schema name : String)
  /-- A type that is no array type; every table has one. -/
  | type (schema name : String)
  | array (schema name : String)
  deriving DecidableEq, Repr

/-- What a unique index of the catalog compares. -/
def CatalogName.key : CatalogName → CatalogName
  | .array parent name => .type parent name
  | other => other

/-- The schema a name belongs to. -/
def CatalogName.inSchema : CatalogName → String
  | .schema name => name
  | .relation parent _ | .type parent _ | .array parent _ => parent

/-- What `schema.sql` gives a name, without its prefix. -/
inductive Object where
  | type (name : String)
  | relation (name : String)
  deriving DecidableEq, Repr

def Object.name : Object → String
  | type name | relation name => name

/-- The type and the tables of `schema.sql`; a table is a type as well. -/
def objects : List Object :=
  [.type "state", .type "queue", .relation "queue", .type "worker", .relation "worker",
    .type "result", .relation "result"]

/-- The schema of a call. -/
def Call.schemaName (c : Call) : CatalogName := .schema (identifier c.schema)

/-- The type or table of a call. -/
def Call.object (c : Call) : Object → CatalogName
  | .type name => .type (identifier c.schema) (identifier (c.tablePrefix ++ name))
  | .relation name => .relation (identifier c.schema) (identifier (c.tablePrefix ++ name))

/-- The text whose hash is the key of the advisory lock. -/
def Call.lockText (c : Call) : String := c.schema ++ "." ++ c.tablePrefix ++ "queue"

/-- PostgreSQL creates a schema of that name. -/
def acceptable (schema : String) : Bool :=
  !schema.toList.isEmpty && !("pg_".toList.isPrefixOf schema.toList)

/-! ### Names that PostgreSQL chooses -/

/-- What a statement of `schema.sql` creates without naming it. -/
inductive Implicit where
  /-- The array type of a type. -/
  | array (type : String)
  /-- The index of a PRIMARY KEY. -/
  | primaryKey (table : String)
  /-- The sequence of an identity column. -/
  | identity (table column : String)
  /-- The index of a CREATE INDEX. -/
  | index (table : String) (columns : List String)
  deriving DecidableEq, Repr

/-- The entry of the catalog under a name that PostgreSQL chooses. -/
def Implicit.named (c : Call) (x : Implicit) (name : String) : CatalogName :=
  match x with
  | array _ => .array (identifier c.schema) name
  | primaryKey _ | identity _ _ | index _ _ => .relation (identifier c.schema) name

/-- How the server names what it is given no name for: the candidates it tries
in turn, of which those from the second on are distinct. -/
structure Naming where
  candidate : Call → Implicit → ℕ → String
  distinct : ∀ c x, Function.Injective fun pass => candidate c x (pass + 1)

/-- The name that is tried in a pass. -/
def Naming.tried (naming : Naming) (c : Call) (x : Implicit) (pass : ℕ) : CatalogName :=
  x.named c (naming.candidate c x pass)

/-- The name that is chosen, given the names that are seen. -/
def Naming.choose (naming : Naming) (seen : List CatalogName) (c : Call) (x : Implicit) :
    CatalogName :=
  naming.tried c x (firstFree (fun pass => (naming.tried c x pass).key) (seen.map (·.key)))

/-- PostgreSQL's candidates. -/
def pgCandidate (c : Call) : Implicit → ℕ → String
  | .array type => arrayTypeName (identifier (c.tablePrefix ++ type))
  | .primaryKey table => relationName (identifier (c.tablePrefix ++ table)) none "pkey"
  | .identity table column =>
      relationName (identifier (c.tablePrefix ++ table)) (some column) "seq"
  | .index table columns =>
      relationName (identifier (c.tablePrefix ++ table)) (some (String.intercalate "_" columns))
        "idx"

/-- PostgreSQL's way of naming. -/
def pgNaming : Naming where
  candidate := pgCandidate
  distinct := by
    intro c x
    cases x with
    | array type => exact injective_arrayTypeName _
    | primaryKey table =>
        have hlast : ("_" ++ "pkey").toList.getLast? = some 'y' := by decide
        exact injective_relationName _ _ hlast (by decide)
    | identity table column =>
        have hlast : ("_" ++ "seq").toList.getLast? = some 'q' := by decide
        exact injective_relationName _ _ hlast (by decide)
    | index table columns =>
        have hlast : ("_" ++ "idx").toList.getLast? = some 'x' := by decide
        exact injective_relationName _ _ hlast (by decide)

/-! ## The transactions -/

/-- What a statement of `schema.sql` enters into the catalog. -/
inductive Entry where
  /-- The schema, unless it is there. -/
  | schema
  /-- The new name of an array type that has the name of a type that is created,
  if there is one. -/
  | moved (type : String)
  | object (o : Object)
  | implicit (x : Implicit)
  deriving DecidableEq, Repr

/-- `schema.sql`, statement by statement. -/
def script : List Entry :=
  -- `CREATE SCHEMA IF NOT EXISTS`
  [.schema,
    -- `CREATE TYPE ... AS ENUM`
    .moved "state", .object (.type "state"), .implicit (.array "state"),
    -- `CREATE TABLE`: the queue
    .implicit (.identity "queue" "position"),
    .moved "queue", .object (.type "queue"), .implicit (.array "queue"),
    .object (.relation "queue"), .implicit (.primaryKey "queue"),
    -- `CREATE INDEX`, twice
    .implicit (.index "queue" ["queue_name", "available_at", "position"]),
    .implicit (.index "queue" ["state", "mtime"]),
    -- `CREATE TABLE`: the workers
    .moved "worker", .object (.type "worker"), .implicit (.array "worker"),
    .object (.relation "worker"), .implicit (.primaryKey "worker"),
    -- `CREATE TABLE`: the results
    .moved "result", .object (.type "result"), .implicit (.array "result"),
    .object (.relation "result"), .implicit (.primaryKey "result")]

/-- How far a transaction is. -/
inductive Progress where
  | begun
  | locked
  /-- In the script, before the entries `rest`. -/
  | creating (rest : List Entry)
  /-- A CREATE waits for the transaction that has entered its name. -/
  | waiting (name : CatalogName) (rest : List Entry)
  /-- `init` has returned. -/
  | returned (created : Bool)
  | committed (created : Bool)
  /-- A statement raised, and the transaction is rolled back. -/
  | raised
  deriving DecidableEq, Repr

/-- The transaction holds its lock. -/
def Progress.isOpen : Progress → Bool
  | locked | creating _ | waiting _ _ | returned _ => true
  | begun | committed _ | raised => false

/-- What `init` returned. -/
def Progress.result? : Progress → Option Bool
  | returned created | committed created => some created
  | _ => none

/-- The entry of the script that is next. -/
def Progress.next? : Progress → Option Entry
  | creating rest => rest.head?
  | _ => none

theorem Progress.result?_eq_some_iff {p : Progress} {created : Bool} :
    p.result? = some created ↔ p = .returned created ∨ p = .committed created := by
  cases p <;> simp [result?]

/-- A transaction, with what it has created. -/
structure Session where
  progress : Progress
  created : List CatalogName
  deriving DecidableEq, Repr

/-- The committed catalog, and the transactions. -/
structure State (ι : Type) where
  catalog : List CatalogName
  sessions : ι → Session

namespace State

variable {ι : Type} [DecidableEq ι] [Fintype ι]

/-- The state with another session. -/
def set (s : State ι) (i : ι) (session : Session) : State ι :=
  { s with sessions := Function.update s.sessions i session }

/-- The names a transaction sees: those committed, and its own. -/
def seen (s : State ι) (i : ι) : List CatalogName := (s.sessions i).created ++ s.catalog

/-- Another open transaction has entered the name. -/
def OtherHolds (s : State ι) (i : ι) (name : CatalogName) : Prop :=
  ∃ j, j ≠ i ∧ (s.sessions j).progress.isOpen = true ∧
    name.key ∈ (s.sessions j).created.map (·.key)

instance (s : State ι) (i : ι) (name : CatalogName) : Decidable (s.OtherHolds i name) :=
  inferInstanceAs (Decidable (∃ j, j ≠ i ∧ (s.sessions j).progress.isOpen = true ∧
    name.key ∈ (s.sessions j).created.map (·.key)))

/-- The name an entry of the script is about to enter, if it enters one. -/
def nameOf (naming : Naming) (s : State ι) (i : ι) (c : Call) : Entry → Option CatalogName
  | .schema => if c.schemaName ∈ s.seen i then none else some c.schemaName
  | .moved type =>
      if .array (identifier c.schema) (identifier (c.tablePrefix ++ type)) ∈ s.seen i then
        some (naming.choose (s.seen i) c (.array type))
      else none
  | .object o => some (c.object o)
  | .implicit x => some (naming.choose (s.seen i) c x)

/-- A name is entered into the catalog. -/
def insert (s : State ι) (i : ι) (name : CatalogName) (rest : List Entry) : State ι :=
  if name ∈ s.seen i then s.set i ⟨.raised, []⟩
  else if s.OtherHolds i name then s.set i ⟨.waiting name rest, (s.sessions i).created⟩
  else s.set i ⟨.creating rest, name :: (s.sessions i).created⟩

/-- The state after an entry of the script. -/
def execute (naming : Naming) (s : State ι) (i : ι) (c : Call) (rest : List Entry)
    (entry : Entry) : State ι :=
  if entry = .schema ∧ acceptable c.schema = false then s.set i ⟨.raised, []⟩
  else match s.nameOf naming i c entry with
    | none => s.set i ⟨.creating rest, (s.sessions i).created⟩
    | some name => s.insert i name rest

/-- The transaction it waited for has ended: its name is taken if that one has
committed. -/
def resume (s : State ι) (i : ι) (name : CatalogName) (rest : List Entry) : State ι :=
  if name.key ∈ s.catalog.map (·.key) then s.set i ⟨.raised, []⟩
  else s.set i ⟨.creating rest, name :: (s.sessions i).created⟩

/-- COMMIT. -/
def commit (s : State ι) (i : ι) (created : Bool) : State ι :=
  ⟨(s.sessions i).created ++ s.catalog,
    Function.update s.sessions i ⟨.committed created, (s.sessions i).created⟩⟩

/-- Another transaction holds the lock. -/
def OtherLocks (hashtext : String → ℤ) (calls : ι → Call) (s : State ι) (i : ι) : Prop :=
  ∃ j, j ≠ i ∧ (s.sessions j).progress.isOpen = true ∧
    hashtext (calls j).lockText = hashtext (calls i).lockText

instance (hashtext : String → ℤ) (calls : ι → Call) (s : State ι) (i : ι) :
    Decidable (OtherLocks hashtext calls s i) :=
  inferInstanceAs (Decidable (∃ j, j ≠ i ∧ (s.sessions j).progress.isOpen = true ∧
    hashtext (calls j).lockText = hashtext (calls i).lockText))

/-- The state after the next entry of a transaction, or its COMMIT. -/
def step (naming : Naming) (hashtext : String → ℤ) (calls : ι → Call) (s : State ι) (i : ι) :
    Option (State ι) :=
  match (s.sessions i).progress with
  -- `pg_advisory_xact_lock`
  | .begun =>
      if OtherLocks hashtext calls s i then none
      else some (s.set i ⟨.locked, (s.sessions i).created⟩)
  -- `schema_exists`
  | .locked =>
      if (calls i).object (.relation "queue") ∈ s.catalog then
        some (s.set i ⟨.returned false, (s.sessions i).created⟩)
      else some (s.set i ⟨.creating script, (s.sessions i).created⟩)
  | .creating [] => some (s.set i ⟨.returned true, (s.sessions i).created⟩)
  | .creating (entry :: rest) => some (s.execute naming i (calls i) rest entry)
  | .waiting name rest => if s.OtherHolds i name then none else some (s.resume i name rest)
  | .returned created => some (s.commit i created)
  | .committed _ => none
  | .raised => none

end State

/-- Every run of the transactions, from a database. -/
def initSystem {ι : Type} [DecidableEq ι] [Fintype ι] (naming : Naming) (hashtext : String → ℤ)
    (calls : ι → Call) (initial : List CatalogName) : StepSystem (State ι) ι :=
  ⟨⟨initial, fun _ => ⟨.begun, []⟩⟩, State.step naming hashtext calls⟩

/-! ## The law and its condition -/

/-- All objects of a deployment are there. -/
def Present (catalog : List CatalogName) (c : Call) : Prop :=
  ∀ o ∈ objects, c.object o ∈ catalog

/-- None of them is. -/
def Missing (catalog : List CatalogName) (c : Call) : Prop :=
  ∀ o ∈ objects, c.object o ∉ catalog

section Law

variable {ι : Type} [DecidableEq ι] [Fintype ι] (naming : Naming) (hashtext : String → ℤ)
  (calls : ι → Call) (initial : List CatalogName)

/-- **Initialisation is idempotent and concurrency-safe.** -/
structure Lawful (s : State ι) : Prop where
  notRaised : ∀ i, (s.sessions i).progress ≠ .raised
  /-- While a transaction has not committed, one can go on. -/
  proceeds : ∀ i, (∀ b, (s.sessions i).progress ≠ .committed b) →
    ∃ j, (s.step naming hashtext calls j).isSome
  /-- Once a call for a missing deployment has returned, one of them has created
  it. -/
  creates : ∀ i, (s.sessions i).progress.result? ≠ none → Missing initial (calls i) →
    ∃ j, calls j = calls i ∧ (s.sessions j).progress.result? = some true
  /-- No other one has. -/
  once : ∀ i j, (s.sessions i).progress.result? = some true →
    (s.sessions j).progress.result? = some true → calls i = calls j → i = j
  onlyMissing : ∀ i, (s.sessions i).progress.result? = some true → Missing initial (calls i)
  present : ∀ i, (s.sessions i).progress = .committed true → Present s.catalog (calls i)
  /-- A call that returns `False` changes nothing. -/
  unchanged : ∀ i, (s.sessions i).progress.result? = some false → (s.sessions i).created = []

/-- PostgreSQL's cut merges no two objects of the deployments. -/
def Separate : Prop :=
  ∀ i j, ∀ o ∈ objects, ∀ p ∈ objects, (calls i).object o = (calls j).object p →
    o = p ∧ calls i = calls j

/-- No name that PostgreSQL tries for one deployment is an object of one. -/
def Apart : Prop :=
  ∀ (i : ι) (x : Implicit) (pass : ℕ) (j : ι), ∀ o ∈ objects,
    naming.tried (calls i) x pass ≠ (calls j).object o

/-- The step enters no name into the catalog that another open transaction has
entered. -/
def Uncontended (s : State ι) (i : ι) : Prop :=
  ∀ name ∈ (s.sessions i).progress.next?.bind (s.nameOf naming i (calls i)),
    ¬ s.OtherHolds i name

instance (s : State ι) (i : ι) : Decidable (Uncontended naming calls s i) :=
  inferInstanceAs (Decidable (∀ name ∈ (s.sessions i).progress.next?.bind _, ¬ _))

end Law

/-! ## The invariant -/

/-- What is known of a transaction at each of its points. -/
def StageOk (initial catalog : List CatalogName) (c : Call) (created : List CatalogName) :
    Progress → Prop
  | .begun | .locked | .returned false | .committed false => created = []
  | .creating rest =>
      rest <:+ script ∧ Missing catalog c ∧
        ∀ o ∈ objects, c.object o ∈ created ↔ Entry.object o ∉ rest
  | .returned true => Missing catalog c ∧ Present created c
  | .committed true => Missing initial c ∧ Present created c
  | .waiting _ _ | .raised => False

section Invariant

variable {ι : Type} (hashtext : String → ℤ) (calls : ι → Call) (initial : List CatalogName)

/-- The invariant of a transaction: what it has created is in its schema, and
the objects among that are its own. -/
structure SessionOk (catalog : List CatalogName) (c : Call) (session : Session) : Prop where
  inSchema : ∀ name ∈ session.created, name.inSchema = identifier c.schema
  own : ∀ i, ∀ o ∈ objects, (calls i).object o ∈ session.created → calls i = c
  stage : StageOk initial catalog c session.created session.progress

/-- The invariant of an uncontended run. -/
structure Ok (s : State ι) : Prop where
  session : ∀ i, SessionOk calls initial s.catalog (calls i) (s.sessions i)
  catalog : ∀ name, name ∈ s.catalog ↔ name ∈ initial ∨
    ∃ i b, (s.sessions i).progress = .committed b ∧ name ∈ (s.sessions i).created
  /-- The lock. -/
  exclusive : ∀ i j, (s.sessions i).progress.isOpen = true →
    (s.sessions j).progress.isOpen = true →
    hashtext (calls i).lockText = hashtext (calls j).lockText → i = j
  creates : ∀ i, (s.sessions i).progress.result? ≠ none → Missing initial (calls i) →
    ∃ j, calls j = calls i ∧ (s.sessions j).progress.result? = some true
  once : ∀ i j, (s.sessions i).progress.result? = some true →
    (s.sessions j).progress.result? = some true → calls i = calls j → i = j

variable {naming : Naming} {hashtext calls initial} {s : State ι}

theorem ok_init : Ok hashtext calls initial ⟨initial, fun _ => ⟨.begun, []⟩⟩ where
  session := fun _ => ⟨nofun, nofun, rfl⟩
  catalog := fun _ => ⟨Or.inl, fun h => h.elim id (by rintro ⟨i, b, hprogress, -⟩; cases hprogress)⟩
  exclusive := nofun
  creates := fun _ h => absurd rfl h
  once := nofun

/-! ## Names of different deployments -/

/-- What another open transaction creates is not of this deployment. -/
theorem Ok.not_mem_created (h : Ok hashtext calls initial s) {i j : ι} (hne : j ≠ i)
    (hi : (s.sessions i).progress.isOpen = true) (hj : (s.sessions j).progress.isOpen = true)
    {o : Object} (ho : o ∈ objects) : (calls i).object o ∉ (s.sessions j).created := by
  intro hmem
  have hcalls := (h.session j).own i o ho hmem
  exact hne (h.exclusive j i hj hi (by rw [hcalls]))

theorem Ok.subset_catalog (h : Ok hashtext calls initial s) : initial ⊆ s.catalog :=
  fun name hname => (h.catalog name).mpr (Or.inl hname)

theorem Missing.mono {catalog catalog' : List CatalogName} {c : Call} (h : Missing catalog' c)
    (hsub : catalog ⊆ catalog') : Missing catalog c :=
  fun name hname hmem => h name hname (hsub hmem)

/-- A deployment that is in the catalog and was not at first has been
created. -/
theorem Ok.exists_creator (h : Ok hashtext calls initial s) {i : ι} {o : Object} (ho : o ∈ objects)
    (hmem : (calls i).object o ∈ s.catalog) (hinitial : (calls i).object o ∉ initial) :
    ∃ j, calls j = calls i ∧ (s.sessions j).progress = .committed true := by
  obtain ⟨j, b, hj, hcreated⟩ := ((h.catalog _).mp hmem).resolve_left hinitial
  have hcalls := (h.session j).own i o ho hcreated
  have hstage := (h.session j).stage
  rw [hj] at hstage
  cases b with
  | true => exact ⟨j, hcalls.symm, hj⟩
  | false =>
      rw [show (s.sessions j).created = [] from hstage] at hcreated
      cases hcreated

/-- A deployment is in the catalog as a whole or not at all. -/
theorem Ok.present_or_missing (h : Ok hashtext calls initial s)
    (hwhole : ∀ i, Present initial (calls i) ∨ Missing initial (calls i)) (i : ι) :
    Present s.catalog (calls i) ∨ Missing s.catalog (calls i) := by
  rcases hwhole i with hpresent | hmissing
  · exact Or.inl fun o ho => h.subset_catalog (hpresent o ho)
  · by_cases hcreated : ∃ j, calls j = calls i ∧ (s.sessions j).progress = .committed true
    · obtain ⟨j, hcalls, hj⟩ := hcreated
      have hstage := (h.session j).stage
      rw [hj] at hstage
      refine Or.inl fun o ho => (h.catalog _).mpr (Or.inr ⟨j, true, hj, ?_⟩)
      rw [← hcalls]
      exact hstage.2 o ho
    · exact Or.inr fun o ho hmem => hcreated (h.exists_creator ho hmem (hmissing o ho))

/-! ## The script and the names it enters -/

theorem queue_mem : Object.relation "queue" ∈ objects := by decide

/-- The script creates every object. -/
theorem mem_script (o : Object) (ho : o ∈ objects) : Entry.object o ∈ script := by
  revert o
  decide

/-- The script creates no other object. -/
theorem mem_objects {o : Object} (h : Entry.object o ∈ script) : o ∈ objects := by
  simpa [script, objects] using h

theorem nodup_script : script.Nodup := by decide

/-- An entry of the script that enters no object leaves the objects to create as
they are. -/
theorem stage_of_ne_object {catalog created created' : List CatalogName} {c : Call}
    {entry : Entry} {rest : List Entry}
    (h : StageOk initial catalog c created (.creating (entry :: rest)))
    (hentry : ∀ o, entry ≠ .object o)
    (hsame : ∀ o ∈ objects, c.object o ∈ created' ↔ c.object o ∈ created) :
    StageOk initial catalog c created' (.creating rest) := by
  obtain ⟨hsuffix, hmissing, hcreated⟩ := h
  refine ⟨(List.suffix_cons entry rest).trans hsuffix, hmissing, fun o ho => ?_⟩
  rw [hsame o ho, hcreated o ho, List.mem_cons, not_or, and_iff_right (Ne.symm (hentry o))]

/-- An entry of the script that enters an object leaves the others to create. -/
theorem stage_object (hseparate : Separate calls) {catalog created : List CatalogName} {i : ι}
    {o : Object} {rest : List Entry}
    (h : StageOk initial catalog (calls i) created (.creating (.object o :: rest))) :
    StageOk initial catalog (calls i) ((calls i).object o :: created) (.creating rest) := by
  obtain ⟨hsuffix, hmissing, hcreated⟩ := h
  have ho : o ∈ objects := mem_objects (hsuffix.subset List.mem_cons_self)
  have hfresh : Entry.object o ∉ rest :=
    (List.nodup_cons.mp (nodup_script.sublist hsuffix.sublist)).1
  refine ⟨(List.suffix_cons _ rest).trans hsuffix, hmissing, fun p hp => ?_⟩
  rw [List.mem_cons, hcreated p hp, List.mem_cons, not_or]
  by_cases heq : p = o
  · subst heq
    exact iff_of_true (Or.inl rfl) hfresh
  · have hobject : (calls i).object p ≠ (calls i).object o :=
      fun hsame => heq (hseparate i i p hp o ho hsame).1
    have hentry : Entry.object p ≠ .object o := fun hsame => heq (Entry.object.inj hsame)
    rw [or_iff_right hobject, and_iff_right hentry]

theorem inSchema_key (name : CatalogName) : name.key.inSchema = name.inSchema := by
  cases name <;> rfl

/-- The name an entry is about to enter is in the schema of the call. -/
theorem inSchema_of_nameOf {i : ι} {c : Call} {entry : Entry} {name : CatalogName}
    (h : s.nameOf naming i c entry = some name) : name.inSchema = identifier c.schema := by
  have hchoose : ∀ x, (naming.choose (s.seen i) c x).inSchema = identifier c.schema := by
    intro x
    cases x <;> rfl
  cases entry with
  | schema =>
      rw [State.nameOf] at h
      split_ifs at h
      cases h
      rfl
  | moved type =>
      rw [State.nameOf] at h
      split_ifs at h
      cases h
      exact hchoose _
  | object o =>
      cases h
      cases o <;> rfl
  | implicit x =>
      cases h
      exact hchoose x

/-- A name that PostgreSQL chooses is none that the transaction sees. -/
theorem choose_notMem (naming : Naming) (seen : List CatalogName) (c : Call) (x : Implicit) :
    naming.choose seen c x ∉ seen := by
  have hinjective : Function.Injective fun pass => (naming.tried c x (pass + 1)).key := by
    intro m n h
    refine naming.distinct c x ?_
    cases x <;> simpa [Naming.tried, Implicit.named, CatalogName.key] using h
  intro hmem
  exact firstFree_notMem (fun pass => (naming.tried c x pass).key) hinjective (seen.map (·.key))
    (List.mem_map_of_mem hmem)

/-- A name of the script that is no object is new, and none of the objects of a
deployment. -/
theorem notMem_of_nameOf (hapart : Apart naming calls) {i : ι} {entry : Entry} {name : CatalogName}
    (hentry : ∀ o, entry ≠ .object o) (h : s.nameOf naming i (calls i) entry = some name) :
    name ∉ s.seen i ∧ ∀ j, ∀ o ∈ objects, name ≠ (calls j).object o := by
  have hchoose : ∀ x, naming.choose (s.seen i) (calls i) x ∉ s.seen i ∧
      ∀ j, ∀ o ∈ objects, naming.choose (s.seen i) (calls i) x ≠ (calls j).object o :=
    fun x => ⟨choose_notMem naming (s.seen i) (calls i) x, fun j o ho => hapart i x _ j o ho⟩
  cases entry with
  | schema =>
      rw [State.nameOf] at h
      split_ifs at h with hseen
      cases h
      refine ⟨hseen, fun j o _ => ?_⟩
      cases o <;> exact nofun
  | moved type =>
      rw [State.nameOf] at h
      split_ifs at h
      cases h
      exact hchoose _
  | object o => exact absurd rfl (hentry o)
  | implicit x =>
      cases h
      exact hchoose x

/-- Where different deployments have different schemas, no step is contended. -/
theorem Ok.uncontended (h : Ok hashtext calls initial s)
    (hschemas : ∀ i j, identifier (calls i).schema = identifier (calls j).schema →
      calls i = calls j) (i : ι) : Uncontended naming calls s i := by
  intro name hname
  rintro ⟨j, hne, hj, hheld⟩
  obtain ⟨entry, hnext, hentry⟩ := Option.bind_eq_some_iff.mp hname
  have hopen : (s.sessions i).progress.isOpen = true := by
    cases hprogress : (s.sessions i).progress with
    | creating rest => rfl
    | begun | locked | waiting | returned | committed | raised =>
        rw [hprogress] at hnext
        cases hnext
  obtain ⟨held, hheld, hkey⟩ := List.mem_map.mp hheld
  have hschema : held.inSchema = name.inSchema := by
    rw [← inSchema_key held, hkey, inSchema_key]
  rw [(h.session j).inSchema held hheld, inSchema_of_nameOf hentry] at hschema
  exact hne (h.exclusive j i hj hopen (by rw [hschemas j i hschema]))

/-! ## One step -/

/-- The lock of a transaction that goes on. -/
theorem Ok.lock_of_isOpen (h : Ok hashtext calls initial s) {i : ι}
    (hopen : (s.sessions i).progress.isOpen = true) (j : ι) (hne : j ≠ i)
    (hj : (s.sessions j).progress.isOpen = true) :
    hashtext (calls j).lockText ≠ hashtext (calls i).lockText :=
  fun hkey => hne (h.exclusive j i hj hopen hkey)

variable [DecidableEq ι]

theorem State.set_self (s : State ι) (i : ι) (session : Session) :
    (s.set i session).sessions i = session := Function.update_self ..

theorem State.set_of_ne (s : State ι) {i j : ι} (h : j ≠ i) (session : Session) :
    (s.set i session).sessions j = s.sessions j := Function.update_of_ne h ..

/-- A transaction that has not returned goes on, without committing. -/
theorem Ok.set (h : Ok hashtext calls initial s) {i : ι} {session : Session}
    (hbefore : (s.sessions i).progress.result? = none)
    (hsession : SessionOk calls initial s.catalog (calls i) session)
    (hafter : ∀ b, session.progress ≠ .committed b)
    (hlock : session.progress.isOpen = true → ∀ j, j ≠ i →
      (s.sessions j).progress.isOpen = true →
      hashtext (calls j).lockText ≠ hashtext (calls i).lockText)
    (hcreates : session.progress.result? ≠ none → Missing initial (calls i) →
      session.progress.result? = some true ∨
        ∃ j, j ≠ i ∧ calls j = calls i ∧ (s.sessions j).progress.result? = some true)
    (honce : session.progress.result? = some true → ∀ j,
      (s.sessions j).progress.result? = some true → calls j ≠ calls i) :
    Ok hashtext calls initial (s.set i session) where
  session := by
    intro j
    by_cases hj : j = i
    · subst hj
      rw [State.set_self]
      exact hsession
    · rw [State.set_of_ne s hj]
      exact h.session j
  catalog := by
    intro name
    rw [show (s.set i session).catalog = s.catalog from rfl, h.catalog name]
    refine or_congr_right (exists_congr fun j => exists_congr fun b => ?_)
    by_cases hj : j = i
    · subst hj
      rw [State.set_self]
      refine iff_of_false (fun hold => ?_) (fun hnew => hafter b hnew.1)
      rw [hold.1] at hbefore
      cases hbefore
    · rw [State.set_of_ne s hj]
  exclusive := by
    intro j k hj hk hkey
    by_cases hji : j = i
    · subst hji
      by_contra hne
      rw [State.set_self] at hj
      rw [State.set_of_ne s (Ne.symm hne)] at hk
      exact hlock hj k (Ne.symm hne) hk hkey.symm
    · rw [State.set_of_ne s hji] at hj
      by_cases hki : k = i
      · subst hki
        rw [State.set_self] at hk
        exact absurd hkey (hlock hk j hji hj)
      · rw [State.set_of_ne s hki] at hk
        exact h.exclusive j k hj hk hkey
  creates := by
    -- whoever had created it is another transaction than `i`
    have hother : ∀ j, (s.sessions j).progress.result? = some true → j ≠ i := by
      rintro j hj rfl
      rw [hbefore] at hj
      cases hj
    intro j hj hmissing
    by_cases hji : j = i
    · subst hji
      rw [State.set_self] at hj
      rcases hcreates hj hmissing with hself | ⟨k, hne, hcalls, hk⟩
      · exact ⟨j, rfl, by rw [State.set_self]; exact hself⟩
      · exact ⟨k, hcalls, by rw [State.set_of_ne s hne]; exact hk⟩
    · rw [State.set_of_ne s hji] at hj
      obtain ⟨k, hcalls, hk⟩ := h.creates j hj hmissing
      exact ⟨k, hcalls, by rw [State.set_of_ne s (hother k hk)]; exact hk⟩
  once := by
    intro j k hj hk hcalls
    by_cases hji : j = i
    · subst hji
      by_contra hne
      rw [State.set_self] at hj
      rw [State.set_of_ne s (Ne.symm hne)] at hk
      exact honce hj k hk hcalls.symm
    · rw [State.set_of_ne s hji] at hj
      by_cases hki : k = i
      · subst hki
        rw [State.set_self] at hk
        exact absurd hcalls (honce hk j hj)
      · rw [State.set_of_ne s hki] at hk
        exact h.once j k hj hk hcalls

/-- A transaction goes on with the script. -/
theorem Ok.goesOn (h : Ok hashtext calls initial s) {i : ι} {rest : List Entry}
    {created : List CatalogName} (hopen : (s.sessions i).progress.isOpen = true)
    (hbefore : (s.sessions i).progress.result? = none)
    (hsession : SessionOk calls initial s.catalog (calls i) ⟨.creating rest, created⟩) :
    Ok hashtext calls initial (s.set i ⟨.creating rest, created⟩) :=
  h.set hbefore hsession nofun (fun _ => h.lock_of_isOpen hopen) (fun hnone => absurd rfl hnone)
    nofun

/-! ### The statements around the script -/

/-- The lock is taken. -/
theorem ok_lock (h : Ok hashtext calls initial s) {i : ι}
    (hprogress : (s.sessions i).progress = .begun) (hfree : ¬ State.OtherLocks hashtext calls s i) :
    Ok hashtext calls initial (s.set i ⟨.locked, (s.sessions i).created⟩) := by
  obtain ⟨hschema, hown, hstage⟩ := h.session i
  rw [hprogress] at hstage
  refine h.set (by rw [hprogress]; rfl) ⟨hschema, hown, hstage⟩ nofun ?_
    (fun hnone => absurd rfl hnone) nofun
  intro _ j hne hj hkey
  exact hfree ⟨j, hne, hj, hkey⟩

/-- `schema_exists`. -/
theorem ok_look (h : Ok hashtext calls initial s)
    (hwhole : ∀ i, Present initial (calls i) ∨ Missing initial (calls i)) {i : ι}
    (hprogress : (s.sessions i).progress = .locked) :
    Ok hashtext calls initial
      (if (calls i).object (.relation "queue") ∈ s.catalog then
        s.set i ⟨.returned false, (s.sessions i).created⟩
      else s.set i ⟨.creating script, (s.sessions i).created⟩) := by
  have hopen : (s.sessions i).progress.isOpen = true := by rw [hprogress]; rfl
  have hbefore : (s.sessions i).progress.result? = none := by rw [hprogress]; rfl
  obtain ⟨hschema, hown, hstage⟩ := h.session i
  rw [hprogress] at hstage
  have hnil : (s.sessions i).created = [] := hstage
  split_ifs with hexists
  · refine h.set hbefore ⟨hschema, hown, hnil⟩ nofun (fun _ => h.lock_of_isOpen hopen) ?_ nofun
    intro _ hmissing
    obtain ⟨j, hcalls, hj⟩ := h.exists_creator queue_mem hexists (hmissing _ queue_mem)
    have hresult : (s.sessions j).progress.result? = some true := by rw [hj]; rfl
    refine Or.inr ⟨j, ?_, hcalls, hresult⟩
    rintro rfl
    rw [hbefore] at hresult
    cases hresult
  · have hmissing : Missing s.catalog (calls i) :=
      (h.present_or_missing hwhole i).resolve_left fun hpresent =>
        hexists (hpresent _ queue_mem)
    refine h.goesOn hopen hbefore ⟨hschema, hown, List.suffix_refl _, hmissing, ?_⟩
    intro o ho
    rw [hnil]
    exact iff_of_false List.not_mem_nil (not_not.mpr (mem_script o ho))

/-- The call for a deployment that is missing has run the whole script. -/
theorem ok_returnTrue (h : Ok hashtext calls initial s) {i : ι}
    (hprogress : (s.sessions i).progress = .creating []) :
    Ok hashtext calls initial (s.set i ⟨.returned true, (s.sessions i).created⟩) := by
  have hopen : (s.sessions i).progress.isOpen = true := by rw [hprogress]; rfl
  obtain ⟨hschema, hown, hstage⟩ := h.session i
  rw [hprogress] at hstage
  obtain ⟨-, hmissing, hcreated⟩ := hstage
  refine h.set (by rw [hprogress]; rfl)
    ⟨hschema, hown, hmissing, fun o ho => (hcreated o ho).mpr List.not_mem_nil⟩ nofun
    (fun _ => h.lock_of_isOpen hopen) (fun _ _ => Or.inl rfl) ?_
  intro _ j hj hcalls
  have hstage := (h.session j).stage
  rcases Progress.result?_eq_some_iff.mp hj with hreturned | hcommitted
  · -- both hold the lock
    have hsame : j = i := h.exclusive j i (by rw [hreturned]; rfl) hopen (by rw [hcalls])
    rw [hsame, hprogress] at hj
    cases hj
  · -- the objects would be in the catalog
    rw [hcommitted] at hstage
    refine hmissing _ queue_mem ((h.catalog _).mpr (Or.inr ⟨j, true, hcommitted, ?_⟩))
    rw [← hcalls]
    exact hstage.2 _ queue_mem

section Commit

variable {i : ι} {b : Bool}

theorem State.commit_self (s : State ι) (i : ι) (b : Bool) :
    (s.commit i b).sessions i = ⟨.committed b, (s.sessions i).created⟩ := Function.update_self ..

theorem State.commit_of_ne (s : State ι) {i j : ι} (h : j ≠ i) (b : Bool) :
    (s.commit i b).sessions j = s.sessions j := Function.update_of_ne h ..

/-- What the calls have returned does not change. -/
theorem result?_commit (hprogress : (s.sessions i).progress = .returned b) (j : ι) :
    ((s.commit i b).sessions j).progress.result? = (s.sessions j).progress.result? := by
  by_cases hj : j = i
  · subst hj
    rw [State.commit_self, hprogress]
    rfl
  · rw [State.commit_of_ne s hj]

/-- The lock is released, and no other one is taken. -/
theorem isOpen_of_commit {j : ι} (hj : ((s.commit i b).sessions j).progress.isOpen = true) :
    j ≠ i ∧ (s.sessions j).progress.isOpen = true := by
  by_cases hji : j = i
  · subst hji
    rw [State.commit_self] at hj
    cases hj
  · rw [State.commit_of_ne s hji] at hj
    exact ⟨hji, hj⟩

/-- The objects of another transaction that holds its lock are still missing. -/
theorem Ok.missing_commit (h : Ok hashtext calls initial s)
    (hopen : (s.sessions i).progress.isOpen = true) {j : ι} (hji : j ≠ i)
    (hj : (s.sessions j).progress.isOpen = true) (hmissing : Missing s.catalog (calls j)) :
    Missing (s.commit i b).catalog (calls j) := by
  intro o ho hmem
  rcases List.mem_append.mp hmem with hcreated | hold
  · exact h.not_mem_created (Ne.symm hji) hj hopen ho hcreated
  · exact hmissing o ho hold

/-- COMMIT. -/
theorem ok_commit (h : Ok hashtext calls initial s)
    (hprogress : (s.sessions i).progress = .returned b) :
    Ok hashtext calls initial (s.commit i b) where
  session := by
    have hopen : (s.sessions i).progress.isOpen = true := by rw [hprogress]; rfl
    intro j
    obtain ⟨hschema, hown, hstage⟩ := h.session j
    by_cases hji : j = i
    · subst hji
      rw [hprogress] at hstage
      rw [State.commit_self]
      refine ⟨hschema, hown, ?_⟩
      cases b with
      | true => exact ⟨hstage.1.mono h.subset_catalog, hstage.2⟩
      | false => exact hstage
    · have hmissing := h.missing_commit (b := b) hopen hji
      rw [State.commit_of_ne s hji]
      refine ⟨hschema, hown, ?_⟩
      cases hwhere : (s.sessions j).progress with
      | creating rest =>
          rw [hwhere] at hstage hmissing
          exact ⟨hstage.1, hmissing rfl hstage.2.1, hstage.2.2⟩
      | returned created =>
          rw [hwhere] at hstage hmissing
          cases created with
          | true => exact ⟨hmissing rfl hstage.1, hstage.2⟩
          | false => exact hstage
      | committed created =>
          rw [hwhere] at hstage
          cases created with
          | true => exact hstage
          | false => exact hstage
      | begun => rw [hwhere] at hstage; exact hstage
      | locked => rw [hwhere] at hstage; exact hstage
      | waiting name rest => rw [hwhere] at hstage; exact hstage
      | raised => rw [hwhere] at hstage; exact hstage
  catalog := by
    intro name
    rw [State.commit, List.mem_append, h.catalog name, ← State.commit]
    constructor
    · rintro (hnew | hinitial | ⟨j, b', hj, hmem⟩)
      · exact Or.inr ⟨i, b, by rw [State.commit_self], by rw [State.commit_self]; exact hnew⟩
      · exact Or.inl hinitial
      · have hji : j ≠ i := by
          rintro rfl
          rw [hprogress] at hj
          cases hj
        exact Or.inr ⟨j, b', by rw [State.commit_of_ne s hji]; exact hj,
          by rw [State.commit_of_ne s hji]; exact hmem⟩
    · rintro (hinitial | ⟨j, b', hj, hmem⟩)
      · exact Or.inr (Or.inl hinitial)
      · by_cases hji : j = i
        · subst hji
          rw [State.commit_self] at hmem
          exact Or.inl hmem
        · rw [State.commit_of_ne s hji] at hj hmem
          exact Or.inr (Or.inr ⟨j, b', hj, hmem⟩)
  exclusive := fun j k hj hk =>
    h.exclusive j k (isOpen_of_commit hj).2 (isOpen_of_commit hk).2
  creates := by
    intro j hj hmissing
    rw [result?_commit hprogress] at hj
    obtain ⟨k, hcalls, hk⟩ := h.creates j hj hmissing
    exact ⟨k, hcalls, by rw [result?_commit hprogress]; exact hk⟩
  once := by
    intro j k hj hk
    rw [result?_commit hprogress] at hj hk
    exact h.once j k hj hk

end Commit

/-! ### The script -/

variable [Fintype ι]

section Script

variable {i : ι} {entry : Entry} {rest : List Entry}

/-- The name that is entered is a new one, and no other open transaction has
entered it. -/
theorem insert_eq {name : CatalogName} (hnew : name ∉ s.seen i) (hfree : ¬ s.OtherHolds i name) :
    s.insert i name rest = s.set i ⟨.creating rest, name :: (s.sessions i).created⟩ := by
  rw [State.insert, if_neg hnew, if_neg hfree]

/-- An entry of the script, in a transaction that may create its schema. -/
theorem ok_execute (h : Ok hashtext calls initial s) (hseparate : Separate calls)
    (hapart : Apart naming calls) (hacceptable : acceptable (calls i).schema = true)
    (hprogress : (s.sessions i).progress = .creating (entry :: rest))
    (huncontended : Uncontended naming calls s i) :
    Ok hashtext calls initial (s.execute naming i (calls i) rest entry) := by
  have hopen : (s.sessions i).progress.isOpen = true := by rw [hprogress]; rfl
  have hbefore : (s.sessions i).progress.result? = none := by rw [hprogress]; rfl
  obtain ⟨hschema, hown, hstage⟩ := h.session i
  rw [hprogress] at hstage
  have hfree : ∀ name, s.nameOf naming i (calls i) entry = some name → ¬ s.OtherHolds i name := by
    intro name hname
    refine huncontended name ?_
    rw [hprogress]
    exact hname
  have hcreates : ¬ (entry = .schema ∧ acceptable (calls i).schema = false) := by
    rw [hacceptable]
    exact fun h => nomatch h.2
  rw [State.execute, if_neg hcreates]
  cases hname : s.nameOf naming i (calls i) entry with
  | none =>
      have hentry : ∀ o, entry ≠ .object o := by
        rintro o rfl
        cases hname
      exact h.goesOn hopen hbefore
        ⟨hschema, hown, stage_of_ne_object hstage hentry fun _ _ => Iff.rfl⟩
  | some name =>
      have hinSchema : ∀ n ∈ name :: (s.sessions i).created,
          n.inSchema = identifier (calls i).schema :=
        List.forall_mem_cons.mpr ⟨inSchema_of_nameOf hname, hschema⟩
      by_cases hobject : ∃ o, entry = .object o
      · obtain ⟨o, rfl⟩ := hobject
        cases hname
        have ho : o ∈ objects := mem_objects (hstage.1.subset List.mem_cons_self)
        have hnew : (calls i).object o ∉ s.seen i := by
          intro hmem
          rcases List.mem_append.mp hmem with hcreated | hcatalog
          · exact (hstage.2.2 o ho).mp hcreated List.mem_cons_self
          · exact hstage.2.1 o ho hcatalog
        change Ok hashtext calls initial (s.insert i ((calls i).object o) rest)
        rw [insert_eq hnew (hfree _ rfl)]
        refine h.goesOn hopen hbefore ⟨hinSchema, fun j p hp hmem => ?_,
          stage_object hseparate hstage⟩
        rcases List.mem_cons.mp hmem with hsame | hold
        · exact (hseparate j i p hp o ho hsame).2
        · exact hown j p hp hold
      · have hentry : ∀ o, entry ≠ .object o := fun o heq => hobject ⟨o, heq⟩
        obtain ⟨hnew, hother⟩ := notMem_of_nameOf hapart hentry hname
        have hsame : ∀ j, ∀ o ∈ objects, (calls j).object o ∈ name :: (s.sessions i).created ↔
            (calls j).object o ∈ (s.sessions i).created := by
          intro j o ho
          rw [List.mem_cons, or_iff_right (Ne.symm (hother j o ho))]
        change Ok hashtext calls initial (s.insert i name rest)
        rw [insert_eq hnew (hfree name hname)]
        exact h.goesOn hopen hbefore
          ⟨hinSchema, fun j o ho hmem => hown j o ho ((hsame j o ho).mp hmem),
            stage_of_ne_object hstage hentry (hsame i)⟩

end Script

/-- **Step lemma.**  An uncontended step keeps the invariant. -/
theorem ok_step (hseparate : Separate calls) (hapart : Apart naming calls)
    (hacceptable : ∀ i, acceptable (calls i).schema = true)
    (hwhole : ∀ i, Present initial (calls i) ∨ Missing initial (calls i)) {t : State ι} {i : ι}
    (h : Ok hashtext calls initial s) (huncontended : Uncontended naming calls s i)
    (hstep : s.step naming hashtext calls i = some t) : Ok hashtext calls initial t := by
  have hstage := (h.session i).stage
  unfold State.step at hstep
  split at hstep
  · next hprogress =>
      split_ifs at hstep with hfree
      cases hstep
      exact ok_lock h hprogress hfree
  · next hprogress =>
      have hlook := ok_look h hwhole hprogress
      split_ifs at hstep hlook with hexists
      · cases hstep
        exact hlook
      · cases hstep
        exact hlook
  · next hprogress =>
      cases hstep
      exact ok_returnTrue h hprogress
  · next entry rest hprogress =>
      cases hstep
      exact ok_execute h hseparate hapart (hacceptable i) hprogress huncontended
  · next name rest hprogress =>
      rw [hprogress] at hstage
      exact hstage.elim
  · next created hprogress =>
      cases hstep
      exact ok_commit h hprogress
  · cases hstep
  · cases hstep

/-- **Progress.**  A transaction that holds its lock can go on. -/
theorem Ok.step_of_isOpen (h : Ok hashtext calls initial s) {i : ι}
    (hopen : (s.sessions i).progress.isOpen = true) :
    (s.step naming hashtext calls i).isSome := by
  have hstage := (h.session i).stage
  unfold State.step
  split
  · next hprogress => rw [hprogress] at hopen; cases hopen
  · split_ifs <;> rfl
  · rfl
  · rfl
  · next name rest hprogress =>
      rw [hprogress] at hstage
      exact hstage.elim
  · rfl
  · next created hprogress => rw [hprogress] at hopen; cases hopen
  · next hprogress => rw [hprogress] at hopen; cases hopen

/-- The invariant implies the law. -/
theorem Ok.lawful (h : Ok hashtext calls initial s) : Lawful naming hashtext calls initial s where
  notRaised := by
    intro i hraised
    have hstage := (h.session i).stage
    rw [hraised] at hstage
    exact hstage
  proceeds := by
    intro i huncommitted
    have hstage := (h.session i).stage
    by_cases hopen : (s.sessions i).progress.isOpen = true
    · exact ⟨i, h.step_of_isOpen hopen⟩
    · cases hprogress : (s.sessions i).progress with
      | begun =>
          -- it takes the lock, unless another one that holds it goes on
          by_cases hfree : State.OtherLocks hashtext calls s i
          · obtain ⟨j, -, hj, -⟩ := hfree
            exact ⟨j, h.step_of_isOpen hj⟩
          · refine ⟨i, ?_⟩
            simp only [State.step, hprogress, if_neg hfree]
            rfl
      | committed b => exact absurd hprogress (huncommitted b)
      | raised => rw [hprogress] at hstage; exact hstage.elim
      | locked => rw [hprogress] at hopen; exact absurd rfl hopen
      | creating rest => rw [hprogress] at hopen; exact absurd rfl hopen
      | waiting name rest => rw [hprogress] at hopen; exact absurd rfl hopen
      | returned b => rw [hprogress] at hopen; exact absurd rfl hopen
  creates := h.creates
  once := h.once
  onlyMissing := by
    intro i hresult
    have hstage := (h.session i).stage
    rcases Progress.result?_eq_some_iff.mp hresult with hreturned | hcommitted
    · rw [hreturned] at hstage
      exact hstage.1.mono h.subset_catalog
    · rw [hcommitted] at hstage
      exact hstage.1
  present := by
    intro i hprogress o ho
    have hstage := (h.session i).stage
    rw [hprogress] at hstage
    exact (h.catalog _).mpr (Or.inr ⟨i, true, hprogress, hstage.2 o ho⟩)
  unchanged := by
    intro i hresult
    have hstage := (h.session i).stage
    rcases Progress.result?_eq_some_iff.mp hresult with hreturned | hcommitted
    · rw [hreturned] at hstage
      exact hstage
    · rw [hcommitted] at hstage
      exact hstage

end Invariant

section Runs

variable {ι : Type} [DecidableEq ι] [Fintype ι] (naming : Naming) (hashtext : String → ℤ)
  (calls : ι → Call) (initial : List CatalogName)

/-- **Concurrent initialisations are safe in every uncontended run**, whatever
the other names in the database are. -/
theorem lawful_of_uncontended
    (hwhole : ∀ i, Present initial (calls i) ∨ Missing initial (calls i))
    (hseparate : Separate calls) (hapart : Apart naming calls)
    (hacceptable : ∀ i, acceptable (calls i).schema = true) (schedule : List ι)
    (huncontended : ∀ p ∈ (initSystem naming hashtext calls initial).taken schedule,
      Uncontended naming calls p.1 p.2) :
    ∀ s ∈ (initSystem naming hashtext calls initial).visited schedule,
      Lawful naming hashtext calls initial s := by
  intro s hs
  have hok : Ok hashtext calls initial s :=
    StepSystem.inv_of_mem_visitedFrom (M := initSystem naming hashtext calls initial)
      (fun _ _ _ hok hC hstep => ok_step hseparate hapart hacceptable hwhole hok hC hstep) ok_init
      huncontended s hs
  exact hok.lawful

/-- **Deployments with schemas of their own are safe in every run**: any number
of deploys of each may call `init` at the same time. -/
theorem lawful_of_ownSchemas
    (hwhole : ∀ i, Present initial (calls i) ∨ Missing initial (calls i))
    (hseparate : Separate calls) (hapart : Apart naming calls)
    (hacceptable : ∀ i, acceptable (calls i).schema = true)
    (hschemas : ∀ i j, identifier (calls i).schema = identifier (calls j).schema →
      calls i = calls j) (schedule : List ι) :
    ∀ s ∈ (initSystem naming hashtext calls initial).visited schedule,
      Lawful naming hashtext calls initial s := by
  intro s hs
  have hok : Ok hashtext calls initial s :=
    StepSystem.inv_of_mem_visited (M := initSystem naming hashtext calls initial) ok_init
      (fun _ i _ hok hstep =>
        ok_step hseparate hapart hacceptable hwhole hok (hok.uncontended hschemas i) hstep) hs
  exact hok.lawful

end Runs

/-! ## Names that are not cut -/

/-- All names of a deployment are short enough. -/
def Call.Fits (c : Call) : Prop :=
  c.schema.utf8ByteSize < 64 ∧ ∀ o ∈ objects, (c.tablePrefix ++ o.name).utf8ByteSize < 64

theorem Call.Fits.identifier_schema {c : Call} (h : c.Fits) : identifier c.schema = c.schema :=
  if_pos h.1

theorem Call.Fits.identifier_object {c : Call} (h : c.Fits) {o : Object} (ho : o ∈ objects) :
    identifier (c.tablePrefix ++ o.name) = c.tablePrefix ++ o.name :=
  if_pos (h.2 o ho)

/-- The object names end differently. -/
theorem name_eq_of_append_eq {p q : String} {o r : Object} (ho : o ∈ objects) (hr : r ∈ objects)
    (h : p ++ o.name = q ++ r.name) : o.name = r.name := by
  have htake : ∀ (t : String) (o : Object), o ∈ objects →
      (t ++ o.name).toList.reverse.take 2 = o.name.toList.reverse.take 2 := by
    intro t o ho
    have hlength : 2 ≤ o.name.toList.reverse.length := by
      revert o
      decide
    rw [String.toList_append, List.reverse_append, List.take_append_of_le_length hlength]
  have hends : ∀ o ∈ objects, ∀ r ∈ objects,
      o.name.toList.reverse.take 2 = r.name.toList.reverse.take 2 → o.name = r.name := by decide
  refine hends o ho r hr ?_
  rw [← htake p o ho, h, htake q r hr]

/-- Names that are short enough are not merged. -/
theorem separate_of_fits {ι : Type} {calls : ι → Call} (h : ∀ i, (calls i).Fits) :
    Separate calls := by
  intro i j o ho p hp hobject
  have hnames : identifier (calls i).schema = identifier (calls j).schema ∧
      identifier ((calls i).tablePrefix ++ o.name) =
        identifier ((calls j).tablePrefix ++ p.name) ∧ (o.name = p.name → o = p) := by
    cases o with
    | type m =>
        cases p with
        | type n =>
            rw [Call.object, Call.object, CatalogName.type.injEq] at hobject
            exact ⟨hobject.1, hobject.2, fun hname => congrArg Object.type hname⟩
        | relation n => cases hobject
    | relation m =>
        cases p with
        | type n => cases hobject
        | relation n =>
            rw [Call.object, Call.object, CatalogName.relation.injEq] at hobject
            exact ⟨hobject.1, hobject.2, fun hname => congrArg Object.relation hname⟩
  obtain ⟨hschema, hname, hkind⟩ := hnames
  rw [(h i).identifier_schema, (h j).identifier_schema] at hschema
  rw [(h i).identifier_object ho, (h j).identifier_object hp] at hname
  have hsame := name_eq_of_append_eq ho hp hname
  rw [hsame, String.append_left_inj] at hname
  refine ⟨hkind hsame, ?_⟩
  cases hi : calls i with
  | mk schema tablePrefix =>
      cases hj : calls j with
      | mk schema' tablePrefix' =>
          rw [hi, hj] at hschema hname
          exact Call.mk.injEq .. ▸ ⟨hschema, hname⟩

/-- A relation that the server names ends otherwise than an object of a
deployment. -/
theorem relationName_ne_object {c : Call} (h : c.Fits) {o : Object} (ho : o ∈ objects)
    {parent table label : String} {addition : Option String} {last : Char}
    (hlast : ("_" ++ label).toList.getLast? = some last) (hends : last ∈ ['y', 'q', 'x'])
    (pass : ℕ) :
    CatalogName.relation parent (relationName table addition label pass) ≠ c.object o := by
  intro heq
  have hname : relationName table addition label pass = c.tablePrefix ++ o.name := by
    rw [← h.identifier_object ho]
    cases o with
    | type n => cases heq
    | relation n => exact (CatalogName.relation.inj heq).2
  have hobjects : ∀ o ∈ objects, ∃ d, o.name.toList.getLast? = some d ∧
      d ∉ ['y', 'q', 'x'] ∧ d.isDigit = false := by
    have hall : ∀ o ∈ objects, o.name.toList.getLast?.any fun d =>
        decide (d ∉ ['y', 'q', 'x'] ∧ d.isDigit = false) := by decide
    intro o ho
    obtain ⟨d, hd, hends⟩ := (Option.any_eq_true _ _).mp (hall o ho)
    exact ⟨d, hd, of_decide_eq_true hends⟩
  obtain ⟨d, hd, hcases⟩ := getLast?_relationName table addition hlast pass
  obtain ⟨e, he, hnot, hdigit⟩ := hobjects o ho
  rw [hname, String.toList_append, List.getLast?_append, he, Option.some_or, Option.some_inj] at hd
  subst hd
  rcases hcases with rfl | hdigit'
  · exact hnot hends
  · rw [hdigit] at hdigit'
    cases hdigit'

/-- PostgreSQL's own names are apart from objects whose names are short
enough. -/
theorem apart_of_fits {ι : Type} {calls : ι → Call} (h : ∀ i, (calls i).Fits) :
    Apart pgNaming calls := by
  intro i x pass j o ho
  cases x with
  | array type => cases o <;> exact nofun
  | primaryKey table =>
      have hlast : ("_" ++ "pkey").toList.getLast? = some 'y' := by decide
      exact relationName_ne_object (h j) ho hlast (by decide) pass
  | identity table column =>
      have hlast : ("_" ++ "seq").toList.getLast? = some 'q' := by decide
      exact relationName_ne_object (h j) ho hlast (by decide) pass
  | index table columns =>
      have hlast : ("_" ++ "idx").toList.getLast? = some 'x' := by decide
      exact relationName_ne_object (h j) ho hlast (by decide) pass

/-! ## Two deploys to one schema -/

/-- A hash that tells short texts apart. -/
def sumOfCodes (text : String) : ℤ := text.toList.foldl (fun sum c => sum + (c.toNat : ℤ)) 0

/-- Two prefixes in the schema `jobs`. -/
def twoPrefixes : Bool → Call
  | false => ⟨"jobs", "a_"⟩
  | true => ⟨"jobs", "b_"⟩

/-- Two prefixes that begin alike. -/
def longPrefixes : Bool → Call
  | false => ⟨"jobs", "billing_service_production_eu_a_"⟩
  | true => ⟨"jobs", "billing_service_production_eu_b_"⟩

/-- Both transactions take turns. -/
def alternating (turns : ℕ) : List Bool := (List.replicate turns [false, true]).flatten

/-- Where the schema exists already, two deploys with short prefixes succeed. -/
theorem lawful_alternating :
    ∃ s ∈ (initSystem pgNaming sumOfCodes twoPrefixes [.schema "jobs"]).visited (alternating 26),
      (∀ i, (s.sessions i).progress = .committed true) ∧
        Lawful pgNaming sumOfCodes twoPrefixes [.schema "jobs"] s := by
  have hrun : ∃ s ∈ (initSystem pgNaming sumOfCodes twoPrefixes [.schema "jobs"]).visited
      (alternating 26), ∀ i, (s.sessions i).progress = .committed true := by decide +kernel
  have hfits : ∀ i, (twoPrefixes i).Fits := by
    intro i
    cases i with
    | false => exact ⟨by decide, by decide⟩
    | true => exact ⟨by decide, by decide⟩
  have hmissing : ∀ i, Missing [.schema "jobs"] (twoPrefixes i) := by
    intro i o _ hmem
    have hschema := List.mem_singleton.mp hmem
    cases o <;> cases hschema
  obtain ⟨s, hs, hcommitted⟩ := hrun
  exact ⟨s, hs, hcommitted, lawful_of_uncontended _ _ _ _ (fun i => Or.inr (hmissing i))
    (separate_of_fits hfits) (apart_of_fits hfits) (by decide) (alternating 26)
    (by decide +kernel) s hs⟩

/-- The second deploy is a turn behind when the first one commits. -/
def overtaken (turns rest : ℕ) : List Bool :=
  alternating turns ++ List.replicate rest false ++ [true]

/-- A run in which a transaction fails is not lawful. -/
theorem not_lawful_of_raised {calls : Bool → Call} {initial : List CatalogName}
    {schedule : List Bool}
    (hrun : ∃ s ∈ (initSystem pgNaming sumOfCodes calls initial).visited schedule,
      (s.sessions true).progress = .raised) :
    ¬ ∀ s ∈ (initSystem pgNaming sumOfCodes calls initial).visited schedule,
      Lawful pgNaming sumOfCodes calls initial s := by
  intro hlawful
  obtain ⟨s, hs, hraised⟩ := hrun
  exact (hlawful s hs).notRaised true hraised

/-- Where the schema is missing, the second CREATE SCHEMA fails; and where it
exists, the second CREATE INDEX does if the prefixes begin alike. -/
theorem not_lawful_alternating :
    (¬ ∀ s ∈ (initSystem pgNaming sumOfCodes twoPrefixes []).visited (overtaken 3 23),
      Lawful pgNaming sumOfCodes twoPrefixes [] s) ∧
    ¬ ∀ s ∈ (initSystem pgNaming sumOfCodes longPrefixes [.schema "jobs"]).visited
        (overtaken 13 13),
      Lawful pgNaming sumOfCodes longPrefixes [.schema "jobs"] s :=
  ⟨not_lawful_of_raised (by decide +kernel), not_lawful_of_raised (by decide +kernel)⟩

end SchemaInit

end DramatiqPostgres
