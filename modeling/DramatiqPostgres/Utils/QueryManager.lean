import DramatiqPostgres.Pg.Statement
import Mathlib.Data.List.Induction
import Mathlib.Tactic.Cases

/-!
# The query tables of a process

Brokers and result backends do not own their queries.  `broker.QUERIES` and
`results.QUERIES` are two objects of the process, and every constructor rebuilds
their texts in place, with its own schema and prefix, unless it is given
neither: then `build_queries` returns at once and leaves the texts as they are,
whoever built them.

A broker or backend executes the texts that stand in the managers at that time.
What these texts address is read off them (`addressed`), and `addressesOwn_iff`
says when it is the tables that the constructor was asked for: what its managers
were built with last, before it and whenever a later constructor builds them
again, has to be its own location.

### From a text to the tables it names

The path has three stations, and the model has each as the program has it.

* `str.format` puts the quoted names into the format string (`format`).
* psycopg reads the result for placeholders when it is executed with parameters,
  and only then (`Psycopg.sent`): `%s`, `%b` and `%t` are parameters, `%%` is a
  percent sign, and anything else an error.
* The server reads the statement, with its quoted identifiers and strings
  (`qualifiedNames`).

So a percent sign in a schema is read by psycopg in most queries, and not in
those without parameters, and a schema that has one can reach other tables than
its own.  `Reaches` says which locations a text built for another one can reach.

### How the templates are handled

There are fourteen format strings, and no proof looks at one of them.  A format
string is readable (`isReadable`) if the tables can be read off its pieces, with
the lexer in its plain state between them, before and after psycopg; this is
decided once for each of them, and every lemma below is about any readable one.
The command line's queries in `Utils.TableNames` are handled in the same way.
-/

namespace DramatiqPostgres

namespace QueryTexts

open Pg

/-! ## Schema and prefix -/

/-- The tables of an installation. -/
inductive Table where
  | queue | worker | result
  deriving DecidableEq, Repr

/-- The name of a table, without prefix. -/
def Table.name : Table → String
  | .queue => "queue"
  | .worker => "worker"
  | .result => "result"

/-- Where the tables of a broker or a backend are: the two arguments that every
constructor takes. -/
@[ext] structure Location where
  schema : String
  tablePrefix : String
  deriving DecidableEq, Repr

/-- Schema `dramatiq`, no prefix. -/
def Location.default : Location := ⟨"dramatiq", ""⟩

/-- Schema and name of a table. -/
def Location.table (l : Location) (t : Table) : String × String :=
  (l.schema, l.tablePrefix ++ t.name)

/-- A schema or prefix that counts as given: neither `None` nor empty. -/
def truthy (s : Option String) : Bool := s.any (· ≠ "")

/-- Python's `s or default`, in which the empty text is replaced as well. -/
def orDefault (s : Option String) (default : String) : String :=
  match s with
  | some s => if s = "" then default else s
  | none => default

/-- The location that a schema and a prefix stand for, as `build_queries`
completes them. -/
def Location.of (schema tablePrefix : Option String) : Location :=
  ⟨orDefault schema "dramatiq", orDefault tablePrefix ""⟩

/-! ## Query texts -/

/-- `quote_ident`: the double quotes inside are doubled, and nothing else is
changed. -/
def quoteIdent (raw : String) : List Char := '"' :: (doubled raw.toList ++ ['"'])

/-- The replacement fields of the query texts, one for the schema and one for
each table. -/
inductive Field where
  | schema
  | table (t : Table)
  deriving DecidableEq, Repr

/-- The field of a name; `str.format` raises on another one. -/
def Field.ofName? (name : String) : Option Field :=
  if name = "schema" then some .schema
  else if name = "tablename" then some (.table .queue)
  else if name = "workertable" then some (.table .worker)
  else if name = "resulttable" then some (.table .result)
  else none

/-- The name that stands for a field. -/
def Location.fieldName (l : Location) : Field → String
  | .schema => l.schema
  | .table t => l.tablePrefix ++ t.name

/-- The value that `build_queries` passes for a field. -/
def Location.field (l : Location) (f : Field) : List Char := quoteIdent (l.fieldName f)

/-- A piece of a format string: text as it is, or a field to be replaced. -/
inductive Piece where
  | text (t : List Char)
  | field (f : Field)
  deriving DecidableEq, Repr

/-- A character of text in front of other pieces. -/
def textCons (c : Char) : List Piece → List Piece
  | .text t :: ps => .text (c :: t) :: ps
  | ps => .text [c] :: ps

/-- The pieces of a format string, outside of braces or after `name` inside.
`str.format` raises on a brace that is not closed. -/
def pieces : Option (List Char) → List Char → Option (List Piece)
  | none, [] => some []
  | some _, [] => none
  | none, c :: cs =>
      if c = '\x7b' then pieces (some []) cs else (pieces none cs).map (textCons c)
  | some name, c :: cs =>
      if c = '\x7d' then
        (Field.ofName? (String.ofList name)).bind fun f => (pieces none cs).map (.field f :: ·)
      else pieces (some (name ++ [c])) cs

/-- A format string with its fields replaced, piece by piece. -/
def render (value : Field → List Char) (ps : List Piece) : List Char :=
  ps.flatMap fun
    | .text t => t
    | .field f => value f

/-- `str.format`. -/
def format (template : String) (value : Field → List Char) : Option (List Char) :=
  (pieces none template.toList).map (render value)

/-- The queries of `broker.QUERIES`. -/
inductive BrokerQuery where
  | ack | claim | enqueue | enqueueQuiet | nack | requeue | heartbeat | maintenanceLock | reap
  | cleanWorkers | purgeResults | purge
  deriving DecidableEq, Repr

/-- Their format strings, as the source has them. -/
def BrokerQuery.template : BrokerQuery → String
  | .ack =>
        "WITH acked AS (
            DELETE FROM {schema}.{tablename}
            WHERE message_id = %s
                AND queue_name = %s
                AND \"state\" = 'consumed'
            RETURNING message
        )
        SELECT
            pg_notify(%s,
                CASE WHEN octet_length(message::text) >= 8000
                THEN jsonb_build_object('message_id', %s::text)::text
                ELSE message::text
                END
            )
        FROM acked;
        "
  | .claim =>
        "WITH next AS (
            SELECT message_id
            FROM {schema}.{tablename}
            WHERE queue_name = %s
                AND \"state\" = 'queued'
                AND available_at <= NOW()
            ORDER BY available_at, position
            LIMIT %s
            FOR UPDATE SKIP LOCKED
        )
        UPDATE {schema}.{tablename} AS q
            SET \"state\" = 'consumed',
                worker_id = %s,
                consumed_at = NOW(),
                mtime = NOW()
        FROM next
        WHERE q.message_id = next.message_id
        RETURNING q.message::text;
        "
  | .enqueue =>
        "WITH enqueued AS (
            INSERT INTO {schema}.{tablename}
            (queue_name, message_id, \"state\", message, available_at)
            VALUES (%s, %s, 'queued', %s,
                    NOW() + make_interval(secs => %s / 1000.0))
            ON CONFLICT (message_id)
                DO UPDATE SET
                    \"state\" = 'queued',
                    message = EXCLUDED.message,
                    queue_name = EXCLUDED.queue_name,
                    available_at = EXCLUDED.available_at,
                    worker_id = NULL,
                    consumed_at = NULL,
                    mtime = NOW()
            RETURNING queue_name
        )
        SELECT pg_notify('dramatiq.' || queue_name || '.enqueue', '')
        FROM enqueued;
        "
  | .enqueueQuiet =>
        "INSERT INTO {schema}.{tablename}
        (queue_name, message_id, \"state\", message, available_at)
        VALUES (%s, %s, 'queued', %s,
                NOW() + make_interval(secs => %s / 1000.0))
        ON CONFLICT (message_id)
            DO UPDATE SET
                \"state\" = 'queued',
                message = EXCLUDED.message,
                queue_name = EXCLUDED.queue_name,
                available_at = EXCLUDED.available_at,
                worker_id = NULL,
                consumed_at = NULL,
                mtime = NOW();
        "
  | .nack =>
        "WITH updated AS (
            UPDATE {schema}.{tablename}
                SET \"state\" = 'rejected', message = %s,
                    worker_id = NULL, mtime = NOW()
            WHERE message_id = %s
                AND queue_name = %s
                AND state <> 'rejected'
            RETURNING message
        )
        SELECT
            pg_notify(%s,
                CASE WHEN octet_length(message::text) >= 8000
                THEN jsonb_build_object('message_id', %s::text)::text
                ELSE message::text
                END
            )
        FROM updated;
        "
  | .requeue =>
        "UPDATE {schema}.{tablename}
            SET \"state\" = 'queued', worker_id = NULL,
                consumed_at = NULL, mtime = NOW()
        WHERE message_id = ANY(%s::uuid[]) AND \"state\" = 'consumed';
        "
  | .heartbeat =>
        "INSERT INTO {schema}.{workertable} (worker_id, heartbeat_at)
        VALUES (%s, NOW())
        ON CONFLICT (worker_id) DO UPDATE SET heartbeat_at = NOW();
        "
  | .maintenanceLock =>
        "SELECT pg_try_advisory_xact_lock(
            hashtext(%s), hashtext('dramatiq-postgres'));
        "
  | .reap =>
        "UPDATE {schema}.{tablename} AS q
            SET \"state\" = 'queued', worker_id = NULL,
                consumed_at = NULL, mtime = NOW()
        WHERE q.\"state\" = 'consumed'
            AND (q.worker_id IS NULL
                OR NOT EXISTS (
                    SELECT 1 FROM {schema}.{workertable} AS w
                    WHERE w.worker_id = q.worker_id
                        AND w.heartbeat_at >
                            NOW() - make_interval(secs => %s)));
        "
  | .cleanWorkers =>
        "DELETE FROM {schema}.{workertable}
        WHERE heartbeat_at < NOW() - make_interval(secs => %s);
        "
  | .purgeResults =>
        "DELETE FROM {schema}.{resulttable}
        WHERE expires_at IS NOT NULL AND expires_at <= NOW();
        "
  | .purge =>
        "DELETE FROM {schema}.{tablename}
        WHERE \"state\" = 'rejected'
        AND mtime <= (NOW() - %s::interval);
        "

/-- The queries of `results.QUERIES`. -/
inductive ResultsQuery where
  | get | store
  deriving DecidableEq, Repr

/-- Their format strings. -/
def ResultsQuery.template : ResultsQuery → String
  | .get =>
    "SELECT \"result\"
        FROM {schema}.{resulttable}
        WHERE message_id = %s
            AND (expires_at IS NULL OR expires_at > NOW());
    "
  | .store =>
    "WITH stored AS (
        INSERT INTO {schema}.{resulttable} (message_id, \"result\", expires_at)
            VALUES (%s, %s, NOW() + %s::interval)
        ON CONFLICT (message_id)
        DO UPDATE SET \"result\" = EXCLUDED.\"result\",
                      expires_at = EXCLUDED.expires_at
        RETURNING message_id, \"result\"
    )
    SELECT
        pg_notify('dramatiq.' || message_id || '.results',
            CASE WHEN octet_length(\"result\"::text) >= 7900
            THEN ''
            ELSE \"result\"::text
            END
        )
    FROM stored;
    "

/-! ## The query managers -/

/-- A `QueryManager`: its format strings, and the attributes that hold the texts
built last. -/
structure QueryManager (ν : Type) where
  queries : ν → String
  built : ν → Option (List Char)

/-- `build_queries`.  It returns at once where neither is given, and replaces
all texts otherwise. -/
def QueryManager.buildQueries {ν : Type} (m : QueryManager ν) (schema tablePrefix : Option String) :
    QueryManager ν :=
  if !(truthy schema || truthy tablePrefix) then m
  else
    { m with
      built := fun name => format (m.queries name) (Location.of schema tablePrefix).field }

/-- `QueryManager(queries)`, with the default arguments. -/
def QueryManager.new {ν : Type} (queries : ν → String) : QueryManager ν :=
  QueryManager.buildQueries ⟨queries, fun _ => none⟩ (some "dramatiq") (some "")

/-- The two managers of a process, which every broker and backend of it
shares. -/
structure Managers where
  broker : QueryManager BrokerQuery
  results : QueryManager ResultsQuery

/-- As the two modules are imported: both are built for the default location. -/
def Managers.init : Managers :=
  ⟨QueryManager.new BrokerQuery.template, QueryManager.new ResultsQuery.template⟩

/-- The arguments of `PostgresBroker(...)` that decide which statements it
executes where. -/
structure BrokerOptions where
  results : Bool := true
  schema : Option String := none
  tablePrefix : Option String := none
  notify : Bool := true
  purgeMaxage : Option String := some "30 days"
  deriving DecidableEq, Repr

/-- One construction of a broker or of a backend. -/
inductive Construction where
  | broker (o : BrokerOptions)
  | backend (schema tablePrefix : Option String)
  deriving DecidableEq, Repr

/-- What `PostgresBackend.__init__` does to the managers. -/
def Managers.backendInit (m : Managers) (schema tablePrefix : Option String) : Managers :=
  { m with results := m.results.buildQueries schema tablePrefix }

/-- What `PostgresBroker.__init__` does to the managers.  It makes a backend of
its own unless it is told not to, with the same schema and prefix. -/
def Managers.brokerInit (m : Managers) (o : BrokerOptions) : Managers :=
  let m := if o.results then m.backendInit o.schema o.tablePrefix else m
  { m with broker := m.broker.buildQueries o.schema o.tablePrefix }

/-- The managers after a construction. -/
def Managers.construct (m : Managers) : Construction → Managers
  | .broker o => m.brokerInit o
  | .backend schema tablePrefix => m.backendInit schema tablePrefix

/-- The managers after a sequence of constructions. -/
def Managers.after (cs : List Construction) : Managers := cs.foldl Managers.construct .init

/-! ## What is executed, and where -/

/-- A query of one of the two managers. -/
inductive Query where
  | broker (q : BrokerQuery)
  | results (q : ResultsQuery)
  deriving DecidableEq, Repr

/-- The modules that hold a `QUERIES`. -/
inductive Module where
  | broker | results
  deriving DecidableEq, Repr

namespace Query

/-- The module whose `QUERIES` has the query. -/
def module : Query → Module
  | .broker _ => .broker
  | .results _ => .results

/-- Its format string. -/
def template : Query → String
  | .broker q => q.template
  | .results q => q.template

/-- The number of parameters it is executed with; `PURGE_RESULTS` is executed
without. -/
def params : Query → Option ℕ
  | .broker .ack | .broker .enqueue | .broker .enqueueQuiet => some 4
  | .broker .claim | .results .store => some 3
  | .broker .nack => some 5
  | .broker .purgeResults => none
  | _ => some 1

/-- The tables it names, in the order of its text. -/
def tables : Query → List Table
  | .broker .claim => [.queue, .queue]
  | .broker .reap => [.queue, .worker]
  | .broker .heartbeat | .broker .cleanWorkers => [.worker]
  | .broker .maintenanceLock => []
  | .broker .purgeResults | .results .get | .results .store => [.result]
  | _ => [.queue]

end Query

/-- The text in a manager. -/
def Managers.text (m : Managers) : Query → Option (List Char)
  | .broker q => m.broker.built q
  | .results q => m.results.built q

/-- The tables that executing a query addresses now; nothing if it raises.  The
broker and the backend look the text up each time they execute it. -/
def addressed (m : Managers) (q : Query) : Option (List (String × String)) :=
  ((m.text q).bind (Psycopg.sent · q.params)).map qualifiedNames

/-- The tables that executing the text built from a format string addresses. -/
def addressedBy (template : String) (params : Option ℕ) (l : Location) :
    Option (List (String × String)) :=
  ((format template l.field).bind (Psycopg.sent · params)).map qualifiedNames

namespace Construction

/-- The location that is asked for. -/
def location : Construction → Location
  | .broker o => .of o.schema o.tablePrefix
  | .backend schema tablePrefix => .of schema tablePrefix

/-- A schema or a prefix is given. -/
def isNamed : Construction → Bool
  | .broker o => truthy o.schema || truthy o.tablePrefix
  | .backend schema tablePrefix => truthy schema || truthy tablePrefix

/-- The modules whose queries a broker, its consumers and its backend, or a
backend, use. -/
def modules : Construction → List Module
  | .broker o => if o.results then [.results, .broker] else [.broker]
  | .backend _ _ => [.results]

/-- The construction builds the queries of a module: it uses them, and it is
given a schema or a prefix. -/
def builds (c : Construction) (m : Module) : Bool := c.isNamed && c.modules.contains m

/-- The queries that are executed by a broker with these options, its consumers
and its backend, over their whole life. -/
def executes : Construction → List Query
  | .broker o =>
      [.broker .claim, .broker (if o.notify then .enqueue else .enqueueQuiet), .broker .ack,
        .broker .nack, .broker .requeue, .broker .heartbeat, .broker .maintenanceLock,
        .broker .reap, .broker .cleanWorkers, .broker .purgeResults] ++
      (if o.purgeMaxage.isSome then [.broker .purge] else []) ++
      (if o.results then [.results .get, .results .store] else [])
  | .backend _ _ => [.results .get, .results .store]

end Construction

/-! ## The law and its condition -/

/-- **Own tables**: after `before`, `c` and whatever prefix of `after`, every
query of `c` addresses exactly the tables of its schema and prefix.  The later
constructions come one by one, and `c` executes queries after each. -/
def AddressesOwn (before : List Construction) (c : Construction) (after : List Construction) :
    Prop :=
  ∀ later, later <+: after → ∀ q ∈ c.executes,
    addressed (Managers.after (before ++ c :: later)) q = some (q.tables.map c.location.table)

/-- The location a module's queries were last built with, the default one if
they never were.  Constructions without a schema and a prefix do not count,
since they build nothing. -/
def lastNamed (m : Module) (cs : List Construction) : Location :=
  ((cs.filter fun c => c.builds m).getLast?.map Construction.location).getD .default

/-- A location as psycopg passes it on in a query with parameters: every `%%` is
halved, and a location with a single percent sign is none. -/
def Location.halved (l : Location) : Option Location :=
  (Psycopg.halved l.schema.toList).bind fun schema =>
    (Psycopg.halved l.tablePrefix.toList).map fun tablePrefix =>
      ⟨String.ofList schema, String.ofList tablePrefix⟩

/-- Queries built with `l` reach the tables of `own`.  The broker's queries are
executed with and without parameters, so that its names cannot hold a percent
sign. -/
def Reaches (m : Module) (l own : Location) : Prop :=
  l.halved = some own ∧ (m = .broker → l = own)

/-- **The condition**: what was given last to the constructors up to `c`, and
what is given to the later ones that build the same queries, is the location of
`c`, up to what psycopg makes of percent signs.  It speaks of the arguments of
constructors only. -/
structure Undisturbed (before : List Construction) (c : Construction)
    (after : List Construction) : Prop where
  own : ∀ m ∈ c.modules, Reaches m (lastNamed m (before ++ [c])) c.location
  later : ∀ m ∈ c.modules, ∀ d ∈ after, d.builds m → Reaches m d.location c.location

/-! ## Reading a query text -/

/-- The tables that the pieces of a query name, if the lexer can read them piece
by piece. -/
def tablesOf : List Piece → Option (List Table)
  | [] => some []
  | .field .schema :: .text ['.'] :: .field (.table t) :: .text (c :: cs) :: ps =>
      if c ≠ '"' ∧ scan .plain (c :: cs) = (.plain, []) then (tablesOf ps).map (t :: ·) else none
  | .text t :: ps => if scan .plain t = (.plain, []) then tablesOf ps else none
  | _ => none

/-- The pieces after psycopg read their texts, and the number of
placeholders. -/
def placeholdersOf : List Piece → Option (List Piece × ℕ)
  | [] => some ([], 0)
  | .field f :: ps => (placeholdersOf ps).map fun p => (.field f :: p.1, p.2)
  | .text t :: ps =>
      if t.getLast? = some '%' then none
      else
        (Psycopg.placeholders t).bind fun p =>
          (placeholdersOf ps).map fun q => (.text p.1 :: q.1, p.2 + q.2)

/-- The lexer reads the tables back, wherever they are, and is in its plain
state again. -/
theorem scan_render (l : Location) {ps : List Piece} {ts : List Table} (h : tablesOf ps = some ts) :
    scan .plain (render l.field ps) = (.plain, ts.map l.table) := by
  fun_induction tablesOf ps generalizing ts with
  | case1 =>
      obtain rfl : [] = ts := by simpa using h
      rfl
  | case2 t c cs ps hc ih =>
      rw [Option.map_eq_some_iff] at h
      obtain ⟨ts, hts, rfl⟩ := h
      have hrender : render l.field
          (.field .schema :: .text ['.'] :: .field (.table t) :: .text (c :: cs) :: ps) =
            '"' :: doubled l.schema.toList ++ '"' :: '.' :: '"' ::
              doubled (l.tablePrefix ++ t.name).toList ++
                '"' :: c :: (cs ++ render l.field ps) := by
        simp [render, Location.field, Location.fieldName, quoteIdent]
      rw [hrender, scan_qualified _ _ hc.1, ← List.cons_append, scan_plain_append hc.2, ih hts]
      simp [Location.table]
  | case3 => simp at h
  | case4 t ps ht ih =>
      show scan .plain (t ++ render l.field ps) = _
      rw [scan_plain_append ht, ih h]
  | case5 => simp at h
  | case6 => simp at h

theorem qualifiedNames_render (l : Location) {ps : List Piece} {ts : List Table}
    (h : tablesOf ps = some ts) : qualifiedNames (render l.field ps) = ts.map l.table := by
  rw [qualifiedNames, scan_render l h]
  simp [Lexing.finish]

/-- What is named is in a field of the query. -/
theorem mem_of_tablesOf {ps : List Piece} {ts : List Table} (h : tablesOf ps = some ts) {t : Table}
    (ht : t ∈ ts) : Piece.field .schema ∈ ps ∧ Piece.field (.table t) ∈ ps := by
  fun_induction tablesOf ps generalizing ts with
  | case1 =>
      obtain rfl : [] = ts := by simpa using h
      simp at ht
  | case2 u c cs ps hc ih =>
      rw [Option.map_eq_some_iff] at h
      obtain ⟨ts, hts, rfl⟩ := h
      rcases List.mem_cons.mp ht with rfl | ht
      · simp
      · have := ih hts ht
        simp [this]
  | case3 => simp at h
  | case4 u ps hu ih =>
      have := ih h ht
      simp [this]
  | case5 => simp at h
  | case6 => simp at h

/-! ## What psycopg makes of it -/

theorem halved_fieldName {l half : Location} (h : l.halved = some half) (f : Field) :
    Psycopg.halved (l.fieldName f).toList = some (half.fieldName f).toList := by
  simp only [Location.halved, Option.bind_eq_some_iff, Option.map_eq_some_iff] at h
  obtain ⟨schema, hschema, tablePrefix, hhalf, rfl⟩ := h
  cases f with
  | schema => simpa [Location.fieldName] using hschema
  | table t =>
      have ht : '%' ∉ t.name.toList := by cases t <;> decide
      rw [Location.fieldName, String.toList_append, Psycopg.halved_append _ ht, hhalf]
      simp [Location.fieldName]

/-- Names whose percent signs are all doubled make a location. -/
theorem exists_halved {l : Location} {t : Table}
    (hschema : Psycopg.halved (l.fieldName .schema).toList ≠ none)
    (htable : Psycopg.halved (l.fieldName (.table t)).toList ≠ none) :
    ∃ half, l.halved = some half := by
  have ht : '%' ∉ t.name.toList := by cases t <;> decide
  rw [Location.fieldName, String.toList_append, Psycopg.halved_append _ ht, ne_eq,
    Option.map_eq_none_iff] at htable
  obtain ⟨schema, hschema⟩ := Option.ne_none_iff_exists'.mp hschema
  obtain ⟨tablePrefix, hhalf⟩ := Option.ne_none_iff_exists'.mp htable
  refine ⟨⟨String.ofList schema, String.ofList tablePrefix⟩, ?_⟩
  rw [Location.halved, show Psycopg.halved l.schema.toList = some schema from hschema, hhalf]
  rfl

theorem render_field_cons (l : Location) (f : Field) (ps : List Piece) :
    render l.field (.field f :: ps) =
      '"' :: (doubled (l.fieldName f).toList ++ '"' :: render l.field ps) := by
  simp [render, Location.field, quoteIdent]

theorem render_text_cons (l : Location) (t : List Char) (ps : List Piece) :
    render l.field (.text t :: ps) = t ++ render l.field ps := rfl

/-- A query for names whose percent signs are doubled is sent as the query for
the halved names. -/
theorem placeholders_render {l half : Location} (hl : l.halved = some half) {ps qs : List Piece}
    {n : ℕ} (h : placeholdersOf ps = some (qs, n)) :
    Psycopg.placeholders (render l.field ps) = some (render half.field qs, n) := by
  fun_induction placeholdersOf ps generalizing qs n with
  | case1 =>
      obtain ⟨rfl, rfl⟩ : [] = qs ∧ 0 = n := by simpa using h
      rfl
  | case2 f ps ih =>
      simp only [Option.map_eq_some_iff, Prod.mk.injEq] at h
      obtain ⟨p, hp, rfl, rfl⟩ := h
      rw [render_field_cons, Psycopg.placeholders_cons (by decide),
        Psycopg.placeholders_doubled (halved_fieldName hl f), ih hp, render_field_cons]
      rfl
  | case3 => simp at h
  | case4 t ps ht ih =>
      simp only [Option.bind_eq_some_iff, Option.map_eq_some_iff, Prod.mk.injEq] at h
      obtain ⟨p, hp, q, hq, rfl, rfl⟩ := h
      rw [render_text_cons, Psycopg.placeholders_append ht, hp, ih hq]
      rfl

/-- A query that psycopg reads has at least its own placeholders, and more of
them if a name has a percent sign that is not doubled. -/
theorem le_of_placeholders_render {l : Location} {ps qs : List Piece} {n : ℕ}
    (h : placeholdersOf ps = some (qs, n)) {p : List Char × ℕ}
    (hp : Psycopg.placeholders (render l.field ps) = some p) :
    n ≤ p.2 ∧ ∀ f, Piece.field f ∈ ps → Psycopg.halved (l.fieldName f).toList = none → n < p.2 := by
  fun_induction placeholdersOf ps generalizing qs n p with
  | case1 =>
      obtain ⟨-, rfl⟩ : [] = qs ∧ 0 = n := by simpa using h
      simp
  | case2 f ps ih =>
      simp only [Option.map_eq_some_iff, Prod.mk.injEq] at h
      obtain ⟨r, hr, rfl, rfl⟩ := h
      rw [render_field_cons, Psycopg.placeholders_cons (by decide), Option.map_eq_some_iff] at hp
      obtain ⟨p, hp, rfl⟩ := hp
      obtain ⟨q, hq, hle, hlt⟩ := Psycopg.of_placeholders_doubled hp
      obtain ⟨hnq, hall⟩ := ih hr hq
      refine ⟨Nat.le_trans hnq hle, fun g hg hnone => ?_⟩
      rcases List.mem_cons.mp hg with hfg | hg
      · obtain rfl : g = f := by simpa using hfg
        exact Nat.lt_of_le_of_lt hnq (hlt hnone)
      · exact Nat.lt_of_lt_of_le (hall g hg hnone) hle
  | case3 => simp at h
  | case4 t ps ht ih =>
      simp only [Option.bind_eq_some_iff, Option.map_eq_some_iff, Prod.mk.injEq] at h
      obtain ⟨r, hr, q, hq, rfl, rfl⟩ := h
      rw [render_text_cons, Psycopg.placeholders_append ht, hr, Option.bind_some,
        Option.map_eq_some_iff] at hp
      obtain ⟨p, hp, rfl⟩ := hp
      obtain ⟨hnq, hall⟩ := ih hq hp
      refine ⟨Nat.add_le_add_left hnq _, fun g hg hnone => ?_⟩
      have hg : Piece.field g ∈ ps := by simpa using hg
      exact Nat.add_lt_add_left (hall g hg hnone) _

/-- A format string that can be read piece by piece: the tables `ts` can be read
off it before and after psycopg, and its placeholders are as many as the
parameters. -/
def isReadable (ts : List Table) (params : Option ℕ) (template : List Char) : Bool :=
  (pieces none template).any fun ps =>
    tablesOf ps = some ts &&
      params.all fun n => (placeholdersOf ps).any fun p => p.2 = n && tablesOf p.1 = some ts

theorem isReadable_of_eq {s : String} {cs : List Char} {ts : List Table} {params : Option ℕ}
    (hs : s = String.ofList cs) (h : isReadable ts params cs = true) :
    isReadable ts params s.toList = true := by
  rw [hs, String.toList_ofList]
  exact h

set_option maxRecDepth 20000 in
theorem isReadable_template (q : Query) :
    isReadable q.tables q.params q.template.toList = true := by
  -- the characters of a literal come from `rfl`: evaluating `toList` decodes it byte by byte
  cases q with
  | broker q => cases q <;> exact isReadable_of_eq rfl (by decide +kernel)
  | results q => cases q <;> exact isReadable_of_eq rfl (by decide +kernel)

/-- The pieces of a format string that can be read, before and after psycopg. -/
theorem exists_pieces {template : String} {ts : List Table} {params : Option ℕ}
    (h : isReadable ts params template.toList = true) :
    ∃ ps, pieces none template.toList = some ps ∧ tablesOf ps = some ts ∧
      ∀ n, params = some n →
        ∃ qs, placeholdersOf ps = some (qs, n) ∧ tablesOf qs = some ts := by
  rw [isReadable, Option.any_eq_true] at h
  obtain ⟨ps, hps, h⟩ := h
  rw [Bool.and_eq_true, decide_eq_true_eq, Option.all_eq_true] at h
  refine ⟨ps, hps, h.1, fun n hn => ?_⟩
  have hread := h.2 n hn
  simp only [Option.any_eq_true, Bool.and_eq_true, decide_eq_true_eq] at hread
  obtain ⟨⟨qs, k⟩, hqs, rfl, htables⟩ := hread
  exact ⟨qs, hqs, htables⟩

/-! ## What a text addresses -/

/-- Addressing one table of a location, in a schema, is being there. -/
theorem eq_of_table {l own : Location} {t : Table} (h : l.table t = own.table t) : l = own := by
  simp only [Location.table, Prod.mk.injEq, String.append_left_inj] at h
  exact Location.ext h.1 h.2

/-- Without parameters, a text addresses the tables it was built for. -/
theorem addressedBy_none {template : String} {ts : List Table}
    (h : isReadable ts none template.toList = true) (l : Location) :
    addressedBy template none l = some (ts.map l.table) := by
  obtain ⟨ps, hps, htables, -⟩ := exists_pieces h
  rw [addressedBy, format, hps, Option.map_some, Option.bind_some, Psycopg.sent, Option.map_some,
    qualifiedNames_render l htables]

/-- With parameters, it addresses those that psycopg makes of its names. -/
theorem addressedBy_of_halved {template : String} {ts : List Table} {n : ℕ}
    (h : isReadable ts (some n) template.toList = true) {l own : Location}
    (hl : l.halved = some own) : addressedBy template (some n) l = some (ts.map own.table) := by
  obtain ⟨ps, hps, -, hparams⟩ := exists_pieces h
  obtain ⟨qs, hqs, hread⟩ := hparams n rfl
  rw [addressedBy, format, hps, Option.map_some, Option.bind_some, Psycopg.sent,
    placeholders_render hl hqs, Option.bind_some, if_pos rfl, Option.map_some,
    qualifiedNames_render own hread]

/-- And it addresses no others: the table a text addresses determines its
location. -/
theorem halved_of_addressedBy {template : String} {ts : List Table} {n : ℕ}
    (h : isReadable ts (some n) template.toList = true) {l own : Location} {t : Table}
    (ht : t ∈ ts) (haddr : addressedBy template (some n) l = some (ts.map own.table)) :
    l.halved = some own := by
  obtain ⟨ps, hps, htables, hparams⟩ := exists_pieces h
  obtain ⟨qs, hqs, hread⟩ := hparams n rfl
  obtain ⟨hschema, htable⟩ := mem_of_tablesOf htables ht
  rw [addressedBy, format, hps, Option.map_some, Option.bind_some, Psycopg.sent,
    Option.map_eq_some_iff] at haddr
  obtain ⟨text, hsent, hnames⟩ := haddr
  rw [Option.bind_eq_some_iff] at hsent
  obtain ⟨p, hp, hif⟩ := hsent
  obtain ⟨hcount, rfl⟩ : p.2 = n ∧ p.1 = text := by simpa using hif
  -- the count leaves no room for a percent sign in a name
  have hdoubled : ∀ f, Piece.field f ∈ ps → Psycopg.halved (l.fieldName f).toList ≠ none :=
    fun f hf hnone => absurd ((le_of_placeholders_render hqs hp).2 f hf hnone) (by omega)
  obtain ⟨half, hhalf⟩ := exists_halved (hdoubled _ hschema) (hdoubled _ htable)
  rw [placeholders_render hhalf hqs, Option.some_inj] at hp
  rw [← hp, qualifiedNames_render half hread] at hnames
  rw [hhalf, eq_of_table (List.map_inj_left.mp hnames t ht)]

/-! ## The managers after any sequence of constructions -/

/-- The manager's texts are those for a location: the invariant of a sequence of
constructions. -/
structure QueryManager.Holds {ν : Type} (m : QueryManager ν) (templates : ν → String)
    (l : Location) : Prop where
  queries : m.queries = templates
  built : ∀ name, m.built name = format (templates name) l.field

theorem QueryManager.Holds.buildQueries {ν : Type} {m : QueryManager ν} {templates : ν → String}
    {l : Location} (h : m.Holds templates l) (schema tablePrefix : Option String) :
    (m.buildQueries schema tablePrefix).Holds templates
      (if truthy schema || truthy tablePrefix then .of schema tablePrefix else l) := by
  rw [QueryManager.buildQueries]
  by_cases hnamed : (truthy schema || truthy tablePrefix) = true
  · rw [hnamed]
    exact ⟨h.queries, fun name => by rw [← h.queries]; rfl⟩
  · rw [Bool.not_eq_true] at hnamed
    rw [hnamed]
    exact h

theorem QueryManager.holds_new {ν : Type} (templates : ν → String) :
    (QueryManager.new templates).Holds templates .default :=
  ⟨rfl, fun _ => rfl⟩

/-- One more construction is the last one that builds the queries of a module,
if it does. -/
theorem lastNamed_concat (m : Module) (cs : List Construction) (c : Construction) :
    lastNamed m (cs ++ [c]) = if c.builds m then c.location else lastNamed m cs := by
  rw [lastNamed, List.filter_append, List.filter_singleton]
  by_cases h : c.builds m = true
  · rw [if_pos h, h, cond_true, List.getLast?_concat]
    rfl
  · rw [if_neg h, Bool.eq_false_iff.mpr h, cond_false, List.append_nil]
    rfl

/-- Both managers hold the texts for the location that was named last.  By
induction on the sequence, from its end. -/
theorem holds_after (cs : List Construction) :
    (Managers.after cs).broker.Holds BrokerQuery.template (lastNamed .broker cs) ∧
      (Managers.after cs).results.Holds ResultsQuery.template (lastNamed .results cs) := by
  induction cs using List.reverseRecOn with
  | nil => exact ⟨QueryManager.holds_new _, QueryManager.holds_new _⟩
  | append_singleton cs c ih =>
      rw [lastNamed_concat, lastNamed_concat, Managers.after, List.foldl_concat, ← Managers.after]
      cases c with
      | broker o =>
          have hbroker := ih.1.buildQueries o.schema o.tablePrefix
          have hresults := ih.2.buildQueries o.schema o.tablePrefix
          by_cases ho : o.results = true
          · have h := And.intro hbroker hresults
            simpa [Managers.construct, Managers.brokerInit, Managers.backendInit, ho,
              Construction.builds, Construction.modules, Construction.isNamed,
              Construction.location] using h
          · have h := And.intro hbroker ih.2
            simpa [Managers.construct, Managers.brokerInit, ho, Construction.builds,
              Construction.modules, Construction.isNamed, Construction.location] using h
      | backend schema tablePrefix =>
          have h := And.intro ih.1 (ih.2.buildQueries schema tablePrefix)
          simpa [Managers.construct, Managers.backendInit, Construction.builds,
            Construction.modules, Construction.isNamed, Construction.location] using h

theorem text_after (cs : List Construction) (q : Query) :
    (Managers.after cs).text q = format q.template (lastNamed q.module cs).field := by
  cases q with
  | broker q => exact (holds_after cs).1.built q
  | results q => exact (holds_after cs).2.built q

/-! ## What the queries of a construction address -/

theorem addressed_after (cs : List Construction) (q : Query) :
    addressed (Managers.after cs) q
      = addressedBy q.template q.params (lastNamed q.module cs) := by
  rw [addressed, text_after, addressedBy]

/-- Only queries of the broker are executed without parameters. -/
theorem module_of_params_eq_none {q : Query} (h : q.params = none) : q.module = .broker := by
  cases q with
  | broker q => rfl
  | results q => cases q <;> cases h

/-- A query built for names that psycopg passes on as those of `own` addresses
its tables. -/
theorem addressed_of_reaches {cs : List Construction} {q : Query} {own : Location}
    (h : Reaches q.module (lastNamed q.module cs) own) :
    addressed (Managers.after cs) q = some (q.tables.map own.table) := by
  have hread := isReadable_template q
  rw [addressed_after]
  cases hn : q.params with
  | none =>
      rw [hn] at hread
      rw [addressedBy_none hread, h.2 (module_of_params_eq_none hn)]
  | some n =>
      rw [hn] at hread
      exact addressedBy_of_halved hread h.1

theorem halved_of_addressed {cs : List Construction} {q : Query} {own : Location} {t : Table}
    {n : ℕ} (ht : t ∈ q.tables) (hn : q.params = some n)
    (h : addressed (Managers.after cs) q = some (q.tables.map own.table)) :
    (lastNamed q.module cs).halved = some own := by
  have hread := isReadable_template q
  rw [hn] at hread
  rw [addressed_after, hn] at h
  exact halved_of_addressedBy hread ht h

theorem eq_of_addressed {cs : List Construction} {q : Query} {own : Location} {t : Table}
    (ht : t ∈ q.tables) (hn : q.params = none)
    (h : addressed (Managers.after cs) q = some (q.tables.map own.table)) :
    lastNamed q.module cs = own := by
  have hread := isReadable_template q
  rw [hn] at hread
  rw [addressed_after, hn, addressedBy_none hread, Option.some_inj] at h
  exact eq_of_table (List.map_inj_left.mp h t ht)

/-- Only queries of the modules that are used are executed. -/
theorem module_of_mem_executes {c : Construction} {q : Query} (h : q ∈ c.executes) :
    q.module ∈ c.modules := by
  have hall : ∀ q ∈ c.executes, q.module ∈ c.modules := by
    cases c with
    | broker o =>
        obtain ⟨results, schema, tablePrefix, notify, purgeMaxage⟩ := o
        cases results <;> cases purgeMaxage <;>
          simp [Construction.executes, Construction.modules, Query.module]
    | backend schema tablePrefix =>
        simp [Construction.executes, Construction.modules, Query.module]
  exact hall q h

/-- Of every module that is used, a query is executed that has parameters and
names a table. -/
theorem exists_mem_executes {c : Construction} {m : Module} (h : m ∈ c.modules) :
    ∃ q ∈ c.executes, q.module = m ∧ (∃ n, q.params = some n) ∧ ∃ t, t ∈ q.tables := by
  cases c with
  | broker o =>
      by_cases ho : o.results = true
      · cases m with
        | broker =>
            refine ⟨.broker .claim, ?_, rfl, ⟨3, rfl⟩, .queue, List.mem_cons_self⟩
            simp [Construction.executes]
        | results =>
            refine ⟨.results .get, ?_, rfl, ⟨1, rfl⟩, .result, List.mem_cons_self⟩
            simp [Construction.executes, ho]
      · obtain rfl : m = .broker := by simpa [Construction.modules, ho] using h
        refine ⟨.broker .claim, ?_, rfl, ⟨3, rfl⟩, .queue, List.mem_cons_self⟩
        simp [Construction.executes]
  | backend schema tablePrefix =>
      obtain rfl : m = .results := by simpa [Construction.modules] using h
      refine ⟨.results .get, ?_, rfl, ⟨1, rfl⟩, .result, List.mem_cons_self⟩
      simp [Construction.executes]

/-- A broker executes `PURGE_RESULTS`. -/
theorem purgeResults_mem_executes {c : Construction} (h : Module.broker ∈ c.modules) :
    Query.broker .purgeResults ∈ c.executes := by
  cases c with
  | broker o => simp [Construction.executes]
  | backend schema tablePrefix => simp [Construction.modules] at h

/-- All queries of `c` address its tables exactly if the texts of its modules
reach them. -/
theorem addressed_iff {cs : List Construction} {c : Construction} :
    (∀ q ∈ c.executes, addressed (Managers.after cs) q = some (q.tables.map c.location.table)) ↔
      ∀ m ∈ c.modules, Reaches m (lastNamed m cs) c.location := by
  constructor
  · intro h m hm
    refine ⟨?_, ?_⟩
    · obtain ⟨q, hq, rfl, ⟨n, hn⟩, t, ht⟩ := exists_mem_executes hm
      exact halved_of_addressed ht hn (h q hq)
    · rintro rfl
      have hq := purgeResults_mem_executes hm
      exact eq_of_addressed (t := .result) List.mem_cons_self rfl (h _ hq)
  · intro h q hq
    exact addressed_of_reaches (h q.module (module_of_mem_executes hq))

/-! ## The theorem -/

/-- What was named last is named by a later construction, or else before. -/
theorem lastNamed_append (m : Module) (cs ds : List Construction) :
    lastNamed m (cs ++ ds) = lastNamed m cs ∨
      ∃ d ∈ ds, d.builds m ∧ lastNamed m (cs ++ ds) = d.location := by
  induction ds using List.reverseRecOn with
  | nil => rw [List.append_nil]; exact Or.inl rfl
  | append_singleton ds d ih =>
      rw [← List.append_assoc, lastNamed_concat]
      by_cases h : d.builds m = true
      · rw [if_pos h]
        exact Or.inr ⟨d, by simp, h, rfl⟩
      · rw [if_neg h]
        rcases ih with ih | ⟨e, he, hbuilds, ih⟩
        · exact Or.inl ih
        · exact Or.inr ⟨e, by simp [he], hbuilds, ih⟩

/-- **Own tables, exactly**: a broker or backend addresses the tables it was
constructed for as long as it lives, if and only if what its query managers were
last built with when it was constructed, and whatever they are built with
afterwards, is its own location. -/
theorem addressesOwn_iff (before : List Construction) (c : Construction)
    (after : List Construction) : AddressesOwn before c after ↔ Undisturbed before c after := by
  have hlater (later : List Construction) :
      before ++ c :: later = before ++ [c] ++ later := by simp
  constructor
  · intro h
    refine ⟨?_, ?_⟩
    · exact addressed_iff.mp (h [] ⟨after, rfl⟩)
    · intro m hm d hd hbuilds
      -- the state right after `d`
      obtain ⟨early, late, rfl⟩ := List.append_of_mem hd
      have hearly : early ++ [d] <+: early ++ d :: late := ⟨late, by simp⟩
      have hreach := addressed_iff.mp (h _ hearly) m hm
      rw [hlater, ← List.append_assoc, lastNamed_concat, if_pos hbuilds] at hreach
      exact hreach
  · intro h later hearly
    refine addressed_iff.mpr fun m hm => ?_
    rw [hlater]
    rcases lastNamed_append m (before ++ [c]) later with heq | ⟨d, hd, hbuilds, heq⟩
    · rw [heq]
      exact h.own m hm
    · rw [heq]
      exact h.later m hm d (hearly.subset hd) hbuilds

/-- A broker on the default schema, and a second one on its own: the messages of
the first one go to the tables of the second one from then on. -/
theorem not_addressesOwn_secondBroker :
    ¬ AddressesOwn [] (.broker {}) [.broker { schema := some "custom" }] := by
  intro h
  have hreach := addressed_iff.mp (h _ (List.prefix_refl _)) .broker (by decide)
  exact absurd hreach.1 (by decide +kernel)

end QueryTexts

end DramatiqPostgres
