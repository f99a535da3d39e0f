import DramatiqPostgres.Lib.Table
import DramatiqPostgres.Pg.Notify
import DramatiqPostgres.Pg.Uuid

/-!
# The result table and its statements

The table `result` of `schema.sql`, and GET, STORE and PURGE_RESULTS.  Results
live apart from the queue, so that an acknowledged message can leave the queue
at once while its result stays until its deadline.

* GET reads the result of a message that has not expired.  It compares the
  deadline with the `NOW()` of its transaction, so an expired row that nobody
  has purged is as good as none.
* STORE upserts the row of the message, with a deadline `ttl` milliseconds after
  its `NOW()`, and rings the message's own channel.  The payload is the stored
  text, or the empty one where that text has 7900 bytes or more; a reader that
  is woken by an empty payload reads the table instead.
* PURGE_RESULTS deletes the rows whose deadline has passed, in the upkeep of
  every worker and in the command `purge`.

### Keys

`build_message_key` is `str(message.message_id)`, any text.  The statements cast
it to `uuid`, so two spellings of one id are one row, and a text that is no
`uuid` makes them fail.  STORE builds its channel from the *stored* id, that is
from its printed form, while `get_result` listens to a channel it builds from
its own spelling.  The two agree for ids in their printed form only, which is
what dramatiq generates.

### Why a STORE never fails for its notification

`pg_notify` refuses a payload of 8000 bytes or more and a channel name of 64
bytes or more, and a statement that it fails in stores nothing.  The bound of
7900 keeps the payload below the one limit, and the channel of a printed id has
53 bytes, whatever the id (`store_eq`).  The length is that of the stored
document as `jsonb` prints it, not of what the program sent, so it has to be
measured in the statement.
-/

namespace DramatiqPostgres

open Pg

/-- A row of the table `result`, whose primary key is the message id. -/
structure ResultRow where
  messageId : Uuid
  result : Json
  expiresAt : Option Time

/-- The table `result`.  `Table` carries the uniqueness of the key, so a message
has one result at most. -/
abbrev ResultTable := Table ResultRow ResultRow.messageId

/-- `expires_at IS NULL OR expires_at > now`, as GET has it.  STORE always
writes a deadline, but the column allows none, and such a row is never
deleted. -/
def ResultRow.isLive (now : Time) (r : ResultRow) : Bool := r.expiresAt.all fun t => now < t

/-- A result that is live at some time was so before.  This is how a read in an
older transaction, whose `NOW()` is behind the clock, is compared with one at
the clock. -/
theorem ResultRow.isLive_mono {now later : Time} {r : ResultRow} (h : r.isLive later = true)
    (hle : now ≤ later) : r.isLive now = true := by
  unfold isLive at *
  cases hr : r.expiresAt with
  | none => rfl
  | some t =>
      rw [hr, Option.all_some, decide_eq_true_eq] at h
      rw [Option.all_some, decide_eq_true_eq]
      exact hle.trans_lt h

/-- An expired result stays expired. -/
theorem ResultRow.isLive_eq_false_mono {now later : Time} {r : ResultRow}
    (h : r.isLive now = false) (hle : now ≤ later) : r.isLive later = false := by
  cases hlater : r.isLive later with
  | false => rfl
  | true => rw [ResultRow.isLive_mono hlater hle] at h; cases h

/-- The channel of a message's result, from any spelling of its id: `get_result`
listens to this name, and STORE rings it. -/
def resultsChannel (key : String) : String := "dramatiq." ++ key ++ ".results"

namespace ResultQueries

/-- `GET`.  A key that is no `uuid` is an error of the statement, and not a
missing result. -/
def get (now : Time) (key : String) (table : ResultTable) : Except PgError (Option Json) :=
  match Uuid.ofText? key with
  | none => .error .invalidUuid
  | some id => .ok (((table.find? id).filter (ResultRow.isLive now)).map ResultRow.result)

/-- What STORE sends: the stored text, or nothing where that is too long for a
payload. -/
def storePayload (stored : Json) : PgText :=
  if 7900 ≤ stored.octetLength then .empty else .json stored

/-- The upsert STORE makes, with `ttl` in milliseconds; the clock counts
microseconds.  A second STORE overwrites the result and gives it a new
deadline. -/
def storeUpsert (now : Time) (id : Uuid) (stored : Json) (ttl : ℤ) (table : ResultTable) :
    ResultTable :=
  table.upsert ⟨id, stored, some (now + 1000 * ttl)⟩
    (fun r => { r with result := stored, expiresAt := some (now + 1000 * ttl) }) fun _ => rfl

/-- `STORE`: the table it leaves and the notification it sends, which the server
delivers when the transaction commits.  A result with a character U+0000 in a
text is refused by `jsonb`, and nothing is stored. -/
def store (now : Time) (key : String) (result : Json) (ttl : ℤ) (table : ResultTable) :
    Except PgError (ResultTable × Notification) :=
  match Uuid.ofText? key, result.jsonb with
  | none, _ => .error .invalidUuid
  | some _, none => .error .untranslatable
  | some id, some stored =>
      (pgNotify (resultsChannel id.toText) (storePayload stored)).map fun n =>
        (storeUpsert now id stored ttl table, n)

/-- `PURGE_RESULTS`.  Its condition is the opposite of GET's, for rows that have
a deadline. -/
def purgeResults (now : Time) (table : ResultTable) : ResultTable :=
  table.deleteWhere fun r => r.expiresAt.any fun t => t ≤ now

theorem get_toText (now : Time) (id : Uuid) (table : ResultTable) :
    get now id.toText table
      = .ok (((table.find? id).filter (ResultRow.isLive now)).map ResultRow.result) := by
  rw [get, Uuid.ofText?_toText]

/-- The row of an id after STORE, whether there was one or not. -/
theorem find?_storeUpsert (now : Time) (id : Uuid) (stored : Json) (ttl : ℤ) (table : ResultTable) :
    (storeUpsert now id stored ttl table).find? id
      = some ⟨id, stored, some (now + 1000 * ttl)⟩ := by
  rw [storeUpsert, Table.find?_upsert, if_pos rfl]
  cases h : table.find? id with
  | none => rfl
  | some r =>
      have hkey : r.messageId = id := Table.key_of_find? h
      rw [Option.elim_some, ← hkey]

theorem find?_storeUpsert_of_ne {now : Time} {id other : Uuid} {stored : Json} {ttl : ℤ}
    {table : ResultTable} (h : id ≠ other) :
    (storeUpsert now other stored ttl table).find? id = table.find? id := by
  rw [storeUpsert, Table.find?_upsert, if_neg h]

/-- PURGE_RESULTS leaves a live result alone. -/
theorem find?_purgeResults (now : Time) (id : Uuid) (table : ResultTable) :
    (purgeResults now table).find? id = (table.find? id).filter (ResultRow.isLive now) := by
  rw [purgeResults, Table.find?_deleteWhere]
  cases table.find? id with
  | none => rfl
  | some r =>
      cases hr : r.expiresAt with
      | none => simp [Option.filter, ResultRow.isLive, hr]
      | some t =>
          by_cases ht : t ≤ now
          · simp [Option.filter, ResultRow.isLive, hr, ht]
          · simp [Option.filter, ResultRow.isLive, hr, not_le.mp ht]

theorem utf8ByteSize_resultsChannel (id : Uuid) :
    (resultsChannel id.toText).utf8ByteSize = 53 := by
  have hpre : ("dramatiq." : String).utf8ByteSize = 9 := by decide
  have hpost : (".results" : String).utf8ByteSize = 8 := by decide
  rw [resultsChannel, String.utf8ByteSize_append, String.utf8ByteSize_append, hpre, hpost,
    Uuid.utf8ByteSize_toText]

theorem octetLength_storePayload_lt (stored : Json) : (storePayload stored).octetLength < 8000 := by
  unfold storePayload
  split
  · exact Nat.zero_lt_succ _
  · next hsmall =>
      simp only [PgText.octetLength]
      omega

/-- **STORE never fails for its notification.**  With an id and a result that
`jsonb` takes, it stores and rings. -/
theorem store_eq {now : Time} {key : String} {result stored : Json} {ttl : ℤ} {table : ResultTable}
    {id : Uuid} (hkey : Uuid.ofText? key = some id) (hstored : result.jsonb = some stored) :
    store now key result ttl table
      = .ok (storeUpsert now id stored ttl table,
          ⟨resultsChannel id.toText, storePayload stored⟩) := by
  have hsize := utf8ByteSize_resultsChannel id
  have hne : resultsChannel id.toText ≠ "" := by
    intro hempty
    rw [hempty] at hsize
    cases hsize
  rw [store, hkey, hstored]
  simp only
  rw [pgNotify_ok hne (by omega) (octetLength_storePayload_lt stored)]
  rfl

/-- A STORE that succeeds was given an id and a storable result, and did what
`store_eq` says: this is how runs are inverted at a STORE. -/
theorem of_store_ok {now : Time} {key : String} {result : Json} {ttl : ℤ} {table : ResultTable}
    {p : ResultTable × Notification} (h : store now key result ttl table = .ok p) :
    ∃ id stored, Uuid.ofText? key = some id ∧ result.jsonb = some stored ∧
      p = (storeUpsert now id stored ttl table,
        ⟨resultsChannel id.toText, storePayload stored⟩) := by
  cases hkey : Uuid.ofText? key with
  | none => simp [store, hkey] at h
  | some id =>
      cases hstored : result.jsonb with
      | none => simp [store, hkey, hstored] at h
      | some stored =>
          rw [store_eq hkey hstored] at h
          exact ⟨id, stored, rfl, rfl, (Except.ok.inj h).symm⟩

/-- The channel of a message identifies it, so a session that listens to the
channel of one printed id hears of no other message. -/
theorem resultsChannel_injective {id other : Uuid}
    (h : resultsChannel id.toText = resultsChannel other.toText) : id = other := by
  have hlist := congrArg String.toList h
  simp only [resultsChannel, String.toList_append, List.append_cancel_right_eq,
    List.append_cancel_left_eq] at hlist
  exact Uuid.toText_injective (String.toList_inj.mp hlist)

end ResultQueries

end DramatiqPostgres
