import DramatiqPostgres.Lib.Expiring
import DramatiqPostgres.Lib.Runs
import DramatiqPostgres.Results.Store

/-!
# The result table is a register with expiry

STORE overwrites the result of its message and gives it a new deadline, GET
ignores what is past its deadline, and PURGE_RESULTS, in the upkeep of every
worker and in the command `purge`, deletes it.  Seen through GET, that is a map
from message ids to results, each with a deadline, in which nothing is ever
deleted: a read finds what the last STORE of its message stored, for as long as
that has not expired, and every spelling of an id reads the same entry.

The map is `Expiring` of `Lib.Expiring`, and the specification is its whole
history: `register s` is the map of all STOREs that have committed, oldest
first.  The table is a smaller thing, since purges take rows out of it.  The
proof is that the difference cannot be seen: the table is that map but for
entries that have expired (`Expiring.Forgets`), which every step keeps.

### Two clocks

`registerSystem` runs any STOREs and any PURGE_RESULTS in any order.  The
`NOW()` of a statement is the start of its transaction, which the server's clock
may have left behind, and nothing orders the `NOW()` of two sessions.  So a
result may be stored with less time to live than it asked for, or with none, and
a purge may leave a result that has expired.  It cannot delete one that has not,
because its `NOW()` is never ahead of the clock; that is the one thing the proof
needs of it.

The same lag shows in the law.  A read that runs at the clock, as GET does on a
connection in autocommit mode, is exactly the read of the map.  The second GET
of a blocking read runs in a transaction that may have begun earlier: what it
finds was live when it began, and what it misses has expired by now.  It may
miss what was live when it began, where a purge has come in between.
-/

namespace DramatiqPostgres

namespace Register

open Pg

/-- A STORE that committed: its message, the result as the column keeps it, and
its deadline. -/
abbrev Put := Uuid × Json × Option Time

/-- The result table, the clock, and the STOREs that have committed, oldest
first.  No statement reads the last of them; they are the specification's
state. -/
structure State where
  clock : Time
  table : ResultTable
  /-- History. -/
  stores : List Put

/-- One step of the clock or of a session.  Reads change nothing and are no
steps: the law speaks of any read at any state. -/
inductive Action where
  | tick (elapsed : ℕ)
  | store (now : Time) (key : String) (result : Json) (ttl : ℤ)
  | purgeResults (now : Time)

/-- What a STORE puts into the map; nothing, where the statement raises. -/
def put? (now : Time) (key : String) (result : Json) (ttl : ℤ) : Option Put :=
  match Uuid.ofText? key, result.jsonb with
  | some id, some stored => some (id, stored, some (now + 1000 * ttl))
  | _, _ => none

namespace State

/-- The state after an action; a statement that raises leaves no trace.  The
guards say that no `NOW()` is ahead of the clock. -/
def step (s : State) : Action → Option State
  | .tick elapsed => some { s with clock := s.clock + elapsed }
  | .store now key result ttl =>
      if now ≤ s.clock then
        match ResultQueries.store now key result ttl s.table with
        | .ok (table, _) =>
            some { s with table := table, stores := s.stores ++ (put? now key result ttl).toList }
        | .error _ => none
      else none
  | .purgeResults now =>
      if now ≤ s.clock then some { s with table := ResultQueries.purgeResults now s.table }
      else none

/-- The map of all STOREs: for each message the one that committed last, and
never less for a purge. -/
def register (s : State) : Expiring Uuid Json Time := Expiring.ofPuts s.stores

end State

/-- A result table that has just been created, at any time on the clock. -/
def registerSystem (clock : Time) : StepSystem State Action :=
  ⟨⟨clock, Table.empty, []⟩, State.step⟩

/-- What the table says of a message, as the map has it: the result and its
deadline. -/
def entry (r : ResultRow) : Json × Option Time := (r.result, r.expiresAt)

/-- The table as a map.  The abstraction forgets the order of the rows, which no
statement looks at. -/
def entries (table : ResultTable) : Expiring Uuid Json Time := fun id => (table.find? id).map entry

/-- The law of a state: its reads are those of the map of all STOREs, exactly at
the clock, and up to expiry in an older transaction. -/
structure ReadsLast (s : State) : Prop where
  /-- A read at the server's clock, under any spelling of the id. -/
  now : ∀ key id, Uuid.ofText? key = some id →
    ResultQueries.get s.clock key s.table = .ok (s.register.lookup s.clock id)
  /-- What a read in an older transaction finds was live when that transaction
  began. -/
  found : ∀ now key id doc, Uuid.ofText? key = some id →
    ResultQueries.get now key s.table = .ok (some doc) → s.register.lookup now id = some doc
  /-- What it misses has expired. -/
  missing : ∀ now key id, now ≤ s.clock → Uuid.ofText? key = some id →
    ResultQueries.get now key s.table = .ok none → s.register.lookup s.clock id = none
  /-- PURGE_RESULTS leaves what can be read, and nothing else. -/
  purged : entries (ResultQueries.purgeResults s.clock s.table) = s.register.sweep s.clock

/-! ## The statements as operations of the map -/

theorem get_eq {now : Time} {key : String} {id : Uuid} {table : ResultTable}
    (hkey : Uuid.ofText? key = some id) :
    ResultQueries.get now key table = .ok ((entries table).lookup now id) := by
  rw [ResultQueries.get, hkey]
  simp only [entries, Expiring.lookup, Option.filter_map, Option.map_map]
  rfl

theorem entries_purgeResults (now : Time) (table : ResultTable) :
    entries (ResultQueries.purgeResults now table) = (entries table).sweep now := by
  funext id
  rw [entries, ResultQueries.find?_purgeResults, Expiring.sweep, entries, Option.filter_map]
  rfl

theorem entries_storeUpsert (now : Time) (id : Uuid) (stored : Json) (ttl : ℤ)
    (table : ResultTable) :
    entries (ResultQueries.storeUpsert now id stored ttl table)
      = (entries table).put id (stored, some (now + 1000 * ttl)) := by
  funext other
  by_cases h : other = id
  · subst h
    rw [entries, ResultQueries.find?_storeUpsert, Expiring.put_self]
    rfl
  · rw [Expiring.put_of_ne h, entries, ResultQueries.find?_storeUpsert_of_ne h]
    rfl

/-! ## The invariant -/

/-- The table is the map of all STOREs, but for entries that have expired.
Nothing else is needed: that the deadline in a row is the one its STORE wrote is
part of the map's entry. -/
def Ok (s : State) : Prop := Expiring.Forgets s.clock (entries s.table) s.register

theorem ok_init (clock : Time) : Ok (registerSystem clock).init := Expiring.Forgets.refl clock _

/-- **Step lemma.**  A STORE is a `put` on both sides, a purge is a `sweep` of
the table alone, at a time that is not ahead of the clock, and the clock only
makes more entries expire. -/
theorem Ok.step {s t : State} {a : Action} (hok : Ok s) (h : s.step a = some t) : Ok t := by
  cases a with
  | tick elapsed =>
      cases h
      exact hok.mono (by simp)
  | store now key result ttl =>
      simp only [State.step] at h
      split at h
      · split at h
        · next table _ hstore =>
            obtain ⟨id, stored, hkey, hstored, hp⟩ := ResultQueries.of_store_ok hstore
            cases h
            have hput : put? now key result ttl = some (id, stored, some (now + 1000 * ttl)) := by
              rw [put?, hkey, hstored]
            simp only [Ok, State.register, hput, Option.toList_some, Expiring.ofPuts_concat,
              (Prod.mk.inj hp).1, entries_storeUpsert]
            exact hok.put id _
        · cases h
      · cases h
  | purgeResults now =>
      simp only [State.step] at h
      split at h
      · next hle =>
          cases h
          show Expiring.Forgets s.clock (entries (ResultQueries.purgeResults now s.table))
            s.register
          rw [entries_purgeResults]
          exact hok.sweep hle
      · cases h

theorem Ok.reads {s : State} (hok : Ok s) : ReadsLast s where
  now := fun key id hkey => by rw [get_eq hkey, hok.lookup_eq le_rfl]
  found := by
    intro now key id doc hkey hget
    rw [get_eq hkey] at hget
    exact hok.of_lookup (Except.ok.inj hget)
  missing := by
    intro now key id hle hkey hget
    rw [get_eq hkey] at hget
    exact hok.of_lookup_none hle (Except.ok.inj hget)
  purged := by rw [entries_purgeResults, hok.sweep_eq]

/-- **A read finds what was stored last, until it expires**, whatever is stored
and purged, in any order, by sessions whose transactions began at any time. -/
theorem readsLast (clock : Time) (as : List Action) :
    ∀ s ∈ (registerSystem clock).visited as, ReadsLast s := by
  intro s hs
  have hok : Ok s := StepSystem.inv_of_mem_visited (M := registerSystem clock) (ok_init clock)
    (fun _ _ _ hok hstep => Ok.step hok hstep) hs
  exact hok.reads

/-- Two STOREs of one message, a purge, and the end of its time to live: the
second result is read while it lives, and none after. -/
def twoStores : List Action :=
  [.store 0 (Uuid.small 1).toText (.bool false) 5, .tick 3000,
    .store 3000 (Uuid.small 1).toText (.bool true) 1, .tick 500, .purgeResults 3000, .tick 500]

theorem readsLast_twoStores :
    ∃ s, (registerSystem 0).after (registerSystem 0).init twoStores = some s ∧
      s.stores.length = 2 ∧ ReadsLast s := by
  have hruns : ((registerSystem 0).after (registerSystem 0).init twoStores).any
      (fun s => s.stores.length = 2) = true := by decide +kernel
  obtain ⟨s, hs, hlength⟩ := (Option.any_eq_true ..).mp hruns
  exact ⟨s, hs, of_decide_eq_true hlength,
    readsLast 0 twoStores s (StepSystem.mem_visitedFrom_of_after hs)⟩

end Register

end DramatiqPostgres
