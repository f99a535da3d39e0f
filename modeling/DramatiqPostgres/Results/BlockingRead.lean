import DramatiqPostgres.Lib.Runs
import DramatiqPostgres.Results.Store

/-!
# A blocking read of a result

`get_result(block=True)` listens to the channel of its message, reads the table,
waits for one notification, and reads the table again when that notification has
no payload.  STORE may commit between any two of these, and so may expiry and
PURGE_RESULTS.

`readSystem` has one step for each of the reader's statements and one for each
of the others'. LISTEN is a transaction of its own (the connection is in
autocommit mode), so from then on the notification of every STORE that commits
is in the backlog of the session, until the session stops listening.  A
statement reads the table at the server's clock; its `NOW()` is the start of its
transaction, which may be earlier.

### The law

Two history variables make the law expressible: the one STORE of the message,
with the moment of its commit, and the time of the reader's last read.  `Sound`
is the law for a read that has ended, clause by clause what each outcome says
about the STORE, and `missesNothing` proves it for every run, along with
progress: until the read has ended one of its own steps is enabled and brings it
closer to its end.  Soundness alone would hold of a reader that waits for ever.

That a message is stored once is a condition of the step: what a second STORE
does to a waiting reader is the subject of `Results.RepeatedStores`.  The
document is what `get_result` hands to `unwrap_result`; what the encoder makes
of it is that of `Results.Encoders`.

### Why listening comes first

The invariant `ReaderOk` has one clause for each point the reader can be at.
The clause for `listening` and `waiting` says that the backlog is exactly the
payload of a STORE that committed since the LISTEN; the clause for `waiting`
adds that a STORE before the LISTEN was not live when the reader looked at the
table.  Together they leave no gap: a STORE is before the LISTEN, and the read
of the table has seen it or it had expired, or it is after, and the backlog has
it.  A reader that looked first and listened then would have a third case.

An empty payload is the one place where a STORE can still be missed for a
reason: the result was too long to be sent, and it may expire before the second
GET.  The read then ends with `ResultMissing`, which the law allows for a STORE
that has expired and no other.
-/

namespace DramatiqPostgres

namespace BlockingRead

open Pg

/-- What `get_result` ends with; the document is what it hands to
`unwrap_result`, before the encoder of the path is applied. -/
inductive Outcome where
  | returned (doc : Json)
  | resultTimeout
  | resultMissing
  /-- Another exception: of PostgreSQL, or from unpacking the notifications. -/
  | raised

/-- Where the reader is; `readAt` is the time of its last read.  Between
`listening` and `waiting` is the first GET, and `fetching` is the reader that an
empty payload has woken. -/
inductive Reader where
  | called
  | listening
  | waiting (readAt : Time)
  | fetching
  | ended (outcome : Outcome) (readAt : Time)

/-- When the STORE committed: before the LISTEN, between it and the end of the
read, or later. -/
inductive Moment where
  | beforeListen
  | whileReading
  | afterEnd
  deriving DecidableEq

/-- The moment of a commit that happens now.  A reader that fetches no longer
listens, but has not ended. -/
def Reader.moment : Reader → Moment
  | called => .beforeListen
  | listening | waiting _ | fetching => .whileReading
  | ended _ _ => .afterEnd

/-- A committed STORE of the reader's message, with the row it wrote. -/
structure Stored where
  row : ResultRow
  commit : Moment

/-- The result table, the clock, and the reader's session. -/
structure State where
  clock : Time
  table : ResultTable
  reader : Reader
  /-- The channel the session listens to. -/
  channel : Option String
  /-- The notifications the session has not consumed. -/
  backlog : List PgText
  /-- History: the STORE of the message, once it has committed. -/
  stored : Option Stored

/-- One step of the reader.  `wake` and `timeout` are the two ends of
`wait_for_notifies`; how long it waits is not modelled, only that it waits in
vain when it times out. -/
inductive ReaderStep where
  | listen
  | get (now : Time)
  | wake
  | timeout
  | fetch (now : Time)

/-- One step of the reader, of the clock or of another session. -/
inductive Action where
  | reader (step : ReaderStep)
  | tick (elapsed : ℕ)
  | store (now : Time) (key : String) (result : Json) (ttl : ℤ)
  | purgeResults (now : Time)

namespace State

/-- No result, and a reader that has not begun.  Whatever is stored before it
begins is part of the run. -/
def empty (clock : Time) : State := ⟨clock, Table.empty, .called, none, [], none⟩

/-- The reader ends: its session stops listening and drops what it has not
consumed, as `unlisten_all` does on a connection that works. -/
def finish (s : State) (outcome : Outcome) (readAt : Time) : State :=
  { s with reader := .ended outcome readAt, channel := none, backlog := [] }

/-- The state after a step of the reader; each is possible at its own point
only. -/
def readerStep (id : Uuid) (s : State) : ReaderStep → Option State
  | .listen =>
      match s.reader with
      | .called =>
          some { s with reader := .listening, channel := some (resultsChannel id.toText) }
      | _ => none
  | .get now =>
      if now ≤ s.clock then
        match s.reader with
        | .listening =>
            match ResultQueries.get now id.toText s.table with
            | .ok (some doc) => some (s.finish (.returned doc) s.clock)
            | .ok none => some { s with reader := .waiting s.clock }
            | .error _ => some (s.finish .raised s.clock)
        | _ => none
      else none
  | .wake =>
      match s.reader, s.backlog with
      | .waiting readAt, [.json doc] => some (s.finish (.returned doc) readAt)
      | .waiting _, [.empty] => some { s with reader := .fetching, channel := none, backlog := [] }
      -- `(notify,) = notifies` raises on more than one
      | .waiting readAt, _ :: _ :: _ => some (s.finish .raised readAt)
      | _, _ => none
  | .timeout =>
      match s.reader, s.backlog with
      | .waiting readAt, [] => some (s.finish .resultTimeout readAt)
      | _, _ => none
  | .fetch now =>
      if now ≤ s.clock then
        match s.reader with
        | .fetching =>
            match ResultQueries.get now id.toText s.table with
            | .ok (some doc) => some (s.finish (.returned doc) s.clock)
            | .ok none => some (s.finish .resultMissing s.clock)
            | .error _ => some (s.finish .raised s.clock)
        | _ => none
      else none

/-- The state after a STORE: a listening session is notified, in the same step
as the commit.  PostgreSQL puts the notifications of a transaction into the
queue as it commits. -/
def afterStore (id : Uuid) (s : State) (key : String) (p : ResultTable × Notification) : State :=
  { s with
    table := p.1
    backlog := if s.channel = some p.2.channel then s.backlog ++ [p.2.payload] else s.backlog
    stored :=
      if Uuid.ofText? key = some id then
        (p.1.find? id).map fun row => ⟨row, s.reader.moment⟩
      else s.stored }

/-- The state after a step; the message of the reader is stored once at most,
and no `NOW()` is ahead of the clock. -/
def step (id : Uuid) (s : State) : Action → Option State
  | .reader r => s.readerStep id r
  | .tick elapsed => some { s with clock := s.clock + elapsed }
  | .store now key result ttl =>
      if now ≤ s.clock ∧ (Uuid.ofText? key = some id → s.stored.isNone) then
        (ResultQueries.store now key result ttl s.table).toOption.map (s.afterStore id key)
      else none
  | .purgeResults now =>
      if now ≤ s.clock then some { s with table := ResultQueries.purgeResults now s.table }
      else none

end State

/-- Every run of a read of the message `id`, from any time on. -/
def readSystem (id : Uuid) (clock : Time) : StepSystem State Action :=
  ⟨State.empty clock, State.step id⟩

/-! ## The law -/

/-- A read that ended is right about the STORE that committed before it did. -/
structure Sound (stored : Option Stored) (outcome : Outcome) (readAt : Time) : Prop where
  /-- A result that has not expired at the read is returned. -/
  returned_of_live : ∀ st ∈ stored, st.commit ≠ .afterEnd → st.row.isLive readAt = true →
    outcome = .returned st.row.result
  /-- A result that fits a payload is returned even if it expires meanwhile. -/
  returned_of_payload : ∀ st ∈ stored, st.commit = .whileReading →
    st.row.result.octetLength < 7900 → outcome = .returned st.row.result
  /-- Nothing but the stored result is returned. -/
  of_returned : ∀ doc, outcome = .returned doc →
    ∃ st ∈ stored, st.commit ≠ .afterEnd ∧ st.row.result = doc
  /-- A timeout means that no STORE committed since the LISTEN, and that the
  read saw none. -/
  of_timeout : outcome = .resultTimeout → ∀ st ∈ stored, st.commit ≠ .whileReading ∧
    (st.commit ≠ .afterEnd → st.row.isLive readAt = false)
  /-- A missing result has expired. -/
  of_missing : outcome = .resultMissing →
    ∃ st ∈ stored, st.commit ≠ .afterEnd ∧ st.row.isLive readAt = false
  not_raised : outcome ≠ .raised

/-- How many steps the reader can still take, whatever the others do. -/
def Reader.stepsLeft : Reader → ℕ
  | called => 4
  | listening => 3
  | waiting _ => 2
  | fetching => 1
  | ended _ _ => 0

/-- **A blocking read misses nothing**: once it has ended it is `Sound`, and
until then one of its own steps is enabled and brings it closer to its end. -/
structure MissesNothing (id : Uuid) (s : State) : Prop where
  sound : ∀ outcome readAt, s.reader = .ended outcome readAt → Sound s.stored outcome readAt
  proceeds : s.reader.stepsLeft ≠ 0 →
    ∃ r t, s.step id (.reader r) = some t ∧ t.reader.stepsLeft < s.reader.stepsLeft

/-! ## The invariant -/

/-- The row of the message is the one its STORE wrote, until it has expired and
is purged. -/
structure TableOk (id : Uuid) (clock : Time) (table : ResultTable) (stored : Option Stored) :
    Prop where
  absent : stored = none → table.find? id = none
  row : ∀ st ∈ stored, table.find? id = some st.row ∨
    table.find? id = none ∧ st.row.isLive clock = false

/-- What the session's backlog holds: the payload of a STORE it has heard, and
nothing else.  At most one, since the message is stored once. -/
def heard : Option Stored → List PgText
  | some ⟨row, .whileReading⟩ => [ResultQueries.storePayload row.result]
  | _ => []

/-- What is known of the reader at each of its points.  The clauses for
`listening` and `waiting` carry the proof; those for `fetching` and `ended` are
what they lead to. -/
def ReaderOk (id : Uuid) (s : State) : Prop :=
  match s.reader with
  | .called => s.channel = none ∧ s.backlog = [] ∧ ∀ st ∈ s.stored, st.commit = .beforeListen
  | .listening =>
      s.channel = some (resultsChannel id.toText) ∧ s.backlog = heard s.stored ∧
        ∀ st ∈ s.stored, st.commit ≠ .afterEnd
  | .waiting readAt =>
      s.channel = some (resultsChannel id.toText) ∧ s.backlog = heard s.stored ∧
        (∀ st ∈ s.stored, st.commit ≠ .afterEnd) ∧
        ∀ st ∈ s.stored, st.commit ≠ .whileReading → st.row.isLive readAt = false
  | .fetching =>
      s.channel = none ∧ s.backlog = [] ∧ ∃ st, s.stored = some st ∧ st.commit = .whileReading ∧
        7900 ≤ st.row.result.octetLength
  | .ended outcome readAt =>
      s.channel = none ∧ s.backlog = [] ∧ Sound s.stored outcome readAt

/-- The invariant of `readSystem`: the table is right about the STORE, and the
reader is. -/
structure Ok (id : Uuid) (s : State) : Prop where
  table : TableOk id s.clock s.table s.stored
  reader : ReaderOk id s

/-- The session listens to its own message's channel, if at all, so the STORE of
another message does not reach it. -/
theorem ReaderOk.channel {id : Uuid} {s : State} (h : ReaderOk id s) :
    s.channel = none ∨ s.channel = some (resultsChannel id.toText) := by
  unfold ReaderOk at h
  split at h
  · exact Or.inl h.1
  · exact Or.inr h.1
  · exact Or.inr h.1
  · exact Or.inl h.1
  · exact Or.inl h.1

theorem heard_of_ne {stored : Option Stored} (h : ∀ st ∈ stored, st.commit ≠ .whileReading) :
    heard stored = [] := by
  unfold heard
  split
  · next row => exact absurd rfl (h ⟨row, .whileReading⟩ rfl)
  · rfl

theorem ne_of_heard_eq_nil {stored : Option Stored} (h : heard stored = []) :
    ∀ st ∈ stored, st.commit ≠ .whileReading := by
  rintro ⟨row, commit⟩ rfl rfl
  cases h

/-- A notification in the backlog is that of the STORE, and there is no second
one. -/
theorem of_heard_eq_cons {stored : Option Stored} {payload : PgText} {rest : List PgText}
    (h : heard stored = payload :: rest) :
    rest = [] ∧ ∃ row, stored = some ⟨row, .whileReading⟩ ∧
      ResultQueries.storePayload row.result = payload := by
  unfold heard at h
  split at h
  · next row =>
      obtain ⟨hpayload, hrest⟩ := List.cons.inj h
      exact ⟨hrest.symm, row, rfl, hpayload⟩
  · cases h

/-! ## How a read ends -/

/-- Returning the stored result is right, from the table or from the payload. -/
theorem Sound.of_found {st : Stored} (h : st.commit ≠ .afterEnd) (readAt : Time) :
    Sound (some st) (.returned st.row.result) readAt where
  returned_of_live := by rintro st' ⟨⟩ _ _; rfl
  returned_of_payload := by rintro st' ⟨⟩ _ _; rfl
  of_returned := by rintro doc ⟨⟩; exact ⟨st, rfl, h, rfl⟩
  of_timeout := nofun
  of_missing := nofun
  not_raised := nofun

/-- Giving up is right when no STORE was heard and the read saw none. -/
theorem Sound.of_silence {stored : Option Stored} {readAt : Time}
    (hheard : ∀ st ∈ stored, st.commit ≠ .whileReading)
    (hread : ∀ st ∈ stored, st.commit ≠ .whileReading → st.row.isLive readAt = false) :
    Sound stored .resultTimeout readAt where
  returned_of_live := by
    intro st hst _ hlive
    rw [hread st hst (hheard st hst)] at hlive
    cases hlive
  returned_of_payload := fun st hst hcommit => absurd hcommit (hheard st hst)
  of_returned := nofun
  of_timeout := fun _ st hst => ⟨hheard st hst, fun _ => hread st hst (hheard st hst)⟩
  of_missing := nofun
  not_raised := nofun

/-- Reporting a missing result is right when it was too long for a payload and
has expired. -/
theorem Sound.of_expired {st : Stored} {readAt : Time} (hcommit : st.commit = .whileReading)
    (hsize : 7900 ≤ st.row.result.octetLength) (hexpired : st.row.isLive readAt = false) :
    Sound (some st) .resultMissing readAt where
  returned_of_live := by
    rintro st' ⟨⟩ _ hlive
    rw [hexpired] at hlive
    cases hlive
  returned_of_payload := by
    rintro st' ⟨⟩ _ hsmall
    omega
  of_returned := nofun
  of_timeout := nofun
  of_missing := fun _ => ⟨st, rfl, by rw [hcommit]; decide, hexpired⟩
  not_raised := nofun

/-- A STORE that commits after the end does not matter. -/
theorem Sound.store_afterEnd {outcome : Outcome} {readAt : Time} (h : Sound none outcome readAt)
    (row : ResultRow) : Sound (some ⟨row, .afterEnd⟩) outcome readAt where
  returned_of_live := by rintro st ⟨⟩ hcommit; exact absurd rfl hcommit
  returned_of_payload := by rintro st ⟨⟩ hcommit; cases hcommit
  of_returned := by
    intro doc hdoc
    obtain ⟨st, hst, -⟩ := h.of_returned doc hdoc
    cases hst
  of_timeout := by
    rintro _ st ⟨⟩
    exact ⟨nofun, fun hcommit => absurd rfl hcommit⟩
  of_missing := by
    intro hmissing
    obtain ⟨st, hst, -⟩ := h.of_missing hmissing
    cases hst
  not_raised := h.not_raised

/-! ## The table -/

section Table

variable {id : Uuid} {clock : Time} {table : ResultTable} {stored : Option Stored}

/-- **A read of the table finds the STORE, or the result has expired.**  The
read may run in an older transaction: what is live at the clock was live then,
so the read does not miss it. -/
theorem TableOk.get_cases (h : TableOk id clock table stored) {now : Time} (hnow : now ≤ clock) :
    (∃ st, stored = some st ∧
        ResultQueries.get now id.toText table = .ok (some st.row.result)) ∨
      ResultQueries.get now id.toText table = .ok none ∧
        ∀ st ∈ stored, st.row.isLive clock = false := by
  rw [ResultQueries.get_toText]
  cases hstored : stored with
  | none =>
      refine Or.inr ⟨?_, nofun⟩
      rw [h.absent hstored]
      rfl
  | some st =>
      rcases h.row st hstored with hrow | ⟨hnone, hexpired⟩
      · rw [hrow, Option.filter_some]
        cases hlive : st.row.isLive now with
        | true => exact Or.inl ⟨st, rfl, rfl⟩
        | false =>
            refine Or.inr ⟨rfl, ?_⟩
            rintro st' ⟨⟩
            exact ResultRow.isLive_eq_false_mono hlive hnow
      · refine Or.inr ⟨?_, ?_⟩
        · rw [hnone]
          rfl
        · rintro st' ⟨⟩
          exact hexpired

theorem TableOk.tick (h : TableOk id clock table stored) (elapsed : ℕ) :
    TableOk id (clock + elapsed) table stored where
  absent := h.absent
  row := by
    intro st hst
    have hlater : clock ≤ clock + (elapsed : ℤ) := le_add_of_nonneg_right (Int.natCast_nonneg _)
    exact (h.row st hst).imp_right fun hgone =>
      ⟨hgone.1, ResultRow.isLive_eq_false_mono hgone.2 hlater⟩

theorem TableOk.purgeResults (h : TableOk id clock table stored) {now : Time} (hnow : now ≤ clock) :
    TableOk id clock (ResultQueries.purgeResults now table) stored where
  absent := by
    intro hstored
    rw [ResultQueries.find?_purgeResults, h.absent hstored]
    rfl
  row := by
    intro st hst
    rw [ResultQueries.find?_purgeResults]
    rcases h.row st hst with hrow | ⟨hnone, hexpired⟩
    · rw [hrow, Option.filter_some]
      cases hlive : st.row.isLive now with
      | true => exact Or.inl rfl
      | false => exact Or.inr ⟨rfl, ResultRow.isLive_eq_false_mono hlive hnow⟩
    · rw [hnone]
      exact Or.inr ⟨rfl, hexpired⟩

/-- The message's own STORE. -/
theorem TableOk.store_self (now : Time) (doc : Json) (ttl : ℤ) (commit : Moment) :
    TableOk id clock (ResultQueries.storeUpsert now id doc ttl table)
      (some ⟨⟨id, doc, some (now + 1000 * ttl)⟩, commit⟩) where
  absent := nofun
  row := by
    rintro st ⟨⟩
    exact Or.inl (ResultQueries.find?_storeUpsert now id doc ttl table)

/-- The STORE of another message. -/
theorem TableOk.store_of_ne (h : TableOk id clock table stored) {other : Uuid} (hne : id ≠ other)
    (now : Time) (doc : Json) (ttl : ℤ) :
    TableOk id clock (ResultQueries.storeUpsert now other doc ttl table) stored where
  absent := by
    rw [ResultQueries.find?_storeUpsert_of_ne hne]
    exact h.absent
  row := by
    rw [ResultQueries.find?_storeUpsert_of_ne hne]
    exact h.row

end Table

/-! ## The steps -/

section Step

variable {id : Uuid} {s t : State}

/-- The invariant of a read that has just ended is the law of its outcome. -/
theorem Ok.finish (h : Ok id s) {outcome : Outcome} {readAt : Time}
    (hsound : Sound s.stored outcome readAt) : Ok id (s.finish outcome readAt) :=
  ⟨h.table, rfl, rfl, hsound⟩

theorem ok_listen (h : Ok id s) (hstep : s.readerStep id .listen = some t) : Ok id t := by
  obtain ⟨htable, hreader⟩ := h
  simp only [State.readerStep] at hstep
  split at hstep
  · next hcalled =>
      cases hstep
      rw [ReaderOk, hcalled] at hreader
      obtain ⟨-, hbacklog, hcommit⟩ := hreader
      refine ⟨htable, rfl, ?_, fun st hst => by rw [hcommit st hst]; decide⟩
      show s.backlog = heard s.stored
      rw [hbacklog, heard_of_ne fun st hst => by rw [hcommit st hst]; decide]
  · cases hstep

theorem ok_get (h : Ok id s) {now : Time} (hstep : s.readerStep id (.get now) = some t) :
    Ok id t := by
  simp only [State.readerStep] at hstep
  split_ifs at hstep with hnow
  split at hstep
  · next hlistening =>
      have hreader := h.reader
      rw [ReaderOk, hlistening] at hreader
      obtain ⟨hchannel, hbacklog, hcommit⟩ := hreader
      rcases h.table.get_cases hnow with ⟨st, hst, hget⟩ | ⟨hget, hexpired⟩
      · rw [hget] at hstep
        cases hstep
        exact h.finish (hst ▸ Sound.of_found (hcommit st hst) s.clock)
      · rw [hget] at hstep
        cases hstep
        exact ⟨h.table, hchannel, hbacklog, hcommit, fun st hst _ => hexpired st hst⟩
  · cases hstep

theorem ok_wake (h : Ok id s) (hstep : s.readerStep id .wake = some t) : Ok id t := by
  have hreader := h.reader
  simp only [State.readerStep] at hstep
  split at hstep
  · -- the payload is the stored result
    next readAt doc hwaiting hcons =>
      cases hstep
      rw [ReaderOk, hwaiting] at hreader
      obtain ⟨-, hbacklog, -, -⟩ := hreader
      obtain ⟨-, row, hst, hpayload⟩ := of_heard_eq_cons (hbacklog.symm.trans hcons)
      have hdoc : row.result = doc := by
        unfold ResultQueries.storePayload at hpayload
        split_ifs at hpayload
        exact PgText.json.inj hpayload
      have hcommit : (Stored.mk row .whileReading).commit ≠ .afterEnd := nofun
      refine h.finish ?_
      rw [hst, ← hdoc]
      exact Sound.of_found hcommit readAt
  · -- it was too long for a payload
    next readAt hwaiting hcons =>
      cases hstep
      rw [ReaderOk, hwaiting] at hreader
      obtain ⟨-, hbacklog, -, -⟩ := hreader
      obtain ⟨-, row, hst, hpayload⟩ := of_heard_eq_cons (hbacklog.symm.trans hcons)
      have hsize : 7900 ≤ row.result.octetLength := by
        unfold ResultQueries.storePayload at hpayload
        split_ifs at hpayload with hsize
        exact hsize
      exact ⟨h.table, rfl, rfl, ⟨row, .whileReading⟩, hst, rfl, hsize⟩
  · -- one STORE sends one notification
    next readAt payload second rest hwaiting hcons =>
      rw [ReaderOk, hwaiting] at hreader
      obtain ⟨-, hbacklog, -, -⟩ := hreader
      obtain ⟨hrest, -⟩ := of_heard_eq_cons (hbacklog.symm.trans hcons)
      cases hrest
  · cases hstep

theorem ok_timeout (h : Ok id s) (hstep : s.readerStep id .timeout = some t) : Ok id t := by
  have hreader := h.reader
  simp only [State.readerStep] at hstep
  split at hstep
  · next readAt hwaiting hnil =>
      cases hstep
      rw [ReaderOk, hwaiting] at hreader
      obtain ⟨-, hbacklog, -, hread⟩ := hreader
      exact h.finish (Sound.of_silence (ne_of_heard_eq_nil (hbacklog.symm.trans hnil)) hread)
  · cases hstep

theorem ok_fetch (h : Ok id s) {now : Time} (hstep : s.readerStep id (.fetch now) = some t) :
    Ok id t := by
  simp only [State.readerStep] at hstep
  split_ifs at hstep with hnow
  split at hstep
  · next hfetching =>
      have hreader := h.reader
      rw [ReaderOk, hfetching] at hreader
      obtain ⟨-, -, st, hst, hcommit, hsize⟩ := hreader
      rcases h.table.get_cases hnow with ⟨st', hst', hget⟩ | ⟨hget, hexpired⟩
      · rw [hget] at hstep
        cases hstep
        rw [hst] at hst'
        cases hst'
        exact h.finish (hst ▸ Sound.of_found (hcommit ▸ nofun) s.clock)
      · rw [hget] at hstep
        cases hstep
        exact h.finish (hst ▸ Sound.of_expired hcommit hsize (hexpired st hst))
  · cases hstep

/-- The reader at its point after the message's own STORE: before the LISTEN
nothing is heard, from then on it is in the backlog, and after the end it does
not matter. -/
theorem readerOk_store_self (h : ReaderOk id s) (hnone : s.stored = none) (row : ResultRow)
    (table : ResultTable) :
    ReaderOk id { s with
      table := table
      backlog :=
        if s.channel = some (resultsChannel id.toText) then
          s.backlog ++ [ResultQueries.storePayload row.result]
        else s.backlog
      stored := some ⟨row, s.reader.moment⟩ } := by
  unfold ReaderOk at h ⊢
  rw [hnone] at h
  cases hreader : s.reader with
  | called =>
      rw [hreader] at h
      obtain ⟨hchannel, hbacklog, -⟩ := h
      refine ⟨hchannel, ?_, ?_⟩
      · rw [hchannel, if_neg nofun, hbacklog]
      · rintro st ⟨⟩
        rfl
  | listening =>
      rw [hreader] at h
      obtain ⟨hchannel, hbacklog, -⟩ := h
      refine ⟨hchannel, ?_, ?_⟩
      · rw [if_pos hchannel, hbacklog]
        rfl
      · rintro st ⟨⟩
        exact nofun
  | waiting readAt =>
      rw [hreader] at h
      obtain ⟨hchannel, hbacklog, -, -⟩ := h
      refine ⟨hchannel, ?_, ?_, ?_⟩
      · rw [if_pos hchannel, hbacklog]
        rfl
      · rintro st ⟨⟩
        exact nofun
      · rintro st ⟨⟩ hcommit
        exact absurd rfl hcommit
  | fetching =>
      rw [hreader] at h
      obtain ⟨-, -, st, hst, -⟩ := h
      cases hst
  | ended outcome readAt =>
      rw [hreader] at h
      obtain ⟨hchannel, hbacklog, hsound⟩ := h
      refine ⟨hchannel, ?_, hsound.store_afterEnd row⟩
      rw [hchannel, if_neg nofun, hbacklog]

theorem ok_store (h : Ok id s) {now : Time} {key : String} {result : Json} {ttl : ℤ}
    (hstep : s.step id (.store now key result ttl) = some t) : Ok id t := by
  simp only [State.step] at hstep
  split_ifs at hstep with hguard
  obtain ⟨-, honce⟩ := hguard
  cases hstore : ResultQueries.store now key result ttl s.table with
  | error e => rw [hstore] at hstep; cases hstep
  | ok p =>
      rw [hstore] at hstep
      cases hstep
      obtain ⟨other, doc, hkey, -, rfl⟩ := ResultQueries.of_store_ok hstore
      by_cases hid : id = other
      · subst hid
        have hnone : s.stored = none := Option.isNone_iff_eq_none.mp (honce hkey)
        rw [State.afterStore, if_pos hkey, ResultQueries.find?_storeUpsert]
        exact ⟨TableOk.store_self now doc ttl _,
          readerOk_store_self h.reader hnone ⟨id, doc, some (now + 1000 * ttl)⟩ _⟩
      · have hkey' : Uuid.ofText? key ≠ some id := by
          rw [hkey]
          exact fun heq => hid (Option.some.inj heq).symm
        have hchannel : s.channel ≠ some (resultsChannel other.toText) := by
          intro hother
          rcases h.reader.channel with hnone | hself
          · rw [hnone] at hother
            cases hother
          · rw [hself, Option.some_inj] at hother
            exact hid (ResultQueries.resultsChannel_injective hother)
        rw [State.afterStore, if_neg hkey', if_neg hchannel]
        exact ⟨h.table.store_of_ne hid now doc ttl, h.reader⟩

/-- **Step lemma.**  Every step keeps the invariant. -/
theorem ok_step {a : Action} (h : Ok id s) (hstep : s.step id a = some t) : Ok id t := by
  cases a with
  | reader r =>
      cases r with
      | listen => exact ok_listen h hstep
      | get now => exact ok_get h hstep
      | wake => exact ok_wake h hstep
      | timeout => exact ok_timeout h hstep
      | fetch now => exact ok_fetch h hstep
  | tick elapsed =>
      cases hstep
      exact ⟨h.table.tick elapsed, h.reader⟩
  | store now key result ttl => exact ok_store h hstep
  | purgeResults now =>
      simp only [State.step] at hstep
      split_ifs at hstep with hnow
      cases hstep
      exact ⟨h.table.purgeResults hnow, h.reader⟩

/-- **Progress.**  A reader that has not ended can go on: with an empty backlog
the wait times out, and with one notification it wakes. -/
theorem Ok.proceeds (h : Ok id s) (hleft : s.reader.stepsLeft ≠ 0) :
    ∃ r t, s.step id (.reader r) = some t ∧ t.reader.stepsLeft < s.reader.stepsLeft := by
  have hreader := h.reader
  cases hr : s.reader with
  | called =>
      refine ⟨.listen, _, by simp only [State.step, State.readerStep, hr]; rfl, ?_⟩
      simp [Reader.stepsLeft]
  | listening =>
      rcases h.table.get_cases (le_refl s.clock) with ⟨st, -, hget⟩ | ⟨hget, -⟩
      · refine ⟨.get s.clock, s.finish (.returned st.row.result) s.clock, ?_, ?_⟩
        · simp only [State.step, State.readerStep, le_refl, if_true, hr, hget]
        · simp [State.finish, Reader.stepsLeft]
      · refine ⟨.get s.clock, { s with reader := .waiting s.clock }, ?_, ?_⟩
        · simp only [State.step, State.readerStep, le_refl, if_true, hr, hget]
        · simp [Reader.stepsLeft]
  | waiting readAt =>
      cases hbacklog : s.backlog with
      | nil =>
          refine ⟨.timeout, s.finish .resultTimeout readAt, ?_, ?_⟩
          · simp only [State.step, State.readerStep, hr, hbacklog]
          · simp [State.finish, Reader.stepsLeft]
      | cons payload rest =>
          rw [ReaderOk, hr, hbacklog] at hreader
          obtain ⟨rfl, -⟩ := of_heard_eq_cons hreader.2.1.symm
          cases payload with
          | empty =>
              refine ⟨.wake, { s with reader := .fetching, channel := none, backlog := [] }, ?_, ?_⟩
              · simp only [State.step, State.readerStep, hr, hbacklog]
              · simp [Reader.stepsLeft]
          | json doc =>
              refine ⟨.wake, s.finish (.returned doc) readAt, ?_, ?_⟩
              · simp only [State.step, State.readerStep, hr, hbacklog]
              · simp [State.finish, Reader.stepsLeft]
  | fetching =>
      rcases h.table.get_cases (le_refl s.clock) with ⟨st, -, hget⟩ | ⟨hget, -⟩
      · refine ⟨.fetch s.clock, s.finish (.returned st.row.result) s.clock, ?_, ?_⟩
        · simp only [State.step, State.readerStep, le_refl, if_true, hr, hget]
        · simp [State.finish, Reader.stepsLeft]
      · refine ⟨.fetch s.clock, s.finish .resultMissing s.clock, ?_, ?_⟩
        · simp only [State.step, State.readerStep, le_refl, if_true, hr, hget]
        · simp [State.finish, Reader.stepsLeft]
  | ended outcome readAt => rw [hr] at hleft; exact absurd rfl hleft

/-- The invariant implies the law. -/
theorem Ok.law (h : Ok id s) : MissesNothing id s where
  sound := by
    intro outcome readAt hended
    have hreader := h.reader
    rw [ReaderOk, hended] at hreader
    exact hreader.2.2
  proceeds := h.proceeds

end Step

theorem ok_empty (id : Uuid) (clock : Time) : Ok id (State.empty clock) where
  table := ⟨fun _ => rfl, nofun⟩
  reader := ⟨rfl, rfl, nofun⟩

/-- **A blocking read misses nothing**, whatever the interleaving: a STORE that
commits at any point of it is returned, unless it expires first. -/
theorem missesNothing (id : Uuid) (clock : Time) (as : List Action) {s : State}
    (hs : s ∈ (readSystem id clock).visited as) : MissesNothing id s := by
  have hok : Ok id s := StepSystem.inv_of_mem_visited (M := readSystem id clock) (I := Ok id)
    (ok_empty id clock) (fun _ _ _ hok hstep => ok_step hok hstep) hs
  exact hok.law

/-- STORE commits between the reader's first look at the table and its wait, and
the result has expired and is purged before the reader wakes up.  The reader
still returns it, since the payload is in its backlog. -/
def lateStoreRun : List Action :=
  [.reader .listen, .reader (.get 0), .store 0 (Uuid.small 1).toText (.str "done") 10,
    .tick 20000, .purgeResults 20000, .reader .wake]

theorem missesNothing_lateStoreRun :
    ∃ s ∈ (readSystem (Uuid.small 1) 0).visited lateStoreRun,
      s.reader.stepsLeft = 0 ∧ s.stored.isSome ∧ MissesNothing (Uuid.small 1) s := by
  have hrun : ∃ s ∈ (readSystem (Uuid.small 1) 0).visited lateStoreRun,
      s.reader.stepsLeft = 0 ∧ s.stored.isSome := by decide +kernel
  obtain ⟨s, hs, hended, hstored⟩ := hrun
  exact ⟨s, hs, hended, hstored, missesNothing _ _ _ hs⟩

end BlockingRead

end DramatiqPostgres
