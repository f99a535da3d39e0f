import DramatiqPostgres.Results.BlockingRead
import DramatiqPostgres.Results.Encoders

/-!
# A waiting reader, and a result that is stored more than once

A message that is executed more than once stores its result more than once, and
the notifications of its STOREs may reach a waiting `get_result` together:
`wait_for_notifies` returns every sibling delivered in the same packet.  The
code after it takes them apart with `(notify,) = notifies`, which raises
`ValueError` on two.

`readerSystem` interleaves one blocking read with any number of STOREs, of its
message and of others, with the clock and with PURGE_RESULTS.  In
`Results.BlockingRead` a message is stored once at most, and the encoder is left
out; here it may be stored any number of times and the encoder is a parameter,
and the law is about reads that were woken by a notification.

### What the server delivers

The notifications the session has not consumed are part of its stage, which has
them only while the session listens.  `wait` returns any first part of them, an
empty one only when there is none: which of them arrive in one packet is the
network's choice, so the count is part of the action and the condition of the
theorem is about it.  What `get_result` makes of that list is `afterWait`.

### The law, and the condition

`Safe` is the law for a read that was woken: it hands over the value of a STORE
that committed while it was reading, or reports a missing result because such a
STORE has expired.  It does not promise the *last* STORE, which no reader that
takes one notification could hand over.

A run is safe exactly when no `wait` of it returns two notifications, or one
that the encoder cannot decode (`safe_iff`).  The second part belongs to the
condition because STORE writes what the json encoder of psycopg gives, and the
reader decodes with the encoder of dramatiq, which is the user's.

### The invariant

`Ok` says what a reader can be woken by: every payload in its backlog is that of
a STORE of its message, committed since the LISTEN.  That is where the channel
comes in, since the session listens to the channel of its own spelling of the id
(`eq_of_identifier_eq`).  For a payload that is empty the reader has to find a
row of such a STORE in the table, or one that has expired: the latest STORE is
the one the table has, so it is enough to know that the latest is not older than
the LISTEN.
-/

universe u

namespace DramatiqPostgres

namespace RepeatedStores

open Pg Results
open BlockingRead (Moment Stored TableOk)

variable {V : Type u}

/-! ## The reader -/

/-- What follows the wait: the end of the read, or the second GET. -/
inductive Next (V : Type u) where
  | resultTimeout
  /-- The second GET. -/
  | fetch
  | handed (x : Handed V)

/-- `get_result` from `if not notifies` on.  The payload is handed to the
encoder as the text of a `jsonb` document; a row of the table is not (see
`fromTable`). -/
def afterWait (encoder : Encoder V) : List PgText → Next V
  | [] => .resultTimeout
  | [.empty] => .fetch
  | [.json doc] => .handed (decoded encoder (.ofJsonb doc))
  -- `(notify,) = notifies` raises on more than one
  | _ :: _ :: _ => .handed .raised

/-- Where the reader is; the session holds a backlog of payloads while it
listens, and drops it with the end of the listening transaction.  Payloads are
enough, because it listens to one channel. -/
inductive Stage (V : Type u) where
  | called
  | listening (backlog : List PgText)
  | waiting (backlog : List PgText)
  | fetching
  /-- The read ended without a notification. -/
  | ended
  /-- A notification woke the reader, and this came of it. -/
  | woken (x : Handed V) (readAt : Time)

/-- The notifications the session has not consumed. -/
def Stage.backlog : Stage V → List PgText
  | listening backlog | waiting backlog => backlog
  | _ => []

/-- A notification arrives.  A session that does not listen, or no longer, drops
it. -/
def Stage.hear (payload : PgText) : Stage V → Stage V
  | listening backlog => .listening (backlog ++ [payload])
  | waiting backlog => .waiting (backlog ++ [payload])
  | stage => stage

/-- The moment of a commit that happens now, as `BlockingRead` distinguishes
them. -/
def Stage.moment : Stage V → Moment
  | called => .beforeListen
  | listening _ | waiting _ | fetching => .whileReading
  | ended | woken _ _ => .afterEnd

/-- The clock, the result table, the reader, and the STOREs of its message, the
latest first. -/
structure State (V : Type u) where
  clock : Time
  table : ResultTable
  stage : Stage V
  /-- History. -/
  stores : List Stored

/-- One step of the reader, of the clock or of another session.  The `now` of a
statement is the start of its transaction. -/
inductive Action where
  | listen
  | get (now : Time)
  /-- `wait_for_notifies` returns the first `count` notifications. -/
  | wait (count : ℕ)
  | fetch (now : Time)
  | tick (elapsed : ℕ)
  | store (now : Time) (key : String) (result : Json) (ttl : ℤ)
  | purgeResults (now : Time)

section System

variable (py : Python V) (encoder : Encoder V) (key : String)

namespace State

/-- No result, and a reader that has not begun. -/
def empty (clock : Time) : State V := ⟨clock, Table.empty, .called, []⟩

/-- The stage after the wait; a value that was in the payload is handed over at
the clock. -/
def afterNext (s : State V) : Next V → Stage V
  | .resultTimeout => .ended
  | .fetch => .fetching
  | .handed x => .woken x s.clock

/-- The state after a STORE: the reader hears of it if it listens to that
channel, and the STORE is one of its message if the keys are the same `uuid`. -/
def afterStore (s : State V) (other : String) (p : ResultTable × Notification) : State V :=
  { s with
    table := p.1
    stage :=
      if identifier (resultsChannel key) = p.2.channel then s.stage.hear p.2.payload else s.stage
    stores :=
      match Uuid.ofText? key with
      | none => s.stores
      | some id =>
          if Uuid.ofText? other = some id then
            ((p.1.find? id).map fun row => ⟨row, s.stage.moment⟩).toList ++ s.stores
          else s.stores }

/-- The state after a step.  A statement that raises changes nothing, as
everywhere; a step that is not the reader's next one is no step. -/
def step (s : State V) : Action → Option (State V)
  | .listen =>
      match s.stage with
      | .called => some { s with stage := .listening [] }
      | _ => none
  | .get now =>
      match s.stage with
      | .listening backlog =>
          if now ≤ s.clock then
            match fromTable py now key s.table with
            | .missing => some { s with stage := .waiting backlog }
            | _ => some { s with stage := .ended }
          else none
      | _ => none
  | .wait count =>
      match s.stage with
      | .waiting backlog =>
          if count ≤ backlog.length ∧ (count = 0 → backlog = []) then
            some { s with stage := s.afterNext (afterWait encoder (backlog.take count)) }
          else none
      | _ => none
  | .fetch now =>
      match s.stage with
      | .fetching =>
          if now ≤ s.clock then
            some { s with stage := .woken (fromTable py now key s.table) s.clock }
          else none
      | _ => none
  | .tick elapsed => some { s with clock := s.clock + elapsed }
  | .store now other result ttl =>
      if now ≤ s.clock then
        (ResultQueries.store now other result ttl s.table).toOption.map (s.afterStore key other)
      else none
  | .purgeResults now =>
      if now ≤ s.clock then some { s with table := ResultQueries.purgeResults now s.table }
      else none

end State

/-- Every run of a blocking read of the message `key`, from any time on. -/
def readerSystem (clock : Time) : StepSystem (State V) Action :=
  ⟨State.empty clock, State.step py encoder key⟩

/-! ## The law -/

/-- The objects a stored result is read as: what psycopg loads from the row, and
what the encoder decodes from the payload.  `Results.Encoders` says when these
are the same. -/
def IsValueOf (x : V) (doc : Json) : Prop :=
  x = py.loads doc ∨ encoder.decode (.ofJsonb doc) = some x

/-- What a reader that was woken may end with: a value of a STORE that committed
while it was reading, or `ResultMissing` where such a STORE has expired.  Any
other exception is a failure. -/
def FromStores (stores : List Stored) (readAt : Time) : Handed V → Prop
  | .value x => ∃ st ∈ stores, st.commit = .whileReading ∧ IsValueOf py encoder x st.row.result
  | .missing => ∃ st ∈ stores, st.commit = .whileReading ∧ st.row.isLive readAt = false
  | .raised => False

/-- **Repeated stores do not break the reader**: if a notification woke it, it
ends with what a STORE of its message wrote meanwhile. -/
def Safe (s : State V) : Prop :=
  ∀ x readAt, s.stage = .woken x readAt → FromStores py encoder s.stores readAt x

/-- At most one notification, with a payload the encoder decodes if it has one.
This is about the list a wait returns, before `get_result` looks at it. -/
def Readable (notifies : List PgText) : Prop :=
  notifies.length ≤ 1 ∧ ∀ doc, .json doc ∈ notifies → (encoder.decode (.ofJsonb doc)).isSome

/-- The step is no wait, or one that returns what the reader can take: a
condition on the state before the step, and on the count the network chose. -/
def TakesReadable (s : State V) : Action → Prop
  | .wait count => Readable encoder (s.stage.backlog.take count)
  | _ => True

end System

/-! ## The stages -/

theorem Stage.mem_backlog_hear {stage : Stage V} {payload payload' : PgText}
    (h : payload' ∈ (stage.hear payload).backlog) :
    payload' ∈ stage.backlog ∨ payload' = payload := by
  cases stage with
  | listening backlog => exact (List.mem_append.mp h).imp_right List.mem_singleton.mp
  | waiting backlog => exact (List.mem_append.mp h).imp_right List.mem_singleton.mp
  | called => cases h
  | fetching => cases h
  | ended => cases h
  | woken x readAt => cases h

/-- A reader that has heard of a STORE, and is not done.  For such a reader the
invariant promises a STORE to blame. -/
def Stage.Expects (stage : Stage V) : Prop := stage.backlog ≠ [] ∨ stage = .fetching

theorem Stage.Expects.moment {stage : Stage V} (h : stage.Expects) :
    stage.moment = .whileReading := by
  cases stage with
  | listening backlog => rfl
  | waiting backlog => rfl
  | fetching => rfl
  | called => rcases h with h | h; exacts [absurd rfl h, nomatch h]
  | ended => rcases h with h | h; exacts [absurd rfl h, nomatch h]
  | woken x readAt => rcases h with h | h; exacts [absurd rfl h, nomatch h]

theorem Stage.Expects.of_hear {stage : Stage V} {payload : PgText}
    (h : (stage.hear payload).Expects) : stage.moment = .whileReading := by
  have hmoment : (stage.hear payload).moment = stage.moment := by cases stage <;> rfl
  rw [← hmoment]
  exact h.moment

theorem Stage.eq_of_hear_eq_woken {stage : Stage V} {payload : PgText} {x : Handed V}
    {readAt : Time} (h : stage.hear payload = .woken x readAt) : stage = .woken x readAt := by
  cases stage with
  | woken y t => exact h
  | listening backlog => cases h
  | waiting backlog => cases h
  | called => cases h
  | fetching => cases h
  | ended => cases h

/-! ## The invariant -/

section Invariant

variable (py : Python V) (encoder : Encoder V) (key : String)

/-- The invariant of a run whose waits return what the reader can take. -/
structure Ok (s : State V) : Prop where
  /-- The table has the row of the latest STORE, until it has expired and is
  purged. -/
  table : ∀ id, Uuid.ofText? key = some id → TableOk id s.clock s.table s.stores.head?
  /-- The backlog holds payloads of STOREs of the message. -/
  heard : ∀ payload ∈ s.stage.backlog, ∃ st ∈ s.stores, st.commit = .whileReading ∧
    ResultQueries.storePayload st.row.result = payload
  /-- A reader that has heard of a STORE knows that the latest one is not older
  than its LISTEN. -/
  latest : s.stage.Expects →
    (∃ id : Uuid, key = id.toText) ∧ ∃ st, s.stores.head? = some st ∧ st.commit = .whileReading
  safe : Safe py encoder s

variable {py encoder key} {s t : State V}

theorem ok_empty (clock : Time) : Ok py encoder key (State.empty clock) where
  table := fun _ _ => ⟨fun _ => rfl, nofun⟩
  heard := nofun
  latest := by
    rintro (h | h)
    · exact absurd rfl h
    · cases h
  safe := nofun

theorem FromStores.mono {stores stores' : List Stored} (h : stores ⊆ stores') {readAt : Time}
    {x : Handed V} (hx : FromStores py encoder stores readAt x) :
    FromStores py encoder stores' readAt x := by
  cases x with
  | value x =>
      obtain ⟨st, hst, hval⟩ := hx
      exact ⟨st, h hst, hval⟩
  | missing =>
      obtain ⟨st, hst, hexp⟩ := hx
      exact ⟨st, h hst, hexp⟩
  | raised => exact hx

/-- The reader moves on to a stage in which it awaits no more.  All its own
steps are of this kind but the LISTEN and the first GET, so each has only the
law to show. -/
theorem Ok.moveOn (h : Ok py encoder key s) {stage : Stage V} (hquiet : ¬ stage.Expects)
    (hsafe : ∀ x readAt, stage = .woken x readAt → FromStores py encoder s.stores readAt x) :
    Ok py encoder key { s with stage := stage } where
  table := h.table
  heard := by
    intro payload hpayload
    exact absurd (Or.inl (List.ne_nil_of_mem hpayload)) hquiet
  latest := fun hexpects => absurd hexpects hquiet
  safe := hsafe

theorem not_expects_ended : ¬ (Stage.ended : Stage V).Expects := by
  rintro (h | h)
  · exact h rfl
  · cases h

theorem not_expects_woken (x : Handed V) (readAt : Time) : ¬ (Stage.woken x readAt).Expects := by
  rintro (h | h)
  · exact h rfl
  · cases h

/-- The channel of a session is that of a STORE only if their keys are the same
text: both names are cut to 63 bytes, but the STORE's has 53. -/
theorem eq_of_identifier_eq {other : Uuid}
    (h : identifier (resultsChannel key) = resultsChannel other.toText) : key = other.toText := by
  rcases identifier_eq_or (resultsChannel key) with hname | hlong
  · rw [hname] at h
    have hlist := congrArg String.toList h
    simp only [resultsChannel, String.toList_append, List.append_cancel_right_eq,
      List.append_cancel_left_eq] at hlist
    exact String.toList_inj.mp hlist
  · rw [h, ResultQueries.utf8ByteSize_resultsChannel] at hlong
    omega

/-! ## The steps -/

theorem ok_get (h : Ok py encoder key s) {now : Time}
    (hstep : s.step py encoder key (.get now) = some t) : Ok py encoder key t := by
  simp only [State.step] at hstep
  split at hstep
  · next backlog hlistening =>
      split_ifs at hstep
      split at hstep
      · cases hstep
        have hheard := h.heard
        have hlatest := h.latest
        rw [hlistening] at hheard hlatest
        refine ⟨h.table, hheard, ?_, nofun⟩
        rintro (hne | hfetching)
        · exact hlatest (Or.inl hne)
        · cases hfetching
      · cases hstep
        exact h.moveOn not_expects_ended nofun
  · cases hstep

/-- What the reader makes of one notification.  Here the hypothesis is used:
with two, or with a payload that does not decode, the read raises. -/
theorem ok_wait (h : Ok py encoder key s) {count : ℕ}
    (htakes : TakesReadable encoder s (.wait count))
    (hstep : s.step py encoder key (.wait count) = some t) : Ok py encoder key t := by
  simp only [State.step] at hstep
  split at hstep
  · next backlog hwaiting =>
      split_ifs at hstep
      cases hstep
      have hheard := h.heard
      have hlatest := h.latest
      rw [TakesReadable, hwaiting, Stage.backlog] at htakes
      rw [hwaiting, Stage.backlog] at hheard
      obtain ⟨hone, hdecodes⟩ := htakes
      have hsub : ∀ payload ∈ backlog.take count, payload ∈ backlog :=
        fun _ hpayload => List.mem_of_mem_take hpayload
      generalize backlog.take count = notifies at hone hdecodes hsub ⊢
      rcases notifies with _ | ⟨payload, _ | ⟨second, rest⟩⟩
      · exact h.moveOn not_expects_ended nofun
      · cases payload with
        | empty =>
            -- the second GET is still to come
            have hne : backlog ≠ [] := List.ne_nil_of_mem (hsub .empty List.mem_cons_self)
            refine ⟨h.table, nofun, fun _ => hlatest (Or.inl ?_), nofun⟩
            rw [hwaiting]
            exact hne
        | json doc =>
            obtain ⟨x, hx⟩ := Option.isSome_iff_exists.mp (hdecodes doc List.mem_cons_self)
            obtain ⟨st, hst, hcommit, hpayload⟩ := hheard (.json doc) (hsub _ List.mem_cons_self)
            have hdoc : st.row.result = doc := by
              unfold ResultQueries.storePayload at hpayload
              split_ifs at hpayload
              exact PgText.json.inj hpayload
            refine h.moveOn (not_expects_woken _ _) ?_
            rintro y readAt ⟨⟩
            rw [decoded, hx, Option.elim_some]
            exact ⟨st, hst, hcommit, Or.inr (hdoc ▸ hx)⟩
      · simp only [List.length_cons] at hone
        omega
  · cases hstep

theorem ok_fetch (h : Ok py encoder key s) {now : Time}
    (hstep : s.step py encoder key (.fetch now) = some t) : Ok py encoder key t := by
  simp only [State.step] at hstep
  split at hstep
  · next hfetching =>
      split_ifs at hstep with hnow
      cases hstep
      obtain ⟨⟨id, hkey⟩, st, hst, hcommit⟩ := h.latest (Or.inr hfetching)
      have hmem : st ∈ s.stores := List.mem_of_mem_head? hst
      have htable := h.table id (hkey ▸ Uuid.ofText?_toText id)
      refine h.moveOn (not_expects_woken _ _) ?_
      rintro x readAt ⟨⟩
      rw [fromTable, hkey]
      rcases htable.get_cases hnow with ⟨st', hst', hget⟩ | ⟨hget, hexpired⟩
      · rw [hst, Option.some_inj] at hst'
        rw [hget, ← hst']
        exact ⟨st, hmem, hcommit, Or.inl rfl⟩
      · rw [hget]
        exact ⟨st, hmem, hcommit, hexpired st hst⟩
  · cases hstep

/-- The message's own STORE becomes the latest one, and the row of the table is
its row. -/
theorem Ok.store_self (h : Ok py encoder key s) {id : Uuid} (hkey : Uuid.ofText? key = some id)
    (now : Time) (doc : Json) (ttl : ℤ) {stage : Stage V}
    (hstage : stage = s.stage ∨ key = id.toText ∧
      stage = s.stage.hear (ResultQueries.storePayload doc)) :
    Ok py encoder key
      { s with
        table := ResultQueries.storeUpsert now id doc ttl s.table
        stage := stage
        stores := ⟨⟨id, doc, some (now + 1000 * ttl)⟩, s.stage.moment⟩ :: s.stores } where
  table := by
    intro other hother
    rw [hkey, Option.some_inj] at hother
    subst hother
    exact TableOk.store_self now doc ttl _
  heard := by
    intro payload hpayload
    rcases hstage with rfl | ⟨-, rfl⟩
    · obtain ⟨st, hst, hwhat⟩ := h.heard payload hpayload
      exact ⟨st, List.mem_cons_of_mem _ hst, hwhat⟩
    · rcases Stage.mem_backlog_hear hpayload with hold | hnew
      · obtain ⟨st, hst, hwhat⟩ := h.heard payload hold
        exact ⟨st, List.mem_cons_of_mem _ hst, hwhat⟩
      · exact ⟨_, List.mem_cons_self,
          Stage.Expects.of_hear (Or.inl (List.ne_nil_of_mem hpayload)), hnew.symm⟩
  latest := by
    intro hexpects
    rcases hstage with rfl | ⟨htext, rfl⟩
    · exact ⟨(h.latest hexpects).1, _, rfl, hexpects.moment⟩
    · exact ⟨⟨id, htext⟩, _, rfl, hexpects.of_hear⟩
  safe := by
    intro x readAt hwoken
    have hwas : s.stage = .woken x readAt := by
      rcases hstage with rfl | ⟨-, rfl⟩
      · exact hwoken
      · exact Stage.eq_of_hear_eq_woken hwoken
    exact (h.safe x readAt hwas).mono (List.subset_cons_self _ _)

theorem ok_store (h : Ok py encoder key s) {now : Time} {other : String} {result : Json} {ttl : ℤ}
    (hstep : s.step py encoder key (.store now other result ttl) = some t) :
    Ok py encoder key t := by
  simp only [State.step] at hstep
  split_ifs at hstep
  obtain ⟨p, hp, rfl⟩ := Option.map_eq_some_iff.mp hstep
  cases hstore : ResultQueries.store now other result ttl s.table with
  | error e => rw [hstore] at hp; cases hp
  | ok q =>
      rw [hstore] at hp
      cases hp
      obtain ⟨id, doc, hother, -, rfl⟩ := ResultQueries.of_store_ok hstore
      by_cases hkey : Uuid.ofText? key = some id
      · simp only [State.afterStore, hkey, hother, if_true, ResultQueries.find?_storeUpsert]
        refine h.store_self hkey now doc ttl ?_
        split_ifs with hchannel
        · exact Or.inr ⟨eq_of_identifier_eq hchannel, rfl⟩
        · exact Or.inl rfl
      · -- the reader's session listens to another channel
        have hchannel : identifier (resultsChannel key) ≠ resultsChannel id.toText := by
          intro heq
          rw [eq_of_identifier_eq heq] at hkey
          exact hkey (Uuid.ofText?_toText id)
        have hsame : s.afterStore key other
            (ResultQueries.storeUpsert now id doc ttl s.table,
              ⟨resultsChannel id.toText, ResultQueries.storePayload doc⟩)
            = { s with table := ResultQueries.storeUpsert now id doc ttl s.table } := by
          rw [State.afterStore, if_neg hchannel]
          cases hself : Uuid.ofText? key with
          | none => rfl
          | some own =>
              rw [hself, Option.some_inj] at hkey
              simp only [hother, Option.some_inj, if_neg (Ne.symm hkey)]
        rw [hsame]
        refine ⟨fun own hown => ?_, h.heard, h.latest, h.safe⟩
        have hne : own ≠ id := by
          rintro rfl
          exact hkey hown
        exact (h.table own hown).store_of_ne hne now doc ttl

/-- **Step lemma.**  A step that takes what the reader can take keeps the
invariant. -/
theorem ok_step {a : Action} (h : Ok py encoder key s) (htakes : TakesReadable encoder s a)
    (hstep : s.step py encoder key a = some t) : Ok py encoder key t := by
  cases a with
  | listen =>
      simp only [State.step] at hstep
      split at hstep
      · cases hstep
        refine ⟨h.table, nofun, ?_, nofun⟩
        rintro (hne | hfetching)
        · exact absurd rfl hne
        · cases hfetching
      · cases hstep
  | get now => exact ok_get h hstep
  | wait count => exact ok_wait h htakes hstep
  | fetch now => exact ok_fetch h hstep
  | tick elapsed =>
      cases hstep
      exact ⟨fun id hid => (h.table id hid).tick elapsed, h.heard, h.latest, h.safe⟩
  | store now other result ttl => exact ok_store h hstep
  | purgeResults now =>
      simp only [State.step] at hstep
      split_ifs at hstep with hnow
      cases hstep
      exact ⟨fun id hid => (h.table id hid).purgeResults hnow, h.heard, h.latest, h.safe⟩

/-- A wait that returns what the reader cannot take breaks it at once, which is
why the condition is exact. -/
theorem takesReadable_of_safe {a : Action} (hstep : s.step py encoder key a = some t)
    (hsafe : Safe py encoder t) : TakesReadable encoder s a := by
  cases a with
  | wait count =>
      simp only [State.step] at hstep
      split at hstep
      · next backlog hwaiting =>
          split_ifs at hstep
          cases hstep
          rw [TakesReadable, hwaiting, Stage.backlog]
          have hnot : afterWait encoder (backlog.take count) ≠ .handed .raised := by
            intro hraised
            rw [hraised] at hsafe
            exact hsafe .raised s.clock rfl
          generalize backlog.take count = notifies at hnot ⊢
          rcases notifies with _ | ⟨payload, _ | ⟨second, rest⟩⟩
          · exact ⟨Nat.zero_le _, nofun⟩
          · refine ⟨le_refl _, fun doc hdoc => ?_⟩
            cases List.mem_singleton.mp hdoc
            rw [Option.isSome_iff_ne_none]
            intro hnone
            rw [afterWait, decoded, hnone] at hnot
            exact hnot rfl
          · have hraises : afterWait encoder (payload :: second :: rest) = .handed .raised := by
              cases payload <;> rfl
            exact absurd hraises hnot
      · cases hstep
  | listen => trivial
  | get now => trivial
  | fetch now => trivial
  | tick elapsed => trivial
  | store now other result ttl => trivial
  | purgeResults now => trivial

end Invariant

/-- **A blocking read survives repeated stores exactly when no wait returns two
notifications**, or one whose payload its encoder cannot decode.  No assumption
is made about the number of STOREs, their order, their deadlines or the spelling
of the key. -/
theorem safe_iff (py : Python V) (encoder : Encoder V) (key : String) (clock : Time)
    (as : List Action) :
    (∀ s ∈ (readerSystem py encoder key clock).visited as, Safe py encoder s) ↔
      ∀ p ∈ (readerSystem py encoder key clock).taken as, TakesReadable encoder p.1 p.2 := by
  constructor
  · intro hsafe p hp
    obtain ⟨-, t, hstep, ht⟩ := StepSystem.exists_step_of_mem_takenFrom hp
    exact takesReadable_of_safe hstep (hsafe t ht)
  · intro htakes s hs
    have hok : Ok py encoder key s :=
      StepSystem.inv_of_mem_visitedFrom (M := readerSystem py encoder key clock)
        (fun _ _ _ hok hC hstep => ok_step hok hC hstep) (ok_empty clock) htakes s hs
    exact hok.safe

/-- Two workers execute the message while the reader waits, and the server
delivers both notifications in one packet. -/
def twiceStoredRun : List Action :=
  [.listen, .get 0, .store 0 (Uuid.small 1).toText (.str "first") 10,
    .store 0 (Uuid.small 1).toText (.str "second") 10, .wait 2]

/-- The reader failed with another exception than `ResultMissing`. -/
def State.hasRaised (s : State V) : Bool :=
  match s.stage with
  | .woken .raised _ => true
  | _ => false

theorem not_safe_twiceStoredRun :
    ¬ ∀ s ∈ (readerSystem datedPython dateEncoder (Uuid.small 1).toText 0).visited twiceStoredRun,
      Safe datedPython dateEncoder s := by
  intro hsafe
  have hrun : ∃ s ∈ (readerSystem datedPython dateEncoder (Uuid.small 1).toText 0).visited
      twiceStoredRun, s.hasRaised = true := by decide +kernel
  obtain ⟨s, hs, hraised⟩ := hrun
  rw [State.hasRaised] at hraised
  split at hraised
  · next readAt hwoken => exact hsafe s hs .raised readAt hwoken
  · cases hraised

end RepeatedStores

end DramatiqPostgres
