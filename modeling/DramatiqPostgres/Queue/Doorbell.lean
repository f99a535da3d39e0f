import DramatiqPostgres.Queue.Broker

/-!
# NOTIFY is a doorbell only for short queue names

Three statements ring a channel built around the queue name, and `pg_notify`
undoes the statement when the channel has 64 bytes or more:

* ENQUEUE rings `dramatiq.<queue>.enqueue`, 17 bytes around the name,
  ENQUEUE_QUIET none;
* ACK and NACK ring `dramatiq.<queue>.ack`, 13 bytes around the name.

Payloads are never the problem: ENQUEUE sends the empty one, and ACK and NACK
replace a message of 8000 bytes or more by an object holding its id, whose
spelling is bounded.

So ENQUEUE and ENQUEUE_QUIET agree exactly on the names of at most 46 bytes, and
ACK and NACK are their bare DELETE and UPDATE on those of at most 50.
`Doorbell` asks all of this of a queue *and* of its delay queue, since a retry
with a delay moves a message from one to the other; `doorbell_iff` is the exact
condition.

### What a doorbell is

A notification is a doorbell if nothing depends on it: a consumer that misses it
polls, and a statement that sends it does to the table what it would do
without.  The second half is what this file is about, and it is the one that
fails.  The consumer's side is `Worker/Wakeup.lean`.

### The two directions

`doorbell_of_short` goes statement by statement: each has one lemma for short
names, in which `pg_notify` succeeds and drops out of the equation.  For the
converse one message is enough, an empty one of the queue, enqueued without a
delay and with one: ENQUEUE_QUIET stores it, and ENQUEUE agrees only if the
channel is short (`short_of_agree`).  That names are storable, which is a
hypothesis, is needed in this direction: a name with U+0000 is refused by both.
-/

namespace DramatiqPostgres

open Pg

/-! ## Lengths -/

theorem utf8ByteSize_enqueueChannel (name : String) :
    ("dramatiq." ++ name ++ ".enqueue").utf8ByteSize = name.utf8ByteSize + 17 := by
  have hpre : ("dramatiq." : String).utf8ByteSize = 9 := by decide
  have hpost : (".enqueue" : String).utf8ByteSize = 8 := by decide
  rw [String.utf8ByteSize_append, String.utf8ByteSize_append, hpre, hpost]
  omega

theorem utf8ByteSize_ackChannel (name : String) :
    (PostgresConsumer.ackChannel name).utf8ByteSize = name.utf8ByteSize + 13 := by
  have hpre : ("dramatiq." : String).utf8ByteSize = 9 := by decide
  have hpost : (".ack" : String).utf8ByteSize = 4 := by decide
  rw [PostgresConsumer.ackChannel, String.utf8ByteSize_append, String.utf8ByteSize_append, hpre,
    hpost]
  omega

/-- What ACK and NACK send fits a payload, whatever the message: one that is too
long is replaced by its id, of which every spelling is short. -/
theorem octetLength_donePayload_lt (message : Json) {idText : String} {id : Uuid}
    (hid : Uuid.ofText? idText = some id) :
    (Queries.donePayload message idText).octetLength < 8000 := by
  unfold Queries.donePayload
  split
  · have hlen := Uuid.length_le_of_ofText? hid
    have hstr := Json.octetLength_str_le idText
    have hkey : (Json.quote "message_id").utf8ByteSize = 12 := by decide
    have hobj : (PgText.json (.obj [("message_id", .str idText)])).octetLength
        = 16 + Json.octetLength (.str idText) := by
      have h1 : ("\x7b" : String).utf8ByteSize = 1 := by decide
      have h2 : ("\x7d" : String).utf8ByteSize = 1 := by decide
      have h3 : (": " : String).utf8ByteSize = 2 := by decide
      simp only [PgText.octetLength, Json.octetLength, Json.text, Json.fieldsText,
        String.utf8ByteSize_append, hkey, h1, h2, h3]
      omega
    omega
  · next hsmall =>
      simp only [PgText.octetLength]
      omega

theorem append_ne_empty_of_pos {pre post : String} (h : pre ≠ "") : pre ++ post ≠ "" := by
  intro happ
  have hsize := congrArg String.utf8ByteSize happ
  rw [String.utf8ByteSize_append] at hsize
  simp only [String.utf8ByteSize_empty, Nat.add_eq_zero_iff] at hsize
  exact h (String.utf8ByteSize_eq_zero_iff.mp hsize.1)

/-! ## One spec for each statement -/

namespace Queries

/-- ENQUEUE on a short name is ENQUEUE_QUIET and one notification without a
payload. -/
theorem enqueue_of_short {name : String} (h : name.utf8ByteSize ≤ 46) (now : Time) (id : Uuid)
    (message : Json) (delay : ℤ) (q : Queue) :
    enqueue now name id message delay q
      = (enqueueQuiet now name id message delay q).map fun q' =>
          (q', [⟨"dramatiq." ++ name ++ ".enqueue", .empty⟩]) := by
  have hsize := utf8ByteSize_enqueueChannel name
  have hnotify : pgNotify ("dramatiq." ++ name ++ ".enqueue") .empty
      = .ok ⟨"dramatiq." ++ name ++ ".enqueue", .empty⟩ := by
    refine pgNotify_ok ?_ (by omega) (by simp [PgText.octetLength])
    exact append_ne_empty_of_pos (append_ne_empty_of_pos (by decide))
  rw [enqueue, enqueueQuiet, hnotify]
  cases enqueueValues name message <;> rfl

/-- ENQUEUE on a long name raises. -/
theorem enqueue_of_long {name : String} (h : 46 < name.utf8ByteSize) (now : Time) (id : Uuid)
    (message : Json) (delay : ℤ) (q : Queue) :
    ∃ e, enqueue now name id message delay q = .error e := by
  have hsize := utf8ByteSize_enqueueChannel name
  rw [enqueue, pgNotify_channelTooLong (by omega)]
  cases enqueueValues name message with
  | error e => exact ⟨e, rfl⟩
  | ok doc => exact ⟨.channelTooLong, rfl⟩

/-- Notifications that are all within the limits are all sent. -/
theorem mapM_pgNotify_ok {channel : String} {payload : Row → PgText}
    (h : ∀ r, pgNotify channel (payload r) = .ok ⟨channel, payload r⟩) (rows : List Row) :
    rows.mapM (fun r => pgNotify channel (payload r))
      = .ok (rows.map fun r => ⟨channel, payload r⟩) := by
  induction rows with
  | nil => rfl
  | cons r rows ih => rw [List.mapM_cons, h, ih]; rfl

/-- The notification of ACK and NACK is sent when the name has at most 50
bytes. -/
theorem pgNotify_ackChannel {name idText : String} {id : Uuid} (h : name.utf8ByteSize ≤ 50)
    (hid : Uuid.ofText? idText = some id) (message : Json) :
    pgNotify (PostgresConsumer.ackChannel name) (donePayload message idText)
      = .ok ⟨PostgresConsumer.ackChannel name, donePayload message idText⟩ := by
  have hsize := utf8ByteSize_ackChannel name
  refine pgNotify_ok ?_ (by omega) (octetLength_donePayload_lt message hid)
  exact append_ne_empty_of_pos (append_ne_empty_of_pos (by decide))

end Queries

namespace PostgresConsumer

/-- `ack` without its notification. -/
def ackBare (m : Message) (q : Queue) : Except PgError Queue :=
  match m.key? with
  | none => .error .invalidUuid
  | some id => .ok (Queries.ackDelete id m.queueName q)

/-- `nack` without its notification. -/
def nackBare (now : Time) (m : Message) (q : Queue) : Except PgError Queue :=
  match m.key? with
  | none => .error .invalidUuid
  | some id =>
      match m.toJson.jsonb with
      | none => .error .untranslatable
      | some doc => .ok (Queries.nackUpdate now doc id m.queueName q)

theorem ack_of_short {m : Message} (h : m.queueName.utf8ByteSize ≤ 50) (q : Queue) :
    (ack m q).map Prod.fst = ackBare m q := by
  unfold ack ackBare
  cases hid : m.key? with
  | none => rfl
  | some id =>
      simp only
      rw [Queries.ack,
        Queries.mapM_pgNotify_ok fun r => Queries.pgNotify_ackChannel h hid r.message]
      rfl

theorem nack_of_short {m : Message} (h : m.queueName.utf8ByteSize ≤ 50) (now : Time) (q : Queue) :
    (nack now m q).map Prod.fst = nackBare now m q := by
  unfold nack nackBare
  cases hid : m.key? with
  | none => rfl
  | some id =>
      simp only [Queries.nack]
      cases m.toJson.jsonb with
      | none => rfl
      | some doc =>
          simp only
          rw [Queries.mapM_pgNotify_ok fun _ => Queries.pgNotify_ackChannel h hid doc]
          rfl

end PostgresConsumer

/-! ## The law -/

/-- The queue after a call, `none` when the call raised and so left the queue as
it was. -/
def queueAfter (result : Except PgError (Message × Queue × List Notification)) : Option Queue :=
  match result with
  | .ok (_, q, _) => some q
  | .error _ => none

/-- A message as the queue named `name`, or its delay queue, delivers it. -/
def OnQueueOrDelayQueue (dqName : String → String) (name : String) (m : Message) : Prop :=
  m.queueName = name ∨ m.queueName = dqName name

/-- **NOTIFY carries no weight on the queue `name`.**  For every table, message,
delay and clock: the two enqueue statements leave the same table or both fail,
ACK and NACK do to the table what their bare DELETE and UPDATE do, and a message
the queue accepted can be enqueued again with any delay, acked and nacked, on
the queue and on its delay queue. -/
structure Doorbell (dqName : String → String) (name : String) : Prop where
  enqueue_agree : ∀ (q : Queue) (now : Time) (millis : ℤ) (m : Message) (delay : Option ℤ),
    m.queueName = name →
      queueAfter (PostgresBroker.enqueue dqName true now millis m delay q)
        = queueAfter (PostgresBroker.enqueue dqName false now millis m delay q)
  ack_bare : ∀ (q : Queue) (m : Message), OnQueueOrDelayQueue dqName name m →
    (PostgresConsumer.ack m q).map Prod.fst = PostgresConsumer.ackBare m q
  nack_bare : ∀ (q : Queue) (now : Time) (m : Message), OnQueueOrDelayQueue dqName name m →
    (PostgresConsumer.nack now m q).map Prod.fst = PostgresConsumer.nackBare now m q
  accepted : ∀ (q : Queue) (now : Time) (millis : ℤ) (m : Message), m.queueName = name →
    (queueAfter (PostgresBroker.enqueue dqName true now millis m none q)).isSome →
      ∀ (q' : Queue) (now' : Time) (millis' : ℤ) (delay : Option ℤ),
        (queueAfter (PostgresBroker.enqueue dqName true now' millis' m delay q')).isSome ∧
        (∃ r, PostgresConsumer.ack (PostgresBroker.delayed dqName millis' delay m) q' = .ok r) ∧
        ∃ r, PostgresConsumer.nack now' (PostgresBroker.delayed dqName millis' delay m) q' = .ok r

section Law

variable {dqName : String → String} {name : String}

theorem onQueueOrDelayQueue_delayed (dqName : String → String) {m : Message}
    (h : m.queueName = name) (millis : ℤ) (delay : Option ℤ) :
    OnQueueOrDelayQueue dqName name (PostgresBroker.delayed dqName millis delay m) := by
  unfold PostgresBroker.delayed OnQueueOrDelayQueue
  cases delay with
  | none => exact Or.inl h
  | some d =>
      simp only
      split
      · exact Or.inl h
      · exact Or.inr (by rw [h])

/-- The two statements agree on every message whose stored queue name is
short. -/
theorem queueAfter_enqueue_of_short {m : Message} {delay : Option ℤ} {millis : ℤ}
    (h : (PostgresBroker.delayed dqName millis delay m).queueName.utf8ByteSize ≤ 46)
    (q : Queue) (now : Time) :
    queueAfter (PostgresBroker.enqueue dqName true now millis m delay q)
      = queueAfter (PostgresBroker.enqueue dqName false now millis m delay q) := by
  unfold PostgresBroker.enqueue
  simp only
  cases (PostgresBroker.delayed dqName millis delay m).key? with
  | none => rfl
  | some id =>
      simp only [if_true, Bool.false_eq_true, if_false]
      rw [Queries.enqueue_of_short h]
      cases Queries.enqueueQuiet now _ id _ _ q <;> rfl

/-- ENQUEUE_QUIET succeeds exactly on storable messages with a `uuid` for an
id. -/
theorem isSome_queueAfter_enqueueQuiet_iff {m : Message} {delay : Option ℤ} {millis : ℤ}
    (q : Queue) (now : Time) :
    (queueAfter (PostgresBroker.enqueue dqName false now millis m delay q)).isSome ↔
      m.key?.isSome ∧
        ∃ doc, (PostgresBroker.delayed dqName millis delay m).toJson.jsonb = some doc := by
  unfold PostgresBroker.enqueue
  simp only [PostgresBroker.key?_delayed, Bool.false_eq_true, if_false]
  cases m.key? with
  | none => simp [queueAfter]
  | some id =>
      simp only [Option.isSome_some, true_and, Queries.enqueueQuiet, Queries.enqueueValues]
      cases hdoc : (PostgresBroker.delayed dqName millis delay m).toJson.jsonb with
      | none => split_ifs <;> simp [queueAfter, Except.map, bind, Except.bind]
      | some doc =>
          obtain ⟨_, _, _, -, -, -, hname, -⟩ := Message.jsonb_toJson_eq_some_iff.mp hdoc
          simp [hname, queueAfter, Except.map, bind, Except.bind, pure, Except.pure]

/-- A storable message stays storable when it is moved to a delay queue with a
storable name. -/
theorem exists_jsonb_delayed (dqName : String → String) {m : Message} {doc : Json}
    (hdoc : m.toJson.jsonb = some doc) (hdq : Json.storable (dqName m.queueName) = true)
    (millis : ℤ) (delay : Option ℤ) :
    ∃ doc', (PostgresBroker.delayed dqName millis delay m).toJson.jsonb = some doc' := by
  unfold PostgresBroker.delayed
  cases delay with
  | none => exact ⟨doc, hdoc⟩
  | some d =>
      simp only
      split
      · exact ⟨doc, hdoc⟩
      · obtain ⟨args, kwargs, options, hargs, hkwargs, hoptions, -, hactor, hid, -⟩ :=
          Message.jsonb_toJson_eq_some_iff.mp hdoc
        obtain ⟨options', hoptions'⟩ := Message.exists_jsonbFields_setOption
          (show Json.storable "eta" = true by decide) (millis + d) hoptions
        exact ⟨_, Message.jsonb_toJson_eq_some_iff.mpr
          ⟨args, kwargs, options', hargs, hkwargs, hoptions', hdq, hactor, hid, rfl⟩⟩

/-- ACK of a short queue name succeeds on every message with a `uuid` for an
id. -/
theorem exists_ack_of_short {m : Message} (hkey : m.key?.isSome)
    (h : m.queueName.utf8ByteSize ≤ 50) (q : Queue) : ∃ r, PostgresConsumer.ack m q = .ok r := by
  have hbare := PostgresConsumer.ack_of_short h q
  obtain ⟨id, hid⟩ := Option.isSome_iff_exists.mp hkey
  rw [PostgresConsumer.ackBare, hid] at hbare
  cases hack : PostgresConsumer.ack m q with
  | ok r => exact ⟨r, rfl⟩
  | error e => rw [hack] at hbare; cases hbare

/-- NACK of a short queue name succeeds on every storable message. -/
theorem exists_nack_of_short {m : Message} {doc : Json} (hkey : m.key?.isSome)
    (hdoc : m.toJson.jsonb = some doc) (h : m.queueName.utf8ByteSize ≤ 50) (now : Time)
    (q : Queue) : ∃ r, PostgresConsumer.nack now m q = .ok r := by
  have hbare := PostgresConsumer.nack_of_short h now q
  obtain ⟨id, hid⟩ := Option.isSome_iff_exists.mp hkey
  simp only [PostgresConsumer.nackBare, hid, hdoc] at hbare
  cases hnack : PostgresConsumer.nack now m q with
  | ok r => exact ⟨r, rfl⟩
  | error e => rw [hnack] at hbare; cases hbare

/-- Names of at most 46 bytes are enough. -/
theorem doorbell_of_short (hdq : Json.storable (dqName name) = true)
    (hshort : name.utf8ByteSize ≤ 46) (hdqShort : (dqName name).utf8ByteSize ≤ 46) :
    Doorbell dqName name := by
  have hsize : ∀ {m : Message}, OnQueueOrDelayQueue dqName name m →
      m.queueName.utf8ByteSize ≤ 46 := by
    rintro m (hm | hm) <;> rw [hm] <;> assumption
  refine ⟨?_, ?_, ?_, ?_⟩
  · intro q now millis m delay hm
    have hon := onQueueOrDelayQueue_delayed dqName hm millis delay
    exact queueAfter_enqueue_of_short (hsize hon) q now
  · intro q m hm
    exact PostgresConsumer.ack_of_short ((hsize hm).trans (by omega)) q
  · intro q now m hm
    exact PostgresConsumer.nack_of_short ((hsize hm).trans (by omega)) now q
  · intro q now millis m hm haccepted q' now' millis' delay
    rw [queueAfter_enqueue_of_short (hsize (onQueueOrDelayQueue_delayed dqName hm millis none)),
      isSome_queueAfter_enqueueQuiet_iff] at haccepted
    obtain ⟨hkey, doc, hdoc⟩ := haccepted
    rw [PostgresBroker.delayed_none] at hdoc
    have hon := onQueueOrDelayQueue_delayed dqName hm millis' delay
    have hkey' : (PostgresBroker.delayed dqName millis' delay m).key?.isSome := by
      rwa [PostgresBroker.key?_delayed]
    obtain ⟨doc', hdoc'⟩ :=
      exists_jsonb_delayed dqName hdoc (by rwa [hm]) millis' delay
    refine ⟨?_, ?_, ?_⟩
    · rw [queueAfter_enqueue_of_short (hsize hon), isSome_queueAfter_enqueueQuiet_iff]
      exact ⟨hkey, doc', hdoc'⟩
    · exact exists_ack_of_short hkey' ((hsize hon).trans (by omega)) q'
    · exact exists_nack_of_short hkey' hdoc' ((hsize hon).trans (by omega)) now' q'

theorem exists_jsonb_plain (hname : Json.storable name = true) :
    ∃ doc, (Message.plain name (Uuid.small 1)).toJson.jsonb = some doc := by
  refine ⟨_, Message.jsonb_toJson_eq_some_iff.mpr
    ⟨[], [], [], by simp [Message.plain, Json.jsonbItems], by simp [Message.plain],
      by simp [Message.plain], hname, ?_, ?_, rfl⟩⟩
  · show Json.storable "actor" = true
    decide
  · show Json.storable (Uuid.small 1).toText = true
    decide

theorem key?_plain (name : String) :
    (Message.plain name (Uuid.small 1)).key? = some (Uuid.small 1) :=
  Uuid.ofText?_toText _

/-- An agreeing queue has a short name under every delay. -/
theorem short_of_agree (h : Doorbell dqName name) (hname : Json.storable name = true)
    (hdq : Json.storable (dqName name) = true) (delay : Option ℤ) :
    (PostgresBroker.delayed dqName 0 delay
      (Message.plain name (Uuid.small 1))).queueName.utf8ByteSize ≤ 46 := by
  by_contra hlong
  obtain ⟨doc, hdoc⟩ := exists_jsonb_plain hname
  have hquiet : (queueAfter (PostgresBroker.enqueue dqName false 0 0
      (Message.plain name (Uuid.small 1)) delay Queue.empty)).isSome := by
    rw [isSome_queueAfter_enqueueQuiet_iff]
    exact ⟨by rw [key?_plain]; rfl, exists_jsonb_delayed dqName hdoc hdq 0 delay⟩
  rw [← h.enqueue_agree _ _ _ _ _ rfl] at hquiet
  unfold PostgresBroker.enqueue at hquiet
  simp only [PostgresBroker.key?_delayed, key?_plain, if_true] at hquiet
  obtain ⟨e, he⟩ := Queries.enqueue_of_long (not_le.mp hlong) 0 (Uuid.small 1)
    (PostgresBroker.delayed dqName 0 delay (Message.plain name (Uuid.small 1))).toJson
    (delay.getD 0) Queue.empty
  rw [he] at hquiet
  simp [queueAfter, Except.map] at hquiet

/-- **NOTIFY is only a doorbell exactly on the queues whose name, and whose
delay queue's name, have at most 46 bytes** — with `.DQ` appended, the base
names of at most 43 bytes.  The bound is the one of ENQUEUE; that of ACK and
NACK is wider. -/
theorem doorbell_iff (hname : Json.storable name = true)
    (hdq : Json.storable (dqName name) = true) :
    Doorbell dqName name ↔ name.utf8ByteSize ≤ 46 ∧ (dqName name).utf8ByteSize ≤ 46 := by
  constructor
  · intro h
    exact ⟨short_of_agree h hname hdq none, short_of_agree h hname hdq (some 1)⟩
  · rintro ⟨hshort, hdqShort⟩
    exact doorbell_of_short hdq hshort hdqShort

end Law

/-- The condition holds of the queue `default`. -/
theorem doorbell_iff_default :
    Doorbell (· ++ ".DQ") "default" ↔
      ("default" : String).utf8ByteSize ≤ 46 ∧ ("default" ++ ".DQ" : String).utf8ByteSize ≤ 46 :=
  doorbell_iff (by decide) (by decide)

/-- A name of 44 bytes: `send` works, and the first retry with a delay
raises. -/
theorem not_doorbell_of_44 : ¬ Doorbell (· ++ ".DQ") (String.ofList (List.replicate 44 'q')) := by
  intro h
  have hshort := short_of_agree h (by decide) (by decide) (some 1)
  exact absurd hshort (by decide)

end DramatiqPostgres
