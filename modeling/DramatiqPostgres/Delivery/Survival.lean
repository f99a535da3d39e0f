import DramatiqPostgres.Delivery.Held
import DramatiqPostgres.Queue.Doorbell
import DramatiqPostgres.Queue.RowInvariant
import DramatiqPostgres.Queue.Values

/-!
# Messages through the queue table

A message is a Python object.  On its way to a worker it is encoded by dramatiq,
read back by `tidy4json`, written again by psycopg, kept by a `jsonb` column,
printed by CLAIM and decoded by dramatiq.  `PyMessage` is the object, and
`enqueue` and `nack` are the methods of `broker.py` on it; they are those of
`PostgresBroker` and `PostgresConsumer` on the document (`enqueue_eq`,
`nack_eq`).

`messagesSurvive` says which messages are stored, and what a later claim makes
of them.

### Three answers

* **Stored or refused.**  A message is stored if its id is a `uuid`, what is
  made of it holds nothing that a column refuses (`storable`), and its channel
  is short where it is notified; otherwise the call raises and the table is as
  it was (`Accepted`).
* **What comes back** is `normal` of the message: lists for the tuples in it,
  texts for keys, exact decimals for numbers.  It comes back after any other
  statements whatever but an enqueue of the same id, so the law is about runs
  and not about one statement followed by another.
* **As it was**, exactly if it is `Plain`.  The condition is on the arguments
  and options alone, to any depth.

### Numbers, once more

Where Python writes a float with a positive exponent, `jsonb` prints the digits
without one, and Python reads an integer.  The value is the same and its type is
not; so it is not a loss of precision that `Plain` excludes, but a float that is
written that way.  A float of sixteen digits or fewer before its point is kept
as a float.

### What a `nack` stores

The message that is nacked may have gained options since its claim.  They are
stored with it, or the call raises and leaves the row as it was.
-/

namespace DramatiqPostgres

namespace Values

open Pg

/-! ## Messages -/

/-- A `dict`. -/
@[ext] structure PyDict where
  entries : List (Key × Value)
  nodup : (entries.map Prod.fst).Nodup

/-- `d[key] = value`. -/
def PyDict.set (key : Key) (value : Value) (d : PyDict) : PyDict :=
  ⟨Dict.set key value d.entries, Dict.nodup_set d.nodup key value⟩

/-- The `dict` of a JSON object. -/
def PyDict.ofFields (fields : List (String × Json)) : PyDict :=
  ⟨dictOf (loadsFields fields), nodup_dictOf _⟩

theorem map_fst_decimalEntries (es : List (Key × Value)) :
    (decimalEntries es).map Prod.fst = es.map Prod.fst := by
  rw [decimalEntries_eq_map, List.map_map]
  rfl

/-- A `dict` as it comes out of a `jsonb` column. -/
def PyDict.normal (d : PyDict) : PyDict :=
  ⟨decimalEntries (dictOf (listedEntries d.entries)), by
    rw [map_fst_decimalEntries]
    exact nodup_dictOf _⟩

/-- A dramatiq message. -/
@[ext] structure PyMessage where
  queueName : String
  actorName : String
  /-- A tuple. -/
  args : List Value
  kwargs : PyDict
  options : PyDict
  messageId : String
  messageTimestamp : ℤ

namespace PyMessage

/-- `Message.asdict`: the dictionary that is encoded, with the fields in their
order. -/
def asdict (m : PyMessage) : Value :=
  .dict
    [(.str "queue_name", .str m.queueName), (.str "actor_name", .str m.actorName),
      (.str "args", .tuple m.args), (.str "kwargs", .dict m.kwargs.entries),
      (.str "options", .dict m.options.entries), (.str "message_id", .str m.messageId),
      (.str "message_timestamp", .int m.messageTimestamp)]

/-- `tidy4json`: `json.loads(message.encode())`.  What the encoder cannot tell
apart is the same from here on. -/
def tidy4json (m : PyMessage) : Value := loads (dumps m.asdict)

/-- `Json(tidy4json(message))`, as psycopg sends it: the message has been
through a text once already. -/
def payload (m : PyMessage) : Json := dumps m.tidy4json

/-- The message of a document. -/
def ofMessage (m : Message) : PyMessage where
  queueName := m.queueName
  actorName := m.actorName
  args := loadsItems m.args
  kwargs := .ofFields m.kwargs
  options := .ofFields m.options
  messageId := m.messageId
  messageTimestamp := m.messageTimestamp

/-- `Message.decode`. -/
def decode (doc : Json) : Option PyMessage := (Message.ofJson? doc).map ofMessage

/-- The row key of a message. -/
def key? (m : PyMessage) : Option Uuid := Uuid.ofText? m.messageId

end PyMessage

/-! ## The broker and the consumer -/

/-- The message `enqueue` stores. -/
def delayed (dqName : String → String) (millis : ℤ) (delay : Option ℤ) (m : PyMessage) :
    PyMessage :=
  match delay with
  | none => m
  | some d =>
      if d = 0 then m
      else
        { m with
          queueName := dqName m.queueName
          options := m.options.set (.str "eta") (.int (millis + d)) }

/-- `PostgresBroker.enqueue`. -/
def enqueue (dqName : String → String) (notify : Bool) (now : Time) (millis : ℤ) (m : PyMessage)
    (delay : Option ℤ) (q : Queue) : Except PgError (PyMessage × Queue × List Notification) :=
  let m := delayed dqName millis delay m
  match m.key? with
  | none => .error .invalidUuid
  | some id =>
      if notify then
        (Queries.enqueue now m.queueName id m.payload (delay.getD 0) q).map fun p => (m, p.1, p.2)
      else
        (Queries.enqueueQuiet now m.queueName id m.payload (delay.getD 0) q).map fun q' =>
          (m, q', [])

/-- `PostgresConsumer.nack`, on the table. -/
def nack (now : Time) (m : PyMessage) (q : Queue) : Except PgError (Queue × List Notification) :=
  match m.key? with
  | none => .error .invalidUuid
  | some id =>
      Queries.nack now m.payload id m.queueName (PostgresConsumer.ackChannel m.queueName)
        m.messageId q

/-! ## What is stored and what comes back -/

namespace PyMessage

/-- The message whose document is stored. -/
def toMessage (m : PyMessage) : Message where
  queueName := m.queueName
  actorName := m.actorName
  args := dumpsItems (listedItems m.args)
  kwargs := dumpsEntries (dictOf (listedEntries m.kwargs.entries))
  options := dumpsEntries (dictOf (listedEntries m.options.entries))
  messageId := m.messageId
  messageTimestamp := m.messageTimestamp

/-- The message as it comes out of the table: lists for the tuples in it, texts
for keys, exact decimals for numbers. -/
def normal (m : PyMessage) : PyMessage :=
  { m with
    args := decimalItems (listedItems m.args)
    kwargs := m.kwargs.normal
    options := m.options.normal }

/-- What `tidy4json` makes of the message holds no U+0000, and no float that is
not a number or infinite. -/
def storable (m : PyMessage) : Bool :=
  Json.storable m.queueName && Json.storable m.actorName && storableItems (listedItems m.args) &&
    storableEntries (dictOf (listedEntries m.kwargs.entries)) &&
      storableEntries (dictOf (listedEntries m.options.entries)) && Json.storable m.messageId

/-- The arguments and options hold no tuple, no key but texts, and no float that
is written with a positive exponent. -/
def Plain (m : PyMessage) : Prop :=
  PlainItems m.args ∧ PlainEntries m.kwargs.entries ∧ PlainEntries m.options.entries

/-- The value of a message after `listed`. -/
theorem listed_asdict (m : PyMessage) :
    listed m.asdict =
      .dict
        [(.str "queue_name", .str m.queueName), (.str "actor_name", .str m.actorName),
          (.str "args", .list (listedItems m.args)),
          (.str "kwargs", .dict (dictOf (listedEntries m.kwargs.entries))),
          (.str "options", .dict (dictOf (listedEntries m.options.entries))),
          (.str "message_id", .str m.messageId),
          (.str "message_timestamp", .int m.messageTimestamp)] := by
  have hkeys : ["queue_name", "actor_name", "args", "kwargs", "options", "message_id",
      "message_timestamp"].Nodup := by decide
  rw [asdict, listed, dictOf, Dict.ofEntries_of_nodup]
  · simp only [listedEntries, listed, Key.text, List.map_cons, List.map_nil]
  · simpa only [listedEntries, Key.text, List.map_cons, List.map_nil] using hkeys

/-- The payload is the document of `toMessage`. -/
theorem payload_eq (m : PyMessage) : m.payload = m.toMessage.toJson := by
  rw [payload, tidy4json, loads_dumps, listed_asdict]
  simp only [dumps, dumpsEntries, Key.text, toMessage, Message.toJson]

theorem storable_listed_asdict (m : PyMessage) :
    Values.storable (listed m.asdict) = m.storable := by
  have hkeys : Json.storable "queue_name" = true ∧ Json.storable "actor_name" = true ∧
      Json.storable "args" = true ∧ Json.storable "kwargs" = true ∧
      Json.storable "options" = true ∧ Json.storable "message_id" = true ∧
      Json.storable "message_timestamp" = true := by decide
  obtain ⟨h1, h2, h3, h4, h5, h6, h7⟩ := hkeys
  rw [listed_asdict, Values.storable]
  simp only [storableEntries, Values.storable, Key.text, h1, h2, h3, h4, h5, h6, h7,
    Bool.true_and, Bool.and_true]
  rw [PyMessage.storable]
  simp only [Bool.and_assoc]

/-- The document that is kept of the message. -/
def kept (m : PyMessage) : Message where
  queueName := m.queueName
  actorName := m.actorName
  args := dumpsItems (decimalItems (listedItems m.args))
  kwargs := dumpsEntries m.kwargs.normal.entries
  options := dumpsEntries m.options.normal.entries
  messageId := m.messageId
  messageTimestamp := m.messageTimestamp

/-- What the column makes of the payload: the document that is kept, or a
refusal. -/
theorem jsonb_payload (m : PyMessage) :
    m.payload.jsonb = if m.storable then some m.kept.toJson else none := by
  rw [payload, tidy4json, loads_dumps, jsonb_dumps, storable_listed_asdict, listed_asdict]
  simp only [decimal, decimalEntries, dumps, dumpsEntries, Key.text, kept, Message.toJson,
    PyDict.normal]

/-- A `dict` that went through the table is read back as it is. -/
theorem ofFields_normal (d : PyDict) :
    PyDict.ofFields (dumpsEntries d.normal.entries) = d.normal := by
  apply PyDict.ext
  show dictOf (loadsFields (dumpsEntries _)) = _
  rw [loadsFields_dumpsEntries]
  exact dictOf_listedEntries_decimalEntries d.entries

/-- **What is kept is decoded as `normal`.**  From here on the law is about
rows, and no longer about values. -/
theorem decode_of_jsonb {m : PyMessage} {doc : Json} (h : m.payload.jsonb = some doc) :
    decode doc = some m.normal := by
  rw [jsonb_payload] at h
  split_ifs at h with hstorable
  rw [Option.some_inj] at h
  rw [← h, decode, Message.ofJson?_toJson, Option.map_some, Option.some_inj]
  apply PyMessage.ext
  · rfl
  · rfl
  · show loadsItems (dumpsItems (decimalItems (listedItems m.args))) = _
    rw [loadsItems_dumpsItems, listedItems_decimalItems, listedItems_listedItems]
    rfl
  · exact ofFields_normal m.kwargs
  · exact ofFields_normal m.options
  · rfl
  · rfl

theorem PyDict.normal_eq_iff (d : PyDict) : d.normal = d ↔ PlainEntries d.entries := by
  have h := decimal_listed_eq_iff (.dict d.entries)
  rw [listed, decimal, Value.dict.injEq, Values.Plain] at h
  rw [PyDict.ext_iff]
  exact h.trans (and_iff_right d.nodup)

/-- **A message comes back as it was exactly if it is plain.** -/
theorem normal_eq_iff (m : PyMessage) : m.normal = m ↔ m.Plain := by
  rw [PyMessage.ext_iff, PyMessage.Plain, ← decimalItems_listedItems_eq_iff,
    ← PyDict.normal_eq_iff, ← PyDict.normal_eq_iff]
  simp [normal]

end PyMessage

/-! ## The methods on the document -/

theorem setOption_eq_set (key : String) (value : Json) (options : List (String × Json)) :
    Message.setOption key value options = Dict.set key value options := by
  induction options with
  | nil => rfl
  | cons o os ih => rw [Message.setOption, Dict.set, ih]

theorem dumpsEntries_dictOf (es : List (String × Value)) :
    dumpsEntries (dictOf es) = (Dict.ofEntries es).map (Prod.map id dumps) := by
  rw [dictOf]
  induction Dict.ofEntries es with
  | nil => rfl
  | cons e es ih => rw [List.map_cons, dumpsEntries, ih, List.map_cons]; rfl

/-- Setting `eta` and writing the options is writing them and setting `eta`. -/
theorem dumpsEntries_set_eta (d : PyDict) (n : ℤ) :
    dumpsEntries (dictOf (listedEntries (d.set (.str "eta") (.int n)).entries)) =
      Message.setOption "eta" (.int n) (dumpsEntries (dictOf (listedEntries d.entries))) := by
  have hset := Dict.ofEntries_map_set (g := Key.text) (f := listed)
    (fun _ => eq_of_text_eq_eta) d.nodup
    (.int n)
  rw [dumpsEntries_dictOf, dumpsEntries_dictOf, setOption_eq_set, listedEntries_eq_map,
    listedEntries_eq_map]
  show (Dict.ofEntries ((Dict.set _ _ d.entries).map (Prod.map Key.text listed))).map _ = _
  rw [hset, Dict.map_set, listed, dumps]
  rfl

theorem toMessage_delayed (dqName : String → String) (millis : ℤ) (delay : Option ℤ)
    (m : PyMessage) :
    (delayed dqName millis delay m).toMessage =
      PostgresBroker.delayed dqName millis delay m.toMessage := by
  unfold delayed PostgresBroker.delayed
  cases delay with
  | none => rfl
  | some d =>
      simp only
      split_ifs
      · rfl
      · rw [PyMessage.toMessage, dumpsEntries_set_eta]
        rfl

/-- **`enqueue` is `enqueue` of the document.**  So everything that is proved of
the broker on documents holds of messages. -/
theorem enqueue_eq (dqName : String → String) (notify : Bool) (now : Time) (millis : ℤ)
    (m : PyMessage) (delay : Option ℤ) (q : Queue) :
    enqueue dqName notify now millis m delay q =
      (PostgresBroker.enqueue dqName notify now millis m.toMessage delay q).map fun p =>
        (delayed dqName millis delay m, p.2) := by
  have hkey : (delayed dqName millis delay m).key? =
      (PostgresBroker.delayed dqName millis delay m.toMessage).key? := by
    rw [← toMessage_delayed]
    rfl
  have hname : (delayed dqName millis delay m).queueName =
      (PostgresBroker.delayed dqName millis delay m.toMessage).queueName := by
    rw [← toMessage_delayed]
    rfl
  unfold enqueue PostgresBroker.enqueue
  simp only [hkey, hname, PyMessage.payload_eq, toMessage_delayed]
  cases hid : (PostgresBroker.delayed dqName millis delay m.toMessage).key? with
  | none => rfl
  | some id =>
      simp only
      split_ifs
      · cases Queries.enqueue now _ _ _ _ q <;> rfl
      · cases Queries.enqueueQuiet now _ _ _ _ q <;> rfl

/-- **`nack` is `nack` of the document.** -/
theorem nack_eq (now : Time) (m : PyMessage) (q : Queue) :
    nack now m q = PostgresConsumer.nack now m.toMessage q := by
  rw [nack, PostgresConsumer.nack, PyMessage.payload_eq]
  rfl

/-! ## The law -/

/-- What `enqueue` accepts: a message with a `uuid` for its id, that is
storable, and whose channel is short if it is to be notified. -/
structure Accepted (notify : Bool) (m : PyMessage) : Prop where
  key : m.key?.isSome
  storable : m.storable = true
  short : notify = true → m.queueName.utf8ByteSize ≤ 46

/-- **`enqueue` and the claims after it.**  The call is accepted or raises; once
it is accepted, every claim that returns the row returns the message as `normal`
has it, after any other statements but an enqueue of the same id. -/
structure Enqueued (dqName : String → String) (m : PyMessage) : Prop where
  accepted : ∀ notify now millis delay q,
    (∃ p, enqueue dqName notify now millis m delay q = .ok p) ↔
      Accepted notify (delayed dqName millis delay m)
  returned : ∀ notify now millis delay (s : Database) p id,
    enqueue dqName notify now millis m delay s.queue = .ok p → m.key? = some id →
      p.1 = delayed dqName millis delay m ∧
      ∀ as, (∀ x ∈ statementSystem.takenFrom { s with queue := p.2.1 } as,
          x.2.enqueued ≠ some id) →
        ∀ t ∈ statementSystem.visitedFrom { s with queue := p.2.1 } as,
          ∀ now' queueName limit worker locked,
            ∀ r ∈ (Queries.claim now' queueName limit worker locked t.queue).1,
              r.messageId = id → PyMessage.decode r.message = some p.1.normal

/-- The row that NACK would reject. -/
def Rejects (m : PyMessage) (q : Queue) (r : Row) : Prop :=
  ∃ id, m.key? = some id ∧ q.find? id = some r ∧ Queries.nackWhere id m.queueName r = true

/-- **`nack`** of a message, whatever options were added to it. -/
structure Nacked (m : PyMessage) : Prop where
  accepted : ∀ now q, (∃ p, nack now m q = .ok p) ↔
    m.key?.isSome ∧ m.storable = true ∧ ((∃ r, Rejects m q r) → m.queueName.utf8ByteSize ≤ 50)
  stored : ∀ now q p r, nack now m q = .ok p → Rejects m q r →
    ∃ r', p.1.find? r.messageId = some r' ∧ r'.state = .rejected ∧
      PyMessage.decode r'.message = some m.normal

/-- **Storage.** -/
structure Survives (dqName : String → String) (m : PyMessage) : Prop where
  enqueued : Enqueued dqName m
  nacked : Nacked m
  unchanged : m.normal = m ↔ m.Plain

/-! ## `enqueue` -/

theorem exists_jsonb_payload_iff (m : PyMessage) :
    (∃ doc, m.payload.jsonb = some doc) ↔ m.storable = true := by
  rw [PyMessage.jsonb_payload]
  split_ifs with h <;> simp [h]

/-- The call on the message succeeds if the call on the document does. -/
theorem exists_enqueue_iff {dqName : String → String} {notify : Bool} {now : Time} {millis : ℤ}
    {m : PyMessage} {delay : Option ℤ} {q : Queue} :
    (∃ p, enqueue dqName notify now millis m delay q = .ok p) ↔
      (queueAfter
        (PostgresBroker.enqueue dqName notify now millis m.toMessage delay q)).isSome := by
  rw [enqueue_eq]
  cases PostgresBroker.enqueue dqName notify now millis m.toMessage delay q with
  | error e => simp [Except.map, queueAfter]
  | ok p => simp [Except.map, queueAfter]

theorem accepted_false_iff {dqName : String → String} {now : Time} {millis : ℤ}
    {m : PyMessage} {delay : Option ℤ} {q : Queue} :
    (∃ p, enqueue dqName false now millis m delay q = .ok p) ↔
      Accepted false (delayed dqName millis delay m) := by
  have hkey : (delayed dqName millis delay m).key? = m.toMessage.key? := by
    rw [← PostgresBroker.key?_delayed dqName millis delay, ← toMessage_delayed]
    rfl
  rw [exists_enqueue_iff, isSome_queueAfter_enqueueQuiet_iff, ← toMessage_delayed,
    ← PyMessage.payload_eq, exists_jsonb_payload_iff, ← hkey]
  exact ⟨fun h => ⟨h.1, h.2, fun hnotify => by cases hnotify⟩, fun h => ⟨h.key, h.storable⟩⟩

theorem accepted_iff {dqName : String → String} {notify : Bool} {now : Time} {millis : ℤ}
    {m : PyMessage} {delay : Option ℤ} {q : Queue} :
    (∃ p, enqueue dqName notify now millis m delay q = .ok p) ↔
      Accepted notify (delayed dqName millis delay m) := by
  cases notify with
  | false => exact accepted_false_iff
  | true =>
      have hname : (PostgresBroker.delayed dqName millis delay m.toMessage).queueName =
          (delayed dqName millis delay m).queueName := by
        rw [← toMessage_delayed]
        rfl
      by_cases hshort : (delayed dqName millis delay m).queueName.utf8ByteSize ≤ 46
      · rw [exists_enqueue_iff, queueAfter_enqueue_of_short (by rwa [hname]), ← exists_enqueue_iff,
          accepted_false_iff]
        exact ⟨fun h => ⟨h.key, h.storable, fun _ => hshort⟩,
          fun h => ⟨h.key, h.storable, fun hnotify => by cases hnotify⟩⟩
      · refine ⟨fun ⟨p, hp⟩ => ?_, fun h => absurd (h.short rfl) hshort⟩
        -- the statement itself raises on a long name
        rw [enqueue] at hp
        simp only at hp
        cases hid : (delayed dqName millis delay m).key? with
        | none => simp [hid] at hp
        | some id =>
            obtain ⟨e, he⟩ := Queries.enqueue_of_long (not_le.mp hshort) now id
              (delayed dqName millis delay m).payload (delay.getD 0) q
            simp [hid, he, Except.map] at hp

/-! ## Until the row is claimed -/

/-- The row of an id holds a document, unless it was rejected.  A NACK may write
another document, but it rejects the row, and no claim takes it then. -/
def HoldsUnlessRejected (id : Uuid) (doc : Json) (q : Queue) : Prop :=
  ∀ r, q.find? id = some r → r.message = doc ∨ r.state = .rejected

/-- A statement that writes the message of a row rejects it, and a rejected row
stays so. -/
theorem message_eq_or_rejected_of_onRow {s : Database} {a : Statement} {r r' : Row}
    (hr : r ∈ s.queue.table) (h : a.onRow s r = some r') :
    (r'.message = r.message ∧ (r.state = .rejected → r'.state = .rejected)) ∨
      r'.state = .rejected := by
  cases a with
  | enqueue | enqueueQuiet | heartbeat | cleanWorkers => cases h; exact Or.inl ⟨rfl, id⟩
  | ack | purge | flush | deleteByPk | discard =>
      simp only [Statement.onRow] at h
      split_ifs at h
      cases h
      exact Or.inl ⟨rfl, id⟩
  | claim now queueName limit workerId locked =>
      simp only [Statement.onRow, Option.some_inj] at h
      split_ifs at h with hmem
      · have hnext := (Queries.mem_claimNext (Queries.mem_claimNext_of_messageId hr hmem)).2.1
        simp only [Queries.claimWhere, decide_eq_true_eq] at hnext
        rw [← h]
        refine Or.inl ⟨rfl, fun hrejected => ?_⟩
        rw [hnext.2.1] at hrejected
        cases hrejected
      · rw [← h]
        exact Or.inl ⟨rfl, id⟩
  | nack =>
      simp only [Statement.onRow, Option.some_inj] at h
      split_ifs at h
      · rw [← h]; exact Or.inr rfl
      · rw [← h]; exact Or.inl ⟨rfl, id⟩
  | requeue | reap | recover =>
      simp only [Statement.onRow, Option.some_inj] at h
      split_ifs at h with hwhere
      · simp only [Queries.requeueWhere, Queries.reapWhere, Queries.recoverWhere,
          decide_eq_true_eq] at hwhere
        rw [← h]
        refine Or.inl ⟨rfl, fun hrejected => ?_⟩
        simp [hrejected] at hwhere
      · rw [← h]
        exact Or.inl ⟨rfl, id⟩

/-- Every statement keeps that, but an enqueue of the same id. -/
theorem holdsUnlessRejected_exec {id : Uuid} {doc : Json} {s t : Database} {a : Statement}
    (hs : HoldsUnlessRejected id doc s.queue) (ha : a.enqueued ≠ some id)
    (h : s.exec a = some t) : HoldsUnlessRejected id doc t.queue := by
  intro r' hr'
  rcases exec_cases h with ⟨-, halter⟩ | ⟨now, queueName, k, doc', delay, hk, hq⟩
  · obtain ⟨r, hr, hrow⟩ := halter.mem (Table.mem_of_find? hr')
    have hid : r.messageId = id :=
      (kept_onRow hrow).messageId.symm.trans (Queue.messageId_of_find? hr')
    have hfind : s.queue.find? id = some r := hid ▸ Table.find?_key hr
    rcases message_eq_or_rejected_of_onRow hr hrow with ⟨hmessage, hstate⟩ | hrejected
    · rw [hmessage]
      exact (hs r hfind).imp_right hstate
    · exact Or.inr hrejected
  · have hne : id ≠ k := fun heq => ha (by rw [hk, heq])
    rw [hq, Queries.find?_upsert_of_ne hne] at hr'
    exact hs r' hr'

/-- What a claim returns of the row is what the row holds. -/
theorem message_of_claim {id : Uuid} {doc : Json} {q : Queue} (h : HoldsUnlessRejected id doc q)
    {now : Time} {queueName : String} {limit : ℕ} {worker : Uuid} {locked : List Uuid} {r : Row}
    (hr : r ∈ (Queries.claim now queueName limit worker locked q).1) (hid : r.messageId = id) :
    r.message = doc := by
  obtain ⟨r₀, hnext, rfl⟩ := List.mem_map.mp hr
  obtain ⟨hmem, hwhere, -⟩ := Queries.mem_claimNext hnext
  simp only [Queries.claimWhere, decide_eq_true_eq] at hwhere
  have hfind : q.find? id = some r₀ := hid ▸ Table.find?_key hmem
  rcases h r₀ hfind with hdoc | hrejected
  · exact hdoc
  · rw [hwhere.2.1] at hrejected
    cases hrejected

/-- An accepted message is the row's. -/
theorem exists_row_of_enqueue {dqName : String → String} {notify : Bool} {now : Time} {millis : ℤ}
    {m : PyMessage} {delay : Option ℤ} {q : Queue} {p : PyMessage × Queue × List Notification}
    (hp : enqueue dqName notify now millis m delay q = .ok p) {id : Uuid}
    (hid : m.key? = some id) :
    p.1 = delayed dqName millis delay m ∧
      ∃ r, p.2.1.find? id = some r ∧ p.1.payload.jsonb = some r.message := by
  rw [enqueue_eq] at hp
  cases hresult : PostgresBroker.enqueue dqName notify now millis m.toMessage delay q with
  | error e => rw [hresult] at hp; cases hp
  | ok r =>
      rw [hresult] at hp
      cases hp
      obtain ⟨id', doc, hid', hdoc, hq⟩ := PostgresBroker.of_enqueue_ok hresult
      obtain rfl : id = id' := Option.some_inj.mp (hid.symm.trans hid')
      rw [← toMessage_delayed, ← PyMessage.payload_eq] at hdoc
      obtain ⟨row, hrow, -, hmessage, -⟩ := Queries.exists_find?_upsert now
        (PostgresBroker.delayed dqName millis delay m.toMessage).queueName id doc
        (delay.getD 0) q
      refine ⟨rfl, row, ?_, ?_⟩
      · show r.2.1.find? id = some row
        rw [hq, hrow]
      · rw [hmessage]
        exact hdoc

/-- What was accepted is returned: the two halves meet, the row's document and
what it is decoded as. -/
theorem enqueued (dqName : String → String) (m : PyMessage) : Enqueued dqName m := by
  refine ⟨fun _ _ _ _ _ => accepted_iff, ?_⟩
  intro notify now millis delay s p id hp hid
  obtain ⟨hsent, row, hrow, hdoc⟩ := exists_row_of_enqueue hp hid
  refine ⟨hsent, fun as has t ht now' queueName limit worker locked r hr hrid => ?_⟩
  have hstart : HoldsUnlessRejected id row.message p.2.1 := by
    intro r' hr'
    rw [hrow, Option.some_inj] at hr'
    exact Or.inl (hr' ▸ rfl)
  have hholds : HoldsUnlessRejected id row.message t.queue :=
    StepSystem.inv_of_mem_visitedFrom
      (I := fun t : Database => HoldsUnlessRejected id row.message t.queue)
      (C := fun _ a => a.enqueued ≠ some id)
      (fun _ _ _ hs ha hstep => holdsUnlessRejected_exec hs ha hstep) hstart has t ht
  rw [message_of_claim hholds hr hrid]
  exact PyMessage.decode_of_jsonb hdoc

/-! ## `nack` -/

/-- The ack channel of a long name raises for the first row there is. -/
theorem mapM_pgNotify_error {channel : String} (h : 64 ≤ channel.utf8ByteSize)
    (payload : Row → PgText) {rows : List Row} (hne : rows ≠ []) :
    rows.mapM (fun r => pgNotify channel (payload r)) = .error .channelTooLong := by
  cases rows with
  | nil => exact absurd rfl hne
  | cons r rows => rw [List.mapM_cons, pgNotify_channelTooLong h]; rfl

/-- NACK of a document on a row, or on none. -/
theorem exists_nack_iff {now : Time} {message doc : Json} (hdoc : message.jsonb = some doc)
    {id : Uuid} {queueName idText : String} (hid : Uuid.ofText? idText = some id) (q : Queue) :
    (∃ p, Queries.nack now message id queueName (PostgresConsumer.ackChannel queueName) idText q
        = .ok p) ↔
      ((q.table.rows.filter (Queries.nackWhere id queueName)) ≠ [] →
        queueName.utf8ByteSize ≤ 50) := by
  rw [Queries.nack, hdoc]
  by_cases hshort : queueName.utf8ByteSize ≤ 50
  · simp only [Queries.mapM_pgNotify_ok fun _ => Queries.pgNotify_ackChannel hshort hid doc]
    exact ⟨fun _ _ => hshort, fun _ => ⟨_, rfl⟩⟩
  · by_cases hrows : q.table.rows.filter (Queries.nackWhere id queueName) = []
    · simp only [hrows]
      exact ⟨fun _ h => absurd rfl h, fun _ => ⟨_, rfl⟩⟩
    · have hsize := utf8ByteSize_ackChannel queueName
      have hlong : 64 ≤ (PostgresConsumer.ackChannel queueName).utf8ByteSize := by omega
      simp only [mapM_pgNotify_error hlong (fun _ => Queries.donePayload doc idText) hrows]
      refine ⟨fun hok => ?_, fun h => absurd (h hrows) hshort⟩
      obtain ⟨p, hp⟩ := hok
      cases hp

theorem exists_rejects_iff {m : PyMessage} {id : Uuid} (hid : m.key? = some id) (q : Queue) :
    (∃ r, Rejects m q r) ↔ q.table.rows.filter (Queries.nackWhere id m.queueName) ≠ [] := by
  constructor
  · rintro ⟨r, id', hid', hfind, hwhere⟩
    obtain rfl : id = id' := Option.some_inj.mp (hid.symm.trans hid')
    exact List.ne_nil_of_mem (List.mem_filter.mpr ⟨Table.mem_of_find? hfind, hwhere⟩)
  · intro hne
    obtain ⟨r, hr⟩ := List.exists_mem_of_ne_nil _ hne
    obtain ⟨hmem, hwhere⟩ := List.mem_filter.mp hr
    have hrid : r.messageId = id := by
      have h := hwhere
      simp only [Queries.nackWhere, decide_eq_true_eq] at h
      exact h.1
    exact ⟨r, id, hid, hrid ▸ Table.find?_key hmem, hwhere⟩

theorem nacked (m : PyMessage) : Nacked m := by
  refine ⟨fun now q => ?_, fun now q p r hp ⟨id, hid, hfind, hwhere⟩ => ?_⟩
  · rw [nack]
    cases hid : m.key? with
    | none => simp
    | some id =>
        by_cases hstorable : m.storable = true
        · have hdoc := m.jsonb_payload
          rw [if_pos hstorable] at hdoc
          rw [exists_rejects_iff hid]
          simpa [hstorable] using exists_nack_iff hdoc hid q
        · have hdoc := m.jsonb_payload
          rw [if_neg hstorable] at hdoc
          simp [Queries.nack, hdoc, hstorable]
  · rw [nack, hid] at hp
    obtain ⟨doc, hdoc, hq⟩ := Queries.exists_of_nack_ok hp
    have hrid : r.messageId = id := Queue.messageId_of_find? hfind
    refine ⟨Queries.nackSet now doc r, ?_, rfl, PyMessage.decode_of_jsonb hdoc⟩
    rw [hq, Queries.nackUpdate, Queue.find?_updateWhere, hrid, hfind, Option.map_some,
      if_pos hwhere]

/-- **Messages and storage.**  `enqueue` and `nack` accept exactly the messages
that are storable and have short channels; what a claim returns afterwards is
the message with lists for the tuples in it, texts for keys and exact decimals
for numbers; and that is the message itself exactly if it is plain. -/
theorem messagesSurvive (dqName : String → String) (m : PyMessage) : Survives dqName m :=
  ⟨enqueued dqName m, nacked m, m.normal_eq_iff⟩

/-! ## Messages that do not survive -/

/-- A message without options and with one argument. -/
def PyMessage.one (arg : Value) : PyMessage where
  queueName := "default"
  actorName := "actor"
  args := [arg]
  kwargs := ⟨[], List.nodup_nil⟩
  options := ⟨[], List.nodup_nil⟩
  messageId := (Uuid.small 1).toText
  messageTimestamp := 0

/-- The message is stored, and the row returns it. -/
def ComesBack (dqName : String → String) (m : PyMessage) : Prop :=
  ∀ now q, ∃ p, enqueue dqName true now 0 m none q = .ok p ∧
    ∀ id r, m.key? = some id → p.2.1.find? id = some r →
      PyMessage.decode r.message = some m

/-- An argument with U+0000 is not stored, and a float is returned as another
number. -/
theorem not_comesBack :
    ¬ ComesBack (· ++ ".DQ") (.one (.str "\x00")) ∧
      ¬ ComesBack (· ++ ".DQ") (.one (.float (.finite 1 23))) := by
  refine ⟨fun h => ?_, fun h => ?_⟩
  · obtain ⟨p, hp, -⟩ := h 0 Queue.empty
    have haccepted := accepted_iff.mp ⟨p, hp⟩
    exact absurd haccepted.storable (by decide)
  · obtain ⟨p, hp, hback⟩ := h 0 Queue.empty
    obtain ⟨hsent, row, hrow, hdoc⟩ := exists_row_of_enqueue hp (Uuid.ofText?_toText _)
    have hdecode := PyMessage.decode_of_jsonb hdoc
    rw [hback _ row (Uuid.ofText?_toText _) hrow, Option.some_inj, hsent] at hdecode
    have hplain := (PyMessage.normal_eq_iff _).mp hdecode.symm
    exact nomatch hplain.1.1

end Values

end DramatiqPostgres
