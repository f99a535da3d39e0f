import DramatiqPostgres.Queue.Queries

/-!
# Messages, the broker and the consumer's settling calls

`Message` is dramatiq's message; `toJson` is the document its encoder writes for
it and `ofJson?` reads one back.  `PostgresBroker.enqueue` and
`PostgresConsumer.ack`, `nack` and `requeue` are the methods of `broker.py` as
functions of the queue they run on.

`dq_name`, which names the delay queue of a queue, belongs to dramatiq; it is a
parameter.

### A call is one statement

Every method is the conversion of its arguments, which can raise, and one
statement.  A message id that is no `uuid` makes ACK and NACK raise and never
reaches a row.  For the laws about tables `of_enqueue_ok` is all that is needed
of `enqueue`: it is one upsert, whichever of the two statements makes it.  What
is left out here, that the methods are called again when they raise and that the
call may have taken effect nevertheless, is the subject of
`Queue/EnqueueCall.lean`.

### What is kept of a message

`ofJson?_of_jsonb` says that a message that was stored is decoded with the
identity it had: id, queue, actor and time stamp.  `args`, `kwargs` and
`options` come back as `jsonb` keeps them, which is the subject of
`Delivery/Survival.lean`.
-/

namespace DramatiqPostgres

open Pg

/-! ## Messages -/

/-- A dramatiq message.  `options` is a `dict`: its keys are distinct. -/
structure Message where
  queueName : String
  actorName : String
  args : List Json
  kwargs : List (String × Json)
  options : List (String × Json)
  messageId : String
  messageTimestamp : ℤ

namespace Message

/-- `Message.asdict`, as JSON. -/
def toJson (m : Message) : Json :=
  .obj
    [("queue_name", .str m.queueName), ("actor_name", .str m.actorName), ("args", .arr m.args),
      ("kwargs", .obj m.kwargs), ("options", .obj m.options), ("message_id", .str m.messageId),
      ("message_timestamp", .int m.messageTimestamp)]

/-- `Message.decode` of a document whose fields have the types dramatiq gives
them. -/
def ofJson? (j : Json) : Option Message :=
  match j.get? "queue_name", j.get? "actor_name", j.get? "args", j.get? "kwargs",
    j.get? "options", j.get? "message_id", j.get? "message_timestamp" with
  | some (.str queueName), some (.str actorName), some (.arr args), some (.obj kwargs),
    some (.obj options), some (.str messageId), some (.int messageTimestamp) =>
      some ⟨queueName, actorName, args, kwargs, options, messageId, messageTimestamp⟩
  | _, _, _, _, _, _, _ => none

/-- A message without arguments or options. -/
def plain (queueName : String) (id : Uuid) : Message where
  queueName := queueName
  actorName := "actor"
  args := []
  kwargs := []
  options := []
  messageId := id.toText
  messageTimestamp := 0

/-- The row key of a message. -/
def key? (m : Message) : Option Uuid := Uuid.ofText? m.messageId

/-- `options[key] = value`. -/
def setOption (key : String) (value : Json) (options : List (String × Json)) :
    List (String × Json) :=
  match options with
  | [] => [(key, value)]
  | o :: os => if o.1 = key then (key, value) :: os else o :: setOption key value os

/-- The document of a message after `jsonb`, field by field. -/
theorem jsonb_toJson_eq_some_iff {m : Message} {doc : Json} :
    m.toJson.jsonb = some doc ↔
      ∃ args kwargs options,
        Json.jsonbItems m.args = some args ∧ Json.jsonbFields m.kwargs = some kwargs ∧
        Json.jsonbFields m.options = some options ∧ Json.storable m.queueName = true ∧
        Json.storable m.actorName = true ∧ Json.storable m.messageId = true ∧
        doc = ({ m with args := args, kwargs := kwargs, options := options } : Message).toJson := by
  have hkeys : Json.storable "queue_name" = true ∧ Json.storable "actor_name" = true ∧
      Json.storable "args" = true ∧ Json.storable "kwargs" = true ∧
      Json.storable "options" = true ∧ Json.storable "message_id" = true ∧
      Json.storable "message_timestamp" = true := by decide
  obtain ⟨h1, h2, h3, h4, h5, h6, h7⟩ := hkeys
  simp only [toJson, Json.jsonb_obj, Json.jsonbFields_cons, Json.jsonbFields_nil,
    Json.jsonb_str, Json.jsonb_arr, Json.jsonb_int, h1, h2, h3, h4, h5, h6, h7, if_true]
  constructor
  · intro h
    cases hargs : Json.jsonbItems m.args with
    | none => simp [hargs] at h
    | some args =>
        cases hkwargs : Json.jsonbFields m.kwargs with
        | none => simp [hkwargs] at h
        | some kwargs =>
            cases hoptions : Json.jsonbFields m.options with
            | none => simp [hoptions] at h
            | some options =>
                simp only [hargs, hkwargs, hoptions] at h
                split_ifs at h with hq ha hid <;> simp at h
                exact ⟨args, kwargs, options, rfl, rfl, rfl, hq, ha, hid, h.symm⟩
  · rintro ⟨args, kwargs, options, hargs, hkwargs, hoptions, hq, ha, hid, rfl⟩
    simp [hargs, hkwargs, hoptions, hq, ha, hid]

theorem ofJson?_toJson (m : Message) : ofJson? m.toJson = some m := by
  simp [ofJson?, toJson, Json.get?]

/-- **A stored message is decoded with its identity.**  The values of `args`,
`kwargs` and `options` are what `jsonb` makes of them. -/
theorem ofJson?_of_jsonb {m : Message} {doc : Json} (h : m.toJson.jsonb = some doc) :
    ∃ args kwargs options,
      ofJson? doc = some { m with args := args, kwargs := kwargs, options := options } := by
  obtain ⟨args, kwargs, options, -, -, -, -, -, -, rfl⟩ := jsonb_toJson_eq_some_iff.mp h
  exact ⟨args, kwargs, options, ofJson?_toJson _⟩

/-- Setting an integer option keeps the options storable. -/
theorem exists_jsonbFields_setOption {key : String} (hkey : Json.storable key = true) (n : ℤ) :
    ∀ {options docs : List (String × Json)}, Json.jsonbFields options = some docs →
      ∃ docs', Json.jsonbFields (setOption key (.int n) options) = some docs' := by
  intro options
  induction options with
  | nil => intro docs _; exact ⟨[(key, .int n)], by simp [setOption, Json.jsonbFields_cons, hkey]⟩
  | cons o os ih =>
      intro docs h
      rw [Json.jsonbFields_cons] at h
      split_ifs at h with ho
      rw [Option.bind_eq_some_iff] at h
      obtain ⟨value, hvalue, h⟩ := h
      rw [Option.map_eq_some_iff] at h
      obtain ⟨rest, hrest, -⟩ := h
      by_cases hok : o.1 = key
      · exact ⟨(key, .int n) :: rest, by simp [setOption, hok, Json.jsonbFields_cons, hkey, hrest]⟩
      · obtain ⟨rest', hrest'⟩ := ih hrest
        exact ⟨(o.1, value) :: rest', by
          simp [setOption, hok, Json.jsonbFields_cons, ho, hvalue, hrest']⟩

end Message

/-! ## The broker -/

namespace PostgresBroker

/-- The copy `enqueue` stores: with a delay, the message of the delay queue with
its `eta`.  The message the caller holds is not changed. -/
def delayed (dqName : String → String) (millis : ℤ) (delay : Option ℤ) (m : Message) : Message :=
  match delay with
  | none => m
  | some d =>
      if d = 0 then m
      else
        { m with
          queueName := dqName m.queueName
          options := Message.setOption "eta" (.int (millis + d)) m.options }

/-- `PostgresBroker.enqueue`: `notify` chooses the statement, `millis` is
`current_millis()`. -/
def enqueue (dqName : String → String) (notify : Bool) (now : Time) (millis : ℤ) (m : Message)
    (delay : Option ℤ) (q : Queue) : Except PgError (Message × Queue × List Notification) :=
  let m := delayed dqName millis delay m
  match m.key? with
  | none => .error .invalidUuid
  | some id =>
      if notify then
        (Queries.enqueue now m.queueName id m.toJson (delay.getD 0) q).map fun p => (m, p.1, p.2)
      else
        (Queries.enqueueQuiet now m.queueName id m.toJson (delay.getD 0) q).map fun q' =>
          (m, q', [])

@[simp] theorem delayed_none (dqName : String → String) (millis : ℤ) (m : Message) :
    delayed dqName millis none m = m := rfl

theorem messageId_delayed (dqName : String → String) (millis : ℤ) (delay : Option ℤ)
    (m : Message) : (delayed dqName millis delay m).messageId = m.messageId := by
  unfold delayed
  split
  · rfl
  · split <;> rfl

@[simp] theorem key?_delayed (dqName : String → String) (millis : ℤ) (delay : Option ℤ)
    (m : Message) : (delayed dqName millis delay m).key? = m.key? := by
  rw [Message.key?, messageId_delayed, Message.key?]

/-- **A successful `enqueue` is one upsert**, whichever statement makes it, of
the copy that it returns. -/
theorem of_enqueue_ok {dqName : String → String} {notify : Bool} {now : Time} {millis : ℤ}
    {m : Message} {delay : Option ℤ} {q : Queue} {p : Message × Queue × List Notification}
    (h : enqueue dqName notify now millis m delay q = .ok p) :
    ∃ id doc, m.key? = some id ∧ (delayed dqName millis delay m).toJson.jsonb = some doc ∧
      p.2.1 = Queries.upsert now (delayed dqName millis delay m).queueName id doc
        (delay.getD 0) q := by
  unfold enqueue at h
  simp only [key?_delayed] at h
  cases hid : m.key? with
  | none => simp [hid] at h
  | some id =>
      simp only [hid] at h
      split_ifs at h
      · cases hq : Queries.enqueue now _ id _ (delay.getD 0) q with
        | error e => rw [hq] at h; cases h
        | ok r =>
            rw [hq] at h
            cases h
            obtain ⟨doc, hdoc, hr⟩ := Queries.exists_of_enqueue_ok hq
            exact ⟨id, doc, rfl, hdoc, hr⟩
      · cases hq : Queries.enqueueQuiet now _ id _ (delay.getD 0) q with
        | error e => rw [hq] at h; cases h
        | ok r =>
            rw [hq] at h
            cases h
            obtain ⟨doc, hdoc, hr⟩ := Queries.exists_of_enqueueQuiet_ok hq
            exact ⟨id, doc, rfl, hdoc, hr⟩

end PostgresBroker

/-! ## Settling a delivery -/

namespace PostgresConsumer

/-- The channel of `ack` and `nack`. -/
def ackChannel (queueName : String) : String := "dramatiq." ++ queueName ++ ".ack"

/-- `PostgresConsumer.ack`, on the table. -/
def ack (m : Message) (q : Queue) : Except PgError (Queue × List Notification) :=
  match m.key? with
  | none => .error .invalidUuid
  | some id => Queries.ack id m.queueName (ackChannel m.queueName) m.messageId q

/-- `PostgresConsumer.nack`, on the table. -/
def nack (now : Time) (m : Message) (q : Queue) : Except PgError (Queue × List Notification) :=
  match m.key? with
  | none => .error .invalidUuid
  | some id => Queries.nack now m.toJson id m.queueName (ackChannel m.queueName) m.messageId q

/-- `PostgresConsumer.requeue`, on the table. -/
def requeue (now : Time) (messages : List Message) (q : Queue) : Except PgError Queue :=
  if messages.isEmpty then .ok q
  else
    match messages.mapM Message.key? with
    | none => .error .invalidUuid
    | some ids => .ok (Queries.requeue now ids q)

end PostgresConsumer

end DramatiqPostgres
