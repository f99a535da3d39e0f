import DramatiqPostgres.Results.BlockingRead
import DramatiqPostgres.Utils.Sessions

/-!
# Results on pooled connections

`get_result` listens to the channel of its message on a connection of the pool,
and takes the notification it is woken by for the result: it looks at the
payload, not at the channel.  What it returns is right as long as the connection
listens to that one channel and its backlog holds nothing older, and that is
left to `unlisten_all` of whoever used the connection before.

`poolSystem` is any number of `get_result` calls over a shared pool, one
statement at a time, with other users of the pool, STOREs, purges and any other
notifications in between.

### Two layers

Every step is at most one step of `Sessions.sessionSystem`, so the invariant of
the connections is that of `Utils.Sessions`, used as it stands: a connection in
the pool is lost or as good as new, and one in a listening transaction listens
to that transaction's channel and has nothing of another one in its backlog.
The calls add `State.Ok`: which connection belongs to which call, to which
channel, and that whatever is in a backlog was really sent.

A step of the system has two parts accordingly, `dataStep` and `sessionAction?`,
and so have the proofs: what an action does to the calls is inverted once
(`stageStep_of_nextStage`, `callStep_of_dataStep`), and the connections are left
to the layer below.

### What "its own result" means

Anybody may ring a channel of any name with any payload, and `get_result` would
return that payload too.  So the law names two sources: a document that was
stored for the message, or one that some other session sent to the message's own
channel (`StoredFor`).  The histories `stored` and `foreign` of the state say
what has been stored and sent.

### Which hypothesis is load-bearing

`unlisten_all` is `UNLISTEN *`, a drain of the backlog, and
`autocommit = False`, in a `try` that swallows the errors of
`DISCONNECT_ERRORS`.  Where the connection is gone that does no harm: the pool
throws it away.  But `OperationalError` is one of them, and so is its subclass
`QueryCanceled`, after which the connection is open, still listening, and back
in the pool.  `CleansUp` excludes exactly these steps, and nothing else; the
process may lose connections, statements may raise, and waits may time out.

`NoCrossTalk` is the law, and `noCrossTalk_of_cleansUp` proves it for every run
in which no error is swallowed by `unlisten_all` on a connection that stays
open.  In other runs it fails (`not_noCrossTalk_cancelledRun`): one cancelled
UNLISTEN makes a later call return the result of another message.  The same run
with the connection lost is harmless (`noCrossTalk_lostRun`).
-/

namespace DramatiqPostgres

namespace CrossTalk

open Pg Sessions

open BlockingRead (Outcome)

universe u v

/-! ## Calls -/

/-- What the body of the listening transaction ends with: an outcome, or the
notifications of its wait, which are looked at after the connection is back in
the pool. -/
inductive Pending where
  | outcome (outcome : Outcome)
  | notifies (notifies : List Notification)

/-- Where a call of `get_result` stands.  A stage with a connection names it. -/
inductive Stage (κ : Type v) where
  | called
  /-- In the listening transaction, up to GET. -/
  | first (c : κ)
  | waiting (c : κ)
  | leaving (c : κ) (pending : Pending)
  /-- The notification has no payload. -/
  | refetch
  | second (c : κ)
  | settled (c : κ) (outcome : Outcome)
  | ended (outcome : Outcome)

/-- The connection of a call. -/
def Stage.conn? {κ : Type v} : Stage κ → Option κ
  | first c | waiting c | leaving c _ | second c | settled c _ => some c
  | called | refetch | ended _ => none

/-- What the call will end with, once it is known; the clean-up of the
connection is still to come. -/
def Stage.outcome? {κ : Type v} : Stage κ → Option Outcome
  | leaving _ (.outcome o) | settled _ o | ended o => some o
  | _ => none

/-- The notifications the call has received, and not looked at. -/
def Stage.notifies? {κ : Type v} : Stage κ → Option (List Notification)
  | leaving _ (.notifies notifies) => some notifies
  | _ => none

/-- A call of `get_result`, for the message with this key.  The key is any text,
as `build_message_key` gives it. -/
structure Call (κ : Type v) where
  key : String
  block : Bool
  stage : Stage κ

/-- The document a call has returned. -/
def Call.returned? {κ : Type v} (call : Call κ) : Option Json :=
  match call.stage with
  | .ended (.returned doc) => some doc
  | _ => none

/-- A step of a call: one for each statement of `get_result` and of
`transaction`, and one for each way a statement can fail. -/
inductive CallAction (κ : Type v) where
  | getconn (c : κ)
  | beginListen
  | listen
  | listenRaises (lost : Bool)
  | get (now : Time)
  | wait (count : ℕ)
  /-- A statement raises, or the pool has no connection. -/
  | raise
  | leave
  | cleanUp (cleanUp : CleanUp)
  | putconn

/-- A step of a call, of another user of the pool, of another session or of the
network. -/
inductive Action (κ : Type v) (π : Type u) where
  | start (p : π) (key : String) (block : Bool)
  | call (p : π) (action : CallAction κ)
  | otherGetconn (c : κ)
  | otherUse (c : κ) (action : UseAction)
  | store (now : Time) (key : String) (result : Json) (ttl : ℤ)
  | purgeResults (now : Time)
  /-- A notification that STORE does not send: any channel, any payload. -/
  | notify (n : Notification)
  | lose (c : κ)

/-- The pool, the calls, and the result table.  A connection is used by a call,
or by another user, `none`, which does not look at the notifications of its
own. -/
structure State (κ : Type v) (π : Type u) where
  conns : κ → Conn (Option π)
  calls : π → Option (Call κ)
  table : ResultTable
  /-- History: the results STOREd, by message. -/
  stored : List (Uuid × Json)
  /-- History: the notifications that STORE has not sent. -/
  foreign : List Notification

/-- After the first transaction: the outcome stands, or the notifications
decide.  The channel of a notification is not looked at, which is what the
module is about. -/
def Pending.next {κ : Type v} : Pending → Stage κ
  | outcome o => .ended o
  | notifies [] => .ended .resultTimeout
  | notifies [n] =>
      match n.payload with
      | .empty => .refetch
      | .json doc => .ended (.returned doc)
  -- `(notify,) = notifies`
  | notifies (_ :: _ :: _) => .ended .raised

/-- A read of the table ends a call with its result, with `ResultMissing`, or
with the error of the statement. -/
def outcomeOf : Except PgError (Option Json) → Outcome
  | .ok (some doc) => .returned doc
  | .ok none => .resultMissing
  | .error _ => .raised

/-- What GET in the listening transaction leads to: a blocking call that finds
nothing waits, and every other one leaves. -/
def afterGet {κ : Type v} (c : κ) (block : Bool) (result : Except PgError (Option Json)) :
    Stage κ :=
  match result, block with
  | .ok none, true => .waiting c
  | result, _ => .leaving c (.outcome (outcomeOf result))

variable {κ : Type v} {π : Type u} [DecidableEq κ] [DecidableEq π]

/-- The step of a call on its connection, as `Utils.Sessions` has it.  Reading
the table and raising leave the session alone. -/
def Call.useAction? (call : Call κ) : CallAction κ → Option UseAction
  | .beginListen => some (.beginListen (resultsChannel call.key))
  | .listen => some .listen
  | .listenRaises lost => some (.listenRaises lost)
  | .wait count => some (.wait count)
  | .leave => some .leave
  | .cleanUp cleanUp => some (.cleanUp cleanUp)
  | .putconn => some .putconn
  | .getconn _ | .get _ | .raise => none

/-- Whether the user of a connection is in the body of a listening
transaction. -/
def isListening (x : Conn (Option π)) : Bool :=
  match x.use with
  | some (_, .listening _) => true
  | _ => false

/-- Whether LISTEN comes next.  The clean-up is deferred just before it, so an
error of the LISTEN itself has its own step, `listenRaises`. -/
def isOpened (x : Conn (Option π)) : Bool :=
  match x.use with
  | some (_, .opened _) => true
  | _ => false

/-- The stage of a call after a step of it; `none` where the call is not at that
point. -/
def State.nextStage (s : State κ π) (call : Call κ) : CallAction κ → Option (Stage κ)
  | .getconn c =>
      match call.stage with
      | .called => some (.first c)
      | .refetch => some (.second c)
      | _ => none
  | .beginListen | .listen =>
      match call.stage with
      | .first c => some (.first c)
      | _ => none
  | .listenRaises _ =>
      match call.stage with
      | .first c => some (.leaving c (.outcome .raised))
      | _ => none
  | .get now =>
      match call.stage with
      | .first c =>
          if isListening (s.conns c) then
            some (afterGet c call.block (ResultQueries.get now call.key s.table))
          else none
      | .second c => some (.settled c (outcomeOf (ResultQueries.get now call.key s.table)))
      | _ => none
  | .wait count =>
      match call.stage with
      | .waiting c => some (.leaving c (.notifies ((s.conns c).session.backlog.take count)))
      | _ => none
  | .raise =>
      match call.stage with
      | .called | .refetch => some (.ended .raised)
      | .first c | .waiting c =>
          if isOpened (s.conns c) then none else some (.leaving c (.outcome .raised))
      | .second c => some (.settled c .raised)
      | _ => none
  | .leave | .cleanUp _ =>
      match call.stage with
      | .leaving c pending => some (.leaving c pending)
      | _ => none
  | .putconn =>
      match call.stage with
      | .leaving _ pending => some pending.next
      | .settled _ outcome => some (.ended outcome)
      | _ => none

/-- The step of the sessions an action makes, if any: a STORE sends the
notification it returns. -/
def State.sessionAction? (s : State κ π) : Action κ π → Option (Sessions.Action κ (Option π))
  | .call p (.getconn c) => some (.getconn (some p) c)
  | .call p action =>
      (s.calls p).bind fun call => call.stage.conn?.bind fun c =>
        (call.useAction? action).map fun use => .use (some p) c use
  | .otherGetconn c => some (.getconn none c)
  | .otherUse c action => some (.use none c action)
  | .store now key result ttl =>
      (ResultQueries.store now key result ttl s.table).toOption.map fun p => .notify p.2
  | .notify n => some (.notify n)
  | .lose c => some (.lose c)
  | .start .. | .purgeResults _ => none

/-- What an action does besides, to the calls, the table and the histories.  It
does not touch the connections. -/
def State.dataStep (s : State κ π) : Action κ π → Option (State κ π)
  | .start p key block =>
      match s.calls p with
      | none | some ⟨_, _, .ended _⟩ =>
          some { s with calls := Function.update s.calls p (some ⟨key, block, .called⟩) }
      | _ => none
  | .call p action =>
      (s.calls p).bind fun call => (s.nextStage call action).map fun stage =>
        { s with calls := Function.update s.calls p (some { call with stage := stage }) }
  | .store now key result ttl =>
      (ResultQueries.store now key result ttl s.table).toOption.map fun p =>
        { s with
          table := p.1
          stored := s.stored ++ ((Uuid.ofText? key).bind fun id =>
            (p.1.find? id).map fun r => (id, r.result)).toList }
  | .purgeResults now => some { s with table := ResultQueries.purgeResults now s.table }
  | .notify n => some { s with foreign := s.foreign ++ [n] }
  | .otherGetconn _ | .otherUse _ _ | .lose _ => some s

/-- The state after an action: both parts, or none.  A part that is not possible
makes the action impossible. -/
def State.step (s : State κ π) (a : Action κ π) : Option (State κ π) :=
  (s.dataStep a).bind fun t =>
    match s.sessionAction? a with
    | none => some t
    | some action => (Sessions.step s.conns action).map fun conns => { t with conns := conns }

/-- A new pool, before any call: every connection is fresh and nobody has it. -/
def State.empty (κ : Type v) (π : Type u) : State κ π :=
  ⟨fun _ => ⟨.fresh, none⟩, fun _ => none, Table.empty, [], []⟩

/-- Every run of calls over a shared pool.  The number of connections and of
calls is not bounded. -/
def poolSystem (κ : Type v) (π : Type u) [DecidableEq κ] [DecidableEq π] :
    StepSystem (State κ π) (Action κ π) :=
  ⟨State.empty κ π, State.step⟩

/-! ## The law -/

/-- The document was stored for the message with this key, or sent to its
channel by a session that did not store it. -/
def State.StoredFor (s : State κ π) (key : String) (doc : Json) : Prop :=
  (∃ id, Uuid.ofText? key = some id ∧ (id, doc) ∈ s.stored) ∨
    (⟨identifier (resultsChannel key), .json doc⟩ : Notification) ∈ s.foreign

/-- **No cross-talk**, along one run: what is in the pool is clean, what is
waited for is of the right channel, and what is returned is of the right
message. -/
structure NoCrossTalk (as : List (Action κ π)) : Prop where
  /-- A connection in the pool is lost, or as good as new. -/
  clean : ∀ s ∈ (poolSystem κ π).visited as, ∀ c, (s.conns c).use = none →
    (s.conns c).session.Clean
  /-- `wait_for_notifies` returns notifications of the channel of its own
  transaction. -/
  ownChannel : ∀ p ∈ (poolSystem κ π).taken as, ∀ user c count channel,
    p.1.sessionAction? p.2 = some (.use user c (.wait count)) →
      (p.1.conns c).use = some (user, .listening channel) →
        ∀ n ∈ (p.1.conns c).session.backlog.take count, n.channel = identifier channel
  /-- `get_result` returns a value stored for its own message. -/
  ownValue : ∀ s ∈ (poolSystem κ π).visited as, ∀ p call doc, s.calls p = some call →
    call.returned? = some doc → s.StoredFor call.key doc

/-- The step swallows no error of UNLISTEN or the drain on a connection that
stays open.  Every other step cleans up, in particular one that loses the
connection. -/
def State.CleansUp (s : State κ π) (a : Action κ π) : Prop :=
  ∀ action ∈ s.sessionAction? a, Sessions.CleansUp s.conns action

instance (s : State κ π) (a : Action κ π) : Decidable (s.CleansUp a) := by
  unfold State.CleansUp; infer_instance

/-! ## The invariant -/

/-- The notification is that of a STORE, or not of STORE at all; either way a
history has it. -/
def State.Told (s : State κ π) (n : Notification) : Prop :=
  n ∈ s.foreign ∨ ∃ id doc, (id, doc) ∈ s.stored ∧
    n = ⟨resultsChannel id.toText, ResultQueries.storePayload doc⟩

/-- What a call has in hand is its own: an outcome it will end with, and
notifications it has yet to look at. -/
structure State.StageOk (s : State κ π) (call : Call κ) : Prop where
  outcome : ∀ doc, call.stage.outcome? = some (.returned doc) → s.StoredFor call.key doc
  notifies : ∀ ns, call.stage.notifies? = some ns → ∀ n ∈ ns,
    n.channel = identifier (resultsChannel call.key) ∧ s.Told n

/-- Every row holds a result that was stored for it. -/
def State.TableOk (s : State κ π) : Prop :=
  ∀ id r, s.table.find? id = some r → (id, r.result) ∈ s.stored

/-- The invariant of `poolSystem`.  The first clause is the layer below; `told`
and `uses` connect its backlogs and users with the calls. -/
structure State.Ok (s : State κ π) : Prop where
  conns : ∀ c, (s.conns c).Ok
  table : s.TableOk
  told : ∀ c, ∀ n ∈ (s.conns c).session.backlog, s.Told n
  /-- A call uses its one connection, to listen to its own channel. -/
  uses : ∀ c p phase, (s.conns c).use = some (some p, phase) → ∃ call, s.calls p = some call ∧
    call.stage.conn? = some c ∧
      ∀ channel, phase.channel? = some channel → channel = resultsChannel call.key
  calls : ∀ p call, s.calls p = some call → s.StageOk call

/-! ### Histories -/

/-- The histories of `t` go on from those of `s`.  What has been told stays
told, so the clauses of a call that does not act are kept by monotonicity
alone. -/
structure State.Grows (s t : State κ π) : Prop where
  stored : s.stored ⊆ t.stored
  foreign : s.foreign ⊆ t.foreign

variable {s t d : State κ π} {a : Action κ π}

section Histories

omit [DecidableEq κ] [DecidableEq π]

theorem State.StoredFor.grow {key : String} {doc : Json} (h : s.StoredFor key doc)
    (hgrows : s.Grows t) : t.StoredFor key doc := by
  rcases h with ⟨id, hid, hstored⟩ | hforeign
  · exact Or.inl ⟨id, hid, hgrows.stored hstored⟩
  · exact Or.inr (hgrows.foreign hforeign)

theorem State.Told.grow {n : Notification} (h : s.Told n) (hgrows : s.Grows t) : t.Told n := by
  rcases h with hforeign | ⟨id, doc, hstored, hn⟩
  · exact Or.inl (hgrows.foreign hforeign)
  · exact Or.inr ⟨id, doc, hgrows.stored hstored, hn⟩

theorem State.StageOk.grow {call : Call κ} (h : s.StageOk call) (hgrows : s.Grows t) :
    t.StageOk call :=
  ⟨fun doc hdoc => (h.outcome doc hdoc).grow hgrows, fun ns hns n hn =>
    ⟨(h.notifies ns hns n hn).1, (h.notifies ns hns n hn).2.grow hgrows⟩⟩

/-- **A STORE that rings the channel of a key is of the message with that
key.**  The name a call listens to is cut to 63 bytes, where the key is a long
text; the name a STORE rings has 53 bytes, so equality means that nothing was
cut. -/
theorem ofText?_of_channel {key : String} {id : Uuid}
    (h : resultsChannel id.toText = identifier (resultsChannel key)) :
    Uuid.ofText? key = some id := by
  have hsize := ResultQueries.utf8ByteSize_resultsChannel id
  rcases identifier_eq_or (resultsChannel key) with hwhole | hcut
  · have hlist := congrArg String.toList (h.trans hwhole)
    simp only [resultsChannel, String.toList_append, List.append_cancel_right_eq,
      List.append_cancel_left_eq] at hlist
    rw [← String.toList_inj.mp hlist]
    exact Uuid.ofText?_toText id
  · rw [← h, hsize] at hcut
    omega

/-- **What a call makes of one notification is its own**, if the notification
is: a payload on the message's channel is the result of that message, or was
sent there by another session. -/
theorem State.Told.storedFor {n : Notification} (h : s.Told n) {key : String}
    (hchannel : n.channel = identifier (resultsChannel key)) {doc : Json}
    (hpayload : n.payload = .json doc) : s.StoredFor key doc := by
  rcases h with hforeign | ⟨id, stored, hstored, rfl⟩
  · refine Or.inr ?_
    rw [← hchannel, ← hpayload]
    exact hforeign
  · refine Or.inl ⟨id, ofText?_of_channel hchannel, ?_⟩
    simp only [ResultQueries.storePayload] at hpayload
    split_ifs at hpayload
    cases hpayload
    exact hstored

/-- **A read of the table is its own**, because every row is. -/
theorem storedFor_of_get (htable : s.TableOk)
    {now : Time} {key : String} {doc : Json}
    (h : outcomeOf (ResultQueries.get now key s.table) = .returned doc) : s.StoredFor key doc := by
  unfold ResultQueries.get at h
  split at h
  · cases h
  · next id hid =>
      cases hfound : ((s.table.find? id).filter (ResultRow.isLive now)).map ResultRow.result with
      | none => rw [hfound] at h; cases h
      | some found =>
          rw [hfound] at h
          cases h
          obtain ⟨r, hr, rfl⟩ := Option.map_eq_some_iff.mp hfound
          exact Or.inl ⟨id, hid, htable id r (Option.filter_eq_some_iff.mp hr).1⟩

end Histories

/-! ### What an action does to the calls -/

section Calls

omit [DecidableEq κ] [DecidableEq π]

theorem conn?_afterGet (c : κ) (block : Bool) (result : Except PgError (Option Json)) :
    (afterGet c block result).conn? = some c := by
  unfold afterGet
  split <;> rfl

theorem outcome?_afterGet {c : κ} {block : Bool} {result : Except PgError (Option Json)}
    {outcome : Outcome} (h : (afterGet c block result).outcome? = some outcome) :
    outcomeOf result = outcome := by
  unfold afterGet at h
  split at h
  · cases h
  · exact Option.some_inj.mp h

theorem notifies?_afterGet (c : κ) (block : Bool) (result : Except PgError (Option Json)) :
    (afterGet c block result).notifies? = none := by
  unfold afterGet
  split <;> rfl

theorem notifies?_next (pending : Pending) : (pending.next : Stage κ).notifies? = none := by
  unfold Pending.next
  split
  · rfl
  · rfl
  · split <;> rfl
  · rfl

/-- What a call ends with is what it had in hand, or the payload of its one
notification. -/
theorem outcome?_next {pending : Pending} {outcome : Outcome}
    (h : (pending.next : Stage κ).outcome? = some outcome) :
    pending = .outcome outcome ∨ (∀ doc, outcome ≠ .returned doc) ∨
      ∃ n doc, pending = .notifies [n] ∧ n.payload = .json doc ∧ outcome = .returned doc := by
  unfold Pending.next at h
  split at h
  · exact Or.inl (by rw [Option.some_inj.mp h])
  · cases h
    exact Or.inr (Or.inl fun doc hdoc => by cases hdoc)
  · next n =>
      split at h
      · cases h
      · next doc hpayload =>
          cases h
          exact Or.inr (Or.inr ⟨n, doc, rfl, hpayload, rfl⟩)
  · cases h
    exact Or.inr (Or.inl fun doc hdoc => by cases hdoc)

variable {call : Call κ} {action : CallAction κ} {stage : Stage κ}

theorem outcome?_of_returned? {doc : Json} (h : call.returned? = some doc) :
    call.stage.outcome? = some (.returned doc) := by
  unfold Call.returned? at h
  split at h
  · next hstage =>
      rw [hstage, Option.some_inj.mp h]
      rfl
  · cases h

/-- How a step takes a call from one stage to the next: the relation behind
`nextStage`, without the guards about the connection, which nothing below
needs. -/
inductive StageStep (s : State κ π) (key : String) (block : Bool) :
    CallAction κ → Stage κ → Stage κ → Prop where
  | getconn (c : κ) : StageStep s key block (.getconn c) .called (.first c)
  | getconnAgain (c : κ) : StageStep s key block (.getconn c) .refetch (.second c)
  | beginListen (c : κ) : StageStep s key block .beginListen (.first c) (.first c)
  | listen (c : κ) : StageStep s key block .listen (.first c) (.first c)
  | listenRaises (c : κ) (lost : Bool) :
      StageStep s key block (.listenRaises lost) (.first c) (.leaving c (.outcome .raised))
  | get (c : κ) (now : Time) :
      StageStep s key block (.get now) (.first c)
        (afterGet c block (ResultQueries.get now key s.table))
  | getAgain (c : κ) (now : Time) :
      StageStep s key block (.get now) (.second c)
        (.settled c (outcomeOf (ResultQueries.get now key s.table)))
  | wait (c : κ) (count : ℕ) :
      StageStep s key block (.wait count) (.waiting c)
        (.leaving c (.notifies ((s.conns c).session.backlog.take count)))
  | raiseCalled : StageStep s key block .raise .called (.ended .raised)
  | raiseRefetch : StageStep s key block .raise .refetch (.ended .raised)
  | raiseFirst (c : κ) : StageStep s key block .raise (.first c) (.leaving c (.outcome .raised))
  | raiseWaiting (c : κ) :
      StageStep s key block .raise (.waiting c) (.leaving c (.outcome .raised))
  | raiseSecond (c : κ) : StageStep s key block .raise (.second c) (.settled c .raised)
  | leave (c : κ) (pending : Pending) :
      StageStep s key block .leave (.leaving c pending) (.leaving c pending)
  | cleanUp (c : κ) (pending : Pending) (cleanUp : CleanUp) :
      StageStep s key block (.cleanUp cleanUp) (.leaving c pending) (.leaving c pending)
  | putconn (c : κ) (pending : Pending) :
      StageStep s key block .putconn (.leaving c pending) pending.next
  | putconnAgain (c : κ) (outcome : Outcome) :
      StageStep s key block .putconn (.settled c outcome) (.ended outcome)

/-- **The one inversion of `nextStage`.**  Everything below about calls is a
case analysis of `StageStep`, and does not unfold the function again. -/
theorem stageStep_of_nextStage {key : String} {block : Bool} {before : Stage κ}
    (h : s.nextStage ⟨key, block, before⟩ action = some stage) :
    StageStep s key block action before stage := by
  cases action with
  | get now =>
      cases before with
      | first c =>
          simp only [State.nextStage] at h
          split_ifs at h
          cases h
          exact .get c now
      | second c => cases h; exact .getAgain c now
      | called | waiting | leaving | refetch | settled | ended => cases h
  | raise =>
      cases before with
      | first c =>
          simp only [State.nextStage] at h
          split_ifs at h
          cases h
          exact .raiseFirst c
      | waiting c =>
          simp only [State.nextStage] at h
          split_ifs at h
          cases h
          exact .raiseWaiting c
      | called => cases h; exact .raiseCalled
      | refetch => cases h; exact .raiseRefetch
      | second c => cases h; exact .raiseSecond c
      | leaving | settled | ended => cases h
  | getconn | beginListen | listen | listenRaises | wait | leave | cleanUp | putconn =>
      cases before <;> first | cases h; constructor | cases h

/-- A call changes its connection by taking one and by putting it back, and in
no other step. -/
theorem conn?_nextStage (h : s.nextStage call action = some stage)
    (hget : ∀ c, action ≠ .getconn c) (hput : action ≠ .putconn) :
    stage.conn? = call.stage.conn? := by
  obtain ⟨key, block, before⟩ := call
  cases stageStep_of_nextStage h with
  | getconn c | getconnAgain c => exact absurd rfl (hget c)
  | putconn | putconnAgain => exact absurd rfl hput
  | get c now => exact conn?_afterGet c block _
  | beginListen | listen | listenRaises | getAgain | wait | raiseCalled | raiseRefetch | raiseFirst
  | raiseWaiting | raiseSecond | leave | cleanUp => rfl

theorem conn?_of_getconn {c : κ} (h : s.nextStage call (.getconn c) = some stage) :
    call.stage.conn? = none := by
  obtain ⟨key, block, before⟩ := call
  cases stageStep_of_nextStage h <;> rfl

theorem conn?_of_nextStage_getconn {c : κ} (h : s.nextStage call (.getconn c) = some stage) :
    stage.conn? = some c := by
  obtain ⟨key, block, before⟩ := call
  cases stageStep_of_nextStage h <;> rfl

theorem eq_of_useAction?_beginListen {channel : String}
    (h : call.useAction? action = some (.beginListen channel)) :
    channel = resultsChannel call.key := by
  cases action <;> cases h
  rfl

/-- A call receives notifications in its wait, from the backlog of its own
connection. -/
theorem notifies?_nextStage (h : s.nextStage call action = some stage) {ns : List Notification}
    (hns : stage.notifies? = some ns) :
    call.stage.notifies? = some ns ∨ ∃ c count, action = .wait count ∧ call.stage = .waiting c ∧
      ns = (s.conns c).session.backlog.take count := by
  obtain ⟨key, block, before⟩ := call
  cases stageStep_of_nextStage h with
  | get c now => rw [notifies?_afterGet] at hns; cases hns
  | putconn c pending => rw [notifies?_next] at hns; cases hns
  | wait c count => exact Or.inr ⟨c, count, rfl, rfl, (Option.some_inj.mp hns).symm⟩
  | leave | cleanUp => exact Or.inl hns
  | getconn | getconnAgain | beginListen | listen | listenRaises | getAgain | raiseCalled
  | raiseRefetch | raiseFirst | raiseWaiting | raiseSecond | putconnAgain => cases hns

/-- What a call returns it has read from the table, or in a notification, or it
had the outcome before. -/
theorem outcome?_nextStage (h : s.nextStage call action = some stage) {doc : Json}
    (hdoc : stage.outcome? = some (.returned doc)) :
    call.stage.outcome? = some (.returned doc) ∨
      (∃ now, outcomeOf (ResultQueries.get now call.key s.table) = .returned doc) ∨
      ∃ n, call.stage.notifies? = some [n] ∧ n.payload = .json doc := by
  obtain ⟨key, block, before⟩ := call
  cases stageStep_of_nextStage h with
  | get c now => exact Or.inr (Or.inl ⟨now, outcome?_afterGet hdoc⟩)
  | getAgain c now => exact Or.inr (Or.inl ⟨now, Option.some_inj.mp hdoc⟩)
  | putconn c pending =>
      rcases outcome?_next hdoc with rfl | hne | ⟨n, doc', rfl, hpayload, heq⟩
      · exact Or.inl rfl
      · exact absurd rfl (hne doc)
      · cases heq
        exact Or.inr (Or.inr ⟨n, rfl, hpayload⟩)
  | leave | cleanUp | putconnAgain => exact Or.inl hdoc
  | getconn | getconnAgain | beginListen | listen | listenRaises | wait | raiseCalled
  | raiseRefetch | raiseFirst | raiseWaiting | raiseSecond => cases hdoc

end Calls

/-- What an action does to a call: nothing, or it starts it anew, or it is a
step of that call. -/
inductive CallStep (s : State κ π) (a : Action κ π) (d : State κ π) (p : π) : Prop where
  | same (other : ∀ action, a ≠ .call p action) (after : d.calls p = s.calls p)
  | started {key : String} {block : Bool} (other : ∀ action, a ≠ .call p action)
      (before : ∀ call, s.calls p = some call → call.stage.conn? = none)
      (after : d.calls p = some ⟨key, block, .called⟩)
  | moved {call : Call κ} {action : CallAction κ} {stage : Stage κ} (step : a = .call p action)
      (before : s.calls p = some call) (next : s.nextStage call action = some stage)
      (after : d.calls p = some { call with stage := stage })

omit [DecidableEq κ] in
theorem callStep_of_dataStep (h : s.dataStep a = some d) (p : π) : CallStep s a d p := by
  cases a with
  | start p' key block =>
      rw [State.dataStep] at h
      split at h
      · next hnone =>
          cases h
          by_cases hp : p = p'
          · subst hp
            exact .started (fun _ hac => by cases hac)
              (fun call hcall => by rw [hnone] at hcall; cases hcall) (Function.update_self _ _ _)
          · exact .same (fun _ hac => by cases hac) (Function.update_of_ne hp _ _)
      · next hended =>
          cases h
          by_cases hp : p = p'
          · subst hp
            exact .started (fun _ hac => by cases hac)
              (fun call hcall => by rw [hended] at hcall; cases hcall; rfl)
              (Function.update_self _ _ _)
          · exact .same (fun _ hac => by cases hac) (Function.update_of_ne hp _ _)
      · cases h
  | call p' action =>
      obtain ⟨call, hcall, h⟩ := Option.bind_eq_some_iff.mp h
      obtain ⟨stage, hstage, rfl⟩ := Option.map_eq_some_iff.mp h
      by_cases hp : p = p'
      · subst hp
        exact .moved rfl hcall hstage (Function.update_self _ _ _)
      · exact .same (fun _ hac => by cases hac; exact hp rfl) (Function.update_of_ne hp _ _)
  | store now key result ttl =>
      obtain ⟨q, -, rfl⟩ := Option.map_eq_some_iff.mp h
      exact .same (fun _ hac => by cases hac) rfl
  | purgeResults | notify | otherGetconn | otherUse | lose =>
      cases h
      exact .same (fun _ hac => by cases hac) rfl

omit [DecidableEq κ] in
/-- A STORE writes a row and its history, and rings the message's channel. -/
theorem of_dataStep_store {now : Time} {key : String} {result : Json} {ttl : ℤ}
    (h : s.dataStep (.store now key result ttl) = some d) :
    ∃ id stored,
      d = { s with
        table := ResultQueries.storeUpsert now id stored ttl s.table
        stored := s.stored ++ [(id, stored)] } ∧
      s.sessionAction? (.store now key result ttl)
        = some (.notify ⟨resultsChannel id.toText, ResultQueries.storePayload stored⟩) := by
  obtain ⟨q, hq, rfl⟩ := Option.map_eq_some_iff.mp h
  have hstore : ResultQueries.store now key result ttl s.table = .ok q := by
    cases hr : ResultQueries.store now key result ttl s.table with
    | error e => rw [hr] at hq; cases hq
    | ok q' => rw [hr] at hq; cases hq; rfl
  obtain ⟨id, stored, hid, -, rfl⟩ := ResultQueries.of_store_ok hstore
  have hfind := ResultQueries.find?_storeUpsert now id stored ttl s.table
  refine ⟨id, stored, ?_, ?_⟩
  · rw [hid, Option.bind_some, hfind]
    rfl
  · rw [State.sessionAction?, hq]
    rfl

/-- What an action keeps, before its session step: the connections, and the
clause on the table, and its histories grow. -/
structure DataFrame (s d : State κ π) : Prop where
  conns : d.conns = s.conns
  grows : s.Grows d
  table : s.TableOk → d.TableOk

omit [DecidableEq κ] [DecidableEq π] in
theorem DataFrame.of_table {calls : π → Option (Call κ)} :
    DataFrame s { s with calls := calls } :=
  ⟨rfl, ⟨fun _ h => h, fun _ h => h⟩, fun h => h⟩

omit [DecidableEq κ] in
theorem dataFrame_of_dataStep (h : s.dataStep a = some d) : DataFrame s d := by
  cases a with
  | start p key block =>
      rw [State.dataStep] at h
      split at h
      · cases h
        exact .of_table
      · cases h
        exact .of_table
      · cases h
  | call p action =>
      obtain ⟨call, -, h⟩ := Option.bind_eq_some_iff.mp h
      obtain ⟨stage, -, rfl⟩ := Option.map_eq_some_iff.mp h
      exact .of_table
  | store now key result ttl =>
      obtain ⟨id, stored, rfl, -⟩ := of_dataStep_store h
      refine ⟨rfl, ⟨fun _ h => List.mem_append_left _ h, fun _ h => h⟩, fun htable k r hr => ?_⟩
      by_cases hk : k = id
      · -- The row STORE has written.
        subst hk
        have hsame := hr.symm.trans (ResultQueries.find?_storeUpsert now k stored ttl s.table)
        rw [Option.some_inj.mp hsame]
        exact List.mem_append_right _ (List.mem_singleton_self _)
      · have hother : (ResultQueries.storeUpsert now id stored ttl s.table).find? k
            = s.table.find? k := ResultQueries.find?_storeUpsert_of_ne hk
        exact List.mem_append_left _ (htable k r (hother.symm.trans hr))
  | purgeResults now =>
      cases h
      refine ⟨rfl, ⟨fun _ h => h, fun _ h => h⟩, fun htable k r hr => htable k r ?_⟩
      have hfind := ResultQueries.find?_purgeResults now k s.table
      exact (Option.filter_eq_some_iff.mp (hfind.symm.trans hr)).1
  | notify n =>
      cases h
      exact ⟨rfl, ⟨fun _ h => h, fun _ h => List.mem_append_left _ h⟩, fun h => h⟩
  | otherGetconn | otherUse | lose =>
      cases h
      exact ⟨rfl, ⟨fun _ h => h, fun _ h => h⟩, fun h => h⟩

/-! ### The session step of an action -/

section SessionActions

omit [DecidableEq κ] [DecidableEq π]

/-- A call acts on its own connection: if the session step is one of the user
`p`, the action is a step of that call. -/
theorem of_sessionAction?_use {p : π} {c : κ} {use : UseAction}
    (h : s.sessionAction? a = some (.use (some p) c use)) :
    ∃ action call, a = .call p action ∧ s.calls p = some call ∧ call.stage.conn? = some c ∧
      call.useAction? action = some use := by
  cases a with
  | call p' action =>
      cases action with
      | getconn c' => cases h
      | beginListen | listen | listenRaises | get | wait | raise | leave | cleanUp | putconn =>
          obtain ⟨call, hcall, h⟩ := Option.bind_eq_some_iff.mp h
          obtain ⟨c', hc', h⟩ := Option.bind_eq_some_iff.mp h
          obtain ⟨use', huse', h⟩ := Option.map_eq_some_iff.mp h
          cases h
          exact ⟨_, call, rfl, hcall, hc', huse'⟩
  | store now key result ttl =>
      obtain ⟨q, -, h⟩ := Option.map_eq_some_iff.mp h
      cases h
  | start | purgeResults | notify | otherGetconn | otherUse | lose => cases h

theorem of_sessionAction?_getconn {p : π} {c : κ}
    (h : s.sessionAction? a = some (.getconn (some p) c)) : a = .call p (.getconn c) := by
  cases a with
  | call p' action =>
      cases action with
      | getconn c' => cases h; rfl
      | beginListen | listen | listenRaises | get | wait | raise | leave | cleanUp | putconn =>
          obtain ⟨call, -, h⟩ := Option.bind_eq_some_iff.mp h
          obtain ⟨c', -, h⟩ := Option.bind_eq_some_iff.mp h
          obtain ⟨use, -, h⟩ := Option.map_eq_some_iff.mp h
          cases h
  | store now key result ttl =>
      obtain ⟨q, -, h⟩ := Option.map_eq_some_iff.mp h
      cases h
  | start | purgeResults | notify | otherGetconn | otherUse | lose => cases h

/-- **What is sent is told**: it is in the histories from then on, so a backlog
that receives it keeps its clause. -/
theorem told_of_notify {n : Notification} [DecidableEq π] (h : s.dataStep a = some d)
    (hnotify : s.sessionAction? a = some (.notify n)) : d.Told n := by
  cases a with
  | notify m =>
      cases hnotify
      cases h
      exact Or.inl (List.mem_append_right _ (List.mem_singleton_self _))
  | store now key result ttl =>
      obtain ⟨id, stored, rfl, hsent⟩ := of_dataStep_store h
      rw [hsent] at hnotify
      cases hnotify
      exact Or.inr ⟨id, stored, List.mem_append_right _ (List.mem_singleton_self _), rfl⟩
  | call p action =>
      cases action with
      | getconn c => cases hnotify
      | beginListen | listen | listenRaises | get | wait | raise | leave | cleanUp | putconn =>
          obtain ⟨call, -, hnotify⟩ := Option.bind_eq_some_iff.mp hnotify
          obtain ⟨c, -, hnotify⟩ := Option.bind_eq_some_iff.mp hnotify
          obtain ⟨use, -, hnotify⟩ := Option.map_eq_some_iff.mp hnotify
          cases hnotify
  | start | purgeResults | otherGetconn | otherUse | lose => cases hnotify

/-- A call that acts on its connection makes a session step, so the layer below
sees it. -/
theorem sessionAction?_of_useAction? {p : π} {call : Call κ} {action : CallAction κ} {c : κ}
    {use : UseAction} (hcall : s.calls p = some call) (hc : call.stage.conn? = some c)
    (huse : call.useAction? action = some use) :
    s.sessionAction? (.call p action) = some (.use (some p) c use) := by
  cases action with
  | getconn | get | raise => cases huse
  | beginListen | listen | listenRaises | wait | leave | cleanUp | putconn =>
      simp only [State.sessionAction?, hcall, hc, huse, Option.bind_some, Option.map_some]

end SessionActions

/-- The two parts of a step, which the proofs below take one after the other. -/
theorem of_step (h : s.step a = some t) :
    ∃ d, s.dataStep a = some d ∧
      ((s.sessionAction? a = none ∧ t = d) ∨
        ∃ action conns, s.sessionAction? a = some action ∧
          Sessions.step s.conns action = some conns ∧ t = { d with conns := conns }) := by
  obtain ⟨d, hd, h⟩ := Option.bind_eq_some_iff.mp h
  refine ⟨d, hd, ?_⟩
  split at h
  · next hnone => exact Or.inl ⟨hnone, (Option.some_inj.mp h).symm⟩
  · next action hsome =>
      obtain ⟨conns, hconns, rfl⟩ := Option.map_eq_some_iff.mp h
      exact Or.inr ⟨action, conns, hsome, hconns, rfl⟩

/-! ### Every step keeps the invariant -/

namespace State.Ok

/-- The connections: the invariant of `Utils.Sessions`, whose step lemma asks
for `CleansUp`.  This is the only place where the hypothesis is used. -/
theorem conns_step (h : s.Ok) (hclean : s.CleansUp a) (hstep : s.step a = some t) :
    ∀ c, (t.conns c).Ok := by
  obtain ⟨d, hd, ⟨-, rfl⟩ | ⟨action, conns, hsome, hconns, rfl⟩⟩ := of_step hstep
  · rw [(dataFrame_of_dataStep hd).conns]
    exact h.conns
  · exact Sessions.ok_step h.conns (hclean action hsome) hconns

/-- The backlogs: what is in one was there before, or is the notification of
this step. -/
theorem told_step (h : s.Ok) (hstep : s.step a = some t) :
    ∀ c, ∀ n ∈ (t.conns c).session.backlog, t.Told n := by
  obtain ⟨d, hd, hor⟩ := of_step hstep
  have hframe := dataFrame_of_dataStep hd
  obtain ⟨-, rfl⟩ | ⟨action, conns, hsome, hconns, rfl⟩ := hor
  · rw [hframe.conns]
    exact fun c n hn => (h.told c n hn).grow hframe.grows
  · intro c n hn
    rcases Sessions.mem_backlog_of_step hconns hn with hn | rfl
    · exact (h.told c n hn).grow ⟨hframe.grows.stored, hframe.grows.foreign⟩
    · exact (told_of_notify hd hsome).grow ⟨fun _ h => h, fun _ h => h⟩

/-- The connections of the calls: a call has the connection it took from the
pool until it puts it back, and listens to its own channel. -/
theorem uses_step (h : s.Ok) (hstep : s.step a = some t) :
    ∀ c p phase, (t.conns c).use = some (some p, phase) → ∃ call, t.calls p = some call ∧
      call.stage.conn? = some c ∧
        ∀ channel, phase.channel? = some channel → channel = resultsChannel call.key := by
  intro c p phase huse
  obtain ⟨d, hd, hor⟩ := of_step hstep
  have hcall := callStep_of_dataStep hd p
  have hcalls : t.calls = d.calls := by
    obtain ⟨-, rfl⟩ | ⟨_, _, -, -, rfl⟩ := hor <;> rfl
  rw [hcalls]
  -- A connection that stays as it was stays its call's.
  have hkept (hbefore : (s.conns c).use = some (some p, phase))
      (hother : ∀ action, s.sessionAction? a ≠ some (.use (some p) c action)) :
      ∃ call, d.calls p = some call ∧ call.stage.conn? = some c ∧
        ∀ channel, phase.channel? = some channel → channel = resultsChannel call.key := by
    obtain ⟨call, hsome, hconn, hchannel⟩ := h.uses c p phase hbefore
    cases hcall with
    | same _ hafter => exact ⟨call, hafter.trans hsome, hconn, hchannel⟩
    | started _ hended => rw [hended call hsome] at hconn; cases hconn
    | moved ha hcall' hnext hafter =>
        subst ha
        rw [hsome, Option.some_inj] at hcall'
        subst hcall'
        refine ⟨_, hafter, (conn?_nextStage hnext ?_ ?_).trans hconn, hchannel⟩
        · rintro c' rfl
          rw [conn?_of_getconn hnext] at hconn
          cases hconn
        · rintro rfl
          exact hother .putconn (sessionAction?_of_useAction? hsome hconn rfl)
  obtain ⟨hnone, rfl⟩ | ⟨action, conns, hsome, hconns, rfl⟩ := hor
  · rw [(dataFrame_of_dataStep hd).conns] at huse
    exact hkept huse fun action hac => by rw [hnone] at hac; cases hac
  · cases Sessions.useStep_of_step hconns huse with
    | kept hbefore hother =>
        refine hkept hbefore fun use hac => ?_
        rw [hsome, Option.some_inj] at hac
        exact hother _ _ hac
    | taken hget hphase =>
        subst hget hphase
        have ha := of_sessionAction?_getconn hsome
        cases hcall with
        | same hother => exact absurd ha (hother _)
        | started hother => exact absurd ha (hother _)
        | moved ha' _ hnext hafter =>
            rw [ha] at ha'
            cases ha'
            exact ⟨_, hafter, conn?_of_nextStage_getconn hnext, fun _ hchannel => by cases hchannel⟩
    | moved huse' hput hholds hchannel =>
        subst huse'
        obtain ⟨step, call, ha, hcall', hconn, haction⟩ := of_sessionAction?_use hsome
        obtain ⟨call', hsame, -, hown⟩ := h.uses c p _ hholds
        rw [hcall', Option.some_inj] at hsame
        subst hsame
        cases hcall with
        | same hother => exact absurd ha (hother _)
        | started hother => exact absurd ha (hother _)
        | moved ha' hbefore hnext hafter =>
            rw [ha] at ha'
            cases ha'
            rw [hcall', Option.some_inj] at hbefore
            subst hbefore
            refine ⟨_, hafter, (conn?_nextStage hnext ?_ ?_).trans hconn, fun channel hphase => ?_⟩
            · rintro c' rfl
              cases haction
            · rintro rfl
              exact hput (Option.some_inj.mp haction).symm
            · rcases hchannel channel hphase with hbefore | rfl
              · exact hown channel hbefore
              · exact eq_of_useAction?_beginListen haction

/-- **What a call waits for comes from its own channel**, and is told.  Here the
two layers meet: the connection has nothing of another channel in its backlog,
and the channel of its transaction is that of the call. -/
theorem of_wait (h : s.Ok) {p : π} {call : Call κ} {c : κ} {count : ℕ}
    (hcall : s.calls p = some call) (hstage : call.stage = .waiting c)
    (hstep : s.step (.call p (.wait count)) = some t) :
    ∀ n ∈ (s.conns c).session.backlog.take count,
      n.channel = identifier (resultsChannel call.key) ∧ s.Told n := by
  have hsession : s.sessionAction? (.call p (.wait count)) = some (.use (some p) c (.wait count)) :=
    sessionAction?_of_useAction? hcall (by rw [hstage]; rfl) rfl
  obtain ⟨d, -, ⟨hnone, -⟩ | ⟨action, conns, hsome, hconns, -⟩⟩ := of_step hstep
  · rw [hsession] at hnone
    cases hnone
  · rw [hsession, Option.some_inj] at hsome
    subst hsome
    obtain ⟨phase, q, huse, hy⟩ := Sessions.exists_phase_of_step hconns
    obtain ⟨channel, hphase⟩ : ∃ channel, phase.channel? = some channel := by
      cases phase with
      | listening channel => exact ⟨channel, rfl⟩
      | held | opened | leaving => cases hy
    obtain ⟨call', hcall', -, hown⟩ := h.uses c p phase huse
    rw [hcall, Option.some_inj] at hcall'
    subst hcall'
    have hconfined := (h.conns c).confined channel (by rw [Conn.channel?, huse]; exact hphase)
    intro n hn
    refine ⟨?_, h.told c n (List.mem_of_mem_take hn)⟩
    rw [← hown channel hphase]
    exact hconfined.backlog n (List.mem_of_mem_take hn)

/-- The calls: what a step puts into one's hand is its own, by
`storedFor_of_get` for a read and by `of_wait` for notifications. -/
theorem calls_step (h : s.Ok) (hstep : s.step a = some t) :
    ∀ p call, t.calls p = some call → t.StageOk call := by
  obtain ⟨d, hd, hor⟩ := of_step hstep
  have hframe := dataFrame_of_dataStep hd
  have hgrows : s.Grows t := by
    obtain ⟨-, rfl⟩ | ⟨_, _, -, -, rfl⟩ := hor
    · exact hframe.grows
    · exact ⟨hframe.grows.stored, hframe.grows.foreign⟩
  have hcalls : t.calls = d.calls := by
    obtain ⟨-, rfl⟩ | ⟨_, _, -, -, rfl⟩ := hor <;> rfl
  intro p call hcall
  rw [hcalls] at hcall
  cases callStep_of_dataStep hd p with
  | same _ hafter => exact (h.calls p call (hafter ▸ hcall)).grow hgrows
  | started _ _ hafter =>
      rw [hafter, Option.some_inj] at hcall
      subst hcall
      exact ⟨fun _ hdoc => (by cases hdoc), fun _ hns => (by cases hns)⟩
  | moved ha hbefore hnext hafter =>
      subst ha
      rw [hafter, Option.some_inj] at hcall
      subst hcall
      have hok := h.calls p _ hbefore
      refine ⟨fun doc hdoc => ?_, fun ns hns n hn => ?_⟩
      · rcases outcome?_nextStage hnext hdoc with hbefore | ⟨now, hget⟩ | ⟨n, hns, hpayload⟩
        · exact (hok.outcome doc hbefore).grow hgrows
        · exact (storedFor_of_get h.table hget).grow hgrows
        · obtain ⟨hchannel, htold⟩ := hok.notifies [n] hns n (List.mem_singleton_self n)
          exact (htold.storedFor hchannel hpayload).grow hgrows
      · rcases notifies?_nextStage hnext hns with hbefore | ⟨c, count, rfl, hstage, rfl⟩
        · exact ⟨(hok.notifies ns hbefore n hn).1, (hok.notifies ns hbefore n hn).2.grow hgrows⟩
        · obtain ⟨hchannel, htold⟩ := h.of_wait hbefore hstage hstep n hn
          exact ⟨hchannel, htold.grow hgrows⟩

/-- **Step lemma.**  A step that cleans up keeps the invariant. -/
theorem step (h : s.Ok) (hclean : s.CleansUp a) (hstep : s.step a = some t) : t.Ok where
  conns := h.conns_step hclean hstep
  table := by
    obtain ⟨d, hd, ⟨-, rfl⟩ | ⟨_, _, -, -, rfl⟩⟩ := of_step hstep
    · exact (dataFrame_of_dataStep hd).table h.table
    · exact (dataFrame_of_dataStep hd).table h.table
  told := h.told_step hstep
  uses := h.uses_step hstep
  calls := h.calls_step hstep

end State.Ok

omit [DecidableEq κ] [DecidableEq π] in
theorem ok_empty : (State.empty κ π).Ok where
  conns := fun _ => Conn.ok_pooled fun _ => ⟨rfl, rfl, rfl⟩
  table := fun _ _ hr => by cases hr
  told := fun _ _ hn => absurd hn List.not_mem_nil
  uses := fun _ _ _ huse => by cases huse
  calls := fun _ _ hcall => by cases hcall

/-! ## The law of every run -/

/-- **Results on pooled connections do not get mixed up** in any run in which no
error of a clean-up statement is swallowed on a connection that stays open.
Calls, other users, lost connections and stray notifications may come in any
order. -/
theorem noCrossTalk_of_cleansUp (as : List (Action κ π))
    (hclean : ∀ p ∈ (poolSystem κ π).taken as, p.1.CleansUp p.2) : NoCrossTalk as := by
  have hok : ∀ s ∈ (poolSystem κ π).visited as, s.Ok :=
    StepSystem.inv_of_mem_visitedFrom (fun _ _ _ hs hc hstep => hs.step hc hstep) ok_empty hclean
  refine ⟨fun s hs c hpool => ?_, fun p hp user c count channel _ huse n hn => ?_,
    fun s hs p call doc hcall hreturned => ?_⟩
  · exact ((hok s hs).conns c).clean (by rw [Conn.channel?, hpool]; rfl)
  · have hconn := (hok p.1 (StepSystem.exists_step_of_mem_takenFrom hp).1).conns c
    have hconfined := hconn.confined channel (by rw [Conn.channel?, huse]; rfl)
    exact hconfined.backlog n (List.mem_of_mem_take hn)
  · exact ((hok s hs).calls p call hcall).outcome doc (outcome?_of_returned? hreturned)

/-- A call that ends in a timeout, with this end of its clean-up, on the
connection 0. -/
def timedOut (p : ℕ) (id : Uuid) (cleanUp : CleanUp) : List (Action ℕ ℕ) :=
  [.start p id.toText true, .call p (.getconn 0), .call p .beginListen, .call p .listen,
    .call p (.get 0), .call p (.wait 0), .call p .leave, .call p (.cleanUp cleanUp),
    .call p .putconn]

/-- The result of the first message is stored, and a call for the second one
begins, on the same connection. -/
def nextCall : List (Action ℕ ℕ) :=
  [.store 0 (Uuid.small 1).toText (.str "of the first") 1000,
    .start 2 (Uuid.small 2).toText true, .call 2 (.getconn 0), .call 2 .beginListen,
    .call 2 .listen, .call 2 (.get 0), .call 2 (.wait 1), .call 2 .leave,
    .call 2 (.cleanUp .succeeds), .call 2 .putconn]

theorem noCrossTalk_lostRun :
    NoCrossTalk (timedOut 1 (Uuid.small 1) (.unlistenRaises true) ++ nextCall) :=
  noCrossTalk_of_cleansUp _ (by decide +kernel)

/-- **A cancelled UNLISTEN mixes results up**: the call for the second message,
which nobody has stored a result for, returns the result of the first one.  The
connection was still listening to the first one's channel when it was handed out
again. -/
theorem not_noCrossTalk_cancelledRun :
    ¬ NoCrossTalk (timedOut 1 (Uuid.small 1) (.unlistenRaises false) ++ nextCall) := by
  intro hlaw
  have hmixed : ∃ s ∈ (poolSystem ℕ ℕ).visited
      (timedOut 1 (Uuid.small 1) (.unlistenRaises false) ++ nextCall),
      ∃ call ∈ s.calls 2, call.key = (Uuid.small 2).toText ∧ call.returned?.isSome = true ∧
        (∀ e ∈ s.stored, e.1 ≠ Uuid.small 2) ∧ s.foreign.isEmpty = true := by decide +kernel
  obtain ⟨s, hs, call, hcall, hkey, hreturned, hstored, hforeign⟩ := hmixed
  obtain ⟨doc, hdoc⟩ := Option.isSome_iff_exists.mp hreturned
  rcases hlaw.ownValue s hs 2 call doc hcall hdoc with ⟨id, hid, hmem⟩ | hmem
  · rw [hkey, Uuid.ofText?_toText, Option.some_inj] at hid
    exact hstored _ hmem hid.symm
  · rw [List.isEmpty_iff.mp hforeign] at hmem
    exact absurd hmem List.not_mem_nil

end CrossTalk

end DramatiqPostgres
