import DramatiqPostgres.Queue.EnqueueCall

/-!
# Connections go back to the pool

Every connection a thread takes out of the pool is either in use by the call
that took it, or kept in an attribute: `_consume_conn` of a consumer, for as
long as the consumer lives and the connection is sound, and `conn` of the
notifier.

`Activity` lists what a thread does with connections, and `session` is any
sequence of activities, each of which may raise at any point.  What the
statements do to the tables does not matter here: `query` is a statement that
may raise.  The programs are those of `Utils.RetryPg`, over the same world and
the same environments, so that the one for `enqueue` is the very program whose
effects on the queue are proved in `Queue.EnqueueCall`.

### The results

* **No connection is lost** (`noneLost`).  Whatever the pool, the server and the
  middleware answer, the connections out of the pool after an activity are those
  its attributes keep, each in one of them (`Settled`, `settled_session`).
* **No call asks for a connection while it holds one** (`oneAtATime`), which is
  what the pool's size rests on: it is the law of `SharedPool.slotSystem`, read
  off the events of the world.
* **A sequence of activities of one slot settles that slot**
  (`keepsSettled_session`): it leads what the slot held to what its attribute
  holds now, and for calls, which have no attribute, an empty slot to an empty
  slot.  `Utils.PoolShare` needs it in this form, for all activities at once.

### How the proofs go

A program is verified by relations between the world before and after, through
`Within` of `Lib.Attempts`: `Quiet` where the pool has no part in it, `Same`
where what was taken went back, and `KeepsSettled` where an attribute may have
changed.  Each is a preorder, so a sequence of calls, an exception in the middle
of it and a retry of all of it are one argument (`same_block` for a `with`
block).  An exception is a result like another: the relation has to hold either
way.

### What is taken from the drivers

`consume_input` raises one of `DISCONNECT_ERRORS` or nothing, and `close` raises
nothing.  Both are needed.  `getconn` puts a connection back for
`ConnectionError` alone, which `check_conn` makes of those errors, so any other
one would leave the connection out of the pool for good; and `drop_conn` forgets
a connection that it could not close.
-/

namespace DramatiqPostgres

namespace RetryPg

open Pg Std.Do

set_option mvcgen.warning false

/-- What the drivers promise: psycopg about the check of a connection, and about
its `close`. -/
structure Drivers (env : Environment) : Prop where
  consumeInput : ∀ n e, (env .consumeInput n).raised = some e →
    e.isInstance Exn.disconnectErrors = true
  close : ∀ n, (env .close n).raised = none

/-! ## The programs -/

section Calls

variable (env : Environment)

/-- `raise_connection_error`.  Errors that are no `OperationalError` pass as
they are. -/
def raiseConnectionError {α : Type} (x : Py α) : Py α :=
  tryCatch x fun e =>
    if e.isInstance [.operationalError] then throw ⟨.connectionError, e.text⟩ else throw e

/-- A call whose answer does not matter, unless it raises. -/
def perform (call : Call) : Py Unit := do
  let _ ← invoke env call

/-- `curs.execute`, whatever the statement. -/
def query : Py Unit := perform env .execute

/-- `wait_for_notifies`, and the loop of the notifier. -/
def notifies : Py Unit := perform env .notifies

/-- `LISTEN`. -/
def listen : Py Unit := perform env .listen

/-- `conn.autocommit = True`. -/
def setAutocommit : Py Unit := perform env .autocommit

/-- `UNLISTEN *`. -/
def unlisten : Py Unit := perform env .unlisten

/-- `unlisten_all`, as far as the pool is concerned: it may raise, where
UNLISTEN raises something else than a lost connection. -/
def unlistenAll : Py Unit :=
  tryCatch (unlisten env) fun e =>
    if e.isInstance Exn.disconnectErrors then pure () else throw e

/-- `with transaction(pool, listen=channel)`.  The callbacks run in reverse
order, so `unlisten_all` comes before the `putconn`, and the `putconn` comes in
any case. -/
def listening (body : Py Unit) : Py Unit := do
  let conn ← getconn env
  tryFinally
    (do
      setAutocommit env
      tryFinally (do listen env; body) (unlistenAll env))
    (poolPutconn conn)

/-- What `get_result` finds, on one attempt.  The replies are chosen freely,
since what the table holds is not part of this world. -/
inductive Reply where
  | found
  | missing
  | timeout
  | payload
  /-- An empty payload, and whether the table has the result. -/
  | fetch (isStored : Bool)

/-- `get_result`, with what it finds by the number of calls before.  The second
transaction begins after the first has given its connection back. -/
def getResult (block : Bool) (reply : ℕ → Reply) : Py Unit :=
  retryPg do
    let w ← get
    listening env do
      query env
      match reply w.asked, block with
      | .found, _ => pure ()
      | _, false => throw ⟨.resultMissing, ""⟩
      | _, true => notifies env
    match reply w.asked with
    | .timeout => throw ⟨.resultTimeout, ""⟩
    | .fetch isStored =>
        transaction env (query env)
        if isStored then pure () else throw ⟨.resultMissing, ""⟩
    | _ => pure ()

/-- An attribute is set. -/
def keep (k : Keeper) (conn : Option ℕ) : Py Unit :=
  modify fun w => { w with kept := Function.update w.kept k conn }

/-- The first half of `get_consume_conn`: a connection that fails the check goes
back, and the attribute is `None` again. -/
def checkKept (k : Keeper) : Py Unit := do
  let w ← get
  match w.kept k with
  | some conn =>
      tryCatch (checkConn env) fun e =>
        if e.isInstance [.connectionError] then do
          poolPutconn conn
          keep k none
        else throw e
  | none => pure ()

/-- The second half: where the attribute is `None`, a connection is asked for.
The attribute is set only once it has come. -/
def takeKept (k : Keeper) : Py Unit := do
  let w ← get
  match w.kept k with
  | some _ => pure ()
  | none => do
      let conn ← getconn env
      keep k (some conn)

/-- `get_consume_conn`. -/
def getConsumeConn (k : Keeper) : Py Unit := do
  checkKept env k
  takeKept env k

/-- `claim` and `requeue`: one statement on the connection of the consumer,
which keeps it whether the statement works or not. -/
def queryKept (k : Keeper) : Py Unit :=
  raiseConnectionError do
    getConsumeConn env k
    inTransaction env (query env)

/-- `maybe_maintenance`: where it is due, one transaction with this number of
statements. -/
def maintain : Option (List Unit) → Py Unit
  | some statements => inTransaction env (statements.forM fun _ => query env)
  | none => pure ()

/-- `__next__`: what is due among the heartbeat, the upkeep and the claim, each
in a transaction of its own on the one connection. -/
def next (k : Keeper) (heartbeat : Bool) (upkeep : Option (List Unit)) (claim : Bool) : Py Unit :=
  raiseConnectionError do
    getConsumeConn env k
    if heartbeat then inTransaction env (query env)
    maintain env upkeep
    if claim then queryKept env k

/-- `PostgresConsumer.close`. -/
def closeConsumer (k : Keeper) : Py Unit := do
  let w ← get
  match w.kept k with
  | some conn =>
      poolPutconn conn
      keep k none
  | none => pure ()

/-- `Notifier.drop_conn`.  What `close` or `putconn` raise is swallowed, and the
attribute is `None` afterwards either way. -/
def dropConn : Py Unit := do
  let w ← get
  match w.kept .notifier with
  | some conn => do
      tryCatch
        (do
          perform env .close
          poolPutconn conn)
        fun _ => pure ()
      keep .notifier none
  | none => pure ()

/-- `Notifier.ensure_conn`: `dirty` and `channels` are what its subscriptions
are at that moment.  A connection it has is only checked, unless the
subscriptions have changed. -/
def ensureConn (dirty : Bool) (channels : List String) : Py Unit := do
  let w ← get
  match w.kept .notifier, dirty with
  | some _, false => checkConn env
  | some _, true =>
      unlisten env
      channels.forM fun _ => listen env
  | none, _ =>
      takeKept env .notifier
      setAutocommit env
      unlisten env
      channels.forM fun _ => listen env

/-- An iteration of `Notifier.run`: any exception drops the connection. -/
def listenOnce (dirty : Bool) (channels : List String) : Py Unit :=
  tryCatch
    (do
      ensureConn env dirty channels
      notifies env)
    fun _ => dropConn env

/-- What a thread does with connections: every path of the program that takes
one, or uses one that is kept. -/
inductive Activity where
  | enqueue (dqName : String → String) (notify : Bool) (message : Message) (delay : Option ℤ)
  | store
  | getResult (block : Bool) (reply : ℕ → Reply)
  /-- `ack` and `nack`. -/
  | settle
  | next (index : ℕ) (heartbeat : Bool) (upkeep : Option (List Unit)) (claim : Bool)
  | requeue (index : ℕ)
  | closeConsumer (index : ℕ)
  | listenOnce (dirty : Bool) (channels : List String)
  /-- The end of `Notifier.run`. -/
  | dropConn
  /-- A command of the command line, with its number of statements. -/
  | command (statements : List Unit)

/-- The attribute that keeps the connection of an activity, if one does.  The
rest of the activities are calls, which keep nothing. -/
def Activity.keeper : Activity → Option Keeper
  | next index .. | requeue index | closeConsumer index => some (.consumer index)
  | listenOnce .. | dropConn => some .notifier
  | _ => none

/-- The program of an activity. -/
def Activity.run : Activity → Py Unit
  | enqueue dqName notify message delay => do
      let _ ← RetryPg.enqueue env dqName notify message delay
  | store => retryPg (transaction env (query env))
  | getResult block reply => RetryPg.getResult env block reply
  | settle => raiseConnectionError (transaction env (query env))
  | next index heartbeat upkeep claim => RetryPg.next env (.consumer index) heartbeat upkeep claim
  | requeue index => queryKept env (.consumer index)
  | closeConsumer index => RetryPg.closeConsumer (.consumer index)
  | listenOnce dirty channels => RetryPg.listenOnce env dirty channels
  | dropConn => RetryPg.dropConn env
  | command statements => transaction env (statements.forM fun _ => query env)

/-- The world after a sequence of activities, each of which returns or raises.
Whatever an activity raises, the thread may go on with any other. -/
def session : List Activity → World → World
  | [], w => w
  | activity :: rest, w =>
      match (activity.run env).run w with
      | .ok _ w' | .error _ w' => session rest w'

end Calls

/-! ## One connection at a time -/

/-- What has passed between the thread and the pool led the slot from `held` to
`held'`.  That there is such a run at all says that every event was allowed: no
second connection was asked for while one was held, and none was put back that
was not. -/
def Passed (w w' : World) (held held' : Option ℕ) : Prop :=
  ∃ es, w'.events = w.events ++ es ∧ SharedPool.slotSystem.after held es = some held'

namespace Passed

variable {w w₁ w₂ : World} {held held₁ held₂ : Option ℕ}

theorem of_eq (h : w₁.events = w.events) : Passed w w₁ held held :=
  ⟨[], by rw [h, List.append_nil], rfl⟩

theorem of_step {e : SharedPool.Event} (hevents : w₁.events = w.events ++ [e])
    (hstep : SharedPool.slotStep held e = some held₁) : Passed w w₁ held held₁ :=
  ⟨[e], hevents, Option.bind_eq_some_iff.mpr ⟨held₁, hstep, rfl⟩⟩

theorem trans (h : Passed w w₁ held held₁) (h' : Passed w₁ w₂ held₁ held₂) :
    Passed w w₂ held held₂ := by
  obtain ⟨es, hevents, hafter⟩ := h
  obtain ⟨fs, hevents', hafter'⟩ := h'
  refine ⟨es ++ fs, by rw [hevents', hevents, List.append_assoc], ?_⟩
  rw [StepSystem.after_append, hafter]
  exact hafter'

end Passed

/-! ## What the programs do to the connections -/

/-- The pool has no part in it: statements, signals, commits. -/
structure Quiet (w w' : World) : Prop where
  out : w'.out = w.out
  kept : w'.kept = w.kept
  given : w'.given = w.given
  events : w'.events = w.events

theorem Quiet.refl (w : World) : Quiet w w := ⟨rfl, rfl, rfl, rfl⟩

theorem Quiet.trans {w w₁ w₂ : World} (h : Quiet w w₁) (h' : Quiet w₁ w₂) : Quiet w w₂ :=
  ⟨h'.out.trans h.out, h'.kept.trans h.kept, h'.given.trans h.given, h'.events.trans h.events⟩

theorem Quiet.settle (tookEffect : Bool) (w : World) : Quiet w (w.settle tookEffect) := by
  unfold World.settle
  split <;> exact ⟨rfl, rfl, rfl, rfl⟩

theorem Quiet.overtake (w : World) (s : Statement) : Quiet w (w.overtake s) := by
  unfold World.overtake
  split <;> exact ⟨rfl, rfl, rfl, rfl⟩

theorem Quiet.meanwhile (others : List Statement) (w : World) : Quiet w (w.meanwhile others) := by
  induction others generalizing w with
  | nil => exact Quiet.refl w
  | cons s others ih => exact (Quiet.overtake w s).trans (ih _)

/-- No connection has changed hands: those that came out of the pool, one at a
time, went back. -/
structure Same (w w' : World) : Prop where
  out : w'.out = w.out
  kept : w'.kept = w.kept
  given : w.given ≤ w'.given
  passed : Passed w w' none none

theorem Quiet.same {w w' : World} (h : Quiet w w') : Same w w' :=
  ⟨h.out, h.kept, h.given.ge, Passed.of_eq h.events⟩

theorem Same.refl (w : World) : Same w w := (Quiet.refl w).same

theorem Same.trans {w w₁ w₂ : World} (h : Same w w₁) (h' : Same w₁ w₂) : Same w w₂ :=
  ⟨h'.out.trans h.out, h'.kept.trans h.kept, h.given.trans h'.given, h.passed.trans h'.passed⟩

/-- A connection has come out of the pool, which has not given it before. -/
structure Given (w : World) (conn : ℕ) (w' : World) : Prop where
  out : w'.out = conn :: w.out
  kept : w'.kept = w.kept
  fresh : w.given ≤ conn
  given : conn < w'.given
  passed : Passed w w' none (some conn)

namespace Given

variable {w w₁ w₂ : World} {conn : ℕ}

theorem of_same (h : Same w w₁) (hgiven : Given w₁ conn w₂) : Given w conn w₂ where
  out := h.out ▸ hgiven.out
  kept := hgiven.kept.trans h.kept
  fresh := h.given.trans hgiven.fresh
  given := hgiven.given
  passed := h.passed.trans hgiven.passed

theorem trans_quiet (hgiven : Given w conn w₁) (h : Quiet w₁ w₂) : Given w conn w₂ where
  out := h.out.trans hgiven.out
  kept := h.kept.trans hgiven.kept
  fresh := hgiven.fresh
  given := h.given.symm ▸ hgiven.given
  passed := hgiven.passed.trans (Passed.of_eq h.events)

/-- `pool.putconn(conn)` undoes `pool.getconn()`. -/
theorem same_putconn (hgiven : Given w conn w₁) :
    Same w { w₁ with out := w₁.out.erase conn, events := w₁.events ++ [.put conn] } where
  out := by rw [hgiven.out, List.erase_cons_head]
  kept := hgiven.kept
  given := hgiven.fresh.trans hgiven.given.le
  passed := hgiven.passed.trans (Passed.of_step rfl (if_pos rfl))

end Given

/-- The attributes keep the connections that are out of the pool, each in one of
them.  This is the invariant between two activities. -/
structure Settled (w : World) : Prop where
  fresh : ∀ c ∈ w.out, c < w.given
  nodup : w.out.Nodup
  mem_out_iff : ∀ c, c ∈ w.out ↔ ∃ k, w.kept k = some c
  unique : ∀ k k' c, w.kept k = some c → w.kept k' = some c → k = k'

namespace Settled

variable {w w' : World} {k : Keeper} {conn : ℕ}

theorem of_same (h : Settled w) (hsame : Same w w') : Settled w' where
  fresh := fun c hc => (h.fresh c (hsame.out ▸ hc)).trans_le hsame.given
  nodup := hsame.out ▸ h.nodup
  mem_out_iff := fun c => by rw [hsame.out, hsame.kept]; exact h.mem_out_iff c
  unique := hsame.kept ▸ h.unique

/-- A connection that was kept goes back. -/
theorem put_back (h : Settled w) (hk : w.kept k = some conn) :
    Settled { w with
      out := w.out.erase conn
      events := w.events ++ [.put conn]
      kept := Function.update w.kept k none } where
  fresh := fun c hc => h.fresh c (List.mem_of_mem_erase hc)
  nodup := h.nodup.erase conn
  mem_out_iff := by
    intro c
    show c ∈ w.out.erase conn ↔ ∃ j, Function.update w.kept k none j = some c
    rw [h.nodup.mem_erase_iff, h.mem_out_iff]
    constructor
    · rintro ⟨hne, j, hj⟩
      refine ⟨j, ?_⟩
      rw [Function.update_of_ne, hj]
      rintro rfl
      exact hne (Option.some_inj.mp (hj.symm.trans hk))
    · rintro ⟨j, hj⟩
      have hjk : j ≠ k := by
        rintro rfl
        rw [Function.update_self] at hj
        cases hj
      rw [Function.update_of_ne hjk] at hj
      refine ⟨?_, j, hj⟩
      rintro rfl
      exact hjk (h.unique j k c hj hk)
  unique := by
    intro i j c hi hj
    have hkept : ∀ {i}, Function.update w.kept k none i = some c → w.kept i = some c := by
      intro i hi
      rw [Function.update_apply] at hi
      split_ifs at hi
      exact hi
    exact h.unique i j c (hkept hi) (hkept hj)

/-- A connection the pool gives is kept. -/
theorem take (h : Settled w) (hk : w.kept k = none) (hgiven : Given w conn w') :
    Settled { w' with kept := Function.update w'.kept k (some conn) } where
  fresh := by
    intro c hc
    rcases List.mem_cons.mp (hgiven.out ▸ hc) with rfl | hc
    · exact hgiven.given
    · exact ((h.fresh c hc).trans_le hgiven.fresh).trans hgiven.given
  nodup := by
    show w'.out.Nodup
    rw [hgiven.out, List.nodup_cons]
    exact ⟨fun hc => absurd (h.fresh conn hc) (not_lt.mpr hgiven.fresh), h.nodup⟩
  mem_out_iff := by
    intro c
    show c ∈ w'.out ↔ ∃ j, Function.update w'.kept k (some conn) j = some c
    rw [hgiven.out, hgiven.kept, List.mem_cons, h.mem_out_iff]
    constructor
    · rintro (rfl | ⟨j, hj⟩)
      · exact ⟨k, Function.update_self k _ _⟩
      · refine ⟨j, ?_⟩
        rw [Function.update_of_ne, hj]
        rintro rfl
        rw [hk] at hj
        cases hj
    · rintro ⟨j, hj⟩
      rw [Function.update_apply] at hj
      split_ifs at hj
      · exact Or.inl (Option.some_inj.mp hj).symm
      · exact Or.inr ⟨j, hj⟩
  unique := by
    intro i j c hi hj
    have hold : ∀ {i}, Function.update w.kept k (some conn) i = some c → i ≠ k →
        w.kept i = some c ∧ c ≠ conn := by
      intro i hold hik
      rw [Function.update_of_ne hik] at hold
      refine ⟨hold, fun hc => ?_⟩
      have hlt := h.fresh c ((h.mem_out_iff c).mpr ⟨i, hold⟩)
      exact absurd (hc ▸ hlt) (not_lt.mpr hgiven.fresh)
    have hnew : ∀ {i}, Function.update w.kept k (some conn) i = some c → i = k → c = conn := by
      rintro i hi rfl
      rw [Function.update_self] at hi
      exact (Option.some_inj.mp hi).symm
    rw [hgiven.kept] at hi hj
    by_cases hik : i = k <;> by_cases hjk : j = k
    · exact hik.trans hjk.symm
    · exact absurd (hnew hi hik) (hold hj hjk).2
    · exact absurd (hnew hj hjk) (hold hi hik).2
    · exact h.unique i j c (hold hi hik).1 (hold hj hjk).1

end Settled

instance : IsPreorder World Quiet where
  refl := Quiet.refl
  trans _ _ _ := Quiet.trans

instance : IsPreorder World Same where
  refl := Same.refl
  trans _ _ _ := Same.trans

/-- What the slot of an attribute holds; a call that has none starts and ends
with an empty one. -/
def heldBy (own : Option Keeper) (w : World) : Option ℕ := own.bind w.kept

/-- The connections are settled again, those of the other attributes are as they
were, and the slot has come from what it held to what it holds by allowed
events. -/
structure Keeps (own : Option Keeper) (w w' : World) : Prop where
  settled : Settled w'
  others : ∀ k, own ≠ some k → w'.kept k = w.kept k
  passed : Passed w w' (heldBy own w) (heldBy own w')

/-- A program keeps the connections settled.  As a relation of worlds it is a
preorder, which is what `Within` composes. -/
def KeepsSettled (own : Option Keeper) (w w' : World) : Prop := Settled w → Keeps own w w'

instance (own : Option Keeper) : IsPreorder World (KeepsSettled own) where
  refl _ h := ⟨h, fun _ _ => rfl, Passed.of_eq rfl⟩
  trans _ _ _ h h' hw :=
    have hkeeps := h hw
    have hkeeps' := h' hkeeps.settled
    ⟨hkeeps'.settled, fun k hk => (hkeeps'.others k hk).trans (hkeeps.others k hk),
      hkeeps.passed.trans hkeeps'.passed⟩

theorem Same.keepsSettled {w w' : World} (h : Same w w') : KeepsSettled none w w' :=
  fun hw => ⟨hw.of_same h, fun k _ => congrFun h.kept k, h.passed⟩

theorem Quiet.keepsSettled {own : Option Keeper} {w w' : World} (h : Quiet w w') :
    KeepsSettled own w w' := fun hw =>
  { settled := hw.of_same h.same
    others := fun k _ => congrFun h.kept k
    passed := by
      have hheld : heldBy own w' = heldBy own w := by rw [heldBy, heldBy, h.kept]
      rw [hheld]
      exact Passed.of_eq h.events }

/-- A connection that was kept goes back. -/
theorem Settled.keeps_put_back {w : World} {k : Keeper} {conn : ℕ} (h : Settled w)
    (hk : w.kept k = some conn) :
    Keeps (some k) w { w with
      out := w.out.erase conn
      events := w.events ++ [.put conn]
      kept := Function.update w.kept k none } where
  settled := h.put_back hk
  others := fun j hj => Function.update_of_ne (fun hjk => hj (congrArg some hjk.symm)) _ _
  passed := by
    have hheld : heldBy (some k) w = some conn := hk
    rw [hheld]
    refine Passed.of_step rfl ?_
    show (if conn = conn then some none else none) = some (Function.update w.kept k none k)
    rw [if_pos rfl, Function.update_self]

/-- A connection the pool gives is kept. -/
theorem Settled.keeps_take {w w' : World} {k : Keeper} {conn : ℕ} (h : Settled w)
    (hk : w.kept k = none) (hgiven : Given w conn w') :
    Keeps (some k) w { w' with kept := Function.update w'.kept k (some conn) } where
  settled := h.take hk hgiven
  others := by
    intro j hj
    show Function.update w'.kept k (some conn) j = w.kept j
    rw [Function.update_of_ne fun hjk => hj (congrArg some hjk.symm), hgiven.kept]
  passed := by
    obtain ⟨es, hevents, hafter⟩ := hgiven.passed
    have hheld : heldBy (some k) w = none := hk
    refine ⟨es, hevents, ?_⟩
    rw [hheld, hafter]
    exact congrArg some (Function.update_self k (some conn) w'.kept).symm

section Specs

open Attempts

variable {env : Environment}

theorem quiet_answer (call : Call) : Within Quiet (answer env call) :=
  fun _ => ⟨rfl, rfl, rfl, rfl⟩

theorem quiet_ask (call : Call) : Within Quiet (ask env call) :=
  Within.bind (quiet_answer call) fun a =>
    Within.bind (Within.of_modify (Quiet.meanwhile a.others)) fun _ => Within.pure a

theorem quiet_invoke (call : Call) : Within Quiet (invoke env call) := by
  refine Within.bind (quiet_ask call) fun a => ?_
  cases a.raised with
  | some e => exact Within.throw e
  | none => exact Within.pure a

theorem quiet_perform (call : Call) : Within Quiet (perform env call) :=
  Within.bind (quiet_invoke call) fun _ => Within.pure _

theorem quiet_execute (statement : Time → Option Statement) :
    Within Quiet (execute env statement) := by
  refine Within.bind (quiet_invoke .execute) fun a => ?_
  refine Within.bind Within.get fun w => ?_
  split
  · exact Within.of_modify fun w => ⟨rfl, rfl, rfl, rfl⟩
  · exact Within.throw _

theorem quiet_commit : Within Quiet (commit env) := by
  have hsettle : ∀ (tookEffect : Bool) (others : List Statement) (w : World),
      Quiet w ((w.settle tookEffect).meanwhile others) := fun tookEffect others w =>
    (Quiet.settle tookEffect w).trans (Quiet.meanwhile others _)
  refine Within.bind (quiet_answer .commit) fun a => ?_
  cases a.raised with
  | some e => exact Within.bind (Within.of_modify (hsettle _ _)) fun _ => Within.throw e
  | none => exact Within.of_modify (hsettle _ _)

theorem quiet_inTransaction {α : Type} {body : Py α} (hbody : Within Quiet body) :
    Within Quiet (inTransaction env body) := by
  refine Within.bind (quiet_invoke .begin) fun _ => ?_
  refine Within.bind (Within.tryCatch hbody fun e => ?_) fun r => ?_
  · exact Within.bind (Within.of_modify (Quiet.settle _)) fun _ => Within.throw e
  · exact Within.bind quiet_commit fun _ => Within.pure r

theorem within_raiseConnectionError {R : World → World → Prop} [IsPreorder World R] {α : Type}
    {body : Py α} (hbody : Within R body) : Within R (raiseConnectionError body) := by
  refine Within.tryCatch hbody fun e => ?_
  split_ifs
  · exact Within.throw _
  · exact Within.throw e

/-! ### The connection of a call -/

theorem ask_answered (env : Environment) (call : Call) (w₀ : World) :
    ⦃fun w => ⌜w = w₀⌝⦄ ask env call
    ⦃post⟨fun a w => ⌜Quiet w₀ w ∧ ∃ n, a = env call n⌝, fun _ _ => ⌜False⌝⟩⦄ := by
  mvcgen [ask, answer]
  rename_i w hw t u
  subst hw
  have hanswer : Quiet w { w with asked := w.asked + 1 } := ⟨rfl, rfl, rfl, rfl⟩
  exact ⟨hanswer.trans (Quiet.meanwhile _ _), w.asked, rfl⟩

theorem invoke_raised (env : Environment) (call : Call) (w₀ : World) :
    ⦃fun w => ⌜w = w₀⌝⦄ invoke env call
    ⦃post⟨fun _ w => ⌜Quiet w₀ w⌝,
      fun e w => ⌜Quiet w₀ w ∧ ∃ n, (env call n).raised = some e⌝⟩⦄ := by
  mvcgen [invoke, ask_answered]
  · rename_i w hw a e he w' hask
    obtain ⟨hquiet, n, rfl⟩ := hask
    exact ⟨hw ▸ hquiet, n, he⟩
  · rename_i w hw a he w' hask
    exact hw ▸ hask.1

theorem given_poolGetconn (w₀ : World) :
    ⦃fun w => ⌜w = w₀⌝⦄ poolGetconn env
    ⦃post⟨fun conn w => ⌜Given w₀ conn w⌝, fun _ w => ⌜Same w₀ w⌝⟩⦄ := by
  mvcgen [poolGetconn, ask_answered]
  · rename_i w hw a e he w' hask t
    obtain ⟨hquiet, -⟩ := hask
    subst hw
    refine hquiet.same.trans ⟨rfl, rfl, le_rfl, Passed.of_step rfl rfl⟩
  · rename_i w hw a he w' hask t
    obtain ⟨hquiet, -⟩ := hask
    subst hw
    exact Given.of_same hquiet.same
      ⟨rfl, rfl, le_rfl, Nat.lt_succ_self _, Passed.of_step rfl rfl⟩

section Drivers

variable (henv : Drivers env)

include henv

/-- Where the drivers keep their promise, `check_conn` raises nothing but
`ConnectionError`.  This is where the first of the two promises is used. -/
theorem checkConn_raised (w₀ : World) :
    ⦃fun w => ⌜w = w₀⌝⦄ checkConn env
    ⦃post⟨fun _ w => ⌜Quiet w₀ w⌝,
      fun e w => ⌜Quiet w₀ w ∧ e.isInstance [.connectionError] = true⌝⟩⦄ := by
  mvcgen [checkConn, invoke_raised]
  · rename_i w hw a w' hquiet
    exact hw ▸ hquiet
  · rename_i w hw e he w' hquiet
    exact ⟨hw ▸ hquiet.1, rfl⟩
  · rename_i w hw e he w' hquiet
    obtain ⟨n, hn⟩ := hquiet.2
    exact absurd (henv.consumeInput n e hn) he

theorem given_getconnOnce (w₀ : World) :
    ⦃fun w => ⌜w = w₀⌝⦄ getconnOnce env
    ⦃post⟨fun conn w => ⌜Given w₀ conn w⌝, fun _ w => ⌜Same w₀ w⌝⟩⦄ := by
  have hcheck := checkConn_raised henv
  mvcgen [getconnOnce, given_poolGetconn, hcheck, poolPutconn]
  · rename_i w hw conn w₁ hgiven _ w₂ hquiet
    exact hw ▸ hgiven.trans_quiet hquiet
  · rename_i w hw conn w₁ hgiven e _ _ w₂ hquiet t
    exact hw ▸ (hgiven.trans_quiet hquiet.1).same_putconn
  · rename_i w hw conn w₁ hgiven e _ hother w₂ hquiet
    exact absurd hquiet.2 hother
  · rename_i w hw e w₁
    exact fun hsame => hw ▸ hsame

/-- The connection `getconn` returns is a new one. -/
theorem given_getconn (w₀ : World) :
    ⦃fun w => ⌜w = w₀⌝⦄ getconn env
    ⦃post⟨fun conn w => ⌜Given w₀ conn w⌝, fun _ w => ⌜Same w₀ w⌝⟩⦄ := by
  refine attempts_spec (fun _ => Same w₀) (fun w hw => hw ▸ Same.refl w) fun _ _ => ?_
  exact triple_of_each (given_getconnOnce henv) (fun _ _ _ h h' => Given.of_same h h')
    fun _ _ _ h h' => ⟨fun _ _ => h.trans h', fun _ _ => h.trans h', fun _ => h.trans h'⟩

/-- **A connection that is taken for a block goes back**, however the block
ends.  The block itself must not ask the pool for anything. -/
theorem same_block {α : Type} {body : Py α} (hbody : Within Quiet body) :
    Within Same (do
      let conn ← getconn env
      tryFinally body (poolPutconn conn)) := by
  have hgetconn := given_getconn henv
  have hinside := Within.iff_triple.mp hbody
  refine Within.iff_triple.mpr fun w₀ => ?_
  mvcgen [hgetconn, hinside, poolPutconn]
  · rename_i w hw conn w₁ hgiven _ w₂ hdone t
    exact hw ▸ (hgiven.trans_quiet hdone).same_putconn
  · rename_i w hw conn w₁ hgiven e w₂ hfailed t
    exact hw ▸ (hgiven.trans_quiet hfailed).same_putconn
  · rename_i w hw e w₁
    exact fun hsame => hw ▸ hsame

theorem same_transaction {α : Type} {body : Py α} (hbody : Within Quiet body) :
    Within Same (transaction env body) := same_block henv (quiet_inTransaction hbody)

theorem same_listening {body : Py Unit} (hbody : Within Quiet body) :
    Within Same (listening env body) := by
  refine same_block henv (Within.bind (quiet_perform .autocommit) fun _ => ?_)
  refine Within.tryFinally (Within.bind (quiet_perform .listen) fun _ => hbody) ?_
  refine Within.tryCatch (quiet_perform .unlisten) fun e => ?_
  split_ifs
  · exact Within.pure _
  · exact Within.throw e

theorem same_enqueue {dqName : String → String} {notify : Bool} {message : Message}
    {delay : Option ℤ} : Within Same (RetryPg.enqueue env dqName notify message delay) := by
  have hemit : ∀ signal call, Within Same (emit env signal call) := fun signal call =>
    (Within.bind (Within.of_modify fun w => ⟨rfl, rfl, rfl, rfl⟩) fun _ =>
      quiet_perform call).mono fun _ _ => Quiet.same
  refine Within.attempts (Within.bind (hemit _ _) fun _ => ?_) 9
  refine Within.bind ((Within.bind (quiet_ask .currentMillis) fun a => Within.pure a.millis).mono
    fun _ _ => Quiet.same) ?_
  refine fun millis => Within.bind (same_transaction henv (quiet_execute _)) fun _ => ?_
  exact Within.bind (hemit _ _) fun _ => Within.pure _

theorem same_getResult (block : Bool) (reply : ℕ → Reply) :
    Within Same (getResult env block reply) := by
  refine Within.attempts (Within.bind Within.get fun w => ?_) 9
  refine Within.bind (same_listening henv (Within.bind (quiet_perform .execute) fun _ => ?_))
    fun _ => ?_
  · split
    · exact Within.pure _
    · exact Within.throw _
    · exact quiet_perform .notifies
  · split
    · exact Within.throw _
    · refine Within.bind (same_transaction henv (quiet_perform .execute)) fun _ => ?_
      split_ifs
      · exact Within.pure _
      · exact Within.throw _
    · exact Within.pure _

/-! ### The connections of the attributes -/

theorem keepsSettled_checkKept (k : Keeper) :
    Within (KeepsSettled (some k)) (checkKept env k) := by
  refine Within.get_bind fun w => ?_
  cases hk : w.kept k with
  | none => exact refl_of (KeepsSettled (some k)) w
  | some conn =>
      have hcheck := triple_iff.mp (checkConn_raised henv w) w rfl
      dsimp only
      rw [run_tryCatch]
      cases hrun : (checkConn env).run w with
      | ok _ w₁ =>
          rw [hrun] at hcheck
          exact hcheck.keepsSettled
      | error e w₁ =>
          rw [hrun] at hcheck
          dsimp only
          rw [if_pos hcheck.2]
          exact trans_of (KeepsSettled (some k)) hcheck.1.keepsSettled fun hsettled =>
            hsettled.keeps_put_back (hcheck.1.kept ▸ hk)

theorem keepsSettled_takeKept (k : Keeper) :
    Within (KeepsSettled (some k)) (takeKept env k) := by
  refine Within.get_bind fun w₀ => ?_
  cases hk : w₀.kept k with
  | some conn => exact refl_of (KeepsSettled (some k)) w₀
  | none =>
      have hgetconn := given_getconn henv
      refine Within.at_of_triple ?_
      mvcgen [hgetconn, keep]
      · rename_i w hw conn w₁ hgiven t
        intro hsettled
        subst hw
        exact hsettled.keeps_take hk hgiven
      · rename_i w hw e w₁
        intro hsame hsettled
        subst hw
        -- A slot that could not be filled is empty before and after.
        refine ⟨hsettled.of_same hsame, fun j _ => congrFun hsame.kept j, ?_⟩
        have hheld : heldBy (some k) w = none := hk
        have hheld' : heldBy (some k) w₁ = none := (congrFun hsame.kept k).trans hk
        rw [hheld, hheld']
        exact hsame.passed

theorem keepsSettled_getConsumeConn (k : Keeper) :
    Within (KeepsSettled (some k)) (getConsumeConn env k) :=
  Within.bind (keepsSettled_checkKept henv k) fun _ => keepsSettled_takeKept henv k

omit henv in
/-- A transaction on the connection of a consumer. -/
theorem keepsSettled_inTransaction {own : Option Keeper} {body : Py Unit}
    (hbody : Within Quiet body) : Within (KeepsSettled own) (inTransaction env body) :=
  (quiet_inTransaction hbody).mono fun _ _ => Quiet.keepsSettled

theorem keepsSettled_queryKept (k : Keeper) :
    Within (KeepsSettled (some k)) (queryKept env k) :=
  within_raiseConnectionError (Within.bind (keepsSettled_getConsumeConn henv k) fun _ =>
    keepsSettled_inTransaction (quiet_perform .execute))

omit henv in
theorem keepsSettled_maintain {own : Option Keeper} (upkeep : Option (List Unit)) :
    Within (KeepsSettled own) (maintain env upkeep) := by
  cases upkeep with
  | some statements =>
      exact keepsSettled_inTransaction (Within.forM (fun _ => quiet_perform .execute) statements)
  | none => exact Within.pure _

theorem keepsSettled_next (k : Keeper) (heartbeat : Bool) (upkeep : Option (List Unit))
    (claim : Bool) : Within (KeepsSettled (some k)) (next env k heartbeat upkeep claim) := by
  refine within_raiseConnectionError (Within.bind (keepsSettled_getConsumeConn henv k) fun _ => ?_)
  have hrest : Within (KeepsSettled (some k)) (do
      maintain env upkeep
      if claim then queryKept env k : Py Unit) := by
    refine Within.bind (keepsSettled_maintain upkeep) fun _ => ?_
    split_ifs
    · exact keepsSettled_queryKept henv k
    · exact Within.pure _
  cases heartbeat with
  | true =>
      exact Within.bind (keepsSettled_inTransaction (quiet_perform .execute)) fun _ => hrest
  | false => exact hrest

omit henv in
theorem keepsSettled_closeConsumer (k : Keeper) :
    Within (KeepsSettled (some k)) (closeConsumer k) := by
  refine Within.get_bind fun w => ?_
  cases hk : w.kept k with
  | none => exact refl_of (KeepsSettled (some k)) w
  | some conn => exact fun hsettled => hsettled.keeps_put_back hk

theorem exists_closed (w : World) :
    ∃ w', (perform env .close).run w = .ok () w' ∧ Quiet w w' := by
  have hraised := triple_iff.mp (invoke_raised env .close w) w rfl
  show ∃ w', EStateM.bind (invoke env .close) (fun _ => pure ()) w = _ ∧ _
  unfold EStateM.bind
  cases hrun : (invoke env .close).run w with
  | ok a w' =>
      rw [hrun] at hraised
      rw [EStateM.run] at hrun
      rw [hrun]
      exact ⟨w', rfl, hraised⟩
  | error e w' =>
      rw [hrun] at hraised
      obtain ⟨n, hn⟩ := hraised.2
      rw [henv.close n] at hn
      cases hn

/-- Since `close` raises nothing, the connection that is dropped goes back: the
second promise.  Without it the attribute would be `None` and the connection
still out. -/
theorem keepsSettled_dropConn : Within (KeepsSettled (some .notifier)) (dropConn env) := by
  refine Within.get_bind fun w => ?_
  cases hk : w.kept .notifier with
  | none => exact refl_of (KeepsSettled (some .notifier)) w
  | some conn =>
      obtain ⟨w', hclosed, hquiet⟩ := exists_closed henv w
      dsimp only
      rw [EStateM.run_bind, run_tryCatch, EStateM.run_bind, hclosed]
      exact trans_of (KeepsSettled (some .notifier)) hquiet.keepsSettled fun hsettled =>
        hsettled.keeps_put_back (hquiet.kept ▸ hk)

theorem keepsSettled_ensureConn (dirty : Bool) (channels : List String) :
    Within (KeepsSettled (some .notifier)) (ensureConn env dirty channels) := by
  have hcheck : Within Quiet (checkConn env) := by
    refine Within.tryCatch (Within.bind (quiet_invoke .consumeInput) fun _ => Within.pure _)
      fun e => ?_
    split_ifs <;> exact Within.throw _
  have hlisten : Within (KeepsSettled (some .notifier)) (do
      unlisten env
      channels.forM fun _ => listen env : Py Unit) :=
    (Within.bind (quiet_perform .unlisten) fun _ =>
      Within.forM (fun _ => quiet_perform .listen) channels).mono fun _ _ => Quiet.keepsSettled
  refine Within.bind Within.get fun w => ?_
  split
  · exact hcheck.mono fun _ _ => Quiet.keepsSettled
  · exact hlisten
  · exact Within.bind (keepsSettled_takeKept henv .notifier) fun _ =>
      Within.bind ((quiet_perform .autocommit).mono fun _ _ => Quiet.keepsSettled) fun _ => hlisten

/-- What each activity does to the slot of its attribute, or of its call.  All
the programs meet here, and nothing below looks at one again. -/
theorem keepsSettled_run (activity : Activity) :
    Within (KeepsSettled activity.keeper) (activity.run env) := by
  cases activity with
  | enqueue dqName notify message delay =>
      exact Within.bind ((same_enqueue henv).mono fun _ _ => Same.keepsSettled) fun _ =>
        Within.pure _
  | store =>
      exact (Within.attempts (same_transaction henv (quiet_perform .execute)) 9).mono
        fun _ _ => Same.keepsSettled
  | getResult block reply =>
      exact (same_getResult henv block reply).mono fun _ _ => Same.keepsSettled
  | settle =>
      exact within_raiseConnectionError ((same_transaction henv (quiet_perform .execute)).mono
        fun _ _ => Same.keepsSettled)
  | next index heartbeat upkeep claim => exact keepsSettled_next henv _ heartbeat upkeep claim
  | requeue index => exact keepsSettled_queryKept henv _
  | closeConsumer index => exact keepsSettled_closeConsumer _
  | listenOnce dirty channels =>
      exact Within.tryCatch (Within.bind (keepsSettled_ensureConn henv dirty channels) fun _ =>
        (quiet_perform .notifies).mono fun _ _ => Quiet.keepsSettled) fun _ =>
          keepsSettled_dropConn henv
  | dropConn => exact keepsSettled_dropConn henv
  | command statements =>
      exact (same_transaction henv (Within.forM (fun _ => quiet_perform .execute) statements)).mono
        fun _ _ => Same.keepsSettled

end Drivers

/-- What a sequence of activities keeps. -/
theorem settled_session (henv : Drivers env) (activities : List Activity) {w : World}
    (hw : Settled w) : Settled (session env activities w) := by
  induction activities generalizing w with
  | nil => exact hw
  | cons activity rest ih =>
      have hrun := keepsSettled_run henv activity w hw
      unfold session
      cases hend : (activity.run env).run w with
      | ok a w' | error a w' =>
          rw [hend] at hrun
          exact ih hrun.settled

/-- What a sequence of activities of one slot does to it: a run of
`KeepsSettled`, by induction. -/
theorem keepsSettled_session (henv : Drivers env) {k : Option Keeper} {activities : List Activity}
    (hk : ∀ activity ∈ activities, activity.keeper = k) (w : World) :
    KeepsSettled k w (session env activities w) := by
  induction activities generalizing w with
  | nil => exact refl_of (KeepsSettled k) w
  | cons activity rest ih =>
      have hrun := keepsSettled_run henv activity w
      rw [hk activity List.mem_cons_self] at hrun
      have hrest := ih fun other hother => hk other (List.mem_cons_of_mem _ hother)
      unfold session
      cases hend : (activity.run env).run w with
      | ok a w' | error a w' =>
          rw [hend] at hrun
          exact trans_of (KeepsSettled k) hrun (hrest w')

end Specs

/-- A thread that has done nothing. -/
def World.initial : World where
  asked := 0
  database := Database.empty
  pending := none
  out := []
  given := 0
  kept := fun _ => none
  checkouts := []
  events := []
  log := []

theorem settled_initial : Settled World.initial where
  fresh := fun _ hc => absurd hc List.not_mem_nil
  nodup := List.nodup_nil
  mem_out_iff := fun c =>
    ⟨fun hc => absurd hc List.not_mem_nil, fun ⟨k, hk⟩ => absurd hk.symm (Option.some_ne_none c)⟩
  unique := fun _ _ _ hi => by cases hi

namespace Settled

variable {w : World}

/-- Where no attribute keeps a connection, none is out. -/
theorem out_eq_nil (h : Settled w) (hkept : ∀ k, w.kept k = none) : w.out = [] := by
  refine List.eq_nil_iff_forall_not_mem.mpr fun c hc => ?_
  obtain ⟨k, hk⟩ := (h.mem_out_iff c).mp hc
  rw [hkept k] at hk
  cases hk

/-- There are no more connections out than attributes that may keep one. -/
theorem length_out_le (h : Settled w) {ks : List Keeper}
    (hks : ∀ k, w.kept k ≠ none → k ∈ ks) : w.out.length ≤ ks.length := by
  have hsub : w.out ⊆ ks.filterMap w.kept := by
    intro c hc
    obtain ⟨k, hk⟩ := (h.mem_out_iff c).mp hc
    exact List.mem_filterMap.mpr ⟨k, hks k (by rw [hk]; exact Option.some_ne_none c), hk⟩
  exact ((List.subperm_of_subset h.nodup hsub).length_le).trans (List.length_filterMap_le _ _)

end Settled

/-- **No connection is lost**, whatever the calls meet: those out of the pool
are those the attributes keep.  In particular there are never more of them out
than attributes that keep one. -/
theorem noneLost {env : Environment} (henv : Drivers env) (activities : List Activity) :
    let w := session env activities World.initial
    Settled w ∧ ((∀ k, w.kept k = none) → w.out = []) ∧
      ∀ ks : List Keeper, (∀ k, w.kept k ≠ none → k ∈ ks) → w.out.length ≤ ks.length :=
  have h := settled_session henv activities settled_initial
  ⟨h, h.out_eq_nil, fun _ => h.length_out_le⟩

/-- **No call asks for a connection while it holds one**: what passes between an
activity and the pool leads the slot of its attribute, or an empty slot of its
own, through the steps of `SharedPool.slotStep`, and the connections of the
other attributes stay where they are. -/
theorem oneAtATime {env : Environment} (henv : Drivers env) (before : List Activity)
    (activity : Activity) :
    let w := session env before World.initial
    let w' := session env [activity] w
    Passed w w' (heldBy activity.keeper w) (heldBy activity.keeper w') ∧
      ∀ k, activity.keeper ≠ some k → w'.kept k = w.kept k := by
  intro w w'
  have hkeeper : ∀ other ∈ [activity], other.keeper = activity.keeper := fun other hother =>
    congrArg Activity.keeper (List.mem_singleton.mp hother)
  have hrun := keepsSettled_session henv hkeeper w (settled_session henv before settled_initial)
  exact ⟨hrun.passed, hrun.others⟩

/-- An environment in which every third call meets a lost connection, so that
retries, dropped connections and raising activities all occur. -/
def flakyEnvironment : Environment := fun call n =>
  { others := []
    now := n
    millis := n
    raised := if call ≠ .close ∧ n % 3 = 0 then some ⟨.operationalError, "lost"⟩ else none
    tookEffect := true }

theorem drivers_flakyEnvironment : Drivers flakyEnvironment where
  consumeInput := by
    intro n e he
    simp only [flakyEnvironment] at he
    split_ifs at he
    cases he
    rfl
  close := fun _ => rfl

theorem noneLost_flakyEnvironment :
    let w := session flakyEnvironment
      [.next 0 true (some [(), ()]) true, .settle, .listenOnce true ["dramatiq.default.enqueue"],
        .closeConsumer 0, .dropConn] World.initial
    Settled w ∧ ((∀ k, w.kept k = none) → w.out = []) ∧
      ∀ ks : List Keeper, (∀ k, w.kept k ≠ none → k ∈ ks) → w.out.length ≤ ks.length :=
  noneLost drivers_flakyEnvironment _

theorem oneAtATime_flakyEnvironment :
    let w := session flakyEnvironment [.next 0 true (some [(), ()]) true] World.initial
    let w' := session flakyEnvironment [.requeue 0] w
    Passed w w' (heldBy (some (.consumer 0)) w) (heldBy (some (.consumer 0)) w') ∧
      ∀ k, some (.consumer 0) ≠ some k → w'.kept k = w.kept k :=
  oneAtATime drivers_flakyEnvironment [.next 0 true (some [(), ()]) true] (.requeue 0)

end RetryPg

end DramatiqPostgres
