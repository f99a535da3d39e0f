import DramatiqPostgres.Lib.Runs
import DramatiqPostgres.Pg.Notify
import Mathlib.Logic.Function.Basic

/-!
# Pooled connections and what they listen to

`transaction(pool, listen=channel)` takes a connection out of the pool, turns
autocommit on, LISTENs to the channel, runs its body, and puts the connection
back.  What LISTEN leaves on the connection (the subscription, the notifications
received and not read, autocommit) outlives the body, and is cleared by one
function, `unlisten_all`, which the exit stack calls on every path.

`useStep` is what the user of a connection does with it, one statement at a
time, and `sessionSystem` the step system of any number of users of any number
of connections, with notifications and losses of connections in between.  A user
may keep a connection over several transactions, as a consumer does; what the
statements do to the tables is not modelled here.

### Where a notification goes

A notification that commits reaches every open session that listens to its
channel at that moment, and waits in the backlog until the client reads it.  So
there are two ways in which one user can be handed what was meant for another:
the session still listens to a channel of a former use, or it no longer does,
but its backlog was not emptied.  `unlisten_all` has a statement against each,
in this order, and both have to work.

### What `unlisten_all` swallows

It runs in a `try` whose `except` is `DISCONNECT_ERRORS`, and the errors it
swallows are a wider class than the name says: `OperationalError` has
subclasses, such as the cancelling of a statement, after which the connection is
still open.  `CleanUp` lists the ways it can end, with what has been done by
then and with whether the connection is lost.

### The invariant

`Conn.Ok` has a clause for each side of a transaction: outside, the session is
lost or as good as new; inside, it listens to the transaction's channel at most,
and has received nothing else.  Every step that swallows no error on a
connection that stays open keeps it (`ok_step`), and `clean_unlistenAll_iff`
says that the condition cannot be weakened: with any other end of `unlisten_all`
the connection goes back in autocommit mode at least.
-/

namespace DramatiqPostgres

namespace Sessions

open Pg

universe u v

/-! ## Connections -/

/-- A connection: its session on the server, and what the client has received
and set on it. -/
structure Session where
  /-- The connection is lost. -/
  closed : Bool
  /-- The channels the session listens to. -/
  channels : List String
  /-- The notifications received and not read. -/
  backlog : List Notification
  autocommit : Bool

/-- Where the user of a connection stands.  The phases after `held` are those of
one `transaction(pool, listen=channel)`. -/
inductive Phase where
  /-- In no transaction that listens. -/
  | held
  /-- Autocommit is on and `unlisten_all` is deferred; LISTEN comes next. -/
  | opened (channel : String)
  /-- In the body. -/
  | listening (channel : String)
  /-- The body has returned or raised; `unlisten_all` comes next. -/
  | leaving (channel : String)

/-- The channel of the transaction, while there is one that listens. -/
def Phase.channel? : Phase → Option String
  | held => none
  | opened channel | listening channel | leaving channel => some channel

/-- How the statements of `unlisten_all` end, when the connection is open. -/
inductive CleanUp where
  | succeeds
  /-- UNLISTEN raises one of `DISCONNECT_ERRORS`, and the connection is lost
  with it or not. -/
  | unlistenRaises (lost : Bool)
  /-- The drain raises one, after some notifications. -/
  | drainRaises (drained : ℕ) (lost : Bool)

/-- Whether an error is swallowed and leaves the connection open. -/
def CleanUp.staysOpen : CleanUp → Bool
  | succeeds => false
  | unlistenRaises lost => !lost
  | drainRaises _ lost => !lost

namespace Session

/-- A new connection: it listens to nothing, and is in no autocommit mode. -/
def fresh : Session := ⟨false, [], [], false⟩

/-- `UNLISTEN *`. -/
def unlisten (x : Session) : Session := { x with channels := [] }

/-- `conn.notifies` read up to `count` notifications, the oldest first. -/
def read (count : ℕ) (x : Session) : Session := { x with backlog := x.backlog.drop count }

/-- The connection is lost, or not, with the error of a statement. -/
def lose (lost : Bool) (x : Session) : Session := { x with closed := x.closed || lost }

/-- `unlisten_all`, with the end it comes to.  An error of the drain comes after
UNLISTEN has worked, and leaves autocommit on. -/
def unlistenAll (x : Session) (cleanUp : CleanUp) : Session :=
  if x.closed then x
  else
    match cleanUp with
    | .succeeds => { x.unlisten.read x.backlog.length with autocommit := false }
    | .unlistenRaises lost => x.lose lost
    | .drainRaises drained lost => (x.unlisten.read drained).lose lost

/-- A notification reaches the sessions that listen to its channel, once each,
however often they have listened. -/
def receive (n : Notification) (x : Session) : Session :=
  if x.closed = false ∧ n.channel ∈ x.channels then { x with backlog := x.backlog ++ [n] } else x

end Session

/-- A connection of the pool, and its user while it has one.  The pool has it
exactly when nobody uses it. -/
structure Conn (υ : Type u) where
  session : Session
  use : Option (υ × Phase)

/-! ## Steps -/

/-- A step of the user of a connection: one for each statement of `transaction`,
and for each way it can end. -/
inductive UseAction where
  /-- `conn.autocommit = True`, and `defer.callback(unlisten_all, conn)`. -/
  | beginListen (channel : String)
  | listen
  /-- LISTEN raises. -/
  | listenRaises (lost : Bool)
  /-- `wait_for_notifies`, returning that many notifications. -/
  | wait (count : ℕ)
  /-- The body returns or raises. -/
  | leave
  | cleanUp (cleanUp : CleanUp)
  | putconn

/-- A step of a user, of another session, or of the network. -/
inductive Action (κ : Type v) (υ : Type u) where
  | getconn (user : υ) (c : κ)
  | use (user : υ) (c : κ) (action : UseAction)
  | notify (n : Notification)
  | lose (c : κ)

/-- The connection after a step of its user; `none` in place of the phase puts
it back.  An error of the LISTEN leads to the clean-up, since that is deferred
before. -/
def useStep : UseAction → Phase → Session → Option (Session × Option Phase)
  | .beginListen channel, .held, x =>
      -- psycopg refuses to change the mode of a closed connection
      if x.closed = false ∧ channel ≠ "" then
        some ({ x with autocommit := true }, some (.opened channel))
      else none
  | .listen, .opened channel, x =>
      if x.closed then none
      else some ({ x with channels := identifier channel :: x.channels }, some (.listening channel))
  | .listenRaises lost, .opened channel, x => some (x.lose lost, some (.leaving channel))
  | .wait count, .listening channel, x => some (x.read count, some (.listening channel))
  | .leave, .listening channel, x => some (x, some (.leaving channel))
  | .cleanUp cleanUp, .leaving _, x => some (x.unlistenAll cleanUp, some .held)
  | .putconn, .held, x => some (x, none)
  | _, _, _ => none

variable {κ : Type v} {υ : Type u} [DecidableEq κ] [DecidableEq υ]

/-- The connections after a step.  The pool replaces a lost connection when it
is asked for one, which is what `check_conn` and `check_connection` are for. -/
def step (s : κ → Conn υ) : Action κ υ → Option (κ → Conn υ)
  | .getconn user c =>
      match (s c).use with
      | none =>
          some (Function.update s c
            ⟨if (s c).session.closed then .fresh else (s c).session, some (user, .held)⟩)
      | some _ => none
  | .use user c action =>
      match (s c).use with
      | some (holder, phase) =>
          if holder = user then
            (useStep action phase (s c).session).map fun p =>
              Function.update s c ⟨p.1, p.2.map fun phase => (user, phase)⟩
          else none
      | none => none
  | .notify n => some fun c => { s c with session := (s c).session.receive n }
  | .lose c => some (Function.update s c { s c with session := (s c).session.lose true })

/-- Every run of users of a pool, with new connections.  The type of the
connections may be infinite, so the size of the pool does not matter here. -/
def sessionSystem (κ : Type v) (υ : Type u) [DecidableEq κ] [DecidableEq υ] :
    StepSystem (κ → Conn υ) (Action κ υ) :=
  ⟨fun _ => ⟨.fresh, none⟩, step⟩

/-! ## The invariant -/

/-- The connection is lost, or as good as new.  A lost one is thrown away by the
pool. -/
def Session.Clean (x : Session) : Prop :=
  x.closed = false → x.channels = [] ∧ x.backlog = [] ∧ x.autocommit = false

/-- The session listens to one channel at most, and has received nothing from
another.  The name is that of the channel cut to 63 bytes, as the server has
it. -/
structure Session.Confined (channel : String) (x : Session) : Prop where
  channels : ∀ name ∈ x.channels, name = identifier channel
  backlog : ∀ n ∈ x.backlog, n.channel = identifier channel

/-- The channel of the listening transaction a connection is in, if it is in
one. -/
def Conn.channel? (x : Conn υ) : Option String := x.use.bind fun use => use.2.channel?

/-- Outside a listening transaction a connection is clean; inside, it is the
transaction's own. -/
structure Conn.Ok (x : Conn υ) : Prop where
  clean : x.channel? = none → x.session.Clean
  confined : ∀ channel, x.channel? = some channel → x.session.Confined channel

/-- The step swallows no error on a connection that stays open.  Only the
clean-up of a connection can fail this. -/
def CleansUp (s : κ → Conn υ) : Action κ υ → Prop
  | .use _ c (.cleanUp cleanUp) => (s c).session.closed = false → cleanUp.staysOpen = false
  | _ => True

instance (s : κ → Conn υ) (a : Action κ υ) : Decidable (CleansUp s a) := by
  unfold CleansUp
  split <;> infer_instance

/-! ### What the steps do to a session -/

namespace Session

variable {x : Session} {channel : String}

theorem Clean.lose (h : x.Clean) (lost : Bool) : (x.lose lost).Clean := by
  intro hopen
  exact h (Bool.or_eq_false_iff.mp hopen).1

theorem Confined.lose (h : x.Confined channel) (lost : Bool) : (x.lose lost).Confined channel :=
  ⟨h.channels, h.backlog⟩

theorem Confined.read (h : x.Confined channel) (count : ℕ) : (x.read count).Confined channel :=
  ⟨h.channels, fun n hn => h.backlog n (List.mem_of_mem_drop hn)⟩

/-- A clean session receives nothing, since it listens to nothing or is lost. -/
theorem Clean.receive (h : x.Clean) (n : Notification) : (x.receive n).Clean := by
  rw [Session.receive]
  split_ifs with hlistens
  · rw [(h hlistens.1).1] at hlistens
    exact absurd hlistens.2 List.not_mem_nil
  · exact h

/-- A confined session receives what is sent to its channel. -/
theorem Confined.receive (h : x.Confined channel) (n : Notification) :
    (x.receive n).Confined channel := by
  rw [Session.receive]
  split_ifs with hlistens
  · refine ⟨h.channels, fun m hm => ?_⟩
    rcases List.mem_append.mp hm with hm | hm
    · exact h.backlog m hm
    · rw [List.mem_singleton.mp hm]
      exact h.channels _ hlistens.2
  · exact h

theorem mem_backlog_receive {n m : Notification} (h : n ∈ (x.receive m).backlog) :
    n ∈ x.backlog ∨ n = m := by
  unfold Session.receive at h
  split_ifs at h
  · exact (List.mem_append.mp h).imp_right List.mem_singleton.mp
  · exact Or.inl h

theorem backlog_unlistenAll {cleanUp : CleanUp} {n : Notification}
    (h : n ∈ (x.unlistenAll cleanUp).backlog) : n ∈ x.backlog := by
  unfold unlistenAll at h
  split_ifs at h
  · exact h
  · cases cleanUp with
    | succeeds => exact List.mem_of_mem_drop h
    | unlistenRaises => exact h
    | drainRaises => exact List.mem_of_mem_drop h

/-- **`unlisten_all` cleans**, unless it swallows an error on a connection that
stays open.  Nothing is asked of the session before: whatever it listened to,
and whatever it had received. -/
theorem clean_unlistenAll {cleanUp : CleanUp}
    (h : x.closed = false → cleanUp.staysOpen = false) : (x.unlistenAll cleanUp).Clean := by
  unfold unlistenAll
  split_ifs with hclosed
  · intro hopen
    rw [hclosed] at hopen
    cases hopen
  · have hlost := h (by simpa using hclosed)
    cases cleanUp with
    | succeeds => exact fun _ => ⟨rfl, List.drop_length, rfl⟩
    | unlistenRaises lost | drainRaises drained lost =>
        intro hopen
        rw [CleanUp.staysOpen, Bool.not_eq_false'] at hlost
        simp [Session.lose, hlost] at hopen

/-- A swallowed error leaves autocommit on, whatever it interrupts:
`unlisten_all` cleans an open connection exactly when it swallows none. -/
theorem clean_unlistenAll_iff {cleanUp : CleanUp} (hopen : x.closed = false)
    (hautocommit : x.autocommit = true) :
    (x.unlistenAll cleanUp).Clean ↔ cleanUp.staysOpen = false := by
  constructor
  · intro hclean
    by_contra hstays
    rw [Bool.not_eq_false] at hstays
    cases cleanUp with
    | succeeds => cases hstays
    | unlistenRaises lost | drainRaises drained lost =>
        rw [CleanUp.staysOpen, Bool.not_eq_true'] at hstays
        subst hstays
        simp [unlistenAll, hopen, Clean, Session.lose, Session.read, Session.unlisten,
          hautocommit] at hclean
  · exact fun hlost => clean_unlistenAll fun _ => hlost

end Session

namespace Conn

omit [DecidableEq υ]

variable {x : Conn υ} {user : υ} {channel : String} {y : Session}

theorem ok_held (h : y.Clean) : Conn.Ok (υ := υ) ⟨y, some (user, .held)⟩ :=
  ⟨fun _ => h, fun _ hname => by cases hname⟩

theorem ok_pooled (h : y.Clean) : Conn.Ok (υ := υ) ⟨y, none⟩ :=
  ⟨fun _ => h, fun _ hname => by cases hname⟩

theorem ok_of_confined {phase : Phase} (hphase : phase.channel? = some channel)
    (h : y.Confined channel) : Conn.Ok (υ := υ) ⟨y, some (user, phase)⟩ := by
  have hchannel : Conn.channel? (υ := υ) ⟨y, some (user, phase)⟩ = some channel := hphase
  refine ⟨fun hnone => ?_, fun name hname => ?_⟩
  · rw [hchannel] at hnone
    cases hnone
  · rw [hchannel, Option.some_inj] at hname
    exact hname ▸ h

/-- **Step lemma for the user of a connection.**  By cases on the statement:
LISTEN confines a clean session, and the clean-up cleans any. -/
theorem ok_useStep {phase : Phase} {action : UseAction} {next : Option Phase}
    (huse : x.use = some (user, phase)) (h : x.Ok)
    (hclean : ∀ cleanUp, action = .cleanUp cleanUp → x.session.closed = false →
      cleanUp.staysOpen = false)
    (hstep : useStep action phase x.session = some (y, next)) :
    Conn.Ok ⟨y, next.map fun phase => (user, phase)⟩ := by
  have hchannel : x.channel? = phase.channel? := by rw [channel?, huse]; rfl
  unfold useStep at hstep
  split at hstep
  · -- The connection was clean when its user turned autocommit on.
    split_ifs at hstep with hopen
    cases hstep
    obtain ⟨hchannels, hbacklog, -⟩ := h.clean hchannel hopen.1
    refine ok_of_confined rfl ⟨fun name hname => ?_, fun n hn => ?_⟩
    · rw [hchannels] at hname
      exact absurd hname List.not_mem_nil
    · rw [hbacklog] at hn
      exact absurd hn List.not_mem_nil
  · split_ifs at hstep
    cases hstep
    obtain ⟨hchannels, hbacklog⟩ := h.confined _ hchannel
    refine ok_of_confined rfl ⟨fun name hname => ?_, hbacklog⟩
    rcases List.mem_cons.mp hname with rfl | hname
    · rfl
    · exact hchannels name hname
  · cases hstep
    exact ok_of_confined rfl ((h.confined _ hchannel).lose _)
  · cases hstep
    exact ok_of_confined rfl ((h.confined _ hchannel).read _)
  · cases hstep
    exact ok_of_confined rfl (h.confined _ hchannel)
  · cases hstep
    exact ok_held (Session.clean_unlistenAll (hclean _ rfl))
  · cases hstep
    exact ok_pooled (h.clean hchannel)
  · cases hstep

end Conn

variable {s t : κ → Conn υ}

/-- What becomes of a connection in a step: it is handed out, its user acts, it
receives something, or it is lost. -/
inductive ConnStep (s : κ → Conn υ) (a : Action κ υ) (t : κ → Conn υ) (c : κ) : Prop where
  | same (other : ∀ user action, a ≠ .use user c action) (after : t c = s c)
  | taken {user : υ} (action : a = .getconn user c) (before : (s c).use = none)
      (after : t c = ⟨if (s c).session.closed then .fresh else (s c).session, some (user, .held)⟩)
  | used {user : υ} {phase : Phase} {action : UseAction} {y : Session} {next : Option Phase}
      (use : a = .use user c action) (before : (s c).use = some (user, phase))
      (step : useStep action phase (s c).session = some (y, next))
      (after : t c = ⟨y, next.map fun phase => (user, phase)⟩)
  | notified {n : Notification} (action : a = .notify n)
      (after : t c = { s c with session := (s c).session.receive n })
  | lost (action : a = .lose c) (after : t c = { s c with session := (s c).session.lose true })

/-- **The one inversion of `step`.**  It speaks of one connection at a time, so
the updates of the others drop out. -/
theorem connStep_of_step {a : Action κ υ} (h : step s a = some t) (c : κ) : ConnStep s a t c := by
  cases a with
  | getconn user c' =>
      rw [step] at h
      split at h
      · next huse =>
          cases h
          by_cases hc : c = c'
          · subst hc
            exact .taken rfl huse (Function.update_self _ _ _)
          · exact .same (fun _ _ hac => by cases hac) (Function.update_of_ne hc _ _)
      · cases h
  | use user c' action =>
      rw [step] at h
      split at h
      · next holder phase huse =>
          split_ifs at h with huser
          obtain ⟨⟨y, next⟩, hy, rfl⟩ := Option.map_eq_some_iff.mp h
          subst huser
          by_cases hc : c = c'
          · subst hc
            exact .used rfl huse hy (Function.update_self _ _ _)
          · exact .same (fun _ _ hac => by cases hac; exact hc rfl) (Function.update_of_ne hc _ _)
      · cases h
  | notify n =>
      cases h
      exact .notified rfl rfl
  | lose c' =>
      cases h
      by_cases hc : c = c'
      · subst hc
        exact .lost rfl (Function.update_self _ _ _)
      · exact .same (fun _ _ hac => by cases hac) (Function.update_of_ne hc _ _)

/-- **Every step that cleans up keeps the invariant**, on every connection. -/
theorem ok_step {a : Action κ υ} (h : ∀ c, (s c).Ok) (hclean : CleansUp s a)
    (hstep : step s a = some t) : ∀ c, (t c).Ok := by
  intro c
  cases connStep_of_step hstep c with
  | same _ hafter => exact hafter ▸ h c
  | taken _ hbefore hafter =>
      rw [hafter]
      refine Conn.ok_held ?_
      split_ifs
      · exact fun _ => ⟨rfl, rfl, rfl⟩
      · exact (h c).clean (by rw [Conn.channel?, hbefore]; rfl)
  | used huse hbefore hy hafter =>
      subst huse
      rw [hafter]
      refine Conn.ok_useStep hbefore (h c) ?_ hy
      rintro cleanUp rfl
      exact hclean
  | notified _ hafter =>
      rw [hafter]
      exact ⟨fun hnone => ((h c).clean hnone).receive _,
        fun channel hsome => ((h c).confined channel hsome).receive _⟩
  | lost _ hafter =>
      rw [hafter]
      exact ⟨fun hnone => ((h c).clean hnone).lose true,
        fun channel hsome => ((h c).confined channel hsome).lose true⟩

/-- A new pool is clean. -/
theorem ok_init : ∀ c, ((sessionSystem κ υ).init c).Ok :=
  fun _ => Conn.ok_pooled fun _ => ⟨rfl, rfl, rfl⟩

/-! ### What the steps do to a use and to a backlog -/

/-- A user stays in its own channel, unless it begins to listen. -/
theorem channel?_of_useStep {action : UseAction} {phase phase' : Phase} {x y : Session}
    {channel : String} (h : useStep action phase x = some (y, some phase'))
    (hchannel : phase'.channel? = some channel) :
    phase.channel? = some channel ∨ action = .beginListen channel := by
  unfold useStep at h
  split at h
  · split_ifs at h
    cases h
    rw [Option.some_inj.mp hchannel]
    exact Or.inr rfl
  · split_ifs at h
    cases h
    exact Or.inl hchannel
  · cases h
    exact Or.inl hchannel
  · cases h
    exact Or.inl hchannel
  · cases h
    exact Or.inl hchannel
  · cases h
    cases hchannel
  · cases h
  · cases h

/-- Putting a connection back ends its use. -/
theorem eq_none_of_putconn {phase : Phase} {x : Session} {p : Session × Option Phase}
    (h : useStep .putconn phase x = some p) : p.2 = none := by
  cases phase <;> cases h
  rfl

/-- Nothing comes into a backlog by a step of the connection's user. -/
theorem backlog_of_useStep {action : UseAction} {phase : Phase} {x : Session}
    {p : Session × Option Phase} (h : useStep action phase x = some p) :
    ∀ n ∈ p.1.backlog, n ∈ x.backlog := by
  unfold useStep at h
  split at h
  · split_ifs at h
    cases h
    exact fun _ hn => hn
  · split_ifs at h
    cases h
    exact fun _ hn => hn
  · cases h
    exact fun _ hn => hn
  · cases h
    exact fun _ hn => List.mem_of_mem_drop hn
  · cases h
    exact fun _ hn => hn
  · cases h
    exact fun _ hn => Session.backlog_unlistenAll hn
  · cases h
    exact fun _ hn => hn
  · cases h

/-- How a connection comes to be used as it is: it was just taken, its user
acted, or it was used so before. -/
inductive UseStep (s : κ → Conn υ) (a : Action κ υ) (c : κ) (user : υ) (phase : Phase) : Prop where
  | kept (before : (s c).use = some (user, phase))
      (other : ∀ user action, a ≠ .use user c action)
  | taken (getconn : a = .getconn user c) (phase : phase = .held)
  | moved {before : Phase} {action : UseAction} (use : a = .use user c action)
      (put : action ≠ .putconn) (holds : (s c).use = some (user, before))
      (channel : ∀ channel, phase.channel? = some channel →
        before.channel? = some channel ∨ action = .beginListen channel)

/-- **The use of a connection after a step.**  For layers that have a state of
their own for each user. -/
theorem useStep_of_step {a : Action κ υ} (h : step s a = some t) {c : κ} {user : υ} {phase : Phase}
    (huse : (t c).use = some (user, phase)) : UseStep s a c user phase := by
  cases connStep_of_step h c with
  | same hother hafter => exact .kept (hafter ▸ huse) hother
  | taken haction _ hafter =>
      rw [hafter] at huse
      cases huse
      exact .taken haction rfl
  | used ha hbefore hy hafter =>
      rw [hafter] at huse
      obtain ⟨after, rfl, hphase⟩ := Option.map_eq_some_iff.mp huse
      cases hphase
      refine .moved ha ?_ hbefore fun channel => channel?_of_useStep hy
      rintro rfl
      cases eq_none_of_putconn hy
  | notified haction hafter =>
      rw [hafter] at huse
      exact .kept huse fun _ _ hac => by rw [haction] at hac; cases hac
  | lost haction hafter =>
      rw [hafter] at huse
      exact .kept huse fun _ _ hac => by rw [haction] at hac; cases hac

/-- A connection is used by its user. -/
theorem exists_phase_of_step {user : υ} {c : κ} {action : UseAction}
    (h : step s (.use user c action) = some t) :
    ∃ phase p, (s c).use = some (user, phase) ∧ useStep action phase (s c).session = some p := by
  cases connStep_of_step h c with
  | same hother => exact absurd rfl (hother user action)
  | taken hac => cases hac
  | used hac hbefore hy =>
      cases hac
      exact ⟨_, _, hbefore, hy⟩
  | notified hac => cases hac
  | lost hac => cases hac

/-- **The backlogs after a step.**  What is in one was there before, or has just
been sent; no step makes a notification up. -/
theorem mem_backlog_of_step {a : Action κ υ} (h : step s a = some t) {c : κ} {n : Notification}
    (hn : n ∈ (t c).session.backlog) : n ∈ (s c).session.backlog ∨ a = .notify n := by
  cases connStep_of_step h c with
  | same _ hafter => exact Or.inl (hafter ▸ hn)
  | taken _ _ hafter =>
      rw [hafter] at hn
      refine Or.inl ?_
      split_ifs at hn
      · exact absurd hn List.not_mem_nil
      · exact hn
  | used _ _ hy hafter =>
      rw [hafter] at hn
      exact Or.inl (backlog_of_useStep hy n hn)
  | notified haction hafter =>
      rw [hafter] at hn
      rcases Session.mem_backlog_receive hn with hn | rfl
      · exact Or.inl hn
      · exact Or.inr haction
  | lost _ hafter =>
      rw [hafter] at hn
      exact Or.inl hn

end Sessions

end DramatiqPostgres
