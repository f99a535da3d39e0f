import DramatiqPostgres.Lib.Dict
import DramatiqPostgres.Lib.Runs
import DramatiqPostgres.Pg.Notify
import Mathlib.Data.Finset.Basic

/-!
# The notifier thread

One thread per process listens, on one connection, to the channels of all
consumers, and sets their wake-up events.  Consumers subscribe and unsubscribe
from threads of their own; what they change is `subscriptions`, under a lock,
and then the flag `dirty`, which makes the notifier listen anew.

`notifierSystem` interleaves the locked sections of any calls, statement by
statement, with the steps of the thread, each of which may fail.  As nobody
looks at `subscriptions` without the lock, what a call does to them is one step;
at most one call is inside its section (`State.inside`), and the thread takes
the lock only while there is none.

`Listens` is the law.  It is carried by `State.promised`: what the connection
will listen to once the thread receives, from the snapshot on.  As long as
`dirty` is clear and no call has changed the subscriptions without setting it,
the promise is kept (`Ok.promised`); a failure drops the connection and with it
the promise.

### Why the flag is enough

The thread clears `dirty` *before* it takes its snapshot of the channels, and a
call sets it *after* it has changed them.  So a change that the snapshot missed
came after it, and its call has still to set the flag, or has set it since it
was cleared; in both cases the thread listens anew before it rests.  With the
two statements of the thread in the other order a change could fall between the
snapshot and the clear, and be forgotten.

### Names

LISTEN takes an identifier, and the server cuts one of 64 bytes or more.  So the
law is about the names the server makes of the subscribed channels
(`identifier`), and not about the channels; for short ones that is the same, and
a longer one is listened to under the first 63 bytes of its name.

### What can fail

Every statement of the thread that talks to the server, and the receipt of
notifications.  Where it is inside of the `try` the connection is dropped and
the loop begins again; the pool may hand out the same connection later, with
whatever it listens to.
-/

namespace DramatiqPostgres

namespace Notifier

open Pg

/-! ## The thread and its callers -/

/-- A call inside of its locked section, before its next statement.  There is
one case for each statement that changes something others can see. -/
inductive Section (ε : Type) where
  | subscribing (channel : String) (event : ε)
  /-- The event is added, and `dirty` not yet set. -/
  | added
  | marked
  /-- `started_once` is set, and the thread not yet started. -/
  | starting
  | unsubscribing (channel : String) (event : ε)
  /-- The channel is deleted, and `dirty` not yet set. -/
  | deleted
  | leaving

/-- The call has changed the channels, and not yet set `dirty`. -/
def Section.hasChanged {ε : Type} : Section ε → Bool
  | added | deleted => true
  | _ => false

/-- Where the thread is.  The points carry what it has in its local
variables. -/
inductive Point (ε : Type) where
  | notStarted
  /-- At the head of the loop of `run`. -/
  | head
  | checking
  | opening
  /-- Connected, before `dirty.clear()`. -/
  | clearing
  | snapshotting
  | unlistening (channels : List String)
  | listening (channels : List String)
  /-- In `conn.notifies`. -/
  | receiving
  /-- Outside of the lock again, with the events of a notification. -/
  | ringing (events : Finset ε)
  | failed
  | stopped

namespace Point

variable {ε : Type}

/-- The thread has been started. -/
def hasStarted : Point ε → Bool
  | notStarted => false
  | _ => true

/-- In the loop over the notifications. -/
def isReceiving : Point ε → Bool
  | receiving | ringing _ => true
  | _ => false

/-- The thread has a connection. -/
def isConnected : Point ε → Bool
  | checking | clearing | snapshotting | unlistening _ | listening _ | receiving | ringing _ => true
  | _ => false

/-- Inside of the `try` of `run`, where an exception drops the connection. -/
def canFail : Point ε → Bool
  | opening => true
  | point => point.isConnected

end Point

/-- The notifier of a process: what the threads share, where the notifier's
thread is, and what its connection listens to.  The two histories count the
calls of `subscribe` and who of them started the thread. -/
structure State (ε : Type) where
  /-- The events of each channel. -/
  subscriptions : List (String × Finset ε)
  dirty : Bool
  stopping : Bool
  startedOnce : Bool
  /-- The names the connection listens to. -/
  conn : Option (List String)
  point : Point ε
  /-- The call that holds the lock. -/
  inside : Option (Section ε)
  /-- The events that were set. -/
  rung : Finset ε
  /-- History: how many calls of `subscribe` took the lock. -/
  subscribes : ℕ
  /-- History: the number of each call that started the thread. -/
  starts : List ℕ

/-- A step of the thread. -/
inductive ThreadStep where
  /-- The next statement succeeds. -/
  | proceed
  /-- The pool has a connection, which may listen to something. -/
  | opened (names : List String)
  | notified (channel : String)
  | timeout
  /-- The next statement raises. -/
  | fail

/-- A call takes the lock, or goes on inside of its section; or the thread takes
a step; or the broker is closed. -/
inductive Action (ε : Type) where
  | subscribe (channel : String) (event : ε)
  | unsubscribe (channel : String) (event : ε)
  | call
  | thread (step : ThreadStep)
  | stop

namespace State

variable {ε : Type} [DecidableEq ε]

/-- `Notifier(pool)`. -/
def init : State ε := ⟨[], false, false, false, none, .notStarted, none, ∅, 0, []⟩

/-- The state after the next statement of a locked section, with the release of
the lock at its end. -/
def callStep (s : State ε) : Section ε → State ε
  | .subscribing channel event =>
      { s with
        subscriptions :=
          Dict.set channel (insert event ((Dict.get? channel s.subscriptions).getD ∅))
            s.subscriptions
        inside := some .added }
  | .added => { s with dirty := true, inside := some .marked }
  | .marked =>
      if s.startedOnce then { s with inside := some .leaving }
      else { s with startedOnce := true, inside := some .starting }
  | .starting =>
      { s with point := .head, starts := s.starts ++ [s.subscribes], inside := some .leaving }
  | .unsubscribing channel event =>
      match Dict.get? channel s.subscriptions with
      | none => { s with inside := some .leaving }
      | some events =>
          if events.erase event = ∅ then
            { s with
              subscriptions := Dict.erase channel s.subscriptions
              inside := some .deleted }
          else
            { s with
              subscriptions := Dict.set channel (events.erase event) s.subscriptions
              inside := some .leaving }
  | .deleted => { s with dirty := true, inside := some .leaving }
  | .leaving => { s with inside := none }

/-- The head of the loop, and the beginning of `ensure_conn`. -/
def atHead (s : State ε) : State ε :=
  if s.stopping then { s with conn := none, point := .stopped }
  else if s.conn.isSome ∧ s.dirty = false then { s with point := .checking }
  else if s.conn.isNone then { s with point := .opening }
  else { s with point := .clearing }

/-- The next statement of the thread, which succeeds.  It is not possible while
a call holds the lock that the statement needs. -/
def proceed (s : State ε) : Option (State ε) :=
  match s.point with
  | .head => some s.atHead
  | .checking => some { s with point := .receiving }
  | .clearing => some { s with dirty := false, point := .snapshotting }
  | .snapshotting =>
      if s.inside.isNone then
        some { s with point := .unlistening (s.subscriptions.map Prod.fst) }
      else none
  | .unlistening channels => some { s with conn := some [], point := .listening channels }
  | .listening [] => some { s with point := .receiving }
  -- the server cuts a name of 64 bytes or more
  | .listening (channel :: rest) =>
      some { s with conn := s.conn.map (identifier channel :: ·), point := .listening rest }
  | .ringing events =>
      some { s with
        rung := s.rung ∪ events
        point := if s.stopping ∨ s.dirty = true then .head else .receiving }
  -- `drop_conn`
  | .failed => some { s with conn := none, point := .head }
  | .notStarted | .opening | .receiving | .stopped => none

/-- The state after a step of the thread. -/
def threadStep (s : State ε) : ThreadStep → Option (State ε)
  | .proceed => s.proceed
  | .opened names =>
      match s.point with
      | .opening => some { s with conn := some names, point := .clearing }
      | _ => none
  | .notified channel =>
      match s.point with
      | .receiving =>
          if s.inside.isNone then
            some { s with point := .ringing ((Dict.get? channel s.subscriptions).getD ∅) }
          else none
      | _ => none
  | .timeout =>
      match s.point with
      | .receiving => some { s with point := .head }
      | _ => none
  | .fail => if s.point.canFail then some { s with point := .failed } else none

/-- The state after a step. -/
def step (s : State ε) : Action ε → Option (State ε)
  | .subscribe channel event =>
      if s.inside.isNone then
        some { s with
          inside := some (.subscribing channel event)
          subscribes := s.subscribes + 1 }
      else none
  | .unsubscribe channel event =>
      if s.inside.isNone then some { s with inside := some (.unsubscribing channel event) }
      else none
  | .call => s.inside.map s.callStep
  | .thread step => s.threadStep step
  | .stop => some { s with stopping := true }

end State

/-- Every run of a notifier and its callers. -/
def notifierSystem (ε : Type) [DecidableEq ε] : StepSystem (State ε) (Action ε) :=
  ⟨State.init, State.step⟩

/-! ## The law -/

/-- **The notifier listens to what is subscribed**, up to the name that a
channel has on the connection, and it is started once. -/
structure Listens {ε : Type} (rename : String → String) (s : State ε) : Prop where
  listens : s.point.isReceiving = true → s.dirty = false → s.inside = none →
    ∃ names, s.conn = some names ∧ ∀ name, name ∈ names ↔
      ∃ channel events, Dict.get? channel s.subscriptions = some events ∧ events.Nonempty ∧
        rename channel = name
  notEmpty : ∀ channel events, Dict.get? channel s.subscriptions = some events → events.Nonempty
  /-- Nobody but the first `subscribe` starts the thread. -/
  startedByFirst : s.starts = [] ∨ s.starts = [1]
  /-- It has done so when it leaves its locked section. -/
  started : s.inside = none → s.starts = if s.subscribes = 0 then [] else [1]

/-! ## The invariant -/

section Invariant

variable {ε : Type} {s t : State ε}

/-- What the connection will listen to when the thread receives, if nothing
fails: what it listens to already, and what the thread has still to add;
nothing, while a snapshot is still to be made. -/
def State.promised (s : State ε) : Option (List String) :=
  match s.point with
  | .unlistening channels => some (channels.map identifier)
  | .listening channels => s.conn.map (· ++ channels.map identifier)
  | .receiving | .ringing _ | .head | .checking => s.conn
  | _ => none

/-- No call has changed the channels without setting `dirty`, and `dirty` is
clear: what was promised is what is subscribed. -/
def State.Settled (s : State ε) : Prop :=
  s.dirty = false ∧ ∀ section', s.inside = some section' → section'.hasChanged = false

/-- The names of the subscribed channels, as the server keeps them. -/
def State.names (s : State ε) : List String := (s.subscriptions.map Prod.fst).map identifier

/-- A call of `subscribe` that has not yet come to `started_once`. -/
def Section.isFirst : Section ε → Bool
  | subscribing _ _ | added | marked => true
  | _ => false

/-- How the counters, `started_once` and the call in its section fit together:
the first call is the one that finds the flag clear, and starts the thread. -/
inductive Started : ℕ → Bool → List ℕ → Option (Section ε) → Prop where
  | never {inside : Option (Section ε)}
      (h : ∀ section', inside = some section' → section'.isFirst = false ∧ section' ≠ .starting) :
      Started 0 false [] inside
  | first {section' : Section ε} (h : section'.isFirst = true) : Started 1 false [] (some section')
  | starting : Started 1 true [] (some .starting)
  | done {n : ℕ} {inside : Option (Section ε)} (hn : 0 < n) (h : inside ≠ some .starting) :
      Started n true [1] inside

/-- The invariant of `notifierSystem`.  The clause `promised` is the law, seen
ahead of time: it holds from the snapshot on, and at the receiving thread it is
what the law says. -/
structure Ok (s : State ε) : Prop where
  promised : s.Settled → ∀ names, s.promised = some names →
    ∀ name, name ∈ names ↔ name ∈ s.names
  connected : s.point.isConnected = true → s.conn.isSome = true
  idle : s.starts = [] → s.point = .notStarted ∧ s.conn = none
  notEmpty : ∀ e ∈ s.subscriptions, e.2.Nonempty
  started : Started s.subscribes s.startedOnce s.starts s.inside

theorem ok_init [DecidableEq ε] : Ok (State.init : State ε) where
  promised := fun _ _ h => nomatch h
  connected := nofun
  idle := fun _ => ⟨rfl, rfl⟩
  notEmpty := nofun
  started := .never nofun

/-! ## Statements of the locked sections -/

/-- A statement that leaves the channels and the thread alone. -/
theorem Ok.stay (h : Ok s) (hnames : t.names = s.names) (hpoint : t.point = s.point)
    (hconn : t.conn = s.conn) (hstarts : t.starts = s.starts) (hsettled : t.Settled → s.Settled)
    (hnotEmpty : ∀ e ∈ t.subscriptions, e.2.Nonempty)
    (hstarted : Started t.subscribes t.startedOnce t.starts t.inside) : Ok t where
  promised := by
    intro ht names hpromised
    rw [State.promised, hpoint, hconn] at hpromised
    rw [hnames]
    exact h.promised (hsettled ht) names hpromised
  connected := by
    rw [hpoint, hconn]
    exact h.connected
  idle := by
    rw [hstarts, hpoint, hconn]
    exact h.idle
  notEmpty := hnotEmpty
  started := hstarted

/-- A statement after which `dirty` is set, or has still to be set, makes no
promise, so that nothing is to be shown of the channels. -/
theorem Ok.unsettle (h : Ok s) (hpoint : t.point = s.point) (hconn : t.conn = s.conn)
    (hstarts : t.starts = s.starts) (hsettled : ¬ t.Settled)
    (hnotEmpty : ∀ e ∈ t.subscriptions, e.2.Nonempty)
    (hstarted : Started t.subscribes t.startedOnce t.starts t.inside) : Ok t where
  promised := fun ht => absurd ht hsettled
  connected := by
    rw [hpoint, hconn]
    exact h.connected
  idle := by
    rw [hstarts, hpoint, hconn]
    exact h.idle
  notEmpty := hnotEmpty
  started := hstarted

theorem not_settled_of_dirty (h : s.dirty = true) : ¬ s.Settled := by
  intro hsettled
  have hclear := hsettled.1
  rw [h] at hclear
  cases hclear

theorem not_settled_of_hasChanged {section' : Section ε} (h : s.inside = some section')
    (hchanged : section'.hasChanged = true) : ¬ s.Settled := by
  intro hsettled
  rw [hsettled.2 section' h] at hchanged
  cases hchanged

/-- A call that enters or leaves, or moves on without a change of the channels,
settles nothing. -/
theorem settled_of_hasChanged {section' : Section ε} (hdirty : t.dirty = s.dirty)
    (hinside : s.inside = none ∨ s.inside = some section') (hchanged : section'.hasChanged = false)
    (ht : t.Settled) : s.Settled := by
  refine ⟨hdirty ▸ ht.1, fun other hother => ?_⟩
  rcases hinside with hnone | hsome
  · rw [hnone] at hother
    cases hother
  · rw [hsome, Option.some_inj] at hother
    exact hother ▸ hchanged

section Started

variable {n : ℕ} {once : Bool} {starts : List ℕ} {section' next : Section ε}

/-- A call that does not come to `started_once` goes on. -/
theorem Started.leave (h : Started n once starts (some section'))
    (hfirst : section'.isFirst = false) (hstarting : section' ≠ .starting)
    (hnext : next.isFirst = false ∧ next ≠ .starting) : Started n once starts (some next) := by
  generalize hinside : some section' = inside at h
  cases h with
  | never hall =>
      refine .never fun other hother => ?_
      cases hother
      exact hnext
  | first hfirst' =>
      cases hinside
      rw [hfirst] at hfirst'
      cases hfirst'
  | starting =>
      cases hinside
      exact absurd rfl hstarting
  | done hn hne =>
      refine .done hn fun hother => ?_
      cases hother
      exact hnext.2 rfl

/-- A call that has not yet come to `started_once` goes on. -/
theorem Started.goOn (h : Started n once starts (some section')) (hfirst : section'.isFirst = true)
    (hnext : next.isFirst = true) : Started n once starts (some next) := by
  generalize hinside : some section' = inside at h
  cases h with
  | never hall =>
      rw [(hall section' hinside.symm).1] at hfirst
      cases hfirst
  | first hfirst' => exact .first hnext
  | starting => cases hinside; cases hfirst
  | done hn hne =>
      refine .done hn fun hother => ?_
      cases hother
      cases hnext

/-- The first call of `subscribe` finds `started_once` clear. -/
theorem Started.claim (h : Started n false starts (some (.marked : Section ε))) :
    Started n true starts (some (.starting : Section ε)) := by
  generalize hinside : some Section.marked = inside at h
  cases h with
  | never hall => cases (hall _ hinside.symm).1
  | first hfirst => exact .starting

/-- A later one finds it set. -/
theorem Started.pass (h : Started n true starts (some (.marked : Section ε))) :
    Started n true starts (some (.leaving : Section ε)) := by
  generalize hinside : some Section.marked = inside at h
  cases h with
  | starting => cases hinside
  | done hn hne => exact .done hn nofun

theorem Started.of_starting (h : Started n once starts (some (.starting : Section ε))) :
    n = 1 ∧ once = true ∧ starts = [] := by
  generalize hinside : some Section.starting = inside at h
  cases h with
  | never hall => exact absurd rfl (hall _ hinside.symm).2
  | first hfirst => cases hinside; cases hfirst
  | starting => exact ⟨rfl, rfl, rfl⟩
  | done hn hne => exact absurd hinside.symm hne

/-- The lock is released. -/
theorem Started.unlock (h : Started n once starts (some (.leaving : Section ε))) :
    Started n once starts (none : Option (Section ε)) := by
  generalize hinside : some Section.leaving = inside at h
  cases h with
  | never hall => exact .never nofun
  | first hfirst => cases hinside; cases hfirst
  | starting => cases hinside
  | done hn hne => exact .done hn nofun

/-- A call of `subscribe` takes the lock. -/
theorem Started.subscribe (h : Started n once starts (none : Option (Section ε)))
    (channel : String) (event : ε) :
    Started (n + 1) once starts (some (.subscribing channel event)) := by
  generalize hinside : (none : Option (Section ε)) = inside at h
  cases h with
  | never hall => exact .first rfl
  | first hfirst => cases hinside
  | starting => cases hinside
  | done hn hne => exact .done n.succ_pos nofun

/-- A call of `unsubscribe` does. -/
theorem Started.unsubscribe (h : Started n once starts (none : Option (Section ε)))
    (channel : String) (event : ε) :
    Started n once starts (some (.unsubscribing channel event)) := by
  generalize hinside : (none : Option (Section ε)) = inside at h
  cases h with
  | never hall =>
      refine .never fun other hother => ?_
      cases hother
      exact ⟨rfl, nofun⟩
  | first hfirst => cases hinside
  | starting => cases hinside
  | done hn hne => exact .done hn nofun

/-- What the counters say outside of the locked sections. -/
theorem Started.outside (h : Started n once starts (none : Option (Section ε))) :
    starts = if n = 0 then [] else [1] := by
  generalize hinside : (none : Option (Section ε)) = inside at h
  cases h with
  | never hall => rfl
  | first hfirst => cases hinside
  | starting => cases hinside
  | done hn hne => rw [if_neg hn.ne']

theorem Started.starts_eq {inside : Option (Section ε)} (h : Started n once starts inside) :
    starts = [] ∨ starts = [1] := by
  cases h with
  | never hall => exact Or.inl rfl
  | first hfirst => exact Or.inl rfl
  | starting => exact Or.inl rfl
  | done hn hne => exact Or.inr rfl

end Started

/-! ## What follows from the invariant -/

/-- The subscribed channels are those with an event. -/
theorem Ok.mem_names_iff (h : Ok s) (name : String) :
    name ∈ s.names ↔ ∃ channel events, Dict.get? channel s.subscriptions = some events ∧
      events.Nonempty ∧ identifier channel = name := by
  rw [State.names, List.mem_map]
  constructor
  · rintro ⟨channel, hmem, hname⟩
    have hsome := mt Dict.get?_eq_none_iff.mp (not_not.mpr hmem)
    obtain ⟨events, hevents⟩ := Option.ne_none_iff_exists'.mp hsome
    exact ⟨channel, events, hevents, h.notEmpty _ (Dict.mem_of_get? hevents), hname⟩
  · rintro ⟨channel, events, hevents, -, hname⟩
    exact ⟨channel, List.mem_map_of_mem (Dict.mem_of_get? hevents), hname⟩

/-- The invariant implies the law. -/
theorem Ok.listens (h : Ok s) : Listens identifier s where
  listens := by
    intro hreceiving hdirty hinside
    have hconnected : s.point.isConnected = true := by
      cases hpoint : s.point <;> rw [hpoint] at hreceiving <;> first | rfl | cases hreceiving
    obtain ⟨names, hnames⟩ := Option.isSome_iff_exists.mp (h.connected hconnected)
    have hsettled : s.Settled := ⟨hdirty, fun _ hsome => by rw [hinside] at hsome; cases hsome⟩
    have hpromised : s.promised = some names := by
      rw [State.promised]
      cases hpoint : s.point <;> rw [hpoint] at hreceiving <;>
        first | exact hnames | cases hreceiving
    refine ⟨names, hnames, fun name => ?_⟩
    rw [h.promised hsettled names hpromised name, h.mem_names_iff]
  notEmpty := fun _ _ hevents => h.notEmpty _ (Dict.mem_of_get? hevents)
  startedByFirst := h.started.starts_eq
  started := by
    intro hinside
    have hstarted := h.started
    rw [hinside] at hstarted
    exact hstarted.outside

/-! ## The steps -/

/-- A point without a connection. -/
theorem Point.elim_isConnected {point : Point ε} {p : Prop} (h : point.isConnected = false)
    (hconnected : point.isConnected = true) : p := by
  rw [h] at hconnected
  cases hconnected

/-- A step of the thread makes a new promise, or keeps the one it has.  All its
steps that succeed are of this kind. -/
theorem Ok.threadTo (h : Ok s) (hsubscriptions : t.subscriptions = s.subscriptions)
    (hinside : t.inside = s.inside) (hsubscribes : t.subscribes = s.subscribes)
    (honce : t.startedOnce = s.startedOnce) (hstarts : t.starts = s.starts)
    (hstarted : s.point.hasStarted = true)
    (hconnected : t.point.isConnected = true → t.conn.isSome = true)
    (hpromised : t.Settled → ∀ names, t.promised = some names →
      ∀ name, name ∈ names ↔ name ∈ s.names) : Ok t where
  promised := by
    have hnames : t.names = s.names := by rw [State.names, hsubscriptions, State.names]
    rw [hnames]
    exact hpromised
  connected := hconnected
  idle := by
    intro hnil
    rw [hstarts] at hnil
    rw [(h.idle hnil).1] at hstarted
    cases hstarted
  notEmpty := by
    rw [hsubscriptions]
    exact h.notEmpty
  started := by
    rw [hsubscribes, honce, hstarts, hinside]
    exact h.started

/-- A step of the thread after which nothing is promised. -/
theorem Ok.threadDrop (h : Ok s) (hsubscriptions : t.subscriptions = s.subscriptions)
    (hinside : t.inside = s.inside) (hsubscribes : t.subscribes = s.subscribes)
    (honce : t.startedOnce = s.startedOnce) (hstarts : t.starts = s.starts)
    (hstarted : s.point.hasStarted = true)
    (hconnected : t.point.isConnected = true → t.conn.isSome = true)
    (hnone : t.promised = none) : Ok t := by
  refine h.threadTo hsubscriptions hinside hsubscribes honce hstarts hstarted hconnected ?_
  intro _ names hpromised
  rw [hnone] at hpromised
  cases hpromised

variable [DecidableEq ε]

/-- The locked sections. -/
theorem ok_callStep (h : Ok s) {section' : Section ε} (hinside : s.inside = some section') :
    Ok (s.callStep section') := by
  have hstarted := h.started
  rw [hinside] at hstarted
  cases section' with
  | subscribing channel event =>
      refine h.unsettle rfl rfl rfl (not_settled_of_hasChanged rfl rfl) ?_ ?_
      · intro e he
        rcases Dict.mem_of_mem_set he with heq | hmem
        · rw [heq]
          exact Finset.insert_nonempty _ _
        · exact h.notEmpty e hmem
      · exact hstarted.goOn rfl rfl
  | added =>
      exact h.unsettle rfl rfl rfl (not_settled_of_dirty rfl) h.notEmpty (hstarted.goOn rfl rfl)
  | marked =>
      rw [State.callStep]
      split_ifs with honce
      · rw [honce] at hstarted
        refine h.stay rfl rfl rfl rfl (settled_of_hasChanged rfl (Or.inr hinside) rfl) h.notEmpty ?_
        show Started s.subscribes s.startedOnce s.starts (some .leaving)
        rw [honce]
        exact hstarted.pass
      · rw [Bool.not_eq_true] at honce
        rw [honce] at hstarted
        exact h.stay rfl rfl rfl rfl (settled_of_hasChanged rfl (Or.inr hinside) rfl) h.notEmpty
          hstarted.claim
  | starting =>
      -- the thread has not been started
      obtain ⟨hsubscribes, honce, hnil⟩ := hstarted.of_starting
      obtain ⟨-, hconn⟩ := h.idle hnil
      refine ⟨fun _ names hpromised => ?_, nofun, fun hnil' => ?_, h.notEmpty, ?_⟩
      · change s.conn = some names at hpromised
        rw [hconn] at hpromised
        cases hpromised
      · exact absurd hnil' (List.append_ne_nil_of_right_ne_nil _ (List.cons_ne_nil _ _))
      · show Started s.subscribes s.startedOnce (s.starts ++ [s.subscribes]) (some .leaving)
        rw [hsubscribes, honce, hnil]
        exact .done Nat.one_pos nofun
  | unsubscribing channel event =>
      have hleave : Started s.subscribes s.startedOnce s.starts (some .leaving) :=
        hstarted.leave rfl nofun ⟨rfl, nofun⟩
      rw [State.callStep]
      split
      · exact h.stay rfl rfl rfl rfl (settled_of_hasChanged rfl (Or.inr hinside) rfl) h.notEmpty
          hleave
      · next events hevents =>
          split_ifs with hempty
          · refine h.unsettle rfl rfl rfl (not_settled_of_hasChanged rfl rfl) ?_ ?_
            · exact fun e he => h.notEmpty e (List.mem_filter.mp he).1
            · exact hstarted.leave rfl nofun ⟨rfl, nofun⟩
          · have hkey : channel ∈ s.subscriptions.map Prod.fst :=
              List.mem_map_of_mem (Dict.mem_of_get? hevents)
            refine h.stay ?_ rfl rfl rfl (settled_of_hasChanged rfl (Or.inr hinside) rfl) ?_ hleave
            · rw [State.names, State.names, Dict.map_fst_set_of_mem hkey]
            · intro e he
              rcases Dict.mem_of_mem_set he with heq | hmem
              · rw [heq]
                exact Finset.nonempty_iff_ne_empty.mpr hempty
              · exact h.notEmpty e hmem
  | deleted =>
      exact h.unsettle rfl rfl rfl (not_settled_of_dirty rfl) h.notEmpty
        (hstarted.leave rfl nofun ⟨rfl, nofun⟩)
  | leaving =>
      exact h.stay rfl rfl rfl rfl (settled_of_hasChanged rfl (Or.inr hinside) rfl) h.notEmpty
        hstarted.unlock

theorem ok_proceed (h : Ok s) (hstep : s.proceed = some t) : Ok t := by
  have hconnected := h.connected
  have hpromised := h.promised
  cases hpoint : s.point with
  | head =>
      rw [State.proceed, hpoint] at hstep
      cases hstep
      rw [State.promised, hpoint] at hpromised
      have hhead : s.point.hasStarted = true := by rw [hpoint]; rfl
      rw [State.atHead]
      split_ifs with hstopping hready hnone
      · exact h.threadDrop rfl rfl rfl rfl rfl hhead (Point.elim_isConnected rfl) rfl
      · exact h.threadTo rfl rfl rfl rfl rfl hhead (fun _ => hready.1) hpromised
      · exact h.threadDrop rfl rfl rfl rfl rfl hhead (Point.elim_isConnected rfl) rfl
      · have hsome : s.conn.isSome = true := by
          rw [Option.isNone_iff_eq_none] at hnone
          exact Option.isSome_iff_ne_none.mpr hnone
        exact h.threadDrop rfl rfl rfl rfl rfl hhead (fun _ => hsome) rfl
  | checking =>
      rw [State.proceed, hpoint] at hstep
      cases hstep
      rw [hpoint] at hconnected
      rw [State.promised, hpoint] at hpromised
      exact h.threadTo rfl rfl rfl rfl rfl (by rw [hpoint]; rfl) hconnected hpromised
  | clearing =>
      rw [State.proceed, hpoint] at hstep
      cases hstep
      rw [hpoint] at hconnected
      exact h.threadDrop rfl rfl rfl rfl rfl (by rw [hpoint]; rfl) hconnected rfl
  | snapshotting =>
      rw [State.proceed, hpoint] at hstep
      simp only at hstep
      split_ifs at hstep
      cases hstep
      rw [hpoint] at hconnected
      refine h.threadTo rfl rfl rfl rfl rfl (by rw [hpoint]; rfl) hconnected ?_
      -- the promise is what the snapshot holds
      rintro _ names ⟨⟩ name
      exact Iff.rfl
  | unlistening channels =>
      rw [State.proceed, hpoint] at hstep
      cases hstep
      rw [State.promised, hpoint] at hpromised
      exact h.threadTo rfl rfl rfl rfl rfl (by rw [hpoint]; rfl) (fun _ => rfl) hpromised
  | listening channels =>
      rw [hpoint] at hconnected
      obtain ⟨names, hnames⟩ := Option.isSome_iff_exists.mp (hconnected rfl)
      simp only [State.promised, hpoint, hnames, Option.map_some] at hpromised
      cases channels with
      | nil =>
          rw [State.proceed, hpoint] at hstep
          cases hstep
          refine h.threadTo rfl rfl rfl rfl rfl (by rw [hpoint]; rfl) hconnected ?_
          intro hsettled names' hnew
          change s.conn = some names' at hnew
          refine hpromised hsettled names' ?_
          rw [← hnew, hnames, List.map_nil, List.append_nil]
      | cons channel rest =>
          rw [State.proceed, hpoint, hnames] at hstep
          cases hstep
          refine h.threadTo rfl rfl rfl rfl rfl (by rw [hpoint]; rfl) (fun _ => rfl) ?_
          rintro hsettled names' ⟨⟩ name
          rw [← hpromised hsettled _ rfl, List.map_cons]
          simp only [List.cons_append, List.mem_cons, List.mem_append]
          exact or_left_comm
  | ringing events =>
      rw [State.proceed, hpoint] at hstep
      cases hstep
      rw [hpoint] at hconnected
      rw [State.promised, hpoint] at hpromised
      have hsame : ∀ point : Point ε, point = .head ∨ point = .receiving →
          Ok { s with rung := s.rung ∪ events, point := point } := by
        rintro point (rfl | rfl)
        · exact h.threadTo rfl rfl rfl rfl rfl (by rw [hpoint]; rfl)
            (Point.elim_isConnected rfl) hpromised
        · exact h.threadTo rfl rfl rfl rfl rfl (by rw [hpoint]; rfl) hconnected hpromised
      refine hsame _ ?_
      split_ifs
      · exact Or.inl rfl
      · exact Or.inr rfl
  | failed =>
      rw [State.proceed, hpoint] at hstep
      cases hstep
      exact h.threadDrop rfl rfl rfl rfl rfl (by rw [hpoint]; rfl) (Point.elim_isConnected rfl) rfl
  | notStarted | opening | receiving | stopped => rw [State.proceed, hpoint] at hstep; cases hstep

theorem ok_threadStep (h : Ok s) {step : ThreadStep} (hstep : s.threadStep step = some t) :
    Ok t := by
  have hconnected := h.connected
  have hpromised := h.promised
  cases step with
  | proceed => exact ok_proceed h hstep
  | opened names =>
      simp only [State.threadStep] at hstep
      split at hstep
      · next hpoint =>
          cases hstep
          exact h.threadDrop rfl rfl rfl rfl rfl (by rw [hpoint]; rfl) (fun _ => rfl) rfl
      · cases hstep
  | notified channel =>
      simp only [State.threadStep] at hstep
      split at hstep
      · next hpoint =>
          split_ifs at hstep
          cases hstep
          rw [hpoint] at hconnected
          rw [State.promised, hpoint] at hpromised
          exact h.threadTo rfl rfl rfl rfl rfl (by rw [hpoint]; rfl) hconnected hpromised
      · cases hstep
  | timeout =>
      simp only [State.threadStep] at hstep
      split at hstep
      · next hpoint =>
          cases hstep
          rw [State.promised, hpoint] at hpromised
          exact h.threadTo rfl rfl rfl rfl rfl (by rw [hpoint]; rfl)
            (Point.elim_isConnected rfl) hpromised
      · cases hstep
  | fail =>
      simp only [State.threadStep] at hstep
      split_ifs at hstep with hfail
      cases hstep
      refine h.threadDrop rfl rfl rfl rfl rfl ?_ (Point.elim_isConnected rfl) rfl
      cases hpoint : s.point with
      | notStarted => rw [hpoint] at hfail; cases hfail
      | _ => rfl

/-- **Step lemma.**  Every step keeps the invariant. -/
theorem ok_step (h : Ok s) {a : Action ε} (hstep : s.step a = some t) : Ok t := by
  cases a with
  | subscribe channel event =>
      simp only [State.step] at hstep
      split_ifs at hstep with hfree
      cases hstep
      rw [Option.isNone_iff_eq_none] at hfree
      have hstarted := h.started
      rw [hfree] at hstarted
      exact h.stay rfl rfl rfl rfl
        (@settled_of_hasChanged _ _ _ .leaving rfl (Or.inl hfree) rfl) h.notEmpty
        (hstarted.subscribe channel event)
  | unsubscribe channel event =>
      simp only [State.step] at hstep
      split_ifs at hstep with hfree
      cases hstep
      rw [Option.isNone_iff_eq_none] at hfree
      have hstarted := h.started
      rw [hfree] at hstarted
      exact h.stay rfl rfl rfl rfl
        (@settled_of_hasChanged _ _ _ .leaving rfl (Or.inl hfree) rfl) h.notEmpty
        (hstarted.unsubscribe channel event)
  | call =>
      obtain ⟨section', hinside, rfl⟩ := Option.map_eq_some_iff.mp hstep
      exact ok_callStep h hinside
  | thread step => exact ok_threadStep h hstep
  | stop =>
      cases hstep
      exact h.stay rfl rfl rfl rfl id h.notEmpty h.started

end Invariant

/-! ## The theorem -/

/-- **The notifier listens to what is subscribed**, whatever the interleaving
and the failures: to the names the server makes of the subscribed channels.
There is no hypothesis. -/
theorem listens_of_mem_visited (ε : Type) [DecidableEq ε] (as : List (Action ε)) :
    ∀ s ∈ (notifierSystem ε).visited as, Listens identifier s := by
  intro s hs
  have hok : Ok s := StepSystem.inv_of_mem_visited (M := notifierSystem ε) ok_init
    (fun _ _ _ hok hstep => ok_step hok hstep) hs
  exact hok.listens

/-- Two consumers subscribe, and the thread comes to receive. -/
def subscribedRun : List (Action ℕ) :=
  .subscribe "dramatiq.a.enqueue" 0 :: List.replicate 5 .call ++
    .subscribe "dramatiq.b.enqueue" 1 :: List.replicate 4 .call ++
    [.thread .proceed, .thread (.opened [])] ++ List.replicate 6 (.thread .proceed)

theorem listens_subscribedRun :
    ∃ s ∈ (notifierSystem ℕ).visited subscribedRun, s.point.isReceiving = true ∧
      s.conn = some ["dramatiq.b.enqueue", "dramatiq.a.enqueue"] ∧ Listens identifier s := by
  have hrun : ∃ s ∈ (notifierSystem ℕ).visited subscribedRun, s.point.isReceiving = true ∧
      s.conn = some ["dramatiq.b.enqueue", "dramatiq.a.enqueue"] := by decide +kernel
  obtain ⟨s, hs, hreceiving, hconn⟩ := hrun
  exact ⟨s, hs, hreceiving, hconn, listens_of_mem_visited ℕ subscribedRun s hs⟩

/-- Channels that are not cut are listened to as they are. -/
theorem Listens.of_short {ε : Type} {s : State ε} (h : Listens identifier s)
    (hshort : ∀ e ∈ s.subscriptions, e.1.utf8ByteSize < 64) : Listens id s where
  listens := by
    intro hreceiving hdirty hinside
    obtain ⟨names, hnames, hiff⟩ := h.listens hreceiving hdirty hinside
    refine ⟨names, hnames, fun name => (hiff name).trans ?_⟩
    refine exists_congr fun channel => exists_congr fun events => and_congr_right fun hevents => ?_
    rw [identifier, if_pos (hshort _ (Dict.mem_of_get? hevents))]
    exact Iff.rfl
  notEmpty := h.notEmpty
  startedByFirst := h.startedByFirst
  started := h.started

/-- The channel of a queue whose name has 60 letters. -/
def longChannel : String := "dramatiq." ++ String.ofList (List.replicate 60 'q') ++ ".enqueue"

/-- A consumer subscribes to it, and the thread comes to receive. -/
def longChannelRun : List (Action ℕ) :=
  .subscribe longChannel 0 :: List.replicate 5 .call ++
    [.thread .proceed, .thread (.opened [])] ++ List.replicate 5 (.thread .proceed)

/-- A longer channel is listened to under the first 63 bytes of its name. -/
theorem not_listens_longChannelRun :
    ¬ ∀ s ∈ (notifierSystem ℕ).visited longChannelRun, Listens id s := by
  intro hlistens
  have hrun : ∃ s ∈ (notifierSystem ℕ).visited longChannelRun, s.point.isReceiving = true ∧
      s.dirty = false ∧ s.inside.isNone = true ∧ s.conn = some [identifier longChannel] ∧
      (Dict.get? (identifier longChannel) s.subscriptions).isNone = true := by decide +kernel
  obtain ⟨s, hs, hreceiving, hdirty, hinside, hconn, hnone⟩ := hrun
  obtain ⟨names, hnames, hiff⟩ :=
    (hlistens s hs).listens hreceiving hdirty (Option.isNone_iff_eq_none.mp hinside)
  rw [hconn, Option.some_inj] at hnames
  obtain ⟨channel, events, hevents, -, hchannel⟩ :=
    (hiff (identifier longChannel)).mp (hnames ▸ List.mem_cons_self)
  rw [id_eq] at hchannel
  rw [← hchannel, hevents] at hnone
  cases hnone

end Notifier

end DramatiqPostgres
