import DramatiqPostgres.Lib.Attempts
import DramatiqPostgres.Lib.SharedPool
import DramatiqPostgres.Queue.Statements

/-!
# Calls that are tried again

`utils.py` gives every call to the database the same shape: take a connection
out of the pool, check it, run one transaction on it, put it back; and, where
the call is decorated with `retry_pg`, all of that again after an error of the
database, ten times in all.  `getconn` is decorated itself, so the two loops are
nested.

The calls are programs over a `World`: what has been asked of the pool and the
server, and what this process and the others have committed.  An `Environment`
answers the calls one by one, in any way: each may raise any exception, a COMMIT
may take effect and raise all the same, and the other sessions may commit any
statements at every call.

### Where the other sessions come in

`ask` lets them run before its call returns, whatever the call is: between two
attempts, while the pool is asked, around the signals, and after a COMMIT as
well.  Only from the statement of a transaction to its COMMIT they stand still.
What they commit in that time has not seen the statement, and writes none of its
rows, which are locked; in the history of the queue it stands before the
statement or after the COMMIT.

### What the specifications say

The log of a world is the history of the queue, with the signals in between.
`Leads` says which entries a program has added, and that the database has moved
by exactly their statements; `Waits` that all of them are of other sessions
(`Foreign`); `Tried` that a transaction has added its own statement once at
most.  A closed pool is the one error of the database that is not tried again
(`isRetried`): the calls find it once at most, and raise what it raised
(`EndedBy`).
-/

namespace DramatiqPostgres

namespace RetryPg

open Pg Std.Do

set_option mvcgen.warning false

/-! ## Exceptions -/

/-- The classes of the exceptions that meet in these calls. -/
inductive ExnClass where
  | interfaceError
  | databaseError
  | operationalError
  | adminShutdown
  | dataError
  | poolClosed
  | poolTimeout
  /-- `ConnectionError` of dramatiq. -/
  | connectionError
  | resultMissing
  | resultTimeout
  | middlewareError
  | exception
  deriving DecidableEq

/-- A class and its bases. -/
def ExnClass.bases : ExnClass → List ExnClass
  | interfaceError => [interfaceError, exception]
  | databaseError => [databaseError, exception]
  | operationalError => [operationalError, databaseError, exception]
  | adminShutdown => [adminShutdown, operationalError, databaseError, exception]
  | dataError => [dataError, databaseError, exception]
  | poolClosed => [poolClosed, operationalError, databaseError, exception]
  | poolTimeout => [poolTimeout, operationalError, databaseError, exception]
  | connectionError => [connectionError, exception]
  | resultMissing => [resultMissing, exception]
  | resultTimeout => [resultTimeout, exception]
  | middlewareError => [middlewareError, exception]
  | exception => [exception]

/-- An exception. -/
structure Exn where
  cls : ExnClass
  text : String
  deriving DecidableEq

namespace Exn

/-- `isinstance(e, classes)`. -/
def isInstance (classes : List ExnClass) (e : Exn) : Bool := classes.any (· ∈ e.cls.bases)

/-- `DISCONNECT_ERRORS`. -/
def disconnectErrors : List ExnClass := [.adminShutdown, .interfaceError, .operationalError]

/-- `_RETRY_ERRORS`. -/
def retryErrors : List ExnClass := disconnectErrors ++ [.connectionError, .databaseError]

/-- The predicate of `retry_pg`. -/
def isRetried (e : Exn) : Bool := e.isInstance retryErrors && !e.isInstance [.poolClosed]

end Exn

/-! ## The world of a call -/

/-- The calls that leave the process. -/
inductive Call where
  | poolGetconn
  | consumeInput
  | begin
  | execute
  | commit
  | emitBefore
  | emitAfter
  | currentMillis
  | autocommit
  | listen
  | notifies
  | unlisten
  | close
  deriving DecidableEq

/-- What a call meets. -/
structure Answer where
  /-- What the other sessions commit before the call returns. -/
  others : List Statement
  now : Time
  millis : ℤ
  raised : Option Exn
  /-- The COMMIT that raised has taken effect. -/
  tookEffect : Bool

/-- The answer to a call, by the number of calls before it. -/
abbrev Environment := Call → ℕ → Answer

/-- What has happened, in its order. -/
inductive Entry where
  /-- `before_enqueue` was emitted. -/
  | before
  /-- `after_enqueue` was emitted. -/
  | after
  /-- A statement was committed, by this process or another. -/
  | ran (own : Bool) (s : Statement)

/-- An attribute that keeps a connection between two calls. -/
inductive Keeper where
  /-- `_consume_conn` of a consumer. -/
  | consumer (index : ℕ)
  /-- `conn` of the notifier. -/
  | notifier
  deriving DecidableEq

/-- The state of the programs below. -/
structure World where
  /-- The number of calls that have left the process. -/
  asked : ℕ
  database : Database
  /-- The statement of the open transaction, and the database it leads to. -/
  pending : Option (Statement × Database)
  /-- The connections out of the pool. -/
  out : List ℕ
  /-- The number of connections the pool has given out. -/
  given : ℕ
  kept : Keeper → Option ℕ
  /-- What the calls of `pool.getconn` raised. -/
  checkouts : List (Option Exn)
  /-- What has passed between the thread and the pool. -/
  events : List SharedPool.Event
  log : List Entry

namespace World

/-- A statement of another session is committed, if it does not raise. -/
def overtake (w : World) (s : Statement) : World :=
  match w.database.exec s with
  | some database => { w with database := database, log := w.log ++ [.ran false s] }
  | none => w

/-- The other sessions commit what they do meanwhile. -/
def meanwhile (others : List Statement) (w : World) : World := others.foldl overtake w

/-- The open transaction takes effect, or not. -/
def settle (tookEffect : Bool) (w : World) : World :=
  match tookEffect, w.pending with
  | true, some (s, database) =>
      { w with database := database, log := w.log ++ [.ran true s], pending := none }
  | _, _ => { w with pending := none }

end World

/-- A program of the process. -/
abbrev Py := EStateM Exn World

/-! ## The calls -/

section Calls

variable (env : Environment)

/-- The answer to a call. -/
def answer (call : Call) : Py Answer :=
  modifyGet fun w => (env call w.asked, { w with asked := w.asked + 1 })

/-- A call leaves the process, and the other sessions go on until it is
answered. -/
def ask (call : Call) : Py Answer := do
  let a ← answer env call
  modify (World.meanwhile a.others)
  return a

/-- A call that may raise. -/
def invoke (call : Call) : Py Answer := do
  let a ← ask env call
  match a.raised with
  | some e => throw e
  | none => return a

/-- `pool.getconn()`. -/
def poolGetconn : Py ℕ := do
  let a ← ask env .poolGetconn
  match a.raised with
  | some e =>
      modify fun w =>
        { w with checkouts := w.checkouts ++ [some e], events := w.events ++ [.refused] }
      throw e
  | none =>
      modifyGet fun w =>
        (w.given, { w with
          out := w.given :: w.out
          given := w.given + 1
          checkouts := w.checkouts ++ [none]
          events := w.events ++ [.given w.given] })

/-- `pool.putconn(conn)`. -/
def poolPutconn (conn : ℕ) : Py Unit :=
  modify fun w => { w with out := w.out.erase conn, events := w.events ++ [.put conn] }

/-- `check_conn`. -/
def checkConn : Py Unit := do
  try
    let _ ← invoke env .consumeInput
  catch e =>
    if e.isInstance Exn.disconnectErrors then throw ⟨.connectionError, e.text⟩ else throw e

/-- `retry_pg`: `stop_after_attempt(10)`, and the last error is raised again. -/
def retryPg {α : Type} (x : Py α) : Py α := attempts Exn.isRetried 9 x

/-- One attempt of `getconn`. -/
def getconnOnce : Py ℕ := do
  let conn ← poolGetconn env
  try
    checkConn env
  catch e =>
    if e.isInstance [.connectionError] then poolPutconn conn
    throw e
  return conn

/-- `getconn`. -/
def getconn : Py ℕ := retryPg (getconnOnce env)

/-- `curs.execute` of the one statement of a transaction, which reads its
`NOW()`; `none` stands for a parameter the server cannot read. -/
def execute (statement : Time → Option Statement) : Py Unit := do
  let a ← invoke env .execute
  let w ← get
  match (statement a.now).bind fun s => (w.database.exec s).map fun database => (s, database) with
  | some pending => modify fun w => { w with pending := some pending }
  | none => throw ⟨.dataError, ""⟩

/-- The exit of `conn.transaction()` without an exception.  The other sessions
go on once the transaction is settled. -/
def commit : Py Unit := do
  let a ← answer env .commit
  match a.raised with
  | some e =>
      modify fun w => (w.settle a.tookEffect).meanwhile a.others
      throw e
  | none => modify fun w => (w.settle true).meanwhile a.others

/-- `with conn.transaction()`. -/
def inTransaction {α : Type} (body : Py α) : Py α := do
  let _ ← invoke env .begin
  let r ← tryCatch body fun e => do
    modify (World.settle false)
    throw e
  commit env
  return r

/-- `with transaction(pool)`. -/
def transaction {α : Type} (body : Py α) : Py α := do
  let conn ← getconn env
  tryFinally (inTransaction env body) (poolPutconn conn)

end Calls

/-! ## What the calls do to the world -/

/-- No call of `pool.getconn` found the pool closed. -/
def NoneClosed (cs : List (Option Exn)) : Prop :=
  ∀ e, some e ∈ cs → e.isInstance [.poolClosed] = false

/-- None did, or the last one, and `e` is what it raised. -/
def EndedBy (e : Exn) (cs : List (Option Exn)) : Prop :=
  NoneClosed cs ∨ ∃ before, cs = before ++ [some e] ∧ NoneClosed before

theorem noneClosed_nil : NoneClosed [] := fun _ he => absurd he List.not_mem_nil

theorem noneClosed_none : NoneClosed [none] := fun _ he => by cases List.mem_singleton.mp he

theorem noneClosed_append {cs ds : List (Option Exn)} :
    NoneClosed (cs ++ ds) ↔ NoneClosed cs ∧ NoneClosed ds := by
  simp only [NoneClosed, List.mem_append, or_imp, forall_and]

theorem EndedBy.noneClosed {e : Exn} {cs : List (Option Exn)} (h : EndedBy e cs)
    (he : e.isInstance [.poolClosed] = false) : NoneClosed cs := by
  rcases h with h | ⟨before, rfl, h⟩
  · exact h
  · exact noneClosed_append.mpr ⟨h, by simp [NoneClosed, he]⟩

theorem EndedBy.append {e : Exn} {cs ds : List (Option Exn)} (hcs : NoneClosed cs)
    (h : EndedBy e ds) : EndedBy e (cs ++ ds) := by
  rcases h with h | ⟨before, rfl, h⟩
  · exact Or.inl (noneClosed_append.mpr ⟨hcs, h⟩)
  · exact Or.inr ⟨cs ++ before, (List.append_assoc _ _ _).symm, noneClosed_append.mpr ⟨hcs, h⟩⟩

theorem Exn.not_isInstance_poolClosed {e : Exn} (h : e.isRetried = true) :
    e.isInstance [.poolClosed] = false := by
  rw [isRetried, Bool.and_eq_true, Bool.not_eq_true'] at h
  exact h.2

/-- The statements of a part of the log. -/
def statements (entries : List Entry) : List Statement :=
  entries.filterMap fun
    | .ran _ s => some s
    | _ => none

/-- The statements of this process. -/
def own (entries : List Entry) : List Statement :=
  entries.filterMap fun
    | .ran true s => some s
    | _ => none

/-- How many times `before_enqueue` was emitted. -/
def befores (entries : List Entry) : ℕ := entries.countP fun
  | .before => true
  | _ => false

/-- The entries of other sessions: statements they committed. -/
def Foreign (entries : List Entry) : Prop := ∀ e ∈ entries, ∃ s, e = .ran false s

theorem foreign_nil : Foreign [] := fun _ he => absurd he List.not_mem_nil

theorem Foreign.append {es fs : List Entry} (hes : Foreign es) (hfs : Foreign fs) :
    Foreign (es ++ fs) := fun e he => (List.mem_append.mp he).elim (hes e) (hfs e)

theorem Foreign.own_eq_nil {es : List Entry} (h : Foreign es) : own es = [] := by
  refine List.filterMap_eq_nil_iff.mpr fun e he => ?_
  obtain ⟨s, rfl⟩ := h e he
  rfl

theorem Foreign.befores_eq_zero {es : List Entry} (h : Foreign es) : befores es = 0 := by
  refine List.countP_eq_zero.mpr fun e he => ?_
  obtain ⟨s, rfl⟩ := h e he
  exact Bool.false_ne_true

/-- From one world to another, with these calls of `pool.getconn` and these
entries: the database has moved by the statements of the log. -/
structure Leads (w w' : World) (cs : List (Option Exn)) (entries : List Entry) : Prop where
  checkouts : w'.checkouts = w.checkouts ++ cs
  log : w'.log = w.log ++ entries
  database : statementSystem.after w.database (statements entries) = some w'.database

theorem statements_append (es fs : List Entry) :
    statements (es ++ fs) = statements es ++ statements fs := List.filterMap_append

theorem own_append (es fs : List Entry) : own (es ++ fs) = own es ++ own fs :=
  List.filterMap_append

theorem befores_append (es fs : List Entry) : befores (es ++ fs) = befores es + befores fs :=
  List.countP_append

namespace Leads

variable {w w₁ w₂ : World} {cs ds : List (Option Exn)} {es fs : List Entry}

theorem refl (w : World) : Leads w w [] [] :=
  ⟨(List.append_nil _).symm, (List.append_nil _).symm, rfl⟩

/-- What the connections and the transaction do besides does not matter. -/
theorem stay (h : Leads w w₁ cs es) (hcheckouts : w₂.checkouts = w₁.checkouts)
    (hlog : w₂.log = w₁.log) (hdatabase : w₂.database = w₁.database) : Leads w w₂ cs es where
  checkouts := hcheckouts.trans h.checkouts
  log := hlog.trans h.log
  database := hdatabase ▸ h.database

theorem trans (h : Leads w w₁ cs es) (h' : Leads w₁ w₂ ds fs) :
    Leads w w₂ (cs ++ ds) (es ++ fs) where
  checkouts := by rw [h'.checkouts, h.checkouts, List.append_assoc]
  log := by rw [h'.log, h.log, List.append_assoc]
  database := by
    rw [statements_append, StepSystem.after_append, h.database]
    exact h'.database

end Leads

/-- From one world to another without a statement or a signal of this
process. -/
structure Waits (w w' : World) (cs : List (Option Exn)) (es : List Entry) : Prop extends
    Leads w w' cs es where
  foreign : Foreign es

namespace Waits

variable {w w₁ w₂ : World} {cs ds : List (Option Exn)} {es fs : List Entry}

theorem refl (w : World) : Waits w w [] [] := ⟨Leads.refl w, foreign_nil⟩

theorem trans (h : Waits w w₁ cs es) (h' : Waits w₁ w₂ ds fs) :
    Waits w w₂ (cs ++ ds) (es ++ fs) where
  toLeads := h.toLeads.trans h'.toLeads
  foreign := h.foreign.append h'.foreign

/-- The calls that only concern the connections. -/
theorem of_same (hcheckouts : w₁.checkouts = w.checkouts ++ cs) (hlog : w₁.log = w.log)
    (hdatabase : w₁.database = w.database) : Waits w w₁ cs [] where
  checkouts := hcheckouts
  log := by rw [hlog, List.append_nil]
  database := congrArg some hdatabase.symm
  foreign := foreign_nil

theorem stay (h : Waits w w₁ cs es) (hcheckouts : w₂.checkouts = w₁.checkouts)
    (hlog : w₂.log = w₁.log) (hdatabase : w₂.database = w₁.database) : Waits w w₂ cs es :=
  ⟨h.toLeads.stay hcheckouts hlog hdatabase, h.foreign⟩

theorem overtake (w : World) (s : Statement) : ∃ es, Waits w (w.overtake s) [] es := by
  unfold World.overtake
  cases hs : w.database.exec s with
  | none => exact ⟨[], Waits.refl w⟩
  | some database =>
      refine ⟨[.ran false s], ⟨(List.append_nil _).symm, rfl, ?_⟩,
        fun e he => ⟨s, List.mem_singleton.mp he⟩⟩
      exact Option.bind_eq_some_iff.mpr ⟨database, hs, rfl⟩

/-- The other sessions run their statements. -/
theorem meanwhile (others : List Statement) (w : World) :
    ∃ es, Waits w (w.meanwhile others) [] es := by
  induction others generalizing w with
  | nil => exact ⟨[], Waits.refl w⟩
  | cons s others ih =>
      obtain ⟨es, hes⟩ := Waits.overtake w s
      obtain ⟨fs, hfs⟩ := ih (w.overtake s)
      exact ⟨es ++ fs, hes.trans hfs⟩

end Waits

/-- An open transaction takes effect, or leaves no trace. -/
theorem leads_settle {w : World} {s : Statement} {database : Database}
    (hpending : w.pending = some (s, database)) (hexec : w.database.exec s = some database) :
    Leads w (w.settle true) [] [.ran true s] := by
  unfold World.settle
  rw [hpending]
  exact ⟨(List.append_nil _).symm, rfl, Option.bind_eq_some_iff.mpr ⟨database, hexec, rfl⟩⟩

theorem waits_settle (w : World) : Waits w (w.settle false) [] [] :=
  Waits.of_same (List.append_nil _).symm rfl rfl

section Specs

variable {env : Environment}

/-! ## What the calls do -/

theorem answer_spec (call : Call) (w₀ : World) :
    ⦃fun w => ⌜w = w₀⌝⦄ answer env call
    ⦃post⟨fun a w => ⌜a = env call w₀.asked ∧ w = { w₀ with asked := w₀.asked + 1 }⌝,
      fun _ _ => ⌜False⌝⟩⦄ := by
  mvcgen [answer]
  rename_i w hw t
  subst hw
  exact ⟨rfl, rfl⟩

theorem ask_spec (call : Call) (w₀ : World) :
    ⦃fun w => ⌜w = w₀⌝⦄ ask env call
    ⦃post⟨fun _ w => ⌜∃ es, Waits w₀ w [] es⌝, fun _ _ => ⌜False⌝⟩⦄ := by
  mvcgen [ask, answer_spec]
  rename_i w hw a w' hanswer t
  obtain ⟨-, rfl⟩ := hanswer
  subst hw
  have hasked : Waits w { w with asked := w.asked + 1 } [] [] := (Waits.refl w).stay rfl rfl rfl
  obtain ⟨es, hes⟩ := Waits.meanwhile a.others { w with asked := w.asked + 1 }
  exact ⟨es, hasked.trans hes⟩

theorem invoke_spec (call : Call) (w₀ : World) :
    ⦃fun w => ⌜w = w₀⌝⦄ invoke env call
    ⦃post⟨fun _ w => ⌜∃ es, Waits w₀ w [] es⌝, fun _ w => ⌜∃ es, Waits w₀ w [] es⌝⟩⦄ := by
  mvcgen [invoke, ask_spec]
  · rename_i w hw a e he w' hask
    exact hw ▸ hask
  · rename_i w hw a he w' hask
    exact hw ▸ hask

theorem poolGetconn_spec (w₀ : World) :
    ⦃fun w => ⌜w = w₀⌝⦄ poolGetconn env
    ⦃post⟨fun _ w => ⌜∃ es, Waits w₀ w [none] es⌝,
      fun e w => ⌜∃ es, Waits w₀ w [some e] es⌝⟩⦄ := by
  have hcounted : ∀ {w w' : World} {es : List Entry} (c : Option Exn), Waits w₀ w [] es →
      w'.checkouts = w.checkouts ++ [c] → w'.log = w.log → w'.database = w.database →
        ∃ es, Waits w₀ w' [c] es := fun c hwaits hcheckouts hlog hdatabase =>
    ⟨_, hwaits.trans (Waits.of_same hcheckouts hlog hdatabase)⟩
  mvcgen [poolGetconn, ask_spec]
  · rename_i w hw a e he w' hask t
    obtain ⟨es, hes⟩ := hask
    exact hcounted (some e) (hw ▸ hes) rfl rfl rfl
  · rename_i w hw a he w' hask t
    obtain ⟨es, hes⟩ := hask
    exact hcounted none (hw ▸ hes) rfl rfl rfl

theorem checkConn_spec (w₀ : World) :
    ⦃fun w => ⌜w = w₀⌝⦄ checkConn env
    ⦃post⟨fun _ w => ⌜∃ es, Waits w₀ w [] es⌝, fun _ w => ⌜∃ es, Waits w₀ w [] es⌝⟩⦄ := by
  mvcgen [checkConn, invoke_spec]
  all_goals subst_vars; assumption

/-- One attempt asks the pool once. -/
theorem getconnOnce_spec (w₀ : World) :
    ⦃fun w => ⌜w = w₀⌝⦄ getconnOnce env
    ⦃post⟨fun _ w => ⌜∃ es, Waits w₀ w [none] es⌝,
      fun e w => ⌜∃ c es, Waits w₀ w [c] es ∧ EndedBy e [c]⌝⟩⦄ := by
  mvcgen [getconnOnce, poolGetconn_spec, checkConn_spec, poolPutconn]
  · rename_i w hw conn w' hgiven _ w'' hchecked
    obtain ⟨es, hes⟩ := hgiven
    obtain ⟨fs, hfs⟩ := hchecked
    exact ⟨es ++ fs, hw ▸ hes.trans hfs⟩
  · rename_i w hw conn w' hgiven e _ _ w'' hchecked t
    obtain ⟨es, hes⟩ := hgiven
    obtain ⟨fs, hfs⟩ := hchecked
    exact ⟨none, es ++ fs, hw ▸ (hes.trans hfs).stay rfl rfl rfl, Or.inl noneClosed_none⟩
  · rename_i w hw conn w' hgiven e _ _ w'' hchecked
    obtain ⟨es, hes⟩ := hgiven
    obtain ⟨fs, hfs⟩ := hchecked
    exact ⟨none, es ++ fs, hw ▸ hes.trans hfs, Or.inl noneClosed_none⟩
  · rename_i w hw e w'
    rintro ⟨es, hes⟩
    exact ⟨some e, es, hw ▸ hes, Or.inr ⟨[], rfl, noneClosed_nil⟩⟩

/-- Every attempt asks the pool once, and none is made after the pool was found
closed. -/
theorem getconn_spec (w₀ : World) :
    ⦃fun w => ⌜w = w₀⌝⦄ getconn env
    ⦃post⟨fun _ w => ⌜∃ cs es, Waits w₀ w cs es ∧ cs.length ≤ 10 ∧ NoneClosed cs⌝,
      fun e w => ⌜∃ cs es, Waits w₀ w cs es ∧ cs.length ≤ 10 ∧ EndedBy e cs⌝⟩⦄ := by
  refine Attempts.attempts_spec
    (fun k w => ∃ cs es, Waits w₀ w cs es ∧ cs.length ≤ k ∧ NoneClosed cs)
    (fun w hw => ⟨[], [], hw ▸ Waits.refl w, le_rfl, noneClosed_nil⟩) fun k hk => ?_
  have hone : ∀ (cs : List (Option Exn)) (c : Option Exn), cs.length ≤ k →
      (cs ++ [c]).length ≤ k + 1 := by
    intro cs c hlength
    rw [List.length_append, List.length_singleton]
    omega
  refine Attempts.triple_of_each getconnOnce_spec ?_ ?_
  · rintro w conn w' ⟨cs, es, hwaits, hlength, hopen⟩ ⟨fs, hgiven⟩
    exact ⟨cs ++ [none], es ++ fs, hwaits.trans hgiven, (hone cs none hlength).trans (by omega),
      noneClosed_append.mpr ⟨hopen, noneClosed_none⟩⟩
  · rintro w e w' ⟨cs, es, hwaits, hlength, hopen⟩ ⟨c, fs, hraised, hended⟩
    have hall : ∃ cs es, Waits w₀ w' cs es ∧ cs.length ≤ 10 ∧ EndedBy e cs :=
      ⟨cs ++ [c], es ++ fs, hwaits.trans hraised, (hone cs c hlength).trans (by omega),
        hended.append hopen⟩
    refine ⟨fun _ hagain => ⟨cs ++ [c], es ++ fs, hwaits.trans hraised, hone cs c hlength, ?_⟩,
      fun _ _ => hall, fun _ => hall⟩
    exact noneClosed_append.mpr
      ⟨hopen, hended.noneClosed (Exn.not_isInstance_poolClosed hagain)⟩

/-- The statement of the transaction reads some `NOW()`, after statements of
others. -/
theorem execute_spec (statement : Time → Option Statement) (w₀ : World) :
    ⦃fun w => ⌜w = w₀⌝⦄ execute env statement
    ⦃post⟨fun _ w => ⌜∃ es now s database, Waits w₀ w [] es ∧ statement now = some s ∧
        w.pending = some (s, database) ∧ w.database.exec s = some database⌝,
      fun _ w => ⌜∃ es, Waits w₀ w [] es⌝⟩⦄ := by
  mvcgen [execute, invoke_spec]
  · rename_i w hw a w' hwaits pending hpending t
    obtain ⟨es, hes⟩ := hwaits
    obtain ⟨s, hs, hrun⟩ := Option.bind_eq_some_iff.mp hpending
    obtain ⟨database, hexec, rfl⟩ := Option.map_eq_some_iff.mp hrun
    exact ⟨es, a.now, s, database, hw ▸ hes.stay rfl rfl rfl, hs, rfl, hexec⟩
  · rename_i w hw a w' hwaits hnone
    exact hw ▸ hwaits
  · rename_i w hw e w'
    exact fun hwaits => hw ▸ hwaits

/-- The open transaction has taken effect, and then others have gone on. -/
def Committed (s : Statement) (w w' : World) : Prop :=
  ∃ w₁ fs, Leads w w₁ [] [.ran true s] ∧ Waits w₁ w' [] fs

/-- A COMMIT that raises has taken effect, or not. -/
theorem commit_spec (w₀ : World) :
    ⦃fun w => ⌜w = w₀⌝⦄ commit env
    ⦃post⟨fun _ w => ⌜∀ s database, w₀.pending = some (s, database) →
        w₀.database.exec s = some database → Committed s w₀ w⌝,
      fun _ w => ⌜∀ s database, w₀.pending = some (s, database) →
        w₀.database.exec s = some database →
        Committed s w₀ w ∨ ∃ es, Waits w₀ w [] es⌝⟩⦄ := by
  have hasked : ∀ w : World, Waits w { w with asked := w.asked + 1 } [] [] :=
    fun w => (Waits.refl w).stay rfl rfl rfl
  have hcommitted : ∀ {w : World} {s : Statement} {database : Database} (others : List Statement),
      w.pending = some (s, database) → w.database.exec s = some database →
        Committed s w
          (({ w with asked := w.asked + 1 } : World).settle true |>.meanwhile others) := by
    intro w s database others hpending hexec
    obtain ⟨fs, hfs⟩ :=
      Waits.meanwhile others (({ w with asked := w.asked + 1 } : World).settle true)
    exact ⟨_, fs, (hasked w).toLeads.trans (leads_settle hpending hexec), hfs⟩
  mvcgen [commit, answer_spec]
  · rename_i w hw a e he w' hanswer t
    obtain ⟨-, rfl⟩ := hanswer
    subst hw
    intro s database hpending hexec
    cases htook : a.tookEffect with
    | true =>
        simp only [t, htook]
        exact Or.inl (hcommitted a.others hpending hexec)
    | false =>
        simp only [t, htook]
        obtain ⟨es, hes⟩ :=
          Waits.meanwhile a.others (({ w with asked := w.asked + 1 } : World).settle false)
        exact Or.inr ⟨es, ((hasked w).trans (waits_settle _)).trans hes⟩
  · rename_i w hw a e w' hanswer t
    obtain ⟨-, rfl⟩ := hanswer
    subst hw
    exact fun s database hpending hexec => hcommitted a.others hpending hexec

/-- A transaction of one statement has asked for a connection ten times at most,
and the statement has taken effect once, after statements of others, or not at
all. -/
structure Tried (statement : Time → Option Statement) (w w' : World) (cs : List (Option Exn))
    (es : List Entry) : Prop extends Leads w w' cs es where
  few : cs.length ≤ 10
  befores : befores es = 0
  own : own es = [] ∨ ∃ now s, statement now = some s ∧ own es = [s]

namespace Tried

variable {statement : Time → Option Statement} {w w₁ w₂ : World} {cs : List (Option Exn)}
  {es fs : List Entry}

theorem stay (h : Tried statement w w₁ cs es) (hcheckouts : w₂.checkouts = w₁.checkouts)
    (hlog : w₂.log = w₁.log) (hdatabase : w₂.database = w₁.database) :
    Tried statement w w₂ cs es :=
  ⟨h.toLeads.stay hcheckouts hlog hdatabase, h.few, h.befores, h.own⟩

theorem of_waits (h : Waits w w₁ cs es) (hfew : cs.length ≤ 10) : Tried statement w w₁ cs es :=
  ⟨h.toLeads, hfew, h.foreign.befores_eq_zero, Or.inl h.foreign.own_eq_nil⟩

/-- The statement takes effect. -/
theorem of_committed {now : Time} {s : Statement} (hwaits : Waits w w₁ [] es)
    (hs : statement now = some s) (hcommitted : Committed s w₁ w₂) :
    ∃ fs, Foreign fs ∧ Tried statement w w₂ [] (es ++ .ran true s :: fs) := by
  obtain ⟨w₃, fs, hran, hrest⟩ := hcommitted
  have hown : RetryPg.own (.ran true s :: fs) = [s] := congrArg (s :: ·) hrest.foreign.own_eq_nil
  have hbefores : RetryPg.befores (.ran true s :: fs) = 0 := hrest.foreign.befores_eq_zero
  refine ⟨fs, hrest.foreign, hwaits.toLeads.trans (hran.trans hrest.toLeads), Nat.zero_le _, ?_,
    Or.inr ⟨now, s, hs, ?_⟩⟩
  · rw [befores_append, hwaits.foreign.befores_eq_zero, hbefores]
  · rw [own_append, hwaits.foreign.own_eq_nil, hown, List.nil_append]

/-- The connection comes first. -/
theorem after_getconn (hwaits : Waits w w₁ cs fs) (hfew : cs.length ≤ 10)
    (h : Tried statement w₁ w₂ [] es) : Tried statement w w₂ cs (fs ++ es) where
  toLeads := by
    have hleads := hwaits.toLeads.trans h.toLeads
    rwa [List.append_nil] at hleads
  few := hfew
  befores := by rw [befores_append, hwaits.foreign.befores_eq_zero, h.befores]
  own := by rw [own_append, hwaits.foreign.own_eq_nil, List.nil_append]; exact h.own

end Tried

/-- The block of the transaction, on a connection. -/
theorem inTransaction_spec (statement : Time → Option Statement) (w₀ : World) :
    ⦃fun w => ⌜w = w₀⌝⦄ inTransaction env (execute env statement)
    ⦃post⟨fun _ w => ⌜∃ es fs now s, Tried statement w₀ w [] (es ++ .ran true s :: fs) ∧
        Foreign fs ∧ statement now = some s⌝,
      fun _ w => ⌜∃ es, Tried statement w₀ w [] es⌝⟩⦄ := by
  mvcgen [inTransaction, invoke_spec, execute_spec, commit_spec]
  · rename_i w hw _ w₁ hbegin _ w₂ hexecute _ w₃ hcommit
    obtain ⟨es, hes⟩ := hbegin
    obtain ⟨fs, now, s, database, hwaits, hs, hpending, hexec⟩ := hexecute
    obtain ⟨gs, hgs, htried⟩ :=
      Tried.of_committed (hes.trans hwaits) hs (hcommit s database hpending hexec)
    exact ⟨es ++ fs, gs, now, s, hw ▸ htried, hgs, hs⟩
  · rename_i w hw _ w₁ hbegin _ w₂ hexecute e w₃
    intro hcommit
    obtain ⟨es, hes⟩ := hbegin
    obtain ⟨fs, now, s, database, hwaits, hs, hpending, hexec⟩ := hexecute
    rcases hcommit s database hpending hexec with hran | ⟨gs, hlost⟩
    · obtain ⟨gs, -, htried⟩ := Tried.of_committed (hes.trans hwaits) hs hran
      exact ⟨_, hw ▸ htried⟩
    · exact ⟨_, hw ▸ Tried.of_waits ((hes.trans hwaits).trans hlost) (Nat.zero_le _)⟩
  · rename_i w hw _ w₁ hbegin e w₂ hexecute t
    obtain ⟨es, hes⟩ := hbegin
    obtain ⟨fs, hwaits⟩ := hexecute
    exact ⟨es ++ fs, hw ▸ Tried.of_waits ((hes.trans hwaits).stay rfl rfl rfl) (Nat.zero_le _)⟩
  · rename_i w hw e w₁
    rintro ⟨es, hes⟩
    exact ⟨es, hw ▸ Tried.of_waits hes (Nat.zero_le _)⟩

/-- **One transaction** takes one connection, asking ten times at most. -/
theorem transaction_spec (statement : Time → Option Statement) (w₀ : World) :
    ⦃fun w => ⌜w = w₀⌝⦄ transaction env (execute env statement)
    ⦃post⟨fun _ w => ⌜∃ cs es fs now s, Tried statement w₀ w cs (es ++ .ran true s :: fs) ∧
        Foreign fs ∧ NoneClosed cs ∧ statement now = some s⌝,
      fun e w => ⌜∃ cs es, Tried statement w₀ w cs es ∧ EndedBy e cs⌝⟩⦄ := by
  mvcgen [transaction, getconn_spec, inTransaction_spec, poolPutconn]
  · rename_i w hw conn w₁ hgetconn _ w₂ hdone t
    obtain ⟨cs, es, hwaits, hfew, hopen⟩ := hgetconn
    obtain ⟨fs, gs, now, s, htried, hgs, hs⟩ := hdone
    refine ⟨cs, es ++ fs, gs, now, s, ?_, hgs, hopen, hs⟩
    rw [List.append_assoc]
    exact hw ▸ (htried.after_getconn hwaits hfew).stay rfl rfl rfl
  · rename_i w hw conn w₁ hgetconn e w₂ hfailed t
    obtain ⟨cs, es, hwaits, hfew, hopen⟩ := hgetconn
    obtain ⟨fs, htried⟩ := hfailed
    exact ⟨cs, es ++ fs, hw ▸ (htried.after_getconn hwaits hfew).stay rfl rfl rfl, Or.inl hopen⟩
  · rename_i w hw e w₁
    rintro ⟨cs, es, hwaits, hfew, hended⟩
    exact ⟨cs, es, hw ▸ Tried.of_waits hwaits hfew, hended⟩

end Specs

end RetryPg

end DramatiqPostgres
