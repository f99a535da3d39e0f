import DramatiqPostgres.Delivery.Held
import DramatiqPostgres.Queue.Broker
import DramatiqPostgres.Utils.RetryPg

/-!
# A call of `enqueue`

`PostgresBroker.enqueue` is one upsert on the queue (`Queue/Broker.lean`), and
`retry_pg` makes several of it: an attempt whose COMMIT took effect and raised
is made again, while the workers of other processes may already have claimed,
and settled, the message of the first.

What a caller can rely on is said by `Returned` and `Raised`, for every
environment.  Whatever the other sessions do meanwhile, the call adds ten
upserts of its own message to the history of the queue at most, and nothing
else; it asks the pool for a connection a hundred times at most; and when it
returns, its last upsert stored the very message it returns.

### What a caller cannot rely on

When `enqueue` returns, the message need not be in the queue.  From the COMMIT
of the last upsert to the return there are `putconn` and `after_enqueue`, and a
worker that is rung by the notification can claim the message and settle it in
that time.  So `Published` speaks of the state right after that upsert, and says
that only others have done anything since.

Nor need the message be new to the workers.  An attempt whose COMMIT took effect
and raised has published it already, and the next attempt puts it back into the
queue whatever has become of it: this is why `Attempted` counts upserts, and
bounds them by the attempts.

### The shape of the proof

`enqueueOnce_spec` says what one attempt does, whether it returns or raises, in
terms of the entries it adds to the history; `Attempted.trans` puts attempts
together, and the rule for repeated attempts (`Attempts.attempts_spec`) does the
rest, with `Attempted n` as its invariant.  Other sessions enter at every call
to the environment, so each of the specs says that what is between its own
entries is `Foreign`.
-/

namespace DramatiqPostgres

namespace RetryPg

open Pg Std.Do

set_option mvcgen.warning false

section Calls

variable (env : Environment)

/-- A signal is sent to the middleware, which may raise. -/
def emit (signal : Entry) (call : Call) : Py Unit := do
  modify fun w => { w with log := w.log ++ [signal] }
  let _ ← invoke env call

/-- `emit_before("enqueue", …)`. -/
def emitBefore : Py Unit := emit env .before .emitBefore

/-- `emit_after("enqueue", …)`. -/
def emitAfter : Py Unit := emit env .after .emitAfter

/-- `current_millis()`. -/
def currentMillis : Py ℤ := do
  let a ← ask env .currentMillis
  return a.millis

/-- The statement `enqueue` executes, with its parameters. -/
def enqueueStatement (notify : Bool) (message : Message) (delay : Option ℤ) (now : Time) :
    Option Statement :=
  message.key?.map fun id =>
    if notify then .enqueue now message.queueName id message.toJson (delay.getD 0)
    else .enqueueQuiet now message.queueName id message.toJson (delay.getD 0)

variable (dqName : String → String) (notify : Bool) (message : Message) (delay : Option ℤ)

/-- One attempt of `enqueue`. -/
def enqueueOnce : Py Message := do
  emitBefore env
  let millis ← currentMillis env
  let message := PostgresBroker.delayed dqName millis delay message
  transaction env (execute env (enqueueStatement notify message delay))
  emitAfter env
  return message

/-- `PostgresBroker.enqueue`. -/
def enqueue : Py Message := retryPg (enqueueOnce env dqName notify message delay)

end Calls

section Specs

variable {env : Environment} {dqName : String → String} {notify : Bool} {message : Message}
  {delay : Option ℤ}

/-- A statement `enqueue` executes. -/
def IsUpsert (dqName : String → String) (notify : Bool) (message : Message) (delay : Option ℤ)
    (s : Statement) : Prop :=
  ∃ now millis,
    enqueueStatement notify (PostgresBroker.delayed dqName millis delay message) delay now = some s

/-- What `n` attempts have done, together: their entries in the history are
those of others and a bounded number of their own. -/
structure Attempted (dqName : String → String) (notify : Bool) (message : Message)
    (delay : Option ℤ) (n : ℕ) (w w' : World) (cs : List (Option Exn)) (es : List Entry) : Prop
    extends Leads w w' cs es where
  /-- Each has emitted `before_enqueue`, -/
  befores : befores es = n
  /-- asked for a connection ten times at most, -/
  few : cs.length ≤ 10 * n
  /-- and made one upsert at most. -/
  upserts : (own es).length ≤ n
  isUpsert : ∀ s ∈ own es, IsUpsert dqName notify message delay s

/-- Right after the last upsert of the call, `m` was in the queue.  Since then
only other sessions have changed anything.  The state right after is part of the
history, not of the world the call returns in. -/
def Published (m : Message) (w : World) (es : List Entry) : Prop :=
  ∃ earlier later d id r, es = earlier ++ later ∧ own later = [] ∧
    statementSystem.after w.database (statements earlier) = some d ∧ m.key? = some id ∧
    d.queue.find? id = some r ∧ r.state = .queued ∧ r.queueName = m.queueName ∧
    m.toJson.jsonb = some r.message

/-- The call has returned `m`.  Its last upsert was one of `m`; after that
`after_enqueue` was emitted, and there were statements of other sessions. -/
structure Returned (dqName : String → String) (notify : Bool) (message : Message)
    (delay : Option ℤ) (n : ℕ) (w : World) (m : Message) (w' : World) (cs : List (Option Exn))
    (es : List Entry) : Prop extends Attempted dqName notify message delay n w w' cs es where
  noneClosed : NoneClosed cs
  returned : ∃ millis, m = PostgresBroker.delayed dqName millis delay message
  last : ∃ earlier between later now s,
    es = earlier ++ .ran true s :: (between ++ .after :: later) ∧ Foreign between ∧
      Foreign later ∧ enqueueStatement notify m delay now = some s

/-- The call has raised `e`. -/
structure Raised (dqName : String → String) (notify : Bool) (message : Message)
    (delay : Option ℤ) (n : ℕ) (w : World) (e : Exn) (w' : World) (cs : List (Option Exn))
    (es : List Entry) : Prop extends Attempted dqName notify message delay n w w' cs es where
  endedBy : EndedBy e cs

namespace Attempted

variable {n k : ℕ} {w w₁ w₂ : World} {cs ds : List (Option Exn)} {es fs : List Entry}

theorem refl (w : World) : Attempted dqName notify message delay 0 w w [] [] :=
  ⟨Leads.refl w, rfl, le_rfl, le_rfl, fun _ hs => absurd hs List.not_mem_nil⟩

theorem trans (h : Attempted dqName notify message delay n w w₁ cs es)
    (h' : Attempted dqName notify message delay k w₁ w₂ ds fs) :
    Attempted dqName notify message delay (n + k) w w₂ (cs ++ ds) (es ++ fs) where
  toLeads := h.toLeads.trans h'.toLeads
  befores := by rw [befores_append, h.befores, h'.befores]
  few := by
    rw [List.length_append, Nat.mul_add]
    exact Nat.add_le_add h.few h'.few
  upserts := by
    rw [own_append, List.length_append]
    exact Nat.add_le_add h.upserts h'.upserts
  isUpsert := by
    intro s hs
    rw [own_append, List.mem_append] at hs
    exact hs.elim (h.isUpsert s) (h'.isUpsert s)

/-- One attempt: `before_enqueue`, the transaction, and what comes after it. -/
theorem of_tried (millis : ℤ) (hbefore : Leads w w₁ [] (.before :: fs)) (hfs : Foreign fs)
    (htried : Tried (enqueueStatement notify (PostgresBroker.delayed dqName millis delay message)
      delay) w₁ w₂ cs es) :
    Attempted dqName notify message delay 1 w w₂ cs (.before :: fs ++ es) where
  toLeads := hbefore.trans htried.toLeads
  befores := by
    have hone : RetryPg.befores (.before :: fs) = RetryPg.befores fs + 1 :=
      List.countP_cons_of_pos rfl
    rw [befores_append, htried.befores, hone, hfs.befores_eq_zero]
  few := htried.few
  upserts := by
    have hnone : own (.before :: fs) = own fs := rfl
    rw [own_append, hnone, hfs.own_eq_nil]
    rcases htried.own with hnone | ⟨now, s, -, hone⟩
    · rw [hnone]
      exact Nat.zero_le 1
    · rw [hone]
      exact le_rfl
  isUpsert := by
    intro s hs
    have hnone : own (.before :: fs) = own fs := rfl
    rw [own_append, hnone, hfs.own_eq_nil] at hs
    rcases htried.own with hnone | ⟨now, s', hs', hone⟩
    · rw [hnone] at hs
      exact absurd hs List.not_mem_nil
    · rw [hone] at hs
      rw [List.mem_singleton.mp hs]
      exact ⟨now, millis, hs'⟩

theorem emitted (h : Attempted dqName notify message delay n w w₁ cs es)
    (hafter : Leads w₁ w₂ [] (.after :: fs)) (hfs : Foreign fs) :
    Attempted dqName notify message delay n w w₂ cs (es ++ .after :: fs) where
  toLeads := by
    have hleads := h.toLeads.trans hafter
    rwa [List.append_nil] at hleads
  befores := by
    have hnone : RetryPg.befores (.after :: fs) = RetryPg.befores fs :=
      List.countP_cons_of_neg Bool.false_ne_true
    rw [befores_append, h.befores, hnone, hfs.befores_eq_zero, Nat.add_zero]
  few := h.few
  upserts := by
    have hnone : own (.after :: fs) = own fs := rfl
    rw [own_append, hnone, hfs.own_eq_nil, List.append_nil]
    exact h.upserts
  isUpsert := by
    have hnone : own (.after :: fs) = own fs := rfl
    rw [own_append, hnone, hfs.own_eq_nil, List.append_nil]
    exact h.isUpsert

end Attempted

/-- A signal leaves the database alone; other sessions may not. -/
theorem emit_spec (env : Environment) {signal : Entry} (hsignal : statements [signal] = [])
    (call : Call) (w₀ : World) :
    ⦃fun w => ⌜w = w₀⌝⦄ emit env signal call
    ⦃post⟨fun _ w => ⌜∃ es, Foreign es ∧ Leads w₀ w [] (signal :: es)⌝,
      fun _ w => ⌜∃ es, Foreign es ∧ Leads w₀ w [] (signal :: es)⌝⟩⦄ := by
  have hsent : ∀ w : World, Leads w { w with log := w.log ++ [signal] } [] [signal] := fun w =>
    ⟨(List.append_nil _).symm, rfl, by rw [hsignal]; rfl⟩
  mvcgen [emit, invoke_spec]
  · rename_i w hw t _ w' hinvoke
    obtain ⟨es, hwaits⟩ := hinvoke
    exact ⟨es, hwaits.foreign, hw ▸ (hsent w).trans hwaits.toLeads⟩
  · rename_i w hw t e w'
    rintro ⟨es, hwaits⟩
    exact ⟨es, hwaits.foreign, hw ▸ (hsent w).trans hwaits.toLeads⟩

theorem currentMillis_spec (w₀ : World) :
    ⦃fun w => ⌜w = w₀⌝⦄ currentMillis env
    ⦃post⟨fun _ w => ⌜∃ es, Waits w₀ w [] es⌝, fun _ _ => ⌜False⌝⟩⦄ := by
  mvcgen [currentMillis, ask_spec]
  rename_i w hw a w' hask
  exact hw ▸ hask

/-- One attempt. -/
theorem enqueueOnce_spec (w₀ : World) :
    ⦃fun w => ⌜w = w₀⌝⦄ enqueueOnce env dqName notify message delay
    ⦃post⟨fun m w => ⌜∃ cs es, Returned dqName notify message delay 1 w₀ m w cs es⌝,
      fun e w => ⌜∃ cs es, Raised dqName notify message delay 1 w₀ e w cs es⌝⟩⦄ := by
  have hbefore := emit_spec env (rfl : statements [.before] = []) .emitBefore
  have hafter := emit_spec env (rfl : statements [.after] = []) .emitAfter
  -- The time is asked for before the transaction, and others go on meanwhile.
  have hstarted : ∀ {w w₁ w₂ : World} {es fs : List Entry}, Leads w w₁ [] (.before :: es) →
      Waits w₁ w₂ [] fs → Leads w w₂ [] (.before :: (es ++ fs)) :=
    fun hemitted hmillis => hemitted.trans hmillis.toLeads
  mvcgen [enqueueOnce, emitBefore, emitAfter, hbefore, hafter, currentMillis_spec,
    transaction_spec]
  · rename_i w hw _ w₁ hemitted millis m w₂ hmillis _ w₃ hdone _ w₄ hsignalled
    obtain ⟨es, hes, hemitted⟩ := hemitted
    obtain ⟨fs, hmillis⟩ := hmillis
    obtain ⟨cs, gs, between, now, s, htried, hbetween, hopen, hs⟩ := hdone
    obtain ⟨later, hlater, hsignalled⟩ := hsignalled
    have hattempted := (Attempted.of_tried millis (hstarted hemitted hmillis)
      (hes.append hmillis.foreign) htried).emitted hsignalled hlater
    refine ⟨cs, _, hw ▸ hattempted, hopen, ⟨millis, rfl⟩, .before :: (es ++ fs) ++ gs, between,
      later, now, s, ?_, hbetween, hlater, hs⟩
    simp only [List.append_assoc, List.cons_append]
  · rename_i w hw _ w₁ hemitted millis m w₂ hmillis _ w₃ hdone e w₄
    rintro ⟨later, hlater, hsignalled⟩
    obtain ⟨es, hes, hemitted⟩ := hemitted
    obtain ⟨fs, hmillis⟩ := hmillis
    obtain ⟨cs, gs, between, now, s, htried, hbetween, hopen, hs⟩ := hdone
    have hattempted := (Attempted.of_tried millis (hstarted hemitted hmillis)
      (hes.append hmillis.foreign) htried).emitted hsignalled hlater
    exact ⟨cs, _, hw ▸ hattempted, Or.inl hopen⟩
  · rename_i w hw _ w₁ hemitted millis m w₂ hmillis e w₃
    rintro ⟨cs, gs, htried, hended⟩
    obtain ⟨es, hes, hemitted⟩ := hemitted
    obtain ⟨fs, hmillis⟩ := hmillis
    have hattempted := Attempted.of_tried millis (hstarted hemitted hmillis)
      (hes.append hmillis.foreign) htried
    exact ⟨cs, _, hw ▸ hattempted, hended⟩
  · rename_i w hw e w₁
    rintro ⟨es, hes, hemitted⟩
    -- It raised before the first attempt at its transaction.
    have htried : Tried (enqueueStatement notify (PostgresBroker.delayed dqName 0 delay message)
        delay) w₁ w₁ [] [] := Tried.of_waits (Waits.refl w₁) (Nat.zero_le 10)
    exact ⟨[], _, hw ▸ Attempted.of_tried 0 hemitted hes htried, Or.inl noneClosed_nil⟩

/-- What follows some attempts that have failed. -/
theorem Attempted.returned {n k : ℕ} {w w₁ w₂ : World} {m : Message} {cs ds : List (Option Exn)}
    {es fs : List Entry} (h : Attempted dqName notify message delay n w w₁ cs es)
    (hopen : NoneClosed cs) (hlast : Returned dqName notify message delay k w₁ m w₂ ds fs) :
    Returned dqName notify message delay (n + k) w m w₂ (cs ++ ds) (es ++ fs) where
  toAttempted := h.trans hlast.toAttempted
  noneClosed := noneClosed_append.mpr ⟨hopen, hlast.noneClosed⟩
  returned := hlast.returned
  last := by
    obtain ⟨earlier, between, later, now, s, hfs, hbetween, hlater, hs⟩ := hlast.last
    exact ⟨es ++ earlier, between, later, now, s, by rw [hfs, List.append_assoc], hbetween, hlater,
      hs⟩

theorem Attempted.raised {n k : ℕ} {w w₁ w₂ : World} {e : Exn} {cs ds : List (Option Exn)}
    {es fs : List Entry} (h : Attempted dqName notify message delay n w w₁ cs es)
    (hopen : NoneClosed cs) (hlast : Raised dqName notify message delay k w₁ e w₂ ds fs) :
    Raised dqName notify message delay (n + k) w e w₂ (cs ++ ds) (es ++ fs) where
  toAttempted := h.trans hlast.toAttempted
  endedBy := hlast.endedBy.append hopen

/-- The upsert of `enqueue` stores its message. -/
theorem exists_queued {m : Message} {now : Time} {s : Statement} {d d' : Database}
    (hs : enqueueStatement notify m delay now = some s) (hexec : d.exec s = some d') :
    ∃ id r, m.key? = some id ∧ d'.queue.find? id = some r ∧ r.state = .queued ∧
      r.queueName = m.queueName ∧ m.toJson.jsonb = some r.message := by
  obtain ⟨id, hid, hs⟩ := Option.map_eq_some_iff.mp hs
  have hupsert : ∃ doc, m.toJson.jsonb = some doc ∧
      d'.queue = Queries.upsert now m.queueName id doc (delay.getD 0) d.queue := by
    cases notify with
    | true =>
        rw [if_pos rfl] at hs
        subst hs
        obtain ⟨p, hp, rfl⟩ := Database.eq_of_ofResult hexec
        exact Queries.exists_of_enqueue_ok hp
    | false =>
        rw [if_neg Bool.false_ne_true] at hs
        subst hs
        obtain ⟨p, hp, rfl⟩ := Database.eq_of_ofResult hexec
        cases hquiet : Queries.enqueueQuiet now m.queueName id m.toJson (delay.getD 0) d.queue with
        | error e => rw [hquiet] at hp; cases hp
        | ok q =>
            rw [hquiet] at hp
            cases hp
            exact Queries.exists_of_enqueueQuiet_ok hquiet
  obtain ⟨doc, hdoc, hqueue⟩ := hupsert
  obtain ⟨r, hr, hqueued, hmessage, hname⟩ :=
    Queries.exists_find?_upsert now m.queueName id doc (delay.getD 0) d.queue
  exact ⟨id, r, hid, hqueue ▸ hr, hqueued, hname, hmessage ▸ hdoc⟩

/-- The message a call returns was in the queue right after its last upsert. -/
theorem Returned.published {n : ℕ} {w w' : World} {m : Message} {cs : List (Option Exn)}
    {es : List Entry} (h : Returned dqName notify message delay n w m w' cs es) :
    Published m w es := by
  obtain ⟨earlier, between, later, now, s, hes, hbetween, hlater, hs⟩ := h.last
  have hafter := h.database
  have hsplit : es = (earlier ++ [.ran true s]) ++ (between ++ .after :: later) := by
    rw [hes, List.append_assoc]
    rfl
  rw [hsplit, statements_append, StepSystem.after_append] at hafter
  obtain ⟨d', hran, -⟩ := Option.bind_eq_some_iff.mp hafter
  have hrun := hran
  rw [statements_append, StepSystem.after_append] at hrun
  obtain ⟨d, -, hlast⟩ := Option.bind_eq_some_iff.mp hrun
  obtain ⟨d'', hexec, hend⟩ := Option.bind_eq_some_iff.mp hlast
  cases hend
  obtain ⟨id, r, hstored⟩ := exists_queued hs hexec
  refine ⟨_, _, _, id, r, hsplit, ?_, hran, hstored⟩
  have hnone : own (.after :: later) = own later := rfl
  rw [own_append, hnone, hbetween.own_eq_nil, hlater.own_eq_nil, List.append_nil]

/-- **`enqueue`, in every environment.**  What it returns was in the queue right
after its last upsert, and an error of the database comes out after ten attempts
only.  No hypothesis is made on what the pool, the server and the middleware
answer. -/
theorem enqueue_published (w : World) :
    match (enqueue env dqName notify message delay).run w with
    | .ok m w' => ∃ n ≤ 10, ∃ cs es, Returned dqName notify message delay n w m w' cs es ∧
        Published m w es
    | .error e w' => ∃ n ≤ 10, ∃ cs es, Raised dqName notify message delay n w e w' cs es ∧
        (e.isRetried = true → n = 10) := by
  have htriple : ⦃fun w' => ⌜w' = w⌝⦄ enqueue env dqName notify message delay
      ⦃post⟨
        fun m w' => ⌜∃ n ≤ 10, ∃ cs es, Returned dqName notify message delay n w m w' cs es⌝,
        fun e w' => ⌜∃ n ≤ 10, ∃ cs es, Raised dqName notify message delay n w e w' cs es ∧
          (e.isRetried = true → n = 10)⌝⟩⦄ := by
    refine Attempts.attempts_spec (fun k w' => ∃ cs es,
      Attempted dqName notify message delay k w w' cs es ∧ NoneClosed cs)
      (fun w' hw' => ⟨[], [], hw' ▸ Attempted.refl w', noneClosed_nil⟩) fun k hk => ?_
    refine Attempts.triple_of_each enqueueOnce_spec ?_ ?_
    · rintro w₁ m w₂ ⟨cs, es, hattempted, hopen⟩ ⟨ds, fs, hreturned⟩
      exact ⟨k + 1, by omega, cs ++ ds, es ++ fs, hattempted.returned hopen hreturned⟩
    · rintro w₁ e w₂ ⟨cs, es, hattempted, hopen⟩ ⟨ds, fs, hraised⟩
      have hall := hattempted.raised hopen hraised
      refine ⟨fun _ hagain => ⟨cs ++ ds, es ++ fs, hall.toAttempted, ?_⟩, fun _ hlast => ?_,
        fun hfinal => ?_⟩
      · exact hall.endedBy.noneClosed (Exn.not_isInstance_poolClosed hagain)
      · exact ⟨k + 1, by omega, cs ++ ds, es ++ fs, hall, fun _ => by omega⟩
      · refine ⟨k + 1, by omega, cs ++ ds, es ++ fs, hall, fun hagain => ?_⟩
        rw [hfinal] at hagain
        cases hagain
  have hrun := Attempts.triple_iff.mp htriple w rfl
  cases hend : (enqueue env dqName notify message delay).run w with
  | ok m w' =>
      rw [hend] at hrun
      obtain ⟨n, hn, cs, es, hreturned⟩ := hrun
      exact ⟨n, hn, cs, es, hreturned, hreturned.published⟩
  | error e w' =>
      rw [hend] at hrun
      exact hrun

end Specs

end RetryPg

end DramatiqPostgres
