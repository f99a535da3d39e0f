import DramatiqPostgres.Queue.RowInvariant
import Mathlib.Algebra.BigOperators.Group.Multiset.Basic

/-!
# The life of a message

What the queue table is for, seen from one message: it is absent, queued,
consumed or rejected, and the statements move it between these places.  `Move`
is that diagram, drawn from no statement's text but from what the queue
promises; `move_iff` says that it is exact — a statement moves a message only
along an arrow, and every arrow is taken in some reachable state.

### Two layers

The diagram is the abstract level.  A `View` says how a system of steps is seen
through it, and `Follows` that each of its steps leaves the place of a message
alone or follows an arrow of its own kind.  Counting the arrows of a run then
gives the balance of every message (`Follows.balances`): nothing is delivered
that was not enqueued or put back, and nothing that was enqueued goes missing.

Here the system is the one whose statements run one after the other, and
`eq_or_move_of_exec` is its step lemma; `Queue/LockedLifecycle.lean` does the
same where they run under row locks.

### What the balance is good for

A claim about one delivery, that a message is not lost or not handed out twice,
is about a run and not about a step, and every statement that touches the row
has a part in it.  `Accounted` says it with one equation for each place.  The
inequality on deliveries is a consequence of the equation of the place `queued`:
a delivery takes the message out of it, and the only arrows that lead there are
the enqueues of the message and the statements that put it back.

### Arrows that surprise

Two arrows would not be in a diagram drawn from the names of the statements.  An
upsert over a delivery in flight takes a consumed message back to the queue,
while its worker goes on; and NACK rejects a message that is queued, which
happens to a delivery whose row was put back before.
-/

namespace DramatiqPostgres

namespace Lifecycle

open Pg

/-! ## The diagram -/

/-- What happens to a message, by the kind of the statement. -/
inductive Event where
  | enqueue
  | claim
  | ack
  | nack
  /-- REQUEUE, REAP and RECOVER. -/
  | putBack
  | purge
  | flush
  | discard
  /-- The deletion of an administrator's retry. -/
  | delete
  deriving DecidableEq

/-- The arrows of the diagram; `none` is the place of a message without a
row. -/
inductive Move : Event → Option JobState → Option JobState → Prop where
  | enqueued : Move .enqueue none (some .queued)
  /-- An upsert over a delivery in flight. -/
  | superseded : Move .enqueue (some .consumed) (some .queued)
  | revived : Move .enqueue (some .rejected) (some .queued)
  | claimed : Move .claim (some .queued) (some .consumed)
  | acked : Move .ack (some .consumed) none
  | rejected : Move .nack (some .consumed) (some .rejected)
  /-- The NACK of a delivery whose row was put back. -/
  | rejectedQueued : Move .nack (some .queued) (some .rejected)
  | putBack : Move .putBack (some .consumed) (some .queued)
  | purged : Move .purge (some .rejected) none
  | flushedQueued : Move .flush (some .queued) none
  | flushedConsumed : Move .flush (some .consumed) none
  | discardedQueued : Move .discard (some .queued) none
  | discardedRejected : Move .discard (some .rejected) none
  | deleted (state : JobState) : Move .delete (some state) none

/-- An arrow leads elsewhere. -/
theorem Move.ne {e : Event} {p q : Option JobState} (h : Move e p q) : p ≠ q := by
  cases h <;> simp

/-- A kind of statement, and the two places it connects. -/
abbrev Arrow := Event × Option JobState × Option JobState

/-- The arrows of the diagram. -/
def arrows : List Arrow :=
  [(.enqueue, none, some .queued), (.enqueue, some .consumed, some .queued),
    (.enqueue, some .rejected, some .queued), (.claim, some .queued, some .consumed),
    (.ack, some .consumed, none), (.nack, some .consumed, some .rejected),
    (.nack, some .queued, some .rejected), (.putBack, some .consumed, some .queued),
    (.purge, some .rejected, none), (.flush, some .queued, none), (.flush, some .consumed, none),
    (.discard, some .queued, none), (.discard, some .rejected, none),
    (.delete, some .queued, none), (.delete, some .consumed, none), (.delete, some .rejected, none)]

theorem Move.mem_arrows {e : Event} {p q : Option JobState} (h : Move e p q) :
    (e, p, q) ∈ arrows := by
  cases h with
  | deleted state => cases state <;> decide
  | _ => decide

/-! ## Systems that follow the diagram -/

/-- How a system is seen through the diagram: where a message is, the kind of a
step, and whether it enqueues the message. -/
structure View (σ : Type*) (α : Type*) where
  place : σ → Uuid → Option JobState
  event? : σ → α → Option Event
  enqueues : σ → α → Uuid → Bool

section Follows

variable {σ α : Type*} (M : StepSystem σ α) (v : View σ α)

/-- **The system follows the diagram.**  A step leaves a message where it is, or
moves it along an arrow of its own kind; what an enqueue moves is the message it
enqueues.  This is all that the balance needs to know of a system. -/
structure Follows : Prop where
  step : ∀ s a t, M.Reachable s → M.step s a = some t → ∀ id, v.place t id = v.place s id ∨
    ∃ e, v.event? s a = some e ∧ Move e (v.place s id) (v.place t id)
  enqueues : ∀ s a t, M.Reachable s → M.step s a = some t → v.event? s a = some .enqueue →
    ∀ id, v.place t id ≠ v.place s id → v.enqueues s a id = true

/-- A transition takes the message along an arrow. -/
def took (id : Uuid) (e : Event) (p q : Option JobState) (m : σ × α × σ) : Bool :=
  v.event? m.1 m.2.1 = some e ∧ v.place m.1 id = p ∧ v.place m.2.2 id = q

/-- How often a run takes the message along an arrow. -/
def moves (id : Uuid) (as : List α) (e : Event) (p q : Option JobState) : ℕ :=
  (M.transitions as).countP (took v id e p q)

/-- The enqueues of the message in a run. -/
def enqueues (id : Uuid) (as : List α) : ℕ :=
  (M.transitions as).countP fun m => v.enqueues m.1 m.2.1 id

/-- **Every message is accounted for** in a run on a fresh installation: what
came to a place has left it, or is there at the end.  There is one equation for
each place that has a row. -/
structure Accounted (as : List α) (id : Uuid) : Prop where
  queued :
    (v.place (M.last as) id = some .queued : Bool).toNat
        + moves M v id as .claim (some .queued) (some .consumed)
        + moves M v id as .nack (some .queued) (some .rejected)
        + moves M v id as .flush (some .queued) none
        + moves M v id as .discard (some .queued) none
        + moves M v id as .delete (some .queued) none =
      moves M v id as .enqueue none (some .queued)
        + moves M v id as .enqueue (some .consumed) (some .queued)
        + moves M v id as .enqueue (some .rejected) (some .queued)
        + moves M v id as .putBack (some .consumed) (some .queued)
  consumed :
    (v.place (M.last as) id = some .consumed : Bool).toNat
        + moves M v id as .enqueue (some .consumed) (some .queued)
        + moves M v id as .ack (some .consumed) none
        + moves M v id as .nack (some .consumed) (some .rejected)
        + moves M v id as .putBack (some .consumed) (some .queued)
        + moves M v id as .flush (some .consumed) none
        + moves M v id as .delete (some .consumed) none =
      moves M v id as .claim (some .queued) (some .consumed)
  rejected :
    (v.place (M.last as) id = some .rejected : Bool).toNat
        + moves M v id as .enqueue (some .rejected) (some .queued)
        + moves M v id as .purge (some .rejected) none
        + moves M v id as .discard (some .rejected) none
        + moves M v id as .delete (some .rejected) none =
      moves M v id as .nack (some .consumed) (some .rejected)
        + moves M v id as .nack (some .queued) (some .rejected)
  /-- No delivery without an enqueue of the message, or a step that put it
  back. -/
  deliveries :
    moves M v id as .claim (some .queued) (some .consumed) ≤
      enqueues M v id as + moves M v id as .putBack (some .consumed) (some .queued)

end Follows

/-! ## The balance of a run -/

section Balance

variable {σ α : Type*} {M : StepSystem σ α} {v : View σ α}

/-- The count of a property is a sum over the list. -/
theorem sum_map_toNat {β : Type*} (p : β → Bool) (l : List β) :
    (l.map fun x => (p x).toNat).sum = l.countP p := by
  induction l with
  | nil => rfl
  | cons x xs ih =>
      rw [List.map_cons, List.sum_cons, ih, List.countP_cons, Nat.add_comm]
      cases p x <;> rfl

/-- The number of a run's moves along some arrows, counted transition by
transition. -/
theorem sum_moves (id : Uuid) (as : List α) (l : List Arrow) :
    (l.map fun m => moves M v id as m.1 m.2.1 m.2.2).sum =
      ((M.transitions as).map fun t =>
        (l.map fun m => (took v id m.1 m.2.1 m.2.2 t).toNat).sum).sum := by
  have hswap := Multiset.sum_map_sum_map (↑(M.transitions as)) (↑l : Multiset Arrow)
    (f := fun t m => (took v id m.1 m.2.1 m.2.2 t).toNat)
  simp only [Multiset.map_coe, Multiset.sum_coe] at hswap
  rw [hswap]
  simp only [sum_map_toNat]
  rfl

/-- The arrows out of a place. -/
def outOf (p : Option JobState) : List Arrow := arrows.filter fun m => m.2.1 = p

/-- The arrows into a place. -/
def into (p : Option JobState) : List Arrow := arrows.filter fun m => m.2.2 = p

/-- A transition that takes one arrow takes one of a list that contains it. -/
theorem sum_took_of_eq {id : Uuid} {m : σ × α × σ} {arrow : Arrow} {l : List Arrow}
    (hnodup : l.Nodup) (htook : ∀ e p q, took v id e p q m = decide ((e, p, q) = arrow)) :
    (l.map fun a => (took v id a.1 a.2.1 a.2.2 m).toNat).sum = (decide (arrow ∈ l)).toNat := by
  simp only [htook, Prod.mk.eta]
  rw [sum_map_toNat]
  have hcount : l.countP (fun a => decide (a = arrow)) = l.count arrow := by
    rw [List.count_eq_countP]
    exact List.countP_congr fun a _ => by simp
  rw [hcount]
  by_cases hmem : arrow ∈ l
  · rw [List.count_eq_one_of_mem hnodup hmem, decide_eq_true hmem]
    rfl
  · rw [List.count_eq_zero_of_not_mem hmem, decide_eq_false hmem]
    rfl

namespace Follows

variable (h : Follows M v) {as : List α} {m : σ × α × σ}

include h

/-- A transition takes one arrow, or none where the message stays. -/
theorem took_eq (hm : m ∈ M.transitions as) (id : Uuid) :
    (v.place m.2.2 id = v.place m.1 id ∧ ∀ e p q, p ≠ q → took v id e p q m = false) ∨
      ∃ e p q, Move e p q ∧ v.place m.1 id = p ∧ v.place m.2.2 id = q ∧
        ∀ e' p' q', took v id e' p' q' m = decide ((e', p', q') = (e, p, q)) := by
  obtain ⟨hstep, hvisited, -⟩ := StepSystem.step_of_mem_transitionsFrom hm
  rcases h.step _ _ _ ⟨as, hvisited⟩ hstep id with hsame | ⟨e, hevent, hmove⟩
  · refine Or.inl ⟨hsame, fun e p q hne => ?_⟩
    simp only [took, decide_eq_false_iff_not]
    rintro ⟨-, hp, hq⟩
    exact hne (hp.symm.trans (hsame.symm.trans hq))
  · refine Or.inr ⟨e, _, _, hmove, rfl, rfl, fun e' p' q' => ?_⟩
    simp only [took, hevent, Option.some_inj, Prod.mk.injEq, eq_comm]

/-- **Step lemma.**  A transition moves the message into a place, out of it, or
neither.  The balance of a run is the sum of these. -/
theorem sum_took (hm : m ∈ M.transitions as) (id : Uuid) (p : Option JobState) :
    (v.place m.2.2 id = p : Bool).toNat +
        ((outOf p).map fun a => (took v id a.1 a.2.1 a.2.2 m).toNat).sum =
      (v.place m.1 id = p : Bool).toNat +
        ((into p).map fun a => (took v id a.1 a.2.1 a.2.2 m).toNat).sum := by
  have hnodup : arrows.Nodup := by decide
  rcases h.took_eq hm id with ⟨hsame, hnone⟩ | ⟨e, src, dst, hmove, rfl, rfl, htook⟩
  · have hproper : ∀ a ∈ arrows, a.2.1 ≠ a.2.2 := by decide
    have hzero : ∀ l : List Arrow, l ⊆ arrows →
        (l.map fun a => (took v id a.1 a.2.1 a.2.2 m).toNat).sum = 0 := by
      intro l hl
      rw [sum_map_toNat, List.countP_eq_zero]
      intro a ha
      rw [hnone _ _ _ (hproper a (hl ha))]
      exact Bool.false_ne_true
    rw [hzero (outOf p) (List.filter_subset_self _), hzero (into p) (List.filter_subset_self _),
      hsame]
  · rw [sum_took_of_eq (l := outOf p) (hnodup.filter _) htook,
      sum_took_of_eq (l := into p) (hnodup.filter _) htook, Nat.add_comm]
    simp only [outOf, into, List.mem_filter, hmove.mem_arrows, true_and, decide_eq_true_eq]

/-- **Balance.**  What came to a place in a run has left it, or is there at the
end. -/
theorem balance (id : Uuid) (as : List α) (p : Option JobState) :
    (v.place (M.last as) id = p : Bool).toNat +
        ((outOf p).map fun a => moves M v id as a.1 a.2.1 a.2.2).sum =
      (v.place M.init id = p : Bool).toNat +
        ((into p).map fun a => moves M v id as a.1 a.2.1 a.2.2).sum := by
  rw [sum_moves, sum_moves]
  exact StepSystem.add_sum_eq_of_transitionsFrom (f := fun s => (v.place s id = p : Bool).toNat)
    fun _ hm => h.sum_took hm id p

/-- A delivery takes the message from the queue, and only an enqueue of it or a
step that puts it back brings it there. -/
theorem toNat_claim_le (hm : m ∈ M.transitions as) (id : Uuid) :
    (v.place m.2.2 id = some .queued : Bool).toNat +
        (took v id .claim (some .queued) (some .consumed) m).toNat ≤
      (v.place m.1 id = some .queued : Bool).toNat +
        ((v.enqueues m.1 m.2.1 id).toNat +
          (took v id .putBack (some .consumed) (some .queued) m).toNat) := by
  rcases h.took_eq hm id with ⟨hsame, hnone⟩ | ⟨e, src, dst, hmove, hsrc, hdst, htook⟩
  · rw [hsame, hnone .claim _ _ (by decide), Bool.toNat_false]
    omega
  · have henqueued : e = .enqueue → v.enqueues m.1 m.2.1 id = true := by
      rintro rfl
      obtain ⟨hstep, hvisited, -⟩ := StepSystem.step_of_mem_transitionsFrom hm
      have htaken : took v id .enqueue src dst m = true := by rw [htook, decide_eq_true rfl]
      simp only [took, decide_eq_true_eq] at htaken
      refine h.enqueues _ _ _ ⟨as, hvisited⟩ hstep htaken.1 id ?_
      rw [hsrc, hdst]
      exact hmove.ne.symm
    rw [htook, htook, hsrc, hdst]
    cases hmove with
    | enqueued | superseded | revived => simp [henqueued rfl]
    | _ => simp

/-- **A system that follows the diagram accounts for every message**, if it
starts with none. -/
theorem balances (hinit : ∀ id, v.place M.init id = none) (as : List α) (id : Uuid) :
    Accounted M v as id := by
  have hsome : ∀ state : JobState,
      (v.place (M.last as) id = some state : Bool).toNat +
          ((outOf (some state)).map fun a => moves M v id as a.1 a.2.1 a.2.2).sum =
        ((into (some state)).map fun a => moves M v id as a.1 a.2.1 a.2.2).sum := by
    intro state
    rw [h.balance, hinit, decide_eq_false (Option.some_ne_none state).symm, Bool.toNat_false,
      Nat.zero_add]
  refine ⟨?_, ?_, ?_, ?_⟩
  · simpa [arrows, outOf, into, Nat.add_assoc] using hsome .queued
  · simpa [arrows, outOf, into, Nat.add_assoc] using hsome .consumed
  · simpa [arrows, outOf, into, Nat.add_assoc] using hsome .rejected
  · have hbudget := StepSystem.add_sum_le_of_transitionsFrom
      (f := fun s => (v.place s id = some .queued : Bool).toNat)
      fun m (hm : m ∈ M.transitionsFrom M.init as) => h.toNat_claim_le hm id
    have hempty : (v.place M.init id = some .queued : Bool).toNat = 0 := by
      rw [hinit]
      rfl
    rw [List.sum_map_add, sum_map_toNat, sum_map_toNat, sum_map_toNat, hempty] at hbudget
    unfold moves Lifecycle.enqueues
    exact (Nat.le_add_left _ _).trans (hbudget.trans (Nat.zero_add _).le)

end Follows

end Balance

/-!
## The conditions of the statements

A row that meets the condition of a statement is where an arrow of the statement
begins.
-/

section Where

variable {now : Time} {queueName : String} {id : Uuid} {r : Row}

theorem move_of_claimWhere (h : Queries.claimWhere now queueName r = true) :
    Move .claim (some r.state) (some .consumed) := by
  simp only [Queries.claimWhere, decide_eq_true_eq] at h
  rw [h.2.1]
  exact .claimed

theorem move_of_ackWhere (h : Queries.ackWhere id queueName r = true) :
    Move .ack (some r.state) none := by
  simp only [Queries.ackWhere, decide_eq_true_eq] at h
  rw [h.2.2]
  exact .acked

theorem move_of_nackWhere (h : Queries.nackWhere id queueName r = true) :
    Move .nack (some r.state) (some .rejected) := by
  simp only [Queries.nackWhere, decide_eq_true_eq] at h
  cases hstate : r.state with
  | queued => exact .rejectedQueued
  | consumed => exact .rejected
  | rejected => exact absurd hstate h.2.2

theorem move_of_requeueWhere {ids : List Uuid} (h : Queries.requeueWhere ids r = true) :
    Move .putBack (some r.state) (some .queued) := by
  simp only [Queries.requeueWhere, decide_eq_true_eq] at h
  rw [h.2]
  exact .putBack

theorem move_of_reapWhere {workers : WorkerTable} {ttl : Time}
    (h : Queries.reapWhere workers now ttl r = true) :
    Move .putBack (some r.state) (some .queued) := by
  simp only [Queries.reapWhere, decide_eq_true_eq] at h
  rw [h.1]
  exact .putBack

theorem move_of_recoverWhere {minage : Time} (h : Queries.recoverWhere now minage r = true) :
    Move .putBack (some r.state) (some .queued) := by
  simp only [Queries.recoverWhere, decide_eq_true_eq] at h
  rw [h.1]
  exact .putBack

theorem move_of_purgeWhere {maxAge : Time} (h : Queries.purgeWhere now maxAge r = true) :
    Move .purge (some r.state) none := by
  simp only [Queries.purgeWhere, decide_eq_true_eq] at h
  rw [h.1]
  exact .purged

theorem move_of_flushWhere (h : Queries.flushWhere r = true) : Move .flush (some r.state) none := by
  simp only [Queries.flushWhere, decide_eq_true_eq] at h
  rcases h with hstate | hstate <;> rw [hstate]
  · exact .flushedQueued
  · exact .flushedConsumed

theorem move_of_discardWhere {selected : List Uuid} (h : Queries.discardWhere selected r = true) :
    Move .discard (some r.state) none := by
  simp only [Queries.discardWhere, decide_eq_true_eq] at h
  cases hstate : r.state with
  | queued => exact .discardedQueued
  | consumed => exact absurd hstate h.2
  | rejected => exact .discardedRejected

end Where

/-! ## Statements and places -/

/-- The kind of a statement; the statements on the worker table have none. -/
def event? : Statement → Option Event
  | .enqueue .. => some .enqueue
  | .enqueueQuiet .. => some .enqueue
  | .claim .. => some .claim
  | .ack .. => some .ack
  | .nack .. => some .nack
  | .requeue .. => some .putBack
  | .reap .. => some .putBack
  | .recover .. => some .putBack
  | .purge .. => some .purge
  | .flush => some .flush
  | .deleteByPk _ => some .delete
  | .discard _ => some .discard
  | .heartbeat .. => none
  | .cleanWorkers .. => none

theorem event?_eq_enqueue_iff {a : Statement} :
    event? a = some .enqueue ↔ ∃ id, a.enqueued = some id := by
  cases a <;> simp [event?, Statement.enqueued]

/-- Where a message is. -/
def place (s : Database) (id : Uuid) : Option JobState := (s.queue.find? id).map Row.state

section Step

variable {s t : Database} {a : Statement}

/-- What a statement other than an enqueue does to a row, it does along an
arrow. -/
theorem eq_or_move_of_onRow {r : Row} (hr : r ∈ s.queue.table) :
    (a.onRow s r).map Row.state = some r.state ∨
      ∃ e, event? a = some e ∧ Move e (some r.state) ((a.onRow s r).map Row.state) := by
  cases a with
  | enqueue | enqueueQuiet | heartbeat | cleanWorkers => exact Or.inl rfl
  | claim now queueName limit workerId locked =>
      simp only [Statement.onRow]
      split_ifs with hmem
      · have hnext := Queries.mem_claimNext_of_messageId hr hmem
        exact Or.inr ⟨.claim, rfl, move_of_claimWhere (Queries.mem_claimNext hnext).2.1⟩
      · exact Or.inl rfl
  | ack id queueName channel idText =>
      simp only [Statement.onRow]
      split_ifs with hwhere
      · exact Or.inr ⟨.ack, rfl, move_of_ackWhere hwhere⟩
      · exact Or.inl rfl
  | nack now message id queueName channel idText =>
      simp only [Statement.onRow]
      split_ifs with hwhere
      · exact Or.inr ⟨.nack, rfl, move_of_nackWhere hwhere⟩
      · exact Or.inl rfl
  | requeue now ids =>
      simp only [Statement.onRow]
      split_ifs with hwhere
      · exact Or.inr ⟨.putBack, rfl, move_of_requeueWhere hwhere⟩
      · exact Or.inl rfl
  | reap now ttl =>
      simp only [Statement.onRow]
      split_ifs with hwhere
      · exact Or.inr ⟨.putBack, rfl, move_of_reapWhere hwhere⟩
      · exact Or.inl rfl
  | recover now minage =>
      simp only [Statement.onRow]
      split_ifs with hwhere
      · exact Or.inr ⟨.putBack, rfl, move_of_recoverWhere hwhere⟩
      · exact Or.inl rfl
  | purge now maxAge =>
      simp only [Statement.onRow]
      split_ifs with hwhere
      · exact Or.inr ⟨.purge, rfl, move_of_purgeWhere hwhere⟩
      · exact Or.inl rfl
  | flush =>
      simp only [Statement.onRow]
      split_ifs with hwhere
      · exact Or.inr ⟨.flush, rfl, move_of_flushWhere hwhere⟩
      · exact Or.inl rfl
  | deleteByPk pk =>
      simp only [Statement.onRow]
      split_ifs with hid
      · exact Or.inr ⟨.delete, rfl, .deleted r.state⟩
      · exact Or.inl rfl
  | discard selected =>
      simp only [Statement.onRow]
      split_ifs with hwhere
      · exact Or.inr ⟨.discard, rfl, move_of_discardWhere hwhere⟩
      · exact Or.inl rfl

/-- The place of a message after an upsert. -/
theorem place_of_upsert {now : Time} {queueName : String} {k : Uuid} {doc : Json} {delay : ℤ}
    (h : t.queue = Queries.upsert now queueName k doc delay s.queue) (id : Uuid) :
    place t id = if id = k then some .queued else place s id := by
  have hfind : t.queue.find? id = if id = k then
      some ((s.queue.find? id).elim (Queries.enqueueRow now queueName k doc delay
        s.queue.nextPosition) (Queries.enqueueSet now queueName doc delay))
      else s.queue.find? id := by
    rw [h]
    exact Table.find?_upsert _ _ _ s.queue.table id
  rw [place, place, hfind]
  split_ifs
  · cases s.queue.find? id <;> rfl
  · rfl

/-- **Step lemma.**  A statement leaves a message where it is, or moves it along
an arrow of its own kind. -/
theorem eq_or_move_of_exec (h : s.exec a = some t) (id : Uuid) :
    place t id = place s id ∨ ∃ e, event? a = some e ∧ Move e (place s id) (place t id) := by
  rcases exec_cases h with ⟨-, halter⟩ | ⟨now, queueName, k, doc, delay, hsome, hq⟩
  · have hfind := halter.find?_eq (fun r r' hrow => (kept_onRow hrow).messageId) id
    rw [place, place, hfind]
    cases hrow : s.queue.find? id with
    | none => exact Or.inl rfl
    | some r => exact eq_or_move_of_onRow (Table.mem_of_find? hrow)
  · rw [place_of_upsert hq]
    split_ifs with hid
    · have hevent := event?_eq_enqueue_iff.mpr ⟨k, hsome⟩
      rcases hplace : place s id with _ | state
      · exact Or.inr ⟨.enqueue, hevent, .enqueued⟩
      · cases state with
        | queued => exact Or.inl rfl
        | consumed => exact Or.inr ⟨.enqueue, hevent, .superseded⟩
        | rejected => exact Or.inr ⟨.enqueue, hevent, .revived⟩
    · exact Or.inl rfl

/-- A message that an enqueue moves is the one it enqueues. -/
theorem enqueued_of_move {id : Uuid} (h : s.exec a = some t) (hevent : event? a = some .enqueue)
    (hne : place t id ≠ place s id) : a.enqueued = some id := by
  rcases exec_cases h with ⟨hnone, -⟩ | ⟨now, queueName, k, doc, delay, hsome, hq⟩
  · obtain ⟨k, hsome⟩ := event?_eq_enqueue_iff.mp hevent
    rw [hnone] at hsome
    cases hsome
  · rw [place_of_upsert hq] at hne
    split_ifs at hne with hid
    · rw [hsome, hid]
    · exact absurd rfl hne

end Step

/-! ## The diagram is exact -/

/-- One message along every arrow. -/
def tour : List Statement :=
  let id := Uuid.small 1
  let enqueue := Statement.enqueueQuiet 0 "q" id (.obj []) 0
  let claim := Statement.claim 0 "q" 1 (Uuid.small 9) []
  let nack := Statement.nack 0 (.obj []) id "q" "dramatiq.q.ack" id.toText
  [enqueue, claim, enqueue, claim, nack, enqueue, nack, .purge 0 0,
    enqueue, claim, .ack id "q" "dramatiq.q.ack" id.toText,
    enqueue, claim, .requeue 0 [id], .flush, enqueue, claim, .flush,
    enqueue, .discard [id], enqueue, nack, .discard [id],
    enqueue, .deleteByPk id, enqueue, claim, .deleteByPk id, enqueue, nack, .deleteByPk id]

theorem tour_takes_arrows :
    ∀ m ∈ arrows, ∃ p ∈ statementSystem.transitions tour,
      event? p.2.1 = some m.1 ∧ place p.1 (Uuid.small 1) = m.2.1 ∧
        place p.2.2 (Uuid.small 1) = m.2.2 := by
  decide +kernel

/-- **The diagram is exact.**  A message goes from one place to another by a
kind of statement, in some reachable state, exactly along its arrows.  One
direction is the step lemma; the other is `tour`, a run that takes every
arrow. -/
theorem move_iff {e : Event} {p q : Option JobState} :
    Move e p q ↔ p ≠ q ∧ ∃ s a t id, statementSystem.Reachable s ∧ s.exec a = some t ∧
      event? a = some e ∧ place s id = p ∧ place t id = q := by
  constructor
  · intro hmove
    obtain ⟨m, hm, hevent, hp, hq⟩ := tour_takes_arrows _ hmove.mem_arrows
    obtain ⟨hstep, hvisited, -⟩ := StepSystem.step_of_mem_transitionsFrom hm
    exact ⟨hmove.ne, m.1, m.2.1, m.2.2, Uuid.small 1, ⟨tour, hvisited⟩, hstep, hevent, hp, hq⟩
  · rintro ⟨hne, s, a, t, id, -, hexec, hevent, rfl, rfl⟩
    rcases eq_or_move_of_exec hexec id with hsame | ⟨e', hevent', hmove⟩
    · exact absurd hsame.symm hne
    · rw [hevent, Option.some_inj] at hevent'
      exact hevent' ▸ hmove

/-! ## The balance of the statements -/

/-- The statements, run one after the other. -/
def statementView : View Database Statement where
  place := place
  event? := fun _ => event?
  enqueues := fun _ a id => a.enqueued = some id

theorem follows_statementSystem : Follows statementSystem statementView where
  step := fun _ _ _ _ hstep id => eq_or_move_of_exec hstep id
  enqueues := fun _ _ _ _ hstep hevent _ hne => decide_eq_true (enqueued_of_move hstep hevent hne)

/-- **Every message is accounted for**, whatever the statements and their
order. -/
theorem accounted (as : List Statement) (id : Uuid) :
    Accounted statementSystem statementView as id :=
  follows_statementSystem.balances (fun _ => rfl) as id

end Lifecycle

end DramatiqPostgres
