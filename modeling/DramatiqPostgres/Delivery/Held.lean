import DramatiqPostgres.Delivery.Ledger
import DramatiqPostgres.Lib.Traverse

/-!
# Deliveries in flight and the rows they come from

A delivery is `Current` when its claim is still its row's: the row is
`consumed`, and by that very claim.  Two invariants tie deliveries to rows along
every run:

* `Ledger.Wf` — every stored document decodes to a message with the id and the
  queue of its row, so that settling a delivery by *its own* id and queue name
  addresses the row it came from;
* `HeldOk` — a current delivery agrees with its row on the queue, the owner and
  the generation.

Both are kept for one reason, stated once as `Ledger.Quiet`: no operation but
CLAIM makes a row `consumed`, and none touches a row it leaves `consumed`.
CLAIM is the other case; it takes only `queued` rows, so it ends no claim, and
the deliveries it makes are current by construction (`heldOk_of_claim`).

### How it is used

Nothing is assumed of the workers here, neither that they settle what they hold
nor that they settle it once; a delivery that is not current satisfies `HeldOk`
with hardly anything to say.  What the laws about late acks and stale nacks need
is the other half: a *current* delivery is of the row's own generation, on its
own queue, by its own worker.  With that the condition of ACK, which looks at
the state and the queue only, is exactly right for current deliveries, and every
failure is one of a delivery that is not.

`HeldOk.quiet` is the lemma the step lemmas cite.  A statement is shown quiet
once, by the rows it leaves `consumed` (`StateFrame`), and that keeps every
delivery of every worker in order.
-/

namespace DramatiqPostgres

open Pg

/-! ## Rows that stay in a state -/

/-- Every row that is in `state` in `q'` is, column by column, a row of `q`.  A
statement that sets another state, or deletes, has it of every state it does not
set. -/
def StateFrame (state : JobState) (q q' : Queue) : Prop :=
  ∀ id r, q'.find? id = some r → r.state = state → q.find? id = some r

section StateFrame

variable {state : JobState}

theorem StateFrame.refl (q : Queue) : StateFrame state q q := fun _ _ h _ => h

theorem stateFrame_updateWhere {p : Row → Bool} {set : Row → Row}
    {hset : ∀ r, (set r).messageId = r.messageId} (hstate : ∀ r, (set r).state ≠ state)
    (q : Queue) : StateFrame state q (q.updateWhere p set hset) := by
  intro id r' hr' hin
  rw [Queue.find?_updateWhere, Option.map_eq_some_iff] at hr'
  obtain ⟨r, hr, hr'⟩ := hr'
  split_ifs at hr'
  · exact absurd (hr' ▸ hin) (hstate r)
  · exact hr' ▸ hr

theorem stateFrame_deleteWhere (p : Row → Bool) (q : Queue) :
    StateFrame state q (q.deleteWhere p) := by
  intro id r' hr' _
  rw [Queue.find?_deleteWhere, Option.bind_eq_some_iff] at hr'
  obtain ⟨r, hr, hr'⟩ := hr'
  split_ifs at hr'
  exact (Option.some_inj.mp hr') ▸ hr

/-- A rewriting of the rows that changes no row it makes, or leaves, of this
state. -/
theorem Queue.AlteredBy.stateFrame {g : Row → Option Row} {q q' : Queue}
    (h : Queue.AlteredBy g q q')
    (hg : ∀ r r', g r = some r' → r'.state = state → r = r') : StateFrame state q q' := by
  intro id r' hr' hin
  obtain ⟨r, hr, hgr⟩ := h.mem (Table.mem_of_find? hr')
  have hsame := hg r r' hgr hin
  subst hsame
  rw [← Queue.messageId_of_find? hr']
  exact Table.find?_key hr

end StateFrame

namespace Queries

/-- The row of an id after an upsert. -/
theorem find?_upsert (now : Time) (queueName : String) (id : Uuid) (doc : Json) (delay : ℤ)
    (q : Queue) (k : Uuid) :
    (upsert now queueName id doc delay q).find? k =
      if k = id then
        some ((q.find? k).elim (enqueueRow now queueName id doc delay q.nextPosition)
          (enqueueSet now queueName doc delay))
      else q.find? k :=
  Table.find?_upsert _ _ _ q.table k

/-- An upsert leaves the row of its id queued. -/
theorem exists_find?_upsert (now : Time) (queueName : String) (id : Uuid) (doc : Json)
    (delay : ℤ) (q : Queue) :
    ∃ r, (upsert now queueName id doc delay q).find? id = some r ∧ r.state = .queued ∧
      r.message = doc ∧ r.queueName = queueName := by
  rw [find?_upsert, if_pos rfl]
  cases q.find? id with
  | none => exact ⟨_, rfl, rfl, rfl, rfl⟩
  | some r => exact ⟨_, rfl, rfl, rfl, rfl⟩

theorem find?_upsert_of_ne {now : Time} {queueName : String} {id k : Uuid} {doc : Json}
    {delay : ℤ} {q : Queue} (h : k ≠ id) :
    (upsert now queueName id doc delay q).find? k = q.find? k := by
  rw [find?_upsert, if_neg h]

/-- An upsert makes a row queued, and none of another state. -/
theorem stateFrame_upsert {state : JobState} (hstate : state ≠ .queued) (now : Time)
    (queueName : String) (id : Uuid) (doc : Json) (delay : ℤ) (q : Queue) :
    StateFrame state q (upsert now queueName id doc delay q) := by
  intro k r hr hin
  by_cases hk : k = id
  · obtain ⟨r', hr', hqueued, -, -⟩ := exists_find?_upsert now queueName id doc delay q
    rw [hk, hr', Option.some_inj] at hr
    rw [hr, hin] at hqueued
    exact absurd hqueued hstate
  · rwa [find?_upsert_of_ne hk] at hr

end Queries

/-! ## Payloads -/

/-- The stored document decodes to a message with the row's id and queue. -/
def Row.Decodes (r : Row) : Prop :=
  ∃ m, Message.ofJson? r.message = some m ∧ m.key? = some r.messageId ∧
    m.queueName = r.queueName

/-- Every stored document decodes.  The broker writes no other, and no statement
edits one. -/
def Queue.Decodes (q : Queue) : Prop := ∀ id r, q.find? id = some r → r.Decodes

/-- A document written for a message decodes to its id and queue, whatever the
column makes of the rest. -/
theorem exists_ofJson?_of_jsonb {m : Message} {doc : Json} (h : m.toJson.jsonb = some doc) :
    ∃ m', Message.ofJson? doc = some m' ∧ m'.messageId = m.messageId ∧
      m'.queueName = m.queueName := by
  obtain ⟨args, kwargs, options, hdecode⟩ := Message.ofJson?_of_jsonb h
  exact ⟨_, hdecode, rfl, rfl⟩

namespace Queue.Decodes

variable {q : Queue}

theorem updateWhere {p : Row → Bool} {set : Row → Row}
    {hset : ∀ r, (set r).messageId = r.messageId} (h : q.Decodes)
    (hdecode : ∀ r, r.Decodes → p r = true → (set r).Decodes) :
    (q.updateWhere p set hset).Decodes := by
  intro id r' hr'
  rw [Queue.find?_updateWhere, Option.map_eq_some_iff] at hr'
  obtain ⟨r, hr, rfl⟩ := hr'
  split_ifs with hp
  · exact hdecode r (h id r hr) hp
  · exact h id r hr

theorem deleteWhere (p : Row → Bool) (h : q.Decodes) : (q.deleteWhere p).Decodes := by
  intro id r' hr'
  rw [Queue.find?_deleteWhere, Option.bind_eq_some_iff] at hr'
  obtain ⟨r, hr, hr'⟩ := hr'
  split_ifs at hr'
  exact Option.some_inj.mp hr' ▸ h id r hr

theorem upsert (h : q.Decodes) {m : Message} {id : Uuid} {doc : Json} (hkey : m.key? = some id)
    (hdoc : m.toJson.jsonb = some doc) (now : Time) (delay : ℤ) :
    (Queries.upsert now m.queueName id doc delay q).Decodes := by
  intro k r hr
  by_cases hk : k = id
  · subst hk
    obtain ⟨r', hr', -, hmessage, hqueue⟩ :=
      Queries.exists_find?_upsert now m.queueName k doc delay q
    have hid := messageId_of_find? hr
    rw [hr', Option.some_inj] at hr
    subst hr
    obtain ⟨m', hm', hmid, hmq⟩ := exists_ofJson?_of_jsonb hdoc
    refine ⟨m', by rw [hmessage, hm'], ?_, by rw [hqueue, hmq]⟩
    rw [hid, ← hkey, Message.key?, Message.key?, hmid]
  · rw [Queries.find?_upsert_of_ne hk] at hr
    exact h k r hr

/-- NACK stores the message it was given, on the row of that message. -/
theorem nackUpdate (h : q.Decodes) {m : Message} {id : Uuid} {doc : Json}
    (hkey : m.key? = some id) (hdoc : m.toJson.jsonb = some doc) (now : Time) :
    (Queries.nackUpdate now doc id m.queueName q).Decodes := by
  refine h.updateWhere fun r _ hwhere => ?_
  simp only [Queries.nackWhere, decide_eq_true_eq] at hwhere
  obtain ⟨m', hm', hmid, hmq⟩ := exists_ofJson?_of_jsonb hdoc
  refine ⟨m', hm', ?_, hmq.trans hwhere.2.1.symm⟩
  rw [Queries.messageId_nackSet, hwhere.1, ← hkey, Message.key?, Message.key?, hmid]

end Queue.Decodes

/-! ## Ledgers -/

namespace Ledger

/-- Every stored document decodes, and claims are numbered in order: the
invariant of the ledger, without the deliveries. -/
structure Wf (l : Ledger) : Prop where
  decodes : l.db.queue.Decodes
  lastClaim_lt : ∀ id, l.lastClaim id < l.nextClaim

theorem wf_empty : Wf empty where
  decodes := fun _ _ h => nomatch h
  lastClaim_lt := fun _ => Nat.zero_lt_one

/-- The claim behind a delivery is its row's current claim.  A row that was put
back and claimed again has a later one, so this tells the two deliveries
apart. -/
def Current (l : Ledger) (d : Delivery) : Prop :=
  (∃ r, l.row? d.messageId = some r ∧ r.state = .consumed) ∧
    l.lastClaim d.messageId = d.claim

instance (l : Ledger) (d : Delivery) : Decidable (l.Current d) :=
  decidable_of_iff
    ((l.row? d.messageId).any (fun r => r.state = .consumed) = true ∧
      l.lastClaim d.messageId = d.claim) <| by
    simp [Current, Option.any_eq_true]

/-- What a step that is not a CLAIM does: it makes no row `consumed`, keeps
those it leaves `consumed`, and gives a new generation only to a row it leaves
in another state. -/
structure Quiet (l l' : Ledger) : Prop where
  frame : StateFrame .consumed l.db.queue l'.db.queue
  wf : l.Wf → l'.Wf
  lastClaim : l'.lastClaim = l.lastClaim
  nextClaim : l'.nextClaim = l.nextClaim
  generation_le : ∀ id, l.generation id ≤ l'.generation id
  generation_eq : ∀ id r, l'.row? id = some r → r.state = .consumed →
    l'.generation id = l.generation id

theorem Quiet.refl (l : Ledger) : Quiet l l :=
  ⟨StateFrame.refl _, id, rfl, rfl, fun _ => le_rfl, fun _ _ _ _ => rfl⟩

/-- A statement that neither enqueues nor claims. -/
theorem quiet_withQueue {l : Ledger} {q : Queue} (hframe : StateFrame .consumed l.db.queue q)
    (hdecodes : l.db.queue.Decodes → q.Decodes) : Quiet l (l.withQueue q) :=
  ⟨hframe, fun h => ⟨hdecodes h.decodes, h.lastClaim_lt⟩, rfl, rfl, fun _ => le_rfl,
    fun _ _ _ _ => rfl⟩

theorem quiet_updateWhere {l : Ledger} {p : Row → Bool} {set : Row → Row}
    {hset : ∀ r, (set r).messageId = r.messageId} (hstate : ∀ r, (set r).state ≠ .consumed)
    (hdecode : ∀ r, r.Decodes → (set r).Decodes) :
    Quiet l (l.withQueue (l.db.queue.updateWhere p set hset)) :=
  quiet_withQueue (stateFrame_updateWhere hstate _) fun h =>
    h.updateWhere fun r hr _ => hdecode r hr

theorem quiet_deleteWhere (l : Ledger) (p : Row → Bool) :
    Quiet l (l.withQueue (l.db.queue.deleteWhere p)) :=
  quiet_withQueue (stateFrame_deleteWhere p _) (Queue.Decodes.deleteWhere p)

theorem quiet_putBack (l : Ledger) (p : Row → Bool) (now : Time) :
    Quiet l (l.withQueue (l.db.queue.updateWhere p (Queries.putBackSet now)
      (Queries.messageId_putBackSet now))) :=
  quiet_updateWhere (fun _ h => by cases h) fun _ h => h

theorem quiet_recover (l : Ledger) (now minage : Time) :
    Quiet l (l.withQueue (Queries.recover now minage l.db.queue)) :=
  quiet_updateWhere (fun _ h => by cases h) fun _ h => h

theorem quiet_enqueue {dqName : String → String} {notify : Bool} {now : Time} {millis : ℤ}
    {m : Message} {delay : Option ℤ} {l l' : Ledger}
    (h : l.enqueue dqName notify now millis m delay = some l') : Quiet l l' := by
  obtain ⟨id, doc, hid, hdoc, rfl⟩ := exists_upsert_of_enqueue h
  refine ⟨Queries.stateFrame_upsert (by decide) _ _ _ _ _ _, ?_, rfl, rfl, ?_, ?_⟩
  · intro hwf
    refine ⟨hwf.decodes.upsert ?_ hdoc now (delay.getD 0), hwf.lastClaim_lt⟩
    rwa [PostgresBroker.key?_delayed]
  · intro k
    by_cases hk : k = id
    · subst hk; simp
    · simp [Function.update_of_ne hk]
  · intro k r hr hconsumed
    by_cases hk : k = id
    · subst hk
      obtain ⟨r', hr', hqueued, -, -⟩ := Queries.exists_find?_upsert now
        (PostgresBroker.delayed dqName millis delay m).queueName k doc (delay.getD 0) l.db.queue
      have hsame : some r' = some r := hr'.symm.trans hr
      rw [Option.some_inj] at hsame
      rw [hsame, hconsumed] at hqueued
      cases hqueued
    · simp [Function.update_of_ne hk]

theorem quiet_ack {m : Message} {l l' : Ledger} (h : l.ack m = some l') : Quiet l l' := by
  obtain ⟨id, -, rfl⟩ := of_ack h
  exact quiet_deleteWhere l _

theorem quiet_nack {now : Time} {m : Message} {l l' : Ledger} (h : l.nack now m = some l') :
    Quiet l l' := by
  obtain ⟨id, doc, hid, hdoc, rfl⟩ := of_nack h
  refine quiet_withQueue (stateFrame_updateWhere (fun _ h => by cases h) _) fun hdecodes => ?_
  exact hdecodes.nackUpdate hid hdoc now

theorem quiet_requeue {now : Time} {messages : List Message} {l l' : Ledger}
    (h : l.requeue now messages = some l') : Quiet l l' := by
  obtain ⟨ids, -, rfl⟩ := of_requeue h
  exact quiet_putBack l _ now

end Ledger

/-! ## Deliveries -/

/-- What is known of a delivery a worker holds: it is of no later generation or
claim than there has been, its message has its id, and where it is current it
agrees with its row. -/
structure HeldOk (l : Ledger) (d : Delivery) : Prop where
  key : d.message.key? = some d.messageId
  claim_lt : d.claim < l.nextClaim
  generation_le : d.generation ≤ l.generation d.messageId
  current : l.Current d → ∃ r, l.row? d.messageId = some r ∧ r.state = .consumed ∧
    r.queueName = d.message.queueName ∧ r.workerId = some d.worker ∧
    d.generation = l.generation d.messageId

/-- A claim that is current after a quiet step was so before, on the same
row. -/
theorem Ledger.Quiet.current {l l' : Ledger} (h : l.Quiet l') {d : Delivery}
    (hcur : l'.Current d) : l.Current d := by
  obtain ⟨⟨r, hr, hconsumed⟩, hclaim⟩ := hcur
  exact ⟨⟨r, h.frame _ _ hr hconsumed, hconsumed⟩, by rw [← h.lastClaim, hclaim]⟩

/-- **A quiet step keeps what is known of every delivery**, of every worker.
This is the lemma to cite for a statement that is no CLAIM. -/
theorem HeldOk.quiet {l l' : Ledger} {d : Delivery} (h : HeldOk l d) (hquiet : l.Quiet l') :
    HeldOk l' d := by
  refine ⟨h.key, by rw [hquiet.nextClaim]; exact h.claim_lt,
    h.generation_le.trans (hquiet.generation_le _), fun hcur => ?_⟩
  obtain ⟨r, hr, -, hqueue, hworker, hgen⟩ := h.current (hquiet.current hcur)
  obtain ⟨⟨r', hr', hconsumed⟩, -⟩ := hcur
  -- The row found consumed afterwards is the row that was there before.
  have hsame : r' = r := by
    rw [← Option.some_inj, ← hr, ← hquiet.frame _ _ hr' hconsumed]
    rfl
  subst hsame
  exact ⟨r', hr', hconsumed, hqueue, hworker, by
    rw [hquiet.generation_eq _ _ hr' hconsumed, hgen]⟩

/-! ### Settled deliveries -/

/-- **A claim is over once its row is settled**: a quiet step that takes the row
a current delivery agrees with out of `consumed` leaves the delivery not
current. -/
theorem HeldOk.not_current {l l' : Ledger} {d : Delivery} (h : HeldOk l d) (hquiet : l.Quiet l')
    (hsettled : ∀ r r', l.row? d.messageId = some r → r.queueName = d.message.queueName →
      r.state = .consumed → l'.row? d.messageId = some r' → r'.state ≠ .consumed) :
    ¬ l'.Current d := by
  intro hcur
  obtain ⟨r, hr, hconsumed, hqueue, -⟩ := h.current (hquiet.current hcur)
  obtain ⟨⟨r', hr', hconsumed'⟩, -⟩ := hcur
  exact hsettled r r' hr hqueue hconsumed hr' hconsumed'

/-- An ack ends the claim it acks. -/
theorem HeldOk.not_current_of_ack {l l' : Ledger} {d : Delivery} (h : HeldOk l d)
    (hack : l.ack d.message = some l') : ¬ l'.Current d := by
  refine h.not_current (Ledger.quiet_ack hack) fun r r' hr hqueue hconsumed hr' => ?_
  have hwhere : Queries.ackWhere d.messageId d.message.queueName r = true := by
    simp only [Queries.ackWhere, decide_eq_true_eq]
    exact ⟨Queue.messageId_of_find? hr, hqueue, hconsumed⟩
  rw [Ledger.row?_of_ack hack h.key, hr, Option.bind_some, if_pos hwhere] at hr'
  cases hr'

/-- A nack ends the claim it nacks, though it leaves the row. -/
theorem HeldOk.not_current_of_nack {l l' : Ledger} {d : Delivery} {now : Time}
    {options : List (String × Json)} (h : HeldOk l d)
    (hnack : l.nack now { d.message with options := options } = some l') : ¬ l'.Current d := by
  refine h.not_current (Ledger.quiet_nack hnack) fun r r' hr hqueue hconsumed hr' => ?_
  have hkey : ({ d.message with options := options } : Message).key? = some d.messageId := h.key
  obtain ⟨doc, hrow⟩ := Ledger.row?_of_nack hnack hkey
  have hwhere : Queries.nackWhere d.messageId d.message.queueName r = true := by
    simp only [Queries.nackWhere, decide_eq_true_eq]
    exact ⟨Queue.messageId_of_find? hr, hqueue, by rw [hconsumed]; decide⟩
  rw [hrow, hr, Option.map_some, if_pos hwhere, Option.some_inj] at hr'
  rw [← hr']
  exact JobState.noConfusion

/-- REQUEUE ends the claims of all the deliveries it puts back. -/
theorem HeldOk.not_current_of_requeue {l l' : Ledger} {ds : List Delivery} {now : Time}
    {d : Delivery} (h : HeldOk l d) (hrequeue : l.requeue now (ds.map Delivery.message) = some l')
    (hd : d ∈ ds) : ¬ l'.Current d := by
  refine h.not_current (Ledger.quiet_requeue hrequeue) fun r r' hr _ hconsumed hr' => ?_
  obtain ⟨ids, hids, hrow⟩ := Ledger.row?_of_requeue hrequeue
  obtain ⟨id, hid, hkey⟩ := List.exists_mem_of_mapM hids (List.mem_map_of_mem hd)
  rw [h.key, Option.some_inj] at hkey
  subst hkey
  have hwhere : Queries.requeueWhere ids r = true := by
    simp only [Queries.requeueWhere, decide_eq_true_eq]
    exact ⟨by rwa [Queue.messageId_of_find? hr], hconsumed⟩
  rw [hrow, hr, Option.map_some, if_pos hwhere, Option.some_inj] at hr'
  rw [← hr']
  exact JobState.noConfusion

/-! ### Claimed deliveries -/

section Claim

variable {worker : Uuid} {now : Time} {queueName : String} {limit : ℕ} {locked : List Uuid}
  {l l' : Ledger} {deliveries : List Delivery}

/-- The ids of the rows a CLAIM takes, in their order. -/
def claimedIds (now : Time) (queueName : String) (limit : ℕ) (locked : List Uuid) (q : Queue) :
    List Uuid :=
  (Queries.claimNext now queueName limit locked q).map Row.messageId

/-- A CLAIM takes the row of an id once. -/
theorem nodup_claimedIds (now : Time) (queueName : String) (limit : ℕ) (locked : List Uuid)
    (q : Queue) : (claimedIds now queueName limit locked q).Nodup := by
  have hsorted := (List.perm_insertionSort Queries.claimOrder (q.table.rows.filter fun r =>
    Queries.claimWhere now queueName r ∧ r.messageId ∉ locked)).map Row.messageId
  have hfiltered : ((q.table.rows.filter fun r =>
      Queries.claimWhere now queueName r ∧ r.messageId ∉ locked).map Row.messageId).Nodup :=
    (List.filter_sublist.map Row.messageId).nodup q.table.nodup
  exact ((List.take_sublist _ _).map Row.messageId).nodup (hsorted.nodup_iff.mpr hfiltered)

/-- **What CLAIM does to the row of an id**: it takes queued rows only, and sets
them; every other row is as it was. -/
theorem find?_claimUpdate (worker : Uuid) (now : Time) (queueName : String) (limit : ℕ)
    (locked : List Uuid) (q : Queue) (id : Uuid) :
    (id ∈ claimedIds now queueName limit locked q ∧ ∃ r, q.find? id = some r ∧
        r.state = .queued ∧
        (Queries.claim now queueName limit worker locked q).2.find? id
          = some (Queries.claimSet now worker r)) ∨
      (id ∉ claimedIds now queueName limit locked q ∧
        (Queries.claim now queueName limit worker locked q).2.find? id = q.find? id) := by
  by_cases hid : id ∈ claimedIds now queueName limit locked q
  · obtain ⟨r, hr, rfl⟩ := List.mem_map.mp hid
    obtain ⟨hmem, hwhere, -⟩ := Queries.mem_claimNext hr
    simp only [Queries.claimWhere, decide_eq_true_eq] at hwhere
    have hfind : q.find? r.messageId = some r := Table.find?_key hmem
    have hin : r.messageId ∈ (Queries.claimNext now queueName limit locked q).map
        Row.messageId := hid
    refine Or.inl ⟨hid, r, hfind, hwhere.2.1, ?_⟩
    simp only [Queries.claim, Queries.claimUpdate, Queue.find?_updateWhere, hfind,
      Option.map_some, hin, decide_true, if_true]
  · refine Or.inr ⟨hid, ?_⟩
    cases hfind : q.find? id with
    | none => simp [Queries.claim, Queries.claimUpdate, hfind]
    | some r =>
        have hnot : r.messageId ∉ (Queries.claimNext now queueName limit locked q).map
            Row.messageId := by rw [Queue.messageId_of_find? hfind]; exact hid
        simp only [Queries.claim, Queries.claimUpdate, Queue.find?_updateWhere, hfind,
          Option.map_some, hnot, decide_false, Bool.false_eq_true, if_false]

namespace Ledger

/-- The parts of a successful claim. -/
theorem of_claim (h : l.claim worker now queueName limit locked = some (deliveries, l')) :
    ((Queries.claim now queueName limit worker locked l.db.queue).1.mapM (l.deliver worker)
        = some deliveries) ∧
      l' = { l.withQueue (Queries.claim now queueName limit worker locked l.db.queue).2 with
        lastClaim := fun id =>
          if id ∈ claimedIds now queueName limit locked l.db.queue then l.nextClaim
          else l.lastClaim id
        nextClaim := l.nextClaim + 1 } := by
  unfold claim at h
  simp only [Option.map_eq_some_iff, Prod.mk.injEq] at h
  obtain ⟨ds, hds, rfl, rfl⟩ := h
  refine ⟨hds, ?_⟩
  have hids : ((Queries.claim now queueName limit worker locked l.db.queue).1.map Row.messageId)
      = claimedIds now queueName limit locked l.db.queue := by
    simp [Queries.claim, claimedIds, Function.comp_def]
  rw [hids]

/-- The deliveries of a claim are those of the rows it took, in their order. -/
theorem map_messageId_of_claim
    (h : l.claim worker now queueName limit locked = some (deliveries, l')) :
    deliveries.map Delivery.messageId = claimedIds now queueName limit locked l.db.queue := by
  have hdeliver : ∀ r d, l.deliver worker r = some d → d.messageId = r.messageId := by
    intro r d hd
    rw [deliver, Option.map_eq_some_iff] at hd
    obtain ⟨m, -, rfl⟩ := hd
    rfl
  rw [List.map_eq_map_of_mapM hdeliver (of_claim h).1, Queries.claim, List.map_map]
  rfl

theorem length_le_of_claim
    (h : l.claim worker now queueName limit locked = some (deliveries, l')) :
    deliveries.length ≤ limit := by
  have hlength := congrArg List.length (map_messageId_of_claim h)
  rw [List.length_map, claimedIds, List.length_map] at hlength
  rw [hlength, Queries.claimNext, List.length_take]
  exact min_le_left _ _

/-- A delivery of a claim comes from one of the rows it took. -/
theorem exists_of_mem_claim (h : l.claim worker now queueName limit locked = some (deliveries, l'))
    {d : Delivery} (hd : d ∈ deliveries) :
    ∃ r, r ∈ Queries.claimNext now queueName limit locked l.db.queue ∧
      Message.ofJson? r.message = some d.message ∧ d.messageId = r.messageId ∧
      d.worker = worker ∧ d.claim = l.nextClaim ∧ d.generation = l.generation r.messageId := by
  obtain ⟨hds, -⟩ := of_claim h
  obtain ⟨r', hr', hdeliver⟩ := List.exists_of_mem_mapM hds hd
  obtain ⟨r, hr, rfl⟩ := List.mem_map.mp hr'
  rw [deliver, Option.map_eq_some_iff] at hdeliver
  obtain ⟨m, hm, rfl⟩ := hdeliver
  exact ⟨r, hr, hm, rfl, rfl, rfl, rfl⟩

/-- Every row a claim takes is delivered. -/
theorem exists_mem_of_claim (h : l.claim worker now queueName limit locked = some (deliveries, l'))
    {id : Uuid} (hid : id ∈ claimedIds now queueName limit locked l.db.queue) :
    ∃ d ∈ deliveries, d.messageId = id := by
  obtain ⟨hds, -⟩ := of_claim h
  obtain ⟨r, hr, rfl⟩ := List.mem_map.mp hid
  obtain ⟨d, hd, hdeliver⟩ := List.exists_mem_of_mapM hds
    (List.mem_map_of_mem (f := Queries.claimSet now worker) hr)
  rw [deliver, Option.map_eq_some_iff] at hdeliver
  obtain ⟨m, -, rfl⟩ := hdeliver
  exact ⟨_, hd, rfl⟩

/-- **On a well-formed ledger a claim decodes every payload**, so it does not
raise half-way through its batch. -/
theorem Wf.exists_claim (hwf : l.Wf) (worker : Uuid) (now : Time) (queueName : String)
    (limit : ℕ) (locked : List Uuid) :
    ∃ p, l.claim worker now queueName limit locked = some p := by
  have hdeliver : ∀ r ∈ (Queries.claim now queueName limit worker locked l.db.queue).1,
      ∃ d, l.deliver worker r = some d := by
    intro r' hr'
    obtain ⟨r, hr, rfl⟩ := List.mem_map.mp hr'
    obtain ⟨m, hm, -, -⟩ := hwf.decodes r.messageId r (Table.find?_key (Queries.mem_claimNext hr).1)
    have hmessage : (Queries.claimSet now worker r).message = r.message := rfl
    rw [deliver, hmessage, hm]
    exact ⟨_, rfl⟩
  obtain ⟨ds, hds⟩ := List.exists_mapM hdeliver
  rw [claim, hds]
  exact ⟨_, rfl⟩

theorem wf_claim (hwf : l.Wf)
    (h : l.claim worker now queueName limit locked = some (deliveries, l')) : l'.Wf := by
  obtain ⟨-, rfl⟩ := of_claim h
  refine ⟨hwf.decodes.updateWhere fun r hr _ => hr, fun id => ?_⟩
  show (if _ then l.nextClaim else l.lastClaim id) < l.nextClaim + 1
  split_ifs
  · exact Nat.lt_succ_self _
  · exact (hwf.lastClaim_lt id).trans (Nat.lt_succ_self _)

end Ledger

/-- **A claim ends no claim**: what is known of the deliveries already held
stays so, since the rows it takes are `queued`. -/
theorem HeldOk.claim {d : Delivery} (hok : HeldOk l d)
    (h : l.claim worker now queueName limit locked = some (deliveries, l')) : HeldOk l' d := by
  obtain ⟨-, rfl⟩ := Ledger.of_claim h
  refine ⟨hok.key, hok.claim_lt.trans (Nat.lt_succ_self _), hok.generation_le, ?_⟩
  rintro ⟨⟨r', hr', hconsumed⟩, hclaim⟩
  rcases find?_claimUpdate worker now queueName limit locked l.db.queue d.messageId with
    ⟨hid, -⟩ | ⟨hid, hsame⟩
  · -- Claimed just now: its last claim is a newer one than the delivery's.
    simp only [hid, if_true] at hclaim
    exact absurd hclaim hok.claim_lt.ne'
  · simp only [hid, if_false] at hclaim
    have hrow : l.row? d.messageId = some r' := hsame.symm.trans hr'
    obtain ⟨r, hr, hrest⟩ := hok.current ⟨⟨r', hrow, hconsumed⟩, hclaim⟩
    exact ⟨r, hsame.trans hr, hrest⟩

/-- **The deliveries of a claim agree with the rows it took**: on the queue, the
owner and the generation. -/
theorem heldOk_of_claim {d : Delivery} (hwf : l.Wf)
    (h : l.claim worker now queueName limit locked = some (deliveries, l')) (hd : d ∈ deliveries) :
    HeldOk l' d := by
  obtain ⟨r, hr, hm, hid, hworker, hclaim, hgen⟩ := Ledger.exists_of_mem_claim h hd
  obtain ⟨-, rfl⟩ := Ledger.of_claim h
  have hfind : l.db.queue.find? r.messageId = some r := Table.find?_key (Queries.mem_claimNext hr).1
  obtain ⟨m, hdecode, hkey, hqueue⟩ := hwf.decodes _ _ hfind
  rw [hm, Option.some_inj] at hdecode
  subst hdecode
  refine ⟨by rw [hkey, hid], by rw [hclaim]; exact Nat.lt_succ_self _,
    by rw [hgen, hid]; exact le_rfl, fun _ => ?_⟩
  have hin : r.messageId ∈ claimedIds now queueName limit locked l.db.queue :=
    List.mem_map_of_mem hr
  rcases find?_claimUpdate worker now queueName limit locked l.db.queue r.messageId with
    ⟨-, r₀, hr₀, -, hset⟩ | ⟨hnot, -⟩
  · rw [hfind, Option.some_inj] at hr₀
    subst hr₀
    refine ⟨Queries.claimSet now worker r, ?_, rfl, hqueue.symm, ?_, ?_⟩
    · rw [hid]
      exact hset
    · rw [hworker]
      rfl
    · rw [hgen, hid]
      rfl
  · exact absurd hin hnot

end Claim

end DramatiqPostgres
