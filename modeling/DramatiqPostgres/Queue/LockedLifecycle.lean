import DramatiqPostgres.Queue.ExclusiveClaim
import DramatiqPostgres.Queue.Lifecycle

/-!
# The life of a message under row locks

The statements do not run one after the other: a REAP or a PURGE picks its rows
from a snapshot, waits for those that are locked, and writes at its commit the
ones that still meet its condition, while other transactions commit in between.
So the rows it writes need not be those it would find at any single moment.

Seen through the diagram that makes no difference.  A commit moves every message
along an arrow of its own statement, or leaves it where it is, and no other step
moves anything (`follows_lockSystem`).  The balance of a message is then that of
`Queue/Lifecycle.lean`, for every interleaving.

### Why it makes none

An arrow is about one row and the statement that writes it.  What a commit
writes it writes to rows that meet its condition in the version that was locked,
and that version is the committed one at that moment (`RowLocks.Admissible`); so
the arrow begins where the message is.  That the rows of one statement were
picked at different times matters only for laws about several rows at once, such
as the order of a claim, and these are not about the diagram.
-/

namespace DramatiqPostgres

namespace Lifecycle

open Pg RowLocks

/-- The kind of a statement. -/
def lockEvent : QueueTx → Event
  | .claim .. => .claim
  | .enqueue .. => .enqueue
  | .ack .. => .ack
  | .nack .. => .nack
  | .requeue .. => .putBack
  | .reap .. => .putBack
  | .recover .. => .putBack
  | .purge .. => .purge
  | .flush => .flush
  | .deleteByPk _ => .delete
  | .discard _ => .discard

/-- The message a statement enqueues. -/
def enqueued? : QueueTx → Option Uuid
  | .enqueue _ _ messageId _ _ _ => some messageId
  | _ => none

/-- Where a message is. -/
def placeIn (table : Table Row Row.messageId) (id : Uuid) : Option JobState :=
  (table.find? id).map Row.state

/-- The committed table; only commits are events. -/
def lockView : View (State QueueTx Row.messageId) (Action QueueTx Uuid) where
  place := fun s => placeIn s.committed
  event? := fun s a =>
    match a with
    | .commit t => (s.txs t).map fun tx => lockEvent tx.stmt
    | _ => none
  enqueues := fun s a id =>
    match a with
    | .commit t => (s.txs t).any fun tx => enqueued? tx.stmt = some id
    | _ => false

section Step

variable {table : Table Row Row.messageId} {taken : List Row}

/-- A scan moves the rows it took, from where their condition has them. -/
theorem placeIn_scan {e : Event} {cond : Row → Bool} {before : Row → Row → Bool}
    {limit : Option ℕ} {skipLocked : Bool} {write : Row → Option Row}
    {hwrite : ∀ r r', write r = some r' → r'.messageId = r.messageId}
    (hadmissible : Admissible (.scan cond before limit skipLocked write hwrite) taken table)
    (hmove : ∀ r, cond r = true → Move e (some r.state) ((write r).map Row.state)) (id : Uuid) :
    placeIn (effect (.scan cond before limit skipLocked write hwrite) taken table) id
        = placeIn table id ∨
      Move e (placeIn table id)
        (placeIn (effect (.scan cond before limit skipLocked write hwrite) taken table) id) := by
  unfold placeIn
  rw [find?_effect_scan hadmissible]
  by_cases hid : id ∈ taken.map Row.messageId
  · obtain ⟨r, hr, rfl⟩ := List.mem_map.mp hid
    obtain ⟨hfind, hcond⟩ := hadmissible.1 r hr
    rw [hfind, Option.bind_some, if_pos hid]
    exact Or.inr (hmove r hcond)
  · left
    cases table.find? id with
    | none => rfl
    | some r => rw [Option.bind_some, if_neg hid]

/-- The place of a message after an upsert. -/
theorem placeIn_upsert {row : Row} {set : Row → Row}
    {hset : ∀ r, (set r).messageId = r.messageId} (hrow : row.state = .queued)
    (hstate : ∀ r, (set r).state = .queued) (id : Uuid) :
    placeIn (effect (.upsert row set hset) taken table) id
      = if id = row.messageId then some .queued else placeIn table id := by
  unfold placeIn
  rw [effect, Table.find?_upsert]
  split_ifs with hid
  · cases table.find? id with
    | none => exact congrArg some hrow
    | some r => exact congrArg some (hstate r)
  · rfl

/-- **Step lemma.**  What a statement does at its commit, it does along an arrow
of its own. -/
theorem placeIn_effect {stmt : QueueTx} (hadmissible : Admissible stmt.plan taken table)
    (id : Uuid) :
    placeIn (effect stmt.plan taken table) id = placeIn table id ∨
      Move (lockEvent stmt) (placeIn table id) (placeIn (effect stmt.plan taken table) id) := by
  cases stmt with
  | claim => exact placeIn_scan hadmissible (fun _ h => move_of_claimWhere h) id
  | ack => exact placeIn_scan hadmissible (fun _ h => move_of_ackWhere h) id
  | nack => exact placeIn_scan hadmissible (fun _ h => move_of_nackWhere h) id
  | requeue => exact placeIn_scan hadmissible (fun _ h => move_of_requeueWhere h) id
  | reap => exact placeIn_scan hadmissible (fun _ h => move_of_reapWhere h) id
  | recover => exact placeIn_scan hadmissible (fun _ h => move_of_recoverWhere h) id
  | purge => exact placeIn_scan hadmissible (fun _ h => move_of_purgeWhere h) id
  | flush => exact placeIn_scan hadmissible (fun _ h => move_of_flushWhere h) id
  | deleteByPk => exact placeIn_scan hadmissible (fun r _ => .deleted r.state) id
  | discard => exact placeIn_scan hadmissible (fun _ h => move_of_discardWhere h) id
  | enqueue now queueName messageId message delay position =>
      have hplace : placeIn (effect (QueueTx.enqueue now queueName messageId message delay
          position).plan taken table) id
            = if id = messageId then some .queued else placeIn table id :=
        placeIn_upsert rfl (fun _ => rfl) id
      rw [hplace]
      split_ifs with hid
      · rcases placeIn table id with _ | state
        · exact Or.inr .enqueued
        · cases state with
          | queued => exact Or.inl rfl
          | consumed => exact Or.inr .superseded
          | rejected => exact Or.inr .revived
      · exact Or.inl rfl

/-- An enqueue moves the message it enqueues. -/
theorem enqueued?_of_move {stmt : QueueTx} (hstmt : lockEvent stmt = .enqueue) {id : Uuid}
    (hne : placeIn (effect stmt.plan taken table) id ≠ placeIn table id) :
    enqueued? stmt = some id := by
  cases stmt with
  | enqueue now queueName messageId message delay position =>
      have hplace : placeIn (effect (QueueTx.enqueue now queueName messageId message delay
          position).plan taken table) id
            = if id = messageId then some .queued else placeIn table id :=
        placeIn_upsert rfl (fun _ => rfl) id
      rw [hplace] at hne
      split_ifs at hne with hid
      · exact congrArg some hid.symm
      · exact absurd rfl hne
  | _ => cases hstmt

end Step

/-- **Under row locks, too, the statements follow the diagram.** -/
theorem follows_lockSystem (table : Table Row Row.messageId) :
    Follows (lockSystem table) lockView := by
  constructor
  · intro s a t hreach hstep id
    rcases committed_cases hstep with ⟨hsame, -⟩ | ⟨k, tx, rfl, htx, hdone, heffect⟩
    · exact Or.inl (congrArg (placeIn · id) hsame)
    · have hadmissible := ((ok_of_reachable hreach).txs k tx htx).admissible hdone
      simp only [lockView, heffect, htx, Option.map_some, Option.some_inj, exists_eq_left']
      exact placeIn_effect hadmissible id
  · intro s a t hreach hstep hevent id hne
    rcases committed_cases hstep with ⟨hsame, -⟩ | ⟨k, tx, rfl, htx, hdone, heffect⟩
    · exact absurd (congrArg (placeIn · id) hsame) hne
    · simp only [lockView, heffect, htx, Option.map_some, Option.some_inj] at hevent hne
      simp only [lockView, htx, Option.any_some, decide_eq_true_eq]
      exact enqueued?_of_move hevent hne

/-- **Every message is accounted for in every interleaving** of the statements'
steps, and no step moves one but along an arrow.  There is no hypothesis on the
run, and the initial table is empty. -/
theorem locked_accounted :
    Follows (lockSystem Table.empty) lockView ∧
      ∀ (as : List (Action QueueTx Uuid)) (id : Uuid),
        Accounted (lockSystem Table.empty) lockView as id :=
  ⟨follows_lockSystem Table.empty, (follows_lockSystem Table.empty).balances fun _ => rfl⟩

end Lifecycle

end DramatiqPostgres
