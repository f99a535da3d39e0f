import DramatiqPostgres.Utils.Leases
import Mathlib.Data.Fintype.Sum
import Mathlib.Data.Fintype.BigOperators

/-!
# How large the pool has to be

A worker process shares one pool, of `maxconn` connections (16 unless the URL
says otherwise).  Each consumer keeps a connection from its first `__next__`
until it is closed, and so does the notifier; dramatiq makes two consumers for a
queue that is declared, one of them for its delay queue.  The calls of everybody
else (enqueue, ack, nack, a stored result, a read of one) take a connection and
put it back.

The pool's law is that of `SharedPool.system`, whose users are the slots of the
process: the attributes that keep connections, and the calls under way.  What a
user may do is what the programs of `Activity` do: `Behaves k past` says that
some sequence of activities of one slot, answered in some way that the drivers
allow, has passed `past` with the pool, and perhaps more.  A thread that makes a
call while its consumer keeps a connection has two slots, and neither touches
the other's connection (`oneAtATime`).

`fair_programs` is what the programs contribute.  A call that holds a connection
comes to its `putconn`, since a sequence of calls leads an empty slot to an
empty slot (`keepsSettled_session`); a `transaction` that lost its connection
would break exactly this.  And every user may begin by taking a connection,
which the programs show by doing it.

So a call that waits for a connection can always be served if and only if
`maxconn` exceeds the number of consumers, and of the notifier if there is one.
Below that the process can come to a stop in which its consumers hold all
connections, no ack or nack gets one, and none is given back before a connection
fails or a consumer is closed.
-/

namespace DramatiqPostgres

namespace PoolShare

open SharedPool RetryPg

/-! ## What the programs do with the pool -/

/-- Activities of the slot of an attribute, or of calls, have passed these kinds
of events with the pool, in some environment. -/
def Behaves (k : Option Keeper) (past : List Kind) : Prop :=
  ∃ env, Drivers env ∧ ∃ activities : List Activity,
    (∀ activity ∈ activities, activity.keeper = k) ∧
      past <+: (session env activities World.initial).events.map Event.kind

/-- **A call that holds a connection puts it back.** -/
theorem behaves_put {past : List Kind} (h : Behaves none past) (hfull : full past = true) :
    Behaves none (past ++ [.put]) := by
  obtain ⟨env, henv, activities, hcalls, hprefix⟩ := h
  have hkeeps := keepsSettled_session henv hcalls World.initial settled_initial
  obtain ⟨events, hevents, hafter⟩ := hkeeps.passed
  have hevents : (session env activities World.initial).events = events := hevents
  refine ⟨env, henv, activities, hcalls, ?_⟩
  rw [hevents] at hprefix ⊢
  obtain ⟨before, ⟨rest, rfl⟩, rfl⟩ := List.prefix_map_iff.mp hprefix
  -- The slot of a call is empty in the end, so its events go on where it is full.
  obtain ⟨conn, rest', rfl⟩ := exists_put_of_after hafter hfull
  refine ⟨rest'.map Event.kind, ?_⟩
  rw [List.map_append, List.append_assoc]
  rfl

/-- An environment in which every call is answered. -/
def calmEnvironment : Environment := fun _ n =>
  { others := []
    now := n
    millis := n
    raised := none
    tookEffect := true }

theorem drivers_calmEnvironment : Drivers calmEnvironment where
  consumeInput := fun _ _ he => by cases he
  close := fun _ => rfl

/-- An activity that begins by taking a connection, for each slot. -/
def firstActivity : Option Keeper → Activity
  | some (.consumer index) => .next index false none false
  | some .notifier => .listenOnce false []
  | none => .store

/-- **Every slot may begin by taking a connection.** -/
theorem behaves_given (k : Option Keeper) : Behaves k [.given] := by
  have htakes : (firstActivity k).keeper = k ∧ [.given] <+:
      (session calmEnvironment [firstActivity k] World.initial).events.map Event.kind := by
    rcases k with _ | index | _
    · exact ⟨rfl, [.put], rfl⟩
    · exact ⟨rfl, [], rfl⟩
    · exact ⟨rfl, [], rfl⟩
  refine ⟨calmEnvironment, drivers_calmEnvironment, [firstActivity k], fun activity h => ?_,
    htakes.2⟩
  rw [List.mem_singleton.mp h]
  exact htakes.1

/-! ## The users of the pool -/

/-- What asks the pool of a process for connections: its consumers, its notifier
where it listens, and the calls. -/
abbrev User (consumers : ℕ) (listen : Bool) (calls : ℕ) :=
  (Fin consumers ⊕ Fin listen.toNat) ⊕ Fin calls

variable {consumers calls : ℕ} {listen : Bool}

/-- The attribute that keeps the connection of a user, as in
`Activity.keeper`. -/
def keeper : User consumers listen calls → Option Keeper
  | .inl (.inl index) => some (.consumer index)
  | .inl (.inr _) => some .notifier
  | .inr _ => none

/-- The users that keep what they are given. -/
def keeps (user : User consumers listen calls) : Bool := (keeper user).isSome

/-- What the users may do is what the activities of their slots do. -/
def programs : Programs (User consumers listen calls) := fun user => Behaves (keeper user)

/-- **The programs are fair users of the pool.** -/
theorem fair_programs :
    Programs.Fair (programs : Programs (User consumers listen calls)) keeps where
  finishes := by
    intro user past hkeeps hpast hfull
    have hcall : keeper user = none := by
      rwa [keeps, Option.isSome_eq_false_iff, Option.isNone_iff_eq_none] at hkeeps
    unfold programs at hpast ⊢
    rw [hcall] at hpast ⊢
    exact behaves_put hpast hfull
  starts := fun user => behaves_given (keeper user)

theorem card_keepers :
    (Finset.univ.filter fun k : User consumers listen calls => keeps k = true).card =
      consumers + listen.toNat := by
  have hmap : (Finset.univ.filter fun k : User consumers listen calls => keeps k = true) =
      Finset.univ.map Function.Embedding.inl := by
    ext k
    rw [Finset.mem_filter, Finset.mem_map]
    rcases k with (k | k) | k
    · exact iff_of_true ⟨Finset.mem_univ _, rfl⟩ ⟨.inl k, Finset.mem_univ _, rfl⟩
    · exact iff_of_true ⟨Finset.mem_univ _, rfl⟩ ⟨.inr k, Finset.mem_univ _, rfl⟩
    · exact iff_of_false (fun h => by cases h.2) fun ⟨_, _, h⟩ => by cases h
  rw [hmap, Finset.card_map, Finset.card_univ, Fintype.card_sum, Fintype.card_fin, Fintype.card_fin]

theorem card_keepersBesides (i : User consumers listen calls) :
    (keepersBesides keeps i).card = consumers + listen.toNat - (keeps i).toNat := by
  have hfilter : keepersBesides keeps i =
      (Finset.univ.filter fun k : User consumers listen calls => keeps k = true).erase i := by
    ext k
    simp [keepersBesides, and_comm]
  rw [hfilter]
  cases hi : keeps i with
  | true =>
      rw [Finset.card_erase_of_mem (by simp [hi]), card_keepers]
      rfl
  | false =>
      rw [Finset.erase_eq_of_notMem (by simp [hi]), card_keepers]
      rfl

/-- **How large the pool has to be**: a call can always be served where there
are more connections than consumers and notifier, and one of these where there
are at least as many. -/
theorem serves_iff_maxconn (consumers calls : ℕ) (listen : Bool) (maxconn : ℕ) :
    (∀ call, Serves programs maxconn keeps (.inr call : User consumers listen calls) ↔
      consumers + listen.toNat < maxconn) ∧
    ∀ keeper, Serves programs maxconn keeps (.inl keeper : User consumers listen calls) ↔
      consumers + listen.toNat ≤ maxconn := by
  constructor
  · intro call
    rw [serves_iff fair_programs, card_keepersBesides]
    rfl
  · intro keeper
    rw [serves_iff fair_programs, card_keepersBesides]
    have hkeeps : keeps (.inl keeper : User consumers listen calls) = true := by
      cases keeper <;> rfl
    rw [hkeeps]
    show consumers + listen.toNat - 1 < maxconn ↔ _
    have hpos : 0 < consumers + listen.toNat := by
      rcases keeper with k | k
      · exact Nat.add_pos_left k.pos _
      · exact Nat.add_pos_right _ k.pos
    omega

end PoolShare

end DramatiqPostgres
