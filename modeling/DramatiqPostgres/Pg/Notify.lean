import DramatiqPostgres.Pg.Json

/-!
# Errors and notifications

What a statement can report besides its rows: an error, which undoes all of it,
or the notifications its transaction sends when it commits.

`pgNotify` has PostgreSQL's limits: a channel is a non-empty name of fewer than
64 bytes, and a payload has fewer than 8000 bytes.  LISTEN takes an identifier
instead, and cuts a longer one.

So a channel that is too long is no error for the one side and a different name
for the other.  Who listens to such a channel hears nothing of it: whoever
notifies it raises, and the notifications of the shorter name are delivered
instead.  Both functions are here so that one law can be about the two.

Times are integers, in microseconds, as PostgreSQL stores them; a statement gets
its `NOW()` as a parameter.
-/

namespace Pg

/-- Points in time and intervals, in microseconds. -/
abbrev Time := ℤ

/-- The errors the statements below can raise. -/
inductive PgError where
  /-- A text or `jsonb` value that cannot be stored. -/
  | untranslatable
  /-- A parameter that is not a `uuid`. -/
  | invalidUuid
  /-- `pg_notify`: the channel is empty. -/
  | channelEmpty
  /-- `pg_notify`: the channel has 64 bytes or more. -/
  | channelTooLong
  /-- `pg_notify`: the payload has 8000 bytes or more. -/
  | payloadTooLong
  deriving DecidableEq, Repr

/-- A text a statement computes: the empty one, or the output form of a `jsonb`
value. -/
inductive PgText where
  | empty
  | json (doc : Json)

/-- `octet_length`. -/
def PgText.octetLength : PgText → ℕ
  | .empty => 0
  | .json doc => doc.octetLength

/-- The first characters of a name, within a number of bytes. -/
def clip : ℕ → List Char → List Char
  | _, [] => []
  | n, c :: cs => if c.utf8Size ≤ n then c :: clip (n - c.utf8Size) cs else []

/-- An identifier as the server keeps it: a name of 64 bytes or more is cut, at
the last character that fits. -/
def identifier (name : String) : String :=
  if name.utf8ByteSize < 64 then name else String.ofList (clip 63 name.toList)

theorem utf8ByteSize_clip {n : ℕ} {cs : List Char} (h : n < (String.ofList cs).utf8ByteSize) :
    n < (String.ofList (clip n cs)).utf8ByteSize + 4 := by
  induction cs generalizing n with
  | nil => simp at h
  | cons c cs ih =>
      rw [String.ofList_cons, String.utf8ByteSize_append, String.utf8ByteSize_singleton] at h
      rw [clip]
      split_ifs with hc
      · have hrest := ih (n := n - c.utf8Size) (by omega)
        rw [String.ofList_cons, String.utf8ByteSize_append, String.utf8ByteSize_singleton]
        omega
      · have hsize := c.utf8Size_le_four
        omega

/-- A name that is cut keeps sixty bytes. -/
theorem identifier_eq_or (name : String) :
    identifier name = name ∨ 60 ≤ (identifier name).utf8ByteSize := by
  unfold identifier
  split_ifs with hshort
  · exact Or.inl rfl
  · have hlong : 63 < (String.ofList name.toList).utf8ByteSize := by
      rw [String.ofList_toList]
      omega
    have hclip := utf8ByteSize_clip hlong
    exact Or.inr (by omega)

/-- A notification, as delivered to the sessions that listen to its channel. -/
structure Notification where
  channel : String
  payload : PgText

/-- `pg_notify`. -/
def pgNotify (channel : String) (payload : PgText) : Except PgError Notification :=
  if channel = "" then .error .channelEmpty
  else if 64 ≤ channel.utf8ByteSize then .error .channelTooLong
  else if 8000 ≤ payload.octetLength then .error .payloadTooLong
  else .ok ⟨channel, payload⟩

/-- A notification within the limits is sent. -/
theorem pgNotify_ok {channel : String} {payload : PgText} (hne : channel ≠ "")
    (hchannel : channel.utf8ByteSize < 64) (hpayload : payload.octetLength < 8000) :
    pgNotify channel payload = .ok ⟨channel, payload⟩ := by
  rw [pgNotify, if_neg hne, if_neg (by omega), if_neg (by omega)]

/-- A channel of 64 bytes or more raises whatever the payload. -/
theorem pgNotify_channelTooLong {channel : String} {payload : PgText}
    (hchannel : 64 ≤ channel.utf8ByteSize) : pgNotify channel payload = .error .channelTooLong := by
  have hne : channel ≠ "" := by
    rintro rfl
    simp at hchannel
  rw [pgNotify, if_neg hne, if_pos hchannel]

end Pg
