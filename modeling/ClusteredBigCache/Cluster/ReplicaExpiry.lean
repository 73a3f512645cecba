import ClusteredBigCache.Cluster.Dispatch
import ClusteredBigCache.Ttl.Punctual

/-!
# What a replica makes of an expiry time

A `PUT` carries the second `E` at which the value expires at the sender.  `handlePut` turns it into
a duration, `time.Unix(E, 0).Sub(time.Now())`, and `set` turns the duration back into a second: it
adds the seconds of the duration, rounded down, to the clock, rounded down.  Both roundings together
lose a second, unless the message is handled exactly at the beginning of a second
(`replica_expiry_iff`).  So a replica forgets a value one second too early
(`replica_expires_early`), and a value that expires in second 1 of the epoch is stored not to expire
at all.
-/

set_option autoImplicit false

namespace ClusteredBigCache

/-! ## The time that is left -/

/-- `time.Unix(int64(expiry), 0).Sub(now)`, for seconds that a `time.Time` can hold: the difference
in nanoseconds, cut off where a duration ends. -/
def untilExpiry (now : ℕ) (expiry : UInt64) : Int64 :=
  Int64.ofInt (max Int64.minValue.toInt
    (min Int64.maxValue.toInt (expiry.toInt64.toInt * 10 ^ 9 - now)))

/-- The seconds that a `time.Time` can hold: it counts from the year 1 in a signed integer. -/
def timeLimit : ℕ := 2 ^ 63 - 62135596800

theorem toInt_untilExpiry {now : ℕ} {expiry : UInt64} (hexpiry : expiry.toNat < timeLimit)
    (hbefore : now < expiry.toNat * 10 ^ 9)
    (hahead : expiry.toNat * 10 ^ 9 ≤ now + 9223372036 * 10 ^ 9) :
    (untilExpiry now expiry).toInt = expiry.toNat * 10 ^ 9 - now := by
  have hsigned : expiry.toInt64.toInt = expiry.toNat := by
    have h : expiry.toInt64.toInt = (expiry.toNat : ℤ).bmod (2 ^ 64) :=
      BitVec.toInt_eq_toNat_bmod expiry.toBitVec
    rw [timeLimit] at hexpiry
    rw [h]
    exact Int.bmod_eq_of_le (by omega) (by omega)
  have hmin : Int64.minValue.toInt = -2 ^ 63 := rfl
  have hmax : Int64.maxValue.toInt = 2 ^ 63 - 1 := rfl
  rw [untilExpiry, hsigned, hmin, hmax, min_eq_right (by omega), max_eq_right (by omega)]
  exact Int64.toInt_ofInt_of_le (by omega) (by omega)

/-- **The second that comes back**: the one that was sent if the clock shows a whole second, and the
one before otherwise. -/
theorem toNat_expiryTimestamp_untilExpiry {now : ℕ} {expiry : UInt64}
    (hexpiry : expiry.toNat < timeLimit) (hbefore : now < expiry.toNat * 10 ^ 9)
    (hahead : expiry.toNat * 10 ^ 9 ≤ now + 9223372036 * 10 ^ 9) :
    (CacheShard.expiryTimestamp now (untilExpiry now expiry)).toNat =
      if now % 10 ^ 9 = 0 then expiry.toNat else expiry.toNat - 1 := by
  have hint := toInt_untilExpiry hexpiry hbefore hahead
  have hzero : Int64.toInt 0 = 0 := rfl
  have hnow : now / 10 ^ 9 < 2 ^ 63 := by
    rw [timeLimit] at hexpiry
    omega
  have hpos : 0 ≤ untilExpiry now expiry := by
    rw [Int64.le_iff_toInt_le, hint, hzero]
    omega
  have hne : untilExpiry now expiry ≠ 0 := by
    intro h0
    rw [h0, hzero] at hint
    omega
  rw [CacheShard.toNat_expiryTimestamp hnow hpos hne, hint]
  split_ifs <;> omega

/-! ## The entry that is stored -/

namespace BigCache

variable {T M : Type} {c : BigCache T M} {m : Table}

/-- The shard of the key has a block with the key, the value and the timestamp. -/
def HoldsUntil (c : BigCache T M) (key : Key) (value : Bytes) (timestamp : UInt64) : Prop :=
  ∃ shard i, c.getShard (c.hash key) = .ok shard ∧
    (i, Entry.data (c.hash key) ⟨key, value, timestamp⟩) ∈ shard.entries.live

variable [OrderedMap T ℤ Ptr] [OrderedMap M UInt64 (Finset Key)]

/-- **`Set` leaves one block for the hash of its key**, with the timestamp that `set` computes.  The
position of the block need not fit thirty-two bits. -/
theorem Rep.set_holdsUntil (hr : c.Rep m) (key : Key) (value : Bytes) (duration : Int64) (now : ℕ) :
    ∃ c' r, c.set key value duration now = .ok (c', r) ∧
      ∀ t, c'.HoldsUntil key value t ↔ t = CacheShard.expiryTimestamp now duration := by
  obtain ⟨s, hget, hs⟩ := getShard_of_mask hr.mask (c.hash key)
  obtain ⟨hrep, hmax⟩ := hr.shard _ s hs
  obtain ⟨s', r, hset, ho⟩ := hrep.set_cases key value duration now (h := c.hash key)
  have hunlocked := (ho.unlocked hrep hmax.le).1
  refine ⟨c.putShard (c.hash key) s', r, set_of_set hget hset, ?_⟩
  intro t
  have hget' : (c.putShard (c.hash key) s').getShard (c.hash key) = .ok s' :=
    getShard_putShard hget s'
  cases ho with
  | full hv ho => cases hunlocked
  | @stored q₁ q₂ i buffer hv ho =>
    constructor
    · rintro ⟨shard, j, hshard, hlive⟩
      obtain rfl := Except.ok.inj (hget'.symm.trans hshard)
      change (j, _) ∈ q₂.live at hlive
      rw [ho.live_of_ok, List.mem_cons] at hlive
      rcases hlive with heq | hlive
      · exact Entry.timestamp_eq_of_data_eq (congrArg Prod.snd heq)
      · -- the block that the hash had before was given back
        exact absurd hlive ((hv.stores hrep).not_live_of_none (Function.update_self _ _ _) _ _)
    · rintro rfl
      refine ⟨_, i, hget', ?_⟩
      change (i, _) ∈ q₂.live
      rw [ho.live_of_ok]
      exact List.mem_cons_self

end BigCache

namespace Server

variable {T M : Type} [OrderedMap T ℤ Ptr] [OrderedMap M UInt64 (Finset Key)]

/-- What `handlePut` stores of a message with an expiry time. -/
theorem handlePut_holdsUntil {a : Server T M} {m : Table} (hrep : a.cache.Rep m)
    {msg : NodeWireMessage} {pm : PutMessage} (hmsg : PutMessage.deSerialize msg = .ok pm)
    (hexpiry : pm.expiry ≠ 0) (now : ℕ) :
    ∃ a', a.handlePut (untilExpiry now) now msg = .ok a' ∧
      ∀ t, a'.cache.HoldsUntil pm.key pm.data t ↔
        t = CacheShard.expiryTimestamp now (untilExpiry now pm.expiry) := by
  obtain ⟨c', r, hset, hholds⟩ :=
    hrep.set_holdsUntil pm.key pm.data (untilExpiry now pm.expiry) now
  refine ⟨{ a with cache := c' }, ?_, hholds⟩
  rw [handlePut, BigCache.handlePut, hmsg, Go.ok_bind]
  simp only [if_neg hexpiry, hset]
  rfl

/-- **When a replica keeps the expiry time of the sender.**  A `PUT` with an expiry time is handled
before that time, which is not further away than a duration is long.  The entry that is stored has
this time as its timestamp if and only if the clock shows a whole second. -/
theorem replica_expiry_iff {shardSize : Int64} {ls : List BigCache.Op} {a : Server T M}
    (hr : (BigCache.ofNode T M shardSize).Run ls a.cache) {msg : NodeWireMessage} {pm : PutMessage}
    (hmsg : PutMessage.deSerialize msg = .ok pm) (hne : pm.expiry ≠ 0)
    (hlimit : pm.expiry.toNat < timeLimit) {now : ℕ} (hbefore : now < pm.expiry.toNat * 10 ^ 9)
    (hahead : pm.expiry.toNat * 10 ^ 9 ≤ now + 9223372036 * 10 ^ 9) :
    ∃ a', a.handlePut (untilExpiry now) now msg = .ok a' ∧
      (a'.cache.HoldsUntil pm.key pm.data pm.expiry ↔ now % 10 ^ 9 = 0) := by
  obtain ⟨a', hput, hholds⟩ := handlePut_holdsUntil (BigCache.ofNode_rep hr).1 hmsg hne now
  refine ⟨a', hput, ?_⟩
  have htoNat := toNat_expiryTimestamp_untilExpiry hlimit hbefore hahead
  rw [hholds, ← UInt64.toNat_inj, htoNat]
  split_ifs with hwhole
  · exact iff_of_true rfl hwhole
  · exact iff_of_false (by omega) hwhole

/-- A new node keeps the expiry time of a `PUT` that it handles at the beginning of a second. -/
theorem replica_expiry_whole_second :
    ∃ (c : BigCache (SortedAssoc ℤ Ptr) (SortedAssoc UInt64 (Finset Key)))
      (a' : Server (SortedAssoc ℤ Ptr) (SortedAssoc UInt64 (Finset Key))),
      BigCache.newBigCache (nodeConfig 0) none 0 = .ok (.ok c) ∧
      (up c).handlePut (untilExpiry 1700000000000000000) 1700000000000000000
        (PutMessage.serialize ⟨msgPUT, [75], 1700000010, [1]⟩) = .ok a' ∧
      a'.cache.HoldsUntil [75] [1] 1700000010 := by
  obtain ⟨c, hc⟩ := BigCache.exists_newBigCache (T := SortedAssoc ℤ Ptr)
    (M := SortedAssoc UInt64 (Finset Key))
  have hr : (BigCache.ofNode _ _ 0).Run [] (up c).cache := .start ⟨0, hc⟩
  obtain ⟨a', hput, hholds⟩ := replica_expiry_iff hr
    (PutMessage.deSerialize_serialize ⟨msgPUT, [75], 1700000010, [1]⟩ (by decide)) (by decide)
    (show (1700000010 : UInt64).toNat < timeLimit by decide)
    (show 1700000000000000000 < (1700000010 : UInt64).toNat * 10 ^ 9 by decide) (by decide)
  exact ⟨c, a', hc, hput, hholds.mpr (by decide)⟩

/-- **A replica forgets too early, or never.**  A new node handles a `PUT` half a second after the
beginning of a second.  A value that expires at the sender in second 1700000010 expires here in
second 1700000009; a value that expires in second 1 is stored with the timestamp 0, which means that
it does not expire. -/
theorem replica_expires_early :
    ∃ c : BigCache (SortedAssoc ℤ Ptr) (SortedAssoc UInt64 (Finset Key)),
      BigCache.newBigCache (nodeConfig 0) none 0 = .ok (.ok c) ∧
      (∃ a', (up c).handlePut (untilExpiry 1700000000500000000) 1700000000500000000
          (PutMessage.serialize ⟨msgPUT, [75], 1700000010, [1]⟩) = .ok a' ∧
        a'.cache.HoldsUntil [75] [1] 1700000009 ∧ ¬ a'.cache.HoldsUntil [75] [1] 1700000010) ∧
      ∃ a', (up c).handlePut (untilExpiry 500000000) 500000000
          (PutMessage.serialize ⟨msgPUT, [75], 1, [1]⟩) = .ok a' ∧
        a'.cache.HoldsUntil [75] [1] NO_EXPIRY := by
  obtain ⟨c, hc⟩ := BigCache.exists_newBigCache (T := SortedAssoc ℤ Ptr)
    (M := SortedAssoc UInt64 (Finset Key))
  have hr : (BigCache.ofNode _ _ 0).Run [] (up c).cache := .start ⟨0, hc⟩
  have hrep := (BigCache.ofNode_rep hr).1
  refine ⟨c, hc, ?_, ?_⟩
  · obtain ⟨a', hput, hholds⟩ := handlePut_holdsUntil hrep
      (PutMessage.deSerialize_serialize ⟨msgPUT, [75], 1700000010, [1]⟩ (by decide)) (by decide)
      1700000000500000000
    exact ⟨a', hput, (hholds _).mpr (by decide), fun h ↦ absurd ((hholds _).mp h) (by decide)⟩
  · obtain ⟨a', hput, hholds⟩ := handlePut_holdsUntil hrep
      (PutMessage.deSerialize_serialize ⟨msgPUT, [75], 1, [1]⟩ (by decide)) (by decide) 500000000
    exact ⟨a', hput, (hholds _).mpr (by decide)⟩

end Server
end ClusteredBigCache
