import ClusteredBigCache.Cache.BigCache

/-!
# How hashes are spread over the shards

`newBigCache` checks the number of shards with a bit trick on a signed integer, `n & (n - 1) == 0`,
and keeps `n - 1`, read as an unsigned integer, as the mask of `getShard`.

`isPowerOfTwo_iff` says which integers pass: the powers of two, 0, and the least integer, whose only
bit is that of the sign.  For a power of two the mask takes the remainder (`shardIndex_eq_mod`), so
every hash has a shard and every shard has a hash.  The least integer makes `make` panic.  With 0
shards a cache is returned whose mask has all bits set, and every call on it panics
(`no_shard_for_any_hash`).  `routesSafely_iff` says that there are no other exceptions.
-/

set_option autoImplicit false

namespace ClusteredBigCache

/-! ## The check

The check is made on a signed integer, and `getShard` uses the unsigned one with the same bits.  On
the latter the bit trick is a fact about powers of two. -/

/-- A signed integer, read off the unsigned one with the same bits. -/
theorem toInt_eq_toUInt64 (n : Int64) :
    n.toInt = if n.toUInt64.toNat < 2 ^ 63 then (n.toUInt64.toNat : ℤ)
      else n.toUInt64.toNat - 2 ^ 64 := by
  have h : n.toInt = (n.toUInt64.toNat : ℤ).bmod (2 ^ 64) :=
    BitVec.toInt_eq_toNat_bmod n.toBitVec
  have hlt := n.toUInt64.toNat_lt
  rw [h, Int.bmod_def]
  split_ifs <;> omega

theorem toUInt64_eq_zero_iff {n : Int64} : n.toUInt64.toNat = 0 ↔ n = 0 := by
  have hzero : Int64.toInt 0 = 0 := rfl
  have h := toInt_eq_toUInt64 n
  have hlt := n.toUInt64.toNat_lt
  rw [← Int64.toInt_inj, hzero]
  split_ifs at h <;> omega

/-- The bit trick, on the unsigned integer with the same bits. -/
theorem isPowerOfTwo_toUInt64 {n : Int64} (hn : n ≠ 0) :
    isPowerOfTwo n ↔ n.toUInt64.toNat.isPowerOfTwo := by
  have hne : n.toUInt64.toNat ≠ 0 := fun h ↦ hn (toUInt64_eq_zero_iff.mp h)
  have hone : (n - 1).toUInt64.toNat = n.toUInt64.toNat - 1 := by
    have hlt := n.toUInt64.toNat_lt
    have h1 : (1 : Int64).toUInt64.toNat = 1 := rfl
    rw [Int64.toUInt64_sub, UInt64.toNat_sub, h1]
    omega
  rw [← Nat.and_sub_one_eq_zero_iff_isPowerOfTwo hne, ← hone, ← UInt64.toNat_and,
    ← Int64.toUInt64_and, toUInt64_eq_zero_iff, isPowerOfTwo, decide_eq_true_iff]

/-- **What the check lets through.** -/
theorem isPowerOfTwo_iff (n : Int64) :
    isPowerOfTwo n ↔ n = 0 ∨ n = Int64.minValue ∨ ∃ k : ℕ, n.toInt = 2 ^ k := by
  by_cases hn : n = 0
  · simp [hn, isPowerOfTwo]
  have hmin : n = Int64.minValue ↔ n.toInt = -2 ^ 63 := by
    rw [← Int64.toInt_inj]
    rfl
  have hint := toInt_eq_toUInt64 n
  have hlt := n.toUInt64.toNat_lt
  rw [isPowerOfTwo_toUInt64 hn, hmin]
  constructor
  · rintro ⟨k, hk⟩
    have hk64 : k < 64 := (Nat.pow_lt_pow_iff_right (by norm_num)).mp (hk ▸ hlt)
    rw [hk] at hint
    by_cases hsign : k = 63
    · -- the bit of the sign
      subst hsign
      exact .inr (.inl (by rw [hint]; norm_num))
    · have hlt63 : 2 ^ k < 2 ^ 63 := Nat.pow_lt_pow_right (by norm_num) (by omega)
      rw [if_pos hlt63] at hint
      exact .inr (.inr ⟨k, by exact_mod_cast hint⟩)
  · rintro (hzero | hmin | ⟨k, hk⟩)
    · exact absurd hzero hn
    · refine ⟨63, ?_⟩
      split_ifs at hint <;> omega
    · refine ⟨k, ?_⟩
      have hpos : (0 : ℤ) < 2 ^ k := by positivity
      have hk' : (n.toUInt64.toNat : ℤ) = 2 ^ k := by
        split_ifs at hint <;> omega
      exact_mod_cast hk'

theorem Config.sizes_ne_panic (config : Config) (h : config.shards ≠ 0) :
    config.initialShardSize ≠ .error .panic ∧ config.maximumShardSize ≠ .error .panic := by
  rw [initialShardSize, maximumShardSize, divInt, divInt, if_neg h, if_neg h]
  refine ⟨by simp, ?_⟩
  split_ifs <;> simp

/-! ## The mask -/

namespace BigCache

variable {T M : Type} [OrderedMap T ℤ Ptr] [OrderedMap M UInt64 (Finset Key)]

/-- **For a power of two the mask takes the remainder.** -/
theorem shardIndex_eq_mod {config : Config} {hasher : Option Hasher} {now k : ℕ} {c : BigCache T M}
    (hnew : newBigCache config hasher now = .ok (.ok c)) (hk : config.shards.toInt = 2 ^ k) :
    c.shards.length = 2 ^ k ∧ ∀ h, c.shardIndex h = h.toNat % 2 ^ k := by
  obtain ⟨-, -, -, -, hmask, hlen, -⟩ := newBigCache_spec hnew
  have hcast : config.shards.toInt = ((2 ^ k : ℕ) : ℤ) := by
    rw [hk]
    norm_cast
  have hpos : 0 < 2 ^ k := Nat.two_pow_pos k
  rw [hcast, Int.toNat_natCast] at hlen
  refine ⟨hlen, fun h ↦ ?_⟩
  have hone : (1 : Int64).toUInt64.toNat = 1 := rfl
  have hshards : config.shards.toUInt64.toNat = 2 ^ k := by
    have hint := toInt_eq_toUInt64 config.shards
    have hlt := config.shards.toUInt64.toNat_lt
    split_ifs at hint <;> omega
  have hsub : c.shardMask.toNat = 2 ^ k - 1 := by
    have hlt := config.shards.toUInt64.toNat_lt
    rw [hmask, Int64.toUInt64_sub, UInt64.toNat_sub, hone]
    omega
  rw [shardIndex, UInt64.toNat_and, hsub, Nat.and_two_pow_sub_one_eq_mod]

/-- A number of shards that passes the check is not rejected. -/
theorem newBigCache_ne_error {config : Config} (hpow : isPowerOfTwo config.shards)
    (hasher : Option Hasher) (now : ℕ) (err : String) :
    (newBigCache config hasher now : Go (Except String (BigCache T M))) ≠ .ok (.error err) := by
  intro h
  rw [newBigCache, if_pos hpow] at h
  split_ifs at h
  simp only [Go.bind_eq_ok] at h
  obtain ⟨_, -, _, -, h⟩ := h
  cases h

/-- What a number of shards is accepted for. -/
structure RoutesSafely (T M : Type) [OrderedMap T ℤ Ptr] [OrderedMap M UInt64 (Finset Key)]
    (config : Config) : Prop where
  /-- Every hash has a shard. -/
  inRange : ∀ (hasher : Option Hasher) (now : ℕ) (c : BigCache T M),
    newBigCache config hasher now = .ok (.ok c) → ∀ h, c.shardIndex h < c.shards.length
  /-- Every shard has a hash. -/
  onto : ∀ (hasher : Option Hasher) (now : ℕ) (c : BigCache T M),
    newBigCache config hasher now = .ok (.ok c) → ∀ i < c.shards.length, ∃ h, c.shardIndex h = i
  /-- The sizes of the shards can be computed. -/
  divides : ∀ (hasher : Option Hasher) (now : ℕ) (c : BigCache T M),
    newBigCache config hasher now = .ok (.ok c) →
      config.initialShardSize ≠ .error .panic ∧ config.maximumShardSize ≠ .error .panic
  /-- Other numbers are rejected. -/
  rejects : (¬ ∃ k : ℕ, config.shards.toInt = 2 ^ k) → ∀ (hasher : Option Hasher) (now : ℕ),
    ∃ err, (newBigCache config hasher now : Go (Except String (BigCache T M))) = .ok (.error err)

/-- **Which numbers of shards are handled as they should be**: all but 0, for which a cache is made,
and the least integer, for which `newBigCache` panics. -/
theorem routesSafely_iff (config : Config) :
    RoutesSafely T M config ↔ config.shards ≠ 0 ∧ config.shards ≠ Int64.minValue := by
  constructor
  · intro h
    -- neither is a power of two, and both pass the check
    have hpass : isPowerOfTwo config.shards → ∃ k : ℕ, config.shards.toInt = 2 ^ k := by
      intro hpow
      by_contra hno
      obtain ⟨err, herr⟩ := h.rejects hno none 0
      exact newBigCache_ne_error hpow none 0 err herr
    constructor
    · intro h0
      obtain ⟨k, hk⟩ := hpass ((isPowerOfTwo_iff _).mpr (.inl h0))
      rw [h0] at hk
      exact absurd hk.symm (pow_ne_zero k two_ne_zero)
    · intro hmin
      obtain ⟨k, hk⟩ := hpass ((isPowerOfTwo_iff _).mpr (.inr (.inl hmin)))
      have hpos : (0 : ℤ) < 2 ^ k := by positivity
      have hneg : Int64.minValue.toInt < 0 := by decide
      rw [hmin] at hk
      omega
  · rintro ⟨h0, hmin⟩
    have hpow : isPowerOfTwo config.shards → ∃ k : ℕ, config.shards.toInt = 2 ^ k := fun h ↦
      (((isPowerOfTwo_iff _).mp h).resolve_left h0).resolve_left hmin
    refine ⟨fun hasher now c hnew h ↦ ?_, fun hasher now c hnew i hi ↦ ?_,
      fun _ _ _ _ ↦ config.sizes_ne_panic h0, fun hno hasher now ↦ ?_⟩
    · obtain ⟨k, hk⟩ := hpow (newBigCache_spec hnew).1
      obtain ⟨hlen, hindex⟩ := shardIndex_eq_mod hnew hk
      rw [hlen, hindex]
      exact Nat.mod_lt _ (Nat.two_pow_pos k)
    · obtain ⟨k, hk⟩ := hpow (newBigCache_spec hnew).1
      obtain ⟨hlen, hindex⟩ := shardIndex_eq_mod hnew hk
      rw [hlen] at hi
      -- the position itself is a hash that leads to it
      have hk64 : 2 ^ k < 2 ^ 64 := by
        have hlt := config.shards.toInt_lt
        rw [hk] at hlt
        have hlt : 2 ^ k < 2 ^ 63 := by exact_mod_cast hlt
        omega
      refine ⟨UInt64.ofNat i, ?_⟩
      rw [hindex, UInt64.toNat_ofNat', Nat.mod_eq_of_lt (hi.trans hk64), Nat.mod_eq_of_lt hi]
    · exact ⟨_, if_neg fun h ↦ hno (hpow h)⟩

/-- **A cache without shards.**  `newBigCache` makes a cache with 0 shards, and no hash has a shard:
every call on the cache panics. -/
theorem no_shard_for_any_hash :
    ∃ c : BigCache (SortedAssoc ℤ Ptr) (SortedAssoc UInt64 (Finset Key)),
      newBigCache ⟨0, 600000, 500, 0, false⟩ none 0 = .ok (.ok c) ∧
        ∀ h, c.getShard h = .error .panic :=
  ⟨⟨[], fnv64a, ⟨0, 600000, 500, 0, false⟩, 18446744073709551615⟩, rfl, fun _ ↦ rfl⟩

end BigCache
end ClusteredBigCache
