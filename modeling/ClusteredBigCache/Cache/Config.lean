import ClusteredBigCache.Lib.Go

/-!
# The configuration

The settings a cache is made from, and the sizes derived from them.  All of it is arithmetic on
Go's `int`, which wraps around and where a division by zero panics.

`LifeWindow`, `CleanWindow`, `Verbose` and `Logger` are left out: nothing reads the first two but
dead code, and the other two only decide what is logged.  Of `OnRemove` the configuration keeps
whether it is set.
-/

set_option autoImplicit false

namespace ClusteredBigCache

/-- Minimum number of entries in single shard. -/
def minimumEntriesInShard : Int64 := 10

/-- Config for BigCache. -/
structure Config where
  /-- Number of cache shards, value must be a power of two. -/
  shards : Int64
  /-- Max number of entries in life window, used only to calculate initial size for cache shards. -/
  maxEntriesInWindow : Int64
  /-- Max size of entry in bytes, used only to calculate initial size for cache shards. -/
  maxEntrySize : Int64
  /-- A limit for cache size in MB, 0 for unlimited size. -/
  hardMaxCacheSize : Int64
  /-- Whether there is a callback for removed entries. -/
  onRemove : Bool
  deriving DecidableEq, Repr

/-- `max` of `utils.go`. -/
def maxInt (a b : Int64) : Int64 := if a > b then a else b

def convertMBToBytes (value : Int64) : Int64 := value * 1024 * 1024

def isPowerOfTwo (number : Int64) : Bool := number &&& (number - 1) = 0

/-- `a / b`, which panics when `b` is zero. -/
def divInt (a b : Int64) : Go Int64 := if b = 0 then .error .panic else .ok (a / b)

/-- `make([]byte, n)`, which panics when `n` is negative. -/
def makeBytes (n : Int64) : Go Bytes :=
  if n < 0 then .error .panic else .ok (List.replicate n.toInt.toNat 0)

theorem length_of_makeBytes {n : Int64} {b : Bytes} (h : makeBytes n = .ok b) :
    0 ≤ n ∧ b.length = n.toInt.toNat := by
  rw [makeBytes] at h
  split_ifs at h with hn
  obtain rfl := Except.ok.inj h
  exact ⟨Int64.not_lt.mp hn, List.length_replicate⟩

/-- The mask made from a positive number of shards is less than that number. -/
theorem mask_lt {n : Int64} (h : 1 ≤ n) : (n - 1).toUInt64.toNat < n.toInt.toNat := by
  have hone : Int64.toInt 1 = 1 := rfl
  have hzero : Int64.toInt 0 = 0 := rfl
  have hlt := n.toInt_lt
  rw [Int64.le_iff_toInt_le, hone] at h
  have hsub : (n - 1).toInt = n.toInt - 1 := by
    rw [Int64.toInt_sub, hone]
    exact Int.bmod_eq_of_le (by omega) (by omega)
  have hnonneg : 0 ≤ n - 1 := by
    rw [Int64.le_iff_toInt_le, hsub, hzero]
    omega
  rw [Int64.toNat_toUInt64_of_le hnonneg, Int64.toNatClampNeg, hsub]
  omega

/-- A positive quotient by a number that is not negative is rounded down. -/
theorem mul_div_le {a b : Int64} (hb : 0 ≤ b) (hpos : 0 < a / b) :
    b.toInt * (a / b).toInt ≤ a.toInt := by
  have hb : 0 ≤ b.toInt := Int64.le_iff_toInt_le.mp hb
  have hpos : 0 < (a / b).toInt := Int64.lt_iff_toInt_lt.mp hpos
  have habs := Int.natAbs_tdiv_le_natAbs a.toInt b.toInt
  have hlt := a.toInt_lt
  have hle := a.le_toInt
  rw [Int64.toInt_div] at hpos ⊢
  rcases le_or_gt 0 a.toInt with ha | ha
  · rw [Int.bmod_eq_of_le (by omega) (by omega)]
    exact Int.mul_tdiv_self_le ha
  · have hneg : 0 ≤ (-a.toInt).tdiv b.toInt := Int.tdiv_nonneg (by omega) hb
    rw [Int.neg_tdiv] at hneg
    rw [Int.bmod_eq_of_le (by omega) (by omega)] at hpos
    omega

/-- A number of megabytes that wraps around becomes smaller, not larger. -/
theorem toInt_convertMBToBytes_le {m : Int64} (hm : 0 < m) :
    (convertMBToBytes m).toInt ≤ m.toInt * 1024 * 1024 := by
  have hm : 0 < m.toInt := Int64.lt_iff_toInt_lt.mp hm
  have hbytes : (convertMBToBytes m).toInt = (m.toInt * 1024 * 1024).bmod (2 ^ 64) := by
    rw [convertMBToBytes, Int64.toInt_mul, Int64.toInt_mul, Int.bmod_mul_bmod]
    rfl
  rw [hbytes, Int.bmod_def]
  split_ifs <;> omega

namespace Config

/-- `DefaultConfig` initializes config with default values. -/
def defaultConfig : Config where
  shards := 16
  maxEntriesInWindow := 1000 * 10 * 60
  maxEntrySize := 500
  hardMaxCacheSize := 0
  onRemove := false

/-- `initialShardSize` computes initial shard size. -/
def initialShardSize (c : Config) : Go Int64 := do
  pure (maxInt (← divInt c.maxEntriesInWindow c.shards) minimumEntriesInShard)

/-- `maximumShardSize` computes maximum shard size. -/
def maximumShardSize (c : Config) : Go Int64 :=
  if c.hardMaxCacheSize > 0 then divInt (convertMBToBytes c.hardMaxCacheSize) c.shards
  else .ok 0

/-- The limits of the shards add up to at most the limit of the cache. -/
theorem shards_mul_le {c : Config} {maxShardSize : Int64} (hM : 0 < c.hardMaxCacheSize)
    (hmax : c.maximumShardSize = .ok maxShardSize) (hpos : 0 < maxShardSize)
    (hshards : 0 ≤ c.shards) :
    c.shards.toInt * maxShardSize.toInt ≤ c.hardMaxCacheSize.toInt * 1024 * 1024 := by
  rw [maximumShardSize, if_pos hM, divInt] at hmax
  split_ifs at hmax
  obtain rfl := Except.ok.inj hmax
  exact (mul_div_le hshards hpos).trans (toInt_convertMBToBytes_le hM)

end Config
end ClusteredBigCache
