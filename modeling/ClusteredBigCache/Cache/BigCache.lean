import ClusteredBigCache.Shard.Sequential

/-!
# The cache

A `BigCache` is an array of shards, and the hash of a key says which one is responsible for it.
`newBigCache` makes a cache from a configuration; `get`, `set` and `delete` pass a call on to a
shard; `evict` is what the eviction goroutine of a shard does when its timer has fired.

`Op` lists these calls, and `call_cases` says what one of them does: it changes one shard, by the
call on it that `Passed` says.  Results about runs of a cache start from there.

`lifeWindow` and `maxShardSize`, which nothing reads, are left out; the second is still computed, as
that may panic.  The clock is a parameter of the calls.
-/

set_option autoImplicit false

namespace ClusteredBigCache

/-- FNVa offset basis. -/
def offset64 : UInt64 := 14695981039346656037

/-- FNVa prime value. -/
def prime64 : UInt64 := 1099511628211

/-- `Sum64` of `fnv64a`, the default hash. -/
def fnv64a (key : Key) : UInt64 := key.foldl (fun hash b ↦ (hash ^^^ b.toUInt64) * prime64) offset64

/-- A cache. -/
structure BigCache (T M : Type) where
  shards : List (CacheShard T M)
  hash : Hasher
  config : Config
  shardMask : UInt64

namespace BigCache

variable {T M : Type} [OrderedMap T ℤ Ptr] [OrderedMap M UInt64 (Finset Key)]

/-- The loop of `newBigCache` that makes the shards. -/
def initShards (config : Config) (now : ℕ) : ℕ → Go (List (CacheShard T M))
  | 0 => pure []
  | n + 1 => do
    let shard ← CacheShard.initNewShard config now
    let shards ← initShards config now n
    pure (shard :: shards)

/-- `newBigCache`, with the hash function that is configured, if there is one. -/
def newBigCache (config : Config) (hasher : Option Hasher) (now : ℕ) :
    Go (Except String (BigCache T M)) :=
  if isPowerOfTwo config.shards then
    -- `make([]*cacheShard, config.Shards)`
    if config.shards < 0 then .error .panic
    else do
      let _ ← config.maximumShardSize
      let shards ← initShards config now config.shards.toInt.toNat
      pure (.ok {
        shards := shards
        hash := hasher.getD fnv64a
        config := config
        shardMask := (config.shards - 1).toUInt64 })
  else .ok (.error "Shards number must be power of two")

/-- The position of the shard that is responsible for a hash. -/
def shardIndex (c : BigCache T M) (hashedKey : UInt64) : ℕ := (hashedKey &&& c.shardMask).toNat

def getShard (c : BigCache T M) (hashedKey : UInt64) : Go (CacheShard T M) :=
  match c.shards[c.shardIndex hashedKey]? with
  | some shard => .ok shard
  | none => .error .panic

/-- The cache with the shard of a hash changed. -/
def putShard (c : BigCache T M) (hashedKey : UInt64) (shard : CacheShard T M) : BigCache T M :=
  { c with shards := c.shards.set (c.shardIndex hashedKey) shard }

/-- `Get` reads entry for the key. -/
def get (c : BigCache T M) (key : Key) : Go (BigCache T M × Except CacheError Bytes) := do
  let hashedKey := c.hash key
  let shard ← c.getShard hashedKey
  let (shard, r) ← shard.get key hashedKey
  pure (c.putShard hashedKey shard, r)

/-- `Set` saves entry under the key. -/
def set (c : BigCache T M) (key : Key) (entry : Bytes) (duration : Int64) (now : ℕ) :
    Go (BigCache T M × Except CacheError UInt64) := do
  let hashedKey := c.hash key
  let shard ← c.getShard hashedKey
  let (shard, r) ← shard.set key hashedKey entry duration now
  pure (c.putShard hashedKey shard, r)

/-- `Delete` removes the key. -/
def delete (c : BigCache T M) (key : Key) (now : ℕ) :
    Go (BigCache T M × Except CacheError Unit) := do
  let hashedKey := c.hash key
  let shard ← c.getShard hashedKey
  let (shard, r) ← shard.del key hashedKey now
  pure (c.putShard hashedKey shard, r)

/-- The eviction goroutine of the shard at a position takes the smallest timestamp with its keys out
of the expiry index and evicts them.  The keys of the set are listed in any order. -/
def evict (c : BigCache T M) (i : ℕ) (timeStamp : UInt64) (keys : List Key) :
    Option (BigCache T M) :=
  match c.shards[i]? with
  | none => none
  | some shard =>
    match shard.ttlTable.evictionTake with
    | (ttlTable, some (t, set)) =>
      if t = timeStamp ∧ keys.Nodup ∧ keys.toFinset = set then
        (CacheShard.evictDel c.hash { shard with ttlTable := ttlTable } timeStamp
          keys).toOption.map fun shard ↦ { c with shards := c.shards.set i shard }
      else none
    | (_, none) => none

omit [OrderedMap T ℤ Ptr] [OrderedMap M UInt64 (Finset Key)] in
/-- **Every hash has a shard**, when the mask is less than their number. -/
theorem getShard_of_mask {c : BigCache T M} (hmask : c.shardMask.toNat < c.shards.length)
    (h : UInt64) : ∃ s, c.getShard h = .ok s ∧ c.shards[c.shardIndex h]? = some s := by
  have hle : c.shardIndex h ≤ c.shardMask.toNat := by
    rw [shardIndex, UInt64.toNat_and]
    exact Nat.and_le_right
  have hlt : c.shardIndex h < c.shards.length := hle.trans_lt hmask
  refine ⟨c.shards[c.shardIndex h], ?_, List.getElem?_eq_getElem hlt⟩
  rw [getShard, List.getElem?_eq_getElem hlt]

/-! ## One call

A call on a cache locates one shard and hands over to it, so everything that is said about a cache
later is said about one shard, and about the others that are left alone. -/

/-- The calls on a cache, and the evictions of its shards. -/
inductive Op
  | set (key : Key) (entry : Bytes) (duration : Int64) (now : ℕ)
  | get (key : Key)
  | delete (key : Key) (now : ℕ)
  | evict (shard : ℕ) (timeStamp : UInt64) (keys : List Key)

/-- Make a call, provided that it returns. -/
def call (c : BigCache T M) : Op → Option (BigCache T M)
  | .set key entry duration now => (c.set key entry duration now).toOption.map Prod.fst
  | .get key => (c.get key).toOption.map Prod.fst
  | .delete key now => (c.delete key now).toOption.map Prod.fst
  | .evict shard timeStamp keys => c.evict shard timeStamp keys

/-- The position of the shard a call is passed on to. -/
def Op.target (hash : Hasher) (mask : UInt64) : Op → ℕ
  | .set key _ _ _ => (hash key &&& mask).toNat
  | .get key => (hash key &&& mask).toNat
  | .delete key _ => (hash key &&& mask).toNat
  | .evict i _ _ => i

/-- The call on a shard that a call on the cache is passed on as. -/
inductive Passed (hash : Hasher) (s s' : CacheShard T M) : Op → Prop
  | set {key : Key} {entry : Bytes} {duration : Int64} {now : ℕ} {r : Except CacheError UInt64}
      (h : s.set key (hash key) entry duration now = .ok (s', r)) :
      Passed hash s s' (.set key entry duration now)
  | get {key : Key} {r : Except CacheError Bytes} (h : s.get key (hash key) = .ok (s', r)) :
      Passed hash s s' (.get key)
  | delete {key : Key} {now : ℕ} {r : Except CacheError Unit}
      (h : s.del key (hash key) now = .ok (s', r)) : Passed hash s s' (.delete key now)
  | evict {i : ℕ} {t : UInt64} {keys : List Key} {ttl : TtlManager M}
      (htake : s.ttlTable.evictionTake = (ttl, some (t, keys.toFinset))) (hnodup : keys.Nodup)
      (h : CacheShard.evictDel hash { s with ttlTable := ttl } t keys = .ok s') :
      Passed hash s s' (.evict i t keys)

omit [OrderedMap T ℤ Ptr] [OrderedMap M UInt64 (Finset Key)] in
theorem getElem?_of_getShard {c : BigCache T M} {h : UInt64} {s : CacheShard T M}
    (hs : c.getShard h = .ok s) : c.shards[c.shardIndex h]? = some s := by
  rw [getShard] at hs
  split at hs
  · obtain rfl := Except.ok.inj hs
    assumption
  · cases hs

omit [OrderedMap T ℤ Ptr] [OrderedMap M UInt64 (Finset Key)] in
theorem getShard_putShard {c : BigCache T M} {h : UInt64} {s : CacheShard T M}
    (hs : c.getShard h = .ok s) (s' : CacheShard T M) : (c.putShard h s').getShard h = .ok s' := by
  have hlt := (List.getElem?_eq_some_iff.mp (getElem?_of_getShard hs)).1
  have hget : (c.putShard h s').shards[(c.putShard h s').shardIndex h]? = some s' :=
    List.getElem?_set_self hlt
  rw [getShard, hget]

section

variable {c : BigCache T M} {s s' : CacheShard T M} {key entry : Bytes} {duration : Int64} {now : ℕ}

theorem set_of_set {r : Except CacheError UInt64} (hs : c.getShard (c.hash key) = .ok s)
    (hset : s.set key (c.hash key) entry duration now = .ok (s', r)) :
    c.set key entry duration now = .ok (c.putShard (c.hash key) s', r) := by
  rw [set, hs, Go.ok_bind, hset]
  rfl

theorem call_of_set {r : Except CacheError UInt64} (hs : c.getShard (c.hash key) = .ok s)
    (hset : s.set key (c.hash key) entry duration now = .ok (s', r)) :
    c.call (.set key entry duration now) = some (c.putShard (c.hash key) s') := by
  rw [call, set_of_set hs hset]
  rfl

theorem delete_of_del {r : Except CacheError Unit} (hs : c.getShard (c.hash key) = .ok s)
    (hdel : s.del key (c.hash key) now = .ok (s', r)) :
    c.delete key now = .ok (c.putShard (c.hash key) s', r) := by
  rw [delete, hs, Go.ok_bind, hdel]
  rfl

theorem call_of_del {r : Except CacheError Unit} (hs : c.getShard (c.hash key) = .ok s)
    (hdel : s.del key (c.hash key) now = .ok (s', r)) :
    c.call (.delete key now) = some (c.putShard (c.hash key) s') := by
  rw [call, delete_of_del hs hdel]
  rfl

end

/-- **What one call does**: one shard is changed, by a call on it. -/
theorem call_cases {c c' : BigCache T M} {op : Op} (hstep : c.call op = some c') :
    ∃ s s', c.shards[op.target c.hash c.shardMask]? = some s ∧ Passed c.hash s s' op ∧
      c' = { c with shards := c.shards.set (op.target c.hash c.shardMask) s' } := by
  unfold call at hstep
  cases op with
  | set key entry duration now =>
    obtain ⟨p, hp, rfl⟩ := Option.map_eq_some_iff.mp hstep
    obtain ⟨s, hs, hp⟩ := Go.bind_eq_ok.mp (Go.toOption_eq_some.mp hp)
    obtain ⟨⟨s', r⟩, hset, hp⟩ := Go.bind_eq_ok.mp hp
    obtain rfl := Except.ok.inj hp
    exact ⟨s, s', getElem?_of_getShard hs, .set hset, rfl⟩
  | get key =>
    obtain ⟨p, hp, rfl⟩ := Option.map_eq_some_iff.mp hstep
    obtain ⟨s, hs, hp⟩ := Go.bind_eq_ok.mp (Go.toOption_eq_some.mp hp)
    obtain ⟨⟨s', r⟩, hget, hp⟩ := Go.bind_eq_ok.mp hp
    obtain rfl := Except.ok.inj hp
    exact ⟨s, s', getElem?_of_getShard hs, .get hget, rfl⟩
  | delete key now =>
    obtain ⟨p, hp, rfl⟩ := Option.map_eq_some_iff.mp hstep
    obtain ⟨s, hs, hp⟩ := Go.bind_eq_ok.mp (Go.toOption_eq_some.mp hp)
    obtain ⟨⟨s', r⟩, hdel, hp⟩ := Go.bind_eq_ok.mp hp
    obtain rfl := Except.ok.inj hp
    exact ⟨s, s', getElem?_of_getShard hs, .delete hdel, rfl⟩
  | evict i t keys =>
    simp only [evict] at hstep
    split at hstep
    · cases hstep
    · rename_i s hs
      split at hstep
      · rename_i ttl t' set htake
        split_ifs at hstep with hguard
        obtain ⟨rfl, hnodup, rfl⟩ := hguard
        obtain ⟨s', hs', rfl⟩ := Option.map_eq_some_iff.mp hstep
        exact ⟨s, s', hs, .evict htake hnodup (Go.toOption_eq_some.mp hs'), rfl⟩
      · cases hstep

/-! ## A new cache -/

theorem initShards_spec {config : Config} {now : ℕ} {n : ℕ} {shards : List (CacheShard T M)}
    (h : initShards config now n = .ok shards) :
    shards.length = n ∧ ∀ s ∈ shards, CacheShard.initNewShard config now = .ok s := by
  induction n generalizing shards with
  | zero =>
    obtain rfl := Except.ok.inj h
    simp
  | succ n ih =>
    simp only [initShards, Go.bind_eq_ok] at h
    obtain ⟨s, hs, rest, hrest, h⟩ := h
    obtain rfl := Except.ok.inj h
    obtain ⟨hlen, hall⟩ := ih hrest
    refine ⟨by rw [List.length_cons, hlen], fun s' hs' ↦ ?_⟩
    rcases List.mem_cons.mp hs' with rfl | hs'
    · exact hs
    · exact hall s' hs'

theorem initShards_eq {config : Config} {now : ℕ} {s : CacheShard T M}
    (h : CacheShard.initNewShard config now = .ok s) (n : ℕ) :
    initShards config now n = .ok (List.replicate n s) := by
  induction n with
  | zero => rfl
  | succ n ih =>
    rw [initShards, h, Go.ok_bind, ih]
    rfl

/-- **The cache that `newBigCache` makes.** -/
theorem newBigCache_eq {config : Config} {now : ℕ} {s : CacheShard T M} {maxShardSize : Int64}
    (hasher : Option Hasher) (hpow : isPowerOfTwo config.shards) (hnonneg : 0 ≤ config.shards)
    (hmax : config.maximumShardSize = .ok maxShardSize)
    (h : CacheShard.initNewShard config now = .ok s) :
    newBigCache config hasher now = .ok (.ok ⟨List.replicate config.shards.toInt.toNat s,
      hasher.getD fnv64a, config, (config.shards - 1).toUInt64⟩) := by
  rw [newBigCache, if_pos hpow, if_neg (Int64.not_lt.mpr hnonneg), hmax, Go.ok_bind,
    initShards_eq h]
  rfl

theorem newBigCache_of_toOption {config : Config} {hasher : Option Hasher} {now : ℕ}
    {c : BigCache T M}
    (h : (newBigCache config hasher now).toOption.bind Except.toOption = some c) :
    newBigCache config hasher now = .ok (.ok c) := by
  obtain ⟨x, hx, h⟩ := Option.bind_eq_some_iff.mp h
  cases x with
  | error e => cases h
  | ok c₁ =>
    obtain rfl := Option.some.inj h
    exact Go.toOption_eq_some.mp hx

/-- **What it takes for `newBigCache` to make a cache.** -/
theorem newBigCache_spec {config : Config} {hasher : Option Hasher} {now : ℕ} {c : BigCache T M}
    (h : newBigCache config hasher now = .ok (.ok c)) :
    isPowerOfTwo config.shards ∧ 0 ≤ config.shards ∧ c.config = config ∧
      c.hash = hasher.getD fnv64a ∧ c.shardMask = (config.shards - 1).toUInt64 ∧
      c.shards.length = config.shards.toInt.toNat ∧
      ∀ s ∈ c.shards, CacheShard.initNewShard config now = .ok s := by
  rw [newBigCache] at h
  split_ifs at h with hpow hneg
  · simp only [Go.bind_eq_ok] at h
    obtain ⟨-, -, shards, hshards, h⟩ := h
    obtain rfl := Except.ok.inj (Except.ok.inj h)
    obtain ⟨hlen, hall⟩ := initShards_spec hshards
    exact ⟨hpow, Int64.not_lt.mp hneg, rfl, rfl, rfl, hlen, hall⟩
  · cases Except.ok.inj h

end BigCache
end ClusteredBigCache
