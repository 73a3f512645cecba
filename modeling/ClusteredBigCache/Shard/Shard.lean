import Mathlib.Data.Finmap
import ClusteredBigCache.Cache.Config
import ClusteredBigCache.Shard.Encoding
import ClusteredBigCache.Ttl.Manager

/-!
# A shard of the cache

A `cacheShard` maps hashed keys to positions in its byte queue, and keeps the expiry index of its
entries.  `get`, `set`, `del` and `evictDel` are the four operations on it, and `reset` empties it.

Each operation takes the lock of the shard for a part of its work only.  The parts are separate
functions, so that they can be interleaved as well as run in sequence: `get` is `getView`, under
the lock, and then `readEntry` through the slice it found; `set` is `setLocked` and then a `put`
into the expiry index; `del` is `delLocked` and then `delFinish`, which reads the timestamp of the
removed entry through a slice and removes the pair from the expiry index.

When the queue is full, `set` returns without unlocking, and every later operation on the shard
blocks: that is the field `locked`.  Its error is lost in a shadowed variable, so the result is
`(0, nil)`.  The field `callbacks` lists the calls of `config.OnRemove`.  The time is a parameter
of the operations, in nanoseconds; `Duration.Seconds` is taken as the exact number of seconds.
`isVerbose` and `logger`, which only log, and `lifeWindow` and `sharedNum`, which nothing that runs
reads, are left out.
-/

set_option autoImplicit false

namespace ClusteredBigCache

/-- Data placed into a shard with this timestamp will never expire. -/
def NO_EXPIRY : UInt64 := 0

/-- The hash function of a cache. -/
abbrev Hasher := Key → UInt64

/-- The errors of the cache. -/
inductive CacheError
  | notFound (key : Key)
  | queue (e : QueueError)
  deriving DecidableEq, Repr

/-- Cache statistics. -/
structure Stats where
  hits : Int64 := 0
  misses : Int64 := 0
  delHits : Int64 := 0
  delMisses : Int64 := 0
  collisions : Int64 := 0
  evictCount : Int64 := 0
  deriving DecidableEq, Repr

/-- A shard. -/
structure CacheShard (T M : Type) where
  hashmap : Finmap fun _ : UInt64 ↦ UInt32
  entries : BytesQueue T
  entryBuffer : Bytes
  onRemove : Bool
  stats : Stats
  ttlTable : TtlManager M
  /-- The lock was left held. -/
  locked : Bool
  /-- The calls of `config.OnRemove`, latest first. -/
  callbacks : List (Key × Bytes)

namespace CacheShard

variable {T M : Type} [OrderedMap T ℤ Ptr] [OrderedMap M UInt64 (Finset Key)]

/-- `initNewShard`. -/
def initNewShard (config : Config) (now : ℕ) : Go (CacheShard T M) := do
  let array ← makeBytes ((← config.initialShardSize) * config.maxEntrySize)
  let maxCapacity ← config.maximumShardSize
  let entryBuffer ← makeBytes (config.maxEntrySize + Int64.ofNat headersSizeInBytes)
  pure {
    hashmap := ∅
    entries := BytesQueue.new array.length maxCapacity.toInt
    entryBuffer := entryBuffer
    onRemove := config.onRemove
    stats := {}
    ttlTable := TtlManager.new now
    locked := false
    callbacks := [] }

/-- `s.hashmap[hashedKey]`, which is zero when there is no such key. -/
def index (s : CacheShard T M) (hashedKey : UInt64) : UInt32 := (s.hashmap.lookup hashedKey).getD 0

def hit (s : CacheShard T M) : CacheShard T M :=
  { s with stats := { s.stats with hits := s.stats.hits + 1 } }

def miss (s : CacheShard T M) : CacheShard T M :=
  { s with stats := { s.stats with misses := s.stats.misses + 1 } }

def delhit (s : CacheShard T M) : CacheShard T M :=
  { s with stats := { s.stats with delHits := s.stats.delHits + 1 } }

def delmiss (s : CacheShard T M) : CacheShard T M :=
  { s with stats := { s.stats with delMisses := s.stats.delMisses + 1 } }

def collision (s : CacheShard T M) : CacheShard T M :=
  { s with stats := { s.stats with collisions := s.stats.collisions + 1 } }

/-- `s.lock.Lock()`, which never returns when the lock was left held. -/
def lock (s : CacheShard T M) : Go Unit := if s.locked then .error .blocked else .ok ()

/-! ## Get -/

/-- The part of `get` under the lock: a slice over the entry, when it is there and has this key. -/
def getView (s : CacheShard T M) (key : Key) (hashedKey : UInt64) :
    Go (CacheShard T M × Except CacheError Slice) := do
  s.lock
  let itemIndex := s.index hashedKey
  if itemIndex = 0 then pure (s.miss, .error (.notFound key))
  else
    match ← s.entries.get itemIndex.toNat with
    | .error err => pure (s.miss, .error (.queue err))
    | .ok wrappedEntry =>
      let entryKey ← readKeyFromEntry (s.entries.load wrappedEntry)
      if key ≠ entryKey then pure (s.collision, .error (.notFound key))
      else pure (s.hit, .ok wrappedEntry)

/-- `get` reads the value of a key. -/
def get (s : CacheShard T M) (key : Key) (hashedKey : UInt64) :
    Go (CacheShard T M × Except CacheError Bytes) := do
  match ← s.getView key hashedKey with
  | (s, .error err) => pure (s, .error err)
  | (s, .ok wrappedEntry) => pure (s, .ok (← readEntry (s.entries.load wrappedEntry)))

/-! ## Set -/

/-- `uint64(duration.Seconds())`. -/
def seconds (duration : Int64) : UInt64 := UInt64.ofInt (duration.toInt.tdiv (10 ^ 9))

/-- The timestamp `set` gives to an entry. -/
def expiryTimestamp (now : ℕ) (duration : Int64) : UInt64 :=
  if duration ≠ 0 then (unix now).toUInt64 + seconds duration else NO_EXPIRY

/-- `delete` gives the space of an entry back, whether or not there is one. -/
def delete (s : CacheShard T M) (index : UInt32) : Go (CacheShard T M) := do
  pure { s with entries := (← s.entries.delete index.toNat).1 }

/-- Erase the hash of an entry and give its space back. -/
def free (s : CacheShard T M) (wrappedEntry : Slice) (index : UInt32) : Go (CacheShard T M) := do
  let entries ← resetKeyFromEntry s.entries wrappedEntry
  { s with entries := entries }.delete index

/-- The part of `set` that removes the entry the hash had. -/
def dropPrevious (s : CacheShard T M) (key : Key) (hashedKey : UInt64) (now : ℕ) :
    Go (CacheShard T M) :=
  let previousIndex := s.index hashedKey
  if previousIndex ≠ 0 then do
    match ← s.entries.get previousIndex.toNat with
    | .ok previousEntry =>
      let timestamp ← readTimestampFromEntry (s.entries.load previousEntry)
      { s with ttlTable := s.ttlTable.remove now timestamp key }.free previousEntry previousIndex
    | .error _ => pure s
  else pure s

/-- The part of `set` under the lock.  It says whether the entry was stored; if not, the lock is
still held. -/
def setLocked (s : CacheShard T M) (key : Key) (hashedKey : UInt64) (entry : Bytes)
    (expiryTimestamp : UInt64) (now : ℕ) : Go (CacheShard T M × Bool) := do
  s.lock
  let s ← s.dropPrevious key hashedKey now
  let (w, entryBuffer) := wrapEntry expiryTimestamp hashedKey key entry s.entryBuffer
  let (entries, result) ← s.entries.Push w
  let s := { s with entries := entries, entryBuffer := entryBuffer }
  match result with
  | .ok index =>
    pure ({ s with hashmap := s.hashmap.insert hashedKey (UInt32.ofNat index) }, true)
  | .error _ => pure ({ s with locked := true }, false)

/-- `set` stores a value, and returns the timestamp it gave to it. -/
def set (s : CacheShard T M) (key : Key) (hashedKey : UInt64) (entry : Bytes) (duration : Int64)
    (now : ℕ) : Go (CacheShard T M × Except CacheError UInt64) := do
  let expiryTimestamp := expiryTimestamp now duration
  let (s, stored) ← s.setLocked key hashedKey entry expiryTimestamp now
  if stored then
    if duration ≠ 0 then
      pure ({ s with ttlTable := s.ttlTable.put now expiryTimestamp key }, .ok expiryTimestamp)
    else pure (s, .ok expiryTimestamp)
  else pure (s, .ok 0)

/-! ## Removal -/

/-- `onRemove`: the callback, if there is one, is given the key and the value. -/
def notify (s : CacheShard T M) (wrappedEntry : Slice) : Go (CacheShard T M) :=
  if s.onRemove then do
    let key ← readKeyFromEntry (s.entries.load wrappedEntry)
    let entry ← readEntry (s.entries.load wrappedEntry)
    pure { s with callbacks := (key, entry) :: s.callbacks }
  else pure s

/-- Take an entry out of the shard. -/
def takeOut (s : CacheShard T M) (hashedKey : UInt64) (wrappedEntry : Slice) (itemIndex : UInt32) :
    Go (CacheShard T M) := do
  let s ← { s with hashmap := s.hashmap.erase hashedKey }.notify wrappedEntry
  s.free wrappedEntry itemIndex

/-- One round of the loop of `evictDel`. -/
def evictKey (hasher : Hasher) (timeStamp : UInt64) (s : CacheShard T M) (v : Key) :
    Go (CacheShard T M) := do
  let s := { s with stats := { s.stats with evictCount := s.stats.evictCount + 1 } }
  let keyHash := hasher v
  let itemIndex := s.index keyHash
  if itemIndex = 0 then pure s.delmiss
  else
    match ← s.entries.get itemIndex.toNat with
    | .error _ => pure s.delmiss
    | .ok wrappedEntry =>
      let storedTimestamp ← readTimestampFromEntry (s.entries.load wrappedEntry)
      if storedTimestamp = timeStamp then do
        let s ← s.takeOut keyHash wrappedEntry itemIndex
        pure s.delhit
      else pure s

/-- `evictDel` removes the entries of the keys that have the timestamp.  The keys are those of a
set, in the order in which it lists them. -/
def evictDel (hasher : Hasher) (s : CacheShard T M) (timeStamp : UInt64) (set : List Key) :
    Go (CacheShard T M) := do
  s.lock
  set.foldlM (evictKey hasher timeStamp) s

/-- The part of `del` under the lock: a slice over the entry that was removed. -/
def delLocked (s : CacheShard T M) (key : Key) (hashedKey : UInt64) :
    Go (CacheShard T M × Except CacheError Slice) := do
  s.lock
  let itemIndex := s.index hashedKey
  if itemIndex = 0 then pure (s.delmiss, .error (.notFound key))
  else
    match ← s.entries.get itemIndex.toNat with
    | .error err => pure (s.delmiss, .error (.queue err))
    | .ok wrappedEntry => pure (← s.takeOut hashedKey wrappedEntry itemIndex, .ok wrappedEntry)

/-- The part of `del` after the lock was released: the timestamp is read through the slice. -/
def delFinish (s : CacheShard T M) (key : Key) (wrappedEntry : Slice) (now : ℕ) :
    Go (CacheShard T M) := do
  let timestamp ← readTimestampFromEntry (s.entries.load wrappedEntry)
  pure { s with ttlTable := s.ttlTable.remove now timestamp key }.delhit

/-- `del` removes the entry of a key. -/
def del (s : CacheShard T M) (key : Key) (hashedKey : UInt64) (now : ℕ) :
    Go (CacheShard T M × Except CacheError Unit) := do
  match ← s.delLocked key hashedKey with
  | (s, .error err) => pure (s, .error err)
  | (s, .ok wrappedEntry) => pure (← s.delFinish key wrappedEntry now, .ok ())

/-- `reset` empties the shard. -/
def reset (s : CacheShard T M) (config : Config) : Go (CacheShard T M) := do
  s.lock
  let _ ← config.initialShardSize
  let entryBuffer ← makeBytes (config.maxEntrySize + Int64.ofNat headersSizeInBytes)
  pure { s with
    hashmap := ∅
    entryBuffer := entryBuffer
    entries := s.entries.reset
    ttlTable := s.ttlTable.reset }

/-- `len`, the number of entries. -/
def len (s : CacheShard T M) : ℕ := s.hashmap.keys.card

end CacheShard

/-! ## Shards that can be evaluated -/

/-- A shard whose trees are sorted lists. -/
abbrev ListShard : Type := CacheShard (SortedAssoc ℤ Ptr) (SortedAssoc UInt64 (Finset Key))

/-- One shard of unlimited size whose array has room for ten bytes, with a callback. -/
def smallConfig : Config := ⟨1, 0, 1, 0, true⟩

/-- A hash function with collisions. -/
def lengthHasher : Hasher := fun key ↦ UInt64.ofNat key.length

end ClusteredBigCache
