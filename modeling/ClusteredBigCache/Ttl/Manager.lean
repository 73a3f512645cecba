import Mathlib.Data.Finset.Insert
import ClusteredBigCache.Lib.Bytes
import ClusteredBigCache.Lib.OrderedMap

/-!
# The expiry index

A `ttlManager` keeps, for each expiry timestamp, the set of keys that expire then, in a tree ordered
by timestamp, and one timer armed for the smallest of them.  `put` and `remove` maintain the two
together; the goroutine `eviction` waits for the timer and takes the smallest timestamp out of the
tree, section by section: `evictionTake` is the section after a fire was received, `evictionNext`
the one at the head of the loop that follows.

The tree is any ordered map from timestamps to sets of keys.  Time is in nanoseconds since the
epoch, and `unix` is `time.Now().Unix()`.  A `Timer` is Go's: while it is active the runtime will
put a token into its channel of capacity one at the time `due`.  Its field `stamp` is a ghost that
remembers the timestamp the last `Reset` was computed from.

`registered_put`, `registered_remove`, `registered_evictionTake` say what the operations do to the
pairs of a timestamp and a key that are recorded.
-/

set_option autoImplicit false

namespace ClusteredBigCache

/-- A Go string. -/
abbrev Key := Bytes

/-- `time.Now().Unix()`, at a time in nanoseconds. -/
def unix (now : ℕ) : Int64 := Int64.ofNat (now / 10 ^ 9)

/-! ## The timer

A timer has one place in its channel.  `Stop` and `Reset` do not empty it, so a token of an earlier
arming may still be there. -/

/-- A timer of the Go runtime. -/
structure Timer where
  /-- The runtime will fire the timer. -/
  active : Bool
  /-- When it will. -/
  due : ℤ
  /-- There is a token in the channel. -/
  fired : Bool
  /-- Ghost: the timestamp the last `Reset` was computed from. -/
  stamp : Option UInt64
  deriving DecidableEq, Repr

namespace Timer

/-- `time.NewTimer(d)`. -/
def new (now : ℕ) (d : ℤ) : Timer := ⟨true, now + d, false, none⟩

/-- The runtime fires the timer. -/
def fire (t : Timer) : Timer := { t with active := false, fired := true }

/-- The token is taken out of the channel. -/
def receive (t : Timer) : Timer := { t with fired := false }

/-- `stopTimer`: stop the timer, and drain the channel when it was not active. -/
def stop (t : Timer) : Timer := if t.active then { t with active := false } else t.receive

/-- The delay `resetTimer` computes: an unsigned difference, multiplied as a signed number. -/
def delay (timeStamp : UInt64) (unix : Int64) : Int64 :=
  let interval := timeStamp - unix.toUInt64
  1000000000 * interval.toInt64

/-- `resetTimer`. -/
def reset (t : Timer) (now : ℕ) (timeStamp : UInt64) : Timer :=
  { t.stop with
    active := true
    due := now + (delay timeStamp (unix now)).toInt
    stamp := some timeStamp }

end Timer

/-! ## The manager -/

/-- The expiry index of a shard. -/
structure TtlManager (M : Type) where
  timeTree : M
  timer : Timer

namespace TtlManager

open OrderedMap

variable {M : Type} [OrderedMap M UInt64 (Finset Key)]

/-- `newTtlManager`: the tree is empty, and the timer runs for ten hours. -/
def new (now : ℕ) : TtlManager M where
  timeTree := empty
  timer := .new now (10 * 3600 * 10 ^ 9)

/-- Arm the timer for a timestamp. -/
def resetTimer (ttl : TtlManager M) (now : ℕ) (timeStamp : UInt64) : TtlManager M :=
  { ttl with timer := ttl.timer.reset now timeStamp }

/-- The smallest timestamp of the tree. -/
def first (ttl : TtlManager M) : Option UInt64 := (peek ttl.timeTree).map Prod.fst

/-- Record a key under a timestamp. -/
def put (ttl : TtlManager M) (now : ℕ) (timestamp : UInt64) (cacheKey : Key) : TtlManager M :=
  match OrderedMap.get ttl.timeTree timestamp with
  | some set => { ttl with timeTree := OrderedMap.put ttl.timeTree timestamp (insert cacheKey set) }
  | none =>
    let ttl := { ttl with timeTree := OrderedMap.put ttl.timeTree timestamp {cacheKey} }
    if size ttl.timeTree = 1 then ttl.resetTimer now timestamp
    -- a timestamp at the head displaced the smallest one
    else if ttl.first = some timestamp then ttl.resetTimer now timestamp
    else ttl

/-- Remove a timestamp and key pair from the tree. -/
def remove (ttl : TtlManager M) (now : ℕ) (timestamp : UInt64) (key : Key) : TtlManager M :=
  match OrderedMap.get ttl.timeTree timestamp with
  | some set =>
    let set := set.erase key
    let ttl := { ttl with timeTree := OrderedMap.put ttl.timeTree timestamp set }
    if set = ∅ then
      if ttl.first = some timestamp then
        let ttl := { ttl with timeTree := OrderedMap.remove ttl.timeTree timestamp }
        match ttl.first with
        | some k => ttl.resetTimer now k
        | none => ttl
      else { ttl with timeTree := OrderedMap.remove ttl.timeTree timestamp }
    else ttl
  | none => ttl

/-- Reset everything to default: the tree is cleared and the timer stopped. -/
def reset (ttl : TtlManager M) : TtlManager M where
  timeTree := empty
  timer := ttl.timer.stop

/-- The section of `eviction` after a fire was received: the smallest timestamp and its keys are
taken out of the tree, unless it is empty. -/
def evictionTake (ttl : TtlManager M) : TtlManager M × Option (UInt64 × Finset Key) :=
  match peek ttl.timeTree with
  | none => (ttl, none)
  | some (key, value) =>
    ({ ttl with timeTree := OrderedMap.remove ttl.timeTree key }, some (key, value))

/-- The section at the head of the inner loop of `eviction`: a timestamp that expires this second
is taken out as well, otherwise the timer is armed for the smallest one and the pass ends. -/
def evictionNext (ttl : TtlManager M) (now : ℕ) : TtlManager M × Option (UInt64 × Finset Key) :=
  match peek ttl.timeTree with
  | none => (ttl, none)
  | some (key, value) =>
    let interval := key - (unix now).toUInt64
    if interval = 0 then
      ({ ttl with timeTree := OrderedMap.remove ttl.timeTree key }, some (key, value))
    else (ttl.resetTimer now key, none)

/-! ## What is recorded -/

/-- The key is recorded under the timestamp. -/
def Registered (ttl : TtlManager M) (t : UInt64) (k : Key) : Prop :=
  ∃ set, OrderedMap.get ttl.timeTree t = some set ∧ k ∈ set

instance (ttl : TtlManager M) (t : UInt64) (k : Key) : Decidable (ttl.Registered t k) :=
  inferInstanceAs (Decidable (∃ set ∈ OrderedMap.get ttl.timeTree t, k ∈ set))

/-- The tree after a key was put. -/
theorem put_timeTree (ttl : TtlManager M) (now : ℕ) (t : UInt64) (k : Key) :
    (ttl.put now t k).timeTree =
      OrderedMap.put ttl.timeTree t (insert k ((OrderedMap.get ttl.timeTree t).getD ∅)) := by
  rw [put]
  cases OrderedMap.get ttl.timeTree t with
  | some set => rfl
  | none =>
    simp only [Option.getD_none, insert_empty_eq]
    split_ifs <;> rfl

/-- The tree after a pair was removed: a timestamp that is left without keys goes. -/
theorem get_remove_timeTree (ttl : TtlManager M) (now : ℕ) (t : UInt64) (k : Key) (t' : UInt64) :
    OrderedMap.get (ttl.remove now t k).timeTree t' =
      if t' = t then
        (OrderedMap.get ttl.timeTree t).bind fun set ↦
          if set.erase k = ∅ then none else some (set.erase k)
      else OrderedMap.get ttl.timeTree t' := by
  rw [remove]
  cases h : OrderedMap.get ttl.timeTree t with
  | none =>
    simp only [Option.bind_none]
    split_ifs with ht
    · rw [ht, h]
    · rfl
  | some set =>
    simp only [Option.bind_some]
    have hgone : OrderedMap.get (OrderedMap.remove
        (OrderedMap.put ttl.timeTree t (set.erase k)) t) t' =
        if t' = t then none else OrderedMap.get ttl.timeTree t' := by
      rw [get_remove, get_put]
      split_ifs <;> rfl
    by_cases he : set.erase k = ∅
    · rw [if_pos he, if_pos he, ← hgone]
      split_ifs
      · split <;> rfl
      · rfl
    · rw [if_neg he, if_neg he, get_put]

/-- **What `put` records.** -/
theorem registered_put {ttl : TtlManager M} {now : ℕ} {t t' : UInt64} {k k' : Key} :
    (ttl.put now t k).Registered t' k' ↔ (t' = t ∧ k' = k) ∨ ttl.Registered t' k' := by
  simp only [Registered, put_timeTree, get_put]
  by_cases ht : t' = t
  · subst ht
    cases h : OrderedMap.get ttl.timeTree t' <;> simp
  · simp [ht]

/-- **What `remove` forgets.** -/
theorem registered_remove {ttl : TtlManager M} {now : ℕ} {t t' : UInt64} {k k' : Key} :
    (ttl.remove now t k).Registered t' k' ↔ ttl.Registered t' k' ∧ ¬ (t' = t ∧ k' = k) := by
  simp only [Registered, get_remove_timeTree]
  by_cases ht : t' = t
  · subst ht
    cases h : OrderedMap.get ttl.timeTree t' with
    | none => simp
    | some set =>
      simp only [if_pos, Option.bind_some, Option.some_inj, true_and, exists_eq_left']
      by_cases he : set.erase k = ∅
      · rw [if_pos he]
        have hk : k' ∈ set → k' = k := fun hk' ↦ by
          by_contra hne
          exact Finset.notMem_empty k' (he ▸ Finset.mem_erase.mpr ⟨hne, hk'⟩)
        simpa using hk
      · rw [if_neg he]
        simp [and_comm]
  · simp [ht]

/-- Taking the smallest timestamp forgets its keys, and they are the ones handed out. -/
theorem registered_evictionTake {ttl ttl' : TtlManager M} {t : UInt64} {set : Finset Key}
    (h : ttl.evictionTake = (ttl', some (t, set))) :
    (∀ k, ttl.Registered t k ↔ k ∈ set) ∧
      ∀ t' k, ttl'.Registered t' k ↔ ttl.Registered t' k ∧ t' ≠ t := by
  rw [evictionTake] at h
  cases hp : peek ttl.timeTree with
  | none => simp [hp] at h
  | some p =>
    obtain ⟨key, value⟩ := p
    simp only [hp, Prod.mk.injEq, Option.some_inj] at h
    obtain ⟨rfl, rfl, rfl⟩ := h
    refine ⟨fun k ↦ by simp [Registered, get_of_peek hp], fun t' k ↦ ?_⟩
    by_cases ht : t' = key <;> simp [Registered, get_remove, ht]

end TtlManager
end ClusteredBigCache
