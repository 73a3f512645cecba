import Mathlib.Algebra.Order.BigOperators.Group.List
import ClusteredBigCache.Cache.KeyValue

/-!
# The hard limit on memory

`HardMaxCacheSize` is a number of megabytes.  Divided by the number of shards it becomes the maximum
capacity of the queue of each shard, which `Push` respects whenever it grows the array.  Two things
are out of its reach: a quotient of zero means that there is no limit, and the array a queue starts
with is as large as other settings say.

`limit_respected_iff` is exact: the capacities of all shards together stay within the limit in every
run if and only if the quotient is positive and the first arrays fit.  It does not need the queues
to be in good shape: whatever the contents, nothing but `Push` changes a capacity (`SameSize`), and
`Push` keeps it below the larger of the old capacity and the maximum (`Within.push`).
`limit_exceeded` is a configuration that is over the limit from the start.
-/

set_option autoImplicit false

namespace ClusteredBigCache

/-! ## What changes the capacity of a queue

These lemmas ask for no invariant.  A call that returns has either left the capacity alone or grown
the array by way of `allocateAdditionalMemory`, in whatever state the queue was. -/

namespace BytesQueue

variable {T : Type}

/-- Neither the capacity nor its maximum has changed. -/
def SameSize (q q' : BytesQueue T) : Prop :=
  q'.capacity = q.capacity ∧ q'.maxCapacity = q.maxCapacity

theorem SameSize.rfl {q : BytesQueue T} : SameSize q q := ⟨.refl _, .refl _⟩

theorem SameSize.trans {q q' q'' : BytesQueue T} (h : SameSize q q') (h' : SameSize q' q'') :
    SameSize q q'' := ⟨h'.1.trans h.1, h'.2.trans h.2⟩

variable {q q' : BytesQueue T} {data : Bytes}

theorem sameSize_of_copy (h : q.copy data = .ok q') : SameSize q q' := by
  rw [copy] at h
  split_ifs at h
  obtain rfl := Except.ok.inj h
  exact .rfl

theorem sameSize_of_push (h : q.push data = .ok q') : SameSize q q' := by
  simp only [push, Go.bind_eq_ok] at h
  obtain ⟨q₁, h₁, q₂, h₂, h⟩ := h
  obtain rfl := Except.ok.inj h
  refine (sameSize_of_copy h₁).trans ((sameSize_of_copy h₂).trans ?_)
  split_ifs <;> exact .rfl

theorem sameSize_of_pushFree {idx : ℤ} {i : ℕ} (h : q.pushFree idx data = .ok (q', i)) :
    SameSize q q' := by
  rw [pushFree] at h
  split_ifs at h
  simp only [Go.bind_eq_ok] at h
  obtain ⟨q₁, h₁, q₂, h₂, h⟩ := h
  obtain ⟨rfl, -⟩ := Prod.mk.inj (Except.ok.inj h)
  obtain ⟨hcap, hmax⟩ := (sameSize_of_copy h₁).trans (sameSize_of_copy h₂)
  exact ⟨hcap, hmax⟩

theorem sameSize_of_allocate {need : ℕ} (h : q.allocateAdditionalMemory need = .ok q') :
    SameSize { q with capacity := q.grownCapacity need } q' := by
  rw [allocateAdditionalMemory] at h
  simp only at h
  split_ifs at h
  · obtain rfl := Except.ok.inj h
    exact .rfl
  · simp only [Go.bind_eq_ok] at h
    obtain ⟨q₁, h₁, h⟩ := h
    obtain rfl := Except.ok.inj h
    obtain ⟨hcap, hmax⟩ := sameSize_of_push h₁
    exact ⟨hcap, hmax⟩
  · obtain rfl := Except.ok.inj h
    exact .rfl

/-- The capacity is limited, and neither it nor its limit is above a bound. -/
structure Within (n : ℕ) (q : BytesQueue T) : Prop where
  limited : 0 < q.maxCapacity
  max_le : q.maxCapacity ≤ n
  le : q.capacity ≤ n

theorem SameSize.within {n : ℕ} (h : SameSize q q') (hw : q.Within n) : q'.Within n :=
  ⟨h.2 ▸ hw.limited, h.2 ▸ hw.max_le, h.1 ▸ hw.le⟩

theorem Within.grown {n need : ℕ} (hw : q.Within n) (h : q.allocateAdditionalMemory need = .ok q') :
    q'.Within n := by
  refine (sameSize_of_allocate h).within ⟨hw.limited, hw.max_le, ?_⟩
  have hlimited := hw.limited
  have hmax := hw.max_le
  simp only [grownCapacity]
  split_ifs <;> omega

theorem Within.makeRoom {n need : ℕ} (hw : q.Within n) (h : q.makeRoom need = .ok (.ok q')) :
    q'.Within n := by
  rw [BytesQueue.makeRoom] at h
  split_ifs at h
  · obtain rfl := Except.ok.inj (Except.ok.inj h)
    exact ⟨hw.limited, hw.max_le, hw.le⟩
  · cases Except.ok.inj h
  · obtain ⟨q₁, h₁, h⟩ := Go.bind_eq_ok.mp h
    obtain rfl := Except.ok.inj (Except.ok.inj h)
    exact hw.grown h₁
  · obtain rfl := Except.ok.inj (Except.ok.inj h)
    exact hw

/-- **`Push` respects the limit**, in whatever state the queue is. -/
theorem Within.push [OrderedMap T ℤ Ptr] {n : ℕ} {r : Except QueueError ℕ} (hw : q.Within n)
    (h : q.Push data = .ok (q', r)) : q'.Within n := by
  have hw₁ : ({ q with freelist := (q.freelist.find (data.length + headerEntrySize : ℕ)).1 } :
      BytesQueue T).Within n := ⟨hw.limited, hw.max_le, hw.le⟩
  unfold Push at h
  simp only at h
  split_ifs at h
  · obtain ⟨p, hp, h⟩ := Go.bind_eq_ok.mp h
    obtain ⟨rfl, -⟩ := Prod.mk.inj (Except.ok.inj h)
    exact (sameSize_of_pushFree hp).within hw₁
  · obtain ⟨p, hp, h⟩ := Go.bind_eq_ok.mp h
    cases p with
    | error e =>
      obtain ⟨rfl, -⟩ := Prod.mk.inj (Except.ok.inj h)
      exact hw₁
    | ok q₁ =>
      obtain ⟨q₂, hq₂, h⟩ := Go.bind_eq_ok.mp h
      obtain ⟨rfl, -⟩ := Prod.mk.inj (Except.ok.inj h)
      have hw₂ := (sameSize_of_push hq₂).within (hw₁.makeRoom hp)
      exact ⟨hw₂.limited, hw₂.max_le, hw₂.le⟩

theorem sameSize_store (q : BytesQueue T) (v : Slice) (off : ℕ) (src : Bytes) :
    SameSize q (q.store v off src) := by
  rw [store]
  split_ifs <;> exact .rfl

theorem sameSize_of_delete [OrderedMap T ℤ Ptr] {index : ℤ} {r : Except QueueError Unit}
    (h : q.delete index = .ok (q', r)) : SameSize q q' := by
  obtain ⟨p, -, h⟩ := Go.bind_eq_ok.mp h
  cases p with
  | error e =>
    obtain ⟨rfl, -⟩ := Prod.mk.inj (Except.ok.inj h)
    exact .rfl
  | ok p =>
    obtain ⟨rfl, -⟩ := Prod.mk.inj (Except.ok.inj h)
    exact .rfl

end BytesQueue

/-! ## What the calls on a shard do to the capacity -/

namespace CacheShard

open BytesQueue (SameSize Within sameSize_store sameSize_of_delete)

variable {T M : Type} {s s' : CacheShard T M} {key : Key} {hashedKey : UInt64} {now : ℕ}

theorem entries_of_notify {v : Slice} (h : s.notify v = .ok s') : s'.entries = s.entries := by
  rw [notify] at h
  split_ifs at h
  · simp only [Go.bind_eq_ok] at h
    obtain ⟨k, -, e, -, h⟩ := h
    obtain rfl := Except.ok.inj h
    rfl
  · obtain rfl := Except.ok.inj h
    rfl

theorem sameSize_of_get {r : Except CacheError Bytes} (h : s.get key hashedKey = .ok (s', r)) :
    SameSize s.entries s'.entries := by
  obtain ⟨⟨s₁, res⟩, h₁, h⟩ := Go.bind_eq_ok.mp h
  have hview : SameSize s.entries s₁.entries := by
    obtain ⟨-, -, h₁⟩ := Go.bind_eq_ok.mp h₁
    simp only at h₁
    split_ifs at h₁
    · obtain ⟨rfl, -⟩ := Prod.mk.inj (Except.ok.inj h₁)
      exact .rfl
    · obtain ⟨p, -, h₁⟩ := Go.bind_eq_ok.mp h₁
      cases p with
      | error e =>
        obtain ⟨rfl, -⟩ := Prod.mk.inj (Except.ok.inj h₁)
        exact .rfl
      | ok slice =>
        obtain ⟨k, -, h₁⟩ := Go.bind_eq_ok.mp h₁
        split_ifs at h₁
        all_goals
          obtain ⟨rfl, -⟩ := Prod.mk.inj (Except.ok.inj h₁)
          exact .rfl
  cases res with
  | error e =>
    obtain ⟨rfl, -⟩ := Prod.mk.inj (Except.ok.inj h)
    exact hview
  | ok slice =>
    obtain ⟨e, -, h⟩ := Go.bind_eq_ok.mp h
    obtain ⟨rfl, -⟩ := Prod.mk.inj (Except.ok.inj h)
    exact hview

variable [OrderedMap T ℤ Ptr]

theorem sameSize_of_free {v : Slice} {i : UInt32} (h : s.free v i = .ok s') :
    SameSize s.entries s'.entries := by
  obtain ⟨q, hq, h⟩ := Go.bind_eq_ok.mp h
  obtain ⟨p, hp, h⟩ := Go.bind_eq_ok.mp h
  obtain rfl := Except.ok.inj h
  rw [resetKeyFromEntry] at hq
  split_ifs at hq
  obtain rfl := Except.ok.inj hq
  exact (sameSize_store _ _ _ _).trans (sameSize_of_delete hp)

theorem sameSize_of_takeOut {v : Slice} {i : UInt32} (h : s.takeOut hashedKey v i = .ok s') :
    SameSize s.entries s'.entries := by
  obtain ⟨s₁, h₁, h⟩ := Go.bind_eq_ok.mp h
  have hfree := sameSize_of_free h
  rwa [entries_of_notify h₁] at hfree

theorem sameSize_of_evictKey {hasher : Hasher} {t : UInt64} {v : Key}
    (h : evictKey hasher t s v = .ok s') : SameSize s.entries s'.entries := by
  unfold evictKey at h
  simp only at h
  split_ifs at h
  · obtain rfl := Except.ok.inj h
    exact .rfl
  · obtain ⟨p, -, h⟩ := Go.bind_eq_ok.mp h
    cases p with
    | error e =>
      obtain rfl := Except.ok.inj h
      exact .rfl
    | ok slice =>
      obtain ⟨t', -, h⟩ := Go.bind_eq_ok.mp h
      split_ifs at h
      · obtain ⟨s₁, h₁, h⟩ := Go.bind_eq_ok.mp h
        obtain rfl := Except.ok.inj h
        have htaken := sameSize_of_takeOut h₁
        exact htaken
      · obtain rfl := Except.ok.inj h
        exact .rfl

theorem sameSize_of_evictDel {hasher : Hasher} {t : UInt64} {keys : List Key}
    (h : evictDel hasher s t keys = .ok s') : SameSize s.entries s'.entries := by
  obtain ⟨-, -, hloop⟩ := Go.bind_eq_ok.mp h
  clear h
  induction keys generalizing s with
  | nil =>
    obtain rfl := Except.ok.inj hloop
    exact .rfl
  | cons v keys ih =>
    rw [List.foldlM_cons] at hloop
    obtain ⟨s₁, h₁, hloop⟩ := Go.bind_eq_ok.mp hloop
    exact (sameSize_of_evictKey h₁).trans (ih hloop)

theorem sameSize_of_delLocked {r : Except CacheError Slice}
    (h : s.delLocked key hashedKey = .ok (s', r)) : SameSize s.entries s'.entries := by
  obtain ⟨-, -, h⟩ := Go.bind_eq_ok.mp h
  simp only at h
  split_ifs at h
  · obtain ⟨rfl, -⟩ := Prod.mk.inj (Except.ok.inj h)
    exact .rfl
  · obtain ⟨p, -, h⟩ := Go.bind_eq_ok.mp h
    cases p with
    | error e =>
      obtain ⟨rfl, -⟩ := Prod.mk.inj (Except.ok.inj h)
      exact .rfl
    | ok slice =>
      obtain ⟨s₁, h₁, h⟩ := Go.bind_eq_ok.mp h
      obtain ⟨rfl, -⟩ := Prod.mk.inj (Except.ok.inj h)
      exact sameSize_of_takeOut h₁

variable [OrderedMap M UInt64 (Finset Key)]

theorem sameSize_of_del {r : Except CacheError Unit} (h : s.del key hashedKey now = .ok (s', r)) :
    SameSize s.entries s'.entries := by
  obtain ⟨⟨s₁, res⟩, h₁, h⟩ := Go.bind_eq_ok.mp h
  have hlocked := sameSize_of_delLocked h₁
  cases res with
  | error e =>
    obtain ⟨rfl, -⟩ := Prod.mk.inj (Except.ok.inj h)
    exact hlocked
  | ok slice =>
    obtain ⟨s₂, h₂, h⟩ := Go.bind_eq_ok.mp h
    obtain ⟨t, -, h₂⟩ := Go.bind_eq_ok.mp h₂
    obtain rfl := Except.ok.inj h₂
    obtain ⟨rfl, -⟩ := Prod.mk.inj (Except.ok.inj h)
    exact hlocked

theorem sameSize_of_dropPrevious (h : s.dropPrevious key hashedKey now = .ok s') :
    SameSize s.entries s'.entries := by
  rw [dropPrevious] at h
  split_ifs at h
  · obtain ⟨p, -, h⟩ := Go.bind_eq_ok.mp h
    cases p with
    | error e =>
      obtain rfl := Except.ok.inj h
      exact .rfl
    | ok slice =>
      obtain ⟨t, -, h⟩ := Go.bind_eq_ok.mp h
      have hfree := sameSize_of_free h
      exact hfree
  · obtain rfl := Except.ok.inj h
    exact .rfl

theorem within_of_setLocked {n : ℕ} {entry : Bytes} {t : UInt64} {stored : Bool}
    (hw : s.entries.Within n) (h : s.setLocked key hashedKey entry t now = .ok (s', stored)) :
    s'.entries.Within n := by
  obtain ⟨-, -, h⟩ := Go.bind_eq_ok.mp h
  obtain ⟨s₁, h₁, h⟩ := Go.bind_eq_ok.mp h
  obtain ⟨⟨q, res⟩, hq, h⟩ := Go.bind_eq_ok.mp h
  have hw' := ((sameSize_of_dropPrevious h₁).within hw).push hq
  cases res with
  | error e =>
    obtain ⟨rfl, -⟩ := Prod.mk.inj (Except.ok.inj h)
    exact hw'
  | ok i =>
    obtain ⟨rfl, -⟩ := Prod.mk.inj (Except.ok.inj h)
    exact hw'

/-- **`set` respects the limit of a shard.** -/
theorem within_of_set {n : ℕ} {entry : Bytes} {duration : Int64} {r : Except CacheError UInt64}
    (hw : s.entries.Within n) (h : s.set key hashedKey entry duration now = .ok (s', r)) :
    s'.entries.Within n := by
  obtain ⟨⟨s₁, stored⟩, h₁, h⟩ := Go.bind_eq_ok.mp h
  have hw' := within_of_setLocked hw h₁
  simp only at h
  split_ifs at h
  all_goals
    obtain ⟨rfl, -⟩ := Prod.mk.inj (Except.ok.inj h)
    exact hw'

/-- Without a limit, a shard stores an entry of any size. -/
theorem Rep.lt_capacity_of_set {m : Table} (hr : s.Rep m) (hmax : s.entries.maxCapacity ≤ 0)
    (key : Key) (hashedKey : UInt64) (entry : Bytes) (duration : Int64) (now : ℕ) :
    ∃ s' r, s.set key hashedKey entry duration now = .ok (s', r) ∧
      entry.length < s'.entries.capacity := by
  obtain ⟨s', r, hset, ho⟩ := hr.set_cases key entry duration now (h := hashedKey)
  refine ⟨s', r, hset, ?_⟩
  obtain ⟨hunlocked, -⟩ := ho.unlocked hr hmax
  cases ho with
  | full => cases hunlocked
  | stored hv ho =>
    have hinv := (hv.stores hr).inv
    obtain ⟨hend, -⟩ := ho.end_le hinv
    rw [ho.length_eq hinv, Entry.data, length_wrapped] at hend
    dsimp only at hend ⊢
    omega

end CacheShard

/-! ## The limit of a cache -/

/-- What it takes for the limit to be respected: there is a limit for each shard, and the arrays the
shards start with fit. -/
def Config.LimitFits (c : Config) : Prop :=
  match c.initialShardSize, c.maximumShardSize with
  | .ok size, .ok maxShardSize => 0 < maxShardSize ∧
    c.shards.toInt * (size * c.maxEntrySize).toInt ≤ c.hardMaxCacheSize.toInt * 1024 * 1024
  | _, _ => False

theorem Config.limitFits_iff {c : Config} {size maxShardSize : Int64}
    (hsize : c.initialShardSize = .ok size) (hmax : c.maximumShardSize = .ok maxShardSize) :
    c.LimitFits ↔ 0 < maxShardSize ∧
      c.shards.toInt * (size * c.maxEntrySize).toInt ≤ c.hardMaxCacheSize.toInt * 1024 * 1024 := by
  rw [LimitFits, hsize, hmax]

namespace BigCache

variable {T M : Type}

/-- The capacities of the queues of all shards together. -/
def totalCapacity (c : BigCache T M) : ℕ := (c.shards.map fun s ↦ s.entries.capacity).sum

/-- There are so many shards, and none is above a bound. -/
structure Within (k n : ℕ) (c : BigCache T M) : Prop where
  length_eq : c.shards.length = k
  within : ∀ s ∈ c.shards, s.entries.Within n

variable {k n : ℕ} {c c' : BigCache T M}

theorem Within.totalCapacity_le (hw : c.Within k n) : c.totalCapacity ≤ k * n := by
  have hle : ∀ x ∈ c.shards.map fun s ↦ s.entries.capacity, x ≤ n := by
    simpa using fun s hs ↦ (hw.within s hs).le
  simpa [totalCapacity, hw.length_eq] using List.sum_le_card_nsmul _ n hle

theorem Within.replace (hw : c.Within k n) {s : CacheShard T M} (hs : s.entries.Within n) (i : ℕ) :
    ({ c with shards := c.shards.set i s } : BigCache T M).Within k n where
  length_eq := by simpa using hw.length_eq
  within s' hs' := by
    rcases List.mem_or_eq_of_mem_set hs' with hs' | rfl
    · exact hw.within s' hs'
    · exact hs

variable [OrderedMap T ℤ Ptr] [OrderedMap M UInt64 (Finset Key)]

/-- A cache under any sequence of calls. -/
def calls (c : BigCache T M) : TransitionSystem (BigCache T M) Op := .ofStep (· = c) call

/-- **Every call respects the limit.** -/
theorem Within.call (hw : c.Within k n) {op : Op} (hstep : c.call op = some c') :
    c'.Within k n := by
  obtain ⟨s, s', hs, hpassed, rfl⟩ := call_cases hstep
  have hws := hw.within s (List.mem_of_getElem? hs)
  refine hw.replace ?_ _
  cases hpassed with
  | set h => exact CacheShard.within_of_set hws h
  | get h => exact (CacheShard.sameSize_of_get h).within hws
  | delete h => exact (CacheShard.sameSize_of_del h).within hws
  | evict _ _ h => exact (CacheShard.sameSize_of_evictDel h).within hws

theorem Within.run (hw : c.Within k n) {ls : List Op} (hr : c.calls.Run ls c') :
    c'.Within k n := by
  refine hr.invariant ?_ fun _ _ _ hw hstep ↦ hw.call hstep
  rintro _ rfl
  exact hw

variable {config : Config} {hasher : Option Hasher} {now : ℕ}

/-- With a limit there is at least one shard, as the limit is divided by the number of shards. -/
theorem one_le_shards (hc : newBigCache config hasher now = .ok (.ok c))
    (hM : 0 < config.hardMaxCacheSize) : 1 ≤ config.shards := by
  rw [newBigCache] at hc
  split_ifs at hc with hpow hneg
  · obtain ⟨maxShardSize, hmax, -⟩ := Go.bind_eq_ok.mp hc
    rw [Config.maximumShardSize, if_pos hM, divInt] at hmax
    split_ifs at hmax with hzero
    have hone : Int64.toInt 1 = 1 := rfl
    have hz : Int64.toInt 0 = 0 := rfl
    rw [← Int64.toInt_inj, hz] at hzero
    rw [Int64.lt_iff_toInt_lt, hz] at hneg
    rw [Int64.le_iff_toInt_le, hone]
    omega
  · cases Except.ok.inj hc

/-- **What a new cache starts with**, when there is a limit. -/
theorem newBigCache_sizes (hc : newBigCache config hasher now = .ok (.ok c))
    (hM : 0 < config.hardMaxCacheSize) :
    ∃ size maxShardSize, config.initialShardSize = .ok size ∧
      config.maximumShardSize = .ok maxShardSize ∧ 0 ≤ size * config.maxEntrySize ∧
      ∀ s ∈ c.shards, s.Rep (fun _ ↦ none) ∧ s.entries =
        BytesQueue.new (size * config.maxEntrySize).toInt.toNat maxShardSize.toInt := by
  obtain ⟨-, -, -, -, hmask, hlen, hall⟩ := newBigCache_spec hc
  have hpos : 0 < c.shards.length := by
    rw [hlen]
    exact (Nat.zero_le _).trans_lt (mask_lt (one_le_shards hc hM))
  have hfirst := hall _ (List.getElem_mem hpos)
  obtain ⟨hrep, size, maxShardSize, hsize, hnonneg, hmax, hentries⟩ :=
    CacheShard.initNewShard_spec hfirst
  refine ⟨size, maxShardSize, hsize, hmax, hnonneg, fun s hs ↦ ?_⟩
  -- all shards are made by the same call
  obtain rfl : c.shards[0] = s := Except.ok.inj (hfirst.symm.trans (hall s hs))
  exact ⟨hrep, hentries⟩

/-- The capacity of a new cache. -/
theorem totalCapacity_new (hc : newBigCache config hasher now = .ok (.ok c))
    (hM : 0 < config.hardMaxCacheSize) {size : Int64} (hsize : config.initialShardSize = .ok size) :
    (c.totalCapacity : ℤ) = config.shards.toInt * (size * config.maxEntrySize).toInt := by
  obtain ⟨size', maxShardSize, hsize', -, hnonneg, hall⟩ := newBigCache_sizes hc hM
  obtain rfl : size = size' := Except.ok.inj (hsize.symm.trans hsize')
  obtain ⟨-, hshards, -, -, -, hlen, -⟩ := newBigCache_spec hc
  have hmap : c.shards.map (fun s ↦ s.entries.capacity) =
      List.replicate c.shards.length (size * config.maxEntrySize).toInt.toNat := by
    rw [← List.map_const']
    exact List.map_congr_left fun s hs ↦ congrArg BytesQueue.capacity (hall s hs).2
  have hshards : 0 ≤ config.shards.toInt := Int64.le_iff_toInt_le.mp hshards
  have hnonneg : 0 ≤ (size * config.maxEntrySize).toInt := Int64.le_iff_toInt_le.mp hnonneg
  rw [totalCapacity, hmap, List.sum_replicate_nat, hlen, Nat.cast_mul,
    Int.toNat_of_nonneg hshards, Int.toNat_of_nonneg hnonneg]

/-- When the limit of a shard is not positive, one large value takes the cache over the limit. -/
theorem exists_call_lt_totalCapacity (hc : newBigCache config hasher now = .ok (.ok c))
    (hM : 0 < config.hardMaxCacheSize) {maxShardSize : Int64}
    (hmax : config.maximumShardSize = .ok maxShardSize) (hle : maxShardSize ≤ 0) (n : ℕ) :
    ∃ op c', c.call op = some c' ∧ n < c'.totalCapacity := by
  obtain ⟨size, maxShardSize', -, hmax', -, hall⟩ := newBigCache_sizes hc hM
  obtain rfl : maxShardSize = maxShardSize' := Except.ok.inj (hmax.symm.trans hmax')
  obtain ⟨-, -, -, -, hmask, hlen, -⟩ := newBigCache_spec hc
  have hlt : c.shardMask.toNat < c.shards.length := by
    rw [hmask, hlen]
    exact mask_lt (one_le_shards hc hM)
  obtain ⟨s, hget, hs⟩ := getShard_of_mask hlt (c.hash [])
  obtain ⟨hrep, hentries⟩ := hall s (List.mem_of_getElem? hs)
  have hunlimited : s.entries.maxCapacity ≤ 0 := by
    rw [hentries]
    exact Int64.le_iff_toInt_le.mp hle
  obtain ⟨s', r, hset, hbig⟩ :=
    hrep.lt_capacity_of_set hunlimited [] (c.hash []) (List.replicate n 0) 0 0
  refine ⟨.set [] (List.replicate n 0) 0 0, _, call_of_set hget hset, ?_⟩
  have hmem : s' ∈ (c.putShard (c.hash []) s').shards :=
    List.mem_set (List.getElem?_eq_some_iff.mp hs).1 s'
  rw [List.length_replicate] at hbig
  exact hbig.trans_le (List.single_le_sum (by simp) _ (List.mem_map_of_mem hmem))

/-- A new cache with a limit for each shard is within the larger of that limit and the size the
shards start with. -/
theorem within_new (hc : newBigCache config hasher now = .ok (.ok c))
    (hM : 0 < config.hardMaxCacheSize) {size maxShardSize : Int64}
    (hsize : config.initialShardSize = .ok size) (hmax : config.maximumShardSize = .ok maxShardSize)
    (hpos : 0 < maxShardSize) : c.Within config.shards.toInt.toNat
      (max (size * config.maxEntrySize).toInt maxShardSize.toInt).toNat := by
  obtain ⟨size', maxShardSize', hsize', hmax', -, hall⟩ := newBigCache_sizes hc hM
  obtain rfl : size = size' := Except.ok.inj (hsize.symm.trans hsize')
  obtain rfl : maxShardSize = maxShardSize' := Except.ok.inj (hmax.symm.trans hmax')
  obtain ⟨-, -, -, -, -, hlen, -⟩ := newBigCache_spec hc
  have hpos : 0 < maxShardSize.toInt := Int64.lt_iff_toInt_lt.mp hpos
  refine ⟨hlen, fun s hs ↦ ?_⟩
  rw [(hall s hs).2]
  refine ⟨hpos, ?_, ?_⟩ <;> dsimp only [BytesQueue.new] <;> omega

/-- **The hard limit** is respected in every run if and only if it leaves something for each shard
and the arrays the shards start with fit. -/
theorem limit_respected_iff (hc : newBigCache config hasher now = .ok (.ok c))
    (hM : 0 < config.hardMaxCacheSize) :
    (∀ ls c', c.calls.Run ls c' →
      (c'.totalCapacity : ℤ) ≤ config.hardMaxCacheSize.toInt * 1024 * 1024) ↔
      config.LimitFits := by
  obtain ⟨size, maxShardSize, hsize, hmax, -, -⟩ := newBigCache_sizes hc hM
  rw [Config.limitFits_iff hsize hmax]
  constructor
  · intro hall
    refine ⟨?_, ?_⟩
    · by_contra hnot
      obtain ⟨op, c', hstep, hlt⟩ := exists_call_lt_totalCapacity hc hM hmax
        (Int64.not_lt.mp hnot) (config.hardMaxCacheSize.toInt * 1024 * 1024).toNat
      have hle := hall _ c' (.snoc (.start rfl) hstep)
      omega
    · rw [← totalCapacity_new hc hM hsize]
      exact hall [] c (.start rfl)
  · rintro ⟨hpos, hfits⟩ ls c' hr
    have hshards := (newBigCache_spec hc).2.1
    have hw := (within_new hc hM hsize hmax hpos).run hr
    have hbound := Config.shards_mul_le hM hmax hpos hshards
    have hpos : 0 < maxShardSize.toInt := Int64.lt_iff_toInt_lt.mp hpos
    have hshards : 0 ≤ config.shards.toInt := Int64.le_iff_toInt_le.mp hshards
    calc (c'.totalCapacity : ℤ)
        ≤ config.shards.toInt * max (size * config.maxEntrySize).toInt maxShardSize.toInt := by
          have htotal := Int.ofNat_le.mpr hw.totalCapacity_le
          rwa [Nat.cast_mul, Int.toNat_of_nonneg hshards, Int.toNat_of_nonneg (by omega)] at htotal
      _ ≤ config.hardMaxCacheSize.toInt * 1024 * 1024 := by
          rcases max_choice (size * config.maxEntrySize).toInt maxShardSize.toInt with h | h
          · rwa [h]
          · rwa [h]

/-- One shard with a limit of one megabyte, whose array has room for ten bytes at first. -/
theorem limit_respected_one :
    ∃ c : BigCache (SortedAssoc ℤ Ptr) (SortedAssoc UInt64 (Finset Key)),
      newBigCache ⟨1, 0, 1, 1, true⟩ none 0 = .ok (.ok c) ∧
      ∀ ls c', c.calls.Run ls c' → (c'.totalCapacity : ℤ) ≤ 1048576 := by
  refine Exists.imp (fun c hc ↦ ⟨hc, ?_⟩) ⟨_, rfl⟩
  exact (limit_respected_iff hc (by decide)).mpr ⟨by decide, by decide⟩

/-- **The default settings with a limit of a hundred megabytes** make a cache that starts out with
three hundred million bytes. -/
theorem limit_exceeded :
    ∃ c : BigCache (SortedAssoc ℤ Ptr) (SortedAssoc UInt64 (Finset Key)),
      newBigCache { Config.defaultConfig with hardMaxCacheSize := 100 } none 0 = .ok (.ok c) ∧
      ∃ ls c', c.calls.Run ls c' ∧ c'.totalCapacity = 300000000 ∧
        ¬ (c'.totalCapacity : ℤ) ≤ 100 * 1024 * 1024 := by
  refine Exists.imp (fun c hc ↦ ⟨hc, [], c, .start rfl, ?_⟩) ⟨_, rfl⟩
  have htotal := totalCapacity_new hc (by decide)
    (show Config.initialShardSize _ = .ok 37500 by decide)
  have hsizes : Int64.toInt 16 * (37500 * 500 : Int64).toInt = 300000000 := by decide
  have heq : (c.totalCapacity : ℤ) = 300000000 := htotal.trans hsizes
  omega

end BigCache
end ClusteredBigCache
