import ClusteredBigCache.Shard.Refinement

/-!
# Calls on a shard, one after the other

`Op` lists the calls the cache makes on one of its shards, and `perform` makes one of them.  A call
takes the table that the shard represents to the one `Table.apply` says (`Rep.perform`), and so
every shard that such calls can lead to represents a table: `representation` spells out what that
means for the hash table and the queue.
-/

set_option autoImplicit false

namespace ClusteredBigCache
namespace CacheShard

variable {T M : Type} [OrderedMap T ℤ Ptr] [OrderedMap M UInt64 (Finset Key)]

/-- The calls on a shard. -/
inductive Op
  | set (key : Key) (entry : Bytes) (duration : Int64) (now : ℕ)
  | get (key : Key)
  | del (key : Key) (now : ℕ)
  | evictDel (timeStamp : UInt64) (set : List Key)

/-- Make a call, provided that it returns, that a `set` stores its entry under a key that is not too
long, and that positions in the queue still fit thirty-two bits afterwards. -/
def perform (hasher : Hasher) (s : CacheShard T M) : Op → Option (CacheShard T M)
  | .set key entry duration now =>
    match s.set key (hasher key) entry duration now with
    | .ok (s', _) =>
      if key.length ≤ maxKeyLength ∧ s'.locked = false ∧ s'.entries.array.length < 2 ^ 32 then
        some s'
      else none
    | .error _ => none
  | .get key => (s.get key (hasher key)).toOption.map Prod.fst
  | .del key now => (s.del key (hasher key) now).toOption.map Prod.fst
  | .evictDel timeStamp set => (evictDel hasher s timeStamp set).toOption

end CacheShard

/-- What a call does to the table. -/
def Table.apply (hasher : Hasher) (m : Table) : CacheShard.Op → Table
  | .set key entry duration now =>
    Function.update m (hasher key)
      (some ⟨key, entry, CacheShard.expiryTimestamp now duration⟩)
  | .get _ => m
  | .del key _ => Function.update m (hasher key) none
  | .evictDel timeStamp set => set.foldl (Table.evictKey hasher timeStamp) m

namespace CacheShard

variable {T M : Type} [OrderedMap T ℤ Ptr] [OrderedMap M UInt64 (Finset Key)]

section

variable {s s' : CacheShard T M} {m : Table} {h : UInt64}

/-- `del` takes the entry out of the table, if there is one. -/
theorem Rep.del {key : Key} {now : ℕ} (hr : s.Rep m) {r : Except CacheError Unit}
    (hok : s.del key h now = .ok (s', r)) :
    s'.Rep (Function.update m h none) ∧
      s'.entries.maxCapacity = s.entries.maxCapacity := by
  cases hm : m h with
  | none =>
    rw [hr.del_of_none hm] at hok
    obtain ⟨rfl, -⟩ := Prod.mk.inj (Except.ok.inj hok)
    rw [Function.update_eq_self_iff.mpr hm.symm]
    exact ⟨hr.congr rfl rfl rfl, rfl⟩
  | some e =>
    obtain ⟨i, hb⟩ := hr.block hm
    rw [(hb.readable hr).del] at hok
    cases hcb : e.callback s.onRemove h with
    | error f => rw [hcb] at hok; cases hok
    | ok cb =>
      rw [hcb] at hok
      obtain ⟨rfl, -⟩ := Prod.mk.inj (Except.ok.inj hok)
      exact ⟨hb.rep_freed hr rfl rfl rfl, rfl⟩

/-- **What it takes to make a call.** -/
theorem perform_cases {hasher : Hasher} {op : Op} (hstep : perform hasher s op = some s') :
    match op with
    | .set key entry duration now =>
      ∃ r, s.set key (hasher key) entry duration now = .ok (s', r) ∧ key.length ≤ maxKeyLength ∧
        s'.locked = false ∧ s'.entries.array.length < 2 ^ 32
    | .get key => ∃ r, s.get key (hasher key) = .ok (s', r)
    | .del key now => ∃ r, s.del key (hasher key) now = .ok (s', r)
    | .evictDel timeStamp set => evictDel hasher s timeStamp set = .ok s' := by
  unfold perform at hstep
  cases op with
  | set key entry duration now =>
    simp only at hstep ⊢
    cases hset : s.set key (hasher key) entry duration now with
    | error f => simp [hset] at hstep
    | ok p =>
      simp only [hset, Option.ite_none_right_eq_some, Option.some_inj] at hstep
      obtain ⟨hguard, rfl⟩ := hstep
      exact ⟨p.2, rfl, hguard⟩
  | get key =>
    obtain ⟨p, hp, rfl⟩ := Option.map_eq_some_iff.mp hstep
    exact ⟨p.2, Go.toOption_eq_some.mp hp⟩
  | del key now =>
    obtain ⟨p, hp, rfl⟩ := Option.map_eq_some_iff.mp hstep
    exact ⟨p.2, Go.toOption_eq_some.mp hp⟩
  | evictDel timeStamp set => exact Go.toOption_eq_some.mp hstep

/-- **A call takes the table to the table after the call.** -/
theorem Rep.perform {hasher : Hasher} {op : Op} (hr : s.Rep m)
    (hstep : perform hasher s op = some s') : s'.Rep (m.apply hasher op) := by
  have hcases := perform_cases hstep
  cases op with
  | set key entry duration now =>
    obtain ⟨r, hset, -, hunlocked, hsmall⟩ := hcases
    obtain ⟨s₁, r₁, hset₁, ho⟩ := hr.set_cases key entry duration now (h := hasher key)
    obtain ⟨rfl, rfl⟩ := Prod.mk.inj (Except.ok.inj (hset₁.symm.trans hset))
    exact ho.rep hr hunlocked (.inl hsmall)
  | get key =>
    obtain ⟨r, hget⟩ := hcases
    exact (hr.of_get hget).1
  | del key now =>
    obtain ⟨r, hdel⟩ := hcases
    exact (hr.del hdel).1
  | evictDel timeStamp set => exact (hr.evictDel hcases).1

/-- **A new shard** represents the empty table, and its queue has the sizes that the configuration
says. -/
theorem initNewShard_spec {config : Config} {now : ℕ} (hinit : initNewShard config now = .ok s) :
    s.Rep (fun _ ↦ none) ∧ ∃ size maxCapacity, config.initialShardSize = .ok size ∧
      0 ≤ size * config.maxEntrySize ∧ config.maximumShardSize = .ok maxCapacity ∧
      s.entries = BytesQueue.new (size * config.maxEntrySize).toInt.toNat maxCapacity.toInt := by
  rw [initNewShard, Go.bind_eq_ok] at hinit
  obtain ⟨size, hsize, hinit⟩ := hinit
  simp only [Go.bind_eq_ok] at hinit
  obtain ⟨array, harray, maxCapacity, hmax, entryBuffer, -, hs⟩ := hinit
  obtain rfl := Except.ok.inj hs
  obtain ⟨hnonneg, hlen⟩ := length_of_makeBytes harray
  exact ⟨rep_empty rfl (BytesQueue.new_inv _ _) rfl rfl, size, maxCapacity, hsize, hnonneg, hmax,
    by rw [hlen]⟩

/-- What a new shard has beside its queue. -/
theorem initNewShard_fields {config : Config} {now : ℕ} (h : initNewShard config now = .ok s) :
    s.ttlTable = .new now ∧ s.onRemove = config.onRemove ∧ s.callbacks = [] := by
  simp only [initNewShard, Go.bind_eq_ok] at h
  obtain ⟨_, -, _, -, _, -, _, -, hs⟩ := h
  obtain rfl := Except.ok.inj hs
  exact ⟨rfl, rfl, rfl⟩

end

/-- A new shard, under any sequence of calls. -/
def sequential (T M : Type) [OrderedMap T ℤ Ptr] [OrderedMap M UInt64 (Finset Key)]
    (hasher : Hasher) : TransitionSystem (CacheShard T M) Op :=
  .ofStep (fun s ↦ (∃ config now, initNewShard config now = .ok s) ∧
    s.entries.array.length < 2 ^ 32) (perform hasher)

theorem initial_of_filter {config : Config} {now : ℕ} {s : CacheShard T M}
    (hs : ((initNewShard config now).toOption.filter fun s : CacheShard T M ↦
      s.entries.array.length < 2 ^ 32) = some s) :
    (∃ config now, initNewShard config now = .ok s) ∧ s.entries.array.length < 2 ^ 32 := by
  obtain ⟨hs, hlt⟩ := Option.filter_eq_some_iff.mp hs
  exact ⟨⟨config, now, Go.toOption_eq_some.mp hs⟩, of_decide_eq_true hlt⟩

theorem sequential_rep {hasher : Hasher} {ls : List Op} {s : CacheShard T M}
    (hr : (sequential T M hasher).Run ls s) : ∃ m, s.Rep m := by
  refine hr.invariant ?_ ?_
  · rintro s ⟨⟨config, now, hinit⟩, -⟩
    exact ⟨_, (initNewShard_spec hinit).1⟩
  · rintro s op s' ⟨m, hrep⟩ hstep
    exact ⟨_, hrep.perform hstep⟩

/-- **The hash table is a bijection onto the live blocks of the queue.**  Different hashes have
different indices, none of them zero; each index holds a block that can be read and whose hash
field is the hash; every live block has an index; and the two have the same size. -/
theorem representation {hasher : Hasher} {ls : List Op} {s : CacheShard T M}
    (hr : (sequential T M hasher).Run ls s) :
    (∀ h h' i, s.hashmap.lookup h = some i → s.hashmap.lookup h' = some i → h = h') ∧
    (∀ h i, s.hashmap.lookup h = some i → i ≠ 0 ∧ ∃ data, (i.toNat, data) ∈ s.entries.live ∧
      ∃ view, s.entries.get i.toNat = .ok (.ok view) ∧ (s.entries.load view).bytes = data ∧
        readHashFromEntry (s.entries.load view) = .ok h) ∧
    (∀ x ∈ s.entries.live, ∃ h i, s.hashmap.lookup h = some i ∧ i.toNat = x.1) ∧
    s.entries.len = s.len := by
  obtain ⟨m, hrep⟩ := sequential_rep hr
  refine ⟨fun h h' i hi hi' ↦ hrep.stores.index_injective hi hi', fun h i hi ↦ ?_,
    hrep.stores.referenced, hrep.len_eq⟩
  obtain ⟨e, -, hlive⟩ := hrep.stores.live_of_index hi
  obtain ⟨hget, hload⟩ := (hrep.stores.inv.framed hlive).get
  exact ⟨hrep.stores.index_ne_zero hi, _, hlive, _, hget, hload, readHashFromEntry_wrapped hload⟩

/-- A run with an overwrite, a deletion and an eviction. -/
theorem representation_mixed :
    ∃ s : ListShard, (sequential _ _ lengthHasher).Run
        [.set [1] [7, 8] 5000000000 0, .set [2, 2] [9] 0 0, .set [3] [4, 4, 4] 1000000000 0,
          .get [3], .del [2, 2] 0, .set [5, 5, 5] [] 1000000000 0, .evictDel 1 [[3]]] s ∧
      s.entries.len = s.len ∧ s.len = 1 := by
  refine Exists.imp (fun s hs ↦ ⟨hs.1, (representation hs.1).2.2.2, of_decide_eq_true hs.2⟩)
    (TransitionSystem.exists_run (S := sequential _ _ _) (fun _ _ _ ↦ id)
      (x := (initNewShard smallConfig 0).toOption.filter fun s ↦
        s.entries.array.length < 2 ^ 32) (fun s hs ↦ initial_of_filter hs) ?_)
  decide +kernel

end CacheShard
end ClusteredBigCache
