import ClusteredBigCache.Shard.Table

/-!
# What a shard stores

`Rep s m` says that the shard `s` represents the table `m`: its queue is in its invariant, the hash
table leads from each hash of `m` to a live block of the queue that holds the entry, wrapped, and
every live block is one of these.

For each operation of the shard there is one lemma that says what it returns and which table the
shard represents afterwards: `Rep.getView_of_none`, `Readable.getView` and `Rep.get`,
`Rep.set_cases`, `Rep.delLocked_of_none`, `Readable.delLocked` and `Readable.del`, `Rep.evictDel`.
They hold for keys of every length; where the sixteen-bit arithmetic of the encoding makes a reader
panic, the table's operation panics too.  All results about shards start from these lemmas.
-/

set_option autoImplicit false

namespace ClusteredBigCache

namespace CacheShard

variable {T M : Type}

theorem lookup_insert (hm : Finmap fun _ : UInt64 ↦ UInt32) (h : UInt64) (i : UInt32) :
    (fun h' ↦ (hm.insert h i).lookup h') = Function.update (fun h' ↦ hm.lookup h') h (some i) := by
  funext h'
  by_cases hh : h' = h
  · rw [hh, Finmap.lookup_insert, Function.update_self]
  · rw [Finmap.lookup_insert_of_ne _ hh, Function.update_of_ne hh]

theorem lookup_erase (hm : Finmap fun _ : UInt64 ↦ UInt32) (h : UInt64) :
    (fun h' ↦ (hm.erase h).lookup h') = Function.update (fun h' ↦ hm.lookup h') h none := by
  funext h'
  by_cases hh : h' = h
  · rw [hh, Finmap.lookup_erase, Function.update_self]
  · rw [Finmap.lookup_erase_ne hh, Function.update_of_ne hh]

/-- Where a shard keeps the entry of a hash. -/
structure Block (s : CacheShard T M) (h : UInt64) (e : Entry) (i : UInt32) : Prop where
  lookup : s.hashmap.lookup h = some i
  live : (i.toNat, e.data h) ∈ s.entries.live

instance (s : CacheShard T M) (h : UInt64) (e : Entry) (i : UInt32) : Decidable (s.Block h e i) :=
  decidable_of_iff (s.hashmap.lookup h = some i ∧ (i.toNat, e.data h) ∈ s.entries.live)
    ⟨fun hb ↦ ⟨hb.1, hb.2⟩, fun hb ↦ ⟨hb.1, hb.2⟩⟩

theorem Block.index_eq {s : CacheShard T M} {h : UInt64} {e : Entry} {i : UInt32}
    (hb : s.Block h e i) : s.index h = i := by
  rw [index, hb.lookup]
  rfl

/-- A call that returns has acquired the lock. -/
theorem unlocked_of_lock {α : Type} {s : CacheShard T M} {f : Unit → Go α} {a : α}
    (h : s.lock >>= f = .ok a) : s.locked = false := by
  obtain ⟨_, hlock, -⟩ := Go.bind_eq_ok.mp h
  rw [lock] at hlock
  split_ifs at hlock with hl
  simpa using hl

variable [OrderedMap T ℤ Ptr]

/-- **The shard represents the table.** -/
structure Rep (s : CacheShard T M) (m : Table) : Prop where
  stores : Stores s.entries (fun h ↦ s.hashmap.lookup h) m
  unlocked : s.locked = false

/-- Nothing but the queue, the hash table and the lock matters for what is represented. -/
theorem Rep.congr {s s' : CacheShard T M} {m : Table} (hr : s.Rep m)
    (hmap : s'.hashmap = s.hashmap) (hentries : s'.entries = s.entries)
    (hlocked : s'.locked = s.locked) : s'.Rep m where
  stores := by rw [hmap, hentries]; exact hr.stores
  unlocked := hlocked.trans hr.unlocked

theorem Rep.withTtl {s : CacheShard T M} {m : Table} (hr : s.Rep m) (ttl : TtlManager M) :
    ({ s with ttlTable := ttl } : CacheShard T M).Rep m :=
  hr.congr rfl rfl rfl

/-- A shard with nothing in it represents the empty table. -/
theorem rep_empty {s : CacheShard T M} (hmap : s.hashmap = ∅) (hinv : s.entries.Inv)
    (hlive : s.entries.live = []) (hlocked : s.locked = false) : s.Rep fun _ ↦ none where
  stores := by
    have hlookup : (fun h ↦ s.hashmap.lookup h) = fun _ ↦ none := by
      funext h
      rw [hmap, Finmap.lookup_empty]
    rw [hlookup]
    exact Stores.of_live_nil hinv hlive
  unlocked := hlocked

theorem Rep.lock {s : CacheShard T M} {m : Table} (hr : s.Rep m) : s.lock = .ok () := by
  rw [CacheShard.lock, hr.unlocked]
  rfl

/-- Where a shard whose lock is free finds an entry by its hash: what it takes to read the entry, or
to take it out. -/
structure Readable (s : CacheShard T M) (h : UInt64) (e : Entry) (i : UInt32) : Prop where
  lookup : s.hashmap.lookup h = some i
  unlocked : s.locked = false
  framed : s.entries.Framed (i.toNat, e.data h)

namespace Readable

variable {s : CacheShard T M} {h : UInt64} {e : Entry} {i : UInt32}

section

omit [OrderedMap T ℤ Ptr]

theorem lock (hb : s.Readable h e i) : s.lock = .ok () := by
  rw [CacheShard.lock, hb.unlocked]
  rfl

theorem index_eq (hb : s.Readable h e i) : s.index h = i := by
  rw [index, hb.lookup]
  rfl

theorem index_ne_zero (hb : s.Readable h e i) : s.index h ≠ 0 := by
  have hpos : 1 ≤ i.toNat := hb.framed.pos
  rw [hb.index_eq]
  rintro rfl
  exact absurd hpos (by decide)

/-- Getting the block of an entry. -/
theorem get (hb : s.Readable h e i) :
    s.entries.get (s.index h).toNat = .ok (.ok (s.entries.view (i.toNat, e.data h))) ∧
      (s.entries.load (s.entries.view (i.toNat, e.data h))).bytes = e.data h := by
  rw [hb.index_eq]
  exact hb.framed.get

/-- Calling the callback on an entry. -/
theorem notify (hb : s.Readable h e i) {s' : CacheShard T M} (hentries : s'.entries = s.entries) :
    s'.notify (s.entries.view (i.toNat, e.data h)) =
      (e.callback s'.onRemove h).map fun cb ↦ { s' with callbacks := cb ++ s'.callbacks } := by
  have hload := hb.get.2
  rw [← hentries] at hload
  have hkey : readKeyFromEntry _ = e.readKey := readKeyFromEntry_wrapped hload
  have hval : readEntry _ = .ok (e.readValue h) := readEntry_wrapped hload
  rw [CacheShard.notify, Entry.callback, ← hentries, hkey, hval]
  split_ifs
  · cases e.readKey <;> rfl
  · rfl

end

/-- Erasing the hash of an entry and giving its block back. -/
theorem free (hb : s.Readable h e i) {s' : CacheShard T M} (hentries : s'.entries = s.entries) :
    s'.free (s.entries.view (i.toNat, e.data h)) (s.index h) =
      .ok { s' with entries := s.entries.freed (i.toNat, e.data h) } := by
  have hfreed := hb.framed.freed (by simp only [Entry.length_data]; omega)
  obtain ⟨q, hreset, hdel⟩ := Go.bind_eq_ok.mp hfreed
  rw [CacheShard.free, hentries, hreset, Go.ok_bind, CacheShard.delete, hb.index_eq, hdel]
  rfl

/-- Taking an entry out of the shard. -/
theorem takeOut (hb : s.Readable h e i) {s' : CacheShard T M} (hentries : s'.entries = s.entries) :
    s'.takeOut h (s.entries.view (i.toNat, e.data h)) (s.index h) =
      (e.callback s'.onRemove h).map fun cb ↦
        { s' with
          hashmap := s'.hashmap.erase h
          entries := s.entries.freed (i.toNat, e.data h)
          callbacks := cb ++ s'.callbacks } := by
  have hnotify := hb.notify
    (show ({ s' with hashmap := s'.hashmap.erase h } : CacheShard T M).entries = _ from hentries)
  rw [CacheShard.takeOut, hnotify]
  simp only
  cases e.callback s'.onRemove h with
  | error f => rfl
  | ok cb => exact hb.free hentries

end Readable

namespace Block

variable {s : CacheShard T M} {m : Table} {h : UInt64} {e : Entry} {i : UInt32}

theorem readable (hb : s.Block h e i) (hr : s.Rep m) : s.Readable h e i :=
  ⟨hb.lookup, hr.unlocked, hr.stores.inv.framed hb.live⟩

/-- What the shard represents after an entry was taken out. -/
theorem rep_freed (hb : s.Block h e i) (hr : s.Rep m) {s' : CacheShard T M}
    (hmap : s'.hashmap = s.hashmap.erase h)
    (hentries : s'.entries = s.entries.freed (i.toNat, e.data h))
    (hlocked : s'.locked = s.locked) : s'.Rep (Function.update m h none) where
  stores := by
    rw [hmap, hentries, lookup_erase]
    exact hr.stores.freed hb.lookup hb.live
  unlocked := hlocked.trans hr.unlocked

end Block

theorem Rep.block {s : CacheShard T M} {m : Table} (hr : s.Rep m) {h : UInt64} {e : Entry}
    (hm : m h = some e) : ∃ i, s.Block h e i := by
  obtain ⟨i, hi, hlive⟩ := hr.stores.present h e hm
  exact ⟨i, hi, hlive⟩

theorem Rep.index_of_none {s : CacheShard T M} {m : Table} (hr : s.Rep m) {h : UInt64}
    (hm : m h = none) : s.index h = 0 := by
  have hlookup : s.hashmap.lookup h = none := hr.stores.absent h hm
  rw [index, hlookup]
  rfl

/-- The hash table has as many keys as the queue has entries. -/
theorem Rep.len_eq {s : CacheShard T M} {m : Table} (hr : s.Rep m) : s.entries.len = s.len := by
  have hinv := hr.stores.inv
  have hnodup : (s.entries.live.map Prod.fst).Nodup :=
    List.pairwise_map.mpr (hinv.apart.imp BytesQueue.Apart.ne)
  have himage : s.hashmap.keys.image (fun h ↦ (s.index h).toNat) =
      (s.entries.live.map Prod.fst).toFinset := by
    ext n
    simp only [Finset.mem_image, Finmap.mem_keys, List.mem_toFinset, List.mem_map]
    constructor
    · rintro ⟨h, hh, rfl⟩
      obtain ⟨i, hi⟩ := Finmap.mem_iff.mp hh
      obtain ⟨e, -, hlive⟩ := hr.stores.live_of_index hi
      exact ⟨_, hlive, by rw [Block.index_eq ⟨hi, hlive⟩]⟩
    · rintro ⟨x, hx, rfl⟩
      obtain ⟨h, i, hi, hix⟩ := hr.stores.referenced x hx
      obtain ⟨e, -, hlive⟩ := hr.stores.live_of_index hi
      exact ⟨h, Finmap.mem_iff.mpr ⟨i, hi⟩, by rw [Block.index_eq ⟨hi, hlive⟩, hix]⟩
  have hinj : Set.InjOn (fun h ↦ (s.index h).toNat) s.hashmap.keys := by
    intro h hh h' hh' heq
    obtain ⟨i, hi⟩ := Finmap.mem_iff.mp (Finmap.mem_keys.mp hh)
    obtain ⟨j, hj⟩ := Finmap.mem_iff.mp (Finmap.mem_keys.mp hh')
    have hij : i = j := UInt32.toNat_inj.mp (by simpa [index, hi, hj] using heq)
    exact hr.stores.index_injective hi (hij ▸ hj)
  calc s.entries.len = s.entries.live.length := hinv.count_eq
    _ = (s.entries.live.map Prod.fst).toFinset.card := by
      rw [List.toFinset_card_of_nodup hnodup, List.length_map]
    _ = s.len := by rw [← himage, Finset.card_image_of_injOn hinj, len]

/-! ## Reading -/

section Operations

variable {s : CacheShard T M} {m : Table} {h : UInt64} {e : Entry}

theorem Rep.getView_of_none (hr : s.Rep m) (hm : m h = none) (key : Key) :
    s.getView key h = .ok (s.miss, .error (.notFound key)) := by
  rw [getView, hr.lock, Go.ok_bind, hr.index_of_none hm]
  rfl

omit [OrderedMap T ℤ Ptr] in
theorem Readable.getView {i : UInt32} (hb : s.Readable h e i) (key : Key) :
    s.getView key h =
      e.readKey >>= fun entryKey ↦
        if key ≠ entryKey then .ok (s.collision, .error (.notFound key))
        else .ok (s.hit, .ok (s.entries.view (i.toNat, e.data h))) := by
  obtain ⟨hget, hload⟩ := hb.get
  have hkey : readKeyFromEntry _ = e.readKey := readKeyFromEntry_wrapped hload
  rw [CacheShard.getView, hb.lock, Go.ok_bind]
  simp only
  rw [if_neg hb.index_ne_zero, hget, Go.ok_bind]
  simp only
  rw [hkey]
  rfl

/-- What the part of `get` under the lock has found when it returns a slice. -/
theorem Rep.of_getView {s₀ : CacheShard T M} {key : Key} {v : Slice}
    (hr : s.Rep m) (hget : s.getView key h = .ok (s₀, .ok v)) :
    ∃ value timestamp i, s.Block h ⟨key, value, timestamp⟩ i ∧ key.length ≤ maxKeyLength ∧
      s₀ = s.hit ∧ v = s.entries.view (i.toNat, Entry.data h ⟨key, value, timestamp⟩) := by
  cases hm : m h with
  | none =>
    rw [hr.getView_of_none hm] at hget
    cases (Prod.mk.inj (Except.ok.inj hget)).2
  | some e =>
    obtain ⟨i, hb⟩ := hr.block hm
    rw [(hb.readable hr).getView, Go.bind_eq_ok] at hget
    obtain ⟨entryKey, hread, hget⟩ := hget
    split_ifs at hget with hne
    · cases (Prod.mk.inj (Except.ok.inj hget)).2
    · obtain rfl := not_not.mp hne
      obtain ⟨hs, hv⟩ := Prod.mk.inj (Except.ok.inj hget)
      obtain ⟨hkey, value, hdata⟩ := Entry.exists_data_eq_of_readKey hread
      rw [hdata h] at hv
      exact ⟨value, e.timestamp, i, ⟨hb.lookup, hdata h ▸ hb.live⟩, hkey, hs.symm,
        (Except.ok.inj hv).symm⟩

/-- **What `get` returns**, and that it changes the statistics only. -/
theorem Rep.get (hr : s.Rep m) (key : Key) :
    ∃ stats, s.get key h = (m.get key h).map fun r ↦ ({ s with stats := stats }, r) := by
  rw [CacheShard.get, Table.get]
  cases hm : m h with
  | none =>
    rw [hr.getView_of_none hm]
    exact ⟨_, rfl⟩
  | some e =>
    obtain ⟨i, hb⟩ := hr.block hm
    rw [(hb.readable hr).getView]
    simp only
    cases e.readKey with
    | error f => exact ⟨s.stats, rfl⟩
    | ok entryKey =>
      simp only [Go.ok_bind]
      by_cases hkey : key ≠ entryKey
      · rw [if_pos hkey, if_pos hkey]
        exact ⟨_, rfl⟩
      · rw [if_neg hkey, if_neg hkey]
        have hval : readEntry _ = .ok (e.readValue h) := readEntry_wrapped (hb.readable hr).get.2
        refine ⟨s.hit.stats, ?_⟩
        simp only [Go.ok_bind]
        rw [show s.hit.entries = s.entries from rfl, hval]
        rfl

/-- A `get` that returns has changed the statistics only. -/
theorem Rep.eq_of_get {s' : CacheShard T M} {key : Key} (hr : s.Rep m)
    {r : Except CacheError Bytes} (hok : s.get key h = .ok (s', r)) :
    m.get key h = .ok r ∧ ∃ stats, s' = { s with stats := stats } := by
  obtain ⟨stats, hget⟩ := hr.get key (h := h)
  rw [hget] at hok
  cases hres : m.get key h with
  | error f => rw [hres] at hok; cases hok
  | ok r' =>
    rw [hres] at hok
    obtain ⟨rfl, rfl⟩ := Prod.mk.inj (Except.ok.inj hok)
    exact ⟨rfl, stats, rfl⟩

/-- `get` keeps what the shard represents. -/
theorem Rep.of_get {s' : CacheShard T M} {key : Key} (hr : s.Rep m) {r : Except CacheError Bytes}
    (hok : s.get key h = .ok (s', r)) : s'.Rep m ∧ m.get key h = .ok r := by
  obtain ⟨hres, stats, rfl⟩ := hr.eq_of_get hok
  exact ⟨hr.congr rfl rfl rfl, hres⟩

/-! ## Removing -/

/-- The shard after an entry was taken out. -/
def erased (s : CacheShard T M) (h : UInt64) (e : Entry) (i : UInt32) (cb : List (Key × Bytes)) :
    CacheShard T M :=
  { s with
    hashmap := s.hashmap.erase h
    entries := s.entries.freed (i.toNat, e.data h)
    callbacks := cb ++ s.callbacks }

theorem Rep.delLocked_of_none (hr : s.Rep m) (hm : m h = none) (key : Key) :
    s.delLocked key h = .ok (s.delmiss, .error (.notFound key)) := by
  rw [delLocked, hr.lock, Go.ok_bind, hr.index_of_none hm]
  rfl

/-- The part of `del` under the lock, when there is an entry. -/
theorem Readable.delLocked {i : UInt32} (hb : s.Readable h e i) (key : Key) :
    s.delLocked key h =
      (e.callback s.onRemove h).map fun cb ↦
        (s.erased h e i cb, .ok (s.entries.view (i.toNat, e.data h))) := by
  rw [CacheShard.delLocked, hb.lock, Go.ok_bind]
  simp only
  rw [if_neg hb.index_ne_zero, hb.get.1, Go.ok_bind]
  simp only
  rw [hb.takeOut rfl]
  cases e.callback s.onRemove h <;> rfl

/-- The timestamp of an entry can still be read after it was taken out. -/
theorem Readable.readTimestamp_erased {i : UInt32} (hb : s.Readable h e i)
    (cb : List (Key × Bytes)) :
    readTimestampFromEntry
      ((s.erased h e i cb).entries.load (s.entries.view (i.toNat, e.data h))) =
      .ok e.timestamp := by
  have hload := hb.framed.load_freed (by simp only [Entry.length_data]; omega)
  rw [Entry.blit_data] at hload
  exact readTimestampFromEntry_wrapped hload

section

variable [OrderedMap M UInt64 (Finset Key)]

theorem Rep.del_of_none (hr : s.Rep m) (hm : m h = none) (key : Key) (now : ℕ) :
    s.del key h now = .ok (s.delmiss, .error (.notFound key)) := by
  rw [del, hr.delLocked_of_none hm]
  rfl

/-- **What `del` does** when there is an entry. -/
theorem Readable.del {i : UInt32} (hb : s.Readable h e i) (key : Key) (now : ℕ) :
    s.del key h now =
      (e.callback s.onRemove h).map fun cb ↦
        ({ s.erased h e i cb with ttlTable := s.ttlTable.remove now e.timestamp key }.delhit,
          .ok ()) := by
  rw [CacheShard.del, hb.delLocked]
  cases e.callback s.onRemove h with
  | error f => rfl
  | ok cb =>
    simp only [Except.map, Go.ok_bind]
    rw [delFinish, hb.readTimestamp_erased]
    rfl

end

/-- What `evictDel` does with one of its keys. -/
inductive EvictOutcome (s : CacheShard T M) (m : Table) (t h : UInt64) : CacheShard T M → Prop
  | kept {stats : Stats} (hm : ∀ e, m h = some e → e.timestamp ≠ t) :
      EvictOutcome s m t h { s with stats := stats }
  | removed {stats : Stats} {e : Entry} {i : UInt32} {cb : List (Key × Bytes)}
      (hm : m h = some e) (ht : e.timestamp = t) (hb : s.Block h e i)
      (hcb : e.callback s.onRemove h = .ok cb) :
      EvictOutcome s m t h { s.erased h e i cb with stats := stats }

/-- **One round of `evictDel`**: nothing, or the entry is taken out; it fails only when the callback
cannot be called. -/
theorem Rep.evictKey (hr : s.Rep m) (hasher : Hasher) (t : UInt64) (v : Key) :
    (∃ s', evictKey hasher t s v = .ok s' ∧ EvictOutcome s m t (hasher v) s') ∨
      ∃ e f, m (hasher v) = some e ∧ e.callback s.onRemove (hasher v) = .error f ∧
        evictKey hasher t s v = .error f := by
  have hr₁ : ({ s with stats := { s.stats with evictCount := s.stats.evictCount + 1 } } :
      CacheShard T M).Rep m := hr.congr rfl rfl rfl
  unfold CacheShard.evictKey
  simp only
  cases hm : m (hasher v) with
  | none =>
    rw [if_pos (hr₁.index_of_none hm)]
    exact .inl ⟨_, rfl, .kept (by simp [hm])⟩
  | some e =>
    obtain ⟨i, hb⟩ := hr₁.block hm
    have hread := hb.readable hr₁
    obtain ⟨hget, hload⟩ := hread.get
    have hts : readTimestampFromEntry _ = .ok e.timestamp := readTimestampFromEntry_wrapped hload
    rw [if_neg hread.index_ne_zero, hget, Go.ok_bind]
    simp only
    rw [hts, Go.ok_bind]
    by_cases ht : e.timestamp = t
    · rw [if_pos ht, hread.takeOut rfl]
      cases hcb : e.callback s.onRemove (hasher v) with
      | error f => exact .inr ⟨e, f, rfl, hcb, rfl⟩
      | ok cb => exact .inl ⟨_, rfl, .removed hm ht ⟨hb.lookup, hb.live⟩ hcb⟩
    · rw [if_neg ht]
      refine .inl ⟨_, rfl, .kept fun e' he' ↦ ?_⟩
      rw [hm] at he'
      exact Option.some.inj he' ▸ ht

/-- What the shard represents after one round of `evictDel`. -/
theorem EvictOutcome.rep {hasher : Hasher} {t : UInt64} {v : Key} {s' : CacheShard T M}
    (ho : EvictOutcome s m t (hasher v) s') (hr : s.Rep m) : s'.Rep (m.evictKey hasher t v) := by
  cases ho with
  | kept hm =>
    rw [Table.evictKey_of_ne hm]
    exact hr.congr rfl rfl rfl
  | removed hm ht hb _ =>
    rw [Table.evictKey_of_eq hm ht]
    exact hb.rep_freed hr rfl rfl rfl

/-- **The loop of `evictDel`**: what every round keeps holds when it is done. -/
theorem Rep.evictDel_induction {s s' : CacheShard T M} {m : Table} (hr : s.Rep m)
    {hasher : Hasher} {t : UInt64} {P : CacheShard T M → Table → Prop}
    (hstep : ∀ s m v s', s.Rep m → P s m → EvictOutcome s m t (hasher v) s' →
      P s' (m.evictKey hasher t v))
    (hP : P s m) {keys : List Key} (hok : evictDel hasher s t keys = .ok s') :
    s'.Rep (keys.foldl (Table.evictKey hasher t) m) ∧
      P s' (keys.foldl (Table.evictKey hasher t) m) := by
  rw [evictDel, hr.lock, Go.ok_bind] at hok
  induction keys generalizing s m with
  | nil =>
    obtain rfl : s = s' := Except.ok.inj hok
    exact ⟨hr, hP⟩
  | cons v keys ih =>
    rw [List.foldlM_cons, Go.bind_eq_ok] at hok
    obtain ⟨s₁, hs₁, hok⟩ := hok
    rcases hr.evictKey hasher t v with ⟨s₂, hs₂, ho⟩ | ⟨e, f, -, -, hf⟩
    · obtain rfl : s₂ = s₁ := Except.ok.inj (hs₂.symm.trans hs₁)
      exact ih (ho.rep hr) (hstep _ _ _ _ hr hP ho) hok
    · rw [hf] at hs₁
      cases hs₁

/-- `evictDel` takes the entries with the timestamp out of the table. -/
theorem Rep.evictDel {s' : CacheShard T M} {hasher : Hasher} {t : UInt64} {keys : List Key}
    (hr : s.Rep m) (hok : evictDel hasher s t keys = .ok s') :
    s'.Rep (keys.foldl (Table.evictKey hasher t) m) ∧
      s'.entries.maxCapacity = s.entries.maxCapacity := by
  refine hr.evictDel_induction (P := fun s₁ _ ↦ s₁.entries.maxCapacity = s.entries.maxCapacity) ?_
    rfl hok
  rintro s₁ m₁ v s₂ - hmax (_ | _)
  · exact hmax
  · exact hmax

/-! ## Storing

`set` first takes out what is under the hash, whatever its key is, and then pushes.  `Vacated` is
the queue in between, in both cases. -/

/-- The queue after `set` removed the entry its hash had. -/
inductive Vacated (s : CacheShard T M) (m : Table) (h : UInt64) : BytesQueue T → Prop
  | absent (hm : m h = none) : Vacated s m h s.entries
  | freed {e : Entry} {i : UInt32} (hm : m h = some e) (hb : s.Block h e i) :
      Vacated s m h (s.entries.freed (i.toNat, e.data h))

theorem Vacated.stores {q : BytesQueue T} (hv : Vacated s m h q) (hr : s.Rep m) :
    Stores q (Function.update (fun h' ↦ s.hashmap.lookup h') h none)
      (Function.update m h none) := by
  cases hv with
  | absent hm =>
    have hlookup := hr.stores.absent h hm
    rw [Function.update_eq_self_iff.mpr hlookup.symm, Function.update_eq_self_iff.mpr hm.symm]
    exact hr.stores
  | freed hm hb => exact hr.stores.freed hb.lookup hb.live

theorem Vacated.tail_eq {q : BytesQueue T} (hv : Vacated s m h q) : q.tail = s.entries.tail := by
  cases hv <;> rfl

theorem Vacated.maxCapacity_eq {q : BytesQueue T} (hv : Vacated s m h q) :
    q.maxCapacity = s.entries.maxCapacity := by
  cases hv <;> rfl

/-- The shard after the push of `set`, and whether it succeeded. -/
def afterPush (s : CacheShard T M) (h : UInt64) (q : BytesQueue T) (entryBuffer : Bytes) :
    Except QueueError ℕ → CacheShard T M × Bool
  | .ok i =>
    ({ s with
      entries := q
      entryBuffer := entryBuffer
      hashmap := s.hashmap.insert h (UInt32.ofNat i) }, true)
  | .error _ => ({ s with entries := q, entryBuffer := entryBuffer, locked := true }, false)

/-- What the shard represents after a successful push. -/
theorem Vacated.rep_afterPush {q q' : BytesQueue T} (hv : Vacated s m h q) (hr : s.Rep m) {i : ℕ}
    (ho : BytesQueue.PushOutcome q (e.data h) q' (.ok i))
    (hfit : i < 2 ^ 32 ∧ (e.data h).length < 2 ^ 32) {s' : CacheShard T M}
    (hmap : s'.hashmap = s.hashmap.insert h (UInt32.ofNat i)) (hentries : s'.entries = q')
    (hlocked : s'.locked = s.locked) : s'.Rep (Function.update m h (some e)) where
  stores := by
    have hpushed := (hv.stores hr).pushed (Function.update_self _ _ _) ho hfit
    rw [Function.update_idem, Function.update_idem] at hpushed
    rw [hmap, hentries, lookup_insert]
    exact hpushed
  unlocked := hlocked.trans hr.unlocked

/-- What `set` does. -/
inductive SetOutcome (s : CacheShard T M) (m : Table) (h : UInt64) (e : Entry)
    (ttl : TtlManager M) : CacheShard T M → Except CacheError UInt64 → Prop
  /-- The entry is stored. -/
  | stored {q₁ q₂ : BytesQueue T} {i : ℕ} {buffer : Bytes} (hv : Vacated s m h q₁)
      (ho : BytesQueue.PushOutcome q₁ (e.data h) q₂ (.ok i)) :
      SetOutcome s m h e ttl
        { s with
          hashmap := s.hashmap.insert h (UInt32.ofNat i)
          entries := q₂
          entryBuffer := buffer
          ttlTable := ttl } (.ok e.timestamp)
  /-- The queue is full, and the lock stays held. -/
  | full {q₁ q₂ : BytesQueue T} {err : QueueError} {buffer : Bytes} {ttl' : TtlManager M}
      (hv : Vacated s m h q₁) (ho : BytesQueue.PushOutcome q₁ (e.data h) q₂ (.error err)) :
      SetOutcome s m h e ttl
        { s with entries := q₂, entryBuffer := buffer, ttlTable := ttl', locked := true } (.ok 0)

/-- What the shard represents after `set` stored an entry, when the position of the entry and its
length fit thirty-two bits. -/
theorem SetOutcome.rep {ttl : TtlManager M} {s' : CacheShard T M} {r : Except CacheError UInt64}
    (ho : SetOutcome s m h e ttl s' r) (hr : s.Rep m) (hunlocked : s'.locked = false)
    (hfit : s'.entries.array.length < 2 ^ 32 ∨
      s.entries.tail < 2 ^ 32 ∧ (e.data h).length < 2 ^ 32) :
    s'.Rep (Function.update m h (some e)) := by
  cases ho with
  | full => cases hunlocked
  | stored hv ho =>
    obtain ⟨hend, hle⟩ := ho.end_le (hv.stores hr).inv
    rw [hv.tail_eq] at hle
    refine hv.rep_afterPush hr ho ?_ rfl rfl rfl
    simp only at hfit
    omega

/-- A shard without a size limit stores every entry. -/
theorem SetOutcome.unlocked {ttl : TtlManager M} {s' : CacheShard T M}
    {r : Except CacheError UInt64} (ho : SetOutcome s m h e ttl s' r) (hr : s.Rep m)
    (hmax : s.entries.maxCapacity ≤ 0) :
    s'.locked = false ∧ s'.entries.maxCapacity = s.entries.maxCapacity := by
  cases ho with
  | stored hv ho => exact ⟨hr.unlocked, ho.maxCapacity_eq.trans hv.maxCapacity_eq⟩
  | full hv ho =>
    have hfull := (ho.eq_of_error).2.2
    rw [hv.maxCapacity_eq] at hfull
    omega

variable [OrderedMap M UInt64 (Finset Key)]

/-- The expiry index after `set` removed the entry its hash had. -/
def forget (s : CacheShard T M) (m : Table) (key : Key) (h : UInt64) (now : ℕ) : TtlManager M :=
  match m h with
  | none => s.ttlTable
  | some e => s.ttlTable.remove now e.timestamp key

theorem Rep.dropPrevious (hr : s.Rep m) (key : Key) (now : ℕ) :
    ∃ q, Vacated s m h q ∧ s.dropPrevious key h now =
      .ok { s with entries := q, ttlTable := s.forget m key h now } := by
  rw [CacheShard.dropPrevious, forget]
  cases hm : m h with
  | none =>
    refine ⟨s.entries, .absent hm, ?_⟩
    simp only
    rw [if_neg (not_not.mpr (hr.index_of_none hm))]
    rfl
  | some e =>
    obtain ⟨i, hb⟩ := hr.block hm
    have hread := hb.readable hr
    obtain ⟨hget, hload⟩ := hread.get
    have hts : readTimestampFromEntry _ = .ok e.timestamp := readTimestampFromEntry_wrapped hload
    refine ⟨_, .freed hm hb, ?_⟩
    simp only
    rw [if_pos hread.index_ne_zero, hget, Go.ok_bind]
    simp only
    rw [hts, Go.ok_bind]
    exact hread.free rfl

/-- **What the part of `set` under the lock does.** -/
theorem Rep.setLocked (hr : s.Rep m) (key : Key) (entry : Bytes) (ts : UInt64) (now : ℕ) :
    ∃ q₁ q₂ r, Vacated s m h q₁ ∧
      BytesQueue.PushOutcome q₁ (Entry.data h ⟨key, entry, ts⟩) q₂ r ∧
      s.setLocked key h entry ts now =
        .ok ({ s with ttlTable := s.forget m key h now }.afterPush h q₂
          (wrapEntry ts h key entry s.entryBuffer).2 r) := by
  obtain ⟨q₁, hv, hdrop⟩ := hr.dropPrevious key now (h := h)
  obtain ⟨q₂, r, hpush, ho⟩ :=
    BytesQueue.Push_cases (hv.stores hr).inv (Entry.data h ⟨key, entry, ts⟩)
  refine ⟨q₁, q₂, r, hv, ho, ?_⟩
  rw [CacheShard.setLocked, hr.lock, Go.ok_bind, hdrop, Go.ok_bind]
  have hw : (wrapEntry ts h key entry s.entryBuffer).1 = Entry.data h ⟨key, entry, ts⟩ :=
    wrapEntry_fst _
  simp only [hw]
  rw [hpush, Go.ok_bind]
  cases r <;> rfl

/-- The expiry index after `set` stored an entry. -/
def renew (s : CacheShard T M) (m : Table) (key : Key) (h : UInt64) (duration : Int64) (now : ℕ) :
    TtlManager M :=
  if duration ≠ 0 then
    (s.forget m key h now).put now (expiryTimestamp now duration) key
  else s.forget m key h now

/-- **`set` returns, and does one of two things.** -/
theorem Rep.set_cases (hr : s.Rep m) (key : Key) (entry : Bytes) (duration : Int64) (now : ℕ) :
    ∃ s' r, s.set key h entry duration now = .ok (s', r) ∧
      SetOutcome s m h ⟨key, entry, expiryTimestamp now duration⟩
        (s.renew m key h duration now) s' r := by
  obtain ⟨q₁, q₂, res, hv, ho, hset⟩ :=
    hr.setLocked key entry (expiryTimestamp now duration) now (h := h)
  rw [CacheShard.set, hset, Go.ok_bind]
  cases res with
  | error err => exact ⟨_, _, rfl, .full hv ho⟩
  | ok i =>
    simp only [afterPush, if_true, renew]
    split_ifs
    · exact ⟨_, _, rfl, .stored hv ho⟩
    · exact ⟨_, _, rfl, .stored hv ho⟩

end Operations

end CacheShard
end ClusteredBigCache
