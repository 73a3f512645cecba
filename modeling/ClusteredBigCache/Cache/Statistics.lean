import ClusteredBigCache.Cache.Iterator
import Mathlib.Algebra.BigOperators.Group.List.Basic

/-!
# The statistics

Each shard counts what its calls have found, and `Stats` adds the counters of the shards up.
`Account` is the same bookkeeping on the table of entries that the cache represents, where it is one
line for each call; its `Tally` counts in natural numbers, and the counters of the cache in
sixty-four bits.

`statistics_exact` says that the counters are those of the account of the calls, in every state that
sound calls with keys that are not too long can lead to.  So every `Get` is counted once, as a hit,
a miss or a collision; every `Delete` and every key that was evicted is a hit or a miss, except for
a key that has been set again with another timestamp, which is neither; and `Len` is the number of
the calls of `Set` that found their hash free, less the number of the hits of deletions.
-/

set_option autoImplicit false

namespace ClusteredBigCache

/-! ## Adding up

The counters of the shards are added in sixty-four bits, one by one. -/

attribute [ext] Stats

instance : Zero Stats := ⟨{}⟩

instance : Add Stats where
  add s tmp := {
    hits := s.hits + tmp.hits
    misses := s.misses + tmp.misses
    delHits := s.delHits + tmp.delHits
    delMisses := s.delMisses + tmp.delMisses
    collisions := s.collisions + tmp.collisions
    evictCount := s.evictCount + tmp.evictCount }

namespace Stats

variable (a b : Stats)

@[simp] theorem add_hits : (a + b).hits = a.hits + b.hits := rfl
@[simp] theorem add_misses : (a + b).misses = a.misses + b.misses := rfl
@[simp] theorem add_delHits : (a + b).delHits = a.delHits + b.delHits := rfl
@[simp] theorem add_delMisses : (a + b).delMisses = a.delMisses + b.delMisses := rfl
@[simp] theorem add_collisions : (a + b).collisions = a.collisions + b.collisions := rfl
@[simp] theorem add_evictCount : (a + b).evictCount = a.evictCount + b.evictCount := rfl
@[simp] theorem zero_hits : (0 : Stats).hits = 0 := rfl
@[simp] theorem zero_misses : (0 : Stats).misses = 0 := rfl
@[simp] theorem zero_delHits : (0 : Stats).delHits = 0 := rfl
@[simp] theorem zero_delMisses : (0 : Stats).delMisses = 0 := rfl
@[simp] theorem zero_collisions : (0 : Stats).collisions = 0 := rfl
@[simp] theorem zero_evictCount : (0 : Stats).evictCount = 0 := rfl

instance : AddCommMonoid Stats where
  add_assoc a b c := by ext <;> simp [Int64.add_assoc]
  zero_add a := by ext <;> simp
  add_zero a := by ext <;> simp
  add_comm a b := by ext <;> simp [Int64.add_comm]
  nsmul := nsmulRec

end Stats

/-- `Stats` returns the statistics of the cache. -/
def BigCache.stats {T M : Type} (c : BigCache T M) : Stats :=
  c.shards.foldl (fun s shard ↦ s + shard.stats) 0

/-! ## What there is to count

Every call counts each of its keys, as one thing or another. -/

namespace BigCache.Op

/-- The number of keys that are looked up. -/
def lookups : Op → ℕ
  | .get _ => 1
  | .set _ _ _ _ | .delete _ _ | .evict _ _ _ => 0

/-- The number of keys that are deleted. -/
def deletions : Op → ℕ
  | .delete _ _ => 1
  | .set _ _ _ _ | .get _ | .evict _ _ _ => 0

/-- The number of keys whose time has come. -/
def evictions : Op → ℕ
  | .evict _ _ keys => keys.length
  | .set _ _ _ _ | .get _ | .delete _ _ => 0

end BigCache.Op

/-- How often something happened. -/
structure Tally where
  hits : ℕ := 0
  misses : ℕ := 0
  delHits : ℕ := 0
  delMisses : ℕ := 0
  collisions : ℕ := 0
  evictCount : ℕ := 0
  deriving DecidableEq, Repr

namespace Tally

instance : Zero Tally := ⟨{}⟩

instance : Add Tally where
  add a b := {
    hits := a.hits + b.hits
    misses := a.misses + b.misses
    delHits := a.delHits + b.delHits
    delMisses := a.delMisses + b.delMisses
    collisions := a.collisions + b.collisions
    evictCount := a.evictCount + b.evictCount }

variable (a b : Tally)

@[simp] theorem add_hits : (a + b).hits = a.hits + b.hits := rfl
@[simp] theorem add_misses : (a + b).misses = a.misses + b.misses := rfl
@[simp] theorem add_delHits : (a + b).delHits = a.delHits + b.delHits := rfl
@[simp] theorem add_delMisses : (a + b).delMisses = a.delMisses + b.delMisses := rfl
@[simp] theorem add_collisions : (a + b).collisions = a.collisions + b.collisions := rfl
@[simp] theorem add_evictCount : (a + b).evictCount = a.evictCount + b.evictCount := rfl

/-- The counters that show how often something happened. -/
def toStats (t : Tally) : Stats where
  hits := Int64.ofNat t.hits
  misses := Int64.ofNat t.misses
  delHits := Int64.ofNat t.delHits
  delMisses := Int64.ofNat t.delMisses
  collisions := Int64.ofNat t.collisions
  evictCount := Int64.ofNat t.evictCount

theorem toStats_add : (a + b).toStats = a.toStats + b.toStats := by
  ext <;> exact Int64.ofNat_add _ _

/-- Each counter is increased by one or left alone. -/
theorem add_toStats_of_bool (st : Stats) (hit miss delHit delMiss collision evict : Bool) :
    st + toStats ⟨hit.toNat, miss.toNat, delHit.toNat, delMiss.toNat, collision.toNat,
        evict.toNat⟩ =
      ⟨bif hit then st.hits + 1 else st.hits, bif miss then st.misses + 1 else st.misses,
        bif delHit then st.delHits + 1 else st.delHits,
        bif delMiss then st.delMisses + 1 else st.delMisses,
        bif collision then st.collisions + 1 else st.collisions,
        bif evict then st.evictCount + 1 else st.evictCount⟩ := by
  have hadd : ∀ (x : Int64) (b : Bool), x + Int64.ofNat b.toNat = bif b then x + 1 else x := by
    rintro x (_ | _)
    · exact Int64.add_zero x
    · rfl
  exact Stats.ext (hadd _ _) (hadd _ _) (hadd _ _) (hadd _ _) (hadd _ _) (hadd _ _)

/-- The numbers fit the counters. -/
structure Fits (t : Tally) : Prop where
  hits : t.hits < 2 ^ 63
  misses : t.misses < 2 ^ 63
  delHits : t.delHits < 2 ^ 63
  delMisses : t.delMisses < 2 ^ 63
  collisions : t.collisions < 2 ^ 63
  evictCount : t.evictCount < 2 ^ 63

end Tally

/-- The counters are these numbers. -/
structure Stats.Shows (st : Stats) (t : Tally) : Prop where
  hits : st.hits.toInt = t.hits
  misses : st.misses.toInt = t.misses
  delHits : st.delHits.toInt = t.delHits
  delMisses : st.delMisses.toInt = t.delMisses
  collisions : st.collisions.toInt = t.collisions
  evictCount : st.evictCount.toInt = t.evictCount

theorem Tally.Fits.shows {t : Tally} (h : t.Fits) : t.toStats.Shows t where
  hits := Int64.toInt_ofNat_of_lt h.hits
  misses := Int64.toInt_ofNat_of_lt h.misses
  delHits := Int64.toInt_ofNat_of_lt h.delHits
  delMisses := Int64.toInt_ofNat_of_lt h.delMisses
  collisions := Int64.toInt_ofNat_of_lt h.collisions
  evictCount := Int64.toInt_ofNat_of_lt h.evictCount

/-- Each lookup is a hit, a miss or a collision.  Each deletion is a hit or a miss, and so is each
eviction, except for that of a key that was set again with another timestamp. -/
structure Tally.AddUp (t : Tally) (lookups deletions evictions : ℕ) : Prop where
  lookups_eq : t.hits + t.misses + t.collisions = lookups
  evictions_eq : t.evictCount = evictions
  deletions_le : deletions ≤ t.delHits + t.delMisses
  le_deletions : t.delHits + t.delMisses ≤ deletions + evictions

theorem Tally.addUp_zero : Tally.AddUp 0 0 0 0 := ⟨rfl, rfl, le_rfl, le_rfl⟩

theorem Tally.AddUp.add {a b : Tally} {l l' d d' e e' : ℕ} (ha : a.AddUp l d e)
    (hb : b.AddUp l' d' e') : (a + b).AddUp (l + l') (d + d') (e + e') := by
  obtain ⟨hl, he, hd, hd₁⟩ := ha
  obtain ⟨hl', he', hd', hd₁'⟩ := hb
  constructor
  · simp only [add_hits, add_misses, add_collisions]
    omega
  · rw [add_evictCount, he, he']
  · simp only [add_delHits, add_delMisses]
    omega
  · simp only [add_delHits, add_delMisses]
    omega

/-! ## The account of the calls

What a call counts depends on the table of entries alone. -/

namespace Table

/-- What a `Get` counts. -/
def getTally (m : Table) (key : Key) (h : UInt64) : Tally :=
  match m h with
  | none => { misses := 1 }
  | some e => if e.key = key then { hits := 1 } else { collisions := 1 }

/-- What a `Delete` counts. -/
def delTally (m : Table) (h : UInt64) : Tally :=
  match m h with
  | none => { delMisses := 1 }
  | some _ => { delHits := 1 }

/-- What the eviction of a key counts. -/
def evictKeyTally (hasher : Hasher) (t : UInt64) (m : Table) (v : Key) : Tally :=
  match m (hasher v) with
  | none => { evictCount := 1, delMisses := 1 }
  | some e =>
    if e.timestamp = t then { evictCount := 1, delHits := 1 } else { evictCount := 1 }

/-- What the eviction of some keys counts. -/
def evictTally (hasher : Hasher) (t : UInt64) : Table → List Key → Tally
  | _, [] => 0
  | m, v :: keys =>
    m.evictKeyTally hasher t v + evictTally hasher t (m.evictKey hasher t v) keys

/-- What a call counts. -/
def tally (hasher : Hasher) (mask : UInt64) (m : Table) : BigCache.Op → Tally
  | .set _ _ _ _ => 0
  | .get key => m.getTally key (hasher key)
  | .delete key _ => m.delTally (hasher key)
  | .evict i t keys => (m.part mask i).evictTally hasher t keys

/-- The number of entries a call adds. -/
def inserts (hasher : Hasher) (m : Table) : BigCache.Op → ℕ
  | .set key _ _ _ => if m (hasher key) = none then 1 else 0
  | .get _ | .delete _ _ | .evict _ _ _ => 0

theorem addUp_getTally (m : Table) (key : Key) (h : UInt64) : (m.getTally key h).AddUp 1 0 0 := by
  rw [getTally]
  rcases m h with _ | e
  · exact ⟨rfl, rfl, le_rfl, le_rfl⟩
  · simp only
    split_ifs
    · exact ⟨rfl, rfl, le_rfl, le_rfl⟩
    · exact ⟨rfl, rfl, le_rfl, le_rfl⟩

theorem addUp_delTally (m : Table) (h : UInt64) : (m.delTally h).AddUp 0 1 0 := by
  rw [delTally]
  rcases m h with _ | e
  · exact ⟨rfl, rfl, le_rfl, le_rfl⟩
  · exact ⟨rfl, rfl, le_rfl, le_rfl⟩

theorem addUp_evictKeyTally (hasher : Hasher) (t : UInt64) (m : Table) (v : Key) :
    (m.evictKeyTally hasher t v).AddUp 0 0 1 := by
  rw [evictKeyTally]
  rcases m (hasher v) with _ | e
  · exact ⟨rfl, rfl, Nat.zero_le _, le_rfl⟩
  · simp only
    split_ifs
    · exact ⟨rfl, rfl, Nat.zero_le _, le_rfl⟩
    · exact ⟨rfl, rfl, Nat.zero_le _, Nat.zero_le _⟩

theorem addUp_evictTally (hasher : Hasher) (t : UInt64) (keys : List Key) (m : Table) :
    (m.evictTally hasher t keys).AddUp 0 0 keys.length := by
  induction keys generalizing m with
  | nil => exact Tally.addUp_zero
  | cons v keys ih =>
    rw [evictTally, List.length_cons, Nat.add_comm]
    exact (m.addUp_evictKeyTally hasher t v).add (ih _)

theorem addUp_tally (hasher : Hasher) (mask : UInt64) (m : Table) (op : BigCache.Op) :
    (m.tally hasher mask op).AddUp op.lookups op.deletions op.evictions := by
  rcases op with _ | key | _ | ⟨i, t, keys⟩
  · exact Tally.addUp_zero
  · exact m.addUp_getTally key _
  · exact m.addUp_delTally _
  · exact addUp_evictTally hasher t keys _

end Table

/-- The table of some calls, and what they have counted. -/
structure Account where
  table : Table
  tally : Tally
  /-- The number of the calls of `Set` that found their hash free. -/
  inserted : ℕ

namespace Account

/-- One more call. -/
def record (hasher : Hasher) (mask : UInt64) (a : Account) (op : BigCache.Op) : Account where
  table := a.table.run hasher mask op
  tally := a.tally + a.table.tally hasher mask op
  inserted := a.inserted + a.table.inserts hasher op

/-- The account of some calls. -/
def ofCalls (hasher : Hasher) (mask : UInt64) (ls : List BigCache.Op) : Account :=
  ls.foldl (record hasher mask) ⟨fun _ ↦ none, 0, 0⟩

theorem ofCalls_append (hasher : Hasher) (mask : UInt64) (ls : List BigCache.Op)
    (op : BigCache.Op) :
    ofCalls hasher mask (ls ++ [op]) = (ofCalls hasher mask ls).record hasher mask op := by
  rw [ofCalls, List.foldl_append]
  rfl

theorem table_ofCalls {T M : Type} (c : BigCache T M) (ls : List BigCache.Op) :
    (ofCalls c.hash c.shardMask ls).table = c.contents ls := by
  induction ls using List.reverseRecOn with
  | nil => rfl
  | append_singleton ls op ih =>
    rw [ofCalls_append, record, ih, BigCache.contents, BigCache.contents, List.foldl_append]
    rfl

/-- The account of any calls adds up. -/
theorem addUp_ofCalls (hasher : Hasher) (mask : UInt64) (ls : List BigCache.Op) :
    (ofCalls hasher mask ls).tally.AddUp (ls.map BigCache.Op.lookups).sum
      (ls.map BigCache.Op.deletions).sum (ls.map BigCache.Op.evictions).sum := by
  induction ls using List.reverseRecOn with
  | nil => exact Tally.addUp_zero
  | append_singleton ls op ih =>
    rw [ofCalls_append]
    simp only [List.map_append, List.sum_append, List.map_singleton, List.sum_singleton]
    exact ih.add (Table.addUp_tally hasher mask _ op)

end Account

/-! ## What the calls on a shard count

This is where the counters of the source are compared with the account, one method of the shard
after the other. -/

namespace CacheShard

theorem keys_insert (hm : Finmap fun _ : UInt64 ↦ UInt32) (h : UInt64) (i : UInt32) :
    (hm.insert h i).keys = insert h hm.keys := by
  ext h'
  simp [Finmap.mem_keys, Finmap.mem_insert]

theorem keys_erase (hm : Finmap fun _ : UInt64 ↦ UInt32) (h : UInt64) :
    (hm.erase h).keys = hm.keys.erase h := by
  ext h'
  simp [Finmap.mem_keys]

variable {T M : Type} [OrderedMap T ℤ Ptr] {s s' s'' : CacheShard T M} {m : Table} {h : UInt64}
  {e : Entry} {key : Key}

/-- The shard has the hashes of the table. -/
theorem Rep.mem_keys (hr : s.Rep m) : h ∈ s.hashmap.keys ↔ m h ≠ none := by
  rw [Finmap.mem_keys, ← Finmap.lookup_isSome]
  rcases hm : m h with _ | e
  · simp [hr.stores.absent h hm]
  · obtain ⟨i, hb⟩ := hr.block hm
    simp [hb.lookup]

/-- A call counted this, and added so many entries. -/
structure Counts (s s' : CacheShard T M) (t : Tally) (n : ℕ) : Prop where
  stats : s'.stats = s.stats + t.toStats
  len : s'.len + t.delHits = s.len + n

omit [OrderedMap T ℤ Ptr] in
theorem Counts.refl (s : CacheShard T M) : Counts s s 0 0 := ⟨(add_zero _).symm, rfl⟩

omit [OrderedMap T ℤ Ptr] in
theorem Counts.trans {t t' : Tally} {n n' : ℕ} (h : Counts s s' t n)
    (h' : Counts s' s'' t' n') : Counts s s'' (t + t') (n + n') where
  stats := by rw [h'.stats, h.stats, Tally.toStats_add, add_assoc]
  len := by
    have hlen := h.len
    have hlen' := h'.len
    rw [Tally.add_delHits]
    omega

/-- An entry is taken out. -/
theorem Rep.len_erase (hr : s.Rep m) (hm : m h = some e) (hmap : s'.hashmap = s.hashmap.erase h) :
    s'.len + 1 = s.len := by
  rw [len, hmap, keys_erase, len]
  exact Finset.card_erase_add_one (hr.mem_keys.mpr (by simp [hm]))

theorem Rep.counts_get {r : Except CacheError Bytes} (hr : s.Rep m)
    (hkey : ∀ e, m h = some e → e.key.length ≤ maxKeyLength)
    (hok : s.get key h = .ok (s', r)) : Counts s s' (m.getTally key h) 0 := by
  rw [CacheShard.get, Go.bind_eq_ok] at hok
  obtain ⟨⟨s₁, r₁⟩, hview, hok⟩ := hok
  have hs : s₁ = s' := by
    rcases r₁ with err | v
    · exact (Prod.mk.inj (Except.ok.inj hok)).1
    · obtain ⟨b, -, hb⟩ := Go.bind_eq_ok.mp hok
      exact (Prod.mk.inj (Except.ok.inj hb)).1
  subst hs
  rw [Table.getTally]
  rcases hm : m h with _ | e
  · rw [hr.getView_of_none hm] at hview
    obtain ⟨rfl, -⟩ := Prod.mk.inj (Except.ok.inj hview)
    exact ⟨(Tally.add_toStats_of_bool s.stats false true false false false false).symm, rfl⟩
  · obtain ⟨i, hb⟩ := hr.block hm
    rw [(hb.readable hr).getView, Entry.readKey_of_le (hkey e hm), Go.ok_bind] at hview
    simp only
    split_ifs at hview with hne
    · obtain ⟨rfl, -⟩ := Prod.mk.inj (Except.ok.inj hview)
      rw [if_neg (Ne.symm hne)]
      exact ⟨(Tally.add_toStats_of_bool s.stats false false false false true false).symm, rfl⟩
    · obtain ⟨rfl, -⟩ := Prod.mk.inj (Except.ok.inj hview)
      rw [if_pos (not_not.mp hne).symm]
      exact ⟨(Tally.add_toStats_of_bool s.stats true false false false false false).symm, rfl⟩

/-- One round of `evictDel`. -/
theorem Rep.counts_evictKey {hasher : Hasher} {t : UInt64} {v : Key} (hr : s.Rep m)
    (hok : CacheShard.evictKey hasher t s v = .ok s') :
    Counts s s' (m.evictKeyTally hasher t v) 0 := by
  have hr₁ : ({ s with stats := { s.stats with evictCount := s.stats.evictCount + 1 } } :
      CacheShard T M).Rep m := hr.congr rfl rfl rfl
  unfold CacheShard.evictKey at hok
  simp only at hok
  rw [Table.evictKeyTally]
  rcases hm : m (hasher v) with _ | e
  · rw [if_pos (hr₁.index_of_none hm)] at hok
    obtain rfl := Except.ok.inj hok
    exact ⟨(Tally.add_toStats_of_bool s.stats false false false true false true).symm, rfl⟩
  · obtain ⟨i, hb⟩ := hr₁.block hm
    have hread := hb.readable hr₁
    obtain ⟨hget, hload⟩ := hread.get
    have hts : readTimestampFromEntry _ = .ok e.timestamp := readTimestampFromEntry_wrapped hload
    rw [if_neg hread.index_ne_zero, hget, Go.ok_bind] at hok
    simp only at hok ⊢
    rw [hts, Go.ok_bind] at hok
    split_ifs at hok with ht
    · rw [hread.takeOut rfl] at hok
      rw [if_pos ht]
      rcases hcb : e.callback s.onRemove (hasher v) with f | cb
      · rw [hcb] at hok
        cases hok
      · rw [hcb] at hok
        obtain rfl := Except.ok.inj hok
        exact ⟨(Tally.add_toStats_of_bool s.stats false false true false false true).symm,
          hr.len_erase hm rfl⟩
    · obtain rfl := Except.ok.inj hok
      rw [if_neg ht]
      exact ⟨(Tally.add_toStats_of_bool s.stats false false false false false true).symm, rfl⟩

/-- The loop of `evictDel`. -/
theorem Rep.counts_evictDel {hasher : Hasher} {t : UInt64} {keys : List Key} (hr : s.Rep m)
    (hok : CacheShard.evictDel hasher s t keys = .ok s') :
    Counts s s' (m.evictTally hasher t keys) 0 := by
  rw [CacheShard.evictDel, hr.lock, Go.ok_bind] at hok
  induction keys generalizing s m with
  | nil =>
    obtain rfl : s = s' := Except.ok.inj hok
    exact .refl s
  | cons v keys ih =>
    rw [List.foldlM_cons, Go.bind_eq_ok] at hok
    obtain ⟨s₁, hs₁, hok⟩ := hok
    obtain ⟨s₂, hs₂, ho⟩ | ⟨e, f, -, -, hf⟩ := hr.evictKey hasher t v
    · obtain rfl : s₂ = s₁ := Except.ok.inj (hs₂.symm.trans hs₁)
      exact (hr.counts_evictKey hs₁).trans (ih (ho.rep hr) hok)
    · rw [hf] at hs₁
      cases hs₁

variable [OrderedMap M UInt64 (Finset Key)] {now : ℕ}

theorem Rep.counts_del {r : Except CacheError Unit} (hr : s.Rep m)
    (hok : s.del key h now = .ok (s', r)) : Counts s s' (m.delTally h) 0 := by
  rw [Table.delTally]
  rcases hm : m h with _ | e
  · rw [hr.del_of_none hm] at hok
    obtain ⟨rfl, -⟩ := Prod.mk.inj (Except.ok.inj hok)
    exact ⟨(Tally.add_toStats_of_bool s.stats false false false true false false).symm, rfl⟩
  · obtain ⟨i, hb⟩ := hr.block hm
    rw [(hb.readable hr).del] at hok
    rcases hcb : e.callback s.onRemove h with f | cb
    · rw [hcb] at hok
      cases hok
    · rw [hcb] at hok
      obtain ⟨rfl, -⟩ := Prod.mk.inj (Except.ok.inj hok)
      exact ⟨(Tally.add_toStats_of_bool s.stats false false true false false false).symm,
        hr.len_erase hm rfl⟩

theorem Rep.counts_set {entry : Bytes} {duration : Int64} {r : Except CacheError UInt64}
    (hr : s.Rep m) (hok : s.set key h entry duration now = .ok (s', r))
    (hunlocked : s'.locked = false) : Counts s s' 0 (if m h = none then 1 else 0) := by
  obtain ⟨s₁, r₁, hset, ho⟩ := hr.set_cases key entry duration now (h := h)
  obtain ⟨rfl, -⟩ := Prod.mk.inj (Except.ok.inj (hset.symm.trans hok))
  rcases ho with _ | _
  · refine ⟨(add_zero _).symm, ?_⟩
    rw [len, len, keys_insert]
    split_ifs with hm
    · exact Finset.card_insert_of_notMem fun hmem ↦ hr.mem_keys.mp hmem hm
    · rw [Finset.insert_eq_of_mem (hr.mem_keys.mpr hm)]
      rfl
  · cases hunlocked

end CacheShard

/-! ## What the calls on a cache count

The statistics of a cache are those of its shards, added up, and a call changes one of them. -/

/-- The sum over a list in which one element was replaced. -/
theorem sum_map_set {α β : Type} [AddCommMonoid β] (f : α → β) {l : List α} {i : ℕ} {a b : α}
    {d n : β} (hi : l[i]? = some a) (hd : f b + d = f a + n) :
    ((l.set i b).map f).sum + d = (l.map f).sum + n := by
  induction l generalizing i with
  | nil => cases hi
  | cons x l ih =>
    rcases i with _ | i
    · obtain rfl := Option.some.inj hi
      rw [List.set_cons_zero, List.map_cons, List.map_cons, List.sum_cons, List.sum_cons,
        add_right_comm, hd, add_right_comm]
    · rw [List.set_cons_succ, List.map_cons, List.map_cons, List.sum_cons, List.sum_cons, add_assoc,
        ih hi, add_assoc]

namespace BigCache

variable {T M : Type} [OrderedMap T ℤ Ptr] [OrderedMap M UInt64 (Finset Key)]

omit [OrderedMap T ℤ Ptr] [OrderedMap M UInt64 (Finset Key)] in
theorem stats_eq_sum (c : BigCache T M) : c.stats = (c.shards.map CacheShard.stats).sum := by
  rw [stats, List.sum_eq_foldl, List.foldl_map]

open CacheShard (Counts)

/-- What a call on a shard counts is what the account says. -/
theorem Passed.counts {hash : Hasher} {s s' : CacheShard T M} {op : Op} {m : Table}
    {mask : UInt64} (hp : Passed hash s s' op) (hr : s.Rep (m.part mask (op.target hash mask)))
    (hkeyed : m.Keyed hash) (hland : Landed s s' op) :
    Counts s s' (m.tally hash mask op) (m.inserts hash op) := by
  cases hp with
  | set h =>
    have hc := hr.counts_set h hland.1
    rwa [Op.target, Table.part_of_eq rfl] at hc
  | get h =>
    have hc := hr.counts_get (fun e he ↦ (hkeyed _ _ (Table.part_eq_some.mp he).2).2) h
    rwa [Table.getTally, Op.target, Table.part_of_eq rfl] at hc
  | delete h =>
    have hc := hr.counts_del h
    rwa [Table.delTally, Op.target, Table.part_of_eq rfl] at hc
  | @evict i t keys ttl _ _ h =>
    have hc := (hr.withTtl ttl).counts_evictDel h
    exact ⟨hc.stats, hc.len⟩

/-- The counters are those of the account, and so are the lengths of the shards. -/
structure Accounted (c : BigCache T M) (a : Account) : Prop where
  stats : c.stats = a.tally.toStats
  len : (c.shards.map CacheShard.len).sum + a.tally.delHits = a.inserted

omit [OrderedMap T ℤ Ptr] [OrderedMap M UInt64 (Finset Key)] in
/-- One call. -/
theorem Accounted.replace {c : BigCache T M} {a : Account} {i : ℕ} {s s' : CacheShard T M}
    {hash : Hasher} {mask : UInt64} {op : Op} (h : c.Accounted a) (hs : c.shards[i]? = some s)
    (hc : Counts s s' (a.table.tally hash mask op) (a.table.inserts hash op)) :
    ({ c with shards := c.shards.set i s' } : BigCache T M).Accounted (a.record hash mask op) where
  stats := by
    have hsum := sum_map_set CacheShard.stats hs (d := 0) ((add_zero _).trans hc.stats)
    rw [add_zero, ← stats_eq_sum, h.stats] at hsum
    rw [stats_eq_sum, Account.record, Tally.toStats_add]
    exact hsum
  len := by
    have hsum := sum_map_set CacheShard.len hs hc.len
    have hlen := h.len
    simp only [Account.record, Tally.add_delHits]
    omega

variable {hasher : Hasher} {ls : List Op} {c : BigCache T M}

theorem accounted_new {config : Config} {hasher : Option Hasher} {now : ℕ}
    (h : newBigCache config hasher now = .ok (.ok c)) : c.Accounted ⟨fun _ ↦ none, 0, 0⟩ := by
  have hall := (newBigCache_spec h).2.2.2.2.2.2
  have hzero : ∀ s ∈ c.shards, s.stats = 0 ∧ s.len = 0 := by
    intro s hs
    have hinit := hall s hs
    simp only [CacheShard.initNewShard, Go.bind_eq_ok] at hinit
    obtain ⟨_, -, _, -, _, -, _, -, hinit⟩ := hinit
    obtain rfl := Except.ok.inj hinit
    exact ⟨rfl, rfl⟩
  refine ⟨?_, ?_⟩
  · rw [stats_eq_sum]
    exact List.sum_eq_zero (List.forall_mem_map.mpr fun s hs ↦ (hzero s hs).1)
  · exact List.sum_eq_zero (List.forall_mem_map.mpr fun s hs ↦ (hzero s hs).2)

theorem accounted_of_run (hr : ((reachable T M hasher).restrict Exact).Run ls c) :
    c.Accounted (.ofCalls hasher c.shardMask ls) := by
  induction hr with
  | start hinit =>
    obtain ⟨config, now, hnew⟩ := hinit
    exact accounted_new hnew
  | @snoc ls c c' op hr hstep ih =>
    obtain ⟨hstep, hsound, -⟩ := hstep
    obtain ⟨rfl, hrep⟩ := reachable_represents (hr.restrict_mono fun _ _ h ↦ h.1)
    obtain ⟨s, s', hs, hpassed, hc'⟩ := call_cases hstep
    have hrep := hrep (List.ne_nil_of_mem (List.mem_of_getElem? hs))
    have hland := hsound.landed hrep hstep s s' hs (by
      rw [hc']
      exact List.getElem?_set_self (List.getElem?_eq_some_iff.mp hs).1)
    have hcounts := hpassed.counts (hrep.shard _ s hs) (exact_inv hr).1 hland
    rw [← Account.table_ofCalls] at hcounts
    rw [hc', Account.ofCalls_append]
    exact ih.replace hs hcounts

/-- **The statistics are exact**: the counters are those of the account of the calls, and show its
numbers as long as these fit sixty-three bits; the numbers add up, and with them `Len` is known. -/
theorem statistics_exact (hr : ((reachable T M hasher).restrict Exact).Run ls c)
    (hne : c.shards ≠ []) :
    c.stats = (Account.ofCalls hasher c.shardMask ls).tally.toStats ∧
      ((Account.ofCalls hasher c.shardMask ls).tally.Fits →
        c.stats.Shows (Account.ofCalls hasher c.shardMask ls).tally) ∧
      (Account.ofCalls hasher c.shardMask ls).tally.AddUp (ls.map Op.lookups).sum
        (ls.map Op.deletions).sum (ls.map Op.evictions).sum ∧
      ∃ n, c.len = .ok n ∧ n + (Account.ofCalls hasher c.shardMask ls).tally.delHits =
        (Account.ofCalls hasher c.shardMask ls).inserted := by
  have hacc := accounted_of_run hr
  have hrep := (reachable_represents (hr.restrict_mono fun _ _ h ↦ h.1)).2 hne
  refine ⟨hacc.stats, fun hfits ↦ ?_, Account.addUp_ofCalls hasher c.shardMask ls, _, hrep.len_eq,
    hacc.len⟩
  rw [hacc.stats]
  exact hfits.shows

/-- Two keys with one hash, of which the first is replaced; the eviction finds both. -/
theorem statistics_exact_collision :
    ∃ c : ListCache, ((reachable _ _ lengthHasher).restrict Exact).Run
        [.set [1] [7] 1000000000 0, .set [2] [8] 1000000000 0, .get [2], .get [1],
          .evict 1 1 [[1], [2]], .get [2], .delete [2] 0] c ∧
      c.stats = ⟨1, 1, 1, 2, 1, 2⟩ ∧ c.stats.Shows ⟨1, 1, 1, 2, 1, 2⟩ ∧ c.len = .ok 0 := by
  obtain ⟨c, hr, hc⟩ := TransitionSystem.exists_run
    (S := (reachable (SortedAssoc ℤ Ptr) (SortedAssoc UInt64 (Finset Key)) lengthHasher).restrict
      Exact)
    TransitionSystem.step_of_guarded
    (l := [.set [1] [7] 1000000000 0, .set [2] [8] 1000000000 0, .get [2], .get [1],
      .evict 1 1 [[1], [2]], .get [2], .delete [2] 0])
    (x := (newBigCache ⟨2, 0, 1, 0, true⟩ (some lengthHasher) 0).toOption.bind Except.toOption)
    (p := fun c ↦ c.shards ≠ [] ∧ (Account.ofCalls lengthHasher c.shardMask
      [.set [1] [7] 1000000000 0, .set [2] [8] 1000000000 0, .get [2], .get [1],
        .evict 1 1 [[1], [2]], .get [2], .delete [2] 0]).tally = ⟨1, 1, 1, 2, 1, 2⟩ ∧
      (Account.ofCalls lengthHasher c.shardMask
      [.set [1] [7] 1000000000 0, .set [2] [8] 1000000000 0, .get [2], .get [1],
        .evict 1 1 [[1], [2]], .get [2], .delete [2] 0]).inserted = 1)
    (fun c hc ↦ ⟨_, 0, newBigCache_of_toOption hc⟩) (by decide +kernel)
  obtain ⟨hne, htally, hinserted⟩ := of_decide_eq_true hc
  obtain ⟨hstats, hshows, -, n, hn, hlen⟩ := statistics_exact hr hne
  rw [htally] at hstats hshows hlen
  refine ⟨c, hr, hstats, hshows (by constructor <;> decide), ?_⟩
  rw [hinserted] at hlen
  obtain rfl : n = 0 := Nat.succ.inj hlen
  exact hn

end BigCache
end ClusteredBigCache
