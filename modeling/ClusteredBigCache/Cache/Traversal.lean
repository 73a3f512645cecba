import ClusteredBigCache.Cache.Iterator

/-!
# An iteration while the cache changes

An iterator copies the indices of a shard when it comes to it, and reads the entries later.  In the
meantime the cache may change.  What `Value` then reads at an index whose entry is gone is whatever
is there: another entry, an error, or something that is no entry at all.  But as long as an entry is
live its index does not change (`Represents.lookup_call`), and so no entry that is live all along is
missed.

A `Traversal` is an iterator and its cache, with calls of both in any order; `Value` is called once
after each `SetNext` that returned true.  `traversal_complete` says that when `SetNext` has returned
false, `Value` has told about every entry that was there when the iterator was made and was not
superseded since.  Nothing is said about the other entries it tells about, and a `Value` that panics
at a stale index is no step of a `Traversal`.
-/

set_option autoImplicit false

namespace ClusteredBigCache

/-! ## The index of a live entry

Only `Set` changes where a hash leads to, and only for the hash of its key; the other calls erase.
So an entry that stays stays at its index. -/

namespace CacheShard

variable {T M : Type} [OrderedMap T ℤ Ptr] [OrderedMap M UInt64 (Finset Key)]
  {s s' : CacheShard T M} {m : Table} {h : UInt64}

theorem Rep.lookup_set (hr : s.Rep m) {key : Key} {k : UInt64} {entry : Bytes} {duration : Int64}
    {now : ℕ} {r : Except CacheError UInt64} (hok : s.set key k entry duration now = .ok (s', r))
    (hk : k ≠ h) : s'.hashmap.lookup h = s.hashmap.lookup h := by
  obtain ⟨s₁, r₁, hok₁, ho⟩ := hr.set_cases key entry duration now (h := k)
  obtain ⟨rfl, rfl⟩ := Prod.mk.inj (Except.ok.inj (hok₁.symm.trans hok))
  match ho with
  | .stored _ _ => exact Finmap.lookup_insert_of_ne _ hk.symm
  | .full _ _ => rfl

theorem Rep.lookup_del (hr : s.Rep m) {key : Key} {k : UInt64} {now : ℕ}
    {r : Except CacheError Unit} (hok : s.del key k now = .ok (s', r)) (hk : k ≠ h) :
    s'.hashmap.lookup h = s.hashmap.lookup h := by
  match hm : m k with
  | none =>
    rw [hr.del_of_none hm] at hok
    obtain ⟨rfl, -⟩ := Prod.mk.inj (Except.ok.inj hok)
    rfl
  | some e =>
    obtain ⟨i, hb⟩ := hr.block hm
    rw [(hb.readable hr).del] at hok
    match hcb : e.callback s.onRemove k with
    | .error f =>
      rw [hcb] at hok
      cases hok
    | .ok cb =>
      rw [hcb] at hok
      obtain ⟨rfl, -⟩ := Prod.mk.inj (Except.ok.inj hok)
      exact Finmap.lookup_erase_ne hk.symm

omit [OrderedMap M UInt64 (Finset Key)] in
/-- An eviction does not change the index of an entry that it leaves. -/
theorem Rep.lookup_evictDel (hr : s.Rep m) {hasher : Hasher} {t : UInt64} {keys : List Key}
    (hok : s.evictDel hasher t keys = .ok s')
    (hleft : keys.foldl (Table.evictKey hasher t) m h ≠ none) :
    s'.hashmap.lookup h = s.hashmap.lookup h := by
  refine (hr.evictDel_induction (P := fun s₁ m₁ ↦ m₁ h ≠ none →
    s₁.hashmap.lookup h = s.hashmap.lookup h) ?_ (fun _ ↦ rfl) hok).2 hleft
  intro s₁ m₁ v s₂ hr₁ hP ho hleft
  match ho with
  | .kept hm =>
    rw [Table.evictKey_of_ne hm] at hleft
    exact hP hleft
  | .removed hm ht hb _ =>
    rw [Table.evictKey_of_eq hm ht] at hleft
    by_cases hv : h = hasher v
    · exact absurd (hv ▸ Function.update_self ..) hleft
    · rw [Function.update_of_ne hv] at hleft
      exact (Finmap.lookup_erase_ne hv).trans (hP hleft)

end CacheShard

namespace BigCache

variable {T M : Type} [OrderedMap T ℤ Ptr] [OrderedMap M UInt64 (Finset Key)]
  {c c' : BigCache T M} {m : Table} {h : UInt64} {e : Entry}

/-- A call on a shard that leaves an entry leaves it where it is. -/
theorem Passed.lookup_eq {hash : Hasher} {s s' : CacheShard T M} {op : Op} (hr : s.Rep m)
    (hp : Passed hash s s' op) {mask : UInt64} (htarget : (h &&& mask).toNat = op.target hash mask)
    (hm : m h = some e) (hkey : hash e.key = h)
    (hleft : ¬ Supersedes hash mask e.key e.timestamp op) :
    s'.hashmap.lookup h = s.hashmap.lookup h := by
  cases hp with
  | set hok => exact hr.lookup_set hok fun hk ↦ hleft (hk.trans hkey.symm)
  | get hok =>
    obtain ⟨-, stats, rfl⟩ := hr.eq_of_get hok
    rfl
  | delete hok => exact hr.lookup_del hok fun hk ↦ hleft (hk.trans hkey.symm)
  | @evict i t keys ttl htake hnodup hok =>
    refine (hr.withTtl ttl).lookup_evictDel hok ?_
    rw [Table.foldl_evictKey, if_neg, hm]
    · simp
    · rintro ⟨hv, ht⟩
      rw [hm, Option.map_some] at ht
      refine hleft ⟨by rwa [hkey], ?_, (Option.some.inj ht).symm⟩
      rwa [hkey]

/-- **The index of an entry does not change while it is live.** -/
theorem Represents.lookup_call {op : Op} (hr : c.Represents m) (hstep : c.call op = some c')
    (hm : m h = some e) (hkey : c.hash e.key = h)
    (hleft : ¬ Supersedes c.hash c.shardMask e.key e.timestamp op) {s s' : CacheShard T M}
    (hs : c.shards[c.shardIndex h]? = some s) (hs' : c'.shards[c.shardIndex h]? = some s') :
    s'.hashmap.lookup h = s.hashmap.lookup h := by
  obtain ⟨s₁, s₁', hs₁, hp, rfl⟩ := call_cases hstep
  by_cases htarget : c.shardIndex h = op.target c.hash c.shardMask
  · rw [htarget] at hs hs'
    obtain rfl := Option.some.inj (hs₁.symm.trans hs)
    obtain rfl : s₁' = s' := by
      rw [List.getElem?_set_self (List.getElem?_eq_some_iff.mp hs).1] at hs'
      exact Option.some.inj hs'
    have hpart : m.part c.shardMask (op.target c.hash c.shardMask) h = some e :=
      Table.part_eq_some.mpr ⟨htarget, hm⟩
    exact hp.lookup_eq (hr.shard _ _ hs₁) htarget hpart hkey hleft
  · rw [List.getElem?_set_ne (Ne.symm htarget)] at hs'
    rw [Option.some.inj (hs'.symm.trans hs)]

end BigCache

/-! ## The loop of `SetNext` -/

namespace EntryInfoIterator

variable {T M : Type} {c : BigCache T M}

/-- **What the loop of `SetNext` finds**: the first shard that is not empty, or no shard. -/
theorem nextShard_cases (hlock : ∀ s ∈ c.shards, s.locked = false) {order : ℕ → List UInt64}
    (ho : c.ListedBy order) {i n : ℕ} (hn : i + n = c.shards.length)
    (it : EntryInfoIterator) :
    (∃ j s, i ≤ j ∧ c.shards[j]? = some s ∧
      (∀ k s', i ≤ k → k < j → c.shards[k]? = some s' → s'.len = 0) ∧
      nextShard c order i n it =
        .ok (⟨j, 0, (order j).map s.index, (order j).length, true⟩, true)) ∨
    (∀ k s', i ≤ k → c.shards[k]? = some s' → s'.len = 0) ∧
      ∃ it', nextShard c order i n it = .ok (it', false) := by
  induction n generalizing i it with
  | zero =>
    refine .inr ⟨fun k s' hk hs' ↦ ?_, it, rfl⟩
    have hlt := (List.getElem?_eq_some_iff.mp hs').1
    omega
  | succ n ih =>
    have hs : c.shards[i]? = some c.shards[i] := List.getElem?_eq_getElem (by omega)
    have hlisted := ho i _ hs
    have hcopy := CacheShard.copyKeys_eq (hlock _ (List.getElem_mem _)) hlisted
    simp only [nextShard, hs, hcopy, Go.ok_bind]
    by_cases hcount : 0 < (order i).length
    · refine .inl ⟨i, c.shards[i], le_rfl, hs, fun k s' hk hk' ↦ by omega, ?_⟩
      rw [if_pos hcount]
      rfl
    · have hzero : c.shards[i].len = 0 := hlisted.length_eq.symm.trans (by omega)
      have hself : ∀ s', c.shards[i]? = some s' → s'.len = 0 := fun s' hs' ↦ by
        rw [← Option.some.inj (hs.symm.trans hs'), hzero]
      rw [if_neg hcount]
      rcases ih (i := i + 1) (by omega)
        { it with elements := (order i).map _, elementsCount := (order i).length } with
        ⟨j, s, hj, hsj, hempty, hnext⟩ | ⟨hempty, it', hnext⟩
      · refine .inl ⟨j, s, by omega, hsj, fun k s' hk hk' hs' ↦ ?_, hnext⟩
        rcases eq_or_lt_of_le hk with rfl | hlt
        · exact hself s' hs'
        · exact hempty k s' hlt hk' hs'
      · refine .inr ⟨fun k s' hk hs' ↦ ?_, it', hnext⟩
        rcases eq_or_lt_of_le hk with rfl | hlt
        · exact hself s' hs'
        · exact hempty k s' hlt hs'

/-- What `SetNext` may find. -/
inductive Next (c : BigCache T M) (order : ℕ → List UInt64) (it : EntryInfoIterator) :
    EntryInfoIterator × Bool → Prop
  /-- The next index of those that were copied. -/
  | within (h : it.currentIndex + 1 < it.elementsCount) :
      Next c order it ({ it with valid := true, currentIndex := it.currentIndex + 1 }, true)
  /-- The first one of the next shard that is not empty. -/
  | moved {j : ℕ} {s : CacheShard T M} (h : it.elementsCount ≤ it.currentIndex + 1)
      (hj : it.currentShard < j) (hs : c.shards[j]? = some s)
      (hempty : ∀ k s', it.currentShard < k → k < j → c.shards[k]? = some s' → s'.len = 0) :
      Next c order it (⟨j, 0, (order j).map s.index, (order j).length, true⟩, true)
  /-- There is none. -/
  | ended {it' : EntryInfoIterator} (h : it.elementsCount ≤ it.currentIndex + 1)
      (hempty : ∀ k s', it.currentShard < k → c.shards[k]? = some s' → s'.len = 0) :
      Next c order it (it', false)

/-- **`SetNext` returns**, and this is what it finds. -/
theorem setNext_cases (hlock : ∀ s ∈ c.shards, s.locked = false)
    (hlen : c.config.shards.toInt.toNat = c.shards.length) {order : ℕ → List UInt64}
    (ho : c.ListedBy order) {it : EntryInfoIterator}
    (hlt : it.currentShard < c.shards.length) :
    ∃ r, it.setNext c order = .ok r ∧ Next c order it r := by
  rw [setNext, hlen]
  by_cases hcount : it.currentIndex + 1 < it.elementsCount
  · exact ⟨_, if_pos hcount, .within hcount⟩
  · simp only [gt_iff_lt, if_neg hcount]
    rw [not_lt] at hcount
    rcases nextShard_cases hlock ho (i := it.currentShard + 1)
      (n := c.shards.length - (it.currentShard + 1)) (by omega)
      { it with valid := false, currentIndex := it.currentIndex + 1 } with
      ⟨j, s, hj, hs, hempty, hnext⟩ | ⟨hempty, it', hnext⟩
    · exact ⟨_, hnext, .moved hcount hj hs fun k s' hk ↦ hempty k s' hk⟩
    · exact ⟨_, hnext, .ended hcount fun k s' hk ↦ hempty k s' hk⟩

end EntryInfoIterator

/-! ## Traversals

The invariant is about one entry: it was told about, or it is `Ahead`, which means that its index is
among those that were copied and not used, or that its shard is yet to come. -/

/-- An iterator and its cache, in the middle of an iteration. -/
structure Traversal (T M : Type) where
  cache : BigCache T M
  it : EntryInfoIterator
  /-- The last `SetNext` returned true, and `Value` was not called since. -/
  fresh : Bool
  /-- A `SetNext` returned false. -/
  finished : Bool
  /-- What `Value` has told about. -/
  seen : List EntryInfo

namespace Traversal

open BigCache EntryInfoIterator

variable {T M : Type} [OrderedMap T ℤ Ptr] [OrderedMap M UInt64 (Finset Key)]

/-- The calls, of the cache and of the iterator. -/
inductive Act
  | call (op : Op)
  | setNext (order : ℕ → List UInt64)
  | value

/-- A call that returns.  After `SetNext` has returned true comes `Value`, and it does not come
otherwise. -/
def step (s : Traversal T M) : Act → Option (Traversal T M)
  | .call op => (s.cache.call op).map fun c ↦ { s with cache := c }
  | .setNext order =>
    if s.fresh then none
    else (s.it.setNext s.cache order).toOption.map fun (it, more) ↦
      { s with it := it, fresh := more, finished := s.finished || !more }
  | .value =>
    if s.fresh then (s.it.value s.cache).toOption.map fun r ↦
      { s with fresh := false, seen := s.seen ++ r.toOption.toList }
    else none

/-- The calls of the cache are sound and have keys that are not too long, and the orders are ones
in which the maps can list their keys. -/
def Proper (s : Traversal T M) : Act → Prop
  | .call op => s.cache.Exact op
  | .setNext order => s.cache.ListedBy order
  | .value => True

/-- The traversals of a cache. -/
def system (c : BigCache T M) : TransitionSystem (Traversal T M) Act :=
  TransitionSystem.restrict (.ofStep (fun s ↦ ∃ first it, c.ListedBy first ∧
    newIterator c first = .ok it ∧ s = ⟨c, it, false, false, []⟩) step) Proper

section

variable {hasher : Hasher} {ls : List Op} {e : Entry} {s s' : Traversal T M} {c : BigCache T M}

/-- The iterator has yet to come to the entry with this hash. -/
structure Ahead (h : UInt64) (s : Traversal T M) : Prop where
  unfinished : s.finished = false
  counted : s.it.elements.length = s.it.elementsCount
  valid : s.fresh = true → s.it.valid = true
  place : s.it.currentShard < s.cache.shardIndex h ∨
    s.it.currentShard = s.cache.shardIndex h ∧ ∃ shard, s.cache.shards[s.cache.shardIndex h]? =
      some shard ∧ ∃ p : ℕ, s.it.elements[p]? = some (shard.index h) ∧
        (s.it.currentIndex < p ∨ s.it.currentIndex = p ∧ s.fresh = true)

/-- What is so all along a traversal for an entry that is not superseded. -/
structure Inv (hasher : Hasher) (mask : UInt64) (e : Entry) (s : Traversal T M) : Prop where
  current : ∃ ls, ((reachable T M hasher).restrict Exact).Run ls s.cache ∧ Current hasher mask ls e
  mask_eq : s.cache.shardMask = mask
  shards : s.cache.shards ≠ []
  place : e.info (hasher e.key) ∈ s.seen ∨ Ahead (hasher e.key) s

/-- What a cache with a current entry is like. -/
theorem iterable_of_current (hr : ((reachable T M hasher).restrict Exact).Run ls c)
    (hcur : Current hasher c.shardMask ls e) (hne : c.shards ≠ []) :
    c.hash = hasher ∧ Iterable c (c.contents ls) ∧ c.contents ls (hasher e.key) = some e := by
  obtain ⟨hhash, hrep⟩ := reachable_represents (hr.restrict_mono fun _ _ h ↦ h.1)
  refine ⟨hhash, ⟨hrep hne, hhash ▸ (exact_inv hr).1, length_shards hr.of_restrict⟩, ?_⟩
  have htracks := tracks_contents c ls (hasher e.key) e
  rw [hhash] at htracks
  exact htracks.mpr ⟨rfl, hcur⟩

omit [OrderedMap M UInt64 (Finset Key)] in
/-- A copy of the indices of the shard of an entry has that of the entry. -/
theorem exists_getElem? {m : Table} (hr : c.Represents m) {h : UInt64} (hm : m h ≠ none)
    {shard : CacheShard T M} (hs : c.shards[c.shardIndex h]? = some shard) {order : List UInt64}
    (ho : shard.ListedBy order) : ∃ p : ℕ, (order.map shard.index)[p]? = some (shard.index h) := by
  have hmem : h ∈ order := (mem_order hr hs ho).mpr ⟨hm, rfl⟩
  obtain ⟨p, hp⟩ := List.getElem?_of_mem hmem
  exact ⟨p, by rw [List.getElem?_map, hp, Option.map_some]⟩

omit [OrderedMap M UInt64 (Finset Key)] in
/-- The shard of an entry is there and is not empty. -/
theorem exists_shard {m : Table} (hr : c.Represents m) {h : UInt64} (hm : m h ≠ none)
    {order : ℕ → List UInt64} (ho : c.ListedBy order) :
    ∃ shard, c.shards[c.shardIndex h]? = some shard ∧ shard.len ≠ 0 := by
  obtain ⟨shard, -, hs⟩ := getShard_of_mask hr.mask h
  have hmem : h ∈ order (c.shardIndex h) := (mem_order hr hs (ho _ _ hs)).mpr ⟨hm, rfl⟩
  refine ⟨shard, hs, ?_⟩
  rw [← (ho _ _ hs).length_eq]
  exact (List.length_pos_of_mem hmem).ne'

/-- At the start the whole cache is ahead. -/
theorem inv_init (hr : ((reachable T M hasher).restrict Exact).Run ls c)
    (hcur : Current hasher c.shardMask ls e) {first : ℕ → List UInt64} (ho : c.ListedBy first)
    {it : EntryInfoIterator} (hnew : newIterator c first = .ok it) :
    Inv hasher c.shardMask e ⟨c, it, false, false, []⟩ := by
  rw [newIterator] at hnew
  rcases hs : c.shards[0]? with _ | shard
  · rw [hs] at hnew
    cases hnew
  · have hne : c.shards ≠ [] := List.ne_nil_of_mem (List.mem_of_getElem? hs)
    obtain ⟨-, hi, hm⟩ := iterable_of_current hr hcur hne
    rw [hs] at hnew
    simp only [CacheShard.copyKeys_eq (hi.represents.shard 0 _ hs).unlocked (ho 0 _ hs),
      Go.ok_bind] at hnew
    obtain rfl := Except.ok.inj hnew
    refine ⟨⟨ls, hr, hcur⟩, rfl, hne, .inr ⟨rfl, List.length_map _, by simp, ?_⟩⟩
    rcases Nat.eq_zero_or_pos (c.shardIndex (hasher e.key)) with hzero | hpos
    · obtain ⟨p, hp⟩ := exists_getElem? hi.represents (by simp [hm]) (hzero ▸ hs) (ho 0 _ hs)
      exact .inr ⟨hzero.symm, shard, hzero ▸ hs, p, hp, .inl (by simp only; omega)⟩
    · exact .inl hpos

/-- **A call of the cache** that leaves the entry leaves it where it is. -/
theorem inv_call {mask : UInt64} (hinv : Inv hasher mask e s) {op : Op} {c : BigCache T M}
    (hstep : s.cache.call op = some c) (hexact : s.cache.Exact op)
    (hleft : ¬ Supersedes hasher mask e.key e.timestamp op) :
    Inv hasher mask e { s with cache := c } := by
  obtain ⟨⟨ls, hr, hcur⟩, rfl, hne, hplace⟩ := hinv
  obtain ⟨hhash, hi, hm⟩ := iterable_of_current hr hcur hne
  have hmask : c.shardMask = s.cache.shardMask := by
    obtain ⟨_, _, -, -, rfl⟩ := call_cases hstep
    rfl
  have hlen : c.shards.length = s.cache.shards.length := by
    obtain ⟨_, _, -, -, rfl⟩ := call_cases hstep
    exact List.length_set
  refine ⟨⟨ls ++ [op], hr.snoc ⟨hstep, hexact⟩, current_append.mpr (.inr ⟨hcur, hleft⟩)⟩, hmask,
    ?_, hplace.imp_right fun ⟨hun, hcounted, hvalid, hahead⟩ ↦ ⟨hun, hcounted, hvalid, ?_⟩⟩
  · exact List.ne_nil_of_length_pos (hlen ▸ List.length_pos_iff.mpr hne)
  have hindex : c.shardIndex (hasher e.key) = s.cache.shardIndex (hasher e.key) := by
    rw [shardIndex, hmask, shardIndex]
  rcases hahead with hlt | ⟨heq, shard, hs, p, hp, hlast⟩
  · exact .inl (hindex ▸ hlt)
  · obtain ⟨shard', hs'⟩ : ∃ shard', c.shards[s.cache.shardIndex (hasher e.key)]? = some shard' :=
      ⟨_, List.getElem?_eq_getElem (hlen ▸ (List.getElem?_eq_some_iff.mp hs).1)⟩
    have hlookup := hi.represents.lookup_call hstep hm (hhash ▸ rfl) (hhash ▸ hleft) hs hs'
    have hsame : shard'.index (hasher e.key) = shard.index (hasher e.key) := by
      rw [CacheShard.index, hlookup, CacheShard.index]
    exact .inr ⟨heq.trans hindex.symm, shard', hindex ▸ hs', p, hsame ▸ hp, hlast⟩

omit [OrderedMap T ℤ Ptr] [OrderedMap M UInt64 (Finset Key)] in
/-- When the copied indices are used up, an entry that is ahead is in a later shard. -/
theorem Ahead.shard_lt {h : UInt64} (ha : Ahead h s) (hfresh : s.fresh = false)
    (hcount : s.it.elementsCount ≤ s.it.currentIndex + 1) :
    s.it.currentShard < s.cache.shardIndex h := by
  rcases ha.place with hlt | ⟨-, shard, -, p, hp, hindex⟩
  · exact hlt
  · have hlt : p < s.it.elementsCount := ha.counted ▸ (List.getElem?_eq_some_iff.mp hp).1
    rw [hfresh] at hindex
    rcases hindex with hindex | ⟨-, hfalse⟩
    · omega
    · cases hfalse

omit [OrderedMap M UInt64 (Finset Key)] in
/-- **`SetNext` does not step over an entry.** -/
theorem Ahead.next {m : Table} {h : UInt64} (hi : Iterable s.cache m) (hm : m h ≠ none)
    (ha : Ahead h s) {order : ℕ → List UInt64} (ho : s.cache.ListedBy order)
    (hfresh : s.fresh = false) {it : EntryInfoIterator} {more : Bool}
    (hnext : Next s.cache order s.it (it, more)) :
    Ahead h { s with it := it, fresh := more, finished := s.finished || !more } := by
  obtain ⟨shard, hs, hlen⟩ := exists_shard hi.represents hm ho
  match hnext with
  | .within hlt =>
    refine ⟨by simpa using ha.unfinished, ha.counted, fun _ ↦ rfl, ?_⟩
    rcases ha.place with hlt | ⟨heq, shard, hs, p, hp, hindex⟩
    · exact .inl hlt
    · rw [hfresh] at hindex
      refine .inr ⟨heq, shard, hs, p, hp, ?_⟩
      simp only [and_true]
      rcases hindex with hlt | ⟨-, hfalse⟩
      · omega
      · cases hfalse
  | .moved (j := j) hcount hj hsj hempty =>
    refine ⟨by simpa using ha.unfinished, List.length_map _, fun _ ↦ rfl, ?_⟩
    -- the shard of the entry is not empty, and so is not passed over
    have hle : j ≤ s.cache.shardIndex h := by
      by_contra hlt
      exact hlen (hempty _ shard (ha.shard_lt hfresh hcount) (not_le.mp hlt) hs)
    rcases eq_or_lt_of_le hle with rfl | hlt
    · obtain ⟨p, hp⟩ := exists_getElem? hi.represents hm hsj (ho _ _ hsj)
      refine .inr ⟨rfl, _, hsj, p, hp, ?_⟩
      simp only [and_true]
      omega
    · exact .inl hlt
  | .ended hcount hempty =>
    exact absurd (hempty _ shard (ha.shard_lt hfresh hcount) hs) hlen

/-- A call of `SetNext`. -/
theorem inv_setNext {mask : UInt64} (hinv : Inv hasher mask e s) {order : ℕ → List UInt64}
    (ho : s.cache.ListedBy order) (hfresh : s.fresh = false) {it : EntryInfoIterator} {more : Bool}
    (hnext : s.it.setNext s.cache order = .ok (it, more)) :
    Inv hasher mask e
      { s with it := it, fresh := more, finished := s.finished || !more } := by
  obtain ⟨⟨ls, hr, hcur⟩, rfl, hne, hplace⟩ := hinv
  obtain ⟨-, hi, hm⟩ := iterable_of_current hr hcur hne
  refine ⟨⟨ls, hr, hcur⟩, rfl, hne, hplace.imp_right fun ha ↦ ?_⟩
  have hm' : s.cache.contents ls (hasher e.key) ≠ none := by simp [hm]
  obtain ⟨shard, hs, -⟩ := exists_shard hi.represents hm' ho
  have hle : s.it.currentShard ≤ s.cache.shardIndex (hasher e.key) :=
    ha.place.elim le_of_lt fun h ↦ h.1.le
  have hlt := (List.getElem?_eq_some_iff.mp hs).1
  have hlock : ∀ s' ∈ s.cache.shards, s'.locked = false := fun s' hs' ↦ by
    obtain ⟨i, hi'⟩ := List.getElem?_of_mem hs'
    exact (hi.represents.shard i s' hi').unlocked
  obtain ⟨r, hok, hcases⟩ := setNext_cases hlock hi.length_eq ho (hle.trans_lt hlt)
  obtain rfl := Except.ok.inj (hok.symm.trans hnext)
  exact ha.next hi hm' ho hfresh hcases

/-- **`Value` tells about the entry** when the iterator is at it. -/
theorem inv_value {mask : UInt64} (hinv : Inv hasher mask e s) (hfresh : s.fresh = true)
    {r : Except IteratorError EntryInfo} (hvalue : s.it.value s.cache = .ok r) :
    Inv hasher mask e { s with fresh := false, seen := s.seen ++ r.toOption.toList } := by
  obtain ⟨⟨ls, hr, hcur⟩, rfl, hne, hplace⟩ := hinv
  refine ⟨⟨ls, hr, hcur⟩, rfl, hne, ?_⟩
  rcases hplace with hseen | ⟨hun, hcounted, hvalid, hlt | ⟨heq, shard, hs, p, hp, hlast⟩⟩
  · exact .inl (List.mem_append_left _ hseen)
  · exact .inr ⟨hun, hcounted, by simp, .inl hlt⟩
  rcases hlast with hlt | ⟨hat, -⟩
  · exact .inr ⟨hun, hcounted, by simp, .inr ⟨heq, shard, hs, p, hp, .inl hlt⟩⟩
  · -- the iterator is at the entry
    obtain ⟨-, hi, hm⟩ := iterable_of_current hr hcur hne
    have hpart : (s.cache.contents ls).part s.cache.shardMask (s.cache.shardIndex (hasher e.key))
        (hasher e.key) = some e := Table.part_eq_some.mpr ⟨rfl, hm⟩
    have hinfo := value_eq (heq ▸ hs) (hi.represents.shard _ _ hs) hpart
      (hi.keyed _ _ hm).2 (hvalid hfresh) hat hp
    obtain rfl := Except.ok.inj (hinfo.symm.trans hvalue)
    exact .inl (List.mem_append_right _ List.mem_cons_self)

/-- **A step keeps the invariant**, unless it supersedes the entry. -/
theorem inv_step {mask : UInt64} (hinv : Inv hasher mask e s) {a : Act}
    (hstep : (system c).step s a s')
    (hleft : ∀ op, a = .call op → ¬ Supersedes hasher mask e.key e.timestamp op) :
    Inv hasher mask e s' := by
  obtain ⟨hstep, hproper⟩ := hstep
  change step s a = some s' at hstep
  match a with
  | .call op =>
    obtain ⟨c', hc', rfl⟩ := Option.map_eq_some_iff.mp hstep
    exact inv_call hinv hc' hproper (hleft op rfl)
  | .setNext order =>
    rw [step] at hstep
    split_ifs at hstep with hfresh
    obtain ⟨⟨it, more⟩, hr, rfl⟩ := Option.map_eq_some_iff.mp hstep
    exact inv_setNext hinv hproper (by simpa using hfresh) (Go.toOption_eq_some.mp hr)
  | .value =>
    rw [step] at hstep
    split_ifs at hstep with hfresh
    obtain ⟨r, hr, rfl⟩ := Option.map_eq_some_iff.mp hstep
    exact inv_value hinv hfresh (Go.toOption_eq_some.mp hr)

/-- All along a traversal, an entry that is not superseded was told about or is ahead. -/
theorem inv_run (hr : ((reachable T M hasher).restrict Exact).Run ls c)
    (hcur : Current hasher c.shardMask ls e) {as : List Act} (hrun : (system c).Run as s)
    (hspared : ∀ op, .call op ∈ as → ¬ Supersedes hasher c.shardMask e.key e.timestamp op) :
    Inv hasher c.shardMask e s := by
  induction hrun with
  | start hinit =>
    obtain ⟨first, it, ho, hnew, rfl⟩ := hinit
    exact inv_init hr hcur ho hnew
  | snoc hrun hstep ih =>
    refine inv_step (ih fun op hop ↦ hspared op (List.mem_append_left _ hop)) hstep ?_
    rintro op rfl
    exact hspared op (List.mem_append_right _ List.mem_cons_self)

/-- **No entry is missed.**  When `SetNext` has returned false, `Value` has told about every entry
that was there at the start and was not superseded since, whatever else was called meanwhile.  It is
not said that `Value` always returns: at the index of an entry that is gone it may find something
that is no entry, and panic, and then the iteration does not get to its end. -/
theorem traversal_complete (hr : ((reachable T M hasher).restrict Exact).Run ls c)
    (hcur : Current hasher c.shardMask ls e) {as : List Act} (hrun : (system c).Run as s)
    (hspared : ∀ op, .call op ∈ as → ¬ Supersedes hasher c.shardMask e.key e.timestamp op)
    (hdone : s.finished = true) : e.info (hasher e.key) ∈ s.seen := by
  rcases (inv_run hr hcur hrun hspared).place with hseen | hahead
  · exact hseen
  · exact absurd hdone (by simp [hahead.unfinished])

end

instance (c : BigCache T M) (order : ℕ → List UInt64) : Decidable (c.ListedBy order) :=
  decidable_of_iff (∀ (i : ℕ) (h : i < c.shards.length),
      (order i).Nodup ∧ (order i).toFinset = c.shards[i].hashmap.keys) <| by
    constructor
    · intro h i s hs
      obtain ⟨hlt, rfl⟩ := List.getElem?_eq_some_iff.mp hs
      exact h i hlt
    · exact fun h i hlt ↦ h i _ (List.getElem?_eq_getElem hlt)

instance (s : Traversal T M) (a : Act) : Decidable (s.Proper a) :=
  match a with
  | .call op => inferInstanceAs (Decidable (s.cache.Exact op))
  | .setNext order => inferInstanceAs (Decidable (s.cache.ListedBy order))
  | .value => instDecidableTrue

/-- A `Set` comes before the iterator is at the shard it changes, and a `Delete` takes away the
entry that the iterator has just come to.  The entry that was there all along is not missed. -/
theorem traversal_complete_two :
    ∃ (c : ListCache) (as : List Act) (s : Traversal _ _),
      ((reachable _ _ lengthHasher).restrict Exact).Run [.set [1] [7] 0 0, .set [2, 2] [8] 0 0] c ∧
      (system c).Run as s ∧ .call (.set [3, 3, 3] [9] 0 0) ∈ as ∧ .call (.delete [2, 2] 0) ∈ as ∧
      s.finished = true ∧ ⟨CacheShard.expiryTimestamp 0 0, 1, [1], [7]⟩ ∈ s.seen := by
  let first : ℕ → List UInt64 := fun i ↦ if i = 0 then [2] else [1]
  let later : ℕ → List UInt64 := fun i ↦ if i = 0 then [] else [3, 1]
  let as : List Act := [.setNext first, .call (.set [3, 3, 3] [9] 0 0), .call (.delete [2, 2] 0),
    .value, .setNext later, .value, .setNext later, .value, .setNext later]
  obtain ⟨c, hr, hc⟩ := TransitionSystem.exists_run
    (S := (reachable (SortedAssoc ℤ Ptr) (SortedAssoc UInt64 (Finset Key)) lengthHasher).restrict
      Exact)
    TransitionSystem.step_of_guarded
    (l := [.set [1] [7] 0 0, .set [2, 2] [8] 0 0])
    (x := (newBigCache ⟨2, 0, 1, 0, true⟩ (some lengthHasher) 0).toOption.bind Except.toOption)
    (p := fun c ↦ decide (c.shardMask = 1 ∧ c.ListedBy first) &&
      (((newIterator c first).toOption.map fun it ↦ Traversal.mk c it false false []).bind fun s ↦
        as.foldlM (TransitionSystem.guarded step Proper) s).any Traversal.finished)
    (fun c hc ↦ ⟨_, 0, newBigCache_of_toOption hc⟩) (by decide +kernel)
  obtain ⟨hlisted, hrun⟩ := Bool.and_eq_true_iff.mp hc
  obtain ⟨hmask, hlisted⟩ := of_decide_eq_true hlisted
  obtain ⟨s, hs, hdone⟩ := TransitionSystem.exists_run (S := system c)
    TransitionSystem.step_of_guarded (fun s hs ↦ by
      obtain ⟨it, hit, rfl⟩ := Option.map_eq_some_iff.mp hs
      exact ⟨first, it, hlisted, Go.toOption_eq_some.mp hit, rfl⟩) hrun
  refine ⟨c, as, s, hr, hs, by simp [as], by simp [as], hdone, ?_⟩
  refine traversal_complete (e := ⟨[1], [7], CacheShard.expiryTimestamp 0 0⟩) hr ?_ hs ?_ hdone
  · exact ⟨0, 0, rfl, [], [.set [2, 2] [8] 0 0], rfl, by simp [Supersedes, lengthHasher]⟩
  · simp [as, Supersedes, lengthHasher]

end Traversal
end ClusteredBigCache
