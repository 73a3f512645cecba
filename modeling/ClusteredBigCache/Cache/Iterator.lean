import ClusteredBigCache.Cache.Callbacks

/-!
# The iterator

An iterator copies the indices of one shard at a time, and reads the entries by their index.  In
which order a shard lists its indices is up to the map; every call that copies some is given an
order for each shard.

`calls` makes some number of calls of `SetNext`, each followed by one of `Value`, on a cache that
does not change meanwhile.  `Enumerates` says what they should return: each live entry once, and
`Len` of them, and after the last one nothing, however often `SetNext` is called again.
`iterator_exact_iff` says that this is what happens as long as every `Set` was sound, if and only if
there is a shard.  In `iterator_blocks` a `Set` has failed, and has left the lock of a shard held:
no iterator can be made.
-/

set_option autoImplicit false

namespace ClusteredBigCache

/-! ## The model -/

namespace CacheShard

variable {T M : Type}

/-- One round of the loop of `copyKeys`. -/
def copyKey (s : CacheShard T M) (p : List UInt32 × ℕ) (h : UInt64) : Go (List UInt32 × ℕ) :=
  if p.2 < p.1.length then .ok (p.1.set p.2 (s.index h), p.2 + 1) else .error .panic

/-- `copyKeys` copies the indices of the shard, in the order in which the map lists its keys. -/
def copyKeys (s : CacheShard T M) (order : List UInt64) : Go (List UInt32 × ℕ) := do
  let keys := List.replicate s.len 0
  s.lock
  order.foldlM s.copyKey (keys, 0)

/-- `getEntry` reads an entry by its index, without the lock. -/
def getEntry (s : CacheShard T M) (index : ℤ) : Go (Except QueueError Slice) := s.entries.get index

end CacheShard

/-- The errors of an iterator. -/
inductive IteratorError
  | invalidIteratorState
  | cannotRetrieveEntry
  deriving DecidableEq, Repr

/-- The message of an `iteratorError`. -/
def IteratorError.message : IteratorError → String
  | .invalidIteratorState =>
    "Iterator is in invalid state. Use SetNext() to move to next position"
  | .cannotRetrieveEntry => "Could not retrieve entry from cache"

/-- What an iterator tells about an entry. -/
structure EntryInfo where
  timestamp : UInt64
  hash : UInt64
  key : Key
  value : Bytes
  deriving DecidableEq, Repr

/-- An iterator.  The cache it belongs to is a parameter of its methods. -/
structure EntryInfoIterator where
  currentShard : ℕ
  currentIndex : ℤ
  elements : List UInt32
  elementsCount : ℕ
  valid : Bool
  deriving DecidableEq, Repr

namespace BigCache

variable {T M : Type}

/-- `Len` computes the number of entries. -/
def len (c : BigCache T M) : Go ℕ :=
  c.shards.foldlM (fun len shard ↦ do
    shard.lock
    pure (len + shard.len)) 0

end BigCache

namespace EntryInfoIterator

variable {T M : Type}

/-- `newIterator`, which starts with the indices of the first shard. -/
def newIterator (c : BigCache T M) (order : ℕ → List UInt64) : Go EntryInfoIterator :=
  match c.shards[0]? with
  | none => .error .panic
  | some shard => do
    let (elements, count) ← shard.copyKeys (order 0)
    pure {
      currentShard := 0
      currentIndex := -1
      elements := elements
      elementsCount := count
      valid := false }

/-- The loop of `SetNext`, over the `n` shards from position `i` on. -/
def nextShard (c : BigCache T M) (order : ℕ → List UInt64) :
    ℕ → ℕ → EntryInfoIterator → Go (EntryInfoIterator × Bool)
  | _, 0, it => .ok (it, false)
  | i, n + 1, it =>
    match c.shards[i]? with
    | none => .error .panic
    | some shard => do
      let (elements, count) ← shard.copyKeys (order i)
      let it := { it with elements := elements, elementsCount := count }
      -- a shard that is not empty
      if count > 0 then pure ({ it with currentIndex := 0, currentShard := i, valid := true }, true)
      else nextShard c order (i + 1) n it

/-- `SetNext` moves to the next entry and says whether there is one. -/
def setNext (c : BigCache T M) (order : ℕ → List UInt64) (it : EntryInfoIterator) :
    Go (EntryInfoIterator × Bool) :=
  let it := { it with valid := false, currentIndex := it.currentIndex + 1 }
  if (it.elementsCount : ℤ) > it.currentIndex then .ok ({ it with valid := true }, true)
  else nextShard c order (it.currentShard + 1)
    (c.config.shards.toInt.toNat - (it.currentShard + 1)) it

/-- `Value` tells about the entry the iterator is at. -/
def value (c : BigCache T M) (it : EntryInfoIterator) : Go (Except IteratorError EntryInfo) :=
  if !it.valid then .ok (.error .invalidIteratorState)
  else
    match c.shards[it.currentShard]? with
    | none => .error .panic
    | some shard =>
      if it.currentIndex < 0 then .error .panic
      else
        match it.elements[it.currentIndex.toNat]? with
        | none => .error .panic
        | some index => do
          match ← shard.getEntry index.toNat with
          | .error _ => pure (.error .cannotRetrieveEntry)
          | .ok entry =>
            let timestamp ← readTimestampFromEntry (shard.entries.load entry)
            let hash ← readHashFromEntry (shard.entries.load entry)
            let key ← readKeyFromEntry (shard.entries.load entry)
            let value ← readEntry (shard.entries.load entry)
            pure (.ok ⟨timestamp, hash, key, value⟩)

/-- What `SetNext` and then `Value` return, some number of times.  The first argument has the orders
in which the shards list their indices during each call. -/
def visit (c : BigCache T M) : (ℕ → ℕ → List UInt64) → EntryInfoIterator → ℕ →
    Go (List (Bool × Except IteratorError EntryInfo))
  | _, _, 0 => .ok []
  | order, it, n + 1 => do
    let (it, more) ← it.setNext c (order 0)
    let value ← it.value c
    let rest ← visit c (fun k ↦ order (k + 1)) it n
    pure ((more, value) :: rest)

end EntryInfoIterator

/-! ## What the calls return -/

namespace CacheShard

variable {T M : Type} {s : CacheShard T M}

/-- The order is one in which the map can list its keys. -/
def ListedBy (s : CacheShard T M) (order : List UInt64) : Prop :=
  order.Nodup ∧ order.toFinset = s.hashmap.keys

theorem ListedBy.length_eq {order : List UInt64} (ho : s.ListedBy order) :
    order.length = s.len := by
  rw [len, ← ho.2, List.toFinset_card_of_nodup ho.1]

theorem foldlM_copyKey (before after : List UInt64) :
    after.foldlM s.copyKey (before.map s.index ++ List.replicate after.length 0, before.length) =
      .ok ((before ++ after).map s.index, (before ++ after).length) := by
  induction after generalizing before with
  | nil => simp
  | cons h after ih =>
    have hset : (before.map s.index ++ List.replicate (after.length + 1) 0).set before.length
        (s.index h) = (before ++ [h]).map s.index ++ List.replicate after.length 0 := by
      rw [List.replicate_succ, List.set_append_right _ _ (by simp)]
      simp
    rw [List.foldlM_cons, copyKey, if_pos (by simp), List.length_cons, hset, Go.ok_bind]
    have hlen : before.length + 1 = (before ++ [h]).length := by simp
    rw [hlen, ih, List.append_assoc]
    rfl

/-- **The indices are copied in the order of the map.** -/
theorem copyKeys_eq {order : List UInt64} (hlock : s.locked = false) (ho : s.ListedBy order) :
    s.copyKeys order = .ok (order.map s.index, order.length) := by
  have hloop := foldlM_copyKey (s := s) [] order
  rw [copyKeys, lock, hlock, ← ho.length_eq]
  exact hloop

variable [OrderedMap T ℤ Ptr] {m : Table}

/-- The map lists the hashes of the table. -/
theorem Rep.mem_of_listedBy (hr : s.Rep m) {order : List UInt64} (ho : s.ListedBy order)
    {h : UInt64} : h ∈ order ↔ m h ≠ none := by
  rw [← List.mem_toFinset, ho.2, Finmap.mem_keys, Finmap.mem_iff]
  constructor
  · rintro ⟨i, hi⟩ hm
    have hnone : s.hashmap.lookup h = none := hr.stores.absent h hm
    rw [hi] at hnone
    cases hnone
  · intro hm
    obtain ⟨e, he⟩ := Option.ne_none_iff_exists'.mp hm
    obtain ⟨i, hb⟩ := hr.block he
    exact ⟨i, hb.lookup⟩

end CacheShard

/-- The orders are ones in which the maps of the shards can list their keys. -/
def BigCache.ListedBy {T M : Type} (c : BigCache T M) (order : ℕ → List UInt64) : Prop :=
  ∀ (i : ℕ) (s : CacheShard T M), c.shards[i]? = some s → s.ListedBy (order i)

/-- What an iterator should tell about an entry. -/
def Entry.info (h : UInt64) (e : Entry) : EntryInfo := ⟨e.timestamp, h, e.key, e.value⟩

namespace EntryInfoIterator

variable {T M : Type} {c : BigCache T M} {m : Table}

/-- **What `Value` tells about an entry.** -/
theorem value_eq [OrderedMap T ℤ Ptr] {it : EntryInfoIterator} {s : CacheShard T M} {m : Table}
    {h : UInt64} {e : Entry}
    (hs : c.shards[it.currentShard]? = some s) (hr : s.Rep m) (hm : m h = some e)
    (hkey : e.key.length ≤ maxKeyLength) (hvalid : it.valid = true) {n : ℕ}
    (hn : it.currentIndex = n) (hindex : it.elements[n]? = some (s.index h)) :
    it.value c = .ok (.ok (e.info h)) := by
  obtain ⟨i, hb⟩ := hr.block hm
  obtain ⟨hget, hload⟩ := (hb.readable hr).get
  have htimestamp : readTimestampFromEntry _ = .ok e.timestamp :=
    readTimestampFromEntry_wrapped hload
  have hhash : readHashFromEntry _ = .ok h := readHashFromEntry_wrapped hload
  have hkey' : readKeyFromEntry _ = .ok e.key := readKeyFromEntry_of_le hkey hload
  have hvalue : readEntry _ = .ok e.value := readEntry_of_le hkey hload
  rw [value, hvalid, hs, hn]
  simp only [Bool.not_true, Bool.false_eq_true, if_false, Int.toNat_natCast, hindex]
  rw [if_neg (by omega), CacheShard.getEntry, hget, Go.ok_bind]
  simp only [htimestamp, hhash, hkey', hvalue, Go.ok_bind]
  rfl

/-! ## The cursor

What an iterator has yet to return is a list of entries, and `expected` the results of the calls for
such a list.  `Yields` compares the two without a word about shards or indices. -/

/-- What the calls return when these entries are left: each of them once, and then nothing. -/
def expected (infos : List EntryInfo) (n : ℕ) : List (Bool × Except IteratorError EntryInfo) :=
  (infos.take n).map (fun info ↦ (true, .ok info)) ++
    List.replicate (n - infos.length) (false, .error .invalidIteratorState)

theorem expected_cons (info : EntryInfo) (infos : List EntryInfo) (n : ℕ) :
    expected (info :: infos) (n + 1) = (true, .ok info) :: expected infos n := by
  simp [expected]

theorem expected_nil_succ (n : ℕ) :
    expected [] (n + 1) = (false, .error .invalidIteratorState) :: expected [] n := by
  simp [expected, List.replicate_succ]

/-- The calls return exactly these entries. -/
def Yields (c : BigCache T M) (order : ℕ → ℕ → List UInt64) (it : EntryInfoIterator)
    (infos : List EntryInfo) : Prop := ∀ n, it.visit c order n = .ok (expected infos n)

/-- The rest of the calls, after a first `SetNext` has returned. -/
def resume (c : BigCache T M) (order : ℕ → ℕ → List UInt64) (n : ℕ) (p : EntryInfoIterator × Bool) :
    Go (List (Bool × Except IteratorError EntryInfo)) := do
  let value ← p.1.value c
  let rest ← visit c (fun k ↦ order (k + 1)) p.1 n
  pure ((p.2, value) :: rest)

theorem yields_of_resume {order : ℕ → ℕ → List UInt64} {it : EntryInfoIterator}
    {infos : List EntryInfo}
    (h : ∀ n, it.setNext c (order 0) >>= resume c order n = .ok (expected infos (n + 1))) :
    it.Yields c order infos
  | 0 => by simp [visit, expected]
  | n + 1 => h n

theorem resume_true {order : ℕ → ℕ → List UInt64} {it : EntryInfoIterator} {info : EntryInfo}
    {infos : List EntryInfo} {n : ℕ} (hvalue : it.value c = .ok (.ok info))
    (hrest : it.visit c (fun k ↦ order (k + 1)) n = .ok (expected infos n)) :
    resume c order n (it, true) = .ok (expected (info :: infos) (n + 1)) := by
  rw [resume, hvalue, Go.ok_bind, hrest, expected_cons]
  rfl

theorem resume_false {order : ℕ → ℕ → List UInt64} {it : EntryInfoIterator} {n : ℕ}
    (hvalid : it.valid = false)
    (hrest : it.visit c (fun k ↦ order (k + 1)) n = .ok (expected [] n)) :
    resume c order n (it, false) = .ok (expected [] (n + 1)) := by
  rw [resume, value, hvalid]
  simp only [Bool.not_false, if_true, Go.ok_bind, hrest, expected_nil_succ]
  rfl

/-! ## The end of the iteration -/

/-- No entry is left. -/
structure Ended (c : BigCache T M) (it : EntryInfoIterator) : Prop where
  shard : it.currentShard < c.shards.length
  index : 0 ≤ it.currentIndex + 1
  count : (it.elementsCount : ℤ) ≤ it.currentIndex + 1
  empty : ∀ (j : ℕ) (s : CacheShard T M), it.currentShard < j → c.shards[j]? = some s → s.len = 0

variable [OrderedMap T ℤ Ptr]

/-- What the iterator relies on: the shards represent the table, no key is too long, and there are
as many shards as were configured. -/
structure Iterable (c : BigCache T M) (m : Table) : Prop where
  represents : c.Represents m
  keyed : m.Keyed c.hash
  length_eq : c.config.shards.toInt.toNat = c.shards.length

/-- The loop of `SetNext` finds nothing in shards that are empty. -/
theorem nextShard_of_empty (hi : Iterable c m) {order : ℕ → List UInt64} (ho : c.ListedBy order)
    {i n : ℕ} (hn : i + n = c.shards.length)
    (hempty : ∀ (j : ℕ) (s : CacheShard T M), i ≤ j → c.shards[j]? = some s → s.len = 0)
    (it : EntryInfoIterator) :
    ∃ elements count, count ≤ it.elementsCount ∧ nextShard c order i n it =
      .ok ({ it with elements := elements, elementsCount := count }, false) := by
  induction n generalizing i it with
  | zero => exact ⟨it.elements, it.elementsCount, le_rfl, rfl⟩
  | succ n ih =>
    have hs : c.shards[i]? = some c.shards[i] := List.getElem?_eq_getElem (by omega)
    have hcopy := CacheShard.copyKeys_eq (hi.represents.shard i _ hs).unlocked (ho i _ hs)
    have hnil := List.length_eq_zero_iff.mp ((ho i _ hs).length_eq.trans (hempty i _ le_rfl hs))
    obtain ⟨elements, count, hle, hnext⟩ := ih (i := i + 1) (by omega)
      (fun j s hj ↦ hempty j s (by omega)) { it with elements := [], elementsCount := 0 }
    refine ⟨elements, count, by simp only at hle; omega, ?_⟩
    rw [hnil] at hcopy
    rw [nextShard, hs]
    simp only [hcopy, hnil, Go.ok_bind, List.map_nil, List.length_nil]
    exact hnext

/-- **At the end, every further call says that there is no entry.** -/
theorem Ended.yields (hi : Iterable c m) {order : ℕ → ℕ → List UInt64}
    (ho : ∀ k, c.ListedBy (order k)) {it : EntryInfoIterator} (he : Ended c it) :
    it.Yields c order [] := by
  intro n
  induction n generalizing it order with
  | zero => rfl
  | succ n ih =>
    have hshard := he.shard
    have hindex := he.index
    have hcount := he.count
    obtain ⟨elements, count, hle, hnext⟩ := nextShard_of_empty hi (ho 0)
      (i := it.currentShard + 1) (n := c.shards.length - (it.currentShard + 1)) (by omega)
      (fun j s hj ↦ he.empty j s (by omega))
      { it with valid := false, currentIndex := it.currentIndex + 1 }
    have hset : it.setNext c (order 0) = .ok (⟨it.currentShard, it.currentIndex + 1, elements,
        count, false⟩, false) := by
      rw [setNext, hi.length_eq]
      simp only
      rw [if_neg (by omega), hnext]
    change it.setNext c (order 0) >>= resume c order n = _
    rw [hset, Go.ok_bind]
    refine resume_false rfl (ih (fun k ↦ ho (k + 1)) ⟨hshard, ?_, ?_, he.empty⟩)
    · simp only
      omega
    · simp only at hle ⊢
      omega

/-! ## Whole iterations

The induction is over the shards that are left: `Covers` says which hashes they have, and
`Continues` that the loop of `SetNext` gets to them. -/

/-- The hashes are those of the table in the shards from position `i` on. -/
structure Covers (c : BigCache T M) (m : Table) (i : ℕ) (hs : List UInt64) : Prop where
  nodup : hs.Nodup
  mem : ∀ h, h ∈ hs ↔ m h ≠ none ∧ i ≤ c.shardIndex h
  length_eq : hs.length = ((c.shards.drop i).map CacheShard.len).sum

/-- What is told about the entries under these hashes. -/
def infos (m : Table) (hs : List UInt64) : List EntryInfo :=
  hs.filterMap fun h ↦ (m h).map (Entry.info h)

theorem shardIndex_lt (hr : c.Represents m) (h : UInt64) : c.shardIndex h < c.shards.length := by
  obtain ⟨s, -, hs⟩ := BigCache.getShard_of_mask hr.mask h
  exact (List.getElem?_eq_some_iff.mp hs).1

theorem covers_nil (hr : c.Represents m) : Covers c m c.shards.length [] where
  nodup := List.nodup_nil
  mem h := by
    refine iff_of_false List.not_mem_nil fun ⟨_, hle⟩ ↦ ?_
    exact absurd (shardIndex_lt hr h) (not_lt.mpr hle)
  length_eq := by simp

/-- What the order of a shard lists, in terms of the table of the cache. -/
theorem mem_order (hr : c.Represents m) {i : ℕ} {s : CacheShard T M} (hs : c.shards[i]? = some s)
    {order : List UInt64} (ho : s.ListedBy order) {h : UInt64} :
    h ∈ order ↔ m h ≠ none ∧ c.shardIndex h = i := by
  rw [(hr.shard i s hs).mem_of_listedBy ho, Table.part]
  change (if c.shardIndex h = i then m h else none) ≠ none ↔ _
  split_ifs with hi
  · exact (and_iff_left hi).symm
  · exact iff_of_false (fun hne ↦ hne rfl) fun hmi ↦ hi hmi.2

/-- The entries of a shard, and then those of the later shards. -/
theorem Covers.append (hr : c.Represents m) {i : ℕ} {s : CacheShard T M}
    (hs : c.shards[i]? = some s) {order : List UInt64} (ho : s.ListedBy order) {hs' : List UInt64}
    (hc : Covers c m (i + 1) hs') : Covers c m i (order ++ hs') where
  nodup := by
    refine List.nodup_append.mpr ⟨ho.1, hc.nodup, fun h hh h' hh' ↦ ?_⟩
    rintro rfl
    have heq := ((mem_order hr hs ho).mp hh).2
    have hlt := ((hc.mem h).mp hh').2
    omega
  mem h := by
    rw [List.mem_append, mem_order hr hs ho, hc.mem]
    constructor
    · rintro (⟨hm, hi⟩ | ⟨hm, hi⟩)
      · exact ⟨hm, hi.ge⟩
      · exact ⟨hm, by omega⟩
    · rintro ⟨hm, hi⟩
      rcases eq_or_lt_of_le hi with hi | hi
      · exact .inl ⟨hm, hi.symm⟩
      · exact .inr ⟨hm, hi⟩
  length_eq := by
    obtain ⟨hlt, rfl⟩ := List.getElem?_eq_some_iff.mp hs
    rw [List.length_append, ho.length_eq, hc.length_eq, List.drop_eq_getElem_cons hlt,
      List.map_cons, List.sum_cons]

/-- An iterator that has been through some entries of a shard, with others to come. -/
structure At (it : EntryInfoIterator) (s : CacheShard T M) (before after : List UInt64) : Prop where
  index : it.currentIndex = (before.length : ℤ) - 1
  elements : it.elements = (before ++ after).map s.index
  count : it.elementsCount = (before ++ after).length

theorem infos_cons {h : UInt64} {e : Entry} (hm : m h = some e) (hs : List UInt64) :
    infos m (h :: hs) = e.info h :: infos m hs := by
  simp [infos, hm]

/-- The loop of `SetNext` from position `i` on leads to the entries of the shards from there on,
whatever an iterator that is through with an earlier shard has left over. -/
def Continues (c : BigCache T M) (m : Table) (i : ℕ) : Prop :=
  ∀ (order : ℕ → ℕ → List UInt64) (it : EntryInfoIterator), (∀ k, c.ListedBy (order k)) →
    it.currentShard < i → it.valid = false → (it.elementsCount : ℤ) ≤ it.currentIndex →
    (∀ (j : ℕ) (s : CacheShard T M), it.currentShard < j → j < i → c.shards[j]? = some s →
      s.len = 0) →
    ∃ later, Covers c m i later ∧ ∀ n, nextShard c (order 0) i (c.shards.length - i) it >>=
      resume c order n = .ok (expected (infos m later) (n + 1))

/-- **The rest of a shard**, and then the later shards. -/
theorem At.yields (hi : Iterable c m) {s : CacheShard T M} {i : ℕ} (hs : c.shards[i]? = some s)
    (hnext : Continues c m (i + 1)) {it : EntryInfoIterator} {before after : List UInt64}
    (hshard : it.currentShard = i) (hat : it.At s before after)
    (hafter : ∀ h ∈ after, m h ≠ none ∧ c.shardIndex h = i) {order : ℕ → ℕ → List UInt64}
    (ho : ∀ k, c.ListedBy (order k)) :
    ∃ later, Covers c m (i + 1) later ∧ it.Yields c order (infos m (after ++ later)) := by
  have hindex := hat.index
  have hcount := hat.count
  rw [List.length_append] at hcount
  induction after generalizing it before order with
  | nil =>
    rw [List.length_nil] at hcount
    obtain ⟨later, hcovers, hrest⟩ := hnext order
      { it with valid := false, currentIndex := it.currentIndex + 1 } ho
      (by simp only; omega) rfl (by simp only; omega) (fun j _ hj hj' ↦ by simp only at hj; omega)
    refine ⟨later, hcovers, yields_of_resume fun n ↦ ?_⟩
    rw [setNext, hi.length_eq, hshard]
    simp only
    rw [if_neg (by omega)]
    rw [hshard] at hrest
    exact hrest n
  | cons h after ih =>
    rw [List.length_cons] at hcount
    obtain ⟨hm, hh⟩ := hafter h List.mem_cons_self
    obtain ⟨e, he⟩ := Option.ne_none_iff_exists'.mp hm
    have hrep := hi.represents.shard i s hs
    have hpart : m.part c.shardMask i h = some e := Table.part_eq_some.mpr ⟨hh, he⟩
    have hset : it.setNext c (order 0) =
        .ok ({ it with valid := true, currentIndex := it.currentIndex + 1 }, true) := by
      rw [setNext]
      exact if_pos (by simp only; omega)
    have hvalue : EntryInfoIterator.value c
        { it with valid := true, currentIndex := it.currentIndex + 1 } = .ok (.ok (e.info h)) := by
      refine value_eq (n := before.length) (by rw [← hs, ← hshard]) hrep hpart
        (hi.keyed h e he).2 rfl (by simp only; omega) ?_
      simp [hat.elements]
    have hat' : At { it with valid := true, currentIndex := it.currentIndex + 1 } s
        (before ++ [h]) after :=
      ⟨by simp; omega, by simp [hat.elements], by simp; omega⟩
    have hshard' : ({ it with valid := true, currentIndex := it.currentIndex + 1 } :
        EntryInfoIterator).currentShard = i := hshard
    obtain ⟨later, hcovers, hrest⟩ := ih hshard' hat'
      (fun g hg ↦ hafter g (List.mem_cons_of_mem _ hg)) (fun k ↦ ho (k + 1)) (by simp; omega)
      (by simp; omega)
    refine ⟨later, hcovers, yields_of_resume fun n ↦ ?_⟩
    rw [hset, Go.ok_bind, List.cons_append, infos_cons he]
    exact resume_true hvalue (hrest n)

/-- **Moving on to the later shards.** -/
theorem continues (hi : Iterable c m) {i : ℕ} (hle : i ≤ c.shards.length) : Continues c m i := by
  obtain ⟨n, hn⟩ : ∃ n, c.shards.length - i = n := ⟨_, rfl⟩
  induction n generalizing i with
  | zero =>
    obtain rfl : i = c.shards.length := by omega
    intro order it ho hshard hvalid hcount hempty
    have he : Ended c it := ⟨hshard, by omega, by omega, fun j s hj hs ↦
      hempty j s hj (List.getElem?_eq_some_iff.mp hs).1 hs⟩
    refine ⟨[], covers_nil hi.represents, fun k ↦ ?_⟩
    rw [Nat.sub_self]
    exact resume_false hvalid (he.yields hi (fun k ↦ ho (k + 1)) k)
  | succ n ih =>
    have hlt : i < c.shards.length := by omega
    have hs : c.shards[i]? = some c.shards[i] := List.getElem?_eq_getElem hlt
    have hrep := hi.represents.shard i _ hs
    have hnext : Continues c m (i + 1) := ih (by omega) (by omega)
    have hsub : c.shards.length - (i + 1) = n := by omega
    intro order it ho hshard hvalid hcount hempty
    have hlisted := ho 0 i _ hs
    have hcopy := CacheShard.copyKeys_eq hrep.unlocked hlisted
    rw [hn]
    simp only [nextShard, hs, hcopy, Go.ok_bind]
    cases horder : order 0 i with
    | nil =>
      -- the shard is empty
      rw [horder] at hlisted
      have hzero : c.shards[i].len = 0 := hlisted.length_eq.symm
      obtain ⟨later, hcovers, hrest⟩ := hnext order { it with elements := [], elementsCount := 0 }
        ho (by simp only; omega) hvalid (by simp only; omega) (fun j s hj hj' hs' ↦ by
          rcases Nat.lt_succ_iff_lt_or_eq.mp hj' with hj' | rfl
          · exact hempty j s hj hj' hs'
          · obtain rfl := Option.some.inj (hs.symm.trans hs')
            exact hzero)
      refine ⟨later, hcovers.append hi.represents hs hlisted, fun k ↦ ?_⟩
      rw [hsub] at hrest
      exact hrest k
    | cons h t =>
      rw [horder] at hlisted
      have hmem := fun g ↦ mem_order hi.represents hs hlisted (h := g)
      obtain ⟨hm, hh⟩ := (hmem h).mp List.mem_cons_self
      obtain ⟨e, he⟩ := Option.ne_none_iff_exists'.mp hm
      have hpart : m.part c.shardMask i h = some e := Table.part_eq_some.mpr ⟨hh, he⟩
      have hat : At ⟨i, 0, (h :: t).map c.shards[i].index, (h :: t).length, true⟩ c.shards[i] [h]
          t := ⟨rfl, rfl, rfl⟩
      have hvalue : EntryInfoIterator.value c
          ⟨i, 0, (h :: t).map c.shards[i].index, (h :: t).length, true⟩ = .ok (.ok (e.info h)) :=
        value_eq (n := 0) hs hrep hpart (hi.keyed h e he).2 rfl rfl rfl
      obtain ⟨later, hcovers, hrest⟩ := hat.yields hi hs hnext rfl
        (fun g hg ↦ (hmem g).mp (List.mem_cons_of_mem _ hg)) (fun k ↦ ho (k + 1))
      refine ⟨(h :: t) ++ later, hcovers.append hi.represents hs hlisted, fun k ↦ ?_⟩
      rw [if_pos (by simp), List.cons_append, infos_cons he]
      exact resume_true hvalue (hrest k)

theorem map_hash_infos {hs : List UInt64} (h : ∀ g ∈ hs, m g ≠ none) :
    (infos m hs).map EntryInfo.hash = hs := by
  induction hs with
  | nil => rfl
  | cons g hs ih =>
    obtain ⟨e, he⟩ := Option.ne_none_iff_exists'.mp (h g List.mem_cons_self)
    rw [infos_cons he, List.map_cons, ih fun g hg ↦ h g (List.mem_cons_of_mem _ hg)]
    rfl

theorem mem_infos {hs : List UInt64} {info : EntryInfo} :
    info ∈ infos m hs ↔
      info.hash ∈ hs ∧ m info.hash = some ⟨info.key, info.value, info.timestamp⟩ := by
  simp only [infos, List.mem_filterMap, Option.map_eq_some_iff]
  constructor
  · rintro ⟨h, hh, e, he, rfl⟩
    exact ⟨hh, he⟩
  · rintro ⟨hh, he⟩
    exact ⟨_, hh, _, he, rfl⟩

/-- **A new iterator goes through the whole table.** -/
theorem newIterator_yields (hi : Iterable c m) (hne : c.shards ≠ []) {first : ℕ → List UInt64}
    (hfirst : c.ListedBy first) {order : ℕ → ℕ → List UInt64} (ho : ∀ k, c.ListedBy (order k)) :
    ∃ it hs, newIterator c first = .ok it ∧ Covers c m 0 hs ∧ it.Yields c order (infos m hs) := by
  have hpos := List.length_pos_iff.mpr hne
  have hs : c.shards[0]? = some c.shards[0] := List.getElem?_eq_getElem hpos
  have hlisted := hfirst 0 _ hs
  have hcopy := CacheShard.copyKeys_eq (hi.represents.shard 0 _ hs).unlocked hlisted
  have hnew : newIterator c first =
      .ok ⟨0, -1, (first 0).map c.shards[0].index, (first 0).length, false⟩ := by
    rw [newIterator, hs]
    simp only [hcopy, Go.ok_bind]
    rfl
  have hat : At ⟨0, -1, (first 0).map c.shards[0].index, (first 0).length, false⟩ c.shards[0] []
      (first 0) := ⟨rfl, rfl, rfl⟩
  obtain ⟨later, hcovers, hyields⟩ := hat.yields hi hs (continues hi hpos) rfl
    (fun h hh ↦ (mem_order hi.represents hs hlisted).mp hh) ho
  exact ⟨_, first 0 ++ later, hnew, hcovers.append hi.represents hs hlisted, hyields⟩

end EntryInfoIterator

namespace BigCache

open EntryInfoIterator

variable {T M : Type} [OrderedMap T ℤ Ptr] {c : BigCache T M} {m : Table}

/-- `Len` adds up the lengths of the shards. -/
theorem Represents.len_eq (hr : c.Represents m) :
    c.len = .ok (c.shards.map CacheShard.len).sum := by
  have hlock : ∀ s ∈ c.shards, s.lock = .ok () := by
    intro s hs
    obtain ⟨i, hi⟩ := List.getElem?_of_mem hs
    exact (hr.shard i s hi).lock
  rw [len]
  generalize c.shards = shards at hlock
  suffices h : ∀ n, shards.foldlM (fun len shard ↦ do shard.lock; pure (len + shard.len)) n =
      (.ok (n + (shards.map CacheShard.len).sum) : Go ℕ) by
    simpa using h 0
  induction shards with
  | nil => exact fun n ↦ rfl
  | cons s shards ih =>
    intro n
    rw [List.foldlM_cons, hlock s List.mem_cons_self, Go.ok_bind, Go.pure_eq_ok, Go.ok_bind,
      ih fun s hs ↦ hlock s (List.mem_cons_of_mem _ hs), List.map_cons, List.sum_cons, add_assoc]

/-- **What is asked of an iterator**, after the calls `ls`: whatever the orders in which the maps
list their keys, it tells about each live entry once, `Len` of them in total, and then says that
there are no more. -/
def Enumerates (c : BigCache T M) (ls : List Op) : Prop :=
  ∀ (first : ℕ → List UInt64) (order : ℕ → ℕ → List UInt64), c.ListedBy first →
    (∀ k, c.ListedBy (order k)) →
    ∃ it infos, newIterator c first = .ok it ∧ it.Yields c order infos ∧
      c.len = .ok infos.length ∧ infos.Nodup ∧
      ∀ info, info ∈ infos ↔ c.hash info.key = info.hash ∧
        Current c.hash c.shardMask ls ⟨info.key, info.value, info.timestamp⟩

variable [OrderedMap M UInt64 (Finset Key)] {hasher : Hasher} {ls : List Op}

/-- **The iterator enumerates the cache**, in every state that sound calls with keys that are not
too long can lead to, if and only if there is a shard. -/
theorem iterator_exact_iff (hr : ((reachable T M hasher).restrict Exact).Run ls c) :
    c.Enumerates ls ↔ c.shards ≠ [] := by
  obtain ⟨hhash, hrep⟩ := reachable_represents (hr.restrict_mono fun _ _ h ↦ h.1)
  constructor
  · rintro henum hnil
    obtain ⟨it, -, hnew, -⟩ := henum (fun _ ↦ []) (fun _ _ ↦ []) (by simp [ListedBy, hnil])
      (by simp [ListedBy, hnil])
    simp [newIterator, hnil] at hnew
  · intro hne first order hfirst ho
    have hrep := hrep hne
    have hi : Iterable c (c.contents ls) :=
      ⟨hrep, hhash ▸ (exact_inv hr).1, length_shards hr.of_restrict⟩
    obtain ⟨it, hs, hnew, hcovers, hyields⟩ := newIterator_yields hi hne hfirst ho
    have hmap := map_hash_infos fun h hh ↦ ((hcovers.mem h).mp hh).1
    refine ⟨it, infos (c.contents ls) hs, hnew, hyields, ?_, ?_, fun info ↦ ?_⟩
    · rw [hrep.len_eq, ← List.drop_zero (l := c.shards), ← hcovers.length_eq, ← hmap,
        List.length_map, hmap]
    · have hnodup := hcovers.nodup
      rw [← hmap] at hnodup
      exact hnodup.of_map
    · rw [mem_infos, hcovers.mem]
      have htracks := tracks_contents c ls info.hash ⟨info.key, info.value, info.timestamp⟩
      constructor
      · exact fun h ↦ htracks.mp h.2
      · intro h
        have hm := htracks.mpr h
        exact ⟨⟨by simp [hm], Nat.zero_le _⟩, hm⟩

/-- Three entries in two shards. -/
theorem iterator_exact_three :
    ∃ c : ListCache, ((reachable _ _ lengthHasher).restrict Exact).Run
        [.set [1] [7] 0 0, .set [2, 2] [8] 0 0, .set [3, 3, 3] [] 1000000000 0] c ∧
      c.Enumerates [.set [1] [7] 0 0, .set [2, 2] [8] 0 0, .set [3, 3, 3] [] 1000000000 0] := by
  obtain ⟨c, hr, hne⟩ := TransitionSystem.exists_run
    (S := (reachable (SortedAssoc ℤ Ptr) (SortedAssoc UInt64 (Finset Key)) lengthHasher).restrict
      Exact)
    TransitionSystem.step_of_guarded
    (l := [.set [1] [7] 0 0, .set [2, 2] [8] 0 0, .set [3, 3, 3] [] 1000000000 0])
    (x := (newBigCache ⟨2, 0, 1, 0, true⟩ (some lengthHasher) 0).toOption.bind Except.toOption)
    (p := fun c ↦ !c.shards.isEmpty)
    (fun c hc ↦ ⟨_, 0, newBigCache_of_toOption hc⟩) (by decide +kernel)
  exact ⟨c, hr, (iterator_exact_iff hr).mpr (by simpa using hne)⟩

omit [OrderedMap T ℤ Ptr] [OrderedMap M UInt64 (Finset Key)] in
theorem exists_listedBy (c : BigCache T M) : ∃ order, c.ListedBy order := by
  refine ⟨fun i ↦ ((c.shards[i]?).map fun s ↦ s.hashmap.keys.toList).getD [], fun i s hs ↦ ?_⟩
  simp only [hs, Option.map_some, Option.getD_some]
  exact ⟨Finset.nodup_toList _, Finset.toList_toFinset _⟩

/-- **After a `Set` that failed, no iterator can be made**: the lock of the shard is still held. -/
theorem iterator_blocks :
    ∃ c : ListCache, (reachable _ _ fun _ ↦ 0).Run [.set [1] (List.replicate 40 8) 0 0] c ∧
      (∀ first, newIterator c first = .error .blocked) ∧
      ¬ c.Enumerates [.set [1] (List.replicate 40 8) 0 0] := by
  obtain ⟨s, hs, hfail⟩ : ∃ s : ListShard, CacheShard.initNewShard CacheShard.limitedConfig 0 =
      .ok s ∧ s.PushFails [1] 0 (List.replicate 40 8) 0 0 := by
    have hsome : ((CacheShard.initNewShard CacheShard.limitedConfig 0).toOption.filter
        fun s : ListShard ↦ s.PushFails [1] 0 (List.replicate 40 8) 0 0).isSome := by decide +kernel
    obtain ⟨s, hs⟩ := Option.isSome_iff_exists.mp hsome
    obtain ⟨hs, hfail⟩ := Option.filter_eq_some_iff.mp hs
    exact ⟨s, Go.toOption_eq_some.mp hs, of_decide_eq_true hfail⟩
  obtain ⟨c, hnew⟩ : ∃ c : ListCache, newBigCache CacheShard.limitedConfig (some fun _ ↦ 0) 0 =
      .ok (.ok c) :=
    ⟨_, newBigCache_eq _ (by decide) (by decide)
      (show Config.maximumShardSize _ = .ok 64 by decide) hs⟩
  obtain ⟨-, -, -, hhash, -, hlen, hall⟩ := newBigCache_spec hnew
  have hne : c.shards ≠ [] := by
    intro hnil
    rw [hnil] at hlen
    exact absurd hlen (by decide)
  obtain ⟨s₁, hget, hs₁⟩ := getShard_of_mask (newBigCache_represents hnew hne).mask (c.hash [1])
  obtain rfl : s = s₁ := Except.ok.inj (hs.symm.trans (hall s₁ (List.mem_of_getElem? hs₁)))
  have hzero : c.hash [1] = 0 := by rw [hhash]; rfl
  rw [← hzero] at hfail
  obtain ⟨s', hset, hlocked, -⟩ := (CacheShard.initNewShard_spec hs).1.set_of_pushFails hfail
  have hindex : ∀ c' : ListCache, c'.shardIndex (c.hash [1]) = 0 := by
    intro c'
    rw [hzero, shardIndex, UInt64.zero_and]
    rfl
  have hget' := getElem?_of_getShard (getShard_putShard hget s')
  rw [hindex] at hget'
  have hblocked : ∀ first, newIterator (c.putShard (c.hash [1]) s') first = .error .blocked := by
    intro first
    rw [newIterator, hget']
    simp only [CacheShard.copyKeys, CacheShard.lock, hlocked, if_true]
    rfl
  have hinit : (reachable _ _ fun _ ↦ 0).init c := ⟨_, 0, hnew⟩
  refine ⟨_, .snoc (.start hinit) (call_of_set hget hset), hblocked, fun henum ↦ ?_⟩
  obtain ⟨order, ho⟩ := exists_listedBy (c.putShard (c.hash [1]) s')
  obtain ⟨it, -, hit, -⟩ := henum order (fun _ ↦ order) ho fun _ ↦ ho
  rw [hblocked] at hit
  cases hit

end BigCache
end ClusteredBigCache
