import ClusteredBigCache.Cache.KeyValue

/-!
# The cache as the cluster sees it

For the cluster the cache of a node is a `Store`, a value or nothing for each key, and what the
nodes send each other are `Write`s to it.  A `BigCache` is no such thing by itself: keys with the
same hash displace each other, and a `Delete` removes whatever has the hash of its key.

`BigCache.Holds c keys store` says that the cache `c` is the store, as long as it is used with these
keys only.  When no two of them share a hash, a `Set` and a `Delete` are writes to the store
(`Holds.set`, `Holds.delete`), and `Get` reads it (`Holds.reads`).
-/

set_option autoImplicit false

namespace ClusteredBigCache

/-- The value of each key. -/
abbrev Store := Key → Option Bytes

/-- A call that changes a store. -/
inductive Write
  | put (key : Key) (data : Bytes)
  | delete (key : Key)
  deriving DecidableEq, Repr

namespace Write

/-- The key that is written. -/
def key : Write → Key
  | .put key _ => key
  | .delete key => key

/-- What the key has afterwards. -/
def value : Write → Option Bytes
  | .put _ data => some data
  | .delete _ => none

end Write

namespace Store

/-- Write to a store. -/
def write (store : Store) (w : Write) : Store := Function.update store w.key w.value

theorem write_apply (store : Store) (w : Write) (key : Key) :
    store.write w key = if key = w.key then w.value else store key :=
  Function.update_apply store w.key w.value key

/-- **What a key has after some writes**: what the last write to it left, if there was one. -/
theorem foldl_write_apply (store : Store) (ws : List Write) (key : Key) :
    ws.foldl write store key =
      match (ws.filter fun w ↦ w.key = key).getLast? with
      | some w => w.value
      | none => store key := by
  induction ws using List.reverseRecOn with
  | nil => rfl
  | append_singleton ws w ih =>
    rw [List.foldl_append, List.foldl_cons, List.foldl_nil, write_apply, List.filter_append]
    by_cases hkey : w.key = key
    · rw [if_pos hkey.symm, List.filter_singleton]
      simp [hkey]
    · rw [if_neg (Ne.symm hkey), ih, List.filter_singleton]
      simp [hkey]

end Store

namespace BigCache

variable {T M : Type} [OrderedMap T ℤ Ptr]

/-- The cache is a store, used with some keys only. -/
def Holds (c : BigCache T M) (keys : Set Key) (store : Store) : Prop :=
  ∃ m : Table, c.Rep m ∧
    (∀ h e, m h = some e → c.hash e.key = h ∧ e.key ∈ keys ∧ e.key.length ≤ maxKeyLength) ∧
    ∀ key ∈ keys, store key = (m (c.hash key)).map Entry.value

/-- `Get` returns the value of a key, or an error when the key has none. -/
def Reads (c : BigCache T M) (key : Key) (value : Option Bytes) : Prop :=
  (c.get key).toOption.map (fun p ↦ p.2.toOption) = some value

instance (c : BigCache T M) (key : Key) (value : Option Bytes) : Decidable (c.Reads key value) :=
  inferInstanceAs (Decidable (_ = _))

section

variable {c c' : BigCache T M} {keys : Set Key} {store : Store} {key : Key}

/-- What `Get` returns is the value of an entry with the very key. -/
theorem Holds.exists_reads (h : c.Holds keys store) (key : Key) :
    ∃ value, c.Reads key value ∧ (key ∉ keys → value = none) ∧
      (Set.InjOn c.hash keys → key ∈ keys → value = store key) := by
  obtain ⟨m, hrep, hentries, hstore⟩ := h
  obtain ⟨i, s, stats, -, hget⟩ := hrep.represents.get key
  obtain ⟨r, hr, hval⟩ := Table.get_eq_ok key fun e he ↦ (hentries (c.hash key) e he).2.2
  have hread : c.Reads key r.toOption := by
    rw [Reads, hget, hr]
    rfl
  refine ⟨r.toOption, hread, fun hkey ↦ ?_, fun hinj hkey ↦ ?_⟩
  · refine Option.eq_none_iff_forall_ne_some.mpr fun v hv ↦ ?_
    obtain ⟨t, ht⟩ := (hval v).mp (Go.toOption_eq_some.mp hv)
    exact hkey (hentries _ _ ht).2.1
  · refine Option.ext fun v ↦ ?_
    rw [Go.toOption_eq_some, hval, hstore key hkey, Option.map_eq_some_iff]
    constructor
    · rintro ⟨t, ht⟩
      exact ⟨_, ht, rfl⟩
    · rintro ⟨e, he, rfl⟩
      -- an entry of another key would have another hash
      obtain ⟨hhash, hmem, -⟩ := hentries _ e he
      obtain rfl := hinj hmem hkey hhash
      exact ⟨e.timestamp, he⟩

/-- `Get` reads the store. -/
theorem Holds.reads (h : c.Holds keys store) (hinj : Set.InjOn c.hash keys) (hkey : key ∈ keys) :
    c.Reads key (store key) := by
  obtain ⟨value, hread, -, hvalue⟩ := h.exists_reads key
  rwa [hvalue hinj hkey] at hread

/-- There is nothing for another key, whatever its hash. -/
theorem Holds.reads_of_notMem (h : c.Holds keys store) (hkey : key ∉ keys) : c.Reads key none := by
  obtain ⟨value, hread, hnone, -⟩ := h.exists_reads key
  rwa [hnone hkey] at hread

/-- The entry of one key is changed. -/
theorem Holds.update {m : Table} {x : Option Entry} (hinj : Set.InjOn c.hash keys)
    (hentries : ∀ h e, m h = some e →
      c.hash e.key = h ∧ e.key ∈ keys ∧ e.key.length ≤ maxKeyLength)
    (hstore : ∀ key ∈ keys, store key = (m (c.hash key)).map Entry.value) (hkey : key ∈ keys)
    (hx : ∀ e ∈ x, e.key = key ∧ key.length ≤ maxKeyLength) (hhash : c'.hash = c.hash)
    (hrep : c'.Rep (Function.update m (c.hash key) x)) :
    c'.Holds keys (Function.update store key (x.map Entry.value)) := by
  refine ⟨_, hrep, fun h e he ↦ ?_, fun k hk ↦ ?_⟩
  · rw [hhash]
    rw [Function.update_apply] at he
    split_ifs at he with hh
    · obtain ⟨rfl, hlen⟩ := hx e he
      exact ⟨hh.symm, hkey, hlen⟩
    · exact hentries h e he
  · rw [hhash, Function.update_apply, Function.update_apply]
    by_cases hkk : k = key
    · rw [if_pos hkk, if_pos (congrArg c.hash hkk)]
    · rw [if_neg hkk, if_neg fun hh ↦ hkk (hinj hk hkey hh), hstore k hk]

variable [OrderedMap M UInt64 (Finset Key)] {now : ℕ}

/-- `Set` on a cache of unlimited size returns no error. -/
theorem Rep.set_result {m : Table} {entry : Bytes} {duration : Int64}
    {r : Except CacheError UInt64} (hr : c.Rep m)
    (hok : c.set key entry duration now = .ok (c', r)) : ∃ expiry, r = .ok expiry := by
  obtain ⟨s, hget, hs⟩ := getShard_of_mask hr.mask (c.hash key)
  obtain ⟨s', r', hset, ho⟩ :=
    (hr.shard _ s hs).1.set_cases key entry duration now (h := c.hash key)
  obtain ⟨-, rfl⟩ := Prod.mk.inj (Except.ok.inj ((set_of_set hget hset).symm.trans hok))
  cases ho with
  | stored => exact ⟨_, rfl⟩
  | full => exact ⟨_, rfl⟩

/-- `Set` writes to the store. -/
theorem Holds.set {entry : Bytes} {duration : Int64} {r : Except CacheError UInt64}
    (h : c.Holds keys store) (hinj : Set.InjOn c.hash keys) (hkey : key ∈ keys)
    (hlen : key.length ≤ maxKeyLength) (hok : c.set key entry duration now = .ok (c', r))
    (hsmall : c'.Small) : c'.Holds keys (store.write (.put key entry)) ∧ c'.hash = c.hash ∧
      ∃ expiry, r = .ok expiry := by
  obtain ⟨m, hrep, hentries, hstore⟩ := h
  obtain ⟨hrep', hhash, -⟩ := hrep.set hok hsmall
  refine ⟨Holds.update hinj hentries hstore hkey (fun e he ↦ ?_) hhash hrep', hhash,
    hrep.set_result hok⟩
  obtain rfl := Option.mem_some.mp he
  exact ⟨rfl, hlen⟩

/-- `Delete` writes to the store. -/
theorem Holds.delete {r : Except CacheError Unit} (h : c.Holds keys store)
    (hinj : Set.InjOn c.hash keys) (hkey : key ∈ keys)
    (hok : c.delete key now = .ok (c', r)) :
    c'.Holds keys (store.write (.delete key)) ∧ c'.hash = c.hash := by
  obtain ⟨m, hrep, hentries, hstore⟩ := h
  obtain ⟨hrep', hhash, -⟩ := hrep.delete hok
  refine ⟨Holds.update hinj hentries hstore hkey (fun e he ↦ ?_) hhash hrep', hhash⟩
  cases he

/-- A new cache of unlimited size is the empty store. -/
theorem newBigCache_holds {config : Config} {hasher : Option Hasher}
    (h : newBigCache config hasher now = .ok (.ok c)) (hshards : 1 ≤ config.shards)
    (hmax : config.hardMaxCacheSize = 0) (keys : Set Key) : c.Holds keys fun _ ↦ none :=
  ⟨_, newBigCache_rep h hshards hmax, fun _ _ he ↦ (by cases he), fun _ _ ↦ rfl⟩

end

end BigCache
end ClusteredBigCache
