import ClusteredBigCache.Cache.BigCache

/-!
# The cache is a key-value map

Here the calls `Set`, `Get` and `Delete` on a cache of unlimited size, and the evictions of its
shards, follow each other in any order.  `BigCache.Rep c m` says that the cache `c` represents the
table `m`: each of its shards represents the part of `m` whose hashes lead to it.  `Represents` is
the same without the condition on the size; `Represents.call` says how a call changes the table,
when an entry that is set is stored and its position and length fit thirty-two bits.

A table has one entry for each hash, so keys with the same hash displace each other; and a `Delete`
does not look at the key of the entry it removes.  `Supersedes` says which calls end the life of an
entry for these reasons, and `key_value` that nothing else does: `Get` returns the value of a key
exactly when the key was set to it and no call since then superseded it.
-/

set_option autoImplicit false

namespace ClusteredBigCache

/-! ## Parts of a table

A shard knows nothing of the others.  What it represents is the part of the table whose hashes lead
to it, and an update of the table is an update of one part. -/

namespace Table

/-- The part of a table that belongs to the shard at a position. -/
def part (m : Table) (mask : UInt64) (i : ℕ) : Table :=
  fun h ↦ if (h &&& mask).toNat = i then m h else none

variable {m : Table} {mask : UInt64} {i : ℕ} {h : UInt64}

theorem part_of_eq (hi : (h &&& mask).toNat = i) : m.part mask i h = m h := if_pos hi

theorem part_eq_some {e : Entry} :
    m.part mask i h = some e ↔ (h &&& mask).toNat = i ∧ m h = some e := by
  rw [part, Option.ite_none_right_eq_some]

theorem part_update_self (x : Option Entry) :
    part (Function.update m h x) mask (h &&& mask).toNat =
      Function.update (m.part mask (h &&& mask).toNat) h x := by
  funext h'
  by_cases hh : h' = h
  · rw [hh, part_of_eq rfl, Function.update_self, Function.update_self]
  · rw [Function.update_of_ne hh, part, part, Function.update_of_ne hh]

theorem part_update_of_ne (hi : (h &&& mask).toNat ≠ i) (x : Option Entry) :
    part (Function.update m h x) mask i = m.part mask i := by
  funext h'
  rw [part, part]
  split_ifs with hh'
  · rw [Function.update_of_ne]
    rintro rfl
    exact hi hh'
  · rfl

/-- What a key reads, when no key is too long: the value of the entry, if that has the same key. -/
theorem get_eq_ok (key : Key) (hkeys : ∀ e, m h = some e → e.key.length ≤ maxKeyLength) :
    ∃ r, m.get key h = .ok r ∧ ∀ v, r = .ok v ↔ ∃ t, m h = some ⟨key, v, t⟩ := by
  rw [get]
  cases hm : m h with
  | none => exact ⟨_, rfl, by simp⟩
  | some e =>
    have hk := hkeys e hm
    simp only [Entry.readKey_of_le hk, Entry.readValue_of_le hk, Go.ok_bind]
    obtain ⟨k, value, t⟩ := e
    by_cases hkey : key = k
    · subst hkey
      rw [if_neg (not_not.mpr rfl)]
      exact ⟨_, rfl, by simp⟩
    · rw [if_pos hkey]
      exact ⟨_, rfl, by simp [Ne.symm hkey]⟩

end Table

/-! ## Representing a table -/

namespace BigCache

variable {T M : Type}

/-- What a shard stores: everything but its statistics, its scratch buffer and its callbacks. -/
def stored (s : CacheShard T M) :
    Finmap (fun _ : UInt64 ↦ UInt32) × BytesQueue T × TtlManager M :=
  (s.hashmap, s.entries, s.ttlTable)

theorem map_stored_set {shards : List (CacheShard T M)} {i : ℕ} {s : CacheShard T M}
    (hs : shards[i]? = some s) (stats : Stats) :
    (shards.set i { s with stats := stats }).map stored = shards.map stored := by
  refine List.ext_getElem? fun j ↦ ?_
  rw [List.getElem?_map, List.getElem?_map, List.getElem?_set]
  split_ifs with hij hlt
  · subst hij
    rw [hs]
    rfl
  · subst hij
    exact absurd (List.getElem?_eq_some_iff.mp hs).1 hlt
  · rfl

variable [OrderedMap T ℤ Ptr]

/-- **The cache represents the table**, and none of its shards has a size limit. -/
structure Rep (c : BigCache T M) (m : Table) : Prop where
  mask : c.shardMask.toNat < c.shards.length
  shard : ∀ (i : ℕ) (s : CacheShard T M), c.shards[i]? = some s →
    s.Rep (m.part c.shardMask i) ∧ s.entries.maxCapacity = 0

/-- Each shard represents its part of the table. -/
structure Represents (c : BigCache T M) (m : Table) : Prop where
  mask : c.shardMask.toNat < c.shards.length
  shard : ∀ (i : ℕ) (s : CacheShard T M), c.shards[i]? = some s → s.Rep (m.part c.shardMask i)

section

variable {c : BigCache T M} {m : Table} {h : UInt64}

theorem Rep.represents (hr : c.Rep m) : c.Represents m where
  mask := hr.mask
  shard i s hs := (hr.shard i s hs).1

/-- Changing one shard, and with it that part of the table. -/
theorem Represents.replace (hr : c.Represents m) {i : ℕ} {s : CacheShard T M} {m' : Table}
    (hs : s.Rep (m'.part c.shardMask i))
    (hother : ∀ j, j ≠ i → m'.part c.shardMask j = m.part c.shardMask j) :
    ({ c with shards := c.shards.set i s } : BigCache T M).Represents m' where
  mask := by simpa using hr.mask
  shard := by
    intro j s' hj
    simp only at hj ⊢
    rw [List.getElem?_set] at hj
    split_ifs at hj with hij
    · obtain rfl : s = s' := Option.some.inj hj
      exact hij ▸ hs
    · rw [hother j (Ne.symm hij)]
      exact hr.shard j s' hj

/-- What `Get` returns, and that it changes the statistics of a shard only. -/
theorem Represents.get (hr : c.Represents m) (key : Key) :
    ∃ (i : ℕ) (s : CacheShard T M) (stats : Stats), c.shards[i]? = some s ∧
      c.get key = (m.get key (c.hash key)).map fun r ↦
        ({ c with shards := c.shards.set i { s with stats := stats } }, r) := by
  obtain ⟨s, hget, hs⟩ := getShard_of_mask hr.mask (c.hash key)
  obtain ⟨stats, hres⟩ := (hr.shard _ s hs).get key (h := c.hash key)
  refine ⟨_, s, stats, hs, ?_⟩
  have hpart : (m.part c.shardMask (c.shardIndex (c.hash key))).get key (c.hash key) =
      m.get key (c.hash key) := by
    rw [Table.get, Table.get, Table.part_of_eq (rfl : _ = c.shardIndex (c.hash key))]
  rw [BigCache.get, hget, Go.ok_bind, hres, hpart]
  cases m.get key (c.hash key) <;> rfl

end

variable [OrderedMap M UInt64 (Finset Key)]

/-! ## Calls and evictions, one after the other

`Table.run` is what a call does to the table, and it depends on nothing in the shards.  That the
shards follow it is proved once for each call (`Passed.rep`), and the rest is about parts of tables.
-/

/-- Positions in the queues of the shards fit thirty-two bits. -/
def Small (c : BigCache T M) : Prop := ∀ s ∈ c.shards, s.entries.array.length < 2 ^ 32

instance (c : BigCache T M) : Decidable c.Small := inferInstanceAs (Decidable (∀ s ∈ _, _))

/-- Make a call, provided that it returns, that a `Set` has a key that is not too long, and that
positions in the queues still fit thirty-two bits afterwards. -/
def perform (c : BigCache T M) : Op → Option (BigCache T M)
  | .set key entry duration now =>
    match c.set key entry duration now with
    | .ok (c', _) => if key.length ≤ maxKeyLength ∧ c'.Small then some c' else none
    | .error _ => none
  | .get key => (c.get key).toOption.map Prod.fst
  | .delete key now => (c.delete key now).toOption.map Prod.fst
  | .evict shard timeStamp keys => c.evict shard timeStamp keys

/-- A new cache of unlimited size with at least one shard, under any sequence of calls. -/
def sequential (T M : Type) [OrderedMap T ℤ Ptr] [OrderedMap M UInt64 (Finset Key)]
    (hasher : Hasher) : TransitionSystem (BigCache T M) Op :=
  .ofStep (fun c ↦ (∃ config now, newBigCache config (some hasher) now = .ok (.ok c) ∧
    1 ≤ config.shards ∧ config.hardMaxCacheSize = 0) ∧ c.Small) perform

end BigCache

/-- What a call does to the table of a cache. -/
def Table.run (hasher : Hasher) (mask : UInt64) (m : Table) : BigCache.Op → Table
  | .set key entry duration now =>
    Function.update m (hasher key) (some ⟨key, entry, CacheShard.expiryTimestamp now duration⟩)
  | .get _ => m
  | .delete key _ => Function.update m (hasher key) none
  | .evict i t keys => fun h ↦
    if (h &&& mask).toNat = i ∧ (∃ v ∈ keys, hasher v = h) ∧ (m h).map Entry.timestamp = some t then
      none
    else m h

namespace Table

variable {m : Table} {hasher : Hasher} {mask t : UInt64} {i : ℕ} {keys : List Key}

theorem part_run_evict_self :
    (m.run hasher mask (.evict i t keys)).part mask i =
      keys.foldl (evictKey hasher t) (m.part mask i) := by
  funext h
  rw [foldl_evictKey]
  simp only [part, run]
  by_cases hi : (h &&& mask).toNat = i
  · simp only [hi, if_true, true_and]
  · simp only [hi, if_false, Option.map_none, reduceCtorEq, and_false]

theorem part_run_evict_of_ne {j : ℕ} (hj : j ≠ i) :
    (m.run hasher mask (.evict i t keys)).part mask j = m.part mask j := by
  funext h
  simp only [part, run]
  by_cases hi : (h &&& mask).toNat = j
  · have hne : (h &&& mask).toNat ≠ i := hi ▸ hj
    rw [if_pos hi, if_pos hi, if_neg fun hc ↦ hne hc.1]
  · rw [if_neg hi, if_neg hi]

end Table

/-- A call changes no other part of the table than that of the shard it is passed on to. -/
theorem Table.part_run_of_ne {m : Table} {hasher : Hasher} {mask : UInt64} {op : BigCache.Op}
    {j : ℕ} (hj : j ≠ op.target hasher mask) :
    (m.run hasher mask op).part mask j = m.part mask j := by
  cases op with
  | set key entry duration now => exact part_update_of_ne (Ne.symm hj) _
  | get key => rfl
  | delete key now => exact part_update_of_ne (Ne.symm hj) _
  | evict i t keys => exact part_run_evict_of_ne hj

namespace BigCache

variable {T M : Type} [OrderedMap T ℤ Ptr] [OrderedMap M UInt64 (Finset Key)]

section

variable {hash : Hasher} {s s' : CacheShard T M} {op : Op} {m : Table} {mask : UInt64}

/-- A `Set` has stored its entry, at a position and with a length that fit thirty-two bits. -/
def Landed (s s' : CacheShard T M) : Op → Prop
  | .set key entry _ _ => s'.locked = false ∧ (s'.entries.array.length < 2 ^ 32 ∨
      s.entries.tail < 2 ^ 32 ∧ 18 + key.length + entry.length < 2 ^ 32)
  | _ => True

/-- **What the shard represents after a call.** -/
theorem Passed.rep (hp : Passed hash s s' op) (hr : s.Rep (m.part mask (op.target hash mask)))
    (hland : Landed s s' op) : s'.Rep ((m.run hash mask op).part mask (op.target hash mask)) := by
  cases hp with
  | @set key entry duration now r h =>
    obtain ⟨s₁, r₁, hset, ho⟩ := hr.set_cases key entry duration now (h := hash key)
    obtain ⟨rfl, rfl⟩ := Prod.mk.inj (Except.ok.inj (hset.symm.trans h))
    rw [Table.run, Op.target, Table.part_update_self]
    exact ho.rep hr hland.1 (by rw [Entry.length_data]; exact hland.2)
  | get h => exact (hr.of_get h).1
  | delete h =>
    rw [Table.run, Op.target, Table.part_update_self]
    exact (hr.del h).1
  | evict _ _ h =>
    rw [Op.target, Table.part_run_evict_self]
    exact ((hr.withTtl _).evictDel h).1

/-- **A shard without a limit stores every entry**, and stays without a limit. -/
theorem Passed.maxCapacity_eq (hp : Passed hash s s' op) (hr : s.Rep m)
    (hmax : s.entries.maxCapacity = 0) : s'.locked = false ∧ s'.entries.maxCapacity = 0 := by
  cases hp with
  | @set key entry duration now r h =>
    obtain ⟨s₁, r₁, hset, ho⟩ := hr.set_cases key entry duration now (h := hash key)
    obtain ⟨rfl, rfl⟩ := Prod.mk.inj (Except.ok.inj (hset.symm.trans h))
    obtain ⟨hunlocked, hmax'⟩ := ho.unlocked hr hmax.le
    exact ⟨hunlocked, hmax'.trans hmax⟩
  | get h =>
    obtain ⟨-, stats, rfl⟩ := hr.eq_of_get h
    exact ⟨hr.unlocked, hmax⟩
  | delete h =>
    obtain ⟨hrep, hmax'⟩ := hr.del h
    exact ⟨hrep.unlocked, hmax'.trans hmax⟩
  | evict _ _ h =>
    obtain ⟨hrep, hmax'⟩ := (hr.withTtl _).evictDel h
    exact ⟨hrep.unlocked, hmax'.trans hmax⟩

/-- No call changes whether there is a callback. -/
theorem Passed.onRemove_eq (hp : Passed hash s s' op) (hr : s.Rep m) :
    s'.onRemove = s.onRemove := by
  cases hp with
  | @set key entry duration now r h =>
    obtain ⟨s₁, r₁, hset, ho⟩ := hr.set_cases key entry duration now (h := hash key)
    obtain ⟨rfl, rfl⟩ := Prod.mk.inj (Except.ok.inj (hset.symm.trans h))
    cases ho <;> rfl
  | get h =>
    obtain ⟨-, stats, rfl⟩ := hr.eq_of_get h
    rfl
  | @delete key now r h =>
    cases hm : m (hash key) with
    | none =>
      rw [hr.del_of_none hm] at h
      obtain ⟨rfl, -⟩ := Prod.mk.inj (Except.ok.inj h)
      rfl
    | some e =>
      obtain ⟨i, hb⟩ := hr.block hm
      rw [(hb.readable hr).del] at h
      cases hcb : e.callback s.onRemove (hash key) with
      | error f => rw [hcb] at h; cases h
      | ok cb =>
        rw [hcb] at h
        obtain ⟨rfl, -⟩ := Prod.mk.inj (Except.ok.inj h)
        rfl
  | @evict i t keys ttl _ _ h =>
    refine ((hr.withTtl ttl).evictDel_induction
      (P := fun s₁ _ ↦ s₁.onRemove = s.onRemove) ?_ rfl h).2
    rintro s₁ m₁ v s₂ - hq (_ | _)
    · exact hq
    · exact hq

end

section

variable {c c' : BigCache T M} {m : Table} {key : Key} {now : ℕ}

/-- **A call takes the table to the table after the call**, when an entry that is set is stored. -/
theorem Represents.call {op : Op} (hr : c.Represents m) (hstep : c.call op = some c')
    (hland : ∀ s s', c.shards[op.target c.hash c.shardMask]? = some s →
      c'.shards[op.target c.hash c.shardMask]? = some s' → Landed s s' op) :
    c'.Represents (m.run c.hash c.shardMask op) ∧ c'.hash = c.hash ∧
      c'.shardMask = c.shardMask := by
  obtain ⟨s, s', hs, hpassed, rfl⟩ := call_cases hstep
  have hs' : (c.shards.set (op.target c.hash c.shardMask) s')[op.target c.hash c.shardMask]? =
      some s' := List.getElem?_set_self (List.getElem?_eq_some_iff.mp hs).1
  refine ⟨hr.replace ?_ fun j hj ↦ Table.part_run_of_ne hj, rfl, rfl⟩
  exact hpassed.rep (hr.shard _ s hs) (hland s s' hs hs')

/-- **Any call on a cache of unlimited size** takes the table to the table after the call, as long
as positions in the queues fit thirty-two bits after a `Set`. -/
theorem Rep.call {op : Op} (hr : c.Rep m) (hstep : c.call op = some c')
    (hsmall : ∀ key entry duration now, op = .set key entry duration now → c'.Small) :
    c'.Rep (m.run c.hash c.shardMask op) ∧ c'.hash = c.hash ∧ c'.shardMask = c.shardMask := by
  obtain ⟨s, s', hs, hpassed, hc'⟩ := call_cases hstep
  obtain ⟨hrep, hmax⟩ := hr.shard _ s hs
  obtain ⟨hunlocked, hmax'⟩ := hpassed.maxCapacity_eq hrep hmax
  have hset : ∀ (j : ℕ) (s₁ : CacheShard T M), c'.shards[j]? = some s₁ →
      j = op.target c.hash c.shardMask ∧ s₁ = s' ∨ c.shards[j]? = some s₁ := by
    intro j s₁ hj
    rw [hc', List.getElem?_set] at hj
    split_ifs at hj with hjt
    · exact .inl ⟨hjt.symm, (Option.some.inj hj).symm⟩
    · exact .inr hj
  have hmem : s' ∈ c'.shards := by
    rw [hc']
    exact List.mem_set (List.getElem?_eq_some_iff.mp hs).1 s'
  obtain ⟨hrep', hhash, hmask⟩ := hr.represents.call hstep fun s₁ s₁' hs₁ hs₁' ↦ by
    rw [hc', List.getElem?_set_self (List.getElem?_eq_some_iff.mp hs).1] at hs₁'
    obtain rfl := Option.some.inj hs₁'
    cases op with
    | set key entry duration now => exact ⟨hunlocked, .inl (hsmall _ _ _ _ rfl _ hmem)⟩
    | get | delete | evict => trivial
  refine ⟨⟨hrep'.mask, fun j s₁ hj ↦ ⟨hrep'.shard j s₁ hj, ?_⟩⟩, hhash, hmask⟩
  rcases hset j s₁ hj with ⟨-, rfl⟩ | hj
  · exact hmax'
  · exact (hr.shard j s₁ hj).2

/-- `Set` puts an entry into the table. -/
theorem Rep.set {entry : Bytes} {duration : Int64} (hr : c.Rep m) {r : Except CacheError UInt64}
    (hok : c.set key entry duration now = .ok (c', r)) (hsmall : c'.Small) :
    c'.Rep (Function.update m (c.hash key)
      (some ⟨key, entry, CacheShard.expiryTimestamp now duration⟩)) ∧
      c'.hash = c.hash ∧ c'.shardMask = c.shardMask := by
  have hstep : c.call (.set key entry duration now) = some c' := by rw [BigCache.call, hok]; rfl
  exact hr.call hstep fun _ _ _ _ _ ↦ hsmall

/-- `Delete` takes the entry of the hash out of the table. -/
theorem Rep.delete (hr : c.Rep m) {r : Except CacheError Unit}
    (hok : c.delete key now = .ok (c', r)) :
    c'.Rep (Function.update m (c.hash key) none) ∧ c'.hash = c.hash ∧
      c'.shardMask = c.shardMask := by
  have hstep : c.call (.delete key now) = some c' := by rw [BigCache.call, hok]; rfl
  exact hr.call hstep (by simp)

/-- The guards of `perform` apart, it is `call`. -/
theorem call_of_perform {op : Op} (hstep : c.perform op = some c') :
    c.call op = some c' ∧
      ∀ key entry duration now, op = .set key entry duration now →
        key.length ≤ maxKeyLength ∧ c'.Small := by
  unfold BigCache.perform at hstep
  cases op with
  | set key entry duration now =>
    simp only at hstep
    cases hset : c.set key entry duration now with
    | error f => simp [hset] at hstep
    | ok p =>
      simp only [hset, Option.ite_none_right_eq_some, Option.some_inj] at hstep
      obtain ⟨hguard, rfl⟩ := hstep
      refine ⟨by rw [BigCache.call, hset]; rfl, fun _ _ _ _ heq ↦ ?_⟩
      obtain ⟨rfl, -⟩ := Op.set.inj heq
      exact hguard
  | get key => exact ⟨hstep, by simp⟩
  | delete key now => exact ⟨hstep, by simp⟩
  | evict i t keys => exact ⟨hstep, by simp⟩

/-- **A call takes the table to the table after the call.** -/
theorem Rep.perform {op : Op} (hr : c.Rep m) (hstep : c.perform op = some c') :
    c'.Rep (m.run c.hash c.shardMask op) ∧ c'.hash = c.hash ∧ c'.shardMask = c.shardMask := by
  obtain ⟨hcall, hguard⟩ := call_of_perform hstep
  exact hr.call hcall fun key entry duration now heq ↦ (hguard key entry duration now heq).2

/-- The key of a `Set` that is made is not too long. -/
theorem length_le_of_perform_set {entry : Bytes} {duration : Int64}
    (hstep : c.perform (.set key entry duration now) = some c') : key.length ≤ maxKeyLength :=
  ((call_of_perform hstep).2 _ _ _ _ rfl).1

end

/-- The entries after some calls. -/
def contents (c : BigCache T M) (ls : List Op) : Table :=
  ls.foldl (Table.run c.hash c.shardMask) fun _ ↦ none

/-! ## Histories

What a user sees is a sequence of calls.  `Current` reads off it which entries are there, and
`Tracks` says that the table agrees. -/

open TransitionSystem (Since)

/-- The call ends the life of an entry with this key and timestamp: it sets or deletes a key with
the same hash, or evicts from its shard, with this timestamp, a key with the same hash. -/
def Supersedes (hasher : Hasher) (mask : UInt64) (key : Key) (t : UInt64) : Op → Prop
  | .set k _ _ _ => hasher k = hasher key
  | .get _ => False
  | .delete k _ => hasher k = hasher key
  | .evict i t' keys =>
    (hasher key &&& mask).toNat = i ∧ (∃ v ∈ keys, hasher v = hasher key) ∧ t' = t

/-- The call sets or deletes exactly this key, or evicts its entry. -/
def Ends (hasher : Hasher) (mask : UInt64) (key : Key) (t : UInt64) : Op → Prop
  | .set k _ _ _ => k = key
  | .get _ => False
  | .delete k _ => k = key
  | .evict i t' keys =>
    (hasher key &&& mask).toNat = i ∧ (∃ v ∈ keys, hasher v = hasher key) ∧ t' = t

theorem Ends.supersedes {hasher : Hasher} {mask : UInt64} {key : Key} {t : UInt64} {op : Op}
    (h : Ends hasher mask key t op) : Supersedes hasher mask key t op := by
  cases op with
  | set k _ _ _ => exact congrArg hasher h
  | get _ => exact h
  | delete k _ => exact congrArg hasher h
  | evict i t' keys => exact h

/-- The entry was set, and not superseded since. -/
def Current (hasher : Hasher) (mask : UInt64) (ls : List Op) (e : Entry) : Prop :=
  ∃ duration now, e.timestamp = CacheShard.expiryTimestamp now duration ∧
    Since ls (.set e.key e.value duration now) (Supersedes hasher mask e.key e.timestamp)

theorem current_append {hasher : Hasher} {mask : UInt64} {ls : List Op} {op : Op} {e : Entry} :
    Current hasher mask (ls ++ [op]) e ↔
      (∃ duration now, e.timestamp = CacheShard.expiryTimestamp now duration ∧
        op = .set e.key e.value duration now) ∨
      (Current hasher mask ls e ∧ ¬ Supersedes hasher mask e.key e.timestamp op) := by
  simp only [Current, TransitionSystem.since_append_singleton]
  constructor
  · rintro ⟨duration, now, ht, hop | ⟨hsince, hsup⟩⟩
    · exact .inl ⟨duration, now, ht, hop⟩
    · exact .inr ⟨⟨duration, now, ht, hsince⟩, hsup⟩
  · rintro (⟨duration, now, ht, hop⟩ | ⟨⟨duration, now, ht, hsince⟩, hsup⟩)
    · exact ⟨duration, now, ht, .inl hop⟩
    · exact ⟨duration, now, ht, .inr ⟨hsince, hsup⟩⟩

/-- The table has exactly the entries that are current. -/
def Tracks (hasher : Hasher) (mask : UInt64) (ls : List Op) (m : Table) : Prop :=
  ∀ h e, m h = some e ↔ hasher e.key = h ∧ Current hasher mask ls e

/-- **A call keeps the table and the history together.** -/
theorem Tracks.run {hasher : Hasher} {mask : UInt64} {ls : List Op} {m : Table}
    (ht : Tracks hasher mask ls m) (op : Op) :
    Tracks hasher mask (ls ++ [op]) (m.run hasher mask op) := by
  intro h e
  rw [current_append]
  cases op with
  | set key entry duration now =>
    by_cases hh : hasher key = h
    · subst hh
      simp only [Table.run, Function.update_self, Option.some_inj, Supersedes]
      constructor
      · rintro rfl
        exact ⟨rfl, .inl ⟨duration, now, rfl, rfl⟩⟩
      · rintro ⟨hk, ⟨d, n, hts, hop⟩ | ⟨-, hsup⟩⟩
        · obtain ⟨rfl, rfl, rfl, rfl⟩ := Op.set.inj hop
          rw [← hts]
        · exact absurd hk.symm hsup
    · rw [Table.run, Function.update_of_ne (Ne.symm hh), ht]
      refine and_congr_right fun hk ↦ ⟨fun hc ↦ .inr ⟨hc, fun hsup ↦ hh (hsup.trans hk)⟩, ?_⟩
      rintro (⟨d, n, -, hop⟩ | ⟨hc, -⟩)
      · exact absurd (Op.set.inj hop).1 fun hkey ↦ hh (hkey ▸ hk)
      · exact hc
  | get key => simp [Table.run, Supersedes, ht h e]
  | delete key now =>
    by_cases hh : hasher key = h
    · subst hh
      simp only [Table.run, Function.update_self, Supersedes, reduceCtorEq, and_false, exists_false,
        false_or, false_iff]
      rintro ⟨hk, -, hsup⟩
      exact hsup hk.symm
    · rw [Table.run, Function.update_of_ne (Ne.symm hh), ht]
      simp only [Supersedes, reduceCtorEq, and_false, exists_false, false_or]
      exact and_congr_right fun hk ↦ (and_iff_left fun hsup ↦ hh (hsup.trans hk)).symm
  | evict i t keys =>
    simp only [Table.run, Supersedes, reduceCtorEq, and_false, exists_false, false_or]
    constructor
    · intro hm
      split_ifs at hm with hc
      obtain ⟨rfl, hcur⟩ := (ht h e).mp hm
      refine ⟨rfl, hcur, fun hsup ↦ hc ⟨hsup.1, hsup.2.1, ?_⟩⟩
      rw [hm, Option.map_some, hsup.2.2]
    · rintro ⟨rfl, hcur, hsup⟩
      have hm := (ht _ e).mpr ⟨rfl, hcur⟩
      rw [if_neg, hm]
      rintro ⟨h1, h2, h3⟩
      rw [hm, Option.map_some] at h3
      exact hsup ⟨h1, h2, (Option.some.inj h3).symm⟩

/-- A new cache of unlimited size represents the empty table. -/
theorem newBigCache_rep {config : Config} {hasher : Option Hasher} {now : ℕ} {c : BigCache T M}
    (h : newBigCache config hasher now = .ok (.ok c)) (hshards : 1 ≤ config.shards)
    (hmax : config.hardMaxCacheSize = 0) : c.Rep fun _ ↦ none := by
  obtain ⟨-, -, -, -, hmask, hlen, hall⟩ := newBigCache_spec h
  refine ⟨?_, fun i s hs ↦ ?_⟩
  · rw [hmask, hlen]
    exact mask_lt hshards
  · obtain ⟨hrep, size, maxCapacity, -, -, hmaxCapacity, hentries⟩ :=
      CacheShard.initNewShard_spec (hall s (List.mem_of_getElem? hs))
    have hpart : Table.part (fun _ ↦ none) c.shardMask i = fun _ ↦ none := by
      funext h
      exact ite_self none
    refine ⟨by rwa [hpart], ?_⟩
    rw [Config.maximumShardSize, hmax] at hmaxCapacity
    obtain rfl : 0 = maxCapacity := Except.ok.inj hmaxCapacity
    rw [hentries]
    rfl

/-- Along a run the cache represents the table of the current entries. -/
theorem sequential_inv {hasher : Hasher} {ls : List Op} {c : BigCache T M}
    (hr : (sequential T M hasher).Run ls c) :
    ∃ m, c.Rep m ∧ c.hash = hasher ∧ Tracks hasher c.shardMask ls m ∧
      ∀ h e, m h = some e → e.key.length ≤ maxKeyLength := by
  refine hr.history_invariant ?_ ?_
  · rintro c ⟨⟨config, now, hnew, hshards, hmax⟩, -⟩
    obtain ⟨-, -, -, hhash, -⟩ := newBigCache_spec hnew
    refine ⟨_, newBigCache_rep hnew hshards hmax, hhash, fun h e ↦ ?_, fun h e he ↦ by cases he⟩
    refine iff_of_false (by simp) ?_
    rintro ⟨-, d, n, -, hsince⟩
    exact TransitionSystem.not_since_nil hsince
  · rintro ls c op c' ⟨m, hrep, rfl, htracks, hkeys⟩ hstep
    obtain ⟨hrep', hhash, hmask⟩ := hrep.perform hstep
    have htracks' := htracks.run op
    refine ⟨_, hrep', hhash, hmask ▸ htracks', fun h e he ↦ ?_⟩
    obtain ⟨hk, hcur⟩ := (htracks' h e).mp he
    rcases current_append.mp hcur with ⟨d, n, -, rfl⟩ | ⟨hcur, -⟩
    · exact length_le_of_perform_set hstep
    · exact hkeys h e ((htracks h e).mpr ⟨hk, hcur⟩)

/-- **The cache is a key-value map.**  After any run `Get` returns, and changes nothing that is
stored.  A value it returns was set under exactly this key, and since then the key was not set
again or deleted and the entry not evicted.  A value that was set is returned as long as no key with
the same hash is set or deleted and the entry is not evicted; when there is no such value, `Get`
returns an error. -/
theorem key_value {hasher : Hasher} {ls : List Op} {c : BigCache T M}
    (hr : (sequential T M hasher).Run ls c) (key : Key) :
    ∃ c' r, c.get key = .ok (c', r) ∧ c'.shards.map stored = c.shards.map stored ∧
      (∀ v, r = .ok v → ∃ duration now, Since ls (.set key v duration now)
        (Ends hasher c.shardMask key (CacheShard.expiryTimestamp now duration))) ∧
      (∀ v duration now, Since ls (.set key v duration now)
        (Supersedes hasher c.shardMask key (CacheShard.expiryTimestamp now duration)) →
        r = .ok v) ∧
      ((¬ ∃ v duration now, Since ls (.set key v duration now)
        (Supersedes hasher c.shardMask key (CacheShard.expiryTimestamp now duration))) →
        ∃ e, r = .error e) := by
  obtain ⟨m, hrep, rfl, htracks, hkeys⟩ := sequential_inv hr
  obtain ⟨i, s, stats, hs, hget⟩ := hrep.represents.get key
  obtain ⟨r, hres, hval⟩ := Table.get_eq_ok key (hkeys (c.hash key))
  rw [hres] at hget
  have hcurrent : ∀ v, r = .ok v ↔ ∃ t, Current c.hash c.shardMask ls ⟨key, v, t⟩ := fun v ↦
    (hval v).trans (exists_congr fun t ↦ (htracks _ _).trans (and_iff_right rfl))
  refine ⟨_, r, hget, map_stored_set hs stats, fun v hv ↦ ?_, fun v d n hsince ↦ ?_, fun hno ↦ ?_⟩
  · obtain ⟨t, d, n, rfl, hsince⟩ := (hcurrent v).mp hv
    exact ⟨d, n, hsince.mono fun _ ↦ Ends.supersedes⟩
  · exact (hcurrent v).mpr ⟨_, d, n, rfl, hsince⟩
  · cases r with
    | error e => exact ⟨e, rfl⟩
    | ok v =>
      obtain ⟨t, d, n, rfl, hsince⟩ := (hcurrent v).mp rfl
      exact absurd ⟨v, d, n, hsince⟩ hno

/-- Two shards, a key that is set again, one that is evicted and one that is deleted. -/
theorem key_value_mixed :
    ∃ c, (sequential (SortedAssoc ℤ Ptr) (SortedAssoc UInt64 (Finset Key))
        (fun k ↦ UInt64.ofNat (Bytes.ofLE k))).Run
        [.set [1] [7] 0 0, .set [2] [8] 0 0, .set [3] [9] 1000000000 0, .get [3],
          .set [1] [6, 6] 0 0, .evict 1 1 [[3]], .delete [2] 0] c ∧
      ∃ c', c.get [1] = .ok (c', .ok [6, 6]) := by
  refine Exists.imp (fun c hc ↦ ⟨hc.1, ?_⟩) (TransitionSystem.exists_run
    (S := sequential _ _ _) (fun _ _ _ ↦ id)
    (x := ((newBigCache ⟨2, 0, 1, 0, true⟩ (some fun k ↦ UInt64.ofNat (Bytes.ofLE k))
      0).toOption.bind Except.toOption).filter fun c ↦ c.Small) (p := fun _ ↦ true) ?_
    (by decide +kernel))
  · obtain ⟨c', r, hget, -, -, hcomplete, -⟩ := key_value hc.1 [1]
    have hr := hcomplete [6, 6] 0 0 ⟨[_, _, _, _], [.evict 1 1 [[3]], .delete [2] 0], rfl, by
      intro op hop
      rcases List.mem_pair.mp hop with rfl | rfl
      · exact fun h ↦ absurd h.2.2 (by decide)
      · exact fun h ↦ absurd (show UInt64.ofNat (Bytes.ofLE [2]) = 1 from h) (by decide)⟩
    exact ⟨c', hr ▸ hget⟩
  · intro c hs
    obtain ⟨hs, hsmall⟩ := Option.filter_eq_some_iff.mp hs
    exact ⟨⟨_, 0, newBigCache_of_toOption hs, by decide, rfl⟩, of_decide_eq_true hsmall⟩

end BigCache
end ClusteredBigCache
