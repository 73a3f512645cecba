import ClusteredBigCache.Ttl.Eviction
import ClusteredBigCache.Shard.Sequential

/-!
# Which entries are registered for expiry

`set`, `del` and the eviction goroutine change the entries of a shard under its lock, and the expiry
index under the lock of the tree, one after the other: `set` stores the entry and then puts its
timestamp into the index, `del` takes the entry out and then removes its timestamp, the goroutine
takes a timestamp out of the index and then removes its entries.  `Concurrent` is a shard with any
number of such calls half-way, and `Concurrent.system` lets their halves follow each other in any
order.

The second half of a `del` may come late.  When the same key was stored again in the meantime with
the same timestamp — timestamps are in seconds — its `remove` takes the registration of the new
entry, which then never expires: `unregistered_entry` is such a run.

`expiring_registered` is what holds when no `remove` does that: an entry that expires is registered,
or the `put` for it is still to come, or the goroutine has taken it.  So when all calls have
finished every such entry is registered.
-/

set_option autoImplicit false

namespace ClusteredBigCache

/-! ## The live entries of a shard -/

namespace CacheShard

variable {T M : Type}

/-- The entries that are live in the shard are those of the table. -/
structure Keeps (s : CacheShard T M) (m : Table) : Prop where
  present : ∀ h e, m h = some e → ∃ i, s.Block h e i
  live : ∀ h e i, s.Block h e i → ∃ e', m h = some e' ∧ e'.data h = e.data h

theorem Keeps.congr {s s' : CacheShard T M} {m : Table} (hk : s.Keeps m)
    (hmap : s'.hashmap = s.hashmap) (hentries : s'.entries = s.entries) : s'.Keeps m where
  present h e he := by
    obtain ⟨i, hb⟩ := hk.present h e he
    exact ⟨i, hmap ▸ hb.lookup, hentries ▸ hb.live⟩
  live h e i hb := hk.live h e i ⟨hmap ▸ hb.lookup, hentries ▸ hb.live⟩

/-- The index forgets no other key when `set` drops the previous entry of its hash. -/
theorem registered_forget [OrderedMap M UInt64 (Finset Key)] {s : CacheShard T M} {m : Table}
    {key k : Key} {h t : UInt64} {now : ℕ} (hk : k ≠ key) (hreg : s.ttlTable.Registered t k) :
    (s.forget m key h now).Registered t k := by
  rw [forget]
  split
  · exact hreg
  · exact TtlManager.registered_remove.mpr ⟨hreg, fun hc ↦ hk hc.2⟩

variable [OrderedMap T ℤ Ptr]

theorem Keeps.of_stores {s : CacheShard T M} {index : UInt64 → Option UInt32} {m : Table}
    (hs : Stores s.entries index m)
    (hindex : ∀ h i, index h = some i → s.hashmap.lookup h = some i)
    (hlive : ∀ h e i, s.Block h e i → index h = some i) : s.Keeps m where
  present h e he := by
    obtain ⟨i, hi, hlive⟩ := hs.present h e he
    exact ⟨i, hindex h i hi, hlive⟩
  live h e i hb := by
    obtain ⟨e', he', hlive'⟩ := hs.live_of_index (hlive h e i hb)
    have heq := hs.inv.eq_of_index hlive' hb.live rfl
    exact ⟨e', he', (Prod.mk.inj heq).2⟩

theorem Rep.keeps {s : CacheShard T M} {m : Table} (hr : s.Rep m) : s.Keeps m :=
  .of_stores hr.stores (fun _ _ ↦ id) fun _ _ _ hb ↦ hb.lookup

/-- A `set` that finds the queue full has given the entry of its hash away. -/
theorem Vacated.keeps {s s' : CacheShard T M} {m : Table} {h : UInt64} {q : BytesQueue T}
    (hv : Vacated s m h q) (hr : s.Rep m) (hmap : s'.hashmap = s.hashmap)
    (hentries : s'.entries = q) : s'.Keeps (Function.update m h none) := by
  refine .of_stores (hentries ▸ hv.stores hr) (fun h' i hi ↦ ?_) fun h' e i hb ↦ ?_
  · by_cases hh : h' = h
    · simp [hh] at hi
    · rw [Function.update_of_ne hh] at hi
      rwa [hmap]
  · have hlookup := hb.lookup
    rw [hmap] at hlookup
    by_cases hh : h' = h
    · -- the hash table still points to the block, but the block is not live
      subst hh
      have hlive := hb.live
      rw [hentries] at hlive
      cases hv with
      | absent hm => exact absurd (hlookup.symm.trans (hr.stores.absent _ hm)) (by simp)
      | freed hm hb' =>
        have hi := Option.some_inj.mp (hb'.lookup.symm.trans hlookup)
        exact absurd (congrArg UInt32.toNat hi).symm (BytesQueue.mem_freed_live.mp hlive).2
    · rwa [Function.update_of_ne hh]

/-- A successful eviction leaves the index alone. -/
theorem Rep.evictDel_ttlTable {s s' : CacheShard T M} {m : Table} {hasher : Hasher} {t : UInt64}
    {keys : List Key} (hr : s.Rep m) (hok : s.evictDel hasher t keys = .ok s') :
    s'.ttlTable = s.ttlTable := by
  refine (hr.evictDel_induction (P := fun s₁ _ ↦ s₁.ttlTable = s.ttlTable) ?_ rfl hok).2
  rintro s₁ m₁ v s₂ - hkept (_ | _) <;> exact hkept

end CacheShard

/-! ## Calls, half by half

Between the two halves of a call the table has changed and the index has not.  `puts` and `dels` are
the calls in between, and `taken` is what the goroutine is about to evict. -/

/-- A shard, and the calls that have released its lock and are not finished. -/
structure Concurrent (T M : Type) where
  shard : CacheShard T M
  /-- The calls of `set` that have yet to put a timestamp into the index. -/
  puts : List (UInt64 × Key)
  /-- The calls of `del` that have yet to remove the timestamp of the entry they took out. -/
  dels : List (Key × Slice)
  /-- What the eviction goroutine took out of the index and has yet to evict. -/
  taken : Option (UInt64 × Finset Key)

namespace Concurrent

variable {T M : Type} [OrderedMap T ℤ Ptr] [OrderedMap M UInt64 (Finset Key)]

/-- The halves of the calls. -/
inductive Step
  /-- `set` under the lock; the timestamp was computed when the clock showed `issued`. -/
  | setLocked (key : Key) (entry : Bytes) (duration : Int64) (issued now : ℕ)
  /-- The put of one of the calls of `set` that are waiting to make it. -/
  | setPut (i : ℕ) (now : ℕ)
  /-- `del` under the lock. -/
  | delLocked (key : Key)
  /-- The removal of one of the calls of `del` that are waiting to make it. -/
  | delFinish (i : ℕ) (now : ℕ)
  /-- The goroutine takes the head of the index, after a fire or at the head of its loop. -/
  | evictionTake
  | evictionNext (now : ℕ)
  /-- The goroutine evicts the keys it took, in the order in which the set lists them. -/
  | evictDel (keys : List Key)

/-- One half of a call, where it can be taken. -/
def step (hasher : Hasher) (s : Concurrent T M) : Step → Option (Concurrent T M)
  | .setLocked key entry duration issued now =>
    let expiryTimestamp := CacheShard.expiryTimestamp issued duration
    match s.shard.setLocked key (hasher key) entry expiryTimestamp now with
    | .ok (shard, stored) =>
      some { s with
        shard := shard
        puts := if stored ∧ duration ≠ 0 then (expiryTimestamp, key) :: s.puts else s.puts }
    | .error _ => none
  | .setPut i now =>
    s.puts[i]?.map fun p ↦ { s with
      shard.ttlTable := s.shard.ttlTable.put now p.1 p.2
      puts := s.puts.eraseIdx i }
  | .delLocked key =>
    match s.shard.delLocked key (hasher key) with
    | .ok (shard, .ok wrappedEntry) =>
      some { s with shard := shard, dels := (key, wrappedEntry) :: s.dels }
    | .ok (shard, .error _) => some { s with shard := shard }
    | .error _ => none
  | .delFinish i now => do
    let (key, wrappedEntry) ← s.dels[i]?
    let shard ← (s.shard.delFinish key wrappedEntry now).toOption
    some { s with shard := shard, dels := s.dels.eraseIdx i }
  | .evictionTake =>
    if s.taken = none then
      let (ttl, taken) := s.shard.ttlTable.evictionTake
      some { s with shard.ttlTable := ttl, taken := taken }
    else none
  | .evictionNext now =>
    if s.taken = none then
      let (ttl, taken) := s.shard.ttlTable.evictionNext now
      some { s with shard.ttlTable := ttl, taken := taken }
    else none
  | .evictDel keys => do
    let (timeStamp, set) ← s.taken
    if keys.toFinset = set then
      let shard ← (s.shard.evictDel hasher timeStamp keys).toOption
      some { s with shard := shard, taken := none }
    else none

/-- A new shard, and any number of calls on it at the same time. -/
def system (T M : Type) [OrderedMap T ℤ Ptr] [OrderedMap M UInt64 (Finset Key)] (hasher : Hasher) :
    TransitionSystem (Concurrent T M) Step :=
  .ofStep (fun s ↦ (∃ config now, CacheShard.initNewShard config now = .ok s.shard) ∧
    s.puts = [] ∧ s.dels = [] ∧ s.taken = none) (step hasher)

/-- All calls have finished. -/
def Finished (s : Concurrent T M) : Prop := s.puts = [] ∧ s.dels = [] ∧ s.taken = none

instance (s : Concurrent T M) : Decidable s.Finished := inferInstanceAs (Decidable (_ ∧ _ ∧ _))

/-- A call that is under way will register the key, or evict it. -/
def Covered (s : Concurrent T M) (t : UInt64) (k : Key) : Prop :=
  (t, k) ∈ s.puts ∨ ∃ set, s.taken = some (t, set) ∧ k ∈ set

/-- The position of an entry that is set will fit thirty-two bits; and when `del` removes a
timestamp from the index, the shard has no live entry with this key and this timestamp, unless one
of the calls under way covers it. -/
def Careful (hasher : Hasher) (s : Concurrent T M) : Step → Prop
  | .setLocked key entry _ _ _ =>
    s.shard.entries.tail + (22 + key.length + entry.length) ≤ 2 ^ 32
  | .delFinish i _ => ∀ key wrappedEntry t, s.dels[i]? = some (key, wrappedEntry) →
      readTimestampFromEntry (s.shard.entries.load wrappedEntry) = .ok t →
      (∃ e j, s.shard.Block (hasher key) e j ∧ e.key = key ∧ e.timestamp = t ∧ t ≠ 0) →
      s.Covered t key
  | .setPut _ _ | .delLocked _ | .evictionTake | .evictionNext _ | .evictDel _ => True

/-- A condition that is easier to check: the shard has no entry at all under the hash of the key. -/
def Vacant (hasher : Hasher) (s : Concurrent T M) : Step → Prop
  | .setLocked key entry _ _ _ =>
    s.shard.entries.tail + (22 + key.length + entry.length) ≤ 2 ^ 32
  | .delFinish i _ => ∀ p ∈ s.dels[i]?, s.shard.hashmap.lookup (hasher p.1) = none
  | .setPut _ _ | .delLocked _ | .evictionTake | .evictionNext _ | .evictDel _ => True

instance (hasher : Hasher) (s : Concurrent T M) (a : Step) : Decidable (Vacant hasher s a) := by
  cases a <;> unfold Vacant <;> infer_instance

omit [OrderedMap T ℤ Ptr] [OrderedMap M UInt64 (Finset Key)] in
theorem Vacant.careful {hasher : Hasher} {s : Concurrent T M} {a : Step}
    (h : Vacant hasher s a) : Careful hasher s a := by
  cases a with
  | delFinish i now =>
    rintro key wrappedEntry t hd - ⟨e, j, hb, -⟩
    exact absurd (hb.lookup.symm.trans (h _ hd)) (by simp)
  | setLocked => exact h
  | _ => trivial

/-! ## What the halves keep -/

/-- What holds whenever no half of a call is running. -/
structure Inv (hasher : Hasher) (s : Concurrent T M) (m : Table) : Prop where
  keeps : s.shard.Keeps m
  rep : s.shard.locked = false → s.shard.Rep m
  /-- Every entry is stored under the hash of its key. -/
  hashed : ∀ h e, m h = some e → hasher e.key = h
  covered : ∀ h e, m h = some e → e.timestamp ≠ 0 →
    s.shard.ttlTable.Registered e.timestamp e.key ∨ s.Covered e.timestamp e.key

section

variable {hasher : Hasher} {s s' : Concurrent T M} {m : Table}

/-- A half that changes nothing but the index has to keep entries registered or covered. -/
theorem Inv.of_index (hi : Inv hasher s m) (hmap : s'.shard.hashmap = s.shard.hashmap)
    (hentries : s'.shard.entries = s.shard.entries) (hlocked : s'.shard.locked = s.shard.locked)
    (hcov : ∀ h e, m h = some e → e.timestamp ≠ 0 →
      s.shard.ttlTable.Registered e.timestamp e.key ∨ s.Covered e.timestamp e.key →
      s'.shard.ttlTable.Registered e.timestamp e.key ∨ s'.Covered e.timestamp e.key) :
    Inv hasher s' m where
  keeps := hi.keeps.congr hmap hentries
  rep hl := (hi.rep (hlocked ▸ hl)).congr hmap hentries hlocked
  hashed := hi.hashed
  covered h e he ht := hcov h e he ht (hi.covered h e he ht)

theorem Inv.setPut (hi : Inv hasher s m) {i now : ℕ} {t : UInt64} {k : Key}
    (hp : s.puts[i]? = some (t, k)) :
    Inv hasher { s with
      shard.ttlTable := s.shard.ttlTable.put now t k
      puts := s.puts.eraseIdx i } m := by
  refine hi.of_index rfl rfl rfl fun h e he ht hcov ↦ ?_
  simp only [TtlManager.registered_put]
  rcases hcov with hreg | hput | htaken
  · exact .inl (.inr hreg)
  · obtain ⟨j, hj⟩ := List.mem_iff_getElem?.mp hput
    by_cases hji : j = i
    · rw [hji, hp] at hj
      obtain ⟨rfl, rfl⟩ := Prod.mk.inj (Option.some_inj.mp hj)
      exact .inl (.inl ⟨rfl, rfl⟩)
    · exact .inr (.inl (List.mem_eraseIdx_iff_getElem?.mpr ⟨j, hji, hj⟩))
  · exact .inr (.inr htaken)

/-- The removal that `del` makes late. -/
theorem Inv.delFinish (hi : Inv hasher s m) {i now : ℕ} {key : Key} {wrappedEntry : Slice}
    {shard : CacheShard T M} (hcareful : Careful hasher s (.delFinish i now))
    (hd : s.dels[i]? = some (key, wrappedEntry))
    (hfinish : s.shard.delFinish key wrappedEntry now = .ok shard) :
    Inv hasher { s with shard := shard, dels := s.dels.eraseIdx i } m := by
  rw [CacheShard.delFinish, Go.bind_eq_ok] at hfinish
  obtain ⟨t, ht, hfinish⟩ := hfinish
  obtain rfl := Except.ok.inj hfinish
  refine hi.of_index rfl rfl rfl fun h e he hne hcov ↦ ?_
  rcases hcov with hreg | hcov
  · by_cases hsame : e.timestamp = t ∧ e.key = key
    · -- the entry that loses its registration must be covered
      obtain ⟨rfl, rfl⟩ := hsame
      obtain ⟨j, hb⟩ := hi.keeps.present h e he
      have hh := hi.hashed h e he
      exact .inr (hcareful _ _ _ hd ht ⟨e, j, hh ▸ hb, rfl, rfl, hne⟩)
    · exact .inl (TtlManager.registered_remove.mpr ⟨hreg, hsame⟩)
  · exact .inr hcov

/-- Taking a timestamp out of the index covers its keys. -/
theorem Inv.evictionTake (hi : Inv hasher s m) (hidle : s.taken = none) {ttl : TtlManager M}
    {t : UInt64} {set : Finset Key}
    (htake : s.shard.ttlTable.evictionTake = (ttl, some (t, set))) :
    Inv hasher { s with shard.ttlTable := ttl, taken := some (t, set) } m := by
  obtain ⟨hset, hrest⟩ := TtlManager.registered_evictionTake htake
  refine hi.of_index rfl rfl rfl fun h e he hne hcov ↦ ?_
  rcases hcov with hreg | hput | ⟨_, htaken, -⟩
  · by_cases ht : e.timestamp = t
    · exact .inr (.inr ⟨set, by rw [ht], (hset _).mp (ht ▸ hreg)⟩)
    · exact .inl ((hrest _ _).mpr ⟨hreg, ht⟩)
  · exact .inr (.inl hput)
  · rw [hidle] at htaken
    cases htaken

/-- The goroutine found nothing to take. -/
theorem Inv.of_none (hi : Inv hasher s m) (hidle : s.taken = none) {ttl : TtlManager M}
    (htree : ttl.timeTree = s.shard.ttlTable.timeTree) :
    Inv hasher { s with shard.ttlTable := ttl, taken := none } m := by
  refine hi.of_index rfl rfl rfl fun h e he hne hcov ↦ ?_
  simpa only [TtlManager.Registered, Covered, htree, hidle] using hcov

/-- Dropping the previous entry of a hash leaves the entries of other hashes registered. -/
theorem Inv.forget (hi : Inv hasher s m) {key : Key} {h : UInt64} {e : Entry} (now : ℕ)
    (hh : h ≠ hasher key) (he : m h = some e) (hne : e.timestamp ≠ 0) :
    (s.shard.forget m key (hasher key) now).Registered e.timestamp e.key ∨
      s.Covered e.timestamp e.key := by
  refine (hi.covered h e he hne).imp_left (CacheShard.registered_forget fun hkey ↦ hh ?_)
  rw [← hi.hashed h e he, hkey]

/-- `set` under the lock: the entry is stored and its put is to come, or it is not stored. -/
theorem Inv.setLocked (hi : Inv hasher s m) {key : Key} {entry : Bytes} {duration : Int64}
    {issued now : ℕ} {shard : CacheShard T M} {stored : Bool}
    (hfit : s.shard.entries.tail + (22 + key.length + entry.length) ≤ 2 ^ 32)
    (hset : s.shard.setLocked key (hasher key) entry (CacheShard.expiryTimestamp issued duration)
      now = .ok (shard, stored)) :
    ∃ m', Inv hasher { s with
      shard := shard
      puts := if stored ∧ duration ≠ 0 then
          (CacheShard.expiryTimestamp issued duration, key) :: s.puts
        else s.puts } m' := by
  have hr := hi.rep (CacheShard.unlocked_of_lock hset)
  obtain ⟨q₁, q₂, r, hv, ho, heq⟩ :=
    hr.setLocked key entry (CacheShard.expiryTimestamp issued duration) now (h := hasher key)
  rw [heq] at hset
  cases r with
  | ok i =>
    obtain ⟨rfl, rfl⟩ := Prod.mk.inj (Except.ok.inj hset)
    obtain ⟨-, hle⟩ := ho.end_le (hv.stores hr).inv
    rw [hv.tail_eq] at hle
    have hrep : CacheShard.Rep { s.shard with
        hashmap := s.shard.hashmap.insert (hasher key) (UInt32.ofNat i)
        entries := q₂
        entryBuffer := (wrapEntry (CacheShard.expiryTimestamp issued duration) (hasher key) key
          entry s.shard.entryBuffer).2
        ttlTable := s.shard.forget m key (hasher key) now } _ :=
      hv.rep_afterPush hr ho (by rw [Entry.length_data]; simp only; omega) rfl rfl rfl
    refine ⟨_, hrep.keeps, fun _ ↦ hrep, fun h e he ↦ ?_, fun h e he hne ↦ ?_⟩
    · by_cases hh : h = hasher key
      · rw [hh, Function.update_self] at he
        rw [← Option.some_inj.mp he, hh]
      · rw [Function.update_of_ne hh] at he
        exact hi.hashed h e he
    · by_cases hh : h = hasher key
      · -- the new entry: its put is to come, unless it does not expire
        rw [hh, Function.update_self] at he
        obtain rfl := Option.some_inj.mp he
        have hd : duration ≠ 0 := by
          rintro rfl
          exact hne rfl
        exact .inr (.inl (by simp [hd]))
      · rw [Function.update_of_ne hh] at he
        refine (hi.forget now hh he hne).imp_right fun hcov ↦ hcov.imp_left fun hput ↦ ?_
        simp only
        split_ifs
        · exact List.mem_cons_of_mem _ hput
        · exact hput
  | error err =>
    obtain ⟨rfl, rfl⟩ := Prod.mk.inj (Except.ok.inj hset)
    refine ⟨_, hv.keeps hr rfl (ho.eq_of_error).1, fun hl ↦ absurd hl (by simp),
      fun h e he ↦ ?_, fun h e he hne ↦ ?_⟩
    · by_cases hh : h = hasher key
      · simp [hh] at he
      · rw [Function.update_of_ne hh] at he
        exact hi.hashed h e he
    · by_cases hh : h = hasher key
      · simp [hh] at he
      · rw [Function.update_of_ne hh] at he
        exact (hi.forget now hh he hne).imp_right fun hcov ↦ hcov.imp_left (by simp)

/-- When entries go and the index stays, nothing has to be done for the entries that remain. -/
theorem Inv.of_rep (hi : Inv hasher s m) {m' : Table} (hrep : s'.shard.Rep m')
    (hsub : ∀ h e, m' h = some e → m h = some e)
    (httl : s'.shard.ttlTable = s.shard.ttlTable)
    (hcov : ∀ h e, m' h = some e → e.timestamp ≠ 0 → s.Covered e.timestamp e.key →
      s'.Covered e.timestamp e.key) : Inv hasher s' m' where
  keeps := hrep.keeps
  rep _ := hrep
  hashed h e he := hi.hashed h e (hsub h e he)
  covered h e he hne := by
    rw [httl]
    exact (hi.covered h e (hsub h e he) hne).imp_right (hcov h e he hne)

/-- `del` under the lock. -/
theorem Inv.delLocked (hi : Inv hasher s m) {key : Key} {shard : CacheShard T M}
    {r : Except CacheError Slice} (hdel : s.shard.delLocked key (hasher key) = .ok (shard, r))
    (dels : List (Key × Slice)) :
    ∃ m', Inv hasher { s with shard := shard, dels := dels } m' := by
  have hr := hi.rep (CacheShard.unlocked_of_lock hdel)
  cases hm : m (hasher key) with
  | none =>
    rw [hr.delLocked_of_none hm] at hdel
    obtain ⟨rfl, -⟩ := Prod.mk.inj (Except.ok.inj hdel)
    exact ⟨m, hi.of_rep (hr.congr rfl rfl rfl) (fun _ _ ↦ id) rfl fun _ _ _ _ ↦ id⟩
  | some e =>
    obtain ⟨i, hb⟩ := hr.block hm
    rw [(hb.readable hr).delLocked] at hdel
    cases hcb : e.callback s.shard.onRemove (hasher key) with
    | error f => rw [hcb] at hdel; cases hdel
    | ok cb =>
      rw [hcb] at hdel
      obtain ⟨rfl, -⟩ := Prod.mk.inj (Except.ok.inj hdel)
      refine ⟨_, hi.of_rep (hb.rep_freed hr rfl rfl rfl) (fun h e he ↦ ?_) rfl fun _ _ _ _ ↦ id⟩
      by_cases hh : h = hasher key
      · simp [hh] at he
      · rwa [Function.update_of_ne hh] at he

/-- The eviction of the keys that the goroutine took. -/
theorem Inv.evictDel (hi : Inv hasher s m) {t : UInt64} {keys : List Key}
    {shard : CacheShard T M} (htaken : s.taken = some (t, keys.toFinset))
    (hevict : s.shard.evictDel hasher t keys = .ok shard) :
    ∃ m', Inv hasher { s with shard := shard, taken := none } m' := by
  have hr := hi.rep (CacheShard.unlocked_of_lock hevict)
  have hkept : ∀ h e, keys.foldl (Table.evictKey hasher t) m h = some e →
      m h = some e ∧ ¬ ((∃ v ∈ keys, hasher v = h) ∧ e.timestamp = t) := by
    intro h e he
    rw [Table.foldl_evictKey] at he
    split_ifs at he with hcond
    rw [he] at hcond
    exact ⟨he, fun hc ↦ hcond ⟨hc.1, congrArg some hc.2⟩⟩
  refine ⟨_, hi.of_rep (hr.evictDel hevict).1 (fun h e he ↦ (hkept h e he).1)
    (hr.evictDel_ttlTable hevict) fun h e he hne hcov ↦ ?_⟩
  refine hcov.imp_right fun ⟨set, hset, hmem⟩ ↦ ?_
  -- an entry that was only covered by this eviction is gone
  obtain ⟨ht, hkeys⟩ := Prod.mk.inj (Option.some_inj.mp (htaken.symm.trans hset))
  obtain ⟨hm, hstays⟩ := hkept h e he
  refine absurd ⟨⟨e.key, ?_, hi.hashed h e hm⟩, ht.symm⟩ hstays
  rwa [← List.mem_toFinset, hkeys]

/-- **Every half of a call keeps entries registered or covered.** -/
theorem Inv.step (hi : Inv hasher s m) {a : Step} (hcareful : Careful hasher s a)
    (hstep : step hasher s a = some s') : ∃ m', Inv hasher s' m' := by
  unfold Concurrent.step at hstep
  cases a with
  | setLocked key entry duration issued now =>
    simp only at hstep
    cases hset : s.shard.setLocked key (hasher key) entry
        (CacheShard.expiryTimestamp issued duration) now with
    | error f => simp [hset] at hstep
    | ok p =>
      simp only [hset, Option.some_inj] at hstep
      subst hstep
      exact hi.setLocked hcareful hset
  | setPut i now =>
    obtain ⟨p, hp, rfl⟩ := Option.map_eq_some_iff.mp hstep
    exact ⟨m, hi.setPut hp⟩
  | delLocked key =>
    simp only at hstep
    cases hdel : s.shard.delLocked key (hasher key) with
    | error f => simp [hdel] at hstep
    | ok p =>
      obtain ⟨shard, r⟩ := p
      cases r with
      | error err =>
        simp only [hdel, Option.some_inj] at hstep
        subst hstep
        exact hi.delLocked hdel s.dels
      | ok wrappedEntry =>
        simp only [hdel, Option.some_inj] at hstep
        subst hstep
        exact hi.delLocked hdel _
  | delFinish i now =>
    obtain ⟨⟨key, wrappedEntry⟩, hd, hstep⟩ := Option.bind_eq_some_iff.mp hstep
    obtain ⟨shard, hfinish, hstep⟩ := Option.bind_eq_some_iff.mp hstep
    obtain rfl := Option.some_inj.mp hstep
    exact ⟨m, hi.delFinish hcareful hd (Go.toOption_eq_some.mp hfinish)⟩
  | evictionTake =>
    obtain ⟨hidle, hstep⟩ := Option.ite_none_right_eq_some.mp hstep
    rcases htake : s.shard.ttlTable.evictionTake with ⟨ttl, r⟩
    rw [htake] at hstep
    obtain rfl := Option.some_inj.mp hstep
    cases r with
    | none => exact ⟨m, hi.of_none hidle (by rw [TtlManager.evictionTake_eq_none htake])⟩
    | some p => exact ⟨m, hi.evictionTake hidle htake⟩
  | evictionNext now =>
    obtain ⟨hidle, hstep⟩ := Option.ite_none_right_eq_some.mp hstep
    rcases hnext : s.shard.ttlTable.evictionNext now with ⟨ttl, r⟩
    rw [hnext] at hstep
    obtain rfl := Option.some_inj.mp hstep
    rcases TtlManager.evictionNext_cases hnext with
      ⟨t, set, rfl, -, htake⟩ | ⟨rfl, ⟨-, rfl⟩ | ⟨t, -, rfl⟩⟩
    · exact ⟨m, hi.evictionTake hidle htake⟩
    · exact ⟨m, hi.of_none hidle rfl⟩
    · exact ⟨m, hi.of_none hidle rfl⟩
  | evictDel keys =>
    obtain ⟨⟨t, set⟩, htaken, hstep⟩ := Option.bind_eq_some_iff.mp hstep
    obtain ⟨hset, hstep⟩ := Option.ite_none_right_eq_some.mp hstep
    obtain ⟨shard, hevict, hstep⟩ := Option.bind_eq_some_iff.mp hstep
    obtain rfl := Option.some_inj.mp hstep
    rw [← hset] at htaken
    exact hi.evictDel htaken (Go.toOption_eq_some.mp hevict)

end

/-- A new shard with no calls under way. -/
theorem init_of_map (hasher : Hasher) (config : Config) (now : ℕ) (s : Concurrent T M)
    (hs : ((CacheShard.initNewShard config now).toOption.map fun shard ↦
      (⟨shard, [], [], none⟩ : Concurrent T M)) = some s) : (system T M hasher).init s := by
  obtain ⟨shard, hshard, rfl⟩ := Option.map_eq_some_iff.mp hs
  exact ⟨⟨_, _, Go.toOption_eq_some.mp hshard⟩, rfl, rfl, rfl⟩

theorem system_inv {hasher : Hasher} {ls : List Step} {s : Concurrent T M}
    (hr : ((system T M hasher).restrict (Careful hasher)).Run ls s) : ∃ m, Inv hasher s m := by
  refine hr.invariant ?_ ?_
  · rintro s ⟨⟨config, now, hinit⟩, -⟩
    have hrep := (CacheShard.initNewShard_spec hinit).1
    exact ⟨_, hrep.keeps, fun _ ↦ hrep, fun h e he ↦ by simp at he, fun h e he ↦ by simp at he⟩
  · rintro s a s' ⟨m, hi⟩ ⟨hstep, hcareful⟩
    exact hi.step hcareful hstep

/-- **Every expiring entry is registered when all calls have finished**, in every run in which no
late removal takes the registration of a live entry.  The live entries of the shard are those of a
table, each under the hash of its key, and the key of an entry that expires is in the set that the
index has under its timestamp. -/
theorem expiring_registered {hasher : Hasher} {ls : List Step} {s : Concurrent T M}
    (hr : ((system T M hasher).restrict (Careful hasher)).Run ls s) (hfin : s.Finished) :
    ∃ m, s.shard.Keeps m ∧ ∀ h e, m h = some e → hasher e.key = h ∧
      (e.timestamp ≠ 0 → s.shard.ttlTable.Registered e.timestamp e.key) := by
  obtain ⟨m, hi⟩ := system_inv hr
  obtain ⟨hputs, -, htaken⟩ := hfin
  refine ⟨m, hi.keeps, fun h e he ↦ ⟨hi.hashed h e he, fun hne ↦ ?_⟩⟩
  rcases hi.covered h e he hne with hreg | hput | ⟨set, hset, -⟩
  · exact hreg
  · simp [hputs] at hput
  · simp [htaken] at hset

/-- A run in which a deletion and an eviction cross, and a `set` after both. -/
theorem expiring_registered_crossing :
    ∃ s : Concurrent (SortedAssoc ℤ Ptr) (SortedAssoc UInt64 (Finset Key)),
      ((system _ _ lengthHasher).restrict (Careful lengthHasher)).Run
        [.setLocked [1] [7] 5000000000 0 0, .setLocked [2, 2] [8] 5000000000 0 0, .setPut 1 0,
          .setPut 0 0, .delLocked [1], .evictionTake, .delFinish 0 0,
          .setLocked [3, 3, 3] [9] 9000000000 0 0, .evictDel [[1], [2, 2]], .setPut 0 0] s ∧
      s.Finished ∧ ∃ m, s.shard.Keeps m ∧ ∀ h e, m h = some e → lengthHasher e.key = h ∧
        (e.timestamp ≠ 0 → s.shard.ttlTable.Registered e.timestamp e.key) := by
  have hstep : ∀ s a t, TransitionSystem.guarded (step lengthHasher) (Vacant lengthHasher) s a =
      some t → ((system (SortedAssoc ℤ Ptr) (SortedAssoc UInt64 (Finset Key))
        lengthHasher).restrict (Careful lengthHasher)).step s a t := by
    intro s a t h
    obtain ⟨hstep, hvacant⟩ := TransitionSystem.guarded_eq_some.mp h
    exact ⟨hstep, hvacant.careful⟩
  refine Exists.imp (fun s hs ↦ ⟨hs.1, of_decide_eq_true hs.2,
    expiring_registered hs.1 (of_decide_eq_true hs.2)⟩) (TransitionSystem.exists_run hstep
      (init_of_map lengthHasher smallConfig 0) ?_)
  decide +kernel

/-- **A late removal takes the registration of a new entry.**  A key that expires in five seconds is
deleted; before the deletion removes the timestamp from the index, the key is set again, to expire
in the same second.  When all calls have finished the entry is live and not registered. -/
theorem unregistered_entry :
    ∃ s : Concurrent (SortedAssoc ℤ Ptr) (SortedAssoc UInt64 (Finset Key)),
      (system _ _ lengthHasher).Run
        [.setLocked [1] [7] 5000000000 0 0, .setPut 0 0, .delLocked [1],
          .setLocked [1] [7] 5000000000 0 0, .setPut 0 0, .delFinish 0 0] s ∧
      s.Finished ∧ s.shard.Block (lengthHasher [1]) ⟨[1], [7], 5⟩ 1 ∧
      ¬ s.shard.ttlTable.Registered 5 [1] := by
  refine Exists.imp (fun s hs ↦ ⟨hs.1, of_decide_eq_true hs.2⟩)
    (TransitionSystem.exists_run (S := system _ _ _) (fun _ _ _ ↦ id)
      (init_of_map lengthHasher smallConfig 0) ?_)
  decide +kernel

end Concurrent
end ClusteredBigCache
