import ClusteredBigCache.Shard.Sequential

/-!
# A set that finds the queue full

`set` first frees the entry its hash had, and then pushes the new one.  When the push fails, the
entry it has freed is still in the hash table, the lock is held, and the error is lost: `set`
returns `(0, nil)`.

`failing_set_clean_iff` says so for every shard and every `set`: such a call is never clean.  In a
shard that calls can lead to, with positions in the queue that fit thirty-two bits, what is left
intact are the other entries, which could be read if the lock were released; and the hash table
leads to a block that was freed if and only if the hash had an entry.  In `failing_set_stale` the
block of an entry is freed, and the hash table still leads to it.
-/

set_option autoImplicit false

namespace ClusteredBigCache
namespace CacheShard

variable {T M : Type} {s : CacheShard T M} {m : Table} {h : UInt64}

/-- What `get` returns. -/
def value (s : CacheShard T M) (key : Key) (hashedKey : UInt64) : Go (Except CacheError Bytes) :=
  (s.get key hashedKey).map Prod.snd

/-- What is read depends on the queue, on the index of the hash and on the lock. -/
theorem value_congr {s₁ s₂ : CacheShard T M} (hindex : s₁.index h = s₂.index h)
    (hentries : s₁.entries = s₂.entries) (hlocked : s₁.locked = s₂.locked) (key : Key) :
    s₁.value key h = s₂.value key h := by
  have hhit : s₁.hit.entries = s₂.hit.entries := hentries
  simp only [value, get, getView, lock, hindex, hentries, hlocked]
  split_ifs
  · rfl
  · rfl
  · rfl
  · generalize s₂.entries.get _ = x
    cases x with
    | error f => rfl
    | ok r =>
      cases r with
      | error err => rfl
      | ok view =>
        simp only [Go.ok_bind]
        generalize readKeyFromEntry (s₂.entries.load view) = y
        cases y with
        | error f => rfl
        | ok entryKey =>
          simp only [Go.ok_bind]
          split_ifs
          · rfl
          · simp only [Go.pure_eq_ok, Go.ok_bind, hhit]
            cases readEntry (s₂.hit.entries.load view) <;> rfl

variable [OrderedMap T ℤ Ptr]

theorem Rep.value_eq (hr : s.Rep m) (key : Key) : s.value key h = m.get key h := by
  obtain ⟨stats, hget⟩ := hr.get key (h := h)
  rw [value, hget]
  cases m.get key h <;> rfl

section

variable [OrderedMap M UInt64 (Finset Key)]

/-! ## Runs -/

/-- Make a call, provided that it returns and releases the lock, and that positions in the queue
still fit thirty-two bits afterwards. -/
def request (hasher : Hasher) (s : CacheShard T M) : Op → Option (CacheShard T M)
  | .set key entry duration now =>
    match s.set key (hasher key) entry duration now with
    | .ok (s', _) =>
      if s'.locked = false ∧ s'.entries.array.length < 2 ^ 32 then some s' else none
    | .error _ => none
  | op => perform hasher s op

/-- A new shard, under any sequence of calls, with keys of any length. -/
def requests (T M : Type) [OrderedMap T ℤ Ptr] [OrderedMap M UInt64 (Finset Key)]
    (hasher : Hasher) : TransitionSystem (CacheShard T M) Op :=
  .ofStep (fun s ↦ (∃ config now, initNewShard config now = .ok s) ∧
    s.entries.array.length < 2 ^ 32) (request hasher)

theorem Rep.request {hasher : Hasher} {op : Op} {s' : CacheShard T M} (hr : s.Rep m)
    (hstep : request hasher s op = some s') : s'.Rep (m.apply hasher op) := by
  cases op with
  | set key entry duration now =>
    obtain ⟨s₁, r, hset, ho⟩ := hr.set_cases key entry duration now (h := hasher key)
    simp only [CacheShard.request, hset, Option.ite_none_right_eq_some, Option.some_inj] at hstep
    obtain ⟨⟨hunlocked, hsmall⟩, rfl⟩ := hstep
    exact ho.rep hr hunlocked (.inl hsmall)
  | get key => exact hr.perform hstep
  | del key now => exact hr.perform hstep
  | evictDel timeStamp set => exact hr.perform hstep

theorem requests_rep {hasher : Hasher} {ls : List Op} (hr : (requests T M hasher).Run ls s) :
    ∃ m, s.Rep m := by
  refine hr.invariant ?_ ?_
  · rintro s ⟨⟨config, now, hinit⟩, -⟩
    exact ⟨_, (initNewShard_spec hinit).1⟩
  · rintro s op s' ⟨m, hrep⟩ hstep
    exact ⟨_, hrep.request hstep⟩

/-! ## The push fails

`set` frees the old entry before it pushes the new one, and when the push fails it returns without
an error and without the unlock.  `FailsCleanly` lists what one would expect instead. -/

/-- The `Push` of a `set` returns an error. -/
def PushFails (s : CacheShard T M) (key : Key) (hashedKey : UInt64) (entry : Bytes)
    (duration : Int64) (now : ℕ) : Prop :=
  (s.setLocked key hashedKey entry (expiryTimestamp now duration) now).map Prod.snd = .ok false

instance (s : CacheShard T M) (key : Key) (hashedKey : UInt64) (entry : Bytes) (duration : Int64)
    (now : ℕ) : Decidable (s.PushFails key hashedKey entry duration now) :=
  inferInstanceAs (Decidable (_ = _))

/-- **A failing `set` returns no error**, in any shard. -/
theorem PushFails.set_eq {key : Key} {entry : Bytes} {duration : Int64} {now : ℕ}
    (hfail : s.PushFails key h entry duration now) :
    ∃ s', s.set key h entry duration now = .ok (s', .ok 0) := by
  rw [PushFails] at hfail
  rw [CacheShard.set]
  cases hset : s.setLocked key h entry (expiryTimestamp now duration) now with
  | error f =>
    rw [hset] at hfail
    cases hfail
  | ok p =>
    rw [hset] at hfail
    obtain ⟨s', stored⟩ := p
    obtain rfl : stored = false := Except.ok.inj hfail
    exact ⟨s', rfl⟩

/-- **What a failing `set` does**: the entry of the hash is freed, the lock is held, and no error is
returned. -/
theorem Rep.set_of_pushFails {key : Key} {entry : Bytes} {duration : Int64} {now : ℕ}
    (hr : s.Rep m) (hfail : s.PushFails key h entry duration now) :
    ∃ s', s.set key h entry duration now = .ok (s', .ok 0) ∧ s'.locked = true ∧
      s'.hashmap = s.hashmap ∧ Vacated s m h s'.entries := by
  obtain ⟨q₁, q₂, res, hv, ho, hset⟩ :=
    hr.setLocked key entry (expiryTimestamp now duration) now (h := h)
  rw [PushFails, hset] at hfail
  cases res with
  | ok i => cases hfail
  | error err =>
    obtain rfl : q₂ = q₁ := (ho.eq_of_error).1
    rw [CacheShard.set, hset, Go.ok_bind]
    exact ⟨_, rfl, rfl, rfl, hv⟩

end

/-- The shard, if the lock were released. -/
def released (s : CacheShard T M) : CacheShard T M := { s with locked := false }

/-- Every index of the hash table is the index of a live block. -/
def NoStaleIndex (s : CacheShard T M) : Prop :=
  ∀ h i, s.hashmap.lookup h = some i → ∃ data, (i.toNat, data) ∈ s.entries.live

section

variable {s' : CacheShard T M}

/-- The other entries are as they were. -/
theorem Vacated.value_of_ne (hv : Vacated s m h s'.entries) (hr : s.Rep m)
    (hmap : s'.hashmap = s.hashmap) {h' : UInt64} (hne : h' ≠ h) (key : Key) :
    s'.released.value key h' = s.value key h' := by
  have hrep : ({ s'.released with hashmap := s'.hashmap.erase h } : CacheShard T M).Rep
      (Function.update m h none) := by
    refine ⟨?_, rfl⟩
    rw [lookup_erase, hmap]
    exact hv.stores hr
  have hindex : s'.released.index h' =
      index ({ s'.released with hashmap := s'.hashmap.erase h } : CacheShard T M) h' := by
    rw [index, index, Finmap.lookup_erase_ne hne]
    rfl
  have hget : Table.get (Function.update m h none) key h' = m.get key h' := by
    rw [Table.get, Table.get, Function.update_of_ne hne]
  rw [value_congr hindex rfl rfl, hrep.value_eq, hget, hr.value_eq]

/-- **There is a stale index** if and only if the hash had an entry. -/
theorem Vacated.noStaleIndex_iff (hv : Vacated s m h s'.entries) (hr : s.Rep m)
    (hmap : s'.hashmap = s.hashmap) :
    s'.NoStaleIndex ↔ s.hashmap.lookup h = none := by
  have hstores := hv.stores hr
  constructor
  · intro hall
    by_contra hsome
    obtain ⟨i, hi⟩ := Option.ne_none_iff_exists'.mp hsome
    obtain ⟨data, hlive⟩ := hall h i (by rw [hmap, hi])
    generalize s'.entries = q at hv hlive
    cases hv with
    | absent hm => exact hsome (hr.stores.absent h hm)
    | freed hm hb =>
      rw [Option.some.inj (hi.symm.trans hb.lookup)] at hlive
      exact (BytesQueue.mem_freed_live.mp hlive).2 rfl
  · intro hnone h' i hi
    have hne : h' ≠ h := by
      rintro rfl
      rw [hmap, hnone] at hi
      cases hi
    rw [hmap] at hi
    obtain ⟨e, -, hlive⟩ := hstores.live_of_index (h := h') (i := i)
      (by rw [Function.update_of_ne hne, hi])
    exact ⟨e.data h', hlive⟩

end

variable [OrderedMap M UInt64 (Finset Key)]

/-- What is asked of a `set` that fails: an error is returned and the lock is released, the hash
table leads to no block that was freed, the other entries are read as before, and the entry of the
key is read as before or there is none. -/
structure FailsCleanly (s : CacheShard T M) (key : Key) (h : UInt64) (s' : CacheShard T M)
    (r : Except CacheError UInt64) : Prop where
  error : ∃ err, r = .error err
  unlocked : s'.locked = false
  noStaleIndex : s'.NoStaleIndex
  others : ∀ key' h', h' ≠ h → s'.value key' h' = s.value key' h'
  own : s'.value key h = s.value key h ∨ s'.value key h = .ok (.error (.notFound key))

/-- **A failing `set` is not clean.**  In every shard, a `set` is clean when its push fails if and
only if its push does not fail.  In every shard that is reached, a `set` returns, and when its push
fails, it returns no error and the lock is held; if the lock were released, the other entries would
be read as before; and the hash table leads to no block that was freed if and only if the hash had
no entry, and then it still has none. -/
theorem failing_set_clean_iff (s : CacheShard T M) (key : Key) (h : UInt64) (entry : Bytes)
    (duration : Int64) (now : ℕ) :
    ((s.PushFails key h entry duration now →
        ∃ s' r, s.set key h entry duration now = .ok (s', r) ∧ s.FailsCleanly key h s' r) ↔
      ¬ s.PushFails key h entry duration now) ∧
    ∀ (hasher : Hasher) (ls : List Op), (requests T M hasher).Run ls s →
      ∃ s' r, s.set key h entry duration now = .ok (s', r) ∧
        (s.PushFails key h entry duration now →
          (r = .ok 0 ∧ s'.locked = true) ∧
          (∀ key' h', h' ≠ h → s'.released.value key' h' = s.value key' h') ∧
          (s'.NoStaleIndex ↔ s.hashmap.lookup h = none) ∧
          (s.hashmap.lookup h = none →
            s'.released.value key h = .ok (.error (.notFound key)))) := by
  refine ⟨⟨fun hclean hfail ↦ ?_, fun hok hfail ↦ absurd hfail hok⟩, fun hasher ls hr ↦ ?_⟩
  · obtain ⟨s₁, hset₁⟩ := hfail.set_eq
    obtain ⟨s', r, hset, hc⟩ := hclean hfail
    obtain ⟨-, rfl⟩ := Prod.mk.inj (Except.ok.inj (hset₁.symm.trans hset))
    obtain ⟨err, herr⟩ := hc.error
    cases herr
  · obtain ⟨m, hrep⟩ := requests_rep hr
    by_cases hfail : s.PushFails key h entry duration now
    · obtain ⟨s', hset, hlocked, hmap, hv⟩ := hrep.set_of_pushFails hfail
      refine ⟨s', .ok 0, hset, fun _ ↦ ⟨⟨rfl, hlocked⟩,
        fun key' h' hne ↦ hv.value_of_ne hrep hmap hne key', hv.noStaleIndex_iff hrep hmap,
        fun hnone ↦ ?_⟩⟩
      have hindex : s'.released.index h = 0 := by
        rw [index, show s'.released.hashmap = s.hashmap from hmap, hnone]
        rfl
      simp only [value, get, getView, hindex]
      rfl
    · obtain ⟨s', r, hset, -⟩ := hrep.set_cases key entry duration now (h := h)
      exact ⟨s', r, hset, fun hf ↦ absurd hf hfail⟩

/-- Sixty-four bytes at most for each of many shards. -/
def limitedConfig : Config := ⟨16384, 0, 1, 1, false⟩

/-- The push of a new key fails: there is no stale index. -/
theorem failing_set_clean_new : ∃ s : ListShard,
    (requests _ _ lengthHasher).Run [.set [1] [7] 0 0] s ∧
      ∃ s' r, s.set [2, 2] 2 (List.replicate 40 8) 0 0 = .ok (s', r) ∧
        r = .ok 0 ∧ s'.locked = true ∧ s'.NoStaleIndex := by
  refine Exists.imp (fun s hs ↦ ⟨hs.1, ?_⟩)
    (TransitionSystem.exists_run (S := requests _ _ _) (fun _ _ _ ↦ id)
      (x := (initNewShard limitedConfig 0).toOption.filter fun s ↦
        s.entries.array.length < 2 ^ 32) (fun s hs ↦ initial_of_filter hs)
      (p := fun s ↦ s.PushFails [2, 2] 2 (List.replicate 40 8) 0 0 ∧ s.hashmap.lookup 2 = none) ?_)
  · obtain ⟨s', r, hset, hall⟩ :=
      (failing_set_clean_iff s [2, 2] 2 (List.replicate 40 8) 0 0).2 _ _ hs.1
    obtain ⟨⟨hr, hlocked⟩, -, hstale, -⟩ := hall (of_decide_eq_true hs.2).1
    exact ⟨s', r, hset, hr, hlocked, hstale.mpr (of_decide_eq_true hs.2).2⟩
  · decide +kernel

/-- **A set fails**: it returns `(0, nil)`, the lock is held, and the hash table leads to the block
of the old entry, which was freed. -/
theorem failing_set_stale : ∃ s s' : ListShard,
    (requests _ _ lengthHasher).Run [.set [1] [7] 0 0] s ∧
      s.PushFails [1] 1 (List.replicate 40 8) 0 0 ∧
      s.set [1] 1 (List.replicate 40 8) 0 0 = .ok (s', .ok 0) ∧
      s'.locked = true ∧ s'.hashmap.lookup 1 = some 1 ∧ s'.entries.live = [] := by
  obtain ⟨s, hr, hs⟩ := TransitionSystem.exists_run (S := requests _ _ lengthHasher)
    (fun _ _ _ ↦ id) (x := (initNewShard limitedConfig 0).toOption.filter fun s : ListShard ↦
      s.entries.array.length < 2 ^ 32) (fun s hs ↦ initial_of_filter hs) (l := [.set [1] [7] 0 0])
    (p := fun s ↦ s.PushFails [1] 1 (List.replicate 40 8) 0 0 ∧
      ∃ x ∈ (s.set [1] 1 (List.replicate 40 8) 0 0).toOption, x.2 = .ok 0 ∧
        x.1.locked = true ∧ x.1.hashmap.lookup 1 = some 1 ∧ x.1.entries.live = [])
    (by decide +kernel)
  obtain ⟨hfail, ⟨s', r⟩, hset, rfl, hs'⟩ := of_decide_eq_true hs
  exact ⟨s, s', hr, hfail, Go.toOption_eq_some.mp hset, hs'⟩

end CacheShard
end ClusteredBigCache
