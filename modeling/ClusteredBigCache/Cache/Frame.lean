import ClusteredBigCache.Cache.KeyValue
import ClusteredBigCache.Shard.FullQueue

/-!
# What a deletion touches

Here a cache of any configuration — with or without a size limit — goes through any sequence of
calls, with keys of any length.  `Sound` says of a `Set` that it stores its entry, and that the
position and the length of the entry fit thirty-two bits; as long as every `Set` is sound, the cache
represents the table of its calls (`reachable_represents`).

`Delete` finds an entry by the hash of its key alone, and never looks at the key of the entry that
it removes.  `delete_touches_only_iff` is exact: a `Delete` leaves every other key alone, and does
nothing when its key is not stored, if and only if there is a shard to ask and no other key is
stored under the hash.  In `delete_removes_other` it removes the entry of a colliding key, and
reports success.
-/

set_option autoImplicit false

namespace ClusteredBigCache

namespace CacheShard

variable {T M : Type} [OrderedMap T ℤ Ptr] [OrderedMap M UInt64 (Finset Key)]

/-- A `set` stores its entry, in a queue that ends where positions still fit thirty-two bits, and
the length of the entry fits its header. -/
def Accepts (s : CacheShard T M) (key : Key) (hashedKey : UInt64) (entry : Bytes)
    (duration : Int64) (now : ℕ) : Prop :=
  ¬ s.PushFails key hashedKey entry duration now ∧ s.entries.tail < 2 ^ 32 ∧
    18 + key.length + entry.length < 2 ^ 32

instance (s : CacheShard T M) (key : Key) (hashedKey : UInt64) (entry : Bytes) (duration : Int64)
    (now : ℕ) : Decidable (s.Accepts key hashedKey entry duration now) :=
  inferInstanceAs (Decidable (_ ∧ _ ∧ _))

/-- A `set` whose push does not fail releases the lock. -/
theorem Rep.unlocked_of_set {s s' : CacheShard T M} {m : Table} {key : Key} {h : UInt64}
    {entry : Bytes} {duration : Int64} {now : ℕ} {r : Except CacheError UInt64} (hr : s.Rep m)
    (hok : s.set key h entry duration now = .ok (s', r))
    (hfail : ¬ s.PushFails key h entry duration now) : s'.locked = false := by
  obtain ⟨q₁, q₂, res, hv, ho, hset⟩ :=
    hr.setLocked key entry (expiryTimestamp now duration) now (h := h)
  cases res with
  | error err =>
    rw [PushFails, hset] at hfail
    exact absurd rfl hfail
  | ok i =>
    rw [CacheShard.set, hset, Go.ok_bind] at hok
    simp only [afterPush, if_true] at hok
    split_ifs at hok
    all_goals
      obtain ⟨rfl, -⟩ := Prod.mk.inj (Except.ok.inj hok)
      exact hr.unlocked

end CacheShard

namespace BigCache

variable {T M : Type} [OrderedMap T ℤ Ptr] [OrderedMap M UInt64 (Finset Key)]

/-! ## Reachable caches

In contrast to `sequential`, the configuration is any that `newBigCache` accepts, with or without a
limit, and keys may be too long to be read back. -/

/-- A new cache of any configuration, under any sequence of calls. -/
def reachable (T M : Type) [OrderedMap T ℤ Ptr] [OrderedMap M UInt64 (Finset Key)]
    (hasher : Hasher) : TransitionSystem (BigCache T M) Op :=
  .ofStep (fun c ↦ ∃ config now, newBigCache config (some hasher) now = .ok (.ok c)) call

/-- A `Set` has no shard to go to, or the shard takes it. -/
def Sound (c : BigCache T M) : Op → Prop
  | .set key entry duration now =>
    ∀ s ∈ (c.getShard (c.hash key)).toOption, s.Accepts key (c.hash key) entry duration now
  | _ => True

instance (c : BigCache T M) (op : Op) : Decidable (c.Sound op) :=
  match op with
  | .set .. => inferInstanceAs (Decidable (∀ _ ∈ _, _))
  | .get _ | .delete .. | .evict .. => instDecidableTrue

section

variable {hasher : Hasher} {c c' : BigCache T M} {m : Table} {ls : List Op}

/-- A sound call has landed. -/
theorem Sound.landed {op : Op} (hs : c.Sound op) (hr : c.Represents m)
    (hstep : c.call op = some c') :
    ∀ s s', c.shards[op.target c.hash c.shardMask]? = some s →
      c'.shards[op.target c.hash c.shardMask]? = some s' → Landed s s' op := by
  intro s s' hget hget'
  obtain ⟨s₁, s₁', hs₁, hpassed, rfl⟩ := call_cases hstep
  rw [List.getElem?_set_self (List.getElem?_eq_some_iff.mp hget).1] at hget'
  obtain rfl := Option.some.inj hget'
  obtain rfl := Option.some.inj (hs₁.symm.trans hget)
  cases hpassed with
  | @set key entry duration now r h =>
    have hshard : c.getShard (c.hash key) = .ok s₁ := by
      have hindex : c.shards[c.shardIndex (c.hash key)]? = some s₁ := hget
      rw [getShard, hindex]
    obtain ⟨hpush, hfit⟩ := hs s₁ (by rw [hshard]; rfl)
    exact ⟨(hr.shard _ s₁ hget).unlocked_of_set h hpush, .inr hfit⟩
  | get | delete | evict => trivial

/-- A new cache that has a shard represents the empty table. -/
theorem newBigCache_represents {config : Config} {hasher : Option Hasher} {now : ℕ}
    (h : newBigCache config hasher now = .ok (.ok c)) (hne : c.shards ≠ []) :
    c.Represents fun _ ↦ none := by
  obtain ⟨-, hnonneg, -, -, hmask, hlen, hall⟩ := newBigCache_spec h
  refine ⟨?_, fun i s hs ↦ ?_⟩
  · have hpos : 0 < config.shards.toInt.toNat := hlen ▸ List.length_pos_iff.mpr hne
    rw [hmask, hlen]
    refine mask_lt ?_
    have hone : Int64.toInt 1 = 1 := rfl
    rw [Int64.le_iff_toInt_le, hone]
    omega
  · have hpart : Table.part (fun _ ↦ none) c.shardMask i = fun _ ↦ none := by
      funext h
      exact ite_self none
    rw [hpart]
    exact (CacheShard.initNewShard_spec (hall s (List.mem_of_getElem? hs))).1

/-- There are as many shards as were configured. -/
theorem length_shards (hr : (reachable T M hasher).Run ls c) :
    c.config.shards.toInt.toNat = c.shards.length := by
  refine hr.invariant ?_ ?_
  · rintro c ⟨config, now, hnew⟩
    obtain ⟨-, -, rfl, -, -, hlen, -⟩ := newBigCache_spec hnew
    exact hlen.symm
  · rintro c op c' hlen hstep
    obtain ⟨s, s', -, -, rfl⟩ := call_cases hstep
    simpa using hlen

/-- **A cache whose calls are sound represents the table of its calls.** -/
theorem reachable_represents (hr : ((reachable T M hasher).restrict Sound).Run ls c) :
    c.hash = hasher ∧ (c.shards ≠ [] → c.Represents (c.contents ls)) := by
  refine hr.history_invariant ?_ ?_
  · rintro c ⟨config, now, hnew⟩
    exact ⟨(newBigCache_spec hnew).2.2.2.1, newBigCache_represents hnew⟩
  · rintro ls c op c' ⟨hhash, hrep⟩ ⟨hstep, hsound⟩
    obtain ⟨s, s', hs, -, -⟩ := call_cases hstep
    have hne : c.shards ≠ [] := List.ne_nil_of_mem (List.mem_of_getElem? hs)
    obtain ⟨hrep', hhash', hmask'⟩ := (hrep hne).call hstep (hsound.landed (hrep hne) hstep)
    refine ⟨hhash'.trans hhash, fun _ ↦ ?_⟩
    rw [contents, hhash', hmask', List.foldl_append]
    exact hrep'

omit [OrderedMap T ℤ Ptr] [OrderedMap M UInt64 (Finset Key)] in
/-- The table of some calls has the entries that are current. -/
theorem tracks_contents (c : BigCache T M) (ls : List Op) :
    Tracks c.hash c.shardMask ls (c.contents ls) := by
  induction ls using List.reverseRecOn with
  | nil =>
    refine fun h e ↦ iff_of_false (by simp [contents]) ?_
    rintro ⟨-, d, n, -, hsince⟩
    exact TransitionSystem.not_since_nil hsince
  | append_singleton ls op ih =>
    rw [contents, List.foldl_append]
    exact Tracks.run ih op

/-! ## Reading and deleting -/

/-- What `Get` returns. -/
def value (c : BigCache T M) (key : Key) : Go (Except CacheError Bytes) :=
  (c.get key).map Prod.snd

omit [OrderedMap M UInt64 (Finset Key)] in
theorem Represents.value_eq (hr : c.Represents m) (key : Key) :
    c.value key = m.get key (c.hash key) := by
  obtain ⟨i, s, stats, -, hget⟩ := hr.get key
  rw [value, hget]
  cases m.get key (c.hash key) <;> rfl

/-- `Delete` of a hash under which nothing is stored. -/
theorem Represents.delete_of_none (hr : c.Represents m) {key : Key} (hm : m (c.hash key) = none)
    (now : ℕ) :
    ∃ c', c.delete key now = .ok (c', .error (.notFound key)) ∧
      c'.shards.map stored = c.shards.map stored := by
  obtain ⟨s, hget, hs⟩ := getShard_of_mask hr.mask (c.hash key)
  have hpart : m.part c.shardMask (c.shardIndex (c.hash key)) (c.hash key) = none := by
    rw [Table.part_of_eq (rfl : _ = c.shardIndex (c.hash key)), hm]
  have hdel := (hr.shard _ s hs).del_of_none hpart key now
  exact ⟨_, delete_of_del hget hdel, map_stored_set hs s.delmiss.stats⟩

/-- **`Delete` of a hash under which something is stored**: it succeeds, whatever the key of the
entry is, unless the callback cannot be called. -/
theorem Represents.delete_of_some (hr : c.Represents m) {key : Key} {e : Entry}
    (hm : m (c.hash key) = some e) (now : ℕ) :
    (∃ c', c.delete key now = .ok (c', .ok ())) ∨
      maxKeyLength < e.key.length ∧ ∃ f, c.delete key now = .error f := by
  obtain ⟨s, hget, hs⟩ := getShard_of_mask hr.mask (c.hash key)
  have hpart : m.part c.shardMask (c.shardIndex (c.hash key)) (c.hash key) = some e := by
    rw [Table.part_of_eq (rfl : _ = c.shardIndex (c.hash key)), hm]
  have hrep := hr.shard _ s hs
  obtain ⟨i, hb⟩ := hrep.block hpart
  rw [BigCache.delete, hget, Go.ok_bind, (hb.readable hrep).del]
  cases hcb : e.callback s.onRemove (c.hash key) with
  | ok cb => exact .inl ⟨_, rfl⟩
  | error f =>
    refine .inr ⟨not_le.mp fun hle ↦ ?_, f, rfl⟩
    rw [Entry.callback_of_le hle] at hcb
    cases hcb

/-- A key is stored: it was set, and its entry was not superseded since. -/
def IsStored (c : BigCache T M) (ls : List Op) (key : Key) : Prop :=
  ∃ e, Current c.hash c.shardMask ls e ∧ e.key = key

/-- What is asked of a `Delete`, after the calls `ls`: no other key reads differently, and when the
key is not stored, an error is returned and nothing that is stored changes. -/
def DeletesOnly (c : BigCache T M) (ls : List Op) (key : Key) (now : ℕ) : Prop :=
  ∃ c' r, c.delete key now = .ok (c', r) ∧ (∀ k, k ≠ key → c'.value k = c.value k) ∧
    (¬ c.IsStored ls key →
      r = .error (.notFound key) ∧ c'.shards.map stored = c.shards.map stored)

/-- **When a `Delete` touches only its key.**  In every cache that sound calls can lead to, a
`Delete` leaves the other keys alone, and does nothing when its key is not stored, if and only if
the cache has a shard and no other key is stored under the hash of the key. -/
theorem delete_touches_only_iff (hr : ((reachable T M hasher).restrict Sound).Run ls c) {key : Key}
    (hkey : key.length ≤ maxKeyLength) (now : ℕ) :
    c.DeletesOnly ls key now ↔ c.shards ≠ [] ∧
      ∀ e, Current hasher c.shardMask ls e → hasher e.key = hasher key → e.key = key := by
  obtain ⟨rfl, hrep⟩ := reachable_represents hr
  have htracks := tracks_contents c ls
  constructor
  · rintro ⟨c', r, hdel, -, hnot⟩
    have hne : c.shards ≠ [] := by
      obtain ⟨s, hs, -⟩ := Go.bind_eq_ok.mp hdel
      exact List.ne_nil_of_mem (List.mem_of_getElem? (getElem?_of_getShard hs))
    refine ⟨hne, fun e hcur hhash ↦ ?_⟩
    by_contra hother
    have hm := (htracks (c.hash key) e).mpr ⟨hhash, hcur⟩
    -- there is one entry under the hash, so the key itself is not stored
    have hstored : ¬ c.IsStored ls key := by
      rintro ⟨e', hcur', rfl⟩
      have hm' := (htracks _ e').mpr ⟨rfl, hcur'⟩
      exact hother (congrArg Entry.key (Option.some.inj (hm.symm.trans hm')))
    obtain ⟨rfl, -⟩ := hnot hstored
    rcases (hrep hne).delete_of_some hm now with ⟨c₁, hok⟩ | ⟨-, f, herr⟩
    · cases (Prod.mk.inj (Except.ok.inj (hok.symm.trans hdel))).2
    · rw [herr] at hdel
      cases hdel
  · rintro ⟨hne, honly⟩
    have hrep := hrep hne
    cases hm : c.contents ls (c.hash key) with
    | none =>
      obtain ⟨c', hdel, hsame⟩ := hrep.delete_of_none hm now
      refine ⟨c', _, hdel, fun k _ ↦ ?_, fun _ ↦ ⟨rfl, hsame⟩⟩
      have hstep : c.call (.delete key now) = some c' := by rw [call, hdel]; rfl
      obtain ⟨hrep', hhash, -⟩ := hrep.call hstep (fun _ _ _ _ ↦ trivial)
      rw [Table.run, Function.update_eq_self_iff.mpr hm.symm] at hrep'
      rw [hrep'.value_eq, hrep.value_eq, hhash]
    | some e =>
      obtain ⟨hhash, hcur⟩ := (htracks _ e).mp hm
      obtain rfl := honly e hcur hhash
      rcases hrep.delete_of_some hm now with ⟨c', hdel⟩ | ⟨hlong, -⟩
      · refine ⟨c', _, hdel, fun k hk ↦ ?_, fun hno ↦ absurd ⟨e, hcur, rfl⟩ hno⟩
        have hstep : c.call (.delete e.key now) = some c' := by rw [call, hdel]; rfl
        obtain ⟨hrep', hhash', -⟩ := hrep.call hstep (fun _ _ _ _ ↦ trivial)
        rw [hrep'.value_eq, hrep.value_eq, hhash', Table.get, Table.get, Table.run,
          Function.update_apply]
        split_ifs with hkk
        · -- a colliding key was not found before, as the entry has the key that is deleted
          rw [hkk, hm]
          simp only [Entry.readKey_of_le hkey, Go.ok_bind]
          rw [if_pos hk]
          rfl
        · rfl
      · exact absurd hkey (not_le.mpr hlong)

end

/-- A cache that can be evaluated. -/
abbrev ListCache : Type := BigCache (SortedAssoc ℤ Ptr) (SortedAssoc UInt64 (Finset Key))

/-- A `Delete` of a key that is stored, with another key in the cache. -/
theorem delete_touches_only_pair :
    ∃ c : ListCache, ((reachable _ _ lengthHasher).restrict Sound).Run
        [.set [1] [7] 0 0, .set [2, 2] [8] 0 0] c ∧
      c.DeletesOnly [.set [1] [7] 0 0, .set [2, 2] [8] 0 0] [1] 0 := by
  obtain ⟨c, hr, hne⟩ := TransitionSystem.exists_run
    (S := (reachable (SortedAssoc ℤ Ptr) (SortedAssoc UInt64 (Finset Key)) lengthHasher).restrict
      Sound)
    TransitionSystem.step_of_guarded (l := [.set [1] [7] 0 0, .set [2, 2] [8] 0 0])
    (x := (newBigCache ⟨2, 0, 1, 0, true⟩ (some lengthHasher) 0).toOption.bind Except.toOption)
    (p := fun c ↦ !c.shards.isEmpty)
    (fun c hc ↦ ⟨_, 0, newBigCache_of_toOption hc⟩) (by decide +kernel)
  refine ⟨c, hr, (delete_touches_only_iff hr (by decide) 0).mpr ⟨by simpa using hne, ?_⟩⟩
  rintro e ⟨d, n, -, pre, post, heq, -⟩ hhash
  have hmem : (Op.set e.key e.value d n) ∈ [Op.set [1] [7] 0 0, .set [2, 2] [8] 0 0] := by
    rw [heq]
    simp
  rcases List.mem_pair.mp hmem with h | h
  · exact (Op.set.inj h).1
  · rw [(Op.set.inj h).1] at hhash
    exact absurd hhash (by decide)

/-- **A `Delete` removes the entry of another key**: the keys `[1]` and `[2]` have the same hash. -/
theorem delete_removes_other :
    ∃ c c' : ListCache, (reachable _ _ lengthHasher).Run [.set [1] [7] 0 0] c ∧
      c.value [1] = .ok (.ok [7]) ∧ c.delete [2] 0 = .ok (c', .ok ()) ∧
      c'.value [1] = .ok (.error (.notFound [1])) ∧ ¬ c.DeletesOnly [.set [1] [7] 0 0] [2] 0 := by
  obtain ⟨c, hr, hc⟩ := TransitionSystem.exists_run
    (S := reachable (SortedAssoc ℤ Ptr) (SortedAssoc UInt64 (Finset Key)) lengthHasher)
    (fun _ _ _ ↦ id) (l := [.set [1] [7] 0 0])
    (x := (newBigCache ⟨2, 0, 1, 0, true⟩ (some lengthHasher) 0).toOption.bind Except.toOption)
    (p := fun c ↦ c.value [1] = .ok (.ok [7]) ∧
      (c.delete [2] 0).map (fun r ↦ (r.2, r.1.value [1])) =
        .ok (.ok (), .ok (.error (.notFound [1]))))
    (fun c hc ↦ ⟨_, 0, newBigCache_of_toOption hc⟩) (by decide +kernel)
  obtain ⟨hvalue, hdel⟩ := of_decide_eq_true hc
  cases hresult : c.delete [2] 0 with
  | error f =>
    rw [hresult] at hdel
    cases hdel
  | ok p =>
    obtain ⟨c', r⟩ := p
    rw [hresult] at hdel
    obtain ⟨rfl, hvalue'⟩ := Prod.mk.inj (Except.ok.inj hdel)
    refine ⟨c, c', hr, hvalue, hresult, hvalue', ?_⟩
    rintro ⟨c₁, r, hdel, hsame, -⟩
    obtain ⟨rfl, -⟩ := Prod.mk.inj (Except.ok.inj (hresult.symm.trans hdel))
    cases hvalue'.symm.trans ((hsame [1] (by decide)).trans hvalue)

end BigCache
end ClusteredBigCache
