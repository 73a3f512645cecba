import ClusteredBigCache.Shard.Sequential

/-!
# Thirty-two bits for positions and lengths

A shard keeps the position of an entry as a `uint32`, and the queue keeps the length of a block in
four bytes, while the array of a shard without a limit grows as far as its entries need.  Neither
`Push` nor `set` checks that the numbers fit.

`narrowing_lossless`: as long as the queue ends below `2 ^ 32` when an entry is set, and the entry
itself is shorter than that, every index in the hash table is the position of a block, and every
header is the length of the data.  In `narrowing_wraps` an entry of a little more than `2 ^ 32`
bytes is stored in an empty shard, and its header says that it has nineteen.
-/

set_option autoImplicit false

namespace ClusteredBigCache
namespace CacheShard

variable {T M : Type} [OrderedMap T ℤ Ptr]

/-- No position and no length is wrapped: the hash table has the exact position of every block, and
nothing else; and every header is the length of the data, so that reading a block returns the data
that was pushed. -/
structure Unwrapped (s : CacheShard T M) : Prop where
  stored : ∀ x ∈ s.entries.live,
    ∃ h i, ∃ e : Entry, s.hashmap.lookup h = some i ∧ x = (i.toNat, e.data h)
  indexed : ∀ h i, s.hashmap.lookup h = some i →
    ∃ e : Entry, (i.toNat, e.data h) ∈ s.entries.live
  header : ∀ x ∈ s.entries.live,
    Bytes.ofLE (Bytes.sub s.entries.array x.1 headerEntrySize) = x.2.length
  read : ∀ x ∈ s.entries.live,
    ∃ view, s.entries.get x.1 = .ok (.ok view) ∧ (s.entries.load view).bytes = x.2

theorem Rep.unwrapped {s : CacheShard T M} {m : Table} (hr : s.Rep m) : s.Unwrapped where
  stored x hx := by
    obtain ⟨h, i, hi, hix⟩ := hr.stores.referenced x hx
    obtain ⟨e, -, hlive⟩ := hr.stores.live_of_index hi
    exact ⟨h, i, e, hi, hr.stores.inv.eq_of_index hx hlive hix.symm⟩
  indexed h i hi := by
    obtain ⟨e, -, hlive⟩ := hr.stores.live_of_index hi
    exact ⟨e, hlive⟩
  header x hx := by
    have hstored := hr.stores.inv.stored x hx
    rw [headerEntrySize, BytesQueue.header_of_frame hstored.bytes]
    exact Bytes.ofLE_toLE_of_lt hstored.length_lt
  read x hx := ⟨_, (hr.stores.inv.framed hx).get⟩

variable [OrderedMap M UInt64 (Finset Key)]

/-- Make a call, provided that it returns. -/
def invoke (hasher : Hasher) (s : CacheShard T M) : Op → Option (CacheShard T M)
  | .set key entry duration now =>
    (s.set key (hasher key) entry duration now).toOption.map Prod.fst
  | op => perform hasher s op

/-- A new shard without a limit, under any sequence of calls, with keys and values of any length. -/
def unlimited (T M : Type) [OrderedMap T ℤ Ptr] [OrderedMap M UInt64 (Finset Key)]
    (hasher : Hasher) : TransitionSystem (CacheShard T M) Op :=
  .ofStep (fun s ↦ (∃ config now, initNewShard config now = .ok s) ∧ s.entries.maxCapacity = 0)
    (invoke hasher)

theorem unlimited_of_filter {config : Config} {now : ℕ} {s : CacheShard T M}
    (hs : ((initNewShard config now).toOption.filter fun s : CacheShard T M ↦
      s.entries.maxCapacity = 0) = some s) :
    (∃ config now, initNewShard config now = .ok s) ∧ s.entries.maxCapacity = 0 := by
  obtain ⟨hs, hmax⟩ := Option.filter_eq_some_iff.mp hs
  exact ⟨⟨config, now, Go.toOption_eq_some.mp hs⟩, of_decide_eq_true hmax⟩

/-- The length of an entry fits its header, and the used part of the array ends where positions
still fit. -/
def Narrow (s : CacheShard T M) : Op → Prop
  | .set key entry _ _ => 18 + key.length + entry.length < 2 ^ 32 ∧ s.entries.tail < 2 ^ 32
  | _ => True

instance (s : CacheShard T M) (op : Op) : Decidable (s.Narrow op) := by
  cases op <;> unfold Narrow <;> infer_instance

/-- **A call that meets the condition** keeps the representation. -/
theorem Rep.invoke {hasher : Hasher} {op : Op} {s s' : CacheShard T M} {m : Table} (hr : s.Rep m)
    (hmax : s.entries.maxCapacity = 0) (hstep : invoke hasher s op = some s')
    (hnarrow : s.Narrow op) :
    s'.Rep (m.apply hasher op) ∧ s'.entries.maxCapacity = 0 := by
  cases op with
  | set key entry duration now =>
    obtain ⟨s₁, r, hset, ho⟩ := hr.set_cases key entry duration now (h := hasher key)
    rw [CacheShard.invoke, hset] at hstep
    obtain rfl := Option.some.inj hstep
    obtain ⟨hunlocked, hmax'⟩ := ho.unlocked hr hmax.le
    refine ⟨ho.rep hr hunlocked (.inr ⟨hnarrow.2, ?_⟩), hmax'.trans hmax⟩
    rw [Entry.length_data]
    exact hnarrow.1
  | get key =>
    have hstep : CacheShard.perform hasher s (.get key) = some s' := hstep
    obtain ⟨r, hget⟩ := perform_cases hstep
    obtain ⟨-, stats, rfl⟩ := hr.eq_of_get hget
    exact ⟨hr.congr rfl rfl rfl, hmax⟩
  | del key now =>
    have hstep : CacheShard.perform hasher s (.del key now) = some s' := hstep
    obtain ⟨r, hdel⟩ := perform_cases hstep
    obtain ⟨hrep, hmax'⟩ := hr.del hdel
    exact ⟨hrep, hmax'.trans hmax⟩
  | evictDel timeStamp set =>
    have hstep : CacheShard.perform hasher s (.evictDel timeStamp set) = some s' := hstep
    obtain ⟨hrep, hmax'⟩ := hr.evictDel (perform_cases hstep)
    exact ⟨hrep, hmax'.trans hmax⟩

theorem narrow_rep {hasher : Hasher} {ls : List Op} {s : CacheShard T M}
    (hr : ((unlimited T M hasher).restrict Narrow).Run ls s) :
    ∃ m, s.Rep m ∧ s.entries.maxCapacity = 0 := by
  refine hr.invariant ?_ ?_
  · rintro s ⟨⟨config, now, hinit⟩, hmax⟩
    exact ⟨_, (initNewShard_spec hinit).1, hmax⟩
  · rintro s op s' ⟨m, hrep, hmax⟩ ⟨hstep, hnarrow⟩
    exact ⟨_, hrep.invoke hmax hstep hnarrow⟩

/-- **Narrowing is lossless** along every run in which each entry that is set is shorter than
`2 ^ 32` bytes with its header, and finds the queue ending below `2 ^ 32`. -/
theorem narrowing_lossless {hasher : Hasher} {ls : List Op} {s : CacheShard T M}
    (hr : ((unlimited T M hasher).restrict Narrow).Run ls s) : s.Unwrapped := by
  obtain ⟨m, hrep, -⟩ := narrow_rep hr
  exact hrep.unwrapped

/-- A run with an overwrite and a deletion whose space is used again. -/
theorem narrowing_lossless_reuse :
    ∃ s : ListShard, ((unlimited _ _ lengthHasher).restrict Narrow).Run
        [.set [1] [7, 8] 0 0, .set [2, 2] [9] 0 0, .del [1] 0, .set [3] [4] 0 0] s ∧
      s.Unwrapped := by
  refine Exists.imp (fun s hs ↦ ⟨hs.1, narrowing_lossless hs.1⟩)
    (TransitionSystem.exists_run (S := (unlimited _ _ _).restrict Narrow)
      TransitionSystem.step_of_guarded
      (x := (initNewShard smallConfig 0).toOption.filter fun s ↦ s.entries.maxCapacity = 0)
      (p := fun _ ↦ true) (fun s hs ↦ unlimited_of_filter hs) (by decide +kernel))

/-- **What `set` leaves in a shard without a limit**, however long the entry is: the block is
written in full, and what is stored for its position is the position modulo `2 ^ 32`. -/
theorem Rep.set_unlimited {s : CacheShard T M} {m : Table} (hr : s.Rep m)
    (hmax : s.entries.maxCapacity = 0) (key : Key) (h : UInt64) (entry : Bytes)
    (duration : Int64) (now : ℕ) :
    ∃ s' i data, data = Entry.data h ⟨key, entry, expiryTimestamp now duration⟩ ∧
      s.set key h entry duration now = .ok (s', .ok (expiryTimestamp now duration)) ∧
      (i, data) ∈ s'.entries.live ∧
      Bytes.sub s'.entries.array i (data.length + 4) = BytesQueue.frame data ∧
      s'.hashmap.lookup h = some (UInt32.ofNat i) := by
  obtain ⟨s', r, hset, ho⟩ := hr.set_cases key entry duration now (h := h)
  obtain ⟨hunlocked, -⟩ := ho.unlocked hr hmax.le
  cases ho with
  | full => cases hunlocked
  | @stored q₁ q₂ i buffer hv ho =>
    refine ⟨_, i, _, rfl, hset, ?_, ho.bytes (hv.stores hr).inv, Finmap.lookup_insert _⟩
    rw [ho.live_of_ok]
    exact List.mem_cons_self

/-- **A value of `2 ^ 32` bytes** is stored with a header that says nineteen. -/
theorem narrowing_wraps :
    ∃ s s' : ListShard, (unlimited _ _ lengthHasher).Run [] s ∧
      invoke lengthHasher s (.set [1] (List.replicate (2 ^ 32) 0) 0 0) = some s' ∧
      (∃ x ∈ s'.entries.live, x.2.length = 2 ^ 32 + 19 ∧
        Bytes.ofLE (Bytes.sub s'.entries.array x.1 headerEntrySize) = 19) ∧
      ¬ s'.Unwrapped := by
  obtain ⟨z, hz⟩ : ∃ z : Bytes, z = List.replicate (2 ^ 32) 0 := ⟨_, rfl⟩
  have hlen : z.length = 2 ^ 32 := by rw [hz, List.length_replicate]
  rw [← hz]
  obtain ⟨s, hr, -⟩ := TransitionSystem.exists_run
    (S := (unlimited _ _ lengthHasher).restrict Narrow) TransitionSystem.step_of_guarded (l := [])
    (x := (initNewShard smallConfig 0).toOption.filter fun s : ListShard ↦
      s.entries.maxCapacity = 0)
    (p := fun _ ↦ true) (fun s hs ↦ unlimited_of_filter hs) (by decide +kernel)
  obtain ⟨m, hrep, hmax⟩ := narrow_rep hr
  obtain ⟨s', i, data, hdata, hset, hlive, hbytes, -⟩ :=
    hrep.set_unlimited hmax [1] (lengthHasher [1]) z 0 0
  have hlength : data.length = 2 ^ 32 + 19 := by
    simp only [hdata, Entry.length_data, hlen, List.length_cons, List.length_nil]
    omega
  have hheader : Bytes.ofLE (Bytes.sub s'.entries.array i headerEntrySize) = 19 := by
    rw [headerEntrySize, BytesQueue.header_of_frame hbytes, Bytes.ofLE_toLE, hlength]
    rfl
  refine ⟨s, s', hr.of_restrict, ?_, ⟨_, hlive, hlength, hheader⟩, fun hunwrapped ↦ ?_⟩
  · rw [invoke, hset]
    rfl
  · have hexact := hunwrapped.header _ hlive
    rw [hheader, hlength] at hexact
    exact absurd hexact (by decide)

end CacheShard
end ClusteredBigCache
