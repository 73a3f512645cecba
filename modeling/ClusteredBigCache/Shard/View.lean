import ClusteredBigCache.Shard.Sequential

/-!
# Reading a value after the lock was released

`get` finds the entry of a key under the lock, and copies its value after it has released the lock,
through a slice of the array of the queue.  Nothing keeps the block of the entry alive in between:
when the entry is deleted or overwritten its block goes to the free list, and a `set` that is given
the block writes into the bytes that the slice shows.  `torn_get` is a run in which `get` returns
the value of another key.

* `Seen q v e`: the slice `v` still shows the entry `e`, up to the hash, which a deletion erases,
  and no live block of the queue overlaps it unless it is the block of the entry;
* `Seen.freed` and `Seen.pushed`: freeing any block keeps this, and so does pushing an entry, unless
  the block it is given overlaps the slice;
* `get_atomic`: when no `set` in between is given such a block, `get` returns the value that was
  stored under the key when it held the lock.
-/

set_option autoImplicit false

namespace ClusteredBigCache

/-! ## A slice that outlives its block

A reader copies from a slice without the lock.  The slice shows the entry as long as nothing was
written over it, also when the block was freed or the array has been replaced. -/

namespace BytesQueue

variable {T : Type}

/-- A slice of the current array. -/
theorem load_current {q : BytesQueue T} {v : Slice} (hbase : v.base = q.retired.length) :
    (q.load v).bytes = Bytes.sub q.array v.off v.len := by
  simp [load, backing, hbase]

/-- A slice of an array that was replaced. -/
theorem load_retired {q q' : BytesQueue T} {v : Slice} (hbase : v.base < q.retired.length)
    (hretired : q'.retired = q.retired) : (q'.load v).bytes = (q.load v).bytes := by
  simp only [load, backing, hretired, List.getElem?_append_left hbase]

/-- A slice shows the same after the array was replaced. -/
theorem load_grown {q q' : BytesQueue T} {v : Slice} (hbase : v.base ≤ q.retired.length)
    (hretired : q'.retired = q.retired ++ [q.array]) : (q'.load v).bytes = (q.load v).bytes := by
  have hlt : v.base < (q.retired ++ [q.array]).length := by
    rw [List.length_append, List.length_singleton]
    omega
  simp only [load, backing, hretired, List.getElem?_append_left hlt]

/-- The slice shows the entry, up to its hash, and while its array is the current one every live
block lies elsewhere, unless it is the block of the entry itself. -/
structure Seen (q : BytesQueue T) (v : Slice) (e : Entry) : Prop where
  shown : ∃ h, (q.load v).bytes = e.data h
  base_le : v.base ≤ q.retired.length
  below : v.base = q.retired.length → v.off + v.len ≤ q.tail
  apart : v.base = q.retired.length → ∀ x ∈ q.live,
    x.1 + 4 = v.off ∧ x.2.length = v.len ∨
      x.1 + (x.2.length + 4) ≤ v.off ∨ v.off + v.len ≤ x.1

variable [OrderedMap T ℤ Ptr] {q q' : BytesQueue T} {v : Slice} {e : Entry}

theorem Inv.seen (hq : q.Inv) {i : ℕ} {h : UInt64} (hlive : (i, e.data h) ∈ q.live) :
    q.Seen (q.view (i, e.data h)) e where
  shown := ⟨h, (q.load_view _).trans (BytesQueue.data_of_frame (hq.stored _ hlive).bytes)⟩
  base_le := le_rfl
  below _ := by
    have htail := (hq.stored _ hlive).le_tail
    simp only [view] at htail ⊢
    omega
  apart _ x hx := by
    by_cases hne : x = (i, e.data h)
    · exact .inl ⟨by rw [hne]; rfl, by rw [hne]; rfl⟩
    · refine .inr ?_
      have hapart := hq.apart_of_ne hx hlive hne
      simp only [Apart] at hapart
      simp only [view]
      omega

/-- Freeing a block: of the bytes that the slice shows, only the hash can change. -/
theorem Seen.freed (hs : q.Seen v e) (hq : q.Inv) {x : ℕ × Bytes} (hx : x ∈ q.live)
    (hlen : 16 ≤ x.2.length) : (q.freed x).Seen v e where
  shown := by
    obtain ⟨h, hshown⟩ := hs.shown
    rcases hs.base_le.lt_or_eq with hlt | hbase
    · have hretired : (q.freed x).retired = q.retired := rfl
      exact ⟨h, (load_retired hlt hretired).trans hshown⟩
    · rw [load_current hbase] at hshown
      have hfit := hq.live_le_length hx
      have hzero : (Bytes.toLE 8 0).length = 8 := rfl
      have hload : ((q.freed x).load v).bytes =
          Bytes.sub (Bytes.blit q.array (x.1 + 12) (Bytes.toLE 8 0)) v.off v.len :=
        load_current (q := q.freed x) hbase
      rcases hs.apart hbase x hx with ⟨hoff, hvlen⟩ | hapart
      · -- the block of the entry: its hash is erased
        refine ⟨0, ?_⟩
        rw [hload, show x.1 + 12 = v.off + 8 by omega,
          Bytes.sub_blit_inside (by omega) (by omega), hshown, Entry.blit_data]
      · refine ⟨h, ?_⟩
        rw [hload, Bytes.sub_blit_of_disjoint (by omega), hshown]
  base_le := hs.base_le
  below := hs.below
  apart hbase y hy := hs.apart hbase y (mem_freed_live.mp hy).1

/-- Pushing an entry, when the block it is given does not overlap what the slice shows. -/
theorem Seen.pushed (hs : q.Seen v e) {data : Bytes} {r : Except QueueError ℕ}
    (ho : PushOutcome q data q' r)
    (hspared : ∀ i, r = .ok i → v.base = q'.retired.length →
      i + (data.length + 4) ≤ v.off ∨ v.off + v.len ≤ i) : q'.Seen v e := by
  -- writing an entry elsewhere into the current array
  have hwritten : ∀ (q' : BytesQueue T) (i : ℕ), q'.retired = q.retired →
      q'.array = Bytes.blit q.array i (frame data) → q'.live = (i, data) :: q.live →
      q.tail ≤ q'.tail →
      (v.base = q.retired.length → i + (data.length + 4) ≤ v.off ∨ v.off + v.len ≤ i) →
      q'.Seen v e := by
    intro q' i hretired harray hlive htail hspared
    refine ⟨?_, hretired ▸ hs.base_le, fun hbase ↦ ?_, fun hbase x hx ↦ ?_⟩
    · obtain ⟨h, hshown⟩ := hs.shown
      refine ⟨h, ?_⟩
      rcases hs.base_le.lt_or_eq with hlt | hbase
      · rw [load_retired hlt hretired, hshown]
      · rw [load_current hbase] at hshown
        rw [load_current (hretired ▸ hbase), harray, Bytes.sub_blit_of_disjoint, hshown]
        rw [length_frame]
        exact (hspared hbase).symm
    · exact (hs.below (hretired ▸ hbase)).trans htail
    · rw [hretired] at hbase
      rw [hlive] at hx
      rcases List.mem_cons.mp hx with rfl | hx
      · exact .inr (hspared hbase)
      · exact hs.apart hbase x hx
  cases ho with
  | reuse hf hi ht => exact hwritten _ _ rfl rfl rfl le_rfl (hspared _ rfl)
  | behind hf hfit =>
    exact hwritten _ _ rfl rfl rfl (Nat.le_add_right _ _) fun hbase ↦ .inr (hs.below hbase)
  | grow hf hfit hfull =>
    have hlt : v.base < ((q.grown (data.length + 4)).pushed data).retired.length := by
      have hbase := hs.base_le
      simp only [BytesQueue.pushed, written, grown, List.length_append, List.length_singleton]
      omega
    obtain ⟨h, hshown⟩ := hs.shown
    exact ⟨⟨h, (load_grown hs.base_le rfl).trans hshown⟩, hlt.le,
      fun hbase ↦ absurd hbase hlt.ne, fun hbase ↦ absurd hbase hlt.ne⟩
  | full => exact hs

end BytesQueue

/-! ## What comes between the two halves of a read -/

namespace CacheShard

variable {T M : Type} [OrderedMap T ℤ Ptr]

/-- The slice still shows the entry, and the shard represents a table unless a `set` has left it
locked. -/
structure Watched (s : CacheShard T M) (v : Slice) (e : Entry) : Prop where
  seen : s.entries.Seen v e
  rep : s.locked = false → ∃ m, s.Rep m

section

variable {s s' : CacheShard T M} {m : Table} {v : Slice} {e : Entry}

theorem Block.seen_freed {h : UInt64} {f : Entry} {i : UInt32} (hb : s.Block h f i) (hr : s.Rep m)
    (hs : s.entries.Seen v e) : (s.entries.freed (i.toNat, f.data h)).Seen v e :=
  hs.freed hr.stores.inv hb.live (by simp only [Entry.length_data]; omega)

theorem Vacated.seen {h : UInt64} {q : BytesQueue T} (hv : Vacated s m h q) (hr : s.Rep m)
    (hs : s.entries.Seen v e) : q.Seen v e := by
  cases hv with
  | absent => exact hs
  | freed hm hb => exact hb.seen_freed hr hs

theorem Watched.evictDel {hasher : Hasher} {t : UInt64} {keys : List Key} (hw : s.Watched v e)
    (hr : s.Rep m) (hevict : s.evictDel hasher t keys = .ok s') : s'.Watched v e := by
  have hstep : ∀ (s : CacheShard T M) m k s', s.Rep m → s.entries.Seen v e →
      EvictOutcome s m t (hasher k) s' → s'.entries.Seen v e := by
    intro s m k s' hr hseen ho
    cases ho with
    | kept => exact hseen
    | removed hm ht hb => exact hb.seen_freed hr hseen
  obtain ⟨hrep, hseen⟩ :=
    hr.evictDel_induction (P := fun s _ ↦ s.entries.Seen v e) hstep hw.seen hevict
  exact ⟨hseen, fun _ ↦ ⟨_, hrep⟩⟩

end

variable [OrderedMap M UInt64 (Finset Key)]

/-- Make a call, provided that it returns. -/
def complete (hasher : Hasher) (s : CacheShard T M) : Op → Option (CacheShard T M)
  | .set key entry duration now =>
    (s.set key (hasher key) entry duration now).toOption.map Prod.fst
  | .get key => (s.get key (hasher key)).toOption.map Prod.fst
  | .del key now => (s.del key (hasher key) now).toOption.map Prod.fst
  | .evictDel timeStamp set => (evictDel hasher s timeStamp set).toOption

/-- The calls that are made from a state on. -/
def between (hasher : Hasher) (s₀ : CacheShard T M) : TransitionSystem (CacheShard T M) Op :=
  .ofStep (fun s ↦ s = s₀) (complete hasher)

/-- A `set` is given a position that fits thirty-two bits, and a block that does not overlap what
the slice shows, unless it is a block of another array. -/
def Spares (hasher : Hasher) (v : Slice) (s : CacheShard T M) : Op → Prop
  | .set key entry duration now =>
    s.entries.tail + (22 + key.length + entry.length) ≤ 2 ^ 32 ∧
    ∀ p ∈ (s.set key (hasher key) entry duration now).toOption,
      p.1.locked = false → v.base = p.1.entries.retired.length →
        (p.1.index (hasher key)).toNat + (22 + key.length + entry.length) ≤ v.off ∨
          v.off + v.len ≤ (p.1.index (hasher key)).toNat
  | .get _ | .del _ _ | .evictDel _ _ => True

instance (hasher : Hasher) (v : Slice) (s : CacheShard T M) (op : Op) :
    Decidable (Spares hasher v s op) :=
  match op with
  | .set key entry duration now =>
    inferInstanceAs (Decidable (s.entries.tail + (22 + key.length + entry.length) ≤ 2 ^ 32 ∧
      ∀ p ∈ (s.set key (hasher key) entry duration now).toOption,
        p.1.locked = false → v.base = p.1.entries.retired.length →
          (p.1.index (hasher key)).toNat + (22 + key.length + entry.length) ≤ v.off ∨
            v.off + v.len ≤ (p.1.index (hasher key)).toNat))
  | .get _ | .del _ _ | .evictDel _ _ => inferInstanceAs (Decidable True)

section

variable {hasher : Hasher} {s s' : CacheShard T M} {m : Table} {v : Slice} {e : Entry}

theorem Watched.set {key : Key} {entry : Bytes} {duration : Int64} {now : ℕ}
    {r : Except CacheError UInt64} (hw : s.Watched v e) (hr : s.Rep m)
    (hspares : Spares hasher v s (.set key entry duration now))
    (hset : s.set key (hasher key) entry duration now = .ok (s', r)) : s'.Watched v e := by
  obtain ⟨hfit, hspared⟩ := hspares
  have hspared := hspared _ (Go.toOption_eq_some.mpr hset)
  obtain ⟨s₁, r₁, hset₁, ho⟩ := hr.set_cases key entry duration now (h := hasher key)
  obtain ⟨rfl, rfl⟩ := Prod.mk.inj (Except.ok.inj (hset₁.symm.trans hset))
  have hrep : s₁.locked = false → ∃ m, s₁.Rep m := fun hl ↦
    ⟨_, ho.rep hr hl (.inr (by simp only [Entry.length_data]; omega))⟩
  refine ⟨?_, hrep⟩
  cases ho with
  | full hv ho => exact (hv.seen hr hw.seen).pushed ho (by simp)
  | @stored q₁ q₂ i buffer hv ho =>
    obtain ⟨-, hle⟩ := ho.end_le (hv.stores hr).inv
    rw [hv.tail_eq] at hle
    have hindex : ((s.hashmap.insert (hasher key) (UInt32.ofNat i)).lookup (hasher key)).getD 0 =
        UInt32.ofNat i := by rw [Finmap.lookup_insert]; rfl
    have hi : (UInt32.ofNat i).toNat = i := UInt32.toNat_ofNat_of_lt' (by
      have hsize : UInt32.size = 2 ^ 32 := rfl
      omega)
    refine (hv.seen hr hw.seen).pushed ho fun j hj hbase ↦ ?_
    obtain rfl : i = j := Except.ok.inj hj
    have hspared := hspared hr.unlocked hbase
    simp only [index, hindex, hi] at hspared
    simp only [Entry.length_data]
    omega

theorem Watched.del {key : Key} {now : ℕ} {h : UInt64} {r : Except CacheError Unit}
    (hw : s.Watched v e) (hr : s.Rep m) (hdel : s.del key h now = .ok (s', r)) :
    s'.Watched v e := by
  refine ⟨?_, fun _ ↦ ⟨_, (hr.del hdel).1⟩⟩
  cases hm : m h with
  | none =>
    rw [hr.del_of_none hm] at hdel
    obtain ⟨rfl, -⟩ := Prod.mk.inj (Except.ok.inj hdel)
    exact hw.seen
  | some f =>
    obtain ⟨i, hb⟩ := hr.block hm
    rw [(hb.readable hr).del] at hdel
    cases hcb : f.callback s.onRemove h with
    | error err => rw [hcb] at hdel; cases hdel
    | ok cb =>
      rw [hcb] at hdel
      obtain ⟨rfl, -⟩ := Prod.mk.inj (Except.ok.inj hdel)
      exact hb.seen_freed hr hw.seen

/-- **Every call in between leaves what the slice shows**, provided that it spares the slice. -/
theorem Watched.complete {op : Op} (hw : s.Watched v e) (hspares : Spares hasher v s op)
    (hstep : complete hasher s op = some s') : s'.Watched v e := by
  unfold CacheShard.complete at hstep
  cases op with
  | set key entry duration now =>
    obtain ⟨p, hset, rfl⟩ := Option.map_eq_some_iff.mp hstep
    have hset := Go.toOption_eq_some.mp hset
    obtain ⟨_, hlocked, -⟩ := Go.bind_eq_ok.mp hset
    obtain ⟨m, hr⟩ := hw.rep (unlocked_of_lock hlocked)
    exact hw.set hr hspares hset
  | get key =>
    obtain ⟨p, hget, rfl⟩ := Option.map_eq_some_iff.mp hstep
    have hget := Go.toOption_eq_some.mp hget
    obtain ⟨_, hlocked, -⟩ := Go.bind_eq_ok.mp hget
    obtain ⟨m, hr⟩ := hw.rep (unlocked_of_lock hlocked)
    obtain ⟨stats, hstats⟩ := hr.get key (h := hasher key)
    rw [hstats] at hget
    cases hres : m.get key (hasher key) with
    | error f => rw [hres] at hget; cases hget
    | ok r =>
      rw [hres] at hget
      obtain rfl := Except.ok.inj hget
      exact ⟨hw.seen, fun _ ↦ ⟨m, hr.congr rfl rfl rfl⟩⟩
  | del key now =>
    obtain ⟨p, hdel, rfl⟩ := Option.map_eq_some_iff.mp hstep
    have hdel := Go.toOption_eq_some.mp hdel
    obtain ⟨_, hlocked, -⟩ := Go.bind_eq_ok.mp hdel
    obtain ⟨m, hr⟩ := hw.rep (unlocked_of_lock hlocked)
    exact hw.del hr hdel
  | evictDel t keys =>
    have hevict := Go.toOption_eq_some.mp hstep
    obtain ⟨m, hr⟩ := hw.rep (unlocked_of_lock hevict)
    exact hw.evictDel hr hevict

end

/-- **What `get` returns is what was stored when it held the lock**, as long as no call in between
is given a block that overlaps the slice. -/
theorem get_atomic {hasher : Hasher} {ls₀ ls : List Op} {s s₀ s₁ : CacheShard T M} {key : Key}
    {v : Slice} (hreach : (sequential T M hasher).Run ls₀ s)
    (hget : s.getView key (hasher key) = .ok (s₀, .ok v))
    (hr : ((between hasher s₀).restrict (Spares hasher v)).Run ls s₁) :
    ∃ value timestamp i, s.Block (hasher key) ⟨key, value, timestamp⟩ i ∧
      readEntry (s₁.entries.load v) = .ok value := by
  obtain ⟨m, hrep⟩ := sequential_rep hreach
  obtain ⟨value, timestamp, i, hb, hkey, rfl, rfl⟩ := hrep.of_getView hget
  have hwatched : s₁.Watched
      (s.entries.view (i.toNat, Entry.data (hasher key) ⟨key, value, timestamp⟩))
      ⟨key, value, timestamp⟩ := by
    refine hr.invariant ?_ ?_
    · rintro s rfl
      exact ⟨hrep.stores.inv.seen hb.live, fun _ ↦ ⟨m, hrep.congr rfl rfl rfl⟩⟩
    · rintro s op s' hw ⟨hstep, hspares⟩
      exact hw.complete hspares hstep
  obtain ⟨h, hshown⟩ := hwatched.seen.shown
  exact ⟨value, timestamp, i, hb, readEntry_of_le hkey hshown⟩

/-- An entry is read while it is overwritten by a longer one, and others come and go. -/
theorem get_atomic_overwritten :
    ∃ (s s₀ s₁ : ListShard) (v : Slice),
      (sequential _ _ lengthHasher).Run [.set [1] [7, 7] 0 0] s ∧
      s.getView [1] (lengthHasher [1]) = .ok (s₀, .ok v) ∧
      ((between lengthHasher s₀).restrict (Spares lengthHasher v)).Run
        [.set [1] [5, 5, 5, 5] 0 0, .set [2, 2] [8, 8, 8] 1000000000 0,
          .evictDel 1 [[2, 2]], .del [1] 0] s₁ ∧
      ∃ value timestamp i, s.Block (lengthHasher [1]) ⟨[1], value, timestamp⟩ i ∧
        readEntry (s₁.entries.load v) = .ok value := by
  obtain ⟨s, hr, hs⟩ := TransitionSystem.exists_run (S := sequential _ _ lengthHasher)
    (fun _ _ _ ↦ id) (x := (initNewShard smallConfig 0 : Go ListShard).toOption.filter fun s ↦
      s.entries.array.length < 2 ^ 32) (fun s hs ↦ initial_of_filter hs)
    (l := [.set [1] [7, 7] 0 0])
    (p := fun s ↦ ∃ p ∈ (s.getView [1] (lengthHasher [1])).toOption, ∃ v ∈ p.2.toOption,
      ([.set [1] [5, 5, 5, 5] 0 0, .set [2, 2] [8, 8, 8] 1000000000 0, .evictDel 1 [[2, 2]],
        .del [1] 0].foldlM (TransitionSystem.guarded (complete lengthHasher)
          (Spares lengthHasher v)) p.1).isSome) (by decide +kernel)
  obtain ⟨p, hp, v, hv, hs₁⟩ := of_decide_eq_true hs
  obtain ⟨s₁, hs₁⟩ := Option.isSome_iff_exists.mp hs₁
  have hget : s.getView [1] (lengthHasher [1]) = .ok (p.1, .ok v) := by
    rw [Go.toOption_eq_some.mp hp, ← Go.toOption_eq_some.mp hv]
  have hrun := (TransitionSystem.Run.start (S := (between lengthHasher p.1).restrict
    (Spares lengthHasher v)) rfl).append_foldlM
    (fun _ _ _ ↦ TransitionSystem.step_of_guarded _ _ _) hs₁
  exact ⟨s, p.1, s₁, v, hr, hget, hrun, get_atomic hr hget hrun⟩

/-- **A torn read.**  Between the two halves of `get`, the key is deleted and another one is set,
which is given the block that `get` is about to read: `get` returns the value of the other key. -/
theorem torn_get :
    ∃ (s s₀ s₁ : ListShard) (v : Slice),
      (sequential _ _ lengthHasher).Run [.set [1] [7, 7] 0 0] s ∧
      s.getView [1] (lengthHasher [1]) = .ok (s₀, .ok v) ∧
      s.Block (lengthHasher [1]) ⟨[1], [7, 7], 0⟩ 1 ∧
      (between lengthHasher s₀).Run [.del [1] 0, .set [2, 2] [8] 0 0] s₁ ∧
      readEntry (s₁.entries.load v) = .ok [8] := by
  obtain ⟨s, hr, hs⟩ := TransitionSystem.exists_run (S := sequential _ _ lengthHasher)
    (fun _ _ _ ↦ id) (x := (initNewShard smallConfig 0 : Go ListShard).toOption.filter fun s ↦
      s.entries.array.length < 2 ^ 32) (fun s hs ↦ initial_of_filter hs)
    (l := [.set [1] [7, 7] 0 0])
    (p := fun s ↦ (s.getView [1] (lengthHasher [1])).toOption.any fun p ↦ p.2.toOption.any fun v ↦
      ([.del [1] 0, .set [2, 2] [8] 0 0].foldlM (complete lengthHasher) p.1).any fun s₁ ↦
        s.Block (lengthHasher [1]) ⟨[1], [7, 7], 0⟩ 1 ∧
          readEntry (s₁.entries.load v) = .ok [8]) (by decide +kernel)
  obtain ⟨p, hp, hs⟩ := (Option.any_eq_true _ _).mp hs
  obtain ⟨v, hv, hs⟩ := (Option.any_eq_true _ _).mp hs
  obtain ⟨s₁, hs₁, hs⟩ := (Option.any_eq_true _ _).mp hs
  obtain ⟨hb, hread⟩ := of_decide_eq_true hs
  have hget : s.getView [1] (lengthHasher [1]) = .ok (p.1, .ok v) := by
    rw [Go.toOption_eq_some.mp hp, ← Go.toOption_eq_some.mp hv]
  have hrun := (TransitionSystem.Run.start (S := between lengthHasher p.1) rfl).append_foldlM
    (fun _ _ _ ↦ id) hs₁
  exact ⟨s, p.1, s₁, v, hr, hget, hb, hrun, hread⟩

end CacheShard
end ClusteredBigCache
