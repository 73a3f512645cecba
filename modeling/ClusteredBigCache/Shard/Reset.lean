import ClusteredBigCache.Shard.Sequential

/-!
# Resetting a shard

`reset` is meant to leave a shard as if it had just been made.  Of the queue it resets the indices
only: the free list keeps the blocks it had recorded, although the tail is back at the left margin.
A later `set` may then be given a block that the tail has yet to pass over, and the entry pushed
behind the tail overwrites it; `reset_stale_block` is such a run.

Everything else about `reset` is as it should be.  `reset_like_new`: when the free list records no
block at each `reset`, and as long as positions fit thirty-two bits, the calls after a `reset`
return what they return on a new shard, and no two entries ever overlap.
-/

set_option autoImplicit false

namespace ClusteredBigCache

theorem BytesQueue.Inv.reset {T : Type} [OrderedMap T ℤ Ptr] {q : BytesQueue T} (h : q.Inv)
    (hfree : q.freelist.Empty) : q.reset.Inv where
  length_eq := h.length_eq
  head_eq := rfl
  one_le_tail := le_rfl
  tail_le := le_max_right _ _
  margin_eq := rfl
  count_eq := rfl
  stored e he := absurd he List.not_mem_nil
  apart := List.Pairwise.nil
  free_wf := h.free_wf
  free_lt x hx := by simp [BytesQueue.reset, FreeList.covered_of_empty hfree] at hx
  free_apart e he := absurd he List.not_mem_nil

namespace CacheShard

variable {T M : Type} [OrderedMap T ℤ Ptr] [OrderedMap M UInt64 (Finset Key)]

/-! ## Calls and their results -/

/-- The calls of a user. -/
inductive Call
  | set (key : Key) (entry : Bytes) (duration : Int64) (now : ℕ)
  | get (key : Key)
  | del (key : Key) (now : ℕ)

/-- What a call returns. -/
inductive Result
  | set (r : Except CacheError UInt64)
  | get (r : Except CacheError Bytes)
  | del (r : Except CacheError Unit)
  deriving DecidableEq

/-- Make a call. -/
def call (hasher : Hasher) (s : CacheShard T M) : Call → Go (CacheShard T M × Result)
  | .set key entry duration now => do
    let (s, r) ← s.set key (hasher key) entry duration now
    pure (s, .set r)
  | .get key => do
    let (s, r) ← s.get key (hasher key)
    pure (s, .get r)
  | .del key now => do
    let (s, r) ← s.del key (hasher key) now
    pure (s, .del r)

/-- What a sequence of calls returns, up to the first one that does not return. -/
def observe (hasher : Hasher) (s : CacheShard T M) : List Call → List (Go Result)
  | [] => []
  | c :: calls =>
    match s.call hasher c with
    | .ok (s', r) => .ok r :: observe hasher s' calls
    | .error f => [.error f]

/-- The position of an entry that is set will fit thirty-two bits. -/
def Fits (s : CacheShard T M) : Call → Prop
  | .set key entry _ _ => s.entries.tail + (22 + key.length + entry.length) ≤ 2 ^ 32
  | .get _ => True
  | .del _ _ => True

/-- The positions of all entries that are set will fit thirty-two bits. -/
def FitsAll (hasher : Hasher) (s : CacheShard T M) : List Call → Prop
  | [] => True
  | c :: calls =>
    s.Fits c ∧
      match s.call hasher c with
      | .ok (s', _) => FitsAll hasher s' calls
      | .error _ => True

instance (s : CacheShard T M) (c : Call) : Decidable (s.Fits c) := by
  cases c <;> unfold Fits <;> infer_instance

instance decidableFitsAll (hasher : Hasher) :
    ∀ (s : CacheShard T M) (calls : List Call), Decidable (FitsAll hasher s calls)
  | _, [] => .isTrue trivial
  | s, c :: calls =>
    have : Decidable (match s.call hasher c with
        | .ok (s', _) => FitsAll hasher s' calls
        | .error _ => True) :=
      match s.call hasher c with
      | .ok (s', _) => decidableFitsAll hasher s' calls
      | .error _ => .isTrue trivial
    inferInstanceAs (Decidable (_ ∧ _))

end CacheShard

open CacheShard (Call Result) in
/-- What a call returns on a shard of unlimited size that represents the table, and the table
afterwards. -/
def Table.call (hasher : Hasher) (onRemove : Bool) (m : Table) : Call → Go (Table × Result)
  | .set key entry duration now =>
    let e : Entry := ⟨key, entry, CacheShard.expiryTimestamp now duration⟩
    .ok (Function.update m (hasher key) (some e), .set (.ok e.timestamp))
  | .get key => do
    let r ← m.get key (hasher key)
    pure (m, .get r)
  | .del key _ =>
    match m (hasher key) with
    | none => .ok (m, .del (.error (.notFound key)))
    | some e => do
      let _ ← e.callback onRemove (hasher key)
      pure (Function.update m (hasher key) none, .del (.ok ()))

namespace CacheShard

variable {T M : Type} [OrderedMap T ℤ Ptr] [OrderedMap M UInt64 (Finset Key)]

/-- A shard of unlimited size that represents a table, with or without a callback. -/
structure Behaves (s : CacheShard T M) (m : Table) (onRemove : Bool) : Prop where
  rep : s.Rep m
  unlimited : s.entries.maxCapacity = 0
  onRemove_eq : s.onRemove = onRemove

/-- **What a call returns depends on the table only.** -/
theorem Behaves.call {s : CacheShard T M} {m : Table} {onRemove : Bool}
    (hb : s.Behaves m onRemove) (hasher : Hasher) {c : Call} (hfit : s.Fits c) :
    ∃ s', s.call hasher c = (m.call hasher onRemove c).map (fun p ↦ (s', p.2)) ∧
      ∀ p, m.call hasher onRemove c = .ok p → s'.Behaves p.1 onRemove := by
  have hr := hb.rep
  cases c with
  | set key entry duration now =>
    obtain ⟨s', r, hset, ho⟩ := hr.set_cases key entry duration now (h := hasher key)
    obtain ⟨hunlocked, hmax⟩ := ho.unlocked hr hb.unlimited.le
    have hrep := ho.rep hr hunlocked (.inr (by
      simp only [Fits] at hfit
      simp only [Entry.length_data]
      omega))
    refine ⟨s', ?_, ?_⟩
    · rw [CacheShard.call, hset]
      cases ho with
      | stored => rfl
      | full => cases hunlocked
    · intro p hp
      obtain rfl := Except.ok.inj hp
      refine ⟨hrep, hmax.trans hb.unlimited, ?_⟩
      cases ho <;> exact hb.onRemove_eq
  | get key =>
    obtain ⟨stats, hget⟩ := hr.get key (h := hasher key)
    rw [CacheShard.call, Table.call, hget]
    refine ⟨{ s with stats := stats }, ?_, ?_⟩
    · cases m.get key (hasher key) <;> rfl
    · intro p hp
      obtain ⟨r, -, hp⟩ := Go.bind_eq_ok.mp hp
      obtain rfl := Except.ok.inj hp
      exact ⟨hr.congr rfl rfl rfl, hb.unlimited, hb.onRemove_eq⟩
  | del key now =>
    rw [CacheShard.call, Table.call]
    cases hm : m (hasher key) with
    | none =>
      rw [hr.del_of_none hm]
      refine ⟨_, rfl, ?_⟩
      intro p hp
      obtain rfl := Except.ok.inj hp
      exact ⟨hr.congr rfl rfl rfl, hb.unlimited, hb.onRemove_eq⟩
    | some e =>
      obtain ⟨i, hblock⟩ := hr.block hm
      rw [(hblock.readable hr).del, hb.onRemove_eq]
      dsimp only
      cases e.callback onRemove (hasher key) with
      | error f => exact ⟨s, rfl, by rintro p ⟨⟩⟩
      | ok cb =>
        refine ⟨_, rfl, ?_⟩
        intro p hp
        obtain rfl := Except.ok.inj hp
        exact ⟨hblock.rep_freed hr rfl rfl rfl, hb.unlimited, hb.onRemove_eq⟩

/-- **Two shards that represent the same table cannot be told apart.** -/
theorem Behaves.observe_eq {hasher : Hasher} {onRemove : Bool} (calls : List Call) :
    ∀ {s t : CacheShard T M} {m : Table}, s.Behaves m onRemove → t.Behaves m onRemove →
      FitsAll hasher s calls → FitsAll hasher t calls →
      s.observe hasher calls = t.observe hasher calls := by
  induction calls with
  | nil => intros; rfl
  | cons c calls ih =>
    rintro s t m hs ht ⟨hsc, hscs⟩ ⟨htc, htcs⟩
    obtain ⟨s', hs', hsb⟩ := hs.call hasher hsc
    obtain ⟨t', ht', htb⟩ := ht.call hasher htc
    rw [observe, observe]
    rw [hs'] at hscs ⊢
    rw [ht'] at htcs ⊢
    cases hm : m.call hasher onRemove c with
    | error f => rfl
    | ok p =>
      rw [hm] at hscs htcs
      simp only [Except.map, ih (hsb p hm) (htb p hm) hscs htcs]

/-! ## The lifetime of a shard -/

/-- What happens to a shard: calls, evictions and resets. -/
inductive Event
  | call (c : Call)
  | evict (timeStamp : UInt64) (keys : List Key)
  | reset

/-- One event; there is no next state when it faults. -/
def happen (config : Config) (hasher : Hasher) (s : CacheShard T M) :
    Event → Option (CacheShard T M)
  | .call c => (s.call hasher c).toOption.map Prod.fst
  | .evict timeStamp keys => (s.evictDel hasher timeStamp keys).toOption
  | .reset => (s.reset config).toOption

/-- A shard made for a configuration, and everything that happens to it. -/
def lifetime (T M : Type) [OrderedMap T ℤ Ptr] [OrderedMap M UInt64 (Finset Key)]
    (config : Config) (hasher : Hasher) : TransitionSystem (CacheShard T M) Event :=
  .ofStep (fun s ↦ ∃ now, initNewShard config now = .ok s) (happen config hasher)

/-- A `reset` finds no block in the free list, and positions fit thirty-two bits. -/
def Careful (s : CacheShard T M) : Event → Prop
  | .call c => s.Fits c
  | .evict _ _ => True
  | .reset => s.entries.freelist.Empty

instance (s : CacheShard T M) (event : Event) : Decidable (Careful s event) := by
  cases event <;> unfold Careful <;> infer_instance

theorem Behaves.of_init {config : Config} {now : ℕ} {s : CacheShard T M}
    (hmax : config.hardMaxCacheSize = 0) (hinit : initNewShard config now = .ok s) :
    s.Behaves (fun _ ↦ none) config.onRemove := by
  obtain ⟨hrep, size, maxCapacity, -, -, hmaxCapacity, hentries⟩ := initNewShard_spec hinit
  refine ⟨hrep, ?_, ?_⟩
  · rw [Config.maximumShardSize, hmax] at hmaxCapacity
    obtain rfl := Except.ok.inj hmaxCapacity
    rw [hentries]
    rfl
  · simp only [initNewShard, Go.bind_eq_ok] at hinit
    obtain ⟨_, -, _, -, _, -, _, -, hs⟩ := hinit
    obtain rfl := Except.ok.inj hs
    rfl

/-- A shard can be made at any time, and what it takes to make one is what it takes to `reset`
one. -/
theorem initNewShard_total {config : Config} {now : ℕ} {s : CacheShard T M}
    (hinit : initNewShard config now = .ok s) (now' : ℕ) :
    (∃ s' : CacheShard T M, initNewShard config now' = .ok s') ∧
      ∀ t : CacheShard T M, t.locked = false → ∃ t', t.reset config = .ok t' := by
  simp only [initNewShard, Go.bind_eq_ok] at hinit
  obtain ⟨size, hsize, array, harray, maxCapacity, hmax, buffer, hbuffer, -⟩ := hinit
  constructor
  · simp only [initNewShard, Go.bind_eq_ok]
    exact ⟨_, size, hsize, array, harray, maxCapacity, hmax, buffer, hbuffer, rfl⟩
  · intro t ht
    simp only [CacheShard.reset, CacheShard.lock, ht, Go.bind_eq_ok]
    exact ⟨_, (), rfl, size, hsize, buffer, hbuffer, rfl⟩

/-- With nothing in the free list, `reset` empties the table and breaks nothing. -/
theorem Behaves.reset {config : Config} {s s' : CacheShard T M} {m : Table} {onRemove : Bool}
    (hb : s.Behaves m onRemove) (hfree : s.entries.freelist.Empty)
    (hreset : s.reset config = .ok s') : s'.Behaves (fun _ ↦ none) onRemove := by
  simp only [CacheShard.reset, Go.bind_eq_ok] at hreset
  obtain ⟨-, -, -, -, buffer, -, hs⟩ := hreset
  obtain rfl := Except.ok.inj hs
  exact ⟨rep_empty rfl (hb.rep.stores.inv.reset hfree) rfl hb.rep.unlocked, hb.unlimited,
    hb.onRemove_eq⟩

omit [OrderedMap M UInt64 (Finset Key)] in
theorem Behaves.evictDel {hasher : Hasher} {s s' : CacheShard T M} {m : Table} {onRemove : Bool}
    {timeStamp : UInt64} {keys : List Key} (hb : s.Behaves m onRemove)
    (hok : s.evictDel hasher timeStamp keys = .ok s') : ∃ m', s'.Behaves m' onRemove := by
  obtain ⟨hrep, hmax, hremove⟩ := hb.rep.evictDel_induction
    (P := fun s _ ↦ s.entries.maxCapacity = 0 ∧ s.onRemove = onRemove)
    (by rintro s m v s' - hkept (_ | _) <;> exact hkept) ⟨hb.unlimited, hb.onRemove_eq⟩ hok
  exact ⟨_, hrep, hmax, hremove⟩

/-- What a careful lifetime keeps. -/
theorem lifetime_behaves {config : Config} {hasher : Hasher} {ls : List Event} {s : CacheShard T M}
    (hmax : config.hardMaxCacheSize = 0)
    (hr : ((lifetime T M config hasher).restrict Careful).Run ls s) :
    ∃ m, s.Behaves m config.onRemove := by
  refine hr.invariant ?_ ?_
  · rintro s ⟨now, hinit⟩
    exact ⟨_, .of_init hmax hinit⟩
  · rintro s event s' ⟨m, hb⟩ ⟨hstep, hcareful⟩
    unfold lifetime TransitionSystem.ofStep happen at hstep
    cases event with
    | call c =>
      obtain ⟨p, hp, rfl⟩ := Option.map_eq_some_iff.mp hstep
      obtain ⟨s', hcall, hb'⟩ := hb.call hasher hcareful
      rw [Go.toOption_eq_some, hcall] at hp
      cases hm : m.call hasher config.onRemove c with
      | error f => rw [hm] at hp; cases hp
      | ok q =>
        rw [hm] at hp
        obtain rfl := Except.ok.inj hp
        exact ⟨_, hb' q hm⟩
    | evict timeStamp keys => exact hb.evictDel (Go.toOption_eq_some.mp hstep)
    | reset => exact ⟨_, hb.reset hcareful (Go.toOption_eq_some.mp hstep)⟩

/-- **Resetting a shard gives a new shard**, as far as later calls can tell, in every careful
lifetime and when the free list records no block; and live entries never overlap. -/
theorem reset_like_new {config : Config} {hasher : Hasher} {ls : List Event} {s : CacheShard T M}
    (hmax : config.hardMaxCacheSize = 0)
    (hr : ((lifetime T M config hasher).restrict Careful).Run ls s) :
    s.entries.live.Pairwise BytesQueue.Apart ∧
    (s.entries.freelist.Empty → ∀ now, ∃ s₁ fresh : CacheShard T M,
      s.reset config = .ok s₁ ∧ initNewShard config now = .ok fresh ∧
      ∀ calls, FitsAll hasher s₁ calls → FitsAll hasher fresh calls →
        s₁.observe hasher calls = fresh.observe hasher calls) := by
  obtain ⟨m, hb⟩ := lifetime_behaves hmax hr
  refine ⟨hb.rep.stores.inv.apart, fun hfree now ↦ ?_⟩
  obtain ⟨now₀, s₀, hinit⟩ : ∃ now₀, ∃ s₀ : CacheShard T M, initNewShard config now₀ = .ok s₀ := by
    refine hr.invariant ?_ fun _ _ _ h _ ↦ h
    rintro s ⟨now, hinit⟩
    exact ⟨now, s, hinit⟩
  obtain ⟨⟨fresh, hfresh⟩, htotal⟩ := initNewShard_total hinit now
  obtain ⟨s₁, hs₁⟩ := htotal s hb.rep.unlocked
  exact ⟨s₁, fresh, hs₁, hfresh, fun calls h₁ h ↦
    (hb.reset hfree hs₁).observe_eq calls (.of_init hmax hfresh) h₁ h⟩

/-- A shard whose only deleted block was used again when it is reset. -/
theorem reset_like_new_refilled :
    ∃ s s₁ fresh : ListShard,
      ((lifetime _ _ smallConfig lengthHasher).restrict Careful).Run
        [.call (.set [1] [7] 0 0), .call (.del [1] 0), .call (.set [1] [8] 0 0), .evict 5 [[1]],
          .reset, .call (.set [2, 2] [9] 0 0)] s ∧
      s.reset smallConfig = .ok s₁ ∧ initNewShard smallConfig 0 = .ok fresh ∧
      s₁.observe lengthHasher [.set [1] [7] 0 0, .get [1], .get [2, 2]] =
        fresh.observe lengthHasher [.set [1] [7] 0 0, .get [1], .get [2, 2]] := by
  obtain ⟨s, hr, hs⟩ := TransitionSystem.exists_run
    (S := (lifetime _ _ smallConfig lengthHasher).restrict Careful)
    (fun _ _ _ ↦ TransitionSystem.step_of_guarded _ _ _)
    (x := (initNewShard smallConfig 0 : Go ListShard).toOption)
    (fun s hs ↦ ⟨0, Go.toOption_eq_some.mp hs⟩)
    (p := fun s ↦ s.entries.freelist.Empty ∧ ∀ s₁ ∈ (s.reset smallConfig).toOption,
      FitsAll lengthHasher s₁ [.set [1] [7] 0 0, .get [1], .get [2, 2]])
    (l := [.call (.set [1] [7] 0 0), .call (.del [1] 0), .call (.set [1] [8] 0 0),
      .evict 5 [[1]], .reset, .call (.set [2, 2] [9] 0 0)]) (by decide +kernel)
  obtain ⟨hfree, hfits⟩ := of_decide_eq_true hs
  obtain ⟨s₁, fresh, hs₁, hfresh, heq⟩ := (reset_like_new rfl hr).2 hfree 0
  have hnew : ∀ t ∈ (initNewShard smallConfig 0 : Go ListShard).toOption,
      FitsAll lengthHasher t [.set [1] [7] 0 0, .get [1], .get [2, 2]] := by decide +kernel
  exact ⟨s, s₁, fresh, hr, hs₁, hfresh, heq _ (hfits _ (Go.toOption_eq_some.mpr hs₁))
    (hnew _ (Go.toOption_eq_some.mpr hfresh))⟩

/-- **A block that was free before a reset is given out after it.**  The first `set` after the
reset gets the stale block at position 1, the second is pushed at the tail, which is also at
position 1: the two entries overlap, and the key of the first one is gone. -/
theorem reset_stale_block :
    smallConfig.hardMaxCacheSize = 0 ∧
    (∃ s fresh : ListShard,
      (lifetime _ _ smallConfig lengthHasher).Run
        [.call (.set [1] [7] 0 0), .call (.del [1] 0), .reset] s ∧
      initNewShard smallConfig 0 = .ok fresh ∧
      s.observe lengthHasher [.set [1] [7] 0 0, .set [2, 2] [8] 0 0, .get [1]] =
        [.ok (.set (.ok 0)), .ok (.set (.ok 0)), .ok (.get (.error (.notFound [1])))] ∧
      fresh.observe lengthHasher [.set [1] [7] 0 0, .set [2, 2] [8] 0 0, .get [1]] =
        [.ok (.set (.ok 0)), .ok (.set (.ok 0)), .ok (.get (.ok [7]))]) ∧
    ∃ s : ListShard,
      (lifetime _ _ smallConfig lengthHasher).Run
        [.call (.set [1] [7] 0 0), .call (.del [1] 0), .reset, .call (.set [1] [7] 0 0),
          .call (.set [2, 2] [8] 0 0)] s ∧
      ¬ s.entries.live.Pairwise BytesQueue.Apart := by
  have hinit : ∀ s : ListShard, (initNewShard smallConfig 0).toOption = some s →
      (lifetime _ _ smallConfig lengthHasher).init s :=
    fun s hs ↦ ⟨0, Go.toOption_eq_some.mp hs⟩
  refine ⟨rfl, ?_, ?_⟩
  · obtain ⟨fresh, hfresh, hnew⟩ : ∃ fresh ∈ (initNewShard smallConfig 0 : Go ListShard).toOption,
        fresh.observe lengthHasher [.set [1] [7] 0 0, .set [2, 2] [8] 0 0, .get [1]] =
          [.ok (.set (.ok 0)), .ok (.set (.ok 0)), .ok (.get (.ok [7]))] := by decide +kernel
    refine Exists.imp (fun s hs ↦ ⟨fresh, hs.1, Go.toOption_eq_some.mp hfresh,
      of_decide_eq_true hs.2, hnew⟩) (TransitionSystem.exists_run (fun _ _ _ ↦ id) hinit ?_)
    decide +kernel
  · refine Exists.imp (fun s hs ↦ ⟨hs.1, of_decide_eq_true hs.2⟩)
      (TransitionSystem.exists_run (fun _ _ _ ↦ id) hinit ?_)
    decide +kernel

end CacheShard
end ClusteredBigCache
