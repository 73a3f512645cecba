import ClusteredBigCache.Shard.Registration
import ClusteredBigCache.Ttl.Punctual

/-!
# Entries expire when they should

A `TimedShard` is a shard, the clock, and the eviction goroutine, one section after the other.  The
calls are complete: `set` and `del` are made while the goroutine waits for its timer, and the timer
fires when it is due.  So a section of the goroutine is a step of `Evictor`, about which
`Ttl/Punctual` says that nothing is taken out of the index too early, and a step of `Concurrent`,
about which `Shard/Registration` says that every entry that expires is in the index.

`expiry_exact` puts the two together.  When the goroutine has worked off its fires, so that the
index is empty or its smallest timestamp is in the future, the live entries are those that were live
before and do not expire or expire later.

The timestamp 0 means that an entry does not expire.  It is also what `set` makes of half a second
in the first second of the epoch, and then the key is recorded in the index under 0; the goroutine
evicts whatever entry with the timestamp 0 has the hash of that key (`permanent_entry_evicted`).
`Stamped` excludes such calls.
-/

set_option autoImplicit false

namespace ClusteredBigCache

/-! ## What an eviction leaves -/

namespace CacheShard

variable {T M : Type} {s s' : CacheShard T M} {m : Table} {h : UInt64} {e : Entry}

/-- The entry is live in the shard. -/
def Live (s : CacheShard T M) (h : UInt64) (e : Entry) : Prop := ∃ i, s.Block h e i

instance (s : CacheShard T M) (h : UInt64) (e : Entry) : Decidable (s.Live h e) :=
  match hi : s.hashmap.lookup h with
  | none => isFalse fun ⟨i, hb⟩ ↦ Option.some_ne_none i (hb.lookup.symm.trans hi)
  | some i => decidable_of_iff (s.Block h e i) ⟨fun hb ↦ ⟨i, hb⟩, fun ⟨_, hb⟩ ↦
      Option.some.inj (hb.lookup.symm.trans hi) ▸ hb⟩

theorem live_congr (hmap : s'.hashmap = s.hashmap) (hentries : s'.entries = s.entries) :
    s'.Live h e ↔ s.Live h e :=
  exists_congr fun _ ↦ ⟨fun hb ↦ ⟨hmap ▸ hb.lookup, hentries ▸ hb.live⟩,
    fun hb ↦ ⟨hmap ▸ hb.lookup, hentries ▸ hb.live⟩⟩

variable [OrderedMap T ℤ Ptr]

theorem Rep.live_iff (hr : s.Rep m) : s.Live h e ↔ ∃ e', m h = some e' ∧ e'.data h = e.data h := by
  constructor
  · rintro ⟨i, hb⟩
    exact hr.keeps.live h e i hb
  · rintro ⟨e', he', hdata⟩
    obtain ⟨i, hb⟩ := hr.keeps.present h e' he'
    exact ⟨i, hb.lookup, hdata ▸ hb.live⟩

/-- **What an eviction leaves**: the entries that have another timestamp, or a hash that is not the
hash of one of the keys. -/
theorem Rep.live_evictDel (hr : s.Rep m) {hasher : Hasher} {t : UInt64} {keys : List Key}
    (hok : s.evictDel hasher t keys = .ok s') :
    s'.Live h e ↔ s.Live h e ∧ ¬ ((∃ v ∈ keys, hasher v = h) ∧ e.timestamp = t) := by
  rw [(hr.evictDel hok).1.live_iff, hr.live_iff, Table.foldl_evictKey]
  constructor
  · rintro ⟨e', he', hdata⟩
    split_ifs at he' with hcond
    refine ⟨⟨e', he', hdata⟩, fun hc ↦ hcond ⟨hc.1, ?_⟩⟩
    rw [he', Option.map_some, Entry.timestamp_eq_of_data_eq hdata, hc.2]
  · rintro ⟨⟨e', he', hdata⟩, hkept⟩
    refine ⟨e', ?_, hdata⟩
    rw [he', if_neg]
    rintro ⟨hkey, ht⟩
    exact hkept ⟨hkey, (Entry.timestamp_eq_of_data_eq hdata).symm.trans (Option.some.inj ht)⟩

variable [OrderedMap M UInt64 (Finset Key)]

/-- `del` removes the timestamp of the entry it took out from the index. -/
theorem Rep.del_ttlTable (hr : s.Rep m) {key : Key} {now : ℕ} {r : Except CacheError Unit}
    (hok : s.del key h now = .ok (s', r)) : s'.ttlTable = s.forget m key h now := by
  cases hm : m h with
  | none =>
    rw [hr.del_of_none hm] at hok
    obtain ⟨rfl, -⟩ := Prod.mk.inj (Except.ok.inj hok)
    rw [forget, hm]
    rfl
  | some e =>
    obtain ⟨i, hb⟩ := hr.block hm
    rw [(hb.readable hr).del] at hok
    cases hcb : e.callback s.onRemove h with
    | error f => rw [hcb] at hok; cases hok
    | ok cb =>
      rw [hcb] at hok
      obtain ⟨rfl, -⟩ := Prod.mk.inj (Except.ok.inj hok)
      rw [forget, hm]
      rfl

omit [OrderedMap T ℤ Ptr] in
/-- The index forgets no other key when `set` stores an entry. -/
theorem registered_renew {key k : Key} {t : UInt64} {duration : Int64} {now : ℕ} (hk : k ≠ key)
    (hreg : s.ttlTable.Registered t k) : (s.renew m key h duration now).Registered t k := by
  have hforget : (s.forget m key h now).Registered t k := registered_forget hk hreg
  rw [renew]
  split_ifs
  · exact TtlManager.registered_put.mpr (.inr hforget)
  · exact hforget

omit [OrderedMap T ℤ Ptr] in
/-- An entry that expires is registered when `set` has stored it. -/
theorem registered_renew_self {key : Key} {duration : Int64} {now : ℕ}
    (hne : expiryTimestamp now duration ≠ 0) :
    (s.renew m key h duration now).Registered (expiryTimestamp now duration) key := by
  have hduration : duration ≠ 0 := by
    rintro rfl
    exact hne rfl
  rw [renew, if_pos hduration]
  exact TtlManager.registered_put.mpr (.inl ⟨rfl, rfl⟩)

end CacheShard

/-- A complete call leaves the entries of other keys registered, and registers its own. -/
theorem Concurrent.Inv.call {T M : Type} [OrderedMap T ℤ Ptr] [OrderedMap M UInt64 (Finset Key)]
    {hasher : Hasher} {s : Concurrent T M} {m : Table} (hi : Inv hasher s m) {key : Key}
    {o : Option Entry} {shard : CacheShard T M}
    (hrep : shard.Rep (Function.update m (hasher key) o))
    (hreg : ∀ t k, k ≠ key → s.shard.ttlTable.Registered t k → shard.ttlTable.Registered t k)
    (ho : ∀ e ∈ o, e.key = key ∧
      (e.timestamp ≠ 0 → shard.ttlTable.Registered e.timestamp e.key)) :
    Inv hasher { s with shard := shard } (Function.update m (hasher key) o) where
  keeps := hrep.keeps
  rep _ := hrep
  hashed h e he := by
    by_cases hh : h = hasher key
    · rw [hh, Function.update_self] at he
      rw [hh, (ho e he).1]
    · rw [Function.update_of_ne hh] at he
      exact hi.hashed h e he
  covered h e he hne := by
    by_cases hh : h = hasher key
    · rw [hh, Function.update_self] at he
      exact .inl ((ho e he).2 hne)
    · rw [Function.update_of_ne hh] at he
      refine (hi.covered h e he hne).imp_left (hreg _ _ fun hkey ↦ hh ?_)
      rw [← hi.hashed h e he, hkey]

/-! ## A shard, the clock and the goroutine -/

/-- What the goroutine has taken out of the index. -/
def Phase.taken : Phase → Option (UInt64 × Finset Key)
  | .evicting timeStamp set => some (timeStamp, set)
  | .waiting | .received | .looping => none

theorem Phase.taken_eq_some {p : Phase} {t : UInt64} {set : Finset Key} :
    p.taken = some (t, set) ↔ p = .evicting t set := by
  cases p <;> simp [taken]

/-- A shard, the clock, and where the eviction goroutine is. -/
structure TimedShard (T M : Type) where
  now : ℕ
  shard : CacheShard T M
  phase : Phase

namespace TimedShard

/-- A fire of the timer, and the sections of the goroutine. -/
inductive Section
  | fire
  | receive
  | take
  /-- The keys are evicted in the order in which the set lists them. -/
  | evictDel (keys : List Key)
  | next

/-- What can happen next: the clock goes on, a complete call, or a section of the goroutine. -/
inductive Step
  | tick (now : ℕ)
  | set (key : Key) (entry : Bytes) (duration : Int64)
  | del (key : Key)
  | eviction (a : Section)

variable {T M : Type}

/-- The goroutine and its index. -/
def evictor (s : TimedShard T M) : Evictor M := ⟨s.now, s.shard.ttlTable, s.phase⟩

/-- The calls that are under way: that of the goroutine at most. -/
def calls (s : TimedShard T M) : Concurrent T M := ⟨s.shard, [], [], s.phase.taken⟩

/-- The shard after a step of the goroutine on its index. -/
def resume (s : TimedShard T M) (e : Evictor M) : TimedShard T M :=
  { s with shard.ttlTable := e.ttl, phase := e.phase }

variable [OrderedMap T ℤ Ptr] [OrderedMap M UInt64 (Finset Key)]

/-- One section, where it can be taken; the timer fires when it is due. -/
def evict (hasher : Hasher) (s : TimedShard T M) : Section → Option (TimedShard T M)
  | .fire =>
    if s.shard.ttlTable.timer.due ≤ s.now then (s.evictor.step .fire).map s.resume else none
  | .receive => (s.evictor.step .receive).map s.resume
  | .take => (s.evictor.step .take).map s.resume
  | .evictDel keys =>
    match s.phase with
    | .evicting timeStamp set =>
      if keys.toFinset = set then
        (s.shard.evictDel hasher timeStamp keys).toOption.map fun shard ↦
          { s with shard := shard, phase := .looping }
      else none
    | _ => none
  | .next => (s.evictor.step .next).map s.resume

/-- One step, where it can be taken: the clock does not go back, durations are not negative, and
calls are made while the goroutine waits. -/
def step (hasher : Hasher) (s : TimedShard T M) : Step → Option (TimedShard T M)
  | .tick now => if s.now ≤ now then some { s with now := now } else none
  | .set key entry duration =>
    if s.phase = .waiting ∧ 0 ≤ duration then
      (s.shard.perform hasher (.set key entry duration s.now)).map fun shard ↦
        { s with shard := shard }
    else none
  | .del key =>
    if s.phase = .waiting then
      (s.shard.perform hasher (.del key s.now)).map fun shard ↦ { s with shard := shard }
    else none
  | .eviction a => s.evict hasher a

/-- A new shard, under complete calls one after the other. -/
def system (T M : Type) [OrderedMap T ℤ Ptr] [OrderedMap M UInt64 (Finset Key)] (hasher : Hasher) :
    TransitionSystem (TimedShard T M) Step :=
  .ofStep (fun s ↦ (∃ config, CacheShard.initNewShard config s.now = .ok s.shard) ∧
    s.shard.entries.array.length < 2 ^ 32 ∧ s.phase = .waiting) (step hasher)

/-- The goroutine on its own, from a state on. -/
def evictions (hasher : Hasher) (s : TimedShard T M) :
    TransitionSystem (TimedShard T M) Section :=
  .ofStep (· = s) (evict hasher)

/-- A duration of less than a second is not given in the first second of the epoch. -/
def Stamped (s : TimedShard T M) : Step → Prop
  | .set _ _ duration => duration = 0 ∨ 10 ^ 9 ≤ s.now ∨ 1000000000 ≤ duration
  | .tick _ | .del _ | .eviction _ => True

instance (s : TimedShard T M) (a : Step) : Decidable (s.Stamped a) :=
  match a with
  | .set _ _ duration =>
    inferInstanceAs (Decidable (duration = 0 ∨ 10 ^ 9 ≤ s.now ∨ 1000000000 ≤ duration))
  | .tick _ | .del _ | .eviction _ => inferInstanceAs (Decidable True)

/-! ## What the steps do -/

/-- The section as a step of the goroutine on its index. -/
def Section.toStep : Section → Evictor.Step
  | .fire => .fire
  | .receive => .receive
  | .take => .take
  | .evictDel _ => .evictDel
  | .next => .next

/-- Everything a section can do: it changes the index, in time, or it evicts entries. -/
inductive Evicted (hasher : Hasher) (s : TimedShard T M) : Section → TimedShard T M → Prop
  | index {a : Section} {ttl : TtlManager M} {phase : Phase} (ha : ∀ keys, a ≠ .evictDel keys)
      (ho : Evictor.Outcome s.evictor a.toStep ⟨s.now, ttl, phase⟩)
      (htimely : s.evictor.Timely a.toStep) :
      Evicted hasher s a { s with shard.ttlTable := ttl, phase := phase }
  | entries {t : UInt64} {keys : List Key} {shard : CacheShard T M}
      (hphase : s.phase = .evicting t keys.toFinset)
      (hevict : s.shard.evictDel hasher t keys = .ok shard) :
      Evicted hasher s (.evictDel keys) { s with shard := shard, phase := .looping }

section

variable {hasher : Hasher} {s s' : TimedShard T M}

omit [OrderedMap T ℤ Ptr] in
theorem outcome_of_resume {a : Evictor.Step} (ha : ∀ now, a ≠ .tick now)
    (h : (s.evictor.step a).map s.resume = some s') :
    ∃ ttl phase, Evictor.Outcome s.evictor a ⟨s.now, ttl, phase⟩ ∧
      s' = { s with shard.ttlTable := ttl, phase := phase } := by
  obtain ⟨e, he, rfl⟩ := Option.map_eq_some_iff.mp h
  have ho := Evictor.step_outcome he
  have hnow : e.now = s.now := by
    cases ho with
    | tick now => exact absurd rfl (ha now)
    | _ => rfl
  obtain ⟨now, ttl, phase⟩ := e
  obtain rfl : now = s.now := hnow
  exact ⟨ttl, phase, ho, rfl⟩

/-- **A section does one of these.** -/
theorem evict_outcome {a : Section} (h : s.evict hasher a = some s') : Evicted hasher s a s' := by
  unfold evict at h
  cases a with
  | fire =>
    obtain ⟨hdue, h⟩ := Option.ite_none_right_eq_some.mp h
    obtain ⟨ttl, phase, ho, rfl⟩ := outcome_of_resume (by simp) h
    exact .index (by simp) ho hdue
  | receive | take | next =>
    obtain ⟨ttl, phase, ho, rfl⟩ := outcome_of_resume (by simp) h
    exact .index (by simp) ho trivial
  | evictDel keys =>
    cases hphase : s.phase with
    | evicting t set =>
      simp only [hphase] at h
      obtain ⟨hkeys, h⟩ := Option.ite_none_right_eq_some.mp h
      obtain ⟨shard, hevict, rfl⟩ := Option.map_eq_some_iff.mp h
      exact .entries (hkeys ▸ hphase) (Go.toOption_eq_some.mp hevict)
    | waiting => simp [hphase] at h
    | received => simp [hphase] at h
    | looping => simp [hphase] at h

omit [OrderedMap T ℤ Ptr] in
/-- What a section does to the tree: nothing, or the goroutine takes its head. -/
theorem timeTree_index {a : Section} {ttl : TtlManager M} {phase : Phase}
    (ha : ∀ keys, a ≠ .evictDel keys)
    (ho : Evictor.Outcome s.evictor a.toStep ⟨s.now, ttl, phase⟩) :
    ttl.timeTree = s.shard.ttlTable.timeTree ∧ phase.taken = s.phase.taken ∨
      s.phase.taken = none ∧ ∃ t set, phase = .evicting t set ∧
        s.shard.ttlTable.evictionTake = (ttl, some (t, set)) := by
  have hidle : ∀ {p : Phase}, s.evictor.phase = p → p.taken = none → s.phase.taken = none := by
    rintro p rfl hp
    exact hp
  cases a with
  | fire =>
    cases ho with
    | fire hactive => exact .inl ⟨rfl, rfl⟩
  | receive =>
    cases ho with
    | receive hphase hfired => exact .inl ⟨rfl, (hidle hphase rfl).symm⟩
  | take =>
    cases ho with
    | idle hphase hfirst => exact .inl ⟨rfl, (hidle hphase rfl).symm⟩
    | take hphase htake => exact .inr ⟨hidle hphase rfl, _, _, rfl, htake⟩
  | next =>
    cases ho with
    | next hphase hnext =>
      rcases TtlManager.evictionNext_cases hnext with ⟨t, set, hr, -, htake⟩ | ⟨hr, -⟩
      · obtain ⟨rfl, rfl⟩ := Prod.mk.inj (Option.some.inj hr)
        exact .inr ⟨hidle hphase rfl, _, _, rfl, htake⟩
      · cases hr
    | finish hphase hnext =>
      rcases TtlManager.evictionNext_cases hnext with
        ⟨t, set, hr, -⟩ | ⟨-, ⟨-, rfl⟩ | ⟨t, -, rfl⟩⟩
      · cases hr
      · exact .inl ⟨rfl, (hidle hphase rfl).symm⟩
      · exact .inl ⟨rfl, (hidle hphase rfl).symm⟩
  | evictDel keys => exact absurd rfl (ha keys)

/-! ## What the steps keep

The table and the index are related as in `Registration`, with no call half-way but that of the
goroutine.  Two things are added: no timestamp of the index is zero, which would stand for an entry
that does not expire, and the goroutine takes nothing out before its time. -/

/-- Every entry that expires is in the index or was taken out of it, no timestamp of the index is 0,
and the goroutine is punctual. -/
structure Inv (hasher : Hasher) (s : TimedShard T M) : Prop where
  unlocked : s.shard.locked = false
  registered : ∃ m, Concurrent.Inv hasher s.calls m
  stamped : ∀ t, s.shard.ttlTable.Has t → t ≠ 0
  taken : ∀ t set, s.phase = .evicting t set → t ≠ 0
  punctual : s.evictor.Punctual

theorem Inv.rep (hi : s.Inv hasher) :
    ∃ m, s.shard.Rep m ∧ Concurrent.Inv hasher s.calls m := by
  obtain ⟨m, hm⟩ := hi.registered
  exact ⟨m, hm.rep hi.unlocked, hm⟩

/-- A section that changes the index. -/
theorem Inv.index (hi : s.Inv hasher) (hclock : s.now / 10 ^ 9 < 2 ^ 63) {a : Section}
    {ttl : TtlManager M} {phase : Phase} (ha : ∀ keys, a ≠ .evictDel keys)
    (ho : Evictor.Outcome s.evictor a.toStep ⟨s.now, ttl, phase⟩)
    (htimely : s.evictor.Timely a.toStep) :
    ({ s with shard.ttlTable := ttl, phase := phase } : TimedShard T M).Inv hasher := by
  have hpunctual := ho.punctual hi.punctual hclock htimely (by cases a <;> trivial)
  obtain ⟨m, hm⟩ := hi.registered
  rcases timeTree_index ha ho with ⟨htree, htaken⟩ | ⟨hidle, t, set, rfl, htake⟩
  · refine ⟨hi.unlocked, ⟨m, hm.of_index rfl rfl rfl ?_⟩, ?_, ?_, hpunctual⟩
    · intro h e he hne hcov
      simpa only [calls, TtlManager.Registered, Concurrent.Covered, htree, htaken] using hcov
    · intro t ht
      rw [TtlManager.Has, htree] at ht
      exact hi.stamped t ht
    · intro t set hp
      exact hi.taken t set (Phase.taken_eq_some.mp (htaken ▸ Phase.taken_eq_some.mpr hp))
  · obtain ⟨hfirst, rfl⟩ := TtlManager.evictionTake_eq_some htake
    refine ⟨hi.unlocked, ⟨m, hm.evictionTake hidle htake⟩, ?_, ?_, hpunctual⟩
    · exact fun t ht ↦ hi.stamped t (Evictor.has_of_remove_timeTree ht)
    · intro t' set' hp
      obtain ⟨rfl, rfl⟩ := Phase.evicting.inj hp
      exact hi.stamped t (TtlManager.first_eq_some_iff.mp hfirst).1

/-- The eviction of the keys that the goroutine took. -/
theorem Inv.entries (hi : s.Inv hasher) (hclock : s.now / 10 ^ 9 < 2 ^ 63) {t : UInt64}
    {keys : List Key} {shard : CacheShard T M} (hphase : s.phase = .evicting t keys.toFinset)
    (hevict : s.shard.evictDel hasher t keys = .ok shard) :
    ({ s with shard := shard, phase := .looping } : TimedShard T M).Inv hasher := by
  obtain ⟨m, hrep, hm⟩ := hi.rep
  have httl : shard.ttlTable = s.shard.ttlTable := hrep.evictDel_ttlTable hevict
  have hpunctual := (Evictor.Outcome.evictDel (s := s.evictor) hphase).punctual hi.punctual hclock
    trivial trivial
  refine ⟨(hrep.evictDel hevict).1.unlocked, ?_, ?_, by simp, ?_⟩
  · exact hm.evictDel (Phase.taken_eq_some.mpr hphase) hevict
  · intro t ht
    rw [httl] at ht
    exact hi.stamped t ht
  · rw [evictor, httl]
    exact hpunctual

/-- A call that is made while the goroutine waits. -/
theorem Inv.of_call (hwaiting : s.phase = .waiting) {m : Table} {key : Key} {o : Option Entry}
    {shard : CacheShard T M} (hm : Concurrent.Inv hasher s.calls m)
    (hrep : shard.Rep (Function.update m (hasher key) o))
    (hreg : ∀ t k, k ≠ key → s.shard.ttlTable.Registered t k → shard.ttlTable.Registered t k)
    (ho : ∀ e ∈ o, e.key = key ∧
      (e.timestamp ≠ 0 → shard.ttlTable.Registered e.timestamp e.key))
    (hstamped : ∀ t, shard.ttlTable.Has t → t ≠ 0)
    (hpunctual : ({ s with shard := shard } : TimedShard T M).evictor.Punctual) :
    ({ s with shard := shard } : TimedShard T M).Inv hasher where
  unlocked := hrep.unlocked
  registered := ⟨_, hm.call hrep hreg ho⟩
  stamped := hstamped
  taken t set hp := by simp [hwaiting] at hp
  punctual := hpunctual

/-- The index after a call took the previous entry of its hash out. -/
theorem Inv.forget (hi : s.Inv hasher) (hclock : s.now / 10 ^ 9 < 2 ^ 63)
    (hwaiting : s.phase = .waiting) (m : Table) (key : Key) (h : UInt64) :
    (∀ t, (s.shard.forget m key h s.now).Has t → t ≠ 0) ∧
      ({ s.evictor with ttl := s.shard.forget m key h s.now } : Evictor M).Punctual := by
  rw [CacheShard.forget]
  split
  · exact ⟨hi.stamped, hi.punctual⟩
  · next e _ =>
    have hcareful : s.evictor.Careful (.remove e.timestamp key) := fun hp ↦
      absurd (hwaiting.symm.trans hp) (by simp)
    exact ⟨fun t ht ↦ hi.stamped t (TtlManager.has_of_remove ht),
      (Evictor.Outcome.remove e.timestamp key).punctual hi.punctual hclock trivial hcareful⟩

/-- A complete `del`. -/
theorem Inv.del (hi : s.Inv hasher) (hclock : s.now / 10 ^ 9 < 2 ^ 63)
    (hwaiting : s.phase = .waiting) {key : Key} {shard : CacheShard T M}
    {r : Except CacheError Unit} (hdel : s.shard.del key (hasher key) s.now = .ok (shard, r)) :
    ({ s with shard := shard } : TimedShard T M).Inv hasher := by
  obtain ⟨m, hrep, hm⟩ := hi.rep
  have httl := hrep.del_ttlTable hdel
  obtain ⟨hstamped, hpunctual⟩ := hi.forget hclock hwaiting m key (hasher key)
  refine .of_call hwaiting hm (hrep.del hdel).1 ?_ (by simp) ?_ ?_
  · intro t k hk hreg
    rw [httl]
    exact CacheShard.registered_forget hk hreg
  · rwa [httl]
  · rw [evictor, httl]
    exact hpunctual

theorem expiryTimestamp_ne_zero {now : ℕ} {duration : Int64} (hclock : now / 10 ^ 9 < 2 ^ 63)
    (hduration : 0 ≤ duration) (hne : duration ≠ 0)
    (h : 10 ^ 9 ≤ now ∨ 1000000000 ≤ duration) : CacheShard.expiryTimestamp now duration ≠ 0 := by
  intro h0
  have htoNat := CacheShard.toNat_expiryTimestamp hclock hduration hne
  rw [h0, UInt64.toNat_zero] at htoNat
  rcases h with h | h
  · omega
  · have h : (1000000000 : Int64).toInt ≤ duration.toInt := Int64.le_iff_toInt_le.mp h
    have h9 : (1000000000 : Int64).toInt = 10 ^ 9 := rfl
    omega

/-- The index after `set` stored an entry. -/
theorem Inv.renew (hi : s.Inv hasher) (hclock : s.now / 10 ^ 9 < 2 ^ 63)
    (hwaiting : s.phase = .waiting) (m : Table) {key : Key} {entry : Bytes} (h : UInt64)
    {duration : Int64} (hduration : 0 ≤ duration)
    (hstamped : s.Stamped (.set key entry duration)) :
    (∀ t, (s.shard.renew m key h duration s.now).Has t → t ≠ 0) ∧
      ({ s.evictor with ttl := s.shard.renew m key h duration s.now } : Evictor M).Punctual := by
  obtain ⟨hforget, hpunctual⟩ := hi.forget hclock hwaiting m key h
  rw [CacheShard.renew]
  split_ifs with hne
  · refine ⟨fun t ht ↦ ?_, ?_⟩
    · rcases TtlManager.has_put.mp ht with rfl | ht
      · exact expiryTimestamp_ne_zero hclock hduration hne (hstamped.resolve_left hne)
      · exact hforget t ht
    · have hclock' : Evictor.seconds { s.evictor with
          ttl := s.shard.forget m key h s.now } < 2 ^ 63 := hclock
      refine hpunctual.put hclock' (Evictor.timely_put le_rfl hduration hclock' key) fun hp ↦ ?_
      exact absurd (hwaiting.symm.trans hp) (by simp)
  · exact ⟨hforget, hpunctual⟩

/-- A complete `set`. -/
theorem Inv.set (hi : s.Inv hasher) (hclock : s.now / 10 ^ 9 < 2 ^ 63)
    (hwaiting : s.phase = .waiting) {key : Key} {entry : Bytes} {duration : Int64}
    (hduration : 0 ≤ duration) (hstamped : s.Stamped (.set key entry duration))
    {shard : CacheShard T M}
    (hset : s.shard.perform hasher (.set key entry duration s.now) = some shard) :
    ({ s with shard := shard } : TimedShard T M).Inv hasher := by
  obtain ⟨m, hrep, hm⟩ := hi.rep
  obtain ⟨r, hok, -, hunlocked, -⟩ := CacheShard.perform_cases hset
  have httl : shard.ttlTable = s.shard.renew m key (hasher key) duration s.now := by
    obtain ⟨s₁, r₁, hok₁, ho⟩ := hrep.set_cases key entry duration s.now (h := hasher key)
    obtain ⟨rfl, rfl⟩ := Prod.mk.inj (Except.ok.inj (hok₁.symm.trans hok))
    cases ho with
    | stored hv ho => rfl
    | full hv ho => cases hunlocked
  obtain ⟨hrenew, hpunctual⟩ := hi.renew hclock hwaiting m (hasher key) hduration hstamped
  refine .of_call hwaiting hm (hrep.perform hset) ?_ ?_ ?_ ?_
  · intro t k hk hreg
    rw [httl]
    exact CacheShard.registered_renew hk hreg
  · intro e he
    obtain rfl := Option.some.inj he
    refine ⟨rfl, fun hne ↦ ?_⟩
    rw [httl]
    exact CacheShard.registered_renew_self hne
  · rwa [httl]
  · rw [evictor, httl]
    exact hpunctual

theorem Evicted.now_eq {a : Section} (h : Evicted hasher s a s') : s'.now = s.now := by
  cases h <;> rfl

theorem seconds_le_of_step {a : Step} (h : s.step hasher a = some s') :
    s.now / 10 ^ 9 ≤ s'.now / 10 ^ 9 := by
  refine Nat.div_le_div_right ?_
  cases a with
  | tick now =>
    obtain ⟨hnow, h⟩ := Option.ite_none_right_eq_some.mp h
    obtain rfl := Option.some.inj h
    exact hnow
  | set | del =>
    obtain ⟨-, h⟩ := Option.ite_none_right_eq_some.mp h
    obtain ⟨shard, -, rfl⟩ := Option.map_eq_some_iff.mp h
    exact le_rfl
  | eviction a => exact (evict_outcome h).now_eq.ge

theorem Inv.evict (hi : s.Inv hasher) (hclock : s.now / 10 ^ 9 < 2 ^ 63) {a : Section}
    (h : s.evict hasher a = some s') : s'.Inv hasher := by
  cases evict_outcome h with
  | index ha ho htimely => exact hi.index hclock ha ho htimely
  | entries hphase hevict => exact hi.entries hclock hphase hevict

/-- **Every step keeps the invariant.** -/
theorem Inv.step (hi : s.Inv hasher) (hclock : s.now / 10 ^ 9 < 2 ^ 63) {a : Step}
    (hstamped : s.Stamped a) (h : s.step hasher a = some s') : s'.Inv hasher := by
  cases a with
  | tick now =>
    obtain ⟨hnow, h⟩ := Option.ite_none_right_eq_some.mp h
    obtain rfl := Option.some.inj h
    exact ⟨hi.unlocked, hi.registered, hi.stamped, hi.taken, hi.punctual.tick hnow⟩
  | set key entry duration =>
    obtain ⟨⟨hwaiting, hduration⟩, h⟩ := Option.ite_none_right_eq_some.mp h
    obtain ⟨shard, hset, rfl⟩ := Option.map_eq_some_iff.mp h
    exact hi.set hclock hwaiting hduration hstamped hset
  | del key =>
    obtain ⟨hwaiting, h⟩ := Option.ite_none_right_eq_some.mp h
    obtain ⟨shard, hdel, rfl⟩ := Option.map_eq_some_iff.mp h
    obtain ⟨r, hok⟩ := CacheShard.perform_cases hdel
    exact hi.del hclock hwaiting hok
  | eviction a => exact hi.evict hclock h

end

theorem system_inv {hasher : Hasher} {ls : List Step} {s : TimedShard T M}
    (hr : ((system T M hasher).restrict Stamped).Run ls s) :
    s.now / 10 ^ 9 < 2 ^ 63 → s.Inv hasher := by
  refine hr.invariant ?_ ?_
  · rintro s ⟨⟨config, hinit⟩, -, hwaiting⟩ -
    have hrep := (CacheShard.initNewShard_spec hinit).1
    have httl := (CacheShard.initNewShard_fields hinit).1
    refine ⟨hrep.unlocked, ⟨_, hrep.keeps, fun _ ↦ hrep, by simp, by simp⟩, ?_, ?_, ?_⟩
    · rw [httl]
      exact fun t ht ↦ absurd ht (TtlManager.first_eq_none_iff.mp (TtlManager.first_of_empty rfl) t)
    · simp [hwaiting]
    · refine .of_empty ?_ ?_ (by simp [evictor, hwaiting])
      · rw [evictor, httl]
        exact TtlManager.first_of_empty rfl
      · rw [evictor, httl]
        exact fun _ ↦ rfl
  · rintro s a s' hi ⟨hstep, hstamped⟩ hclock
    have hclock : s.now / 10 ^ 9 < 2 ^ 63 := (seconds_le_of_step hstep).trans_lt hclock
    exact (hi hclock).step hclock hstamped hstep

/-- A new shard with the goroutine waiting. -/
theorem init_of_map (hasher : Hasher) (config : Config) (now : ℕ) (s : TimedShard T M)
    (hs : (((CacheShard.initNewShard config now).toOption.filter fun s : CacheShard T M ↦
      s.entries.array.length < 2 ^ 32).map fun shard ↦ (⟨now, shard, .waiting⟩ : TimedShard T M)) =
        some s) : (system T M hasher).init s := by
  obtain ⟨shard, hshard, rfl⟩ := Option.map_eq_some_iff.mp hs
  obtain ⟨hinit, hlt⟩ := Option.filter_eq_some_iff.mp hshard
  exact ⟨⟨config, Go.toOption_eq_some.mp hinit⟩, of_decide_eq_true hlt, rfl⟩

/-! ## What has expired is gone, and nothing else is -/

section

variable {hasher : Hasher} {s s' : TimedShard T M} {a : Section}

/-- **What a section does to the live entries**: it removes some that have expired. -/
theorem Inv.live_evict (hi : s.Inv hasher) (h : s.evict hasher a = some s') (k : UInt64)
    (e : Entry) :
    (s'.shard.Live k e → s.shard.Live k e) ∧ (s.shard.Live k e →
      s'.shard.Live k e ∨ e.timestamp ≠ 0 ∧ e.timestamp.toNat ≤ s.now / 10 ^ 9) := by
  cases evict_outcome h with
  | @index _ ttl phase ha ho htimely =>
    have hlive : CacheShard.Live { s.shard with ttlTable := ttl } k e ↔ s.shard.Live k e :=
      CacheShard.live_congr rfl rfl
    exact ⟨hlive.mp, fun he ↦ .inl (hlive.mpr he)⟩
  | @entries t keys shard hphase hevict =>
    obtain ⟨m, hrep, -⟩ := hi.rep
    have hlive := hrep.live_evictDel (h := k) (e := e) hevict
    refine ⟨fun he ↦ (hlive.mp he).1, fun he ↦ ?_⟩
    by_cases ht : e.timestamp = t
    · rw [ht]
      exact .inr ⟨hi.taken _ _ hphase, hi.punctual.evicting _ _ hphase⟩
    · exact .inl (hlive.mpr ⟨he, fun hc ↦ ht hc.2⟩)

/-- The same for the goroutine on its own, as long as it goes on. -/
theorem Inv.live_evictions (hi : s.Inv hasher) (hclock : s.now / 10 ^ 9 < 2 ^ 63)
    {as : List Section} (hr : (evictions hasher s).Run as s') :
    s'.Inv hasher ∧ s'.now = s.now ∧ ∀ k e,
      (s'.shard.Live k e → s.shard.Live k e) ∧ (s.shard.Live k e →
        s'.shard.Live k e ∨ e.timestamp ≠ 0 ∧ e.timestamp.toNat ≤ s.now / 10 ^ 9) := by
  refine hr.invariant ?_ ?_
  · rintro _ rfl
    exact ⟨hi, rfl, fun k e ↦ ⟨id, .inl⟩⟩
  · rintro s₁ a s₂ ⟨hi₁, hnow, hlive⟩ hstep
    have hstep : s₁.evict hasher a = some s₂ := hstep
    refine ⟨hi₁.evict (hnow ▸ hclock) hstep, (evict_outcome hstep).now_eq.trans hnow, fun k e ↦ ?_⟩
    obtain ⟨hsub, hkept⟩ := hi₁.live_evict hstep k e
    rw [hnow] at hkept
    exact ⟨fun he ↦ (hlive k e).1 (hsub he),
      fun he ↦ ((hlive k e).2 he).elim hkept .inr⟩

/-- An entry that has expired is not live when nothing in the index is due. -/
theorem Inv.not_live (hi : s.Inv hasher) (hwaiting : s.phase = .waiting)
    (hdone : ∀ t ∈ s.shard.ttlTable.first, s.now / 10 ^ 9 < t.toNat) {k : UInt64} {e : Entry}
    (hne : e.timestamp ≠ 0) (hdue : e.timestamp.toNat ≤ s.now / 10 ^ 9) :
    ¬ s.shard.Live k e := by
  intro hlive
  obtain ⟨m, hrep, hm⟩ := hi.rep
  obtain ⟨e', he', hdata⟩ := hrep.live_iff.mp hlive
  have hts : e'.timestamp = e.timestamp := Entry.timestamp_eq_of_data_eq hdata
  rcases hm.covered k e' he' (hts ▸ hne) with ⟨set, hset, -⟩ | hput | ⟨set, htaken, -⟩
  · -- the entry is in the index, whose smallest timestamp is not later
    have hhas : s.shard.ttlTable.Has e.timestamp := by
      rw [TtlManager.Has, ← hts]
      exact Option.isSome_iff_exists.mpr ⟨set, hset⟩
    cases hfirst : s.shard.ttlTable.first with
    | none => exact TtlManager.first_eq_none_iff.mp hfirst _ hhas
    | some t =>
      have hle : t.toNat ≤ e.timestamp.toNat :=
        UInt64.le_iff_toNat_le.mp ((TtlManager.first_eq_some_iff.mp hfirst).2 _ hhas)
      exact absurd (hdone t hfirst) (by omega)
  · simp [calls] at hput
  · rw [calls, hwaiting] at htaken
    cases htaken

end

/-- **Entries expire when they should.**  When the clock stands still and the goroutine works off
the fires of its timer until the index is empty or its smallest timestamp is in the future, the
entries that are live are those that were live before and do not expire or expire in the future;
they have the key and the value they had. -/
theorem expiry_exact {hasher : Hasher} {ls : List Step} {s : TimedShard T M}
    (hr : ((system T M hasher).restrict Stamped).Run ls s) (hclock : s.now / 10 ^ 9 < 2 ^ 63)
    {as : List Section} {s' : TimedShard T M} (hev : (evictions hasher s).Run as s')
    (hwaiting : s'.phase = .waiting)
    (hdone : ∀ t ∈ s'.shard.ttlTable.first, s.now < t.toNat * 10 ^ 9) (h : UInt64) (e : Entry) :
    s'.shard.Live h e ↔
      s.shard.Live h e ∧ (e.timestamp = 0 ∨ s.now < e.timestamp.toNat * 10 ^ 9) := by
  have hfuture : ∀ t : UInt64, s.now < t.toNat * 10 ^ 9 ↔ s.now / 10 ^ 9 < t.toNat := fun t ↦ by
    rw [Nat.div_lt_iff_lt_mul (by norm_num)]
  simp only [hfuture] at hdone ⊢
  obtain ⟨hi, hnow, hlive⟩ := (system_inv hr hclock).live_evictions hclock hev
  constructor
  · intro he
    refine ⟨(hlive h e).1 he, or_iff_not_imp_left.mpr fun hne ↦ lt_of_not_ge fun hdue ↦ ?_⟩
    exact hi.not_live hwaiting (hnow ▸ hdone) hne (hnow ▸ hdue) he
  · rintro ⟨he, hkept⟩
    refine ((hlive h e).2 he).resolve_right fun ⟨hne, hdue⟩ ↦ ?_
    exact absurd (hkept.resolve_left hne) hdue.not_gt

/-- Two keys with one hash, a key that does not expire, and a key that does: at six seconds the last
one expires. -/
theorem expiry_exact_collision :
    ∃ s s' : TimedShard (SortedAssoc ℤ Ptr) (SortedAssoc UInt64 (Finset Key)),
      ((system _ _ lengthHasher).restrict Stamped).Run
        [.set [1] [7] 5000000000, .set [2] [8] 9000000000, .set [3, 3] [9] 0,
          .set [4, 4, 4] [6] 5000000000, .tick 6000000000] s ∧
      (evictions lengthHasher s).Run
        [.fire, .receive, .take, .evictDel [[1], [4, 4, 4]], .next] s' ∧
      s.shard.Live 3 ⟨[4, 4, 4], [6], 5⟩ ∧
      ∀ h e, s'.shard.Live h e ↔
        s.shard.Live h e ∧ (e.timestamp = 0 ∨ s.now < e.timestamp.toNat * 10 ^ 9) := by
  obtain ⟨s, hr, hs⟩ := TransitionSystem.exists_run
    (S := (system (SortedAssoc ℤ Ptr) (SortedAssoc UInt64 (Finset Key)) lengthHasher).restrict
      Stamped) (fun _ _ _ ↦ TransitionSystem.step_of_guarded _ _ _)
    (init_of_map lengthHasher smallConfig 0)
    (l := [.set [1] [7] 5000000000, .set [2] [8] 9000000000, .set [3, 3] [9] 0,
      .set [4, 4, 4] [6] 5000000000, .tick 6000000000])
    (p := fun s ↦ ([.fire, .receive, .take, .evictDel [[1], [4, 4, 4]], .next].foldlM
      (evict lengthHasher) s).any fun s' ↦ s.now = 6000000000 ∧
        s.shard.Live 3 ⟨[4, 4, 4], [6], 5⟩ ∧ s'.phase = .waiting ∧
          s'.shard.ttlTable.first = some 9) (by decide +kernel)
  obtain ⟨s', hs', hs⟩ := (Option.any_eq_true _ _).mp hs
  obtain ⟨hnow, hlive, hwaiting, hfirst⟩ := of_decide_eq_true hs
  have hev := TransitionSystem.run_ofStep_iff.mpr hs'
  refine ⟨s, s', hr, hev, hlive, expiry_exact hr (by rw [hnow]; decide) hev hwaiting ?_⟩
  intro t ht
  obtain rfl := Option.some.inj (hfirst.symm.trans ht)
  rw [hnow]
  decide

/-- **An entry that does not expire is evicted.**  In the first second of the epoch a key is set to
expire after half a second, and then another key with the same hash is set, not to expire.  Both
have the timestamp 0; the index still has the first key under 0, and when its time comes the entry
of the second key is removed. -/
theorem permanent_entry_evicted :
    ∃ s s' : TimedShard (SortedAssoc ℤ Ptr) (SortedAssoc UInt64 (Finset Key)),
      (system _ _ lengthHasher).Run [.set [1] [7] 500000000, .set [2] [8] 0] s ∧
      (evictions lengthHasher s).Run [.fire, .receive, .take, .evictDel [[1]], .next] s' ∧
      s'.phase = .waiting ∧ s'.shard.ttlTable.first = none ∧
      s.shard.Live 1 ⟨[2], [8], 0⟩ ∧ ¬ s'.shard.Live 1 ⟨[2], [8], 0⟩ := by
  obtain ⟨s, hr, hs⟩ := TransitionSystem.exists_run
    (S := system (SortedAssoc ℤ Ptr) (SortedAssoc UInt64 (Finset Key)) lengthHasher)
    (fun _ _ _ ↦ id) (init_of_map lengthHasher smallConfig 0)
    (l := [.set [1] [7] 500000000, .set [2] [8] 0])
    (p := fun s ↦ ([.fire, .receive, .take, .evictDel [[1]], .next].foldlM
      (evict lengthHasher) s).any fun s' ↦ s'.phase = .waiting ∧
        s'.shard.ttlTable.first = none ∧ s.shard.Live 1 ⟨[2], [8], 0⟩ ∧
          ¬ s'.shard.Live 1 ⟨[2], [8], 0⟩) (by decide +kernel)
  obtain ⟨s', hs', hs⟩ := (Option.any_eq_true _ _).mp hs
  exact ⟨s, s', hr, TransitionSystem.run_ofStep_iff.mpr hs', of_decide_eq_true hs⟩

end TimedShard
end ClusteredBigCache
