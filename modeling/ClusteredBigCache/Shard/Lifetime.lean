import ClusteredBigCache.Shard.Expiry
import ClusteredBigCache.Shard.FullQueue

/-!
# How long an entry lives

`Shard/Expiry` says which entries are left once the goroutine has worked off its fires.  This file
says when that is, on the assumption that the goroutine has a token of its timer worked off no
later than some time after the timer was due (`OnTime`).

* The timer counts whole seconds: `resetTimer` subtracts the second of the clock from the timestamp,
  so the timer is due within the second of the timestamp and not at its beginning
  (`Timer.due_reset_lt`).
* Every timestamp of the index, or taken out of it, is less than a second and the delay of the
  goroutine in the past (`Evictor.Prompt`): the timer is armed for the smallest one, and there is no
  other moment at which something can be forgotten.
* A timestamp is the second of the call and the whole seconds of the duration, so up to two seconds
  are lost.  Hence what `get` returns: the entry until two seconds before the duration is over, and
  nothing from one second and the delay after it on (`lifetime`).
-/

set_option autoImplicit false

namespace ClusteredBigCache

/-- **A timer that is armed for a timestamp is due before the second of the timestamp is over**, as
long as the delay fits an `Int64`. -/
theorem Timer.due_reset_lt {timer : Timer} {now : ℕ} {t : UInt64}
    (hafter : t.toNat ≤ now / 10 ^ 9 + 9223372036) (hbefore : now / 10 ^ 9 ≤ t.toNat + 9223372036)
    (hnow : now / 10 ^ 9 < 2 ^ 63) : (timer.reset now t).due < (t.toNat + 1) * 10 ^ 9 := by
  have hunix : (unix now).toInt = (now / 10 ^ 9 : ℕ) := Int64.toInt_ofNat_of_lt hnow
  have hnear : |(t.toNat : ℤ) - (unix now).toInt| ≤ 9223372036 := by
    rw [hunix, abs_le]
    omega
  have hdelay := delay_eq hnear
  rw [hunix] at hdelay
  rw [reset, hdelay]
  simp only
  omega

/-! ## The goroutine keeps up with the index

A timestamp can only wait for the timer, for the token in the channel, or for the pass that is under
way; in each case the wait has a bound. -/

namespace Evictor

open TimedShard (Section)

variable {M : Type}

/-- Something is going to happen: the timer is armed or has fired, or a pass is under way. -/
def Pending (s : Evictor M) : Prop :=
  s.ttl.timer.active ∨ s.ttl.timer.fired ∨ s.phase ≠ .waiting

/-- The timer was or is due within the second of the timestamp, and that second is over for less
than `δ`. -/
structure InTime (δ : ℕ) (s : Evictor M) (t : UInt64) : Prop where
  due : s.ttl.timer.due < (t.toNat + 1) * 10 ^ 9
  now : s.now < (t.toNat + 1) * 10 ^ 9 + δ

theorem InTime.mono {δ : ℕ} {s : Evictor M} {t t' : UInt64} (h : s.InTime δ t) (hle : t ≤ t') :
    s.InTime δ t' := by
  have hle : (t.toNat + 1) * 10 ^ 9 ≤ (t'.toNat + 1) * 10 ^ 9 :=
    Nat.mul_le_mul_right _ (Nat.succ_le_succ (UInt64.le_iff_toNat_le.mp hle))
  exact ⟨h.due.trans_le (by exact_mod_cast hle), h.now.trans_le (Nat.add_le_add_right hle δ)⟩

variable [OrderedMap M UInt64 (Finset Key)]

/-- There is no work that nobody comes for, and the work there is is in time. -/
structure Prompt (δ : ℕ) (s : Evictor M) : Prop where
  awake : s.Awake
  first : ∀ t ∈ s.ttl.first, s.InTime δ t
  evicting : ∀ t set, s.phase = .evicting t set → s.InTime δ t

section

variable {δ : ℕ} {s s' : Evictor M}

theorem Prompt.has (h : s.Prompt δ) {t : UInt64} (ht : s.ttl.Has t) : s.InTime δ t := by
  match hfirst : s.ttl.first with
  | none => exact absurd ht (TtlManager.first_eq_none_iff.mp hfirst t)
  | some t₀ => exact (h.first t₀ hfirst).mono ((TtlManager.first_eq_some_iff.mp hfirst).2 t ht)

/-- With something in the index, something is going to happen. -/
theorem Awake.pending (h : s.Awake) {t : UInt64} (ht : t ∈ s.ttl.first) : s.Pending := by
  rcases h with (hnone | harmed) | hfired | hphase
  · exact absurd (hnone.symm.trans ht) (by simp)
  · exact .inl harmed.1
  · exact .inr (.inl hfired)
  · exact .inr (.inr hphase)

/-- The clock goes on, and does not leave the timer behind. -/
theorem Prompt.tick (h : s.Prompt δ) {now : ℕ}
    (hnow : s.Pending → (now : ℤ) ≤ s.ttl.timer.due + δ) :
    ({ s with now := now } : Evictor M).Prompt δ := by
  have hlate : ∀ t, s.InTime δ t → s.Pending → ({ s with now := now } : Evictor M).InTime δ t := by
    intro t ht hpending
    have hlt : (now : ℤ) < (t.toNat + 1) * 10 ^ 9 + δ :=
      (hnow hpending).trans_lt (Int.add_lt_add_right ht.due δ)
    exact ⟨ht.due, by exact_mod_cast hlt⟩
  refine ⟨h.awake, fun t ht ↦ ?_, fun t set hp ↦ ?_⟩
  · exact hlate t (h.first t ht) (h.awake.pending ht)
  · exact hlate t (h.evicting t set hp) (.inr (.inr (by rw [show s.phase = _ from hp]; simp)))

omit [OrderedMap M UInt64 (Finset Key)] in
/-- The timer is armed for the head of an index none of whose timestamps is far away. -/
theorem inTime_reset {timer : Timer} {t : UInt64} (hδ : δ ≤ 10 ^ 18) (hclock : s.seconds < 2 ^ 63)
    (hnear : t.toNat ≤ s.seconds + 9223372036) (hnow : s.now < (t.toNat + 1) * 10 ^ 9 + δ)
    (htimer : s.ttl.timer = timer.reset s.now t) : s.InTime δ t := by
  refine ⟨?_, hnow⟩
  rw [htimer]
  exact Timer.due_reset_lt hnear (by omega) hclock

/-- A call that is made while the goroutine waits. -/
theorem Prompt.adjusted {ttl : TtlManager M} (h : s.Prompt δ) (hδ : δ ≤ 10 ^ 18)
    (hclock : s.seconds < 2 ^ 63) (hwaiting : s.phase = .waiting)
    (ha : s.ttl.Adjusted s.now ttl) (hnear : ∀ t, ttl.Has t → t.toNat ≤ s.seconds + 9223372036)
    (hnow : ∀ t, ttl.Has t → s.now < (t.toNat + 1) * 10 ^ 9 + δ) :
    ({ s with ttl := ttl } : Evictor M).Prompt δ := by
  refine ⟨h.awake.adjusted ha, fun t ht ↦ ?_, fun t set hp ↦ ?_⟩
  · have hhas : ttl.Has t := (TtlManager.first_eq_some_iff.mp ht).1
    rcases ha with ⟨hfirst, htimer⟩ | ⟨hfirst, htimer⟩ | ⟨hfirst, htimer⟩
    · have hin := h.first t (hfirst ▸ ht)
      exact ⟨by simpa only [htimer] using hin.due, hin.now⟩
    · exact absurd (hfirst.symm.trans ht) (by simp)
    · obtain rfl := Option.some.inj (hfirst.symm.trans ht)
      exact inTime_reset hδ hclock (hnear _ hhas) (hnow _ hhas) htimer
  · exact absurd (hwaiting.symm.trans hp) (by simp)

/-- The goroutine takes the head of the index. -/
theorem Prompt.taken (h : s.Prompt δ) {ttl : TtlManager M} {t : UInt64} {set : Finset Key}
    (htake : s.ttl.evictionTake = (ttl, some (t, set))) :
    ({ s with ttl := ttl, phase := .evicting t set } : Evictor M).Prompt δ := by
  obtain ⟨hfirst, rfl⟩ := TtlManager.evictionTake_eq_some htake
  refine ⟨.inr (.inr (by simp)), fun t' ht' ↦ ?_, fun t' set' hp ↦ ?_⟩
  · have hin := h.has (has_of_remove_timeTree (TtlManager.first_eq_some_iff.mp ht').1)
    exact ⟨hin.due, hin.now⟩
  · obtain ⟨rfl, rfl⟩ := Phase.evicting.inj hp
    have hin := h.first t hfirst
    exact ⟨hin.due, hin.now⟩

/-- **Every section of the goroutine keeps it prompt.** -/
theorem Outcome.prompt {a : Section} (ho : Outcome s a.toStep s') (h : s.Prompt δ)
    (hδ : δ ≤ 10 ^ 18) (hclock : s.seconds < 2 ^ 63)
    (hnear : ∀ t, s.ttl.Has t → t.toNat ≤ s.seconds + 9223372036) : s'.Prompt δ := by
  have hawake := ho.awake h.awake
  match a with
  | .fire =>
    rcases ho with _ | hactive
    exact ⟨hawake, fun t ht ↦ ⟨(h.first t ht).due, (h.first t ht).now⟩,
      fun t set hp ↦ ⟨(h.evicting t set hp).due, (h.evicting t set hp).now⟩⟩
  | .receive =>
    obtain _ | _ | ⟨hphase, hfired⟩ := ho
    exact ⟨hawake, fun t ht ↦ ⟨(h.first t ht).due, (h.first t ht).now⟩, by simp⟩
  | .take =>
    obtain _ | _ | _ | ⟨hphase, hfirst⟩ | ⟨hphase, htake⟩ := ho
    · exact ⟨hawake, by simp [hfirst], by simp⟩
    · exact h.taken htake
  | .evictDel _ =>
    cases ho
    exact ⟨hawake, fun t ht ↦ ⟨(h.first t ht).due, (h.first t ht).now⟩, by simp⟩
  | .next =>
    cases ho with
    | next hphase hnext =>
      rcases TtlManager.evictionNext_cases hnext with ⟨t, set, hr, -, htake⟩ | ⟨hr, -⟩
      · obtain ⟨rfl, rfl⟩ := Prod.mk.inj (Option.some.inj hr)
        exact h.taken htake
      · cases hr
    | finish hphase hnext =>
      refine ⟨hawake, fun t ht ↦ ?_, by simp⟩
      rcases TtlManager.evictionNext_cases hnext with
        ⟨t, set, hr, -⟩ | ⟨-, ⟨hfirst, rfl⟩ | ⟨t₀, hfirst, rfl⟩⟩
      · cases hr
      · exact absurd (hfirst.symm.trans ht) (by simp)
      · obtain rfl := Option.some.inj (hfirst.symm.trans ht)
        exact inTime_reset hδ hclock (hnear _ (TtlManager.first_eq_some_iff.mp hfirst).1)
          (h.first _ hfirst).now rfl

end
end Evictor

namespace CacheShard

variable {T M : Type} [OrderedMap T ℤ Ptr] {s s' : CacheShard T M} {m : Table} {h : UInt64}

theorem Rep.value_of_live (hr : s.Rep m) {e : Entry} (hlive : s.Live h e)
    (hkey : e.key.length ≤ maxKeyLength) : s.value e.key h = .ok (.ok e.value) := by
  obtain ⟨i, hb⟩ := hlive
  have hview := (hb.readable hr).getView e.key
  rw [Entry.readKey_of_le hkey, Go.ok_bind, if_neg (not_not.mpr rfl)] at hview
  have hread : readEntry _ = .ok (e.readValue h) := readEntry_wrapped (hb.readable hr).get.2
  rw [value, CacheShard.get, hview, Go.ok_bind]
  simp only
  rw [show s.hit.entries = s.entries from rfl, hread, Entry.readValue_of_le hkey]
  rfl

theorem Rep.value_of_not_live (hr : s.Rep m) (hdead : ∀ e, ¬ s.Live h e) (key : Key) :
    s.value key h = .ok (.error (.notFound key)) := by
  rw [hr.value_eq, Table.get]
  rcases hm : m h with _ | e
  · rfl
  · exact absurd (hr.live_iff.mpr ⟨e, hm, rfl⟩) (hdead e)

variable [OrderedMap M UInt64 (Finset Key)]

/-- The index after a `set` that stored its entry. -/
theorem Rep.set_ttlTable (hr : s.Rep m) {key : Key} {entry : Bytes} {duration : Int64} {now : ℕ}
    {r : Except CacheError UInt64} (hok : s.set key h entry duration now = .ok (s', r))
    (hunlocked : s'.locked = false) : s'.ttlTable = s.renew m key h duration now := by
  obtain ⟨s₁, r₁, hok₁, ho⟩ := hr.set_cases key entry duration now (h := h)
  obtain ⟨rfl, rfl⟩ := Prod.mk.inj (Except.ok.inj (hok₁.symm.trans hok))
  match ho with
  | .stored _ _ => rfl
  | .full _ _ => cases hunlocked

end CacheShard

/-! ## The shard -/

namespace TimedShard

variable {T M : Type} {δ : ℕ}

/-- The clock is not more than `δ` past the time the timer was due before the goroutine has worked
off its fire. -/
def OnTime (δ : ℕ) (s : TimedShard T M) : Step → Prop
  | .tick now => s.evictor.Pending → (now : ℤ) ≤ s.shard.ttlTable.timer.due + δ
  | .set _ _ _ | .del _ | .eviction _ => True

instance (s : TimedShard T M) (a : Step) : Decidable (s.OnTime δ a) :=
  match a with
  | .tick now => inferInstanceAs (Decidable ((s.shard.ttlTable.timer.active ∨
      s.shard.ttlTable.timer.fired ∨ s.phase ≠ .waiting) →
        (now : ℤ) ≤ s.shard.ttlTable.timer.due + δ))
  | .set _ _ _ | .del _ | .eviction _ => inferInstanceAs (Decidable True)

/-- The call is made for a key with this hash. -/
def Step.On (hasher : Hasher) (h : UInt64) : Step → Prop
  | .set key _ _ | .del key => hasher key = h
  | .tick _ | .eviction _ => False

instance (hasher : Hasher) (h : UInt64) (a : Step) : Decidable (a.On hasher h) :=
  match a with
  | .set key _ _ | .del key => inferInstanceAs (Decidable (hasher key = h))
  | .tick _ | .eviction _ => inferInstanceAs (Decidable False)

variable [OrderedMap T ℤ Ptr] [OrderedMap M UInt64 (Finset Key)]

section

variable {hasher : Hasher} {s s' : TimedShard T M}

/-- The index after a call took the previous entry of its hash out. -/
theorem prompt_forget (hi : s.Inv hasher) (h : s.evictor.Prompt δ) (hδ : δ ≤ 10 ^ 18)
    (hclock : s.now / 10 ^ 9 < 2 ^ 63) (hwaiting : s.phase = .waiting) (m : Table) (key : Key)
    (k : UInt64) :
    ({ s.evictor with ttl := s.shard.forget m key k s.now } : Evictor M).Prompt δ := by
  rw [CacheShard.forget]
  split
  · exact h
  · next e _ =>
    refine h.adjusted hδ hclock hwaiting (s.shard.ttlTable.remove_adjusted s.now _ key) ?_ ?_
    · exact fun t ht ↦ hi.punctual.near t (TtlManager.has_of_remove ht)
    · exact fun t ht ↦ (h.has (TtlManager.has_of_remove ht)).now

/-- The index after `set` stored an entry. -/
theorem prompt_renew (hi : s.Inv hasher) (h : s.evictor.Prompt δ) (hδ : δ ≤ 10 ^ 18)
    (hclock : s.now / 10 ^ 9 < 2 ^ 63) (hwaiting : s.phase = .waiting) (m : Table) (key : Key)
    (k : UInt64) {duration : Int64} (hduration : 0 ≤ duration) :
    ({ s.evictor with ttl := s.shard.renew m key k duration s.now } : Evictor M).Prompt δ := by
  have hforget := prompt_forget hi h hδ hclock hwaiting m key k
  have hnear := (hi.forget hclock hwaiting m key k).2.near
  rw [CacheShard.renew]
  split_ifs with hne
  · have htimely := Evictor.timely_put (s := s.evictor) le_rfl hduration hclock key
    have hstamp := CacheShard.toNat_expiryTimestamp hclock hduration hne
    refine hforget.adjusted hδ hclock hwaiting (TtlManager.put_adjusted _ s.now _ key) ?_ ?_
    · intro t ht
      rcases TtlManager.has_put.mp ht with rfl | ht
      · exact htimely
      · exact hnear t ht
    · intro t ht
      rcases TtlManager.has_put.mp ht with rfl | ht
      · rw [hstamp]
        show s.now < _
        omega
      · exact (hforget.has ht).now
  · exact hforget

/-- **Every step keeps the goroutine prompt.** -/
theorem prompt_step (hi : s.Inv hasher) (h : s.evictor.Prompt δ) (hδ : δ ≤ 10 ^ 18)
    (hclock : s.now / 10 ^ 9 < 2 ^ 63) {a : Step} (htime : s.OnTime δ a)
    (hstep : s.step hasher a = some s') : s'.evictor.Prompt δ := by
  match a with
  | .tick now =>
    obtain ⟨-, hstep⟩ := Option.ite_none_right_eq_some.mp hstep
    obtain rfl := Option.some.inj hstep
    exact h.tick htime
  | .set key entry duration =>
    obtain ⟨⟨hwaiting, hduration⟩, hstep⟩ := Option.ite_none_right_eq_some.mp hstep
    obtain ⟨shard, hset, rfl⟩ := Option.map_eq_some_iff.mp hstep
    obtain ⟨r, hok, -, hunlocked, -⟩ := CacheShard.perform_cases hset
    obtain ⟨m, hrep, -⟩ := hi.rep
    rw [evictor, hrep.set_ttlTable hok hunlocked]
    exact prompt_renew hi h hδ hclock hwaiting m key (hasher key) hduration
  | .del key =>
    obtain ⟨hwaiting, hstep⟩ := Option.ite_none_right_eq_some.mp hstep
    obtain ⟨shard, hdel, rfl⟩ := Option.map_eq_some_iff.mp hstep
    obtain ⟨r, hok⟩ := CacheShard.perform_cases hdel
    obtain ⟨m, hrep, -⟩ := hi.rep
    rw [evictor, hrep.del_ttlTable hok]
    exact prompt_forget hi h hδ hclock hwaiting m key (hasher key)
  | .eviction a =>
    rcases evict_outcome hstep with ⟨-, ho, -⟩ | ⟨hphase, hevict⟩
    · exact ho.prompt h hδ hclock hi.punctual.near
    · obtain ⟨m, hrep, -⟩ := hi.rep
      have ho := (Evictor.Outcome.evictDel (s := s.evictor) hphase).prompt (a := .evictDel []) h hδ
        hclock hi.punctual.near
      rw [evictor, hrep.evictDel_ttlTable hevict]
      exact ho

/-- An entry whose second is over for as long as the goroutine needs is not live. -/
theorem not_live_of_prompt (hi : s.Inv hasher) (h : s.evictor.Prompt δ) {k : UInt64} {e : Entry}
    (hne : e.timestamp ≠ 0) (hlate : (e.timestamp.toNat + 1) * 10 ^ 9 + δ ≤ s.now) :
    ¬ s.shard.Live k e := by
  intro hlive
  obtain ⟨m, hrep, hm⟩ := hi.rep
  obtain ⟨e', he', hdata⟩ := hrep.live_iff.mp hlive
  have hts : e'.timestamp = e.timestamp := Entry.timestamp_eq_of_data_eq hdata
  have hin : s.evictor.InTime δ e'.timestamp := by
    rcases hm.covered k e' he' (hts ▸ hne) with ⟨set, hset, -⟩ | hput | ⟨set, htaken, -⟩
    · exact h.has (Option.isSome_iff_exists.mpr ⟨set, hset⟩)
    · simp [calls] at hput
    · exact h.evicting _ set (Phase.taken_eq_some.mp htaken)
  rw [hts] at hin
  exact absurd hin.now hlate.not_gt

/-! ## What becomes of an entry -/

/-- Nothing else is stored under the hash, and the entry is live or has expired. -/
structure Holds (k : UInt64) (e : Entry) (s : TimedShard T M) : Prop where
  live : s.shard.Live k e ∨ e.timestamp ≠ 0 ∧ e.timestamp.toNat ≤ s.now / 10 ^ 9
  only : ∀ e', s.shard.Live k e' → e'.data k = e.data k

omit [OrderedMap M UInt64 (Finset Key)] in
/-- A call for another hash. -/
theorem Holds.call {k k' : UInt64} {e : Entry} (h : s.Holds k e) {shard : CacheShard T M}
    {m : Table} {o : Option Entry} (hrep : s.shard.Rep m)
    (hrep' : shard.Rep (Function.update m k' o)) (hk : k' ≠ k) :
    ({ s with shard := shard } : TimedShard T M).Holds k e := by
  have hlive : ∀ e', shard.Live k e' ↔ s.shard.Live k e' := fun e' ↦ by
    rw [hrep'.live_iff, hrep.live_iff, Function.update_of_ne hk.symm]
  exact ⟨h.live.imp_left (hlive e).mpr, fun e' he' ↦ h.only e' ((hlive e').mp he')⟩

/-- **Until a call is made for its hash, an entry stays until it has expired.** -/
theorem Holds.step {k : UInt64} {e : Entry} (h : s.Holds k e) (hi : s.Inv hasher) {a : Step}
    (hother : ¬ a.On hasher k) (hstep : s.step hasher a = some s') : s'.Holds k e := by
  have hseconds := seconds_le_of_step hstep
  match a with
  | .tick now =>
    obtain ⟨-, hstep⟩ := Option.ite_none_right_eq_some.mp hstep
    obtain rfl := Option.some.inj hstep
    exact ⟨h.live.imp_right fun ⟨hne, hle⟩ ↦ ⟨hne, hle.trans hseconds⟩, h.only⟩
  | .set key entry duration =>
    obtain ⟨-, hstep⟩ := Option.ite_none_right_eq_some.mp hstep
    obtain ⟨shard, hset, rfl⟩ := Option.map_eq_some_iff.mp hstep
    obtain ⟨m, hrep, -⟩ := hi.rep
    exact h.call hrep (hrep.perform hset) hother
  | .del key =>
    obtain ⟨-, hstep⟩ := Option.ite_none_right_eq_some.mp hstep
    obtain ⟨shard, hdel, rfl⟩ := Option.map_eq_some_iff.mp hstep
    obtain ⟨m, hrep, -⟩ := hi.rep
    exact h.call hrep (hrep.perform hdel) hother
  | .eviction a =>
    have hnow : s'.now = s.now := (evict_outcome hstep).now_eq
    refine ⟨?_, fun e' he' ↦ h.only e' ((hi.live_evict hstep k e').1 he')⟩
    rw [hnow]
    exact h.live.elim (hi.live_evict hstep k e).2 .inr

/-- The entry that `set` stores. -/
theorem holds_set (hi : s.Inv hasher) {key : Key} {entry : Bytes} {duration : Int64}
    (hstep : s.step hasher (.set key entry duration) = some s') :
    s'.Holds (hasher key) ⟨key, entry, CacheShard.expiryTimestamp s.now duration⟩ ∧
      0 ≤ duration ∧ key.length ≤ maxKeyLength := by
  obtain ⟨⟨-, hduration⟩, hstep⟩ := Option.ite_none_right_eq_some.mp hstep
  obtain ⟨shard, hset, rfl⟩ := Option.map_eq_some_iff.mp hstep
  obtain ⟨-, -, hkey, -⟩ := CacheShard.perform_cases hset
  obtain ⟨m, hrep, -⟩ := hi.rep
  have hrep' := hrep.perform hset
  refine ⟨⟨.inl (hrep'.live_iff.mpr ⟨_, Function.update_self .., rfl⟩), fun e' he' ↦ ?_⟩,
    hduration, hkey⟩
  obtain ⟨e, he, hdata⟩ := hrep'.live_iff.mp he'
  rw [Table.apply, Function.update_self] at he
  rw [Option.some.inj he]
  exact hdata.symm

end

/-- What is assumed of the steps of a run. -/
def Kept (δ : ℕ) (s : TimedShard T M) (a : Step) : Prop := s.Stamped a ∧ s.OnTime δ a

instance (s : TimedShard T M) (a : Step) : Decidable (s.Kept δ a) :=
  inferInstanceAs (Decidable (_ ∧ _))

theorem prompt_of_run {hasher : Hasher} (hδ : δ ≤ 10 ^ 18) {ls : List Step} {s : TimedShard T M}
    (hr : ((system T M hasher).restrict (Kept δ)).Run ls s) (hclock : s.now / 10 ^ 9 < 2 ^ 63) :
    s.evictor.Prompt δ := by
  induction hr with
  | start h =>
    obtain ⟨⟨config, hinit⟩, -, hwaiting⟩ := h
    have hfirst : ∀ t, t ∉ (_ : CacheShard T M).ttlTable.first := fun t ht ↦ by
      rw [(CacheShard.initNewShard_fields hinit).1] at ht
      exact absurd ((TtlManager.first_of_empty rfl).symm.trans ht) (by simp)
    exact ⟨.inl (.inl (Option.eq_none_iff_forall_not_mem.mpr hfirst)),
      fun t ht ↦ absurd ht (hfirst t), by simp [evictor, hwaiting]⟩
  | snoc hr h ih =>
    have hclock := (seconds_le_of_step h.1).trans_lt hclock
    have hi := system_inv (hr.restrict_mono fun _ _ h ↦ h.1) hclock
    exact prompt_step hi (ih hclock) hδ hclock h.2.2 h.1

theorem seconds_le_of_foldlM {hasher : Hasher} {ms : List Step} {s₁ s : TimedShard T M}
    (hms : ms.foldlM (TransitionSystem.guarded (step hasher) (Kept δ)) s₁ = some s) :
    s₁.now / 10 ^ 9 ≤ s.now / 10 ^ 9 := by
  induction ms generalizing s₁ with
  | nil =>
    obtain rfl : s₁ = s := Option.some.inj hms
    exact le_rfl
  | cons a ms ih =>
    rw [List.foldlM_cons, Option.bind_eq_bind, Option.bind_eq_some_iff] at hms
    obtain ⟨u, hu, hms⟩ := hms
    obtain ⟨hstep, -⟩ := TransitionSystem.guarded_eq_some.mp hu
    exact (seconds_le_of_step hstep).trans (ih hms)

/-- An entry after a number of steps none of which is a call for its hash. -/
theorem holds_foldlM {hasher : Hasher} {ls ms : List Step} {s₁ s : TimedShard T M} {k : UInt64}
    {e : Entry} (hr : ((system T M hasher).restrict (Kept δ)).Run ls s₁)
    (hms : ms.foldlM (TransitionSystem.guarded (step hasher) (Kept δ)) s₁ = some s)
    (hclock : s.now / 10 ^ 9 < 2 ^ 63) (hother : ∀ a ∈ ms, ¬ a.On hasher k)
    (h : s₁.Holds k e) : s.Holds k e := by
  induction ms generalizing ls s₁ with
  | nil =>
    obtain rfl : s₁ = s := Option.some.inj hms
    exact h
  | cons a ms ih =>
    have hclock₁ := (seconds_le_of_foldlM hms).trans_lt hclock
    have hi := system_inv (hr.restrict_mono fun _ _ h ↦ h.1) hclock₁
    rw [List.foldlM_cons, Option.bind_eq_bind, Option.bind_eq_some_iff] at hms
    obtain ⟨u, hu, hms⟩ := hms
    have hstep := TransitionSystem.guarded_eq_some.mp hu
    refine ih (hr.snoc hstep) hms (fun b hb ↦ hother b (List.mem_cons_of_mem a hb)) ?_
    exact h.step hi (hother a List.mem_cons_self) hstep.1

/-- **How long an entry lives.**  When the calls come one after the other, none of them while the
goroutine evicts, the goroutine works off the fires of its timer within `δ`, at most thirty-one
years, and no further call is made for the hash of the key, then `get` returns what `set` stored
until two seconds before the duration is over, or forever when the duration is zero; and it returns
nothing any more from one second and `δ` after the duration is over on. -/
theorem lifetime {hasher : Hasher} (hδ : δ ≤ 10 ^ 18) {ls ms : List Step}
    {s₀ s : TimedShard T M} {key : Key} {entry : Bytes} {duration : Int64}
    (hr : ((system T M hasher).restrict (Kept δ)).Run ls s₀)
    (hms : (.set key entry duration :: ms).foldlM
      (TransitionSystem.guarded (step hasher) (Kept δ)) s₀ = some s)
    (hclock : s.now / 10 ^ 9 < 2 ^ 63) (hother : ∀ a ∈ ms, ¬ a.On hasher (hasher key)) :
    (duration = 0 ∨ (s.now : ℤ) + 2 * 10 ^ 9 ≤ s₀.now + duration.toInt →
      s.shard.value key (hasher key) = .ok (.ok entry)) ∧
    (duration ≠ 0 → s₀.now + duration.toInt + 10 ^ 9 + δ ≤ s.now →
      s.shard.value key (hasher key) = .ok (.error (.notFound key))) := by
  have hall := hr.append_foldlM (fun _ _ _ ↦ TransitionSystem.step_of_guarded _ _ _) hms
  have hi := system_inv (hall.restrict_mono fun _ _ h ↦ h.1) hclock
  obtain ⟨m, hrep, -⟩ := hi.rep
  have hclock₀ := (seconds_le_of_foldlM hms).trans_lt hclock
  have hi₀ := system_inv (hr.restrict_mono fun _ _ h ↦ h.1) hclock₀
  rw [List.foldlM_cons, Option.bind_eq_bind, Option.bind_eq_some_iff] at hms
  obtain ⟨s₁, h₁, hms⟩ := hms
  have hstep := TransitionSystem.guarded_eq_some.mp h₁
  obtain ⟨hset, hduration, hkey⟩ := holds_set hi₀ hstep.1
  have hholds := holds_foldlM (hr.snoc hstep) hms hclock hother hset
  have hstamp := CacheShard.toNat_expiryTimestamp hclock₀ hduration
  have hpos : 0 ≤ duration.toInt := Int64.le_iff_toInt_le.mp hduration
  constructor
  · intro hearly
    refine hrep.value_of_live (hholds.live.resolve_right ?_) hkey
    rintro ⟨hne, hle⟩
    have hduration : duration ≠ 0 := by
      rintro rfl
      exact hne rfl
    have hearly := hearly.resolve_left hduration
    rw [hstamp hduration] at hle
    omega
  · intro hne hlate
    refine hrep.value_of_not_live (fun e' he' ↦ ?_) key
    have hts := Entry.timestamp_eq_of_data_eq (hholds.only e' he')
    refine not_live_of_prompt hi (prompt_of_run hδ hall hclock) ?_ ?_ he'
    · rw [hts]
      exact expiryTimestamp_ne_zero hclock₀ hduration hne (hstep.2.1.resolve_left hne)
    · rw [hts, hstamp hne]
      omega

/-- A key is set at half a second to expire after five seconds: at three and a half seconds it is
there.  The timer fires at five and a half seconds, and at six and a half the key is gone. -/
theorem lifetime_five :
    ∃ s₀ s s' : TimedShard (SortedAssoc ℤ Ptr) (SortedAssoc UInt64 (Finset Key)),
      ((system _ _ lengthHasher).restrict (Kept 0)).Run [.set [3, 3] [9] 0] s₀ ∧
      s₀.now = 500000000 ∧
      [.set [1] [7] 5000000000, .tick 3500000000].foldlM
        (TransitionSystem.guarded (step lengthHasher) (Kept 0)) s₀ = some s ∧
      s.shard.value [1] 1 = .ok (.ok [7]) ∧
      [.set [1] [7] 5000000000, .tick 5500000000, .eviction .fire, .eviction .receive,
        .eviction .take, .eviction (.evictDel [[1]]), .eviction .next, .tick 6500000000].foldlM
          (TransitionSystem.guarded (step lengthHasher) (Kept 0)) s₀ = some s' ∧
      s'.shard.value [1] 1 = .ok (.error (.notFound [1])) := by
  obtain ⟨s₀, hr, hs⟩ := TransitionSystem.exists_run
    (S := (system (SortedAssoc ℤ Ptr) (SortedAssoc UInt64 (Finset Key)) lengthHasher).restrict
      (Kept 0)) (fun _ _ _ ↦ TransitionSystem.step_of_guarded _ _ _)
    (init_of_map lengthHasher smallConfig 500000000) (l := [.set [3, 3] [9] 0])
    (p := fun s₀ ↦ s₀.now = 500000000 ∧
      ([.set [1] [7] 5000000000, .tick 3500000000].foldlM
        (TransitionSystem.guarded (step lengthHasher) (Kept 0)) s₀).any (·.now = 3500000000) ∧
      ([.set [1] [7] 5000000000, .tick 5500000000, .eviction .fire, .eviction .receive,
        .eviction .take, .eviction (.evictDel [[1]]), .eviction .next, .tick 6500000000].foldlM
          (TransitionSystem.guarded (step lengthHasher) (Kept 0)) s₀).any (·.now = 6500000000))
    (by decide +kernel)
  obtain ⟨hnow₀, hearly, hlate⟩ := of_decide_eq_true hs
  obtain ⟨s, hms, hnow⟩ := (Option.any_eq_true _ _).mp hearly
  obtain ⟨s', hms', hnow'⟩ := (Option.any_eq_true _ _).mp hlate
  have hnow : s.now = 3500000000 := of_decide_eq_true hnow
  have hnow' : s'.now = 6500000000 := of_decide_eq_true hnow'
  have h5 : (5000000000 : Int64).toInt = 5000000000 := rfl
  refine ⟨s₀, s, s', hr, hnow₀, hms, ?_, hms', ?_⟩
  · refine (lifetime (by simp) hr hms (by rw [hnow]; decide) (by decide)).1 (.inr ?_)
    rw [hnow, hnow₀, h5]
    norm_num
  · refine (lifetime (by simp) hr hms' (by rw [hnow']; decide) (by decide)).2 (by decide) ?_
    rw [hnow', hnow₀, h5]
    norm_num

end TimedShard
end ClusteredBigCache
