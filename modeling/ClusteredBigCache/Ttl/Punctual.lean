import ClusteredBigCache.Ttl.Eviction
import ClusteredBigCache.Shard.Refinement

/-!
# Evictions come on time

The goroutine takes the smallest timestamp out of the tree without looking at the clock: it relies
on the timer having been armed for that timestamp.  Between the moment it receives a token and the
moment it acquires the lock of the tree that need not be so.  A `remove` can empty the head of the
tree, and a `put` can put a timestamp into an empty tree; either arms the timer anew, and then the
token stands for a timestamp that is not the head.  `premature_eviction` is such a run.

`Careful` excludes these two, `Timely` says what clock and timestamps are assumed to be, and
`punctual_eviction` is what holds then: an eviction never comes before its time, and therefore no
entry is removed by an eviction before its expiry timestamp.
-/

set_option autoImplicit false

namespace ClusteredBigCache

theorem toNat_unix {now : ℕ} (h : now / 10 ^ 9 < 2 ^ 63) :
    (unix now).toUInt64.toNat = now / 10 ^ 9 := by
  rw [unix, Int64.toUInt64_ofNat', UInt64.toNat_ofNat']
  omega

/-- **The timestamp of a duration that is not negative** is the second it was computed in, and the
seconds of the duration. -/
theorem CacheShard.toNat_expiryTimestamp {now : ℕ} {duration : Int64} (hnow : now / 10 ^ 9 < 2 ^ 63)
    (hduration : 0 ≤ duration) (hne : duration ≠ 0) :
    (expiryTimestamp now duration).toNat = now / 10 ^ 9 + duration.toInt.toNat / 10 ^ 9 := by
  have hpos : 0 ≤ duration.toInt := Int64.le_iff_toInt_le.mp hduration
  have hlt := Int64.toInt_lt duration
  have hseconds : (seconds duration).toNat = duration.toInt.toNat / 10 ^ 9 := by
    rw [seconds, Int.tdiv_eq_ediv_of_nonneg hpos, UInt64.ofInt, UInt64.toNat_ofNat']
    omega
  rw [expiryTimestamp, if_pos hne, UInt64.toNat_add, toNat_unix hnow, hseconds]
  omega

/-- Arming a timer drains its channel. -/
theorem Timer.fired_reset {timer : Timer} {now : ℕ} {t : UInt64}
    (h : timer.active → timer.fired = false) : (timer.reset now t).fired = false := by
  rw [reset, stop]
  split_ifs with hactive
  · exact h hactive
  · rfl

/-- When a timer that was armed for a near timestamp is due. -/
theorem Timer.le_due_reset {timer : Timer} {now : ℕ} {t : UInt64}
    (hnear : t.toNat ≤ now / 10 ^ 9 + 9223372036) (hnow : now / 10 ^ 9 < 2 ^ 63) :
    t.toNat ≤ now / 10 ^ 9 ∨ (t.toNat : ℤ) * 10 ^ 9 ≤ (timer.reset now t).due := by
  by_cases hpast : t.toNat ≤ now / 10 ^ 9
  · exact .inl hpast
  · have hunix : (unix now).toInt = (now / 10 ^ 9 : ℕ) := Int64.toInt_ofNat_of_lt hnow
    have hnear : |(t.toNat : ℤ) - (unix now).toInt| ≤ 9223372036 := by
      rw [hunix, abs_le]
      omega
    have hdelay := delay_eq hnear
    rw [hunix] at hdelay
    refine .inr ?_
    rw [reset, hdelay]
    simp only
    omega

namespace Evictor

open OrderedMap

variable {M : Type}

/-- The clock, in seconds. -/
def seconds (s : Evictor M) : ℕ := s.now / 10 ^ 9

/-- The clock does not go back, the timer fires when it is due and not before, and a timestamp is
made of a duration that is not negative. -/
def Timely (s : Evictor M) : Step → Prop
  | .tick now => s.now ≤ now
  | .fire => s.ttl.timer.due ≤ s.now
  | .put t _ => t.toNat ≤ s.seconds + 9223372036
  | .receive | .take | .evictDel | .next | .remove _ _ | .reset => True

instance (s : Evictor M) (a : Step) : Decidable (s.Timely a) := by
  cases a <;> unfold Timely <;> infer_instance

/-- The timestamps that `set` makes of durations that are not negative are of that kind. -/
theorem timely_put {s : Evictor M} {issued : ℕ} {duration : Int64} (hissued : issued ≤ s.now)
    (hduration : 0 ≤ duration) (hclock : s.seconds < 2 ^ 63) (k : Key) :
    s.Timely (.put (CacheShard.expiryTimestamp issued duration) k) := by
  have hle : issued / 10 ^ 9 ≤ s.seconds := Nat.div_le_div_right hissued
  rw [Timely]
  by_cases hne : duration = 0
  · rw [hne]
    exact Nat.zero_le _
  · have hlt := Int64.toInt_lt duration
    rw [CacheShard.toNat_expiryTimestamp (hle.trans_lt hclock) hduration hne]
    omega

variable [OrderedMap M UInt64 (Finset Key)]

/-- While a token is received and not processed, no call leaves a head that is in the future. -/
def Careful (s : Evictor M) : Step → Prop
  | .put t _ => s.phase = .received → s.ttl.first = none → t.toNat ≤ s.seconds
  | .remove t k => s.phase = .received →
      ∀ t' ∈ (s.ttl.remove s.now t k).first, t'.toNat ≤ s.seconds
  | .tick _ | .fire | .receive | .take | .evictDel | .next | .reset => True

/-- The one timestamp in question is compared, rather than all that there are. -/
instance (s : Evictor M) (a : Step) : Decidable (s.Careful a) := by
  cases a with
  | remove t k =>
    have := (s.ttl.remove s.now t k).first.decidableForallMem (p := fun t' ↦ t'.toNat ≤ s.seconds)
    exact inferInstanceAs (Decidable (_ → _))
  | _ => unfold Careful; infer_instance

/-- What the steps keep, as long as the clock can be read. -/
structure Punctual (s : Evictor M) : Prop where
  /-- No timestamp is further away than a duration is long. -/
  near : ∀ t, s.ttl.Has t → t.toNat ≤ s.seconds + 9223372036
  /-- A timer that is armed has no token in its channel. -/
  drained : s.ttl.timer.active → s.ttl.timer.fired = false
  /-- Outside of a pass, an armed timer is not due before the head is. -/
  armed : ¬ s.phase.InPass → s.ttl.timer.active → ∀ t ∈ s.ttl.first,
    t.toNat ≤ s.seconds ∨ (t.toNat : ℤ) * 10 ^ 9 ≤ s.ttl.timer.due
  /-- Outside of a pass, a token stands for a head that is due. -/
  fired : ¬ s.phase.InPass → s.ttl.timer.fired → ∀ t ∈ s.ttl.first, t.toNat ≤ s.seconds
  received : s.phase = .received → ∀ t ∈ s.ttl.first, t.toNat ≤ s.seconds
  evicting : ∀ t set, s.phase = .evicting t set → t.toNat ≤ s.seconds

section

variable {s s' : Evictor M} {a : Step}

theorem Punctual.tick (h : s.Punctual) {now : ℕ} (hnow : s.now ≤ now) :
    ({ s with now := now } : Evictor M).Punctual := by
  have hle : s.seconds ≤ now / 10 ^ 9 := Nat.div_le_div_right hnow
  exact {
    near := fun t ht ↦ (h.near t ht).trans (Nat.add_le_add_right hle _)
    drained := h.drained
    armed := fun hp hactive t ht ↦ (h.armed hp hactive t ht).imp_left hle.trans'
    fired := fun hp hfired t ht ↦ (h.fired hp hfired t ht).trans hle
    received := fun hp t ht ↦ (h.received hp t ht).trans hle
    evicting := fun t set hp ↦ (h.evicting t set hp).trans hle }

/-- What a call has to keep: near timestamps, and a head that is due when a token was received. -/
theorem Punctual.adjusted {ttl : TtlManager M} (h : s.Punctual) (hclock : s.seconds < 2 ^ 63)
    (ha : s.ttl.Adjusted s.now ttl) (hnear : ∀ t, ttl.Has t → t.toNat ≤ s.seconds + 9223372036)
    (hreceived : s.phase = .received → ∀ t ∈ ttl.first, t.toNat ≤ s.seconds) :
    ({ s with ttl := ttl } : Evictor M).Punctual where
  near := hnear
  received := hreceived
  evicting := h.evicting
  drained := by
    cases ha with
    | same _ htimer => exact htimer ▸ h.drained
    | emptied _ htimer => exact htimer ▸ h.drained
    | armed _ htimer => exact fun _ ↦ htimer ▸ Timer.fired_reset h.drained
  armed hp hactive t ht := by
    cases ha with
    | same hfirst htimer =>
      simp only [hfirst, htimer] at ht hactive ⊢
      exact h.armed hp hactive t ht
    | emptied hfirst => simp [hfirst] at ht
    | armed hfirst htimer =>
      obtain rfl : _ = t := Option.some_inj.mp (hfirst.symm.trans ht)
      simp only [htimer]
      exact Timer.le_due_reset (hnear _ (TtlManager.first_eq_some_iff.mp hfirst).1) hclock
  fired hp hfired t ht := by
    cases ha with
    | same hfirst htimer =>
      simp only [hfirst, htimer] at ht hfired
      exact h.fired hp hfired t ht
    | emptied hfirst => simp [hfirst] at ht
    | armed hfirst htimer =>
      simp [htimer, Timer.fired_reset h.drained] at hfired

/-- With nothing in the tree nothing can come too early. -/
theorem Punctual.of_empty (hfirst : s.ttl.first = none)
    (hdrained : s.ttl.timer.active → s.ttl.timer.fired = false)
    (hevicting : ∀ t set, s.phase = .evicting t set → t.toNat ≤ s.seconds) : s.Punctual where
  near t ht := absurd ht (TtlManager.first_eq_none_iff.mp hfirst t)
  drained := hdrained
  armed _ _ t ht := by simp [hfirst] at ht
  fired _ _ t ht := by simp [hfirst] at ht
  received _ t ht := by simp [hfirst] at ht
  evicting := hevicting

theorem has_of_remove_timeTree {ttl : TtlManager M} {t t' : UInt64}
    (h : ({ ttl with timeTree := OrderedMap.remove ttl.timeTree t } : TtlManager M).Has t') :
    ttl.Has t' := by
  simp only [TtlManager.Has, get_remove] at h
  split_ifs at h
  · cases h
  · exact h

/-- A timer that fires when it is due leaves a token that stands for a head that is due. -/
theorem Punctual.fire (h : s.Punctual) (hactive : s.ttl.timer.active)
    (hdue : s.ttl.timer.due ≤ s.now) :
    ({ s with ttl := { s.ttl with timer := s.ttl.timer.fire } } : Evictor M).Punctual := by
  refine { h with drained := ?_, armed := ?_, fired := ?_ }
  · simp [Timer.fire]
  · simp [Timer.fire]
  · intro hp _ t ht
    rcases h.armed hp hactive t ht with hhead | hhead
    · exact hhead
    · have hnow := hhead.trans hdue
      exact (Nat.le_div_iff_mul_le (by norm_num)).mpr (by exact_mod_cast hnow)

/-- The goroutine takes the keys of a timestamp that is due. -/
theorem Punctual.evicted (h : s.Punctual) {t : UInt64} (set : Finset Key)
    (hdue : t.toNat ≤ s.seconds) : ({ s with
      ttl := { s.ttl with timeTree := OrderedMap.remove s.ttl.timeTree t }
      phase := .evicting t set } : Evictor M).Punctual := by
  refine ⟨fun t' ht' ↦ h.near t' (has_of_remove_timeTree ht'), h.drained, ?_, ?_, ?_, ?_⟩
  · exact fun hp ↦ absurd trivial hp
  · exact fun hp ↦ absurd trivial hp
  · simp
  · rintro t₁ set₁ hp
    obtain ⟨rfl, rfl⟩ := Phase.evicting.inj hp
    exact hdue

/-- A pass ends by arming the timer for the head. -/
theorem Punctual.rearmed (h : s.Punctual) (hclock : s.seconds < 2 ^ 63) {t : UInt64}
    (hfirst : s.ttl.first = some t) : ({ s with
      ttl := { s.ttl with timer := s.ttl.timer.reset s.now t }
      phase := .waiting } : Evictor M).Punctual := by
  have hfired : (s.ttl.timer.reset s.now t).fired = false := Timer.fired_reset h.drained
  refine ⟨h.near, fun _ ↦ hfired, fun _ _ t' ht' ↦ ?_, fun _ hf ↦ ?_, by simp, by simp⟩
  · obtain rfl : t = t' := Option.some_inj.mp (hfirst.symm.trans ht')
    exact Timer.le_due_reset (h.near _ (TtlManager.first_eq_some_iff.mp hfirst).1) hclock
  · exact absurd (hfired.symm.trans hf) (by simp)

/-- A `put` that is timely and careful. -/
theorem Punctual.put (h : s.Punctual) (hclock : s.seconds < 2 ^ 63) {t : UInt64} {k : Key}
    (htimely : s.Timely (.put t k)) (hcareful : s.Careful (.put t k)) :
    ({ s with ttl := s.ttl.put s.now t k } : Evictor M).Punctual := by
  refine h.adjusted hclock (s.ttl.put_adjusted s.now t k) (fun t' ht' ↦ ?_) fun hp t' ht' ↦ ?_
  · rcases TtlManager.has_put.mp ht' with rfl | ht'
    · exact htimely
    · exact h.near t' ht'
  · obtain rfl := Option.some_inj.mp ((s.ttl.first_put s.now t k).symm.trans ht')
    cases hfirst : s.ttl.first with
    | none => exact hcareful hp hfirst
    | some t₀ =>
      have hle : (min t t₀).toNat ≤ t₀.toNat := UInt64.le_iff_toNat_le.mp (min_le_right t t₀)
      exact hle.trans (h.received hp t₀ hfirst)

/-- **Every step keeps the goroutine punctual.** -/
theorem Outcome.punctual (ho : Outcome s a s') (h : s.Punctual) (hclock : s.seconds < 2 ^ 63)
    (htimely : s.Timely a) (hcareful : s.Careful a) : s'.Punctual := by
  cases ho with
  | tick now => exact h.tick htimely
  | fire hactive => exact h.fire hactive htimely
  | receive hphase hfired =>
    have hout : ¬ s.phase.InPass := by simp [hphase, Phase.InPass]
    exact {
      near := h.near
      drained := fun _ ↦ rfl
      armed := fun _ ↦ h.armed hout
      fired := by simp [Timer.receive]
      received := fun _ ↦ h.fired hout hfired
      evicting := by simp }
  | idle hphase hfirst => exact .of_empty hfirst h.drained (by simp)
  | take hphase htake =>
    obtain ⟨hfirst, rfl⟩ := TtlManager.evictionTake_eq_some htake
    exact h.evicted _ (h.received hphase _ hfirst)
  | evictDel hphase =>
    exact ⟨h.near, h.drained, fun hp ↦ absurd trivial hp, fun hp ↦ absurd trivial hp, by simp,
      by simp⟩
  | next hphase hnext =>
    rcases TtlManager.evictionNext_cases hnext with ⟨t₁, set₁, hr, hnow, htake⟩ | ⟨hr, -⟩
    · obtain ⟨rfl, rfl⟩ := Prod.mk.inj (Option.some_inj.mp hr)
      obtain ⟨-, rfl⟩ := TtlManager.evictionTake_eq_some htake
      exact h.evicted _ (by rw [hnow, toNat_unix hclock, seconds])
    · cases hr
  | finish hphase hnext =>
    rcases TtlManager.evictionNext_cases hnext with
      ⟨t, set, hr, -⟩ | ⟨-, ⟨hfirst, rfl⟩ | ⟨t, hfirst, rfl⟩⟩
    · cases hr
    · exact .of_empty hfirst h.drained (by simp)
    · exact h.rearmed hclock hfirst
  | put t k => exact h.put hclock htimely hcareful
  | remove t k =>
    exact h.adjusted hclock (s.ttl.remove_adjusted s.now t k)
      (fun t' ht' ↦ h.near t' (TtlManager.has_of_remove ht')) hcareful
  | reset =>
    refine .of_empty (TtlManager.first_of_empty rfl) (fun hactive ↦ ?_) h.evicting
    simp only [TtlManager.reset, Timer.stop] at hactive ⊢
    split_ifs at hactive ⊢
    rfl

theorem Outcome.seconds_le (ho : Outcome s a s') (htimely : s.Timely a) :
    s.seconds ≤ s'.seconds := by
  cases ho with
  | tick now => exact Nat.div_le_div_right htimely
  | _ => exact le_rfl

end

theorem punctual_of_run {ls : List Step} {s : Evictor M}
    (hr : ((system M).restrict fun s a ↦ s.Timely a ∧ s.Careful a).Run ls s) :
    s.seconds < 2 ^ 63 → s.Punctual := by
  refine hr.invariant ?_ ?_
  · rintro s ⟨hnew, hphase⟩ -
    refine .of_empty ?_ ?_ ?_
    · rw [hnew]
      exact TtlManager.first_of_empty rfl
    · rw [hnew]
      exact fun _ ↦ rfl
    · simp [hphase]
  · rintro s a s' h ⟨hstep, htimely, hcareful⟩ hclock
    have ho := step_outcome hstep
    have hclock := (ho.seconds_le htimely).trans_lt hclock
    exact ho.punctual (h hclock) hclock htimely hcareful

/-- **No eviction comes too early.**  When the clock does not go back and no careless call crosses a
token, the timestamp that the goroutine passes to `evictDel` is not later than the clock; and so
`evictDel` removes an entry, from whatever shard it is called on, only at or after the expiry
timestamp of the entry. -/
theorem punctual_eviction {ls : List Step} {s : Evictor M}
    (hr : ((system M).restrict fun s a ↦ s.Timely a ∧ s.Careful a).Run ls s)
    (hclock : s.now / 10 ^ 9 < 2 ^ 63) {t : UInt64} {set : Finset Key}
    (hphase : s.phase = .evicting t set) :
    t.toNat * 10 ^ 9 ≤ s.now ∧
    ∀ {T : Type} [OrderedMap T ℤ Ptr] (hasher : Hasher) (shard shard' : CacheShard T M) (m : Table)
      (keys : List Key), shard.Rep m → shard.evictDel hasher t keys = .ok shard' →
      ∃ m', shard'.Rep m' ∧
        ∀ h e, m h = some e → m' h ≠ some e → e.timestamp.toNat * 10 ^ 9 ≤ s.now := by
  have ht := (punctual_of_run hr hclock).evicting t set hphase
  rw [seconds, Nat.le_div_iff_mul_le (by norm_num)] at ht
  refine ⟨ht, fun hasher shard shard' m keys hrep hevict ↦ ⟨_, (hrep.evictDel hevict).1, ?_⟩⟩
  intro h e hm hm'
  rw [Table.foldl_evictKey, hm] at hm'
  split_ifs at hm' with hcond
  · rwa [Option.some_inj.mp hcond.2]
  · exact absurd rfl hm'

/-- A token crosses a `put` and a `remove` that leave the head due. -/
theorem punctual_eviction_crossing :
    ∃ s : Evictor (SortedAssoc UInt64 (Finset Key)),
      ((system _).restrict fun s a ↦ s.Timely a ∧ s.Careful a).Run
        [.put 10 [1], .put 10 [2], .put 20 [3], .tick 10000000000, .fire, .receive,
          .remove 10 [1], .put 15 [1], .take] s ∧
      s.phase = .evicting 10 {[2]} ∧ (10 : UInt64).toNat * 10 ^ 9 ≤ s.now := by
  obtain ⟨s, hr, hs⟩ := TransitionSystem.exists_run_from
    (S := (system (SortedAssoc UInt64 (Finset Key))).restrict fun s a ↦ s.Timely a ∧ s.Careful a)
    (fun _ _ _ ↦ TransitionSystem.step_of_guarded _ _ _) (s := ⟨0, .new 0, .waiting⟩)
    (l := [.put 10 [1], .put 10 [2], .put 20 [3], .tick 10000000000, .fire, .receive,
      .remove 10 [1], .put 15 [1], .take])
    (p := fun s ↦ s.now / 10 ^ 9 < 2 ^ 63 ∧ s.phase = .evicting 10 {[2]})
    ⟨rfl, rfl⟩ (by decide +kernel)
  obtain ⟨hclock, hphase⟩ := of_decide_eq_true hs
  exact ⟨s, hr, hphase, (punctual_eviction hr hclock hphase).1⟩

/-- **An eviction that comes too early.**  One key expires after ten seconds and another after a
hundred.  The timer fires for the first, and before the goroutine acquires the lock the first key is
deleted; the goroutine then takes the other key, ninety seconds before its time. -/
theorem premature_eviction :
    ∃ s : Evictor (SortedAssoc UInt64 (Finset Key)),
      ((system _).restrict Timely).Run
        [.put (CacheShard.expiryTimestamp 0 10000000000) [1],
          .put (CacheShard.expiryTimestamp 0 100000000000) [2], .tick 10000000000, .fire, .receive,
          .remove (CacheShard.expiryTimestamp 0 10000000000) [1], .take] s ∧
      s.phase = .evicting (CacheShard.expiryTimestamp 0 100000000000) {[2]} ∧
      s.now < (CacheShard.expiryTimestamp 0 100000000000).toNat * 10 ^ 9 := by
  exact Exists.imp (fun s hs ↦ ⟨hs.1, of_decide_eq_true hs.2⟩)
    (TransitionSystem.exists_run_from (S := (system _).restrict Timely)
      (fun _ _ _ ↦ TransitionSystem.step_of_guarded _ _ _) (s := ⟨0, .new 0, .waiting⟩)
      ⟨rfl, rfl⟩ (by decide +kernel))

end Evictor
end ClusteredBigCache
