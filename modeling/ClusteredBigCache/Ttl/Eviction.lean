import Mathlib.Algebra.Order.Group.Abs
import Mathlib.Algebra.Order.Group.Int
import ClusteredBigCache.Lib.TransitionSystem
import ClusteredBigCache.Ttl.Manager

/-!
# The eviction goroutine

The goroutine `eviction` runs next to the calls of `put`, `remove` and `reset`; each of them, and
each of its own sections, holds the lock of the tree.  `Evictor` is the state they share: the clock,
the manager, and where the goroutine is (`Phase`).  `Evictor.step` takes one section, one tick of
the clock or one fire of the timer, and `Evictor.system` lets them follow each other in any order.

* `Adjusted` says everything an operation does to the smallest timestamp and the timer: neither
  changes, or the tree becomes empty, or the timer is armed for the timestamp that is now the
  smallest (`put_adjusted`, `remove_adjusted`, `evictionNext_cases`);
* `never_sleeps` follows: as long as the tree is not empty the timer is armed for its smallest
  timestamp, or a fire is on its way, or the goroutine is in the middle of a pass;
* `delay_eq`: the delay that `resetTimer` computes is the signed distance to the timestamp, as long
  as that distance is at most the 9223372036 seconds that a duration can hold.
-/

set_option autoImplicit false

namespace ClusteredBigCache

/-- **The wrapping subtraction and the multiplication are exact** for every timestamp near enough
to the clock, past or future. -/
theorem Timer.delay_eq {timeStamp : UInt64} {unix : Int64}
    (h : |(timeStamp.toNat : ℤ) - unix.toInt| ≤ 9223372036) :
    (delay timeStamp unix).toInt = ((timeStamp.toNat : ℤ) - unix.toInt) * 10 ^ 9 := by
  obtain ⟨hlo, hhi⟩ := abs_le.mp h
  have hstamp : timeStamp.toInt64.toInt = (timeStamp.toNat : ℤ).bmod (2 ^ 64) :=
    BitVec.toInt_eq_toNat_bmod timeStamp.toBitVec
  have hsecond : (1000000000 : Int64).toInt = 10 ^ 9 := rfl
  simp only [delay, UInt64.toInt64_sub, Int64.toInt64_toUInt64, Int64.toInt_mul, Int64.toInt_sub]
  -- reductions modulo 2 ^ 64 inside the product can be dropped, and the product is in range
  rw [Int.mul_bmod_bmod, hstamp, ← Int.mul_bmod_bmod, Int.bmod_sub_bmod, Int.mul_bmod_bmod,
    hsecond, mul_comm]
  refine Int.bmod_eq_of_le ?_ ?_ <;> omega

namespace TtlManager

open OrderedMap

variable {M : Type} [OrderedMap M UInt64 (Finset Key)]

/-! ## The smallest timestamp -/

/-- The tree has keys under the timestamp. -/
def Has (ttl : TtlManager M) (t : UInt64) : Prop := (OrderedMap.get ttl.timeTree t).isSome

instance (ttl : TtlManager M) (t : UInt64) : Decidable (ttl.Has t) :=
  inferInstanceAs (Decidable (_ = true))

theorem first_eq_some_iff {ttl : TtlManager M} {t : UInt64} :
    ttl.first = some t ↔ ttl.Has t ∧ ∀ t', ttl.Has t' → t ≤ t' := by
  simp only [first, Has, Option.map_eq_some_iff, Prod.exists, exists_eq_right, peek_eq_some_iff,
    Option.isSome_iff_exists, exists_and_right]
  exact and_congr_right fun _ ↦ ⟨fun h t' ⟨v, hv⟩ ↦ h t' v hv, fun h t' v hv ↦ h t' ⟨v, hv⟩⟩

theorem first_eq_none_iff {ttl : TtlManager M} : ttl.first = none ↔ ∀ t, ¬ ttl.Has t := by
  simp [first, Has, peek_eq_none_iff]

theorem first_of_empty {ttl : TtlManager M} (h : ttl.timeTree = OrderedMap.empty) :
    ttl.first = none :=
  first_eq_none_iff.mpr fun t ↦ by simp [Has, h]

/-- The smallest timestamp depends on which timestamps there are only. -/
theorem first_congr {ttl ttl' : TtlManager M} (h : ∀ t, ttl'.Has t ↔ ttl.Has t) :
    ttl'.first = ttl.first := by
  refine Option.ext fun t ↦ ?_
  simp only [first_eq_some_iff, h]

theorem has_put {ttl : TtlManager M} {now : ℕ} {t t' : UInt64} {k : Key} :
    (ttl.put now t k).Has t' ↔ t' = t ∨ ttl.Has t' := by
  simp only [Has, put_timeTree, get_put]
  split_ifs with h <;> simp [h]

/-- **The smallest timestamp after a `put`.** -/
theorem first_put (ttl : TtlManager M) (now : ℕ) (t : UInt64) (k : Key) :
    (ttl.put now t k).first = some (ttl.first.elim t (min t)) := by
  simp only [first_eq_some_iff, has_put]
  cases h : ttl.first with
  | none =>
    have hnone := first_eq_none_iff.mp h
    exact ⟨.inl rfl, by rintro t' (rfl | ht'); exacts [le_rfl, absurd ht' (hnone t')]⟩
  | some t₀ =>
    obtain ⟨hhas, hle⟩ := first_eq_some_iff.mp h
    refine ⟨?_, ?_⟩
    · rcases min_choice t t₀ with hmin | hmin
      · exact .inl hmin
      · refine .inr ?_
        rwa [Option.elim_some, hmin]
    · rintro t' (rfl | ht')
      · exact min_le_left _ _
      · exact (min_le_right _ _).trans (hle t' ht')

/-- `put` arms the timer when the timestamp is new and at the head. -/
theorem put_timer (ttl : TtlManager M) (now : ℕ) (t : UInt64) (k : Key) :
    (ttl.put now t k).timer =
      if ¬ ttl.Has t ∧ (ttl.put now t k).first = some t then ttl.timer.reset now t
      else ttl.timer := by
  cases hget : OrderedMap.get ttl.timeTree t with
  | some set =>
    rw [if_neg (by simp [Has, hget]), put, hget]
  | none =>
    have hfirst : (ttl.put now t k).first =
        (peek (OrderedMap.put ttl.timeTree t {k})).map Prod.fst := by
      rw [first, put_timeTree, hget]
      rfl
    rw [hfirst, put, hget]
    have hhas : ¬ ttl.Has t := by simp [Has, hget]
    by_cases hhead : (peek (OrderedMap.put ttl.timeTree t {k})).map Prod.fst = some t
    · simp only [first, hhas, hhead, not_false_eq_true, and_self, if_true, ite_self]
      rfl
    · -- a tree of size one has the timestamp at its head
      have hsize : size (OrderedMap.put ttl.timeTree t {k}) ≠ 1 := fun hsize ↦ by
        obtain ⟨t₀, set, hp, hall⟩ := size_eq_one_iff.mp hsize
        exact hhead (by rw [hp, hall t {k} (get_put_self _ _ _)]; rfl)
      simp only [first, hhead, hsize, and_false, if_false]

theorem has_of_remove {ttl : TtlManager M} {now : ℕ} {t t' : UInt64} {k : Key}
    (h : (ttl.remove now t k).Has t') : ttl.Has t' := by
  simp only [Has, get_remove_timeTree] at h ⊢
  split_ifs at h with ht
  · obtain ⟨_, hset, -⟩ := Option.bind_eq_some_iff.mp (Option.some_get h).symm
    simp [ht, hset]
  · exact h

/-- Removing another timestamp than the smallest does not change the smallest. -/
theorem first_remove_of_ne {ttl : TtlManager M} {t : UInt64} (h : ttl.first ≠ some t) :
    ({ ttl with timeTree := OrderedMap.remove ttl.timeTree t } : TtlManager M).first =
      ttl.first := by
  have hhas : ∀ t', ({ ttl with timeTree := OrderedMap.remove ttl.timeTree t } :
      TtlManager M).Has t' ↔ ttl.Has t' ∧ t' ≠ t := fun t' ↦ by
    by_cases ht : t' = t <;> simp [Has, get_remove, ht]
  cases hf : ttl.first with
  | none => exact first_eq_none_iff.mpr fun t' ht' ↦ first_eq_none_iff.mp hf t' ((hhas t').mp ht').1
  | some t₀ =>
    obtain ⟨h₀, hle⟩ := first_eq_some_iff.mp hf
    have hne : t₀ ≠ t := by
      rintro rfl
      exact h hf
    exact first_eq_some_iff.mpr
      ⟨(hhas t₀).mpr ⟨h₀, hne⟩, fun t' ht' ↦ hle t' ((hhas t').mp ht').1⟩

/-- What an operation does to the smallest timestamp and the timer. -/
inductive Adjusted (ttl : TtlManager M) (now : ℕ) (ttl' : TtlManager M) : Prop
  | same (hfirst : ttl'.first = ttl.first) (htimer : ttl'.timer = ttl.timer)
  | emptied (hfirst : ttl'.first = none) (htimer : ttl'.timer = ttl.timer)
  | armed {t : UInt64} (hfirst : ttl'.first = some t)
      (htimer : ttl'.timer = ttl.timer.reset now t)

theorem put_adjusted (ttl : TtlManager M) (now : ℕ) (t : UInt64) (k : Key) :
    Adjusted ttl now (ttl.put now t k) := by
  have htimer := put_timer ttl now t k
  by_cases hhas : ttl.Has t
  · rw [if_neg (by simp [hhas])] at htimer
    refine .same (first_congr fun t' ↦ has_put.trans (or_iff_right_of_imp ?_)) htimer
    rintro rfl
    exact hhas
  · by_cases hfirst : (ttl.put now t k).first = some t
    · rw [if_pos ⟨hhas, hfirst⟩] at htimer
      exact .armed hfirst htimer
    · rw [if_neg (by simp [hfirst])] at htimer
      refine .same ?_ htimer
      rw [first_put] at hfirst ⊢
      cases hf : ttl.first with
      | none => simp [hf] at hfirst
      | some t₀ =>
        rw [hf] at hfirst
        rcases min_choice t t₀ with hmin | hmin
        · exact absurd (congrArg some hmin) hfirst
        · exact congrArg some hmin

theorem remove_adjusted (ttl : TtlManager M) (now : ℕ) (t : UInt64) (k : Key) :
    Adjusted ttl now (ttl.remove now t k) := by
  rw [remove]
  cases hget : OrderedMap.get ttl.timeTree t with
  | none => exact .same rfl rfl
  | some set =>
    -- writing the smaller set back does not change which timestamps there are
    have hback : ({ ttl with timeTree := OrderedMap.put ttl.timeTree t (set.erase k) } :
        TtlManager M).first = ttl.first := by
      refine first_congr fun t' ↦ ?_
      simp only [Has, get_put]
      split_ifs with ht <;> simp [ht, hget]
    simp only [hback]
    split_ifs with hempty hfirst
    · split
      · next t₀ ht₀ => exact .armed ht₀ rfl
      · next hnone => exact .emptied hnone rfl
    · refine .same ?_ rfl
      rw [← hback] at hfirst ⊢
      exact first_remove_of_ne hfirst
    · exact .same hback rfl

/-- What the first section of a pass takes. -/
theorem evictionTake_eq_some {ttl ttl' : TtlManager M} {t : UInt64} {set : Finset Key}
    (h : ttl.evictionTake = (ttl', some (t, set))) :
    ttl.first = some t ∧ ttl' = { ttl with timeTree := OrderedMap.remove ttl.timeTree t } := by
  rw [evictionTake] at h
  cases hp : peek ttl.timeTree with
  | none => simp [hp] at h
  | some p =>
    simp only [hp, Prod.mk.injEq, Option.some_inj] at h
    obtain ⟨rfl, rfl, -⟩ := h
    exact ⟨by rw [first, hp]; rfl, rfl⟩

theorem evictionTake_eq_none {ttl ttl' : TtlManager M} (h : ttl.evictionTake = (ttl', none)) :
    ttl' = ttl := by
  rw [evictionTake] at h
  cases hp : peek ttl.timeTree <;> simp_all

/-- What the head of the inner loop does: it takes the timestamp of this second out of the tree, or
it leaves the tree as it is, and then it is empty or the timer is armed for its head. -/
theorem evictionNext_cases {ttl ttl' : TtlManager M} {now : ℕ} {r : Option (UInt64 × Finset Key)}
    (h : ttl.evictionNext now = (ttl', r)) :
    (∃ t set, r = some (t, set) ∧ t = (unix now).toUInt64 ∧
      ttl.evictionTake = (ttl', some (t, set))) ∨
    r = none ∧ (ttl.first = none ∧ ttl' = ttl ∨
      ∃ t, ttl.first = some t ∧ ttl' = ttl.resetTimer now t) := by
  rw [evictionNext] at h
  cases hp : peek ttl.timeTree with
  | none =>
    simp only [hp, Prod.mk.injEq] at h
    obtain ⟨rfl, rfl⟩ := h
    exact .inr ⟨rfl, .inl ⟨by rw [first, hp]; rfl, rfl⟩⟩
  | some p =>
    obtain ⟨t, set⟩ := p
    simp only [hp] at h
    split_ifs at h with hnow
    · obtain ⟨rfl, rfl⟩ := Prod.mk.inj h
      exact .inl ⟨t, set, rfl, by simpa using UInt64.sub_eq_iff_eq_add.mp hnow,
        by rw [evictionTake, hp]⟩
    · obtain ⟨rfl, rfl⟩ := Prod.mk.inj h
      exact .inr ⟨rfl, .inr ⟨t, congrArg (Option.map Prod.fst) hp, rfl⟩⟩

end TtlManager

/-! ## The goroutine and the calls, section by section -/

/-- Where the goroutine is. -/
inductive Phase
  /-- It waits for a token. -/
  | waiting
  /-- It has received a token, and not yet acquired the lock of the tree. -/
  | received
  /-- It took a timestamp and its keys out of the tree, and is about to call `evictDel`. -/
  | evicting (timeStamp : UInt64) (set : Finset Key)
  /-- It is at the head of the inner loop. -/
  | looping
  deriving DecidableEq

/-- In the middle of a pass: something was taken out of the tree, and the loop goes on. -/
def Phase.InPass : Phase → Prop
  | .waiting => False
  | .received => False
  | .evicting _ _ => True
  | .looping => True

/-- The clock, the manager and the goroutine. -/
structure Evictor (M : Type) where
  now : ℕ
  ttl : TtlManager M
  phase : Phase

namespace Evictor

open OrderedMap

variable {M : Type} [OrderedMap M UInt64 (Finset Key)]

/-- What can happen next. -/
inductive Step
  /-- The clock shows another time. -/
  | tick (now : ℕ)
  /-- The runtime puts a token into the channel of the timer. -/
  | fire
  /-- The goroutine takes it. -/
  | receive
  /-- The goroutine takes the head of the tree. -/
  | take
  /-- The goroutine calls `evictDel`. -/
  | evictDel
  /-- The section at the head of the inner loop. -/
  | next
  | put (timestamp : UInt64) (key : Key)
  | remove (timestamp : UInt64) (key : Key)
  | reset

/-- After a section that may have taken a timestamp out of the tree: where the goroutine is. -/
def taken (s : Evictor M) (r : TtlManager M × Option (UInt64 × Finset Key)) : Evictor M :=
  { s with
    ttl := r.1
    phase := r.2.elim .waiting fun p ↦ .evicting p.1 p.2 }

/-- One step, where it can be taken. -/
def step (s : Evictor M) : Step → Option (Evictor M)
  | .tick now => some { s with now := now }
  | .fire =>
    if s.ttl.timer.active then some { s with ttl.timer := s.ttl.timer.fire } else none
  | .receive =>
    if s.phase = .waiting ∧ s.ttl.timer.fired then
      some { s with ttl.timer := s.ttl.timer.receive, phase := .received }
    else none
  | .take => if s.phase = .received then some (s.taken s.ttl.evictionTake) else none
  | .evictDel =>
    match s.phase with
    | .evicting _ _ => some { s with phase := .looping }
    | _ => none
  | .next => if s.phase = .looping then some (s.taken (s.ttl.evictionNext s.now)) else none
  | .put timestamp key => some { s with ttl := s.ttl.put s.now timestamp key }
  | .remove timestamp key => some { s with ttl := s.ttl.remove s.now timestamp key }
  | .reset => some { s with ttl := s.ttl.reset }

/-- A new manager, and everything that can happen to it. -/
def system (M : Type) [OrderedMap M UInt64 (Finset Key)] : TransitionSystem (Evictor M) Step :=
  .ofStep (fun s ↦ s.ttl = .new s.now ∧ s.phase = .waiting) step

/-- Everything a step can do. -/
inductive Outcome (s : Evictor M) : Step → Evictor M → Prop
  | tick (now : ℕ) : Outcome s (.tick now) { s with now := now }
  | fire (hactive : s.ttl.timer.active) :
      Outcome s .fire { s with ttl.timer := s.ttl.timer.fire }
  | receive (hphase : s.phase = .waiting) (hfired : s.ttl.timer.fired) :
      Outcome s .receive { s with ttl.timer := s.ttl.timer.receive, phase := .received }
  | idle (hphase : s.phase = .received) (hfirst : s.ttl.first = none) :
      Outcome s .take { s with phase := .waiting }
  | take {ttl : TtlManager M} {t : UInt64} {set : Finset Key} (hphase : s.phase = .received)
      (htake : s.ttl.evictionTake = (ttl, some (t, set))) :
      Outcome s .take { s with ttl := ttl, phase := .evicting t set }
  | evictDel {t : UInt64} {set : Finset Key} (hphase : s.phase = .evicting t set) :
      Outcome s .evictDel { s with phase := .looping }
  | next {ttl : TtlManager M} {t : UInt64} {set : Finset Key} (hphase : s.phase = .looping)
      (hnext : s.ttl.evictionNext s.now = (ttl, some (t, set))) :
      Outcome s .next { s with ttl := ttl, phase := .evicting t set }
  | finish {ttl : TtlManager M} (hphase : s.phase = .looping)
      (hnext : s.ttl.evictionNext s.now = (ttl, none)) :
      Outcome s .next { s with ttl := ttl, phase := .waiting }
  | put (t : UInt64) (k : Key) : Outcome s (.put t k) { s with ttl := s.ttl.put s.now t k }
  | remove (t : UInt64) (k : Key) : Outcome s (.remove t k) { s with ttl := s.ttl.remove s.now t k }
  | reset : Outcome s .reset { s with ttl := s.ttl.reset }

/-- **A step does one of these.** -/
theorem step_outcome {s s' : Evictor M} {a : Step} (hstep : step s a = some s') :
    Outcome s a s' := by
  unfold step at hstep
  cases a with
  | tick now => cases hstep; exact .tick now
  | fire =>
    obtain ⟨hactive, hs⟩ := Option.ite_none_right_eq_some.mp hstep
    cases hs
    exact .fire hactive
  | receive =>
    obtain ⟨⟨hphase, hfired⟩, hs⟩ := Option.ite_none_right_eq_some.mp hstep
    cases hs
    exact .receive hphase hfired
  | take =>
    obtain ⟨hphase, hs⟩ := Option.ite_none_right_eq_some.mp hstep
    cases hs
    cases hp : peek s.ttl.timeTree with
    | none =>
      have htake : s.ttl.evictionTake = (s.ttl, none) := by rw [TtlManager.evictionTake, hp]
      rw [htake]
      exact .idle hphase (by rw [TtlManager.first, hp]; rfl)
    | some p =>
      have htake : s.ttl.evictionTake = ({ s.ttl with
          timeTree := OrderedMap.remove s.ttl.timeTree p.1 }, some (p.1, p.2)) := by
        rw [TtlManager.evictionTake, hp]
      rw [htake]
      exact .take hphase htake
  | evictDel =>
    cases hphase : s.phase with
    | evicting t set =>
      simp only [hphase, Option.some_inj] at hstep
      cases hstep
      exact .evictDel hphase
    | waiting => simp [hphase] at hstep
    | received => simp [hphase] at hstep
    | looping => simp [hphase] at hstep
  | next =>
    obtain ⟨hphase, hs⟩ := Option.ite_none_right_eq_some.mp hstep
    cases hs
    cases hnext : s.ttl.evictionNext s.now with
    | mk ttl r =>
      cases r with
      | none => exact .finish hphase hnext
      | some p => exact .next hphase hnext
  | put t k => cases hstep; exact .put t k
  | remove t k => cases hstep; exact .remove t k
  | reset => cases hstep; exact .reset

/-! ## No pending work is forgotten

`Settled` is how a call leaves the index: it is empty, or the timer is armed for the smallest
timestamp.  When it is not so, there is a token in the channel or a pass is under way, and at the
end of the pass it is so again. -/

/-- The timer is armed, and its last `Reset` was computed from the smallest timestamp. -/
def Armed (s : Evictor M) : Prop := s.ttl.timer.active ∧ s.ttl.timer.stamp = s.ttl.first

/-- The tree is empty, or the timer is armed for its head. -/
def Settled (s : Evictor M) : Prop := s.ttl.first = none ∨ s.Armed

/-- There is no work, or something will come for it. -/
def Awake (s : Evictor M) : Prop := s.Settled ∨ s.ttl.timer.fired ∨ s.phase ≠ .waiting

section

variable {s s' : Evictor M} {a : Step}

theorem settled_of_reset {ttl : TtlManager M} {now : ℕ} {t : UInt64}
    (hfirst : s.ttl.first = some t) (htimer : s.ttl.timer = ttl.timer.reset now t) :
    s.Settled :=
  .inr ⟨by rw [htimer]; rfl, by rw [htimer, hfirst]; rfl⟩

theorem settled_of_evictionNext {ttl : TtlManager M} {now : ℕ}
    (h : ttl.evictionNext now = (s.ttl, none)) : s.Settled := by
  rcases TtlManager.evictionNext_cases h with
    ⟨t, set, hr, -⟩ | ⟨-, ⟨hfirst, hs⟩ | ⟨t, hfirst, hs⟩⟩
  · cases hr
  · exact .inl (hs ▸ hfirst)
  · exact settled_of_reset (hs ▸ hfirst) (congrArg TtlManager.timer hs)

/-- **When a pass ends**, the tree is empty or the timer is armed for its head. -/
theorem Outcome.settled (ho : Outcome s a s') (hpass : s.phase.InPass) (hend : ¬ s'.phase.InPass) :
    s'.phase = .waiting ∧ s'.Settled := by
  cases ho with
  | finish hphase hnext => exact ⟨rfl, settled_of_evictionNext hnext⟩
  | receive hphase => simp [hphase, Phase.InPass] at hpass
  | idle hphase => simp [hphase, Phase.InPass] at hpass
  | take hphase => simp [Phase.InPass] at hend
  | evictDel => simp [Phase.InPass] at hend
  | next => simp [Phase.InPass] at hend
  | tick | fire | put | remove | reset => exact absurd hpass hend

/-- A call keeps the goroutine awake. -/
theorem Awake.adjusted {ttl : TtlManager M} (h : s.Awake) (ha : s.ttl.Adjusted s.now ttl) :
    ({ s with ttl := ttl } : Evictor M).Awake := by
  cases ha with
  | same hfirst htimer => simpa only [Awake, Settled, Armed, hfirst, htimer] using h
  | emptied hfirst htimer => exact .inl (.inl hfirst)
  | armed hfirst htimer => exact .inl (settled_of_reset hfirst htimer)

/-- Every step keeps the goroutine awake. -/
theorem Outcome.awake (ho : Outcome s a s') (h : s.Awake) : s'.Awake := by
  cases ho with
  | tick => exact h
  | fire => exact .inr (.inl rfl)
  | receive => exact .inr (.inr (by simp))
  | idle _ hfirst => exact .inl (.inl hfirst)
  | take => exact .inr (.inr (by simp))
  | evictDel => exact .inr (.inr (by simp))
  | next => exact .inr (.inr (by simp))
  | finish _ hnext => exact .inl (settled_of_evictionNext hnext)
  | put t k => exact h.adjusted (s.ttl.put_adjusted s.now t k)
  | remove t k => exact h.adjusted (s.ttl.remove_adjusted s.now t k)
  | reset => exact .inl (.inl (TtlManager.first_of_empty rfl))

end

/-- **The timer never goes to sleep on pending work.**  Whatever the order of the sections, when
the tree is not empty the timer is armed for its smallest timestamp, or a fire is pending or
received and not yet processed, or the goroutine is in the middle of a pass; and a pass ends with
an empty tree or with the timer armed for its smallest timestamp.  The delay the timer is armed
with is the signed number of seconds to the timestamp. -/
theorem never_sleeps {ls : List Step} {s : Evictor M} (hr : (system M).Run ls s) :
    (size s.ttl.timeTree ≠ 0 →
      s.Armed ∨ (s.ttl.timer.fired ∨ s.phase = .received) ∨ s.phase.InPass) ∧
    (∀ a s', (system M).step s a s' → s.phase.InPass → ¬ s'.phase.InPass →
      s'.phase = .waiting ∧ (size s'.ttl.timeTree = 0 ∨ s'.Armed)) ∧
    ∀ (timeStamp : UInt64) (unix : Int64),
      |(timeStamp.toNat : ℤ) - unix.toInt| ≤ 9223372036 →
        (Timer.delay timeStamp unix).toInt = ((timeStamp.toNat : ℤ) - unix.toInt) * 10 ^ 9 := by
  have hempty : ∀ s : Evictor M, s.ttl.first = none → size s.ttl.timeTree = 0 := by
    intro s h
    exact size_eq_zero_iff.mpr (Option.map_eq_none_iff.mp h)
  have hawake : s.Awake := by
    refine hr.invariant ?_ ?_
    · rintro s ⟨hnew, -⟩
      refine .inl (.inl ?_)
      rw [hnew]
      exact TtlManager.first_of_empty rfl
    · intro s a s' h hstep
      exact (step_outcome hstep).awake h
  refine ⟨fun hwork ↦ ?_, fun a s' hstep hpass hend ↦ ?_, fun _ _ ↦ Timer.delay_eq⟩
  · rcases hawake with (hnone | harmed) | hfired | hphase
    · exact absurd (hempty s hnone) hwork
    · exact .inl harmed
    · exact .inr (.inl (.inl hfired))
    · cases hp : s.phase with
      | waiting => exact absurd hp hphase
      | received => exact .inr (.inl (.inr rfl))
      | evicting => exact .inr (.inr trivial)
      | looping => exact .inr (.inr trivial)
  · obtain ⟨hwaiting, hsettled⟩ := (step_outcome hstep).settled hpass hend
    exact ⟨hwaiting, hsettled.imp_left (hempty s')⟩

/-- A run in which a fire crosses a `remove`, and a pass that leaves one timestamp. -/
theorem never_sleeps_crossing :
    ∃ s : Evictor (SortedAssoc UInt64 (Finset Key)), (system _).Run
        [.put 10 [1], .put 5 [2], .put 7 [3], .tick 5000000000, .fire, .receive, .remove 5 [2],
          .tick 7000000000, .fire, .take, .evictDel, .next] s ∧
      size s.ttl.timeTree ≠ 0 ∧
      (s.Armed ∨ (s.ttl.timer.fired ∨ s.phase = .received) ∨ s.phase.InPass) := by
  exact Exists.imp (fun s hs ↦ ⟨hs.1, of_decide_eq_true hs.2,
    (never_sleeps hs.1).1 (of_decide_eq_true hs.2)⟩)
    (TransitionSystem.exists_run_from (S := system _) (fun _ _ _ ↦ id)
      (s := ⟨0, .new 0, .waiting⟩) ⟨rfl, rfl⟩ (by decide +kernel))

end Evictor
end ClusteredBigCache
