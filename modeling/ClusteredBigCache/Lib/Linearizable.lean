import ClusteredBigCache.Lib.TransitionSystem
import Mathlib.Logic.Function.Basic

/-!
# Linearizability

Calls on a shared object overlap: each is a `call` and, later, a `ret` with a result, and the calls
of others come in between.  A history of such events is `Linearizable` when its calls can be put in
an order in which they could have been made one after the other, each at once, with the same
results, and in which a call that had returned before another one was made comes before it.

The object is given by what it does when it is called sequentially: a `TransitionSystem` whose
labels are the calls with their results.

* `LinearizedBy S H L`: the list `L` is such an order of the history `H`.  A call that has not
  returned may or may not be in it.
* `atomic S` is the object with calls that take effect at a single *point* between the call and the
  return, and `linearizable_of_atomic` says that its histories are linearizable, in the order of the
  points.  To show this of an object with steps of its own one simulates it by `atomic S`, with
  `TransitionSystem.Run.simulate`: for each step one says whether it is the point of its call.
-/

set_option autoImplicit false

universe u

/-- What can be seen of the calls. -/
inductive Event (κ ω ρ : Type u)
  | call (c : κ) (op : ω)
  | ret (c : κ) (r : ρ)

variable {κ σ ω ρ : Type u}

/-- The calls in the list, one after the other, explain the history. -/
structure LinearizedBy (S : TransitionSystem σ (ω × ρ)) (H : List (Event κ ω ρ))
    (L : List (κ × ω × ρ)) : Prop where
  /-- The object can be called in this way. -/
  legal : ∃ s, S.Run (L.map Prod.snd) s
  nodup : (L.map Prod.fst).Nodup
  called : ∀ x ∈ L, .call x.1 x.2.1 ∈ H
  returned : ∀ c r, .ret c r ∈ H → ∃ op, (c, op, r) ∈ L
  /-- What had returned before another call was made comes before it. -/
  order : ∀ c r c' op', List.Sublist [.ret c r, .call c' op'] H → ∀ x' ∈ L, x'.1 = c' →
    ∃ x : κ × ω × ρ, x.1 = c ∧ x.2.2 = r ∧ List.Sublist [x, x'] L

/-- The history can be explained by calls one after the other. -/
def Linearizable (S : TransitionSystem σ (ω × ρ)) (H : List (Event κ ω ρ)) : Prop :=
  ∃ L, LinearizedBy S H L

/-! ## Calls with a point -/

namespace AtomicCalls

/-- How far a call is. -/
inductive Status (ω ρ : Type u)
  | unused
  | invoked (op : ω)
  /-- It has taken effect and is going to return this. -/
  | effective (r : ρ)
  | returned

end AtomicCalls

/-- An object, and the calls on it. -/
structure AtomicCalls (κ σ ω ρ : Type u) where
  state : σ
  status : κ → AtomicCalls.Status ω ρ

namespace AtomicCalls

inductive Act (κ ω ρ : Type u)
  | call (c : κ) (op : ω)
  /-- The call takes effect. -/
  | point (c : κ)
  | ret (c : κ) (r : ρ)

/-- What can be seen of a step. -/
def Act.event : Act κ ω ρ → Option (Event κ ω ρ)
  | .call c op => some (.call c op)
  | .point _ => none
  | .ret c r => some (.ret c r)

variable [DecidableEq κ]

inductive Step (S : TransitionSystem σ (ω × ρ)) (s : AtomicCalls κ σ ω ρ) :
    Act κ ω ρ → AtomicCalls κ σ ω ρ → Prop
  | call {c : κ} {op : ω} (h : s.status c = .unused) :
      Step S s (.call c op) { s with status := Function.update s.status c (.invoked op) }
  | point {c : κ} {op : ω} {r : ρ} {t : σ} (h : s.status c = .invoked op)
      (hstep : S.step s.state (op, r) t) :
      Step S s (.point c) ⟨t, Function.update s.status c (.effective r)⟩
  | ret {c : κ} {r : ρ} (h : s.status c = .effective r) :
      Step S s (.ret c r) { s with status := Function.update s.status c .returned }

/-- Calls that take effect at one point. -/
def atomic (κ : Type u) [DecidableEq κ] (S : TransitionSystem σ (ω × ρ)) :
    TransitionSystem (AtomicCalls κ σ ω ρ) (Act κ ω ρ) where
  init s := S.init s.state ∧ ∀ c, s.status c = .unused
  step := Step S

/-! ## The order of the points

The order in which the calls took effect explains the history.  A call that has returned took effect
before a call that was made later, so the order respects real time. -/

/-- A pair in a list to which one was added. -/
theorem pair_sublist_concat {α : Type*} {a b x : α} {l : List α} :
    List.Sublist [a, b] (l ++ [x]) ↔ List.Sublist [a, b] l ∨ a ∈ l ∧ b = x := by
  constructor
  · intro h
    obtain ⟨l₁, l₂, hl, h₁, h₂⟩ := List.sublist_append_iff.mp h
    rcases List.sublist_singleton.mp h₂ with rfl | rfl
    · rw [List.append_nil] at hl
      exact .inl (hl ▸ h₁)
    · have hpair : [a] ++ [b] = l₁ ++ [x] := hl
      obtain ⟨rfl, hb⟩ := List.append_inj' hpair rfl
      exact .inr ⟨List.singleton_sublist.mp h₁, List.singleton_inj.mp hb⟩
  · rintro (h | ⟨ha, rfl⟩)
    · exact h.trans (List.sublist_append_left _ _)
    · exact (List.singleton_sublist.mpr ha).append (.refl _)

theorem update_cases {α : Type*} {f : κ → α} {c c' : κ} {a b : α}
    (h : Function.update f c a c' = b) : c' = c ∧ a = b ∨ c' ≠ c ∧ f c' = b := by
  rcases eq_or_ne c' c with rfl | hne
  · exact .inl ⟨rfl, (Function.update_self ..).symm.trans h⟩
  · exact .inr ⟨hne, (Function.update_of_ne hne ..).symm.trans h⟩

/-- The points that were passed, in their order, explain the history. -/
structure Inv (S : TransitionSystem σ (ω × ρ)) (H : List (Event κ ω ρ)) (L : List (κ × ω × ρ))
    (s : AtomicCalls κ σ ω ρ) : Prop where
  explains : LinearizedBy S H L
  run : S.Run (L.map Prod.snd) s.state
  unused : ∀ c, s.status c = .unused → c ∉ L.map Prod.fst
  invoked : ∀ c op, s.status c = .invoked op → c ∉ L.map Prod.fst ∧ .call c op ∈ H
  effective : ∀ c r, s.status c = .effective r → ∃ op, (c, op, r) ∈ L

section

variable {S : TransitionSystem σ (ω × ρ)} {H : List (Event κ ω ρ)} {L : List (κ × ω × ρ)}
  {s : AtomicCalls κ σ ω ρ} {c : κ} {op : ω} {r : ρ} {t : σ}

theorem Inv.call (hi : Inv S H L s) (h : s.status c = .unused) :
    Inv S (H ++ [.call c op]) L
      { s with status := Function.update s.status c (.invoked op) } where
  explains := by
    refine ⟨hi.explains.legal, hi.explains.nodup, fun x hx ↦ ?_, fun c' r hret ↦ ?_, ?_⟩
    · exact List.mem_append_left _ (hi.explains.called x hx)
    · exact hi.explains.returned c' r (by simpa using hret)
    · rintro c₁ r₁ c' op' hsub x' hx' rfl
      rcases pair_sublist_concat.mp hsub with hsub | ⟨-, heq⟩
      · exact hi.explains.order c₁ r₁ _ op' hsub x' hx' rfl
      · -- a call that is just made has not passed its point
        cases heq
        exact absurd (List.mem_map_of_mem hx') (hi.unused _ h)
  run := hi.run
  unused c' h' := by
    rcases update_cases h' with ⟨-, hst⟩ | ⟨-, h'⟩
    · cases hst
    · exact hi.unused c' h'
  invoked c' op' h' := by
    rcases update_cases h' with ⟨rfl, hst⟩ | ⟨-, h'⟩
    · cases hst
      exact ⟨hi.unused _ h, by simp⟩
    · obtain ⟨hnot, hmem⟩ := hi.invoked c' op' h'
      exact ⟨hnot, List.mem_append_left _ hmem⟩
  effective c' r h' := by
    rcases update_cases h' with ⟨-, hst⟩ | ⟨-, h'⟩
    · cases hst
    · exact hi.effective c' r h'

theorem Inv.point (hi : Inv S H L s) (h : s.status c = .invoked op)
    (hstep : S.step s.state (op, r) t) :
    Inv S H (L ++ [(c, op, r)]) ⟨t, Function.update s.status c (.effective r)⟩ := by
  obtain ⟨hnot, hcall⟩ := hi.invoked c op h
  have hrun : S.Run ((L ++ [(c, op, r)]).map Prod.snd) t := by
    rw [List.map_append]
    exact hi.run.snoc hstep
  refine ⟨⟨⟨t, hrun⟩, ?_, fun x hx ↦ ?_, fun c' r' hret ↦ ?_, ?_⟩, hrun, fun c' h' ↦ ?_,
    fun c' op' h' ↦ ?_, fun c' r' h' ↦ ?_⟩
  · rw [List.map_append, List.nodup_append]
    refine ⟨hi.explains.nodup, by simp, fun c₁ h₁ c₂ h₂ heq ↦ ?_⟩
    obtain rfl : c₂ = c := by simpa using h₂
    exact hnot (heq ▸ h₁)
  · rcases List.mem_append.mp hx with hx | hx
    · exact hi.explains.called x hx
    · obtain rfl := List.mem_singleton.mp hx
      exact hcall
  · obtain ⟨op', hmem⟩ := hi.explains.returned c' r' hret
    exact ⟨op', List.mem_append_left _ hmem⟩
  · rintro c₁ r₁ c' op' hsub x' hx' rfl
    rcases List.mem_append.mp hx' with hx' | hx'
    · obtain ⟨x, hx, hr, hpair⟩ := hi.explains.order c₁ r₁ _ op' hsub x' hx' rfl
      exact ⟨x, hx, hr, hpair.trans (List.sublist_append_left _ _)⟩
    · -- what has returned has passed its point
      obtain rfl := List.mem_singleton.mp hx'
      obtain ⟨op₁, hmem⟩ := hi.explains.returned c₁ r₁ (hsub.subset List.mem_cons_self)
      exact ⟨(c₁, op₁, r₁), rfl, rfl, pair_sublist_concat.mpr (.inr ⟨hmem, rfl⟩)⟩
  · rcases update_cases h' with ⟨-, hst⟩ | ⟨hne, h'⟩
    · cases hst
    · simpa [hne] using hi.unused c' h'
  · rcases update_cases h' with ⟨-, hst⟩ | ⟨hne, h'⟩
    · cases hst
    · simpa [hne] using hi.invoked c' op' h'
  · rcases update_cases h' with ⟨rfl, hst⟩ | ⟨-, h'⟩
    · cases hst
      exact ⟨op, by simp⟩
    · obtain ⟨op', hmem⟩ := hi.effective c' r' h'
      exact ⟨op', List.mem_append_left _ hmem⟩

theorem Inv.ret (hi : Inv S H L s) (h : s.status c = .effective r) :
    Inv S (H ++ [.ret c r]) L { s with status := Function.update s.status c .returned } := by
  have hstatus : ∀ {c' st}, Function.update s.status c .returned c' = st → st ≠ .returned →
      s.status c' = st := fun h' hst ↦
    (update_cases h').elim (fun h ↦ absurd h.2.symm hst) fun h ↦ h.2
  refine ⟨⟨hi.explains.legal, hi.explains.nodup, fun x hx ↦ ?_, fun c' r' hret ↦ ?_, ?_⟩, hi.run,
    fun c' h' ↦ hi.unused c' (hstatus h' (by simp)), fun c' op' h' ↦ ?_,
    fun c' r' h' ↦ hi.effective c' r' (hstatus h' (by simp))⟩
  · exact List.mem_append_left _ (hi.explains.called x hx)
  · rcases List.mem_append.mp hret with hret | hret
    · exact hi.explains.returned c' r' hret
    · cases List.mem_singleton.mp hret
      exact hi.effective c r h
  · rintro c₁ r₁ c' op' hsub x' hx' rfl
    rcases pair_sublist_concat.mp hsub with hsub | ⟨-, heq⟩
    · exact hi.explains.order c₁ r₁ _ op' hsub x' hx' rfl
    · cases heq
  · obtain ⟨hnot, hmem⟩ := hi.invoked c' op' (hstatus h' (by simp))
    exact ⟨hnot, List.mem_append_left _ hmem⟩

/-- **Calls that take effect at one point are linearizable**, in the order of their points. -/
theorem linearizable_of_atomic {as : List (Act κ ω ρ)} (hr : (atomic κ S).Run as s) :
    Linearizable S (as.filterMap Act.event) := by
  suffices hinv : ∃ L, Inv S (as.filterMap Act.event) L s by
    obtain ⟨L, hi⟩ := hinv
    exact ⟨L, hi.explains⟩
  induction hr with
  | start hinit =>
    obtain ⟨hinit, hunused⟩ := hinit
    refine ⟨[], ⟨⟨_, .start hinit⟩, List.nodup_nil, by simp, by simp, by simp⟩, .start hinit,
      by simp, fun c op h ↦ ?_, fun c r h ↦ ?_⟩
    · simp [hunused] at h
    · simp [hunused] at h
  | snoc hr hstep ih =>
    obtain ⟨L, hi⟩ := ih
    rw [List.filterMap_append]
    cases hstep with
    | call h => exact ⟨L, hi.call h⟩
    | @point c op r t h hstep =>
      refine ⟨L ++ [(c, op, r)], ?_⟩
      show Inv S (_ ++ []) _ _
      rw [List.append_nil]
      exact hi.point h hstep
    | ret h => exact ⟨L, hi.ret h⟩

end

end AtomicCalls
