import ClusteredBigCache.Lib.TransitionSystem

/-!
# Use after free

Threads use resources, and some steps of a program take a resource away.  A thread that is about to
use one *needs* it; nothing goes wrong as long as no resource that is needed is *gone*.

`Custody` says how the steps of a system change what is needed and what is gone: a step may bring a
thread to the point where it needs one more resource, or take one resource away, and while it takes
a resource away it leaves the threads that need it where they are.  `Custody.safe_iff` is then the
exact condition: nothing that is needed is gone, all along a run, if and only if no step takes away
what is needed, or comes to need what is gone.
-/

set_option autoImplicit false

universe u v w

namespace TransitionSystem

variable {σ : Type u} {ι : Type v}

/-- What the threads of a system are about to use, and what has been taken away. -/
structure Custody (S : TransitionSystem σ ι) (ρ : Type w) where
  /-- Some thread is about to use the resource. -/
  needs : σ → ρ → Prop
  /-- The resource cannot be used any more. -/
  gone : σ → ρ → Prop
  /-- What the thread of a step needs after it. -/
  acquires : σ → ι → Option ρ
  /-- What a step takes away. -/
  drops : σ → ι → Option ρ
  init_safe : ∀ s, S.init s → ∀ x, needs s x → ¬ gone s x
  needs_of_step : ∀ s a t, S.step s a t → ∀ x, needs t x → needs s x ∨ acquires s a = some x
  needs_of_acquires : ∀ s a t, S.step s a t → ∀ x ∈ acquires s a, needs t x
  gone_iff : ∀ s a t, S.step s a t → ∀ x, gone t x ↔ gone s x ∨ drops s a = some x
  needs_of_drops : ∀ s a t, S.step s a t → ∀ x ∈ drops s a, needs s x → needs t x
  drops_ne : ∀ s a, ∀ x ∈ acquires s a, drops s a ≠ some x

namespace Custody

variable {ρ : Type w} {S : TransitionSystem σ ι} (C : Custody S ρ)

/-- Nothing that is needed is gone. -/
def Safe (s : σ) : Prop := ∀ x, C.needs s x → ¬ C.gone s x

/-- A step that neither comes to need what is gone nor takes away what is needed. -/
def Ordered (s : σ) (a : ι) : Prop :=
  (∀ x ∈ C.acquires s a, ¬ C.gone s x) ∧ ∀ x ∈ C.drops s a, ¬ C.needs s x

variable {C}

theorem Safe.step {s t : σ} {a : ι} (hs : C.Safe s) (h : S.step s a t) (hok : C.Ordered s a) :
    C.Safe t := by
  intro x hneeds hgone
  rcases (C.gone_iff s a t h x).mp hgone with hgone | hdrop
  · rcases C.needs_of_step s a t h x hneeds with hneeds | hacq
    · exact hs x hneeds hgone
    · exact hok.1 x hacq hgone
  · rcases C.needs_of_step s a t h x hneeds with hneeds | hacq
    · exact hok.2 x hdrop hneeds
    · exact C.drops_ne s a x hacq hdrop

theorem Safe.ordered {s t : σ} {a : ι} (h : S.step s a t) (ht : C.Safe t) : C.Ordered s a := by
  refine ⟨fun x hacq hgone ↦ ?_, fun x hdrop hneeds ↦ ?_⟩
  · exact ht x (C.needs_of_acquires s a t h x hacq) ((C.gone_iff s a t h x).mpr (.inl hgone))
  · exact ht x (C.needs_of_drops s a t h x hdrop hneeds) ((C.gone_iff s a t h x).mpr (.inr hdrop))

/-- **The rule for use after free.** -/
theorem safe_iff (hdet : ∀ ls s t, S.Run ls s → S.Run ls t → s = t) {ls : List ι} {s : σ}
    (hr : S.Run ls s) :
    (∀ pre t, pre <+: ls → S.Run pre t → C.Safe t) ↔ (S.restrict C.Ordered).Run ls s :=
  hr.always_iff_restrict (P := C.Safe) (I := C.Safe) hdet C.init_safe (fun _ hs ↦ hs)
    (fun _ _ _ hs h hok ↦ hs.step h hok) fun _ _ _ _ h ht ↦ ht.ordered h

end Custody
end TransitionSystem
