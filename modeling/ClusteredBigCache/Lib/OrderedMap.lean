import Mathlib.Data.List.Sort
import Mathlib.Data.Finset.Basic

/-!
# Ordered finite maps

`OrderedMap M κ ν` is what a program may rely on when it keeps its data in a balanced search tree
it did not write: a type `M` of maps from `κ` to `ν` with the four operations `get`, `put`,
`remove` and the in-order walk `entries`, and the laws that tie them together.  Nothing is said
about how the map is represented, and a development that uses the class proves its results for
every representation at once.

The laws are the ones a reader expects — `get_put` and `get_remove` describe an update by what a
later lookup finds, `entries_sorted` and `mem_entries` say that the walk lists exactly the
bindings, by increasing key.  `size` and `peek` (the first binding of the walk) are derived.

`SortedAssoc κ ν`, the sorted association lists, is a model of the laws, and is what a concrete run
is evaluated with.
-/

set_option autoImplicit false

universe u v w

/-- Machine words are linearly ordered. -/
instance UInt64.instLinearOrder : LinearOrder UInt64 where
  le_refl _ := UInt64.le_refl _
  le_trans _ _ _ := UInt64.le_trans
  le_antisymm _ _ := UInt64.le_antisymm
  le_total := UInt64.le_total
  lt_iff_le_not_ge a b := by simp only [UInt64.le_iff_toNat_le, UInt64.lt_iff_toNat_lt]; omega
  toDecidableLE := inferInstance
  toDecidableEq := inferInstance
  toDecidableLT := inferInstance

/-- The operations of an ordered finite map, and the laws they satisfy. -/
class OrderedMap (M : Type u) (κ : outParam (Type v)) (ν : outParam (Type w))
    [LinearOrder κ] where
  /-- The map with no binding. -/
  empty : M
  /-- The value bound to a key. -/
  get : M → κ → Option ν
  /-- Bind a key, replacing the binding it had. -/
  put : M → κ → ν → M
  /-- Unbind a key. -/
  remove : M → κ → M
  /-- The in-order walk. -/
  entries : M → List (κ × ν)
  get_empty : ∀ k, get empty k = none
  get_put : ∀ m k v k', get (put m k v) k' = if k' = k then some v else get m k'
  get_remove : ∀ m k k', get (remove m k) k' = if k' = k then none else get m k'
  entries_sorted : ∀ m, (entries m).Pairwise fun a b ↦ a.1 < b.1
  mem_entries : ∀ m k v, (k, v) ∈ entries m ↔ get m k = some v

namespace OrderedMap

variable {M : Type u} {κ : Type v} {ν : Type w} [LinearOrder κ] [OrderedMap M κ ν]

attribute [simp] get_empty

/-- The number of bindings. -/
def size (m : M) : ℕ := (entries m).length

/-- The binding with the smallest key. -/
def peek (m : M) : Option (κ × ν) := (entries m).head?

@[simp] theorem get_put_self (m : M) (k : κ) (v : ν) : get (put m k v) k = some v := by
  simp [get_put]

theorem get_of_peek {m : M} {k : κ} {v : ν} (h : peek m = some (k, v)) : get m k = some v :=
  (mem_entries m k v).mp (List.mem_of_head? h)

/-- **The first binding has the smallest key.** -/
theorem le_of_peek {m : M} {k k' : κ} {v v' : ν} (h : peek m = some (k, v))
    (h' : get m k' = some v') : k ≤ k' := by
  have hm := (mem_entries m k' v').mpr h'
  have hs := entries_sorted m
  rw [peek, List.head?_eq_some_iff] at h
  obtain ⟨rest, he⟩ := h
  rw [he] at hm hs
  rcases List.mem_cons.mp hm with heq | hrest
  · exact (Prod.ext_iff.mp heq).1.ge
  · exact (List.rel_of_pairwise_cons hs hrest).le

theorem peek_eq_none_iff {m : M} : peek m = none ↔ ∀ k, get m k = none := by
  rw [peek, List.head?_eq_none_iff]
  constructor
  · intro h k
    cases hk : get m k with
    | none => rfl
    | some v => exact absurd ((mem_entries m k v).mpr hk) (by simp [h])
  · intro h
    refine List.eq_nil_iff_forall_not_mem.mpr ?_
    rintro ⟨k, v⟩ hm
    rw [mem_entries, h] at hm
    cases hm

/-- A binding whose key is below every bound key is the first one. -/
theorem peek_eq_some_iff {m : M} {k : κ} {v : ν} :
    peek m = some (k, v) ↔ get m k = some v ∧ ∀ k' v', get m k' = some v' → k ≤ k' := by
  refine ⟨fun h ↦ ⟨get_of_peek h, fun k' v' h' ↦ le_of_peek h h'⟩, fun ⟨hk, hle⟩ ↦ ?_⟩
  cases hp : peek m with
  | none => rw [peek_eq_none_iff.mp hp] at hk; cases hk
  | some p =>
    obtain ⟨k₁, v₁⟩ := p
    obtain rfl : k₁ = k := le_antisymm (le_of_peek hp hk) (hle k₁ v₁ (get_of_peek hp))
    rw [get_of_peek hp] at hk
    rw [Option.some_inj.mp hk]

theorem size_eq_zero_iff {m : M} : size m = 0 ↔ peek m = none := by
  simp [size, peek]

/-- One binding: the map has size one exactly when its first binding is its only one. -/
theorem size_eq_one_iff {m : M} :
    size m = 1 ↔ ∃ k v, peek m = some (k, v) ∧ ∀ k' v', get m k' = some v' → k' = k := by
  rw [size, List.length_eq_one_iff]
  constructor
  · rintro ⟨⟨k, v⟩, he⟩
    refine ⟨k, v, by simp [peek, he], fun k' v' h' ↦ ?_⟩
    rw [← mem_entries, he, List.mem_singleton, Prod.mk.injEq] at h'
    exact h'.1
  · rintro ⟨k, v, hp, hall⟩
    have hs := entries_sorted m
    rw [peek, List.head?_eq_some_iff] at hp
    obtain ⟨rest, he⟩ := hp
    refine ⟨(k, v), ?_⟩
    cases rest with
    | nil => exact he
    | cons q rest =>
      obtain ⟨k₂, v₂⟩ := q
      have hq : get m k₂ = some v₂ := (mem_entries m k₂ v₂).mp (by simp [he])
      rw [he] at hs
      have hlt : k < k₂ := List.rel_of_pairwise_cons hs List.mem_cons_self
      exact absurd (hall k₂ v₂ hq) hlt.ne'

end OrderedMap

/-! ## Sorted association lists -/

/-- The association lists with strictly increasing keys. -/
def SortedAssoc (κ : Type v) (ν : Type w) [LinearOrder κ] :=
  { l : List (κ × ν) // l.Pairwise fun a b ↦ a.1 < b.1 }

namespace SortedAssoc

variable {κ : Type v} {ν : Type w} [LinearOrder κ]

/-- The value of the pair with key `k`. -/
def get (m : SortedAssoc κ ν) (k : κ) : Option ν := (m.1.find? fun p ↦ p.1 = k).map Prod.snd

/-- Put a pair between those with a smaller and those with a larger key. -/
def put (m : SortedAssoc κ ν) (k : κ) (v : ν) : SortedAssoc κ ν :=
  ⟨(m.1.filter fun p ↦ p.1 < k) ++ (k, v) :: m.1.filter fun p ↦ k < p.1, by
    rw [List.pairwise_append, List.pairwise_cons]
    refine ⟨m.2.filter _, ⟨by simp, m.2.filter _⟩, fun a ha b hb ↦ ?_⟩
    have ha' : a.1 < k := by simpa using (List.mem_filter.mp ha).2
    rcases List.mem_cons.mp hb with rfl | hb
    · exact ha'
    · exact ha'.trans (by simpa using (List.mem_filter.mp hb).2)⟩

/-- Drop the pair with key `k`. -/
def remove (m : SortedAssoc κ ν) (k : κ) : SortedAssoc κ ν :=
  ⟨m.1.filter fun p ↦ p.1 ≠ k, m.2.filter _⟩

theorem mem_iff_get (m : SortedAssoc κ ν) (k : κ) (v : ν) : (k, v) ∈ m.1 ↔ m.get k = some v := by
  obtain ⟨l, hl⟩ := m
  induction l with
  | nil => simp [get]
  | cons p rest ih =>
    rw [List.pairwise_cons] at hl
    have ih' := ih hl.2
    simp only [get, List.mem_cons, List.find?_cons] at ih' ⊢
    by_cases hp : p.1 = k
    · have hnot : (k, v) ∉ rest := fun h ↦ (hl.1 _ h).ne hp
      simp only [hp, decide_true, Option.map_some, Option.some_inj, hnot, or_false]
      exact ⟨fun h ↦ h ▸ rfl, fun h ↦ Prod.ext hp.symm h.symm⟩
    · have hne : (k, v) ≠ p := fun h ↦ hp (h ▸ rfl)
      simpa [hp, hne] using ih'

/-- Two lookups agree when the same pairs with that key are there. -/
theorem get_congr {m m' : SortedAssoc κ ν} {k : κ} (h : ∀ v, (k, v) ∈ m.1 ↔ (k, v) ∈ m'.1) :
    m.get k = m'.get k :=
  Option.ext fun v ↦ by rw [← mem_iff_get, ← mem_iff_get, h]

instance : OrderedMap (SortedAssoc κ ν) κ ν where
  empty := ⟨[], List.Pairwise.nil⟩
  get := get
  put := put
  remove := remove
  entries m := m.1
  get_empty _ := rfl
  get_put m k v k' := by
    split
    · subst k'
      exact (mem_iff_get _ _ _).mp (by simp [put])
    · rename_i hne
      refine get_congr fun w ↦ ?_
      simp only [put, List.mem_append, List.mem_filter, List.mem_cons, decide_eq_true_eq,
        Prod.mk.injEq, hne, false_and, false_or, ← and_or_left, and_iff_left_iff_imp]
      exact fun _ ↦ lt_or_gt_of_ne hne
  get_remove m k k' := by
    split
    · subst k'
      refine Option.eq_none_iff_forall_ne_some.mpr fun w hw ↦ ?_
      simpa [remove] using (mem_iff_get _ _ _).mpr hw
    · rename_i hne
      refine get_congr fun w ↦ ?_
      simp [remove, hne]
  entries_sorted m := m.2
  mem_entries m k v := mem_iff_get m k v

end SortedAssoc
