import ClusteredBigCache.Lib.TransitionSystem
import ClusteredBigCache.Queue.FreeListSpec

/-!
# The free list over whole runs

`FreeListSpec` says what one call of `add` or `find` does.  Here the calls come one after the other,
from an empty list on, and three questions are asked about every state they can lead to.

* *Is anything handed out twice?*  A `Ledger` is a free list together with what its user knows: the
  blocks that were ever added, and the regions that `find` returned and that were not added back.
  `no_double_allocation` says that the size lists hold separate blocks, each in its place and under
  its two keys, and that what `find` returns is free.
* *Is anything lost?*  `coalescing_lossless_iff`: a block that is added between two recorded blocks
  takes the one before it out of the list, and nothing else is ever lost.
* *Is everything found?*  `find_complete_iff`: a block of exactly 4096 bytes is in no size list, and
  is found only in the sense that a larger one is found in its place.

Blocks are added at the positions of an array, which are not negative.  So `find` returns `-1` only
when it has found nothing.
-/

set_option autoImplicit false

namespace ClusteredBigCache
namespace FreeList

open OrderedMap

variable {T : Type} [OrderedMap T ℤ Ptr] {l : FreeList T} {index size : ℤ}

/-! ## What can be decided -/

theorem recorded_iff_mem_entries {p : Ptr} :
    l.Recorded p ↔ ∃ e ∈ entries l.indexTree, e.2 = p := by
  constructor
  · rintro ⟨k, hk⟩
    exact ⟨(k, p), (mem_entries _ _ _).mpr hk, rfl⟩
  · rintro ⟨e, he, rfl⟩
    exact ⟨e.1, (mem_entries _ _ _).mp he⟩

instance (p : Ptr) : Decidable (l.Recorded p) := decidable_of_iff _ recorded_iff_mem_entries.symm

theorem mem_covered_iff {x : ℤ} : x ∈ l.covered ↔
    ∃ e ∈ entries l.indexTree, l.start e.2 ≤ x ∧ x < l.start e.2 + l.len e.2 := by
  constructor
  · rintro ⟨p, hp, hx⟩
    obtain ⟨e, he, rfl⟩ := recorded_iff_mem_entries.mp hp
    exact ⟨e, he, hx⟩
  · rintro ⟨e, he, hx⟩
    exact ⟨e.2, recorded_iff_mem_entries.mpr ⟨e, he, rfl⟩, hx⟩

instance (x : ℤ) : Decidable (x ∈ l.covered) := decidable_of_iff _ mem_covered_iff.symm

/-- The range overlaps no recorded block. -/
def Outside (l : FreeList T) (index size : ℤ) : Prop :=
  ∀ e ∈ entries l.indexTree, l.start e.2 + l.len e.2 ≤ index ∨ index + size ≤ l.start e.2

instance : Decidable (l.Outside index size) := inferInstanceAs (Decidable (∀ _ ∈ _, _))

theorem Outside.uncovered (h : l.Outside index size) : l.Uncovered index size := by
  intro x hx hx' hmem
  obtain ⟨e, he, hstart, hend⟩ := mem_covered_iff.mp hmem
  rcases h e he with h | h <;> omega

/-- There is a recorded block right before the range, and one right after it. -/
def Between (l : FreeList T) (index size : ℤ) : Prop :=
  (get l.indexTree (index - 1)).isSome ∧ (get l.indexTree (index + size)).isSome

instance : Decidable (l.Between index size) := inferInstanceAs (Decidable (_ ∧ _))

/-! ## What one call does -/

/-- What is lost is a recorded block if the range is between two of them, and nothing otherwise. -/
theorem lost_cases (h : l.WF) (index size : ℤ) :
    (l.Between index size ∧ l.lost index size ⊆ l.covered ∧ (l.lost index size).Nonempty) ∨
      (¬ l.Between index size ∧ l.lost index size = ∅) := by
  rw [Between, lost]
  cases hleft : get l.indexTree (index - 1) with
  | none => exact .inr ⟨by simp, rfl⟩
  | some v =>
    cases hright : get l.indexTree (index + size) with
    | none => exact .inr ⟨by simp, rfl⟩
    | some w =>
      have hv : l.Recorded v := ⟨_, hleft⟩
      exact .inl ⟨⟨rfl, rfl⟩, block_subset_covered hv,
        ⟨l.start v, mem_block.mpr ⟨le_rfl, by have := h.len_pos v hv; omega⟩⟩⟩

/-- **A range is added without loss** if and only if it is not between two recorded blocks. -/
theorem covered_add_iff (h : l.WF) (hu : l.Uncovered index size) (hs : 1 ≤ size) :
    (l.add index size).covered = l.covered ∪ Set.Ico index (index + size) ↔
      ¬ l.Between index size := by
  rw [(add_spec h hu hs).2]
  rcases lost_cases h index size with ⟨hb, hsub, x, hx⟩ | ⟨hb, hempty⟩
  · refine iff_of_false (fun heq ↦ ?_) (not_not.mpr hb)
    have hmem : x ∈ l.covered ∪ Set.Ico index (index + size) := .inl (hsub hx)
    rw [← heq] at hmem
    exact hmem.2 hx
  · exact iff_of_true (by rw [hempty, Set.sdiff_empty]) hb

theorem covered_add_subset (h : l.WF) (hu : l.Uncovered index size) (hs : 1 ≤ size) :
    (l.add index size).covered ⊆ l.covered ∪ Set.Ico index (index + size) := by
  rw [(add_spec h hu hs).2]
  exact Set.sdiff_subset

/-- The blocks are at the positions of an array. -/
def InArray (l : FreeList T) : Prop := ∀ x ∈ l.covered, 0 ≤ x

/-- Where a region is taken, the list changes. -/
theorem Took.start_mem {i : ℤ} {l' : FreeList T} (ht : Took l size i l') (hs : 1 ≤ size) :
    i ∈ l.covered ∧ i ∉ l'.covered := by
  have hi : i ∈ Set.Ico i (i + size) := Set.mem_Ico.mpr (by omega)
  rw [ht.covered_eq]
  exact ⟨ht.subset hi, fun hmem ↦ hmem.2 hi⟩

/-- What `find` returns says whether a region was taken. -/
theorem InArray.find_cases (h : l.InArray) (hw : l.WF) (hs : 1 ≤ size) :
    l.find size = (l, -1) ∨ Took l size (l.find size).2 (l.find size).1 ∧ (l.find size).2 ≠ -1 := by
  refine (find_spec hw hs).imp id fun ht ↦ ⟨ht, fun heq ↦ ?_⟩
  have hpos := h _ (ht.start_mem hs).1
  omega

/-! ## The size lists

Each recorded block, unless it has exactly 4096 bytes, is in the list of its size class, and blocks
in the lists do not even touch. -/

/-- One of the size lists holds the block. -/
def Held (l : FreeList T) (p : Ptr) : Prop := ∃ b, p ∈ l.sizeList b

/-- The size lists hold separate blocks, each in its place and under its two keys. -/
structure Sorted (l : FreeList T) : Prop where
  /-- Two blocks neither overlap nor touch. -/
  apart : ∀ p q, l.Held p → l.Held q → p ≠ q →
    l.start p + l.len p < l.start q ∨ l.start q + l.len q < l.start p
  /-- A block is in the list of its size, once, and in no other one. -/
  once : ∀ p, l.Held p → ∃ b, sizeClass (l.len p) = some b ∧
    ∀ c, (l.sizeList c).count p = if c = b then 1 else 0
  ends : ∀ p, l.Held p →
    get l.indexTree (l.start p) = some p ∧ get l.indexTree (l.last p) = some p

theorem WF.recorded_of_held (h : l.WF) {p : Ptr} (hp : l.Held p) :
    l.Recorded p := by
  obtain ⟨b, hb⟩ := hp
  exact ((h.listed b p).mp hb).1

theorem WF.sorted (h : l.WF) : l.Sorted where
  apart p q hp hq hne := h.apart p q (h.recorded_of_held hp) (h.recorded_of_held hq) hne
  once p hp := by
    obtain ⟨b, hb⟩ := hp
    obtain ⟨-, hclass⟩ := (h.listed b p).mp hb
    refine ⟨b, hclass, fun c ↦ ?_⟩
    split_ifs with hc
    · rw [hc]
      exact List.count_eq_one_of_mem (h.nodup b) hb
    · rw [List.count_eq_zero]
      intro hpc
      have hclass' := ((h.listed c p).mp hpc).2
      exact hc (Option.some.inj (hclass'.symm.trans hclass))
  ends p hp := ⟨h.get_start p (h.recorded_of_held hp), h.get_last p (h.recorded_of_held hp)⟩

/-! ## Which blocks are found

A block is in the size list of its class, and the lists that `find` goes through are those of the
class of the request and of all larger ones.  The exception is a block without a class. -/

/-- When the blocks of the lists are too small, nothing is found. -/
theorem findFrom_of_small {lists : List (Fin 8)} {buckSize : ℤ}
    (h : ∀ idx ∈ lists, ∀ q ∈ l.sizeList idx, l.len q < size) :
    findFrom l size lists buckSize = (l, -1) := by
  induction lists generalizing buckSize with
  | nil => rfl
  | cons idx rest ih =>
    have hnone : (l.sizeList idx).find? (fun p ↦ decide (size ≤ (l.heap p).actualSize)) = none := by
      rw [List.find?_eq_none]
      intro q hq
      have hlt : (l.heap q).actualSize < size := h idx List.mem_cons_self q hq
      simpa using hlt
    rw [findFrom]
    simp only [findInSizeList, hnone]
    exact ih fun idx' hidx ↦ h idx' (List.mem_cons_of_mem _ hidx)

/-- The lists that `find` searches, for a block of the given size. -/
theorem mem_drop_finRange : ∀ k b : Fin 8, b ∈ (List.finRange 8).drop k ↔ k ≤ b := by decide

theorem find_eq (l : FreeList T) (size : ℤ) : l.find size =
    findFrom l size ((List.finRange 8).drop (findStart size).1) (findStart size).2 := rfl

/-- The search begins with the first list, or with one whose blocks may be smaller than the
request. -/
theorem findStart_bound (size : ℤ) :
    (findStart size).1 = 0 ∨ 64 * 2 ^ ((findStart size).1 - 1 : ℕ) ≤ size := by
  fun_cases findStart size <;> first | exact .inl rfl | exact .inr (by simp; omega)

/-- The search begins no later than at the class of a block that is large enough. -/
theorem findStart_le {n : ℤ} {b : Fin 8} (hle : size ≤ n) (hb : sizeClass n = some b) :
    (findStart size).1 ≤ b := by
  rcases sizeClass_bound hb with ⟨rfl, -⟩ | ⟨-, hlt⟩
  · exact Fin.le_last _
  · rcases findStart_bound size with h0 | hge
    · rw [h0]
      exact Fin.zero_le _
    · have hpow : (2 : ℤ) ^ ((findStart size).1 - 1 : ℕ) < 2 ^ (b : ℕ) := by omega
      have := (pow_lt_pow_iff_right₀ (by decide)).mp hpow
      exact Fin.le_def.mpr (by omega)

/-- Only a size of 4096 has no class. -/
theorem sizeClass_eq_none_iff {n : ℤ} : sizeClass n = none ↔ n = 4096 := by
  fun_cases sizeClass n <;> simp <;> omega

/-- **What it means that `find` finds nothing**: the blocks with a class are too small. -/
theorem find_eq_neg_one_iff (h : l.WF) (hs : 1 ≤ size) :
    l.find size = (l, -1) ↔ ∀ p, l.Recorded p → l.len p ≠ 4096 → l.len p < size := by
  constructor
  · intro hnone p hp hne
    by_contra hge
    obtain ⟨b, hb⟩ := Option.ne_none_iff_exists'.mp (mt sizeClass_eq_none_iff.mp hne)
    rw [find_eq] at hnone
    rcases findFrom_spec h hs (stayInClass_findStart hs) with ⟨-, hsmall⟩ | htook
    · have hmem := (mem_drop_finRange _ _).mpr (findStart_le (not_lt.mp hge) hb)
      exact hge (hsmall b hmem p ((h.listed b p).mpr ⟨hp, hb⟩))
    · rw [hnone] at htook
      have hmem := htook.start_mem hs
      exact hmem.2 hmem.1
  · intro hsmall
    have hfrom : ∀ idx ∈ (List.finRange 8).drop (findStart size).1, ∀ q ∈ l.sizeList idx,
        l.len q < size := by
      intro idx _ q hq
      obtain ⟨hq, hclass⟩ := (h.listed idx q).mp hq
      refine hsmall q hq fun hlen ↦ ?_
      rw [sizeClass_eq_none_iff.mpr hlen] at hclass
      cases hclass
    rw [find_eq, findFrom_of_small hfrom]

/-- **Every block is found** if and only if there is no block of 4096 bytes, or a larger one. -/
theorem InArray.finds_all_iff (h : l.InArray) (hw : l.WF) :
    (∀ size, 1 ≤ size → (l.find size).2 = -1 → ∀ p, l.Recorded p → l.len p < size) ↔
      ((∃ p, l.Recorded p ∧ l.len p = 4096) → ∃ q, l.Recorded q ∧ 4096 < l.len q) := by
  constructor
  · rintro hall ⟨p, hp, hlen⟩
    by_contra hno
    have hle : ∀ q, l.Recorded q → l.len q ≤ 4096 :=
      fun q hq ↦ not_lt.mp fun hlt ↦ hno ⟨q, hq, hlt⟩
    have hnone : l.find 4096 = (l, -1) :=
      (find_eq_neg_one_iff hw (by omega)).mpr fun q hq hne ↦ lt_of_le_of_ne (hle q hq) hne
    have := hall 4096 (by omega) (by rw [hnone]) p hp
    omega
  · intro hlarge size hs hnone p hp
    have heq : l.find size = (l, -1) := by
      rcases h.find_cases hw hs with heq | ⟨-, hne⟩
      · exact heq
      · exact absurd hnone hne
    have hsmall := (find_eq_neg_one_iff hw hs).mp heq
    by_cases hlen : l.len p = 4096
    · obtain ⟨q, hq, hlt⟩ := hlarge ⟨p, hp, hlen⟩
      have := hsmall q hq (by omega)
      omega
    · exact hsmall p hp hlen

/-! ## Runs

The calls that the queue makes: a block is added when an entry is deleted, so it is a part of the
array that is not free yet. -/

/-- A call, and what it returned. -/
inductive Op
  | add (index size : ℤ)
  | find (size result : ℤ)
  deriving DecidableEq, Repr

/-- A block may be added at a position of the array when it overlaps no recorded block. -/
def step (l : FreeList T) : Op → Option (FreeList T)
  | .add index size =>
    if 0 ≤ index ∧ 1 ≤ size ∧ l.Outside index size then some (l.add index size) else none
  | .find size result =>
    if 1 ≤ size ∧ (l.find size).2 = result then some (l.find size).1 else none

/-- A free list, with adds of blocks it does not record. -/
def system (T : Type) [OrderedMap T ℤ Ptr] : TransitionSystem (FreeList T) Op :=
  .ofStep (· = new) step

/-- What a step is. -/
theorem step_cases {l' : FreeList T} {op : Op} (h : l.step op = some l') :
    (∃ index size, op = .add index size ∧ 0 ≤ index ∧ 1 ≤ size ∧ l.Outside index size ∧
      l' = l.add index size) ∨
    ∃ size, op = .find size (l.find size).2 ∧ 1 ≤ size ∧ l' = (l.find size).1 := by
  cases op with
  | add index size =>
    rw [step] at h
    split_ifs at h with hok
    obtain ⟨hpos, hs, hout⟩ := hok
    exact .inl ⟨index, size, rfl, hpos, hs, hout, (Option.some.inj h).symm⟩
  | find size result =>
    rw [step] at h
    split_ifs at h with hok
    obtain ⟨hs, rfl⟩ := hok
    exact .inr ⟨size, rfl, hs, (Option.some.inj h).symm⟩

/-- What the calls leave free: the bytes that were added and not handed out since. -/
def freeAfter (free : Set ℤ) : Op → Set ℤ
  | .add index size => free ∪ Set.Ico index (index + size)
  | .find size result => if result = -1 then free else free \ Set.Ico result (result + size)

/-- The bytes that were added and not handed out since, after some calls. -/
def free (ops : List Op) : Set ℤ := ops.foldl freeAfter ∅

theorem free_concat (ops : List Op) (op : Op) : free (ops ++ [op]) = freeAfter (free ops) op := by
  rw [free, List.foldl_append]
  rfl

/-- A call that loses nothing: it adds no block between two recorded ones. -/
def Lossless (l : FreeList T) : Op → Prop
  | .add index size => ¬ l.Between index size
  | .find _ _ => True

instance (op : Op) : Decidable (l.Lossless op) :=
  match op with
  | .add index size => inferInstanceAs (Decidable (¬ l.Between index size))
  | .find _ _ => inferInstanceAs (Decidable True)

/-- What is covered after a `find` is what the caller believes to be free. -/
theorem InArray.covered_find (h : l.InArray) (hw : l.WF) (hs : 1 ≤ size) :
    (l.find size).1.covered = freeAfter l.covered (.find size (l.find size).2) := by
  rcases h.find_cases hw hs with heq | ⟨htook, hne⟩
  · rw [heq]
    rfl
  · rw [freeAfter, if_neg hne]
    exact htook.covered_eq

/-- **A step keeps the list well formed and in the array**, and covers what the calls leave free if
and only if it loses nothing. -/
theorem InArray.step {l' : FreeList T} {op : Op} (hi : l.InArray) (hw : l.WF)
    (h : l.step op = some l') :
    l'.InArray ∧ l'.WF ∧ (l'.covered = freeAfter l.covered op ↔ l.Lossless op) := by
  rcases step_cases h with ⟨index, size, rfl, hpos, hs, hout, rfl⟩ | ⟨size, rfl, hs, rfl⟩
  · have hu := hout.uncovered
    refine ⟨fun x hx ↦ ?_, (add_spec hw hu hs).1, covered_add_iff hw hu hs⟩
    rcases covered_add_subset hw hu hs hx with hx | hx
    · exact hi x hx
    · exact hpos.trans hx.1
  · refine ⟨fun x hx ↦ ?_, ?_, iff_of_true (hi.covered_find hw hs) trivial⟩
    · rcases find_spec hw hs with heq | htook
      · rw [heq] at hx
        exact hi x hx
      · rw [htook.covered_eq] at hx
        exact hi x hx.1
    · rcases find_spec hw hs with heq | htook
      · rw [heq]
        exact hw
      · exact htook.wf

theorem inArray_of_run {ls : List Op} (hr : (system T).Run ls l) : l.InArray ∧ l.WF := by
  refine hr.invariant ?_ fun _ _ _ ⟨hi, hw⟩ h ↦ ⟨(hi.step hw h).1, (hi.step hw h).2.1⟩
  rintro _ rfl
  exact ⟨by simp [InArray], new_wf⟩

/-- **What coalescing loses.**  In every state that is reached, adding a block covers exactly what
was covered and the block, if and only if the block is not between two recorded ones; what `find`
returns was covered, and is exactly what is not covered any more; and all along a run every byte
that was added and not handed out since is recorded, if and only if no block of the run was added
between two recorded ones. -/
theorem coalescing_lossless_iff {ls : List Op} (hr : (system T).Run ls l) :
    (∀ index size, 1 ≤ size → l.Outside index size →
      ((l.add index size).covered = l.covered ∪ Set.Ico index (index + size) ↔
        ¬ l.Between index size)) ∧
    (∀ size i, 1 ≤ size → (l.find size).2 = i → i ≠ -1 →
      Set.Ico i (i + size) ⊆ l.covered ∧
      (l.find size).1.covered = l.covered \ Set.Ico i (i + size)) ∧
    ((∀ pre l', pre <+: ls → (system T).Run pre l' → l'.covered = free pre) ↔
      ((system T).restrict Lossless).Run ls l) := by
  obtain ⟨-, hw⟩ := inArray_of_run hr
  refine ⟨fun index size hs hout ↦ covered_add_iff hw hout.uncovered hs, ?_, ?_⟩
  · rintro size i hs rfl hne
    rcases find_spec hw hs with heq | htook
    · rw [heq] at hne
      exact absurd rfl hne
    · exact ⟨htook.subset, htook.covered_eq⟩
  · refine hr.history_always_iff_restrict (P := fun ls l ↦ l.covered = free ls)
      (I := fun ls l ↦ (l.InArray ∧ l.WF) ∧ l.covered = free ls)
      TransitionSystem.run_ofStep_unique ?_ (fun _ _ h ↦ h.2) ?_ ?_
    · rintro _ rfl
      exact ⟨inArray_of_run (.start rfl), covered_new⟩
    · rintro ls l op l' ⟨⟨hi, hw⟩, hcov⟩ hstep hok
      obtain ⟨hi', hw', hiff⟩ := hi.step hw hstep
      exact ⟨⟨hi', hw'⟩, by rw [free_concat, ← hcov, hiff.mpr hok]⟩
    · rintro ls l op l' ⟨⟨hi, hw⟩, hcov⟩ hstep hall
      refine (hi.step hw hstep).2.2.mp ?_
      rw [hall, free_concat, hcov]

/-- Blocks that touch on the left, on the right, and not at all. -/
theorem coalescing_lossless_merged : ∃ l : FreeList (SortedAssoc ℤ Ptr),
    (system (SortedAssoc ℤ Ptr)).Run
      [.add 1 10, .add 11 10, .add 31 10, .add 21 5, .find 15 1, .add 28 3, .find 7 16] l ∧
    l.covered = free [.add 1 10, .add 11 10, .add 31 10, .add 21 5, .find 15 1, .add 28 3,
      .find 7 16] := by
  obtain ⟨l, hr, -⟩ := TransitionSystem.exists_run_from
    (S := (system (SortedAssoc ℤ Ptr)).restrict Lossless)
    (fun _ _ _ ↦ TransitionSystem.step_of_guarded _ _ _)
    rfl (p := fun _ ↦ true)
    (l := [.add 1 10, .add 11 10, .add 31 10, .add 21 5, .find 15 1, .add 28 3, .find 7 16])
    (by decide +kernel)
  exact ⟨l, hr.of_restrict, (coalescing_lossless_iff hr.of_restrict).2.2.mpr hr _ l
    (List.prefix_refl _) hr.of_restrict⟩

/-- **A block is lost**: the third one is added between the first two, and the bytes of the first
one are not recorded any more. -/
theorem coalescing_loses_left : ∃ l : FreeList (SortedAssoc ℤ Ptr),
    (system (SortedAssoc ℤ Ptr)).Run [.add 1 10, .add 21 10] l ∧
      l.Outside 11 10 ∧ 5 ∈ l.covered ∧ 5 ∉ (l.add 11 10).covered :=
  Exists.imp (fun _ hl ↦ ⟨hl.1, of_decide_eq_true hl.2⟩)
    (TransitionSystem.exists_run_from (S := system (SortedAssoc ℤ Ptr)) (fun _ _ _ ↦ id)
      rfl (by decide +kernel))

/-- **What `find` does not find.**  In every state that is reached, `find` returns `-1` only if no
recorded block has the requested size, for all requests, if and only if there is no recorded block
of exactly 4096 bytes, or there is a larger one too. -/
theorem find_complete_iff {ls : List Op} (hr : (system T).Run ls l) :
    (∀ size, 1 ≤ size → (l.find size).2 = -1 → ∀ p, l.Recorded p → l.len p < size) ↔
      ((∃ p, l.Recorded p ∧ l.len p = 4096) → ∃ q, l.Recorded q ∧ 4096 < l.len q) := by
  obtain ⟨hi, hw⟩ := inArray_of_run hr
  exact hi.finds_all_iff hw

/-- A block of 4096 bytes, and a larger one. -/
theorem find_complete_larger : ∃ l : FreeList (SortedAssoc ℤ Ptr),
    (system (SortedAssoc ℤ Ptr)).Run [.add 1 4096, .add 5000 5000] l ∧
      ∀ size, 1 ≤ size → (l.find size).2 = -1 → ∀ p, l.Recorded p → l.len p < size := by
  obtain ⟨l, hr, hl⟩ := TransitionSystem.exists_run_from (S := system (SortedAssoc ℤ Ptr))
    (fun _ _ _ ↦ id) rfl
    (l := [.add 1 4096, .add 5000 5000])
    (p := fun l ↦ l.Recorded 1 ∧ 4096 < l.len 1) (by decide +kernel)
  exact ⟨l, hr, (find_complete_iff hr).mpr fun _ ↦ ⟨1, of_decide_eq_true hl⟩⟩

/-- **A block of 4096 bytes is not found**, not even for a single byte. -/
theorem find_misses_4096 : ∃ l : FreeList (SortedAssoc ℤ Ptr),
    (system (SortedAssoc ℤ Ptr)).Run [.add 1 4096] l ∧
      (l.Recorded 0 ∧ l.len 0 = 4096) ∧ (l.find 1).2 = -1 :=
  Exists.imp (fun _ hl ↦ ⟨hl.1, of_decide_eq_true hl.2⟩)
    (TransitionSystem.exists_run_from (S := system (SortedAssoc ℤ Ptr)) (fun _ _ _ ↦ id)
      rfl (by decide +kernel))

end FreeList

/-! ## A ledger of what was handed out

Here a user may add anything that does not belong to someone else: a region that `find` returned, or
bytes that were never added before. -/

open FreeList (Op Took)

/-- The positions of a block, given by its index and its size. -/
def region (b : ℤ × ℤ) : Set ℤ := Set.Ico b.1 (b.1 + b.2)

/-- A free list with a ledger of its calls. -/
structure Ledger (T : Type) where
  list : FreeList T
  /-- The blocks that were ever added. -/
  added : List (ℤ × ℤ)
  /-- The regions that were returned and not added back. -/
  out : List (ℤ × ℤ)

namespace Ledger

variable {T : Type} [OrderedMap T ℤ Ptr] {s s' : Ledger T}

/-- The block consists of bytes that were never added. -/
def Fresh (s : Ledger T) (index size : ℤ) : Prop :=
  ∀ b ∈ s.added, b.1 + b.2 ≤ index ∨ index + size ≤ b.1

instance (index size : ℤ) : Decidable (s.Fresh index size) :=
  inferInstanceAs (Decidable (∀ _ ∈ _, _))

/-- What may be added is a region that was returned and not added back, or bytes that were never
added. -/
def step (s : Ledger T) : Op → Option (Ledger T)
  | .add index size =>
    if 1 ≤ size ∧ ((index, size) ∈ s.out ∨ s.Fresh index size) then
      some ⟨s.list.add index size, (index, size) :: s.added, s.out.erase (index, size)⟩
    else none
  | .find size result =>
    if 1 ≤ size ∧ (s.list.find size).2 = result then
      some ⟨(s.list.find size).1, s.added,
        if result = -1 then s.out else (result, size) :: s.out⟩
    else none

/-- Any sequence of calls from an empty list on. -/
def system (T : Type) [OrderedMap T ℤ Ptr] : TransitionSystem (Ledger T) Op :=
  .ofStep (· = ⟨.new, [], []⟩) step

/-- The bytes that were ever added. -/
def bytes (s : Ledger T) : Set ℤ := { x | ∃ b ∈ s.added, x ∈ region b }

/-- What is recorded and what was handed out was added, and is apart. -/
structure Inv (s : Ledger T) : Prop where
  wf : s.list.WF
  covered_subset : s.list.covered ⊆ s.bytes
  out_subset : ∀ b ∈ s.out, region b ⊆ s.bytes
  out_covered : ∀ b ∈ s.out, Disjoint (region b) s.list.covered
  out_apart : s.out.Pairwise fun b c ↦ Disjoint (region b) (region c)

omit [OrderedMap T ℤ Ptr] in
theorem Fresh.disjoint {index size : ℤ} (h : s.Fresh index size) :
    Disjoint (region (index, size)) s.bytes := by
  rw [Set.disjoint_left]
  rintro x ⟨hx, hx'⟩ ⟨b, hb, hxb, hxb'⟩
  rcases h b hb with h | h <;> simp only at hx hx' <;> omega

/-- What was returned and is added back is apart from the other regions. -/
theorem Inv.disjoint_erase {b : ℤ × ℤ} (hi : s.Inv) (hb : b ∈ s.out) :
    ∀ c ∈ s.out.erase b, Disjoint (region c) (region b) := by
  have hperm := List.perm_cons_erase hb
  have hpair := (hperm.pairwise_iff fun h ↦ h.symm).mp hi.out_apart
  intro c hc
  exact ((List.pairwise_cons.mp hpair).1 c hc).symm

/-- What may be added is not recorded, and apart from what stays handed out. -/
theorem Inv.add_apart {index size : ℤ} (hi : s.Inv)
    (h : (index, size) ∈ s.out ∨ s.Fresh index size) :
    s.list.Uncovered index size ∧
      ∀ c ∈ s.out.erase (index, size), Disjoint (region c) (region (index, size)) := by
  rcases h with hout | hfresh
  · refine ⟨fun x hx hx' hmem ↦ ?_, hi.disjoint_erase hout⟩
    exact Set.disjoint_left.mp (hi.out_covered _ hout) ⟨hx, hx'⟩ hmem
  · refine ⟨fun x hx hx' hmem ↦ ?_, fun c hc ↦ ?_⟩
    · exact Set.disjoint_left.mp hfresh.disjoint ⟨hx, hx'⟩ (hi.covered_subset hmem)
    · exact (hfresh.disjoint.mono_right (hi.out_subset c (List.mem_of_mem_erase hc))).symm

theorem Inv.add {index size : ℤ} (hi : s.Inv) (hs : 1 ≤ size)
    (h : (index, size) ∈ s.out ∨ s.Fresh index size) :
    Inv (⟨s.list.add index size, (index, size) :: s.added, s.out.erase (index, size)⟩ :
      Ledger T) := by
  obtain ⟨hu, hapart⟩ := hi.add_apart h
  have hsub := FreeList.covered_add_subset hi.wf hu hs
  have hbytes : s.bytes ⊆ bytes (⟨s.list.add index size, (index, size) :: s.added,
      s.out.erase (index, size)⟩ : Ledger T) :=
    fun x ⟨b, hb, hx⟩ ↦ ⟨b, List.mem_cons_of_mem _ hb, hx⟩
  refine ⟨(FreeList.add_spec hi.wf hu hs).1, fun x hx ↦ ?_, fun b hb ↦ ?_, fun b hb ↦ ?_,
    hi.out_apart.sublist List.erase_sublist⟩
  · rcases hsub hx with hx | hx
    · exact hbytes (hi.covered_subset hx)
    · exact ⟨(index, size), List.mem_cons_self, hx⟩
  · exact (hi.out_subset b (List.mem_of_mem_erase hb)).trans hbytes
  · refine Disjoint.mono_right hsub (Set.disjoint_union_right.mpr ⟨?_, hapart b hb⟩)
    exact hi.out_covered b (List.mem_of_mem_erase hb)

/-- A region that is taken out of the list is apart from all others. -/
theorem Inv.took {size i : ℤ} {l' : FreeList T} (hi : s.Inv) (ht : Took s.list size i l') :
    Inv (⟨l', s.added, s.out⟩ : Ledger T) ∧ Inv (⟨l', s.added, (i, size) :: s.out⟩ : Ledger T) := by
  have hsub : l'.covered ⊆ s.list.covered := ht.covered_eq ▸ Set.sdiff_subset
  have hkept : ∀ b ∈ s.out, Disjoint (region b) l'.covered :=
    fun b hb ↦ (hi.out_covered b hb).mono_right hsub
  have hnew : Disjoint (region (i, size)) l'.covered := by
    rw [ht.covered_eq]
    exact Set.disjoint_sdiff_right
  refine ⟨⟨ht.wf, hsub.trans hi.covered_subset, hi.out_subset, hkept, hi.out_apart⟩,
    ⟨ht.wf, hsub.trans hi.covered_subset, ?_, ?_, ?_⟩⟩
  · exact List.forall_mem_cons.mpr ⟨ht.subset.trans hi.covered_subset, hi.out_subset⟩
  · exact List.forall_mem_cons.mpr ⟨hnew, hkept⟩
  · refine List.pairwise_cons.mpr ⟨fun b hb ↦ ?_, hi.out_apart⟩
    exact ((hi.out_covered b hb).mono_right ht.subset).symm

/-- **Every call keeps the invariant.** -/
theorem Inv.step {op : Op} (hi : s.Inv) (h : s.step op = some s') : s'.Inv := by
  cases op with
  | add index size =>
    rw [Ledger.step] at h
    split_ifs at h with hok
    obtain rfl := Option.some.inj h
    exact hi.add hok.1 hok.2
  | find size result =>
    rw [Ledger.step] at h
    split_ifs at h with hok hnone
    · obtain rfl := Option.some.inj h
      rcases FreeList.find_spec hi.wf hok.1 with heq | ht
      · rw [heq]
        exact hi
      · exact (hi.took ht).1
    · obtain rfl := Option.some.inj h
      obtain ⟨hs, rfl⟩ := hok
      rcases FreeList.find_spec hi.wf hs with heq | ht
      · exact absurd (by rw [heq]) hnone
      · exact (hi.took ht).2

theorem Inv.of_run {ls : List Op} (hr : (system T).Run ls s) : s.Inv := by
  refine hr.invariant ?_ fun _ _ _ hi h ↦ hi.step h
  rintro _ rfl
  exact ⟨FreeList.new_wf, by simp, by simp, by simp, .nil⟩

/-- **Nothing is handed out twice.**  In every state that is reached, the size lists are in order;
no two regions that are handed out overlap, and none of them overlaps a block that is held; and what
`find` returns next consists of bytes that were added, and overlaps neither a block that is still
held nor a region that is handed out. -/
theorem no_double_allocation {ls : List Op} (hr : (system T).Run ls s) :
    s.list.Sorted ∧
    (s.out.Pairwise fun b c ↦ Disjoint (region b) (region c)) ∧
    (∀ b ∈ s.out, ∀ p, s.list.Held p → Disjoint (region b) (s.list.block p)) ∧
    ∀ size i, 1 ≤ size → (s.list.find size).2 = i → i ≠ -1 →
      region (i, size) ⊆ s.bytes ∧
      (∀ p, (s.list.find size).1.Held p →
        Disjoint (region (i, size)) ((s.list.find size).1.block p)) ∧
      ∀ b ∈ s.out, Disjoint (region (i, size)) (region b) := by
  have hi := Inv.of_run hr
  have hblock : ∀ {l : FreeList T} {p : Ptr}, l.WF → l.Held p → l.block p ⊆ l.covered :=
    fun h hp ↦ FreeList.block_subset_covered (h.recorded_of_held hp)
  refine ⟨hi.wf.sorted, hi.out_apart, fun b hb p hp ↦ ?_, ?_⟩
  · exact (hi.out_covered b hb).mono_right (hblock hi.wf hp)
  · rintro size i hs rfl hne
    rcases FreeList.find_spec hi.wf hs with heq | ht
    · rw [heq] at hne
      exact absurd rfl hne
    · have hi' := (hi.took ht).2
      refine ⟨hi'.out_subset _ List.mem_cons_self, fun p hp ↦ ?_,
        (List.pairwise_cons.mp hi'.out_apart).1⟩
      exact (hi'.out_covered _ List.mem_cons_self).mono_right (hblock hi'.wf hp)

/-- A block is handed out in parts, one of which comes back and is handed out again. -/
theorem no_double_allocation_parts : ∃ s : Ledger (SortedAssoc ℤ Ptr),
    (system (SortedAssoc ℤ Ptr)).Run
      [.add 1 100, .find 30 1, .find 20 31, .add 101 30, .add 1 30, .find 10 1] s ∧
    (s.list.find 25).2 = 51 ∧ ∀ b ∈ s.out, Disjoint (region (51, 25)) (region b) := by
  refine Exists.imp (fun s hs ↦ ⟨hs.1, of_decide_eq_true hs.2, ?_⟩)
    (TransitionSystem.exists_run_from (S := system (SortedAssoc ℤ Ptr)) (fun _ _ _ ↦ id)
      rfl (p := fun s ↦ (s.list.find 25).2 = 51)
      (by decide +kernel))
  exact ((no_double_allocation hs.1).2.2.2 25 51 (by decide) (of_decide_eq_true hs.2)
    (by decide)).2.2

end Ledger
end ClusteredBigCache
