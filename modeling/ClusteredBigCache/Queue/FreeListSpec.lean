import Mathlib
import ClusteredBigCache.Queue.FreeList

/-!
# What the free list holds

A free list *covers* the positions that lie in one of the blocks its tree records.  This file
describes `add` and `find` by what they do to that set, which is all that the queue above needs:

* `add_covered`: adding a range covers it, and uncovers nothing but a block that was merged away —
  `lost`, the left neighbour when there is a right neighbour too;
* `find_spec`: what `find` hands out was covered and is not any more, and nothing else changes.

Both rest on `FreeList.WF`, the invariant that ties the two indexes of the list together: the tree
has a block under the positions of its first and of its last byte and nowhere else, blocks neither
overlap nor touch, and each one is in the list of its size class exactly once.  Three edits make up
every operation, and each has its own lemma: taking a block out (`Dropped`), recording a new one
(`record_wf`), and shortening one in place (`Shrunk`).
-/

set_option autoImplicit false

namespace ClusteredBigCache
namespace FreeList

open OrderedMap

variable {T : Type}

/-! ## Blocks -/

/-- The first position of a block. -/
def start (l : FreeList T) (p : Ptr) : ℤ := (l.heap p).parentIndex

/-- The length of a block. -/
def len (l : FreeList T) (p : Ptr) : ℤ := (l.heap p).actualSize

/-- The last position of a block. -/
def last (l : FreeList T) (p : Ptr) : ℤ := l.start p + l.len p - 1

/-- The positions of a block. -/
def block (l : FreeList T) (p : Ptr) : Set ℤ := Set.Ico (l.start p) (l.start p + l.len p)

theorem mem_block {l : FreeList T} {p : Ptr} {x : ℤ} :
    x ∈ l.block p ↔ l.start p ≤ x ∧ x < l.start p + l.len p := Iff.rfl

/-! ## Size lists -/

@[simp] theorem removeFromSizeList_indexTree (l : FreeList T) (v : Ptr) :
    (removeFromSizeList l v).indexTree = l.indexTree := by
  simp only [removeFromSizeList]
  split
  · rfl
  · split <;> rfl

@[simp] theorem removeFromSizeList_heap (l : FreeList T) (v : Ptr) :
    (removeFromSizeList l v).heap = l.heap := by
  simp only [removeFromSizeList]
  split
  · rfl
  · split <;> rfl

@[simp] theorem removeFromSizeList_fresh (l : FreeList T) (v : Ptr) :
    (removeFromSizeList l v).fresh = l.fresh := by
  simp only [removeFromSizeList]
  split
  · rfl
  · split <;> rfl

/-- Taking a block out of the list of its class takes it out of every list, provided it was in no
other. -/
theorem removeFromSizeList_sizeList {l : FreeList T} {v : Ptr}
    (h : ∀ b, v ∈ l.sizeList b → sizeClass (l.len v) = some b) (b : Fin 8) :
    (removeFromSizeList l v).sizeList b = (l.sizeList b).erase v := by
  by_cases hv : v ∈ l.sizeList b
  · have hc : sizeClass (l.heap v).actualSize = some b := h b hv
    simp only [removeFromSizeList, hc, listPos, if_pos hv]
    rw [if_pos (by omega)]
    simp [List.eraseIdx_idxOf_eq_erase]
  · rw [List.erase_of_not_mem hv]
    simp only [removeFromSizeList]
    split
    · rfl
    · split
      · rename_i c _ hpos
        have hvc : v ∈ l.sizeList c := by
          by_contra hn
          simp [listPos, hn] at hpos
        have hbc : b ≠ c := fun e ↦ hv (e ▸ hvc)
        simp [Function.update_of_ne hbc]
      · rfl

/-! ## The invariant

The tree has two keys for each block, its first position and its last one, and the size list of its
class has it once.  Blocks do not touch, since `add` merges those that do. -/

variable [OrderedMap T ℤ Ptr]

/-- The tree holds a pointer to the block. -/
def Recorded (l : FreeList T) (p : Ptr) : Prop := ∃ k, get l.indexTree k = some p

/-- The positions of all recorded blocks. -/
def covered (l : FreeList T) : Set ℤ := { x | ∃ p, l.Recorded p ∧ x ∈ l.block p }

/-- **The free list invariant.** -/
structure WF (l : FreeList T) : Prop where
  /-- A key of the tree is an end of the block it leads to. -/
  key : ∀ k p, get l.indexTree k = some p → k = l.start p ∨ k = l.last p
  get_start : ∀ p, l.Recorded p → get l.indexTree (l.start p) = some p
  get_last : ∀ p, l.Recorded p → get l.indexTree (l.last p) = some p
  len_pos : ∀ p, l.Recorded p → 1 ≤ l.len p
  lt_fresh : ∀ p, l.Recorded p → p < l.fresh
  /-- Two blocks have a gap between them. -/
  apart : ∀ p q, l.Recorded p → l.Recorded q → p ≠ q →
    l.start p + l.len p < l.start q ∨ l.start q + l.len q < l.start p
  listed : ∀ b p, p ∈ l.sizeList b ↔ l.Recorded p ∧ sizeClass (l.len p) = some b
  nodup : ∀ b, (l.sizeList b).Nodup

theorem new_wf : WF (new : FreeList T) := by
  have hno : ∀ p, ¬ (new : FreeList T).Recorded p := by
    rintro p ⟨k, hk⟩
    simp [new] at hk
  refine ⟨?_, ?_, ?_, ?_, ?_, ?_, ?_, fun b ↦ List.nodup_nil⟩
  · intro k p hk; exact absurd ⟨k, hk⟩ (hno p)
  · intro p hp; exact absurd hp (hno p)
  · intro p hp; exact absurd hp (hno p)
  · intro p hp; exact absurd hp (hno p)
  · intro p hp; exact absurd hp (hno p)
  · intro p q hp; exact absurd hp (hno p)
  · intro b p
    exact ⟨fun h ↦ absurd h List.not_mem_nil, fun h ↦ absurd h.1 (hno p)⟩

@[simp] theorem covered_new : covered (new : FreeList T) = ∅ := by
  ext x
  simp [covered, Recorded, new]

/-- No block is recorded. -/
def Empty (l : FreeList T) : Prop := size l.indexTree = 0

instance (l : FreeList T) : Decidable l.Empty := inferInstanceAs (Decidable (_ = _))

theorem covered_of_empty {l : FreeList T} (h : l.Empty) : l.covered = ∅ := by
  have hget := peek_eq_none_iff.mp (size_eq_zero_iff.mp h)
  ext x
  simp [covered, Recorded, hget]

theorem block_subset_covered {l : FreeList T} {p : Ptr} (hp : l.Recorded p) :
    l.block p ⊆ l.covered := fun _ hx ↦ ⟨p, hp, hx⟩

/-- A key of the tree is a covered position. -/
theorem WF.covered_of_get {l : FreeList T} (h : l.WF) {k : ℤ} {p : Ptr}
    (hk : get l.indexTree k = some p) : k ∈ l.block p := by
  have hpos := h.len_pos p ⟨k, hk⟩
  rcases h.key k p hk with rfl | rfl
  · exact mem_block.mpr (by omega)
  · exact mem_block.mpr (by simp only [last]; omega)

/-- Recorded blocks that share a position are the same. -/
theorem WF.eq_of_mem_block {l : FreeList T} (h : l.WF) {p q : Ptr} (hp : l.Recorded p)
    (hq : l.Recorded q) {x : ℤ} (hxp : x ∈ l.block p) (hxq : x ∈ l.block q) : p = q := by
  by_contra hne
  rw [mem_block] at hxp hxq
  have := h.apart p q hp hq hne
  omega

/-! ## Taking a block out -/

/-- `l'` is `l` with the block `p` taken out of the tree and of the size lists. -/
structure Dropped (l : FreeList T) (p : Ptr) (l' : FreeList T) : Prop where
  heap : l'.heap = l.heap
  fresh : l'.fresh = l.fresh
  lookup : ∀ k, get l'.indexTree k =
    if k = l.start p ∨ k = l.last p then none else get l.indexTree k
  sizeList : ∀ b, l'.sizeList b = (l.sizeList b).erase p

namespace Dropped

variable {l l' : FreeList T} {p : Ptr}

theorem start_eq (hd : Dropped l p l') (q : Ptr) : l'.start q = l.start q := by
  simp only [start, hd.heap]

theorem len_eq (hd : Dropped l p l') (q : Ptr) : l'.len q = l.len q := by
  simp only [len, hd.heap]

theorem last_eq (hd : Dropped l p l') (q : Ptr) : l'.last q = l.last q := by
  simp only [last, hd.start_eq, hd.len_eq]

/-- No end of another block is an end of the block taken out. -/
theorem get_of_ne (hd : Dropped l p l') (h : l.WF) (hp : l.Recorded p) {k : ℤ} {q : Ptr}
    (hk : get l.indexTree k = some q) (hq : q ≠ p) :
    get l'.indexTree k = some q := by
  rw [hd.lookup, if_neg, hk]
  rintro (rfl | rfl)
  · rw [h.get_start p hp] at hk; exact hq (Option.some_inj.mp hk).symm
  · rw [h.get_last p hp] at hk; exact hq (Option.some_inj.mp hk).symm

theorem recorded_iff (hd : Dropped l p l') (h : l.WF) (hp : l.Recorded p) (q : Ptr) :
    l'.Recorded q ↔ l.Recorded q ∧ q ≠ p := by
  constructor
  · rintro ⟨k, hk⟩
    rw [hd.lookup] at hk
    split at hk
    · cases hk
    · rename_i hne
      refine ⟨⟨k, hk⟩, ?_⟩
      rintro rfl
      exact hne (h.key k q hk)
  · rintro ⟨⟨k, hk⟩, hne⟩
    exact ⟨k, hd.get_of_ne h hp hk hne⟩

theorem wf (hd : Dropped l p l') (h : l.WF) (hp : l.Recorded p) : l'.WF := by
  have hrec := hd.recorded_iff h hp
  refine ⟨?_, ?_, ?_, ?_, ?_, ?_, ?_, ?_⟩
  · intro k q hk
    rw [hd.start_eq, hd.last_eq]
    rw [hd.lookup] at hk
    split at hk
    · cases hk
    · exact h.key k q hk
  · intro q hq
    obtain ⟨hq, hne⟩ := (hrec q).mp hq
    rw [hd.start_eq]
    exact hd.get_of_ne h hp (h.get_start q hq) hne
  · intro q hq
    obtain ⟨hq, hne⟩ := (hrec q).mp hq
    rw [hd.last_eq]
    exact hd.get_of_ne h hp (h.get_last q hq) hne
  · intro q hq
    rw [hd.len_eq]
    exact h.len_pos q ((hrec q).mp hq).1
  · intro q hq
    rw [hd.fresh]
    exact h.lt_fresh q ((hrec q).mp hq).1
  · intro q r hq hr hne
    rw [hd.start_eq, hd.start_eq, hd.len_eq, hd.len_eq]
    exact h.apart q r ((hrec q).mp hq).1 ((hrec r).mp hr).1 hne
  · intro b q
    rw [hd.sizeList, (h.nodup b).mem_erase_iff, h.listed, hrec, hd.len_eq]
    tauto
  · intro b
    rw [hd.sizeList]
    exact (h.nodup b).erase p

theorem covered_eq (hd : Dropped l p l') (h : l.WF) (hp : l.Recorded p) :
    l'.covered = l.covered \ l.block p := by
  ext x
  simp only [covered, Set.mem_ofPred_eq, Set.mem_sdiff, hd.recorded_iff h hp]
  have hb : ∀ q, l'.block q = l.block q := fun q ↦ by simp only [block, hd.start_eq, hd.len_eq]
  constructor
  · rintro ⟨q, ⟨hq, hne⟩, hx⟩
    rw [hb] at hx
    exact ⟨⟨q, hq, hx⟩, fun hxp ↦ hne (h.eq_of_mem_block hq hp hx hxp)⟩
  · rintro ⟨⟨q, hq, hx⟩, hxp⟩
    refine ⟨q, ⟨hq, ?_⟩, by rwa [hb]⟩
    rintro rfl
    exact hxp hx

end Dropped

/-! ## Recording a block -/

/-- The item has a gap to every recorded block. -/
def Clear (l : FreeList T) (item : ItemPos) : Prop :=
  ∀ q, l.Recorded q → item.parentIndex + item.actualSize < l.start q ∨
    l.start q + l.len q < item.parentIndex

theorem record_sizeList (l : FreeList T) (item : ItemPos) (b : Fin 8) :
    (record l item).sizeList b =
      if sizeClass item.actualSize = some b then l.sizeList b ++ [l.fresh] else l.sizeList b := by
  simp only [record, putIntoSizeList, Function.update_self]
  split
  · rename_i hc; simp [hc]
  · rename_i c hc
    rw [hc]
    by_cases hbc : b = c
    · subst hbc; simp
    · simp [Function.update_of_ne hbc, Ne.symm hbc]

@[simp] theorem record_heap (l : FreeList T) (item : ItemPos) :
    (record l item).heap = Function.update l.heap l.fresh item := by
  simp only [record, putIntoSizeList]
  split <;> rfl

@[simp] theorem record_fresh (l : FreeList T) (item : ItemPos) :
    (record l item).fresh = l.fresh + 1 := by
  simp only [record, putIntoSizeList]
  split <;> rfl

theorem record_get (l : FreeList T) (item : ItemPos) (k : ℤ) :
    get (record l item).indexTree k =
      if k = item.parentIndex ∨ k = item.parentIndex + item.actualSize - 1 then some l.fresh
      else get l.indexTree k := by
  have hk : (record l item).indexTree = put (put l.indexTree item.parentIndex l.fresh)
      (item.parentIndex + item.actualSize - 1) l.fresh := by
    simp only [record, putIntoSizeList]
    split <;> rfl
  rw [hk, get_put, get_put]
  split_ifs <;> first | rfl | (exfalso; omega)

section Record

variable {l : FreeList T} {item : ItemPos}

theorem record_start_fresh : (record l item).start l.fresh = item.parentIndex := by
  simp [start]

theorem record_len_fresh : (record l item).len l.fresh = item.actualSize := by
  simp [len]

theorem record_start_of_ne {q : Ptr} (hq : q ≠ l.fresh) : (record l item).start q = l.start q := by
  simp [start, Function.update_of_ne hq]

theorem record_len_of_ne {q : Ptr} (hq : q ≠ l.fresh) : (record l item).len q = l.len q := by
  simp [len, Function.update_of_ne hq]

theorem WF.ne_fresh (h : l.WF) {q : Ptr} (hq : l.Recorded q) : q ≠ l.fresh :=
  (h.lt_fresh q hq).ne

/-- An end of a recorded block is not an end of an item that is clear of it. -/
theorem Clear.get_of_recorded (hc : l.Clear item) (h : l.WF) (hpos : 1 ≤ item.actualSize) {k : ℤ}
    {q : Ptr} (hk : get l.indexTree k = some q) :
    get (record l item).indexTree k = some q := by
  have hb := mem_block.mp (h.covered_of_get hk)
  have hq := hc q ⟨k, hk⟩
  rw [record_get, if_neg (by omega), hk]

theorem record_recorded_iff (h : l.WF) (hc : l.Clear item) (hpos : 1 ≤ item.actualSize) (q : Ptr) :
    (record l item).Recorded q ↔ l.Recorded q ∨ q = l.fresh := by
  constructor
  · rintro ⟨k, hk⟩
    rw [record_get] at hk
    split at hk
    · exact .inr (Option.some_inj.mp hk).symm
    · exact .inl ⟨k, hk⟩
  · rintro (⟨k, hk⟩ | rfl)
    · exact ⟨k, hc.get_of_recorded h hpos hk⟩
    · exact ⟨item.parentIndex, by simp [record_get]⟩

theorem record_wf (h : l.WF) (hc : l.Clear item) (hpos : 1 ≤ item.actualSize) :
    (record l item).WF := by
  have hrec := record_recorded_iff h hc hpos
  refine ⟨?_, ?_, ?_, ?_, ?_, ?_, ?_, ?_⟩
  · intro k p hk
    rw [record_get] at hk
    split at hk
    · obtain rfl := Option.some_inj.mp hk
      rw [last, record_start_fresh, record_len_fresh]
      assumption
    · have hp := h.ne_fresh ⟨k, hk⟩
      rw [last, record_start_of_ne hp, record_len_of_ne hp]
      exact h.key k p hk
  · intro p hp
    rcases (hrec p).mp hp with hp | rfl
    · rw [record_start_of_ne (h.ne_fresh hp)]
      exact hc.get_of_recorded h hpos (h.get_start p hp)
    · simp [record_start_fresh, record_get]
  · intro p hp
    rcases (hrec p).mp hp with hp | rfl
    · rw [last, record_start_of_ne (h.ne_fresh hp), record_len_of_ne (h.ne_fresh hp)]
      exact hc.get_of_recorded h hpos (h.get_last p hp)
    · simp [last, record_start_fresh, record_len_fresh, record_get]
  · intro p hp
    rcases (hrec p).mp hp with hp | rfl
    · rw [record_len_of_ne (h.ne_fresh hp)]
      exact h.len_pos p hp
    · rwa [record_len_fresh]
  · intro p hp
    rw [record_fresh]
    rcases (hrec p).mp hp with hp | rfl
    · exact Nat.lt_succ_of_lt (h.lt_fresh p hp)
    · exact Nat.lt_succ_self _
  · intro p q hp hq hne
    rcases (hrec p).mp hp with hp | rfl <;> rcases (hrec q).mp hq with hq | rfl
    · rw [record_start_of_ne (h.ne_fresh hp), record_len_of_ne (h.ne_fresh hp),
        record_start_of_ne (h.ne_fresh hq), record_len_of_ne (h.ne_fresh hq)]
      exact h.apart p q hp hq hne
    · rw [record_start_of_ne (h.ne_fresh hp), record_len_of_ne (h.ne_fresh hp),
        record_start_fresh, record_len_fresh]
      exact (hc p hp).symm
    · rw [record_start_of_ne (h.ne_fresh hq), record_len_of_ne (h.ne_fresh hq),
        record_start_fresh, record_len_fresh]
      exact hc q hq
    · exact absurd rfl hne
  · intro b p
    rw [hrec, record_sizeList]
    by_cases hp : p = l.fresh
    · subst hp
      have hno : l.fresh ∉ l.sizeList b := fun hm ↦ h.ne_fresh ((h.listed b _).mp hm).1 rfl
      rw [record_len_fresh]
      split <;> simp_all
    · rw [record_len_of_ne hp, or_iff_left hp, ← h.listed]
      split <;> simp [hp]
  · intro b
    rw [record_sizeList]
    split
    · refine (h.nodup b).append (List.nodup_singleton _) ?_
      intro p hp hpf
      exact h.ne_fresh ((h.listed b p).mp hp).1 (List.mem_singleton.mp hpf)
    · exact h.nodup b

theorem record_covered (h : l.WF) (hc : l.Clear item) (hpos : 1 ≤ item.actualSize) :
    (record l item).covered =
      l.covered ∪ Set.Ico item.parentIndex (item.parentIndex + item.actualSize) := by
  ext x
  simp only [covered, Set.mem_ofPred_eq, Set.mem_union, record_recorded_iff h hc hpos]
  constructor
  · rintro ⟨p, hp | rfl, hx⟩
    · rw [mem_block, record_start_of_ne (h.ne_fresh hp), record_len_of_ne (h.ne_fresh hp)] at hx
      exact .inl ⟨p, hp, hx⟩
    · rw [mem_block, record_start_fresh, record_len_fresh] at hx
      exact .inr hx
  · rintro (⟨p, hp, hx⟩ | hx)
    · refine ⟨p, .inl hp, ?_⟩
      rwa [mem_block, record_start_of_ne (h.ne_fresh hp), record_len_of_ne (h.ne_fresh hp)]
    · refine ⟨l.fresh, .inr rfl, ?_⟩
      rwa [mem_block, record_start_fresh, record_len_fresh]

end Record

/-! ## Shortening a block -/

/-- `l'` is `l` with the first `n` bytes of the block `p` cut off. -/
structure Shrunk (l : FreeList T) (p : Ptr) (n : ℤ) (l' : FreeList T) : Prop where
  heap : l'.heap = Function.update l.heap p ⟨l.len p - n, l.start p + n⟩
  fresh : l'.fresh = l.fresh
  lookup : ∀ k, get l'.indexTree k = if k = l.start p + n then some p
    else if k = l.start p then none else get l.indexTree k
  sizeList : l'.sizeList = l.sizeList

namespace Shrunk

variable {l l' : FreeList T} {p : Ptr} {n : ℤ}

theorem start_self (hs : Shrunk l p n l') : l'.start p = l.start p + n := by
  simp [start, hs.heap]

theorem len_self (hs : Shrunk l p n l') : l'.len p = l.len p - n := by
  simp [len, hs.heap]

theorem start_of_ne (hs : Shrunk l p n l') {q : Ptr} (hq : q ≠ p) : l'.start q = l.start q := by
  simp [start, hs.heap, Function.update_of_ne hq]

theorem len_of_ne (hs : Shrunk l p n l') {q : Ptr} (hq : q ≠ p) : l'.len q = l.len q := by
  simp [len, hs.heap, Function.update_of_ne hq]

theorem last_eq (hs : Shrunk l p n l') (q : Ptr) : l'.last q = l.last q := by
  by_cases hq : q = p
  · subst hq
    simp only [last, hs.start_self, hs.len_self]
    omega
  · simp only [last, hs.start_of_ne hq, hs.len_of_ne hq]

/-- The cut keeps every key of another block, and the last key of the block itself. -/
theorem get_of_outside (hs : Shrunk l p n l') {k : ℤ} (hk : k ≠ l.start p)
    (hk' : k ≠ l.start p + n) : get l'.indexTree k = get l.indexTree k := by
  rw [hs.lookup, if_neg hk', if_neg hk]

theorem get_of_ne (hs : Shrunk l p n l') (h : l.WF) (hp : l.Recorded p) (hn : 1 ≤ n)
    (hlt : n < l.len p) {k : ℤ} {q : Ptr} (hk : get l.indexTree k = some q)
    (hq : q ≠ p) : get l'.indexTree k = some q := by
  have hkq := mem_block.mp (h.covered_of_get hk)
  have hap := h.apart p q hp ⟨k, hk⟩ (Ne.symm hq)
  rw [hs.get_of_outside (by omega) (by omega), hk]

theorem recorded_iff (hs : Shrunk l p n l') (h : l.WF) (hp : l.Recorded p) (hn : 1 ≤ n)
    (hlt : n < l.len p) (q : Ptr) : l'.Recorded q ↔ l.Recorded q := by
  by_cases hq : q = p
  · subst hq
    exact ⟨fun _ ↦ hp, fun _ ↦ ⟨l.start q + n, by rw [hs.lookup, if_pos rfl]⟩⟩
  · refine ⟨fun ⟨k, hk⟩ ↦ ?_, fun ⟨k, hk⟩ ↦ ⟨k, hs.get_of_ne h hp hn hlt hk hq⟩⟩
    rw [hs.lookup] at hk
    split_ifs at hk
    · exact absurd (Option.some_inj.mp hk).symm hq
    · exact ⟨k, hk⟩

theorem wf (hs : Shrunk l p n l') (h : l.WF) (hp : l.Recorded p) (hn : 1 ≤ n)
    (hlt : n < l.len p) (hclass : sizeClass (l.len p - n) = sizeClass (l.len p)) : l'.WF := by
  have hrec := hs.recorded_iff h hp hn hlt
  refine ⟨?_, ?_, ?_, ?_, ?_, ?_, ?_, ?_⟩
  · intro k q hk
    rw [hs.last_eq]
    rw [hs.lookup] at hk
    split_ifs at hk with h1 h2
    · obtain rfl := Option.some_inj.mp hk
      exact .inl (by rw [hs.start_self, h1])
    · by_cases hq : q = p
      · subst hq
        exact .inr ((h.key k q hk).resolve_left h2)
      · rw [hs.start_of_ne hq]
        exact h.key k q hk
  · intro q hq
    by_cases hqp : q = p
    · subst hqp
      rw [hs.start_self, hs.lookup, if_pos rfl]
    · rw [hs.start_of_ne hqp]
      exact hs.get_of_ne h hp hn hlt (h.get_start q ((hrec q).mp hq)) hqp
  · intro q hq
    rw [hs.last_eq]
    by_cases hqp : q = p
    · subst hqp
      by_cases hk : l.last q = l.start q + n
      · rw [hk, hs.lookup, if_pos rfl]
      · have hk' : l.last q ≠ l.start q := by simp only [last]; omega
        rw [hs.get_of_outside hk' hk, h.get_last q hp]
    · exact hs.get_of_ne h hp hn hlt (h.get_last q ((hrec q).mp hq)) hqp
  · intro q hq
    by_cases hqp : q = p
    · subst hqp
      rw [hs.len_self]
      omega
    · rw [hs.len_of_ne hqp]
      exact h.len_pos q ((hrec q).mp hq)
  · intro q hq
    rw [hs.fresh]
    exact h.lt_fresh q ((hrec q).mp hq)
  · intro q r hq hr hne
    have hap := h.apart q r ((hrec q).mp hq) ((hrec r).mp hr) hne
    by_cases hqp : q = p
    · subst hqp
      rw [hs.start_self, hs.len_self, hs.start_of_ne hne.symm, hs.len_of_ne hne.symm]
      omega
    · by_cases hrp : r = p
      · subst hrp
        rw [hs.start_self, hs.len_self, hs.start_of_ne hqp, hs.len_of_ne hqp]
        omega
      · rwa [hs.start_of_ne hqp, hs.len_of_ne hqp, hs.start_of_ne hrp, hs.len_of_ne hrp]
  · intro b q
    rw [hs.sizeList, hrec, h.listed]
    by_cases hqp : q = p
    · subst hqp
      rw [hs.len_self, hclass]
    · rw [hs.len_of_ne hqp]
  · intro b
    rw [hs.sizeList]
    exact h.nodup b

theorem covered_eq (hs : Shrunk l p n l') (h : l.WF) (hp : l.Recorded p) (hn : 1 ≤ n)
    (hlt : n < l.len p) :
    l'.covered = l.covered \ Set.Ico (l.start p) (l.start p + n) := by
  ext x
  simp only [covered, Set.mem_ofPred_eq, Set.mem_sdiff, hs.recorded_iff h hp hn hlt, Set.mem_Ico]
  constructor
  · rintro ⟨q, hq, hx⟩
    rw [mem_block] at hx
    by_cases hqp : q = p
    · subst hqp
      rw [hs.start_self, hs.len_self] at hx
      exact ⟨⟨q, hq, mem_block.mpr (by omega)⟩, by omega⟩
    · rw [hs.start_of_ne hqp, hs.len_of_ne hqp] at hx
      have hap := h.apart p q hp hq (Ne.symm hqp)
      exact ⟨⟨q, hq, mem_block.mpr hx⟩, by omega⟩
  · rintro ⟨⟨q, hq, hx⟩, hno⟩
    refine ⟨q, hq, ?_⟩
    rw [mem_block] at hx ⊢
    by_cases hqp : q = p
    · subst hqp
      rw [hs.start_self, hs.len_self]
      omega
    · rwa [hs.start_of_ne hqp, hs.len_of_ne hqp]

end Shrunk

/-! ## Adding a range

`add` looks for a block before the range and then for one behind it.  In the second merge it forgets
that there was a first: the new block begins with the range. -/

/-- No position of the range is covered. -/
def Uncovered (l : FreeList T) (index size : ℤ) : Prop :=
  ∀ x, index ≤ x → x < index + size → x ∉ l.covered

section Add

variable {l : FreeList T} {index size : ℤ}

/-- A recorded block lies on one side of an uncovered range. -/
theorem Uncovered.side (hu : l.Uncovered index size) (h : l.WF) (hs : 1 ≤ size) {q : Ptr}
    (hq : l.Recorded q) : l.start q + l.len q ≤ index ∨ index + size ≤ l.start q := by
  have hlen := h.len_pos q hq
  by_contra hcon
  -- otherwise the larger of the two first positions is in both
  refine hu (max index (l.start q)) (le_max_left _ _) (by omega) ⟨q, hq, mem_block.mpr ?_⟩
  omega

/-- A key right before an uncovered range is the last position of a block. -/
theorem Uncovered.left_end (hu : l.Uncovered index size) (h : l.WF) (hs : 1 ≤ size) {v : Ptr}
    (hv : get l.indexTree (index - 1) = some v) : l.start v + l.len v = index := by
  have hb := mem_block.mp (h.covered_of_get hv)
  have hside := hu.side h hs ⟨_, hv⟩
  omega

/-- A key right after an uncovered range is the first position of a block. -/
theorem Uncovered.right_start (hu : l.Uncovered index size) (h : l.WF) (hs : 1 ≤ size) {v : Ptr}
    (hv : get l.indexTree (index + size) = some v) : l.start v = index + size := by
  have hb := mem_block.mp (h.covered_of_get hv)
  have hside := hu.side h hs ⟨_, hv⟩
  omega

/-- Taking a block out of the tree and of the size lists, in either order of its two ends. -/
theorem dropped_of_tree (h : l.WF) {v : Ptr} {tree : T}
    (ht : ∀ k, get tree k = if k = l.start v ∨ k = l.last v then none else get l.indexTree k) :
    Dropped l v (removeFromSizeList { l with indexTree := tree } v) where
  heap := removeFromSizeList_heap _ _
  fresh := removeFromSizeList_fresh _ _
  lookup k := by rw [removeFromSizeList_indexTree]; exact ht k
  sizeList := removeFromSizeList_sizeList fun b hb ↦ ((h.listed b v).mp hb).2

theorem mergeLeft_of_some (h : l.WF) (hu : l.Uncovered index size) (hs : 1 ≤ size) {v : Ptr}
    (hv : get l.indexTree (index - 1) = some v) (item : ItemPos) :
    Dropped l v (mergeLeft l item index size).1 ∧
      (mergeLeft l item index size).2 = ⟨l.len v + size, l.start v⟩ := by
  have hend := hu.left_end h hs hv
  simp only [mergeLeft, hv]
  refine ⟨dropped_of_tree h fun k ↦ ?_, rfl⟩
  have hlast : index - 1 = l.last v := by simp only [last]; omega
  have hstart : (l.heap v).parentIndex = l.start v := rfl
  rw [get_remove, get_remove, hlast, hstart]
  split_ifs <;> simp_all

theorem mergeRight_of_some (h : l.WF) (hu : l.Uncovered index size) (hs : 1 ≤ size) {v : Ptr}
    (hv : get l.indexTree (index + size) = some v) (item : ItemPos) :
    Dropped l v (mergeRight l item index size).1 ∧
      (mergeRight l item index size).2 = ⟨size + l.len v, index⟩ := by
  have hstart := hu.right_start h hs hv
  simp only [mergeRight, hv]
  refine ⟨dropped_of_tree h fun k ↦ ?_, rfl⟩
  have hlast : (l.heap v).parentIndex + (l.heap v).actualSize - 1 = l.last v := rfl
  rw [get_remove, get_remove, hlast, ← hstart]
  split_ifs <;> simp_all

theorem mergeLeft_of_none (hv : get l.indexTree (index - 1) = none) (item : ItemPos) :
    mergeLeft l item index size = (l, item) := by
  simp only [mergeLeft, hv]

theorem mergeRight_of_none (hv : get l.indexTree (index + size) = none) (item : ItemPos) :
    mergeRight l item index size = (l, item) := by
  simp only [mergeRight, hv]

/-- Without a key right before the range, no block ends there. -/
theorem WF.end_ne (h : l.WF) (hv : get l.indexTree (index - 1) = none) {q : Ptr}
    (hq : l.Recorded q) : l.start q + l.len q ≠ index := by
  intro he
  have hlast : l.last q = index - 1 := by simp only [last]; omega
  rw [← hlast, h.get_last q hq] at hv
  cases hv

/-- Without a key right after the range, no block starts there. -/
theorem WF.start_ne (h : l.WF) (hv : get l.indexTree (index + size) = none) {q : Ptr}
    (hq : l.Recorded q) : l.start q ≠ index + size := by
  intro he
  rw [← he, h.get_start q hq] at hv
  cases hv

/-- Replacing a part of a set by the part and something more. -/
theorem sdiff_union_union {α : Type} {c b r : Set α} (hb : b ⊆ c) : (c \ b) ∪ (b ∪ r) = c ∪ r := by
  rw [← Set.union_assoc, Set.sdiff_union_of_subset hb]

/-- A range with no neighbour becomes a block of its own. -/
theorem add_of_alone (h : l.WF) (hu : l.Uncovered index size) (hs : 1 ≤ size)
    (hl : get l.indexTree (index - 1) = none) (hr : get l.indexTree (index + size) = none) :
    (add l index size).WF ∧
      (add l index size).covered = l.covered ∪ Set.Ico index (index + size) := by
  have hc : l.Clear ⟨size, index⟩ := fun q hq ↦ by
    have hside := hu.side h hs hq
    have hne := h.end_ne hl hq
    have hne' := h.start_ne hr hq
    simp only
    omega
  simp only [add, mergeLeft_of_none hl, mergeRight_of_none hr]
  exact ⟨record_wf h hc hs, record_covered h hc hs⟩

/-- A range before a block is merged with it. -/
theorem add_of_right (h : l.WF) (hu : l.Uncovered index size) (hs : 1 ≤ size)
    (hl : get l.indexTree (index - 1) = none) {v : Ptr}
    (hr : get l.indexTree (index + size) = some v) :
    (add l index size).WF ∧
      (add l index size).covered = l.covered ∪ Set.Ico index (index + size) := by
  have hv : l.Recorded v := ⟨_, hr⟩
  have hstart := hu.right_start h hs hr
  have hlen := h.len_pos v hv
  obtain ⟨hd, hitem⟩ := mergeRight_of_some h hu hs hr ⟨size, index⟩
  have hwf := hd.wf h hv
  simp only [add, mergeLeft_of_none hl, hitem]
  generalize (mergeRight l ⟨size, index⟩ index size).1 = l' at hd hwf
  have hc : l'.Clear ⟨size + l.len v, index⟩ := by
    intro q hq
    obtain ⟨hq, hqv⟩ := (hd.recorded_iff h hv q).mp hq
    have hside := hu.side h hs hq
    have hne := h.end_ne hl hq
    have hap := h.apart v q hv hq hqv.symm
    have hpos := h.len_pos q hq
    rw [hd.start_eq, hd.len_eq]
    simp only
    omega
  have hpos : 1 ≤ size + l.len v := by omega
  refine ⟨record_wf hwf hc hpos, ?_⟩
  have hico : Set.Ico index (index + (size + l.len v)) =
      l.block v ∪ Set.Ico index (index + size) := by
    rw [block, hstart, Set.union_comm, Set.Ico_union_Ico_eq_Ico (by omega) (by omega),
      Int.add_assoc]
  rw [record_covered hwf hc hpos, hd.covered_eq h hv]
  simp only [hico]
  exact sdiff_union_union (block_subset_covered hv)

/-- A range after a block is merged with it. -/
theorem add_of_left (h : l.WF) (hu : l.Uncovered index size) (hs : 1 ≤ size) {v : Ptr}
    (hl : get l.indexTree (index - 1) = some v) (hr : get l.indexTree (index + size) = none) :
    (add l index size).WF ∧
      (add l index size).covered = l.covered ∪ Set.Ico index (index + size) := by
  have hv : l.Recorded v := ⟨_, hl⟩
  have hend := hu.left_end h hs hl
  have hlen := h.len_pos v hv
  obtain ⟨hd, hitem⟩ := mergeLeft_of_some h hu hs hl ⟨size, index⟩
  have hwf := hd.wf h hv
  have hget : get (mergeLeft l ⟨size, index⟩ index size).1.indexTree (index + size) = none := by
    rw [hd.lookup, hr, ite_self]
  simp only [add, mergeRight_of_none hget, hitem]
  generalize (mergeLeft l ⟨size, index⟩ index size).1 = l' at hd hwf
  have hc : l'.Clear ⟨l.len v + size, l.start v⟩ := by
    intro q hq
    obtain ⟨hq, hqv⟩ := (hd.recorded_iff h hv q).mp hq
    have hside := hu.side h hs hq
    have hne := h.start_ne hr hq
    have hap := h.apart v q hv hq hqv.symm
    have hpos := h.len_pos q hq
    rw [hd.start_eq, hd.len_eq]
    simp only
    omega
  have hpos : 1 ≤ l.len v + size := by omega
  refine ⟨record_wf hwf hc hpos, ?_⟩
  have hico : Set.Ico (l.start v) (l.start v + (l.len v + size)) =
      l.block v ∪ Set.Ico index (index + size) := by
    rw [block, hend, Set.Ico_union_Ico_eq_Ico (by omega) (by omega), ← hend, Int.add_assoc]
  rw [record_covered hwf hc hpos, hd.covered_eq h hv]
  simp only [hico]
  exact sdiff_union_union (block_subset_covered hv)

/-- **A range between two blocks is merged with the right one, and the left one is lost.** -/
theorem add_of_both (h : l.WF) (hu : l.Uncovered index size) (hs : 1 ≤ size) {v w : Ptr}
    (hl : get l.indexTree (index - 1) = some v) (hr : get l.indexTree (index + size) = some w) :
    (add l index size).WF ∧
      (add l index size).covered =
        (l.covered ∪ Set.Ico index (index + size)) \ l.block v := by
  have hv : l.Recorded v := ⟨_, hl⟩
  have hend := hu.left_end h hs hl
  obtain ⟨hd, -⟩ := mergeLeft_of_some h hu hs hl ⟨size, index⟩
  have hwf := hd.wf h hv
  -- the key right after the range is not one of the two that were taken out
  have hget : get (mergeLeft l ⟨size, index⟩ index size).1.indexTree (index + size) = some w := by
    have hlen := h.len_pos v hv
    rw [hd.lookup, if_neg, hr]
    simp only [last]
    omega
  rw [add]
  generalize mergeLeft l ⟨size, index⟩ index size = merged at hd hwf hget
  obtain ⟨l', item⟩ := merged
  have hcov := hd.covered_eq h hv
  have hu' : l'.Uncovered index size := by
    intro x hx hx' hxc
    rw [hcov] at hxc
    exact hu x hx hx' hxc.1
  -- what is left to do is a merge with a right neighbour only, in the list without the left one
  have hl' : get l'.indexTree (index - 1) = none := by
    rw [hd.lookup, if_pos (.inr (by simp only [last]; omega))]
  obtain ⟨hwf', hcov'⟩ := add_of_right hwf hu' hs hl' hget
  simp only [add, mergeLeft_of_none hl'] at hwf' hcov'
  have hitem : (mergeRight l' item index size) = mergeRight l' ⟨size, index⟩ index size := by
    simp only [mergeRight, hget]
  simp only [hitem]
  refine ⟨hwf', ?_⟩
  rw [hcov', hcov, Set.union_sdiff_distrib,
    Disjoint.sdiff_eq_left (a := Set.Ico index (index + size))]
  rw [Set.disjoint_left]
  intro x hxr hx
  rw [mem_block] at hx
  rw [Set.mem_Ico] at hxr
  omega

/-- What `add` forgets: the block before the range, when there is a block after it too.  The second
merge of `add` sets the start of the new block back to `index`. -/
def lost (l : FreeList T) (index size : ℤ) : Set ℤ :=
  match get l.indexTree (index - 1), get l.indexTree (index + size) with
  | some v, some _ => l.block v
  | _, _ => ∅

/-- **`add` keeps the invariant, covers the range, and forgets only what is lost.** -/
theorem add_spec (h : l.WF) (hu : l.Uncovered index size) (hs : 1 ≤ size) :
    (add l index size).WF ∧
      (add l index size).covered =
        (l.covered ∪ Set.Ico index (index + size)) \ l.lost index size := by
  cases hl : get l.indexTree (index - 1) with
  | none =>
    rw [lost, hl, Set.sdiff_empty]
    cases hr : get l.indexTree (index + size) with
    | none => exact add_of_alone h hu hs hl hr
    | some w => exact add_of_right h hu hs hl hr
  | some v =>
    cases hr : get l.indexTree (index + size) with
    | none =>
      rw [lost, hl, hr, Set.sdiff_empty]
      exact add_of_left h hu hs hl hr
    | some w =>
      rw [lost, hl, hr]
      exact add_of_both h hu hs hl hr

end Add

/-! ## Finding a range

`find` takes the first block of a list that is large enough, and gives its front away.  What is left
of it goes to another list when its class has changed. -/

/-- `l'` is `l` after the range of `size` bytes from `i` on was handed out. -/
structure Took (l : FreeList T) (size i : ℤ) (l' : FreeList T) : Prop where
  wf : l'.WF
  subset : Set.Ico i (i + size) ⊆ l.covered
  covered_eq : l'.covered = l.covered \ Set.Ico i (i + size)

/-- What is left of a block of the class `idx`, when it is left in place, is still of that class. -/
def StaysInClass (size : ℤ) (idx : Fin 8) (buckSize : ℤ) : Prop :=
  ∀ n, sizeClass n = some idx → size ≤ n → n - size ≥ buckSize → sizeClass (n - size) = some idx

theorem eraseP_eq_erase_of_find? {fits : Ptr → Bool} {xs : List Ptr} {p : Ptr}
    (h : xs.find? fits = some p) : xs.eraseP fits = xs.erase p := by
  induction xs with
  | nil => cases h
  | cons x xs ih =>
    rw [List.find?_cons] at h
    cases hx : fits x with
    | true =>
      rw [hx] at h
      obtain rfl : x = p := Option.some_inj.mp h
      simp [List.eraseP_cons_of_pos hx]
    | false =>
      rw [hx] at h
      have hne : x ≠ p := by
        rintro rfl
        rw [List.find?_some h] at hx
        cases hx
      rw [List.eraseP_cons_of_neg (by simp [hx]), ih h, List.erase_cons_tail (by simpa using hne)]

section Find

variable {l : FreeList T} {size : ℤ} {p : Ptr}

/-- Taking the block that was found out of its list takes it out of every list. -/
theorem WF.update_eraseP (h : l.WF) {idx : Fin 8} {fits : Ptr → Bool}
    (hf : (l.sizeList idx).find? fits = some p) (b : Fin 8) :
    Function.update l.sizeList idx ((l.sizeList idx).eraseP fits) b = (l.sizeList b).erase p := by
  rw [eraseP_eq_erase_of_find? hf]
  by_cases hb : b = idx
  · subst hb; rw [Function.update_self]
  · rw [Function.update_of_ne hb, List.erase_of_not_mem]
    intro hm
    have h1 := ((h.listed b p).mp hm).2
    have h2 := ((h.listed idx p).mp (List.mem_of_find?_eq_some hf)).2
    rw [h1] at h2
    exact hb (Option.some_inj.mp h2)

/-- A block that is handed out whole. -/
theorem Dropped.took {l' : FreeList T} (hd : Dropped l p l') (h : l.WF) (hp : l.Recorded p)
    (hs : size = l.len p) : Took l size (l.start p) l' := by
  subst hs
  exact ⟨hd.wf h hp, block_subset_covered hp, hd.covered_eq h hp⟩

/-- A block whose front is handed out and whose rest stays where it is. -/
theorem Shrunk.took {l' : FreeList T} (hsh : Shrunk l p size l') (h : l.WF) (hp : l.Recorded p)
    (hs : 1 ≤ size) (hlt : size < l.len p)
    (hclass : sizeClass (l.len p - size) = sizeClass (l.len p)) :
    Took l size (l.start p) l' := by
  refine ⟨hsh.wf h hp hs hlt hclass, ?_, hsh.covered_eq h hp hs hlt⟩
  intro x hx
  rw [Set.mem_Ico] at hx
  exact ⟨p, hp, mem_block.mpr (by omega)⟩

/-- A block that is taken out and whose rest is added back. -/
theorem Dropped.took_add {l' : FreeList T} (hd : Dropped l p l') (h : l.WF) (hp : l.Recorded p)
    (hs : 1 ≤ size) (hlt : size < l.len p) :
    Took l size (l.start p) (add l' (l.start p + size) (l.len p - size)) := by
  have hwf := hd.wf h hp
  have hcov := hd.covered_eq h hp
  have hnot : ∀ x, l.start p ≤ x → x < l.start p + l.len p → x ∉ l'.covered := by
    intro x hx hx' hxc
    rw [hcov] at hxc
    exact hxc.2 (mem_block.mpr ⟨hx, hx'⟩)
  have hu : l'.Uncovered (l.start p + size) (l.len p - size) :=
    fun x hx hx' ↦ hnot x (by omega) (by omega)
  -- the position before the rest belongs to what is handed out, so there is no left neighbour
  have hnone : get l'.indexTree (l.start p + size - 1) = none := by
    cases hg : get l'.indexTree (l.start p + size - 1) with
    | none => rfl
    | some q =>
      exact absurd (block_subset_covered ⟨_, hg⟩ (hwf.covered_of_get hg))
        (hnot _ (by omega) (by omega))
  obtain ⟨hwf', hcov'⟩ := add_spec hwf hu (by omega)
  refine ⟨hwf', ?_, ?_⟩
  · intro x hx
    rw [Set.mem_Ico] at hx
    exact ⟨p, hp, mem_block.mpr (by omega)⟩
  · rw [hcov', lost, hnone, Set.sdiff_empty, hcov]
    ext x
    have hx : x ∈ l.block p → x ∈ l.covered := fun hx ↦ ⟨p, hp, hx⟩
    simp only [Set.mem_union, Set.mem_sdiff, mem_block, Set.mem_Ico] at hx ⊢
    constructor
    · rintro (⟨hxc, hxb⟩ | hxr)
      · exact ⟨hxc, by omega⟩
      · exact ⟨hx (by omega), by omega⟩
    · rintro ⟨hxc, hxn⟩
      by_cases hxb : l.start p ≤ x ∧ x < l.start p + l.len p
      · exact .inr (by omega)
      · exact .inl ⟨hxc, hxb⟩

/-- **One list**: either it has no block that is large enough and nothing changes, or a range is
taken. -/
theorem findInSizeList_spec (h : l.WF) (hs : 1 ≤ size) {idx : Fin 8} {buckSize : ℤ}
    (hstay : StaysInClass size idx buckSize) :
    (findInSizeList l idx size buckSize = (l, none) ∧ ∀ q ∈ l.sizeList idx, l.len q < size) ∨
      ∃ l' i, findInSizeList l idx size buckSize = (l', some i) ∧ Took l size i l' := by
  simp only [findInSizeList]
  split
  · rename_i hf
    refine .inl ⟨rfl, fun q hq ↦ ?_⟩
    have := List.find?_eq_none.mp hf q hq
    simpa [len] using this
  · rename_i q hf
    right
    have hle : size ≤ l.len q := by simpa [len] using List.find?_some hf
    obtain ⟨hq, hclass⟩ := (h.listed idx q).mp (List.mem_of_find?_eq_some hf)
    have htree : ∀ k, get (remove (remove l.indexTree (l.heap q).parentIndex)
        ((l.heap q).parentIndex + (l.heap q).actualSize - 1)) k =
        if k = l.start q ∨ k = l.last q then none else get l.indexTree k := by
      intro k
      rw [get_remove, get_remove]
      change (if k = l.last q then none else if k = l.start q then none else _) = _
      split_ifs <;> simp_all
    split
    · rename_i heq
      refine ⟨_, _, rfl, Dropped.took (p := q) ⟨rfl, rfl, ?_, h.update_eraseP hf⟩ h hq heq⟩
      rw [Int.add_comm (l.heap q).actualSize]
      exact htree
    · have hlt : size < l.len q := lt_of_le_of_ne hle ‹_›
      split
      · rename_i hbuck
        refine ⟨_, _, rfl, Shrunk.took (p := q) ⟨rfl, rfl, fun k ↦ ?_, rfl⟩ h hq hs hlt ?_⟩
        · rw [get_put, get_remove]
          rfl
        · rw [hclass]
          exact hstay _ hclass hle hbuck
      · exact ⟨_, _, rfl,
          Dropped.took_add (p := q) ⟨rfl, rfl, htree, h.update_eraseP hf⟩ h hq hs hlt⟩

/-! ### The loop over the lists -/

theorem sizeClass_of_gt {n : ℤ} (h : 4096 < n) : sizeClass n = some 7 := by
  simp only [sizeClass]
  repeat rw [if_neg (by omega)]
  rw [if_pos h]

/-- A class other than the last has an upper bound, and the last one a lower bound. -/
theorem sizeClass_bound {n : ℤ} {b : Fin 8} (h : sizeClass n = some b) :
    (b = 7 ∧ 4096 < n) ∨ (b ≠ 7 ∧ n < 64 * 2 ^ (b : ℕ)) := by
  revert h
  fun_cases sizeClass n <;> intro h
  case case9 => cases h
  all_goals
    obtain rfl := Option.some_inj.mp h
    first | exact .inl ⟨rfl, by omega⟩ | exact .inr ⟨by decide, by simp; omega⟩

theorem staysInClass_last {size : ℤ} : StaysInClass size 7 4097 :=
  fun _ _ _ hn ↦ sizeClass_of_gt (by omega)

/-- In a class other than the last, what is left is never as large as the bound of the class. -/
theorem staysInClass_bound {size : ℤ} (hs : 1 ≤ size) {idx : Fin 8} (hidx : idx ≠ 7) {buckSize : ℤ}
    (hb : buckSize = 64 * 2 ^ (idx : ℕ) ∨ size = 4096) : StaysInClass size idx buckSize := by
  intro n hn hle hbuck
  rcases sizeClass_bound hn with ⟨h7, -⟩ | ⟨-, hlt⟩
  · exact absurd h7 hidx
  · have hmax : ∀ b : Fin 8, b ≠ 7 → (64 : ℤ) * 2 ^ (b : ℕ) ≤ 4096 := by decide
    have := hmax idx hidx
    omega

/-- The lists still to be searched, each with the size that `find` compares what is left of a block
of it with. -/
def StayInClass (size : ℤ) : List (Fin 8) → ℤ → Prop
  | [], _ => True
  | idx :: rest, buckSize =>
    StaysInClass size idx buckSize ∧ StayInClass size rest (nextBuckSize idx buckSize)

theorem stayInClass_findStart {size : ℤ} (hs : 1 ≤ size) :
    StayInClass size ((List.finRange 8).drop (findStart size).1) (findStart size).2 := by
  have hb : ∀ idx : Fin 8, idx ≠ 7 → StaysInClass size idx (64 * 2 ^ (idx : ℕ)) :=
    fun idx hidx ↦ staysInClass_bound hs hidx (.inl rfl)
  have h0 : StaysInClass size 0 64 := hb 0 (by decide)
  have h1 : StaysInClass size 1 128 := hb 1 (by decide)
  have h2 : StaysInClass size 2 256 := hb 2 (by decide)
  have h3 : StaysInClass size 3 512 := hb 3 (by decide)
  have h4 : StaysInClass size 4 1024 := hb 4 (by decide)
  have h5 : StaysInClass size 5 2048 := hb 5 (by decide)
  have h6 : StaysInClass size 6 4096 := hb 6 (by decide)
  have hlist : List.finRange 8 = [0, 1, 2, 3, 4, 5, 6, 7] := by decide
  by_cases h4096 : size = 4096
  · -- the size without a case: every list is searched, and blocks below 4096 bytes are too small
    have hz : ∀ idx : Fin 8, idx ≠ 7 → StaysInClass 4096 idx 0 :=
      fun idx hidx ↦ staysInClass_bound (by decide) hidx (.inr rfl)
    subst h4096
    simp [findStart, hlist, StayInClass, nextBuckSize, staysInClass_last, hz]
  · rw [hlist]
    fun_cases findStart size
    case case9 => omega
    all_goals simp [StayInClass, nextBuckSize, staysInClass_last, h0, h1, h2, h3, h4, h5, h6]

/-- **The search**: either no list has a block that is large enough and nothing changes, or a range
is taken. -/
theorem findFrom_spec (h : l.WF) (hs : 1 ≤ size) {lists : List (Fin 8)} {buckSize : ℤ}
    (hstay : StayInClass size lists buckSize) :
    (findFrom l size lists buckSize = (l, -1) ∧
        ∀ idx ∈ lists, ∀ q ∈ l.sizeList idx, l.len q < size) ∨
      Took l size (findFrom l size lists buckSize).2 (findFrom l size lists buckSize).1 := by
  induction lists generalizing buckSize with
  | nil => exact .inl ⟨rfl, by simp⟩
  | cons idx rest ih =>
    rcases findInSizeList_spec h hs hstay.1 with ⟨hnone, hsmall⟩ | ⟨l', i, hsome, htook⟩
    · simp only [findFrom, hnone]
      refine (ih hstay.2).imp (fun ⟨heq, hrest⟩ ↦ ⟨heq, ?_⟩) id
      simpa using ⟨hsmall, hrest⟩
    · right
      simpa only [findFrom, hsome] using htook

/-- **`find` hands out a range that was free, and nothing else changes.** -/
theorem find_spec (h : l.WF) (hs : 1 ≤ size) :
    find l size = (l, -1) ∨ Took l size (find l size).2 (find l size).1 :=
  (findFrom_spec h hs (stayInClass_findStart hs)).imp And.left id

end Find

end FreeList
end ClusteredBigCache
