import Mathlib.Data.List.Pairwise
import ClusteredBigCache.Lib.TransitionSystem
import ClusteredBigCache.Queue.BytesQueue
import ClusteredBigCache.Queue.FreeListSpec

/-!
# What the byte queue stores

The cache uses the queue in one way only: it pushes entries, reads them by index and deletes them
by index; nothing is ever popped.  The head then stays at the left margin, the array is a sequence
of entries below the tail, and each position below the tail belongs to a live entry, to a free
block, or to nobody (a block the free list lost).  `BytesQueue.Inv` is that picture.

* `Push_cases` says everything `Push` can do to a queue in that shape: reuse a free range, write
  behind the tail, grow, or report that the queue is full.  It is the only place where `Push` is
  taken apart; `PushOutcome.inv` and the results of later files start from it.
* `Framed.peek` and `Inv.delete_scribbled` are the same for reading and deleting an entry.
  The latter allows the data of the entry to have been overwritten first, which is what the shard
  above does.
* `storage_integrity` is the outcome for whole runs: through any mixture of reuse, splitting,
  merging and growth, every entry that was pushed and not deleted since reads back exactly as it
  was pushed.
-/

set_option autoImplicit false

namespace ClusteredBigCache
namespace BytesQueue

open FreeList (Took covered)

variable {T : Type}

/-! ## Writing an entry -/

/-- What an entry occupies: its length, then its data. -/
def frame (data : Bytes) : Bytes := Bytes.toLE headerEntrySize data.length ++ data

@[simp] theorem length_frame (data : Bytes) : (frame data).length = data.length + 4 := by
  simp [frame, headerEntrySize, Nat.add_comm]

/-- A copy that fits. -/
theorem copy_eq {q : BytesQueue T} {data : Bytes} (h : q.tail + data.length ≤ q.array.length) :
    q.copy data =
      .ok { q with array := Bytes.blit q.array q.tail data, tail := q.tail + data.length } := by
  rw [copy, if_neg (by omega), Nat.min_eq_right (by omega)]

/-- The two copies that write an entry, when it fits. -/
theorem copy_frame {q : BytesQueue T} {data : Bytes}
    (h : q.tail + (data.length + 4) ≤ q.array.length) :
    (do
      let q ← q.copy (Bytes.toLE headerEntrySize data.length)
      q.copy data) =
      .ok { q with
        array := Bytes.blit q.array q.tail (frame data)
        tail := q.tail + (data.length + 4) } := by
  have hlen : (Bytes.toLE headerEntrySize data.length).length = 4 := Bytes.length_toLE _ _
  rw [copy_eq (by omega), Go.ok_bind, copy_eq (by simp only [Bytes.length_blit]; omega)]
  simp only [Bytes.blit_blit_append]
  rw [hlen, Nat.add_assoc, Nat.add_comm 4, frame]

/-- Writing an entry behind the tail. -/
theorem push_eq {q : BytesQueue T} {data : Bytes} (hhead : q.head ≤ q.tail)
    (h : q.tail + (data.length + 4) ≤ q.array.length) :
    q.push data =
      .ok { q with
        array := Bytes.blit q.array q.tail (frame data)
        tail := q.tail + (data.length + 4)
        rightMargin := q.tail + (data.length + 4)
        count := q.count + 1 } := by
  rw [push, ← bind_assoc, copy_frame h, Go.ok_bind]
  simp only
  rw [if_pos (by omega)]
  rfl

/-- Writing an entry into a free range. -/
theorem pushFree_eq {q : BytesQueue T} {data : Bytes} {idx : ℤ} (hidx : 0 ≤ idx)
    (h : idx.toNat + (data.length + 4) ≤ q.array.length) :
    q.pushFree idx data =
      .ok ({ q with
        array := Bytes.blit q.array idx.toNat (frame data)
        count := q.count + 1
        live := (idx.toNat, data) :: q.live }, idx.toNat) := by
  rw [pushFree, if_neg (by omega), ← bind_assoc, copy_frame h, Go.ok_bind]
  rfl

/-- The check of `Push` that the maximum size is reached. -/
def Full (q : BytesQueue T) (need : ℕ) : Prop :=
  (q.capacity : ℤ) + need ≥ q.maxCapacity ∧ q.maxCapacity > 0

instance (q : BytesQueue T) (need : ℕ) : Decidable (q.Full need) :=
  inferInstanceAs (Decidable (_ ∧ _))

/-- The array a growth moves to, when nothing was ever popped. -/
def grownArray (q : BytesQueue T) (need : ℕ) : Bytes :=
  Bytes.blit (List.replicate (q.grownCapacity need) 0) 0
    (if q.tail = 1 then [] else q.array.take q.tail)

/-- The queue after a growth. -/
def grown (q : BytesQueue T) (need : ℕ) : BytesQueue T :=
  { q with
    capacity := q.grownCapacity need
    retired := q.retired ++ [q.array]
    array := q.grownArray need }

@[simp] theorem length_grownArray (q : BytesQueue T) (need : ℕ) :
    (q.grownArray need).length = q.grownCapacity need := by
  simp [grownArray]

/-- Moving to a larger array while the tail is not before the head. -/
theorem allocateAdditionalMemory_eq {q : BytesQueue T} (hmargin : q.rightMargin = q.tail)
    (hhead : q.head ≤ q.tail) (hle : q.tail ≤ max q.array.length 1) (need : ℕ) :
    q.allocateAdditionalMemory need = .ok (q.grown need) := by
  simp only [allocateAdditionalMemory, hmargin, leftMarginIndex, grown, grownArray]
  by_cases h1 : q.tail = 1
  · rw [if_pos h1.symm, if_pos h1]
    simp [Bytes.blit]
  · rw [if_neg (Ne.symm h1), if_neg (by omega), if_neg (by omega), if_neg h1]

/-- **A growth makes enough room**, also when it is clamped to the maximum capacity. -/
theorem le_grownCapacity {q : BytesQueue T} {i need : ℕ} (hle : i ≤ max q.capacity 1)
    (hneed : 1 ≤ need) (hfull : ¬ q.Full need) : i + need ≤ q.grownCapacity need := by
  simp only [Full, not_and_or, not_le, not_lt, ge_iff_le, gt_iff_lt] at hfull
  simp only [grownCapacity]
  split_ifs <;> omega

/-- A growth keeps the bytes below the tail. -/
theorem getElem?_grownArray {q : BytesQueue T} (hlen : q.array.length = q.capacity)
    (hle : q.tail ≤ max q.capacity 1) {need : ℕ} (hneed : 1 ≤ need) (hfull : ¬ q.Full need)
    {i : ℕ} (h1 : 1 ≤ i) (hi : i < q.tail) : (q.grownArray need)[i]? = q.array[i]? := by
  have hcap := le_grownCapacity hle hneed hfull
  rw [grownArray, if_neg (by omega), Bytes.getElem?_blit, if_pos]
  · rw [Nat.sub_zero, List.getElem?_take_of_lt hi]
  · simp only [List.length_take, List.length_replicate]
    omega

/-- The queue after an entry was written at a position. -/
def written (q : BytesQueue T) (index : ℕ) (data : Bytes) : BytesQueue T :=
  { q with
    array := Bytes.blit q.array index (frame data)
    count := q.count + 1
    live := (index, data) :: q.live }

/-- The queue after an entry was written behind the tail. -/
def pushed (q : BytesQueue T) (data : Bytes) : BytesQueue T :=
  { q.written q.tail data with
    tail := q.tail + (data.length + 4)
    rightMargin := q.tail + (data.length + 4) }

/-! ## Stored entries -/

/-- Two entries do not overlap. -/
def Apart (e f : ℕ × Bytes) : Prop :=
  e.1 + (e.2.length + 4) ≤ f.1 ∨ f.1 + (f.2.length + 4) ≤ e.1

instance (e f : ℕ × Bytes) : Decidable (Apart e f) := inferInstanceAs (Decidable (_ ∨ _))

instance : Std.Symm Apart := ⟨fun _ _ ↦ Or.symm⟩

theorem Apart.ne {e f : ℕ × Bytes} (h : Apart e f) : e.1 ≠ f.1 := by
  simp only [Apart] at h
  omega

/-- An entry lies between the left margin and the tail, and its bytes are there. -/
structure Stored (q : BytesQueue T) (e : ℕ × Bytes) : Prop where
  pos : 1 ≤ e.1
  le_tail : e.1 + (e.2.length + 4) ≤ q.tail
  nonempty : 1 ≤ e.2.length
  length_lt : e.2.length < 2 ^ 32
  bytes : Bytes.sub q.array e.1 (e.2.length + 4) = frame e.2

/-- An entry stays stored when its bytes do not change and the tail does not move back. -/
theorem Stored.mono {q q' : BytesQueue T} {e : ℕ × Bytes} (he : q.Stored e)
    (htail : q.tail ≤ q'.tail)
    (hb : Bytes.sub q'.array e.1 (e.2.length + 4) = Bytes.sub q.array e.1 (e.2.length + 4)) :
    q'.Stored e where
  pos := he.pos
  le_tail := he.le_tail.trans htail
  nonempty := he.nonempty
  length_lt := he.length_lt
  bytes := hb.trans he.bytes

/-- An entry that was just written is stored. -/
theorem stored_written {q q' : BytesQueue T} {i : ℕ} {data : Bytes} (hpos : 1 ≤ i)
    (hone : 1 ≤ data.length) (hlt : data.length < 2 ^ 32)
    (hfit : i + (data.length + 4) ≤ q.array.length)
    (harray : q'.array = Bytes.blit q.array i (frame data))
    (htail : i + (data.length + 4) ≤ q'.tail) : q'.Stored (i, data) where
  pos := hpos
  le_tail := htail
  nonempty := hone
  length_lt := hlt
  bytes := by
    rw [harray, ← length_frame data]
    exact Bytes.sub_blit_self (by rwa [length_frame])

/-- An entry stays stored when another one is written beside it. -/
theorem Stored.written {q q' : BytesQueue T} {e : ℕ × Bytes} (he : q.Stored e) {i : ℕ}
    {data : Bytes} (hap : Apart (i, data) e)
    (harray : q'.array = Bytes.blit q.array i (frame data)) (htail : q.tail ≤ q'.tail) :
    q'.Stored e := by
  refine he.mono htail ?_
  rw [harray]
  refine Bytes.sub_blit_of_disjoint ?_
  rw [length_frame]
  exact Or.symm hap

/-- The header of a frame that is in place. -/
theorem header_of_frame {a data : Bytes} {i : ℕ}
    (h : Bytes.sub a i (data.length + 4) = frame data) :
    Bytes.sub a i 4 = Bytes.toLE 4 data.length := by
  have hframe : Bytes.sub (frame data) 0 4 = Bytes.toLE 4 data.length := by
    simpa [frame, headerEntrySize] using
      Bytes.sub_append_left (a := Bytes.toLE 4 data.length) (b := data)
  rw [← hframe, ← h, Bytes.sub_sub (by omega), Nat.add_zero]

/-- The data of a frame that is in place. -/
theorem data_of_frame {a data : Bytes} {i : ℕ}
    (h : Bytes.sub a i (data.length + 4) = frame data) :
    Bytes.sub a (i + 4) data.length = data := by
  have hframe : Bytes.sub (frame data) 4 data.length = data := by
    simpa [frame, headerEntrySize] using
      Bytes.sub_append_right (a := Bytes.toLE 4 data.length) (b := data)
  have hsub : Bytes.sub (Bytes.sub a i (data.length + 4)) 4 data.length = Bytes.sub a (i + 4) _ :=
    Bytes.sub_sub (Nat.add_comm _ _).le
  rw [← hsub, h, hframe]

/-- Reading an entry whose header is in place. -/
theorem peek_of_header {q : BytesQueue T} {i n : ℕ} (hcount : q.count ≠ 0) (hpos : 1 ≤ i)
    (hn : i + 4 < q.array.length) (hlt : n < 2 ^ 32) (hfit : i + 4 + n ≤ q.array.length)
    (hhead : Bytes.sub q.array i 4 = Bytes.toLE 4 n) :
    q.peek i = .ok (.ok (⟨q.retired.length, i + 4, n⟩, n)) := by
  have hsize : Bytes.ofLE (Bytes.sub q.array i 4) = n := by
    rw [hhead, Bytes.ofLE_toLE_of_lt (by omega)]
  simp only [peek, headerEntrySize, Int.toNat_natCast, hsize]
  rw [if_neg hcount, if_neg (by omega), if_neg (by push_cast; omega), if_neg (by omega)]

/-- The slice over the data of an entry. -/
def view (q : BytesQueue T) (e : ℕ × Bytes) : Slice := ⟨q.retired.length, e.1 + 4, e.2.length⟩

theorem load_view (q : BytesQueue T) (e : ℕ × Bytes) :
    (q.load (q.view e)).bytes = Bytes.sub q.array (e.1 + 4) e.2.length := by
  simp [load, view, backing]

/-- A queue that is not empty has the header and the data of an entry in its array. -/
structure Framed (q : BytesQueue T) (e : ℕ × Bytes) : Prop where
  count_ne_zero : q.count ≠ 0
  pos : 1 ≤ e.1
  nonempty : 1 ≤ e.2.length
  length_lt : e.2.length < 2 ^ 32
  le : e.1 + (e.2.length + 4) ≤ q.array.length
  bytes : Bytes.sub q.array e.1 (e.2.length + 4) = frame e.2

/-- **Reading an entry**: the slice is over its data. -/
theorem Framed.peek {q : BytesQueue T} {e : ℕ × Bytes} (h : q.Framed e) :
    q.peek e.1 = .ok (.ok (q.view e, e.2.length)) := by
  have hone := h.nonempty
  have hle := h.le
  exact peek_of_header h.count_ne_zero h.pos (by omega) h.length_lt (by omega)
    (header_of_frame h.bytes)

/-- **Getting an entry** gives a slice over its data. -/
theorem Framed.get {q : BytesQueue T} {e : ℕ × Bytes} (h : q.Framed e) :
    q.get e.1 = .ok (.ok (q.view e)) ∧ (q.load (q.view e)).bytes = e.2 := by
  constructor
  · rw [BytesQueue.get, h.peek]
    rfl
  · rw [load_view]
    exact data_of_frame h.bytes

/-! ## The invariant

The ghost field `live` lists the entries that were pushed and not deleted.  They lie apart from each
other and from the free blocks, and their bytes are in the array. -/

variable [OrderedMap T ℤ Ptr]

/-- **The storage invariant.** -/
structure Inv (q : BytesQueue T) : Prop where
  length_eq : q.array.length = q.capacity
  head_eq : q.head = 1
  one_le_tail : 1 ≤ q.tail
  tail_le : q.tail ≤ max q.capacity 1
  margin_eq : q.rightMargin = q.tail
  count_eq : q.count = q.live.length
  stored : ∀ e ∈ q.live, q.Stored e
  apart : q.live.Pairwise Apart
  free_wf : q.freelist.WF
  free_lt : ∀ x ∈ q.freelist.covered, 1 ≤ x ∧ x < q.tail
  free_apart : ∀ e ∈ q.live, ∀ x ∈ q.freelist.covered,
    x < e.1 ∨ (e.1 : ℤ) + (e.2.length + 4) ≤ x

theorem new_inv (initialCapacity : ℕ) (maxCapacity : ℤ) :
    (new initialCapacity maxCapacity : BytesQueue T).Inv where
  length_eq := List.length_replicate
  head_eq := rfl
  one_le_tail := le_rfl
  tail_le := le_max_right _ _
  margin_eq := rfl
  count_eq := rfl
  stored e he := absurd he List.not_mem_nil
  apart := List.Pairwise.nil
  free_wf := FreeList.new_wf
  free_lt x hx := by simp [new] at hx
  free_apart e he := absurd he List.not_mem_nil

/-! ## Pushing

Nothing is popped here, as in the cache, so the head stays at the left margin and the tail never
wraps around.  Four cases of `Push` are left. -/

/-- Everything `Push` can do to a queue from which nothing was ever popped. -/
inductive PushOutcome (q : BytesQueue T) (data : Bytes) :
    BytesQueue T → Except QueueError ℕ → Prop
  /-- A range of the free list is reused. -/
  | reuse {fl : FreeList T} {i : ℤ} (hf : q.freelist.find (data.length + 4 : ℕ) = (fl, i))
      (hi : i ≠ -1) (ht : Took q.freelist (data.length + 4 : ℕ) i fl) :
      PushOutcome q data { q.written i.toNat data with freelist := fl } (.ok i.toNat)
  /-- The entry fits behind the tail. -/
  | behind (hf : q.freelist.find (data.length + 4 : ℕ) = (q.freelist, -1))
      (hfit : q.tail + (data.length + 4) ≤ q.capacity) :
      PushOutcome q data (q.pushed data) (.ok q.tail)
  /-- The array is replaced by a larger one. -/
  | grow (hf : q.freelist.find (data.length + 4 : ℕ) = (q.freelist, -1))
      (hfit : q.capacity < q.tail + (data.length + 4)) (hfull : ¬ q.Full (data.length + 4)) :
      PushOutcome q data ((q.grown (data.length + 4)).pushed data) (.ok q.tail)
  /-- The maximum size is reached. -/
  | full (hf : q.freelist.find (data.length + 4 : ℕ) = (q.freelist, -1))
      (hfit : q.capacity < q.tail + (data.length + 4)) (hfull : q.Full (data.length + 4)) :
      PushOutcome q data q (.error .full)

/-- The positions of a range that was free are below the tail. -/
theorem Inv.took_bounds {q : BytesQueue T} (h : q.Inv) {n : ℕ} (hn : 1 ≤ n) {i : ℤ}
    {fl : FreeList T} (ht : Took q.freelist n i fl) : 1 ≤ i ∧ i + n ≤ q.tail := by
  have hfirst := h.free_lt i (ht.subset ⟨le_refl i, by omega⟩)
  have hlast := h.free_lt (i + n - 1) (ht.subset ⟨by omega, by omega⟩)
  omega

/-- The room at the tail is what is left of the array; there is none before the head. -/
theorem Inv.makeRoom_eq {q : BytesQueue T} (h : q.Inv) (need : ℕ) :
    q.makeRoom need =
      if q.capacity < q.tail + need then
        if q.Full need then .ok (.error .full)
        else (q.allocateAdditionalMemory need).map .ok
      else .ok (.ok q) := by
  have hhead := h.head_eq
  have hpos := h.one_le_tail
  have hafter : q.availableSpaceAfterTail = q.capacity - q.tail := by
    rw [availableSpaceAfterTail, if_pos (by omega)]
  have hbefore : q.availableSpaceBeforeHead = -36 := by
    rw [availableSpaceBeforeHead, if_pos (by omega), hhead]
    rfl
  rw [makeRoom, hafter, hbefore]
  by_cases hfit : q.capacity < q.tail + need
  · rw [if_pos (by omega), if_pos hfit, if_neg (by omega)]
    rfl
  · rw [if_neg (by omega), if_neg hfit]

theorem Push_of_free {q : BytesQueue T} {data : Bytes} {fl : FreeList T} {i : ℤ}
    (hf : q.freelist.find (data.length + 4 : ℕ) = (fl, i)) (hi : i ≠ -1) (hpos : 0 ≤ i)
    (hfit : i.toNat + (data.length + 4) ≤ q.array.length) :
    q.Push data = .ok ({ q.written i.toNat data with freelist := fl }, .ok i.toNat) := by
  unfold Push
  simp only [headerEntrySize, hf]
  rw [if_pos hi, pushFree_eq (q := { q with freelist := fl }) hpos hfit]
  rfl

theorem Push_of_none {q : BytesQueue T} {data : Bytes}
    (hf : q.freelist.find (data.length + 4 : ℕ) = (q.freelist, -1)) :
    q.Push data = (do
      match ← q.makeRoom (data.length + 4) with
      | .error e => pure (q, .error e)
      | .ok q =>
        let index := q.tail
        let q ← q.push data
        pure ({ q with live := (index, data) :: q.live }, .ok index)) := by
  unfold Push
  simp only [headerEntrySize, hf]
  exact (if_neg (not_not.mpr rfl)).trans rfl

/-- **`Push` returns, and does one of four things.** -/
theorem Push_cases {q : BytesQueue T} (h : q.Inv) (data : Bytes) :
    ∃ q' r, q.Push data = .ok (q', r) ∧ PushOutcome q data q' r := by
  have hlen := h.length_eq
  have htail := h.tail_le
  have hneed : (1 : ℤ) ≤ (data.length + 4 : ℕ) := by omega
  rcases hfind : q.freelist.find (data.length + 4 : ℕ) with ⟨fl, i⟩
  rcases FreeList.find_spec h.free_wf hneed with hf | ht
  · -- no free range: room is made at the tail
    rw [Push_of_none hf, h.makeRoom_eq]
    by_cases hfit : q.capacity < q.tail + (data.length + 4)
    · rw [if_pos hfit]
      by_cases hfull : q.Full (data.length + 4)
      · rw [if_pos hfull]
        exact ⟨_, _, rfl, .full hf hfit hfull⟩
      · have hcap : q.tail + (data.length + 4) ≤ _ := le_grownCapacity htail (by omega) hfull
        have hhead : q.head ≤ q.tail := h.head_eq.trans_le h.one_le_tail
        rw [if_neg hfull, allocateAdditionalMemory_eq h.margin_eq hhead (by rwa [hlen])]
        refine ⟨_, _, ?_, .grow hf hfit hfull⟩
        simp only [Except.map, Go.ok_bind]
        rw [push_eq (q := q.grown _) hhead (by simpa [grown] using hcap)]
        rfl
    · rw [if_neg hfit]
      refine ⟨_, _, ?_, .behind hf (by omega)⟩
      simp only [Go.ok_bind]
      rw [push_eq (h.head_eq.trans_le h.one_le_tail) (by omega)]
      rfl
  · rw [hfind] at ht
    have hb := h.took_bounds (by omega) ht
    simp only at hb
    exact ⟨_, _, Push_of_free hfind (by omega) (by omega) (by omega),
      .reuse hfind (by omega) ht⟩

/-- Writing into a free range keeps the invariant. -/
theorem Inv.reuse {q : BytesQueue T} (h : q.Inv) {data : Bytes} (hone : 1 ≤ data.length)
    (hlt : data.length < 2 ^ 32) {i : ℤ} {fl : FreeList T}
    (ht : Took q.freelist (data.length + 4 : ℕ) i fl) :
    ({ q.written i.toNat data with freelist := fl } : BytesQueue T).Inv := by
  have hb := h.took_bounds (by omega) ht
  have htail := h.tail_le
  have hlen := h.length_eq
  have hcover : ∀ x ∈ fl.covered, x ∈ q.freelist.covered ∧
      (x < i ∨ i + (data.length + 4 : ℕ) ≤ x) := by
    intro x hx
    rw [ht.covered_eq, Set.mem_sdiff, Set.mem_Ico] at hx
    exact ⟨hx.1, by omega⟩
  -- the range was free, so no live entry is in its way
  have hap : ∀ e ∈ q.live, Apart (i.toNat, data) e := by
    intro e he
    have hfirst := h.free_apart e he i (ht.subset ⟨le_refl i, by omega⟩)
    have hone' := (h.stored e he).nonempty
    by_contra hno
    simp only [Apart] at hno
    have hmid := h.free_apart e he e.1 (ht.subset ⟨by omega, by omega⟩)
    omega
  exact {
    length_eq := by simpa [BytesQueue.written] using hlen
    head_eq := h.head_eq
    one_le_tail := h.one_le_tail
    tail_le := htail
    margin_eq := h.margin_eq
    count_eq := by simpa [BytesQueue.written] using h.count_eq
    stored := by
      intro e he
      rcases List.mem_cons.mp he with rfl | he
      · exact stored_written (q := q) (by omega) hone hlt (by omega) rfl
          (by simp only [BytesQueue.written]; omega)
      · exact (h.stored e he).written (hap e he) rfl le_rfl
    apart := List.pairwise_cons.mpr ⟨hap, h.apart⟩
    free_wf := ht.wf
    free_lt := fun x hx ↦ h.free_lt x (hcover x hx).1
    free_apart := by
      intro e he x hx
      rcases List.mem_cons.mp he with rfl | he
      · have := (hcover x hx).2
        simp only
        omega
      · exact h.free_apart e he x (hcover x hx).1 }

/-- Writing behind the tail keeps the invariant. -/
theorem Inv.pushed {q : BytesQueue T} (h : q.Inv) {data : Bytes} (hone : 1 ≤ data.length)
    (hlt : data.length < 2 ^ 32) (hfit : q.tail + (data.length + 4) ≤ q.capacity) :
    (q.pushed data).Inv := by
  have hlen := h.length_eq
  have hap : ∀ e ∈ q.live, Apart (q.tail, data) e := fun e he ↦ .inr (h.stored e he).le_tail
  exact {
    length_eq := by simpa [BytesQueue.pushed, BytesQueue.written] using hlen
    head_eq := h.head_eq
    one_le_tail := by simp only [BytesQueue.pushed]; omega
    tail_le := le_max_of_le_left hfit
    margin_eq := rfl
    count_eq := by simpa [BytesQueue.pushed, BytesQueue.written] using h.count_eq
    stored := by
      intro e he
      rcases List.mem_cons.mp he with rfl | he
      · exact stored_written (q := q) h.one_le_tail hone hlt (by omega) rfl le_rfl
      · exact (h.stored e he).written (hap e he) rfl (Nat.le_add_right _ _)
    apart := List.pairwise_cons.mpr ⟨hap, h.apart⟩
    free_wf := h.free_wf
    free_lt := by
      intro x hx
      have := h.free_lt x hx
      simp only [BytesQueue.pushed]
      omega
    free_apart := by
      intro e he x hx
      rcases List.mem_cons.mp he with rfl | he
      · exact .inl (h.free_lt x hx).2
      · exact h.free_apart e he x hx }

/-- A growth keeps the invariant. -/
theorem Inv.grown {q : BytesQueue T} (h : q.Inv) {need : ℕ} (hneed : 1 ≤ need)
    (hfull : ¬ q.Full need) : (q.grown need).Inv := by
  have hcap := le_grownCapacity h.tail_le hneed hfull
  exact {
    length_eq := length_grownArray q need
    head_eq := h.head_eq
    one_le_tail := h.one_le_tail
    tail_le := le_max_of_le_left (by simp only [BytesQueue.grown]; omega)
    margin_eq := h.margin_eq
    count_eq := h.count_eq
    stored := by
      intro e he
      have hs := h.stored e he
      refine hs.mono le_rfl (Bytes.sub_congr fun i hi hi' ↦ ?_)
      exact getElem?_grownArray h.length_eq h.tail_le hneed hfull (hs.pos.trans hi)
        (hi'.trans_le hs.le_tail)
    apart := h.apart
    free_wf := h.free_wf
    free_lt := h.free_lt
    free_apart := h.free_apart }

/-- **`Push` keeps the invariant.** -/
theorem PushOutcome.inv {q q' : BytesQueue T} {data : Bytes} {r : Except QueueError ℕ}
    (ho : PushOutcome q data q' r) (h : q.Inv) (hone : 1 ≤ data.length)
    (hlt : data.length < 2 ^ 32) : q'.Inv := by
  cases ho with
  | reuse _ _ ht => exact h.reuse hone hlt ht
  | behind _ hfit => exact h.pushed hone hlt hfit
  | grow _ _ hfull =>
    exact (h.grown (by omega) hfull).pushed hone hlt
      (le_grownCapacity h.tail_le (by omega) hfull)
  | full => exact h

/-- A successful `Push` makes one more entry live. -/
theorem PushOutcome.live_of_ok {q q' : BytesQueue T} {data : Bytes} {i : ℕ}
    (ho : PushOutcome q data q' (.ok i)) : q'.live = (i, data) :: q.live := by
  cases ho <;> rfl

theorem PushOutcome.maxCapacity_eq {q q' : BytesQueue T} {data : Bytes} {r : Except QueueError ℕ}
    (ho : PushOutcome q data q' r) : q'.maxCapacity = q.maxCapacity := by
  cases ho <;> rfl

/-- **A successful `Push` writes inside the array**, and ends no further than `need` bytes behind
the old tail. -/
theorem PushOutcome.end_le {q q' : BytesQueue T} {data : Bytes} {i : ℕ}
    (ho : PushOutcome q data q' (.ok i)) (h : q.Inv) :
    i + (data.length + 4) ≤ q'.array.length ∧ i ≤ q.tail := by
  have hlen := h.length_eq
  have htail := h.tail_le
  cases ho with
  | reuse _ _ ht =>
    have hb := h.took_bounds (by omega) ht
    simp only [written, Bytes.length_blit]
    omega
  | behind _ hfit =>
    simp only [pushed, written, Bytes.length_blit]
    omega
  | grow _ _ hfull =>
    have hcap : q.tail + (data.length + 4) ≤ _ := le_grownCapacity htail (by omega) hfull
    simp only [pushed, grown, written, Bytes.length_blit, length_grownArray]
    omega

/-- **A successful `Push` writes the whole entry**, however long it is. -/
theorem PushOutcome.bytes {q q' : BytesQueue T} {data : Bytes} {i : ℕ}
    (ho : PushOutcome q data q' (.ok i)) (h : q.Inv) :
    Bytes.sub q'.array i (data.length + 4) = frame data := by
  have hend := (ho.end_le h).1
  have hblit : ∃ a, q'.array = Bytes.blit a i (frame data) := by
    cases ho <;> exact ⟨_, rfl⟩
  obtain ⟨a, ha⟩ := hblit
  rw [ha, Bytes.length_blit] at hend
  rw [ha, ← length_frame data]
  exact Bytes.sub_blit_self (by rwa [length_frame])

/-- **What is read of an entry that is too long for its header**: as much as the header says. -/
theorem PushOutcome.framed_of_wrap {q q' : BytesQueue T} {a b : Bytes} {i : ℕ}
    (ho : PushOutcome q (a ++ b) q' (.ok i)) (h : q.Inv) (ha : 1 ≤ a.length)
    (hlt : a.length < 2 ^ 32) (hb : b.length = 2 ^ 32) : q'.Framed (i, a) := by
  have hend := (ho.end_le h).1
  have hbytes := ho.bytes h
  have htail := h.one_le_tail
  rw [List.length_append] at hend
  refine ⟨?_, ?_, ha, hlt, by simp only; omega, ?_⟩
  · cases ho <;> exact Nat.succ_ne_zero _
  · cases ho with
    | reuse _ _ ht =>
      have hpos := (h.took_bounds (by omega) ht).1
      simp only
      omega
    | behind => exact htail
    | grow => exact htail
  · have hframe : frame (a ++ b) = frame a ++ b := by
      have hheader := Bytes.toLE_add_pow 4 a.length 1
      rw [frame, frame, List.length_append, hb, headerEntrySize, List.append_assoc]
      exact congrArg (· ++ (a ++ b)) hheader
    have hsub := Bytes.sub_append_left (a := frame a) (b := b)
    rw [length_frame] at hsub
    rw [← hsub, ← hframe, ← hbytes, Bytes.sub_sub (by rw [List.length_append]; omega)]
    rfl

theorem PushOutcome.length_eq {q q' : BytesQueue T} {data : Bytes} {r : Except QueueError ℕ}
    (ho : PushOutcome q data q' r) (h : q.Inv) : q'.array.length = q'.capacity := by
  have hlen := h.length_eq
  cases ho with
  | reuse => simpa only [written, Bytes.length_blit] using hlen
  | behind => simpa only [pushed, written, Bytes.length_blit] using hlen
  | grow => simp only [pushed, grown, written, Bytes.length_blit, length_grownArray]
  | full => exact hlen

/-- A `Push` that fails changes nothing. -/
theorem PushOutcome.eq_of_error {q q' : BytesQueue T} {data : Bytes} {e : QueueError}
    (ho : PushOutcome q data q' (.error e)) : q' = q ∧ q.Full (data.length + 4) := by
  cases ho with
  | full _ _ hfull => exact ⟨rfl, hfull⟩

/-! ## Reading and deleting -/

theorem Inv.count_ne_zero {q : BytesQueue T} (h : q.Inv) {e : ℕ × Bytes} (he : e ∈ q.live) :
    q.count ≠ 0 := by
  rw [h.count_eq]
  exact (List.length_pos_of_mem he).ne'

/-- The end of a live entry is in the array. -/
theorem Inv.live_le_length {q : BytesQueue T} (h : q.Inv) {e : ℕ × Bytes} (he : e ∈ q.live) :
    e.1 + (e.2.length + 4) ≤ q.array.length := by
  have hs := h.stored e he
  have hpos := hs.pos
  have hle := hs.le_tail
  have htail := h.tail_le
  have hlen := h.length_eq
  omega

/-- A live entry has its header and its data in the array. -/
theorem Inv.framed {q : BytesQueue T} (h : q.Inv) {e : ℕ × Bytes} (he : e ∈ q.live) :
    q.Framed e where
  count_ne_zero := h.count_ne_zero he
  pos := (h.stored e he).pos
  nonempty := (h.stored e he).nonempty
  length_lt := (h.stored e he).length_lt
  le := h.live_le_length he
  bytes := (h.stored e he).bytes

/-- The queue after an entry was removed. -/
def removed (q : BytesQueue T) (e : ℕ × Bytes) : BytesQueue T :=
  { q with
    freelist := q.freelist.add e.1 (e.2.length + 4)
    count := q.count - 1
    live := q.live.filter fun f ↦ f.1 ≠ e.1 }

theorem mem_removed_live {q : BytesQueue T} {e f : ℕ × Bytes} :
    f ∈ (q.removed e).live ↔ f ∈ q.live ∧ f.1 ≠ e.1 := by
  simp [removed]

/-- Different live entries do not overlap. -/
theorem Inv.apart_of_ne {q : BytesQueue T} (h : q.Inv) {e f : ℕ × Bytes} (he : e ∈ q.live)
    (hf : f ∈ q.live) (hne : e ≠ f) : Apart e f :=
  h.apart.forall he hf hne

/-- An index is the index of one live entry only. -/
theorem Inv.eq_of_index {q : BytesQueue T} (h : q.Inv) {e f : ℕ × Bytes} (he : e ∈ q.live)
    (hf : f ∈ q.live) (hi : e.1 = f.1) : e = f := by
  by_contra hne
  exact (h.apart_of_ne he hf hne).ne hi

/-- Removing a live entry leaves one entry less. -/
theorem Inv.length_filter {q : BytesQueue T} (h : q.Inv) {e : ℕ × Bytes} (he : e ∈ q.live) :
    (q.live.filter fun f ↦ f.1 ≠ e.1).length = q.live.length - 1 := by
  have hnodup : q.live.Nodup := h.apart.imp fun hap heq ↦ hap.ne (congrArg Prod.fst heq)
  have hfilter : q.live.filter (fun f ↦ f.1 ≠ e.1) = q.live.filter (· != e) := by
    refine List.filter_congr fun f hf ↦ ?_
    by_cases hfe : f = e
    · simp [hfe]
    · have hne : f.1 ≠ e.1 := fun hi ↦ hfe (h.eq_of_index hf he hi)
      simp [hfe, hne]
  rw [hfilter, ← hnodup.erase_eq_filter, List.length_erase_of_mem he]

/-- **Deleting an entry**, of which the data may have been overwritten first. -/
theorem Framed.delete_scribbled {q : BytesQueue T} {e : ℕ × Bytes} (h : q.Framed e) {a : Bytes}
    (hlen : a.length = q.array.length)
    (hout : ∀ i, i < e.1 + 4 ∨ e.1 + (e.2.length + 4) ≤ i → a[i]? = q.array[i]?) :
    ({ q with array := a } : BytesQueue T).delete e.1 =
      .ok (({ q with array := a } : BytesQueue T).removed e, .ok ()) := by
  have hone := h.nonempty
  have hle := h.le
  have hheader : Bytes.sub a e.1 4 = Bytes.toLE 4 e.2.length := by
    rw [← header_of_frame h.bytes]
    exact Bytes.sub_congr fun i _ hi ↦ hout i (.inl hi)
  have hpeek := peek_of_header (q := { q with array := a }) h.count_ne_zero h.pos
    (by simp only; omega) h.length_lt (by simp only; omega) hheader
  rw [delete, hpeek]
  simp [removed, headerEntrySize]

/-- **Deleting a live entry**, of which the data may have been overwritten first: its space goes to
the free list, and the other entries are untouched. -/
theorem Inv.delete_scribbled {q : BytesQueue T} (h : q.Inv) {e : ℕ × Bytes} (he : e ∈ q.live)
    {a : Bytes} (hlen : a.length = q.array.length)
    (hout : ∀ i, i < e.1 + 4 ∨ e.1 + (e.2.length + 4) ≤ i → a[i]? = q.array[i]?) :
    ({ q with array := a } : BytesQueue T).delete e.1 =
        .ok (({ q with array := a } : BytesQueue T).removed e, .ok ()) ∧
      (({ q with array := a } : BytesQueue T).removed e).Inv := by
  have hs := h.stored e he
  have hpos := hs.pos
  have hle := hs.le_tail
  constructor
  · exact (h.framed he).delete_scribbled hlen hout
  · have hu : q.freelist.Uncovered e.1 (e.2.length + 4) := by
      intro x hx hx' hcov
      have := h.free_apart e he x hcov
      omega
    obtain ⟨hwf, hcov⟩ := FreeList.add_spec h.free_wf hu (by omega)
    -- what is free now was free before, or is a position of the entry
    have hfree : ∀ x ∈ (q.freelist.add e.1 (e.2.length + 4)).covered,
        x ∈ q.freelist.covered ∨ ((e.1 : ℤ) ≤ x ∧ x < e.1 + (e.2.length + 4)) := by
      intro x hx
      rw [hcov] at hx
      exact hx.1.imp id id
    exact {
      length_eq := hlen.trans h.length_eq
      head_eq := h.head_eq
      one_le_tail := h.one_le_tail
      tail_le := h.tail_le
      margin_eq := h.margin_eq
      count_eq := by
        simp only [removed, h.length_filter he, h.count_eq]
      stored := by
        intro f hf
        obtain ⟨hf, hne⟩ := mem_removed_live.mp hf
        have hap := h.apart_of_ne hf he fun heq ↦ hne (congrArg Prod.fst heq)
        refine (h.stored f hf).mono le_rfl (Bytes.sub_congr fun i hi hi' ↦ hout i ?_)
        simp only [Apart] at hap
        omega
      apart := h.apart.filter _
      free_wf := hwf
      free_lt := by
        intro x hx
        rcases hfree x hx with hx | hx
        · exact h.free_lt x hx
        · simp only [removed]
          omega
      free_apart := by
        intro f hf x hx
        obtain ⟨hf, hne⟩ := mem_removed_live.mp hf
        rcases hfree x hx with hx | hx
        · exact h.free_apart f hf x hx
        · have hap := h.apart_of_ne hf he fun heq ↦ hne (congrArg Prod.fst heq)
          simp only [Apart] at hap
          omega }

/-- Deleting a live entry. -/
theorem Inv.delete_live {q : BytesQueue T} (h : q.Inv) {e : ℕ × Bytes} (he : e ∈ q.live) :
    q.delete e.1 = .ok (q.removed e, .ok ()) ∧ (q.removed e).Inv :=
  h.delete_scribbled he rfl fun _ _ ↦ rfl

/-! ## Whole runs -/

open TransitionSystem (Since)

/-- The calls the cache makes, each push with what it returned. -/
inductive Op
  | push (data : Bytes) (result : Except QueueError ℕ)
  | delete (index : ℕ)
  | get (index : ℤ)

/-- Make a call, provided it is one the cache makes — an entry is not empty and its length fits the
header, and what is deleted is live — and returns what the label says. -/
def perform (q : BytesQueue T) : Op → Option (BytesQueue T)
  | .push data r =>
    match q.Push data with
    | .ok (q', r') => if 1 ≤ data.length ∧ data.length < 2 ^ 32 ∧ r' = r then some q' else none
    | .error _ => none
  | .delete i =>
    match q.delete i with
    | .ok (q', _) => if ∃ e ∈ q.live, e.1 = i then some q' else none
    | .error _ => none
  | .get i =>
    match q.get i with
    | .ok _ => some q
    | .error _ => none

/-- A queue of any initial and maximum capacity, under any sequence of calls. -/
def system (T : Type) [OrderedMap T ℤ Ptr] : TransitionSystem (BytesQueue T) Op :=
  .ofStep (fun q ↦ ∃ initialCapacity maxCapacity, q = new initialCapacity maxCapacity) perform

/-- **What one call does** to a queue in its invariant. -/
theorem Inv.perform_cases {q q' : BytesQueue T} (h : q.Inv) {op : Op}
    (hstep : q.perform op = some q') :
    (∃ data r, op = .push data r ∧ 1 ≤ data.length ∧ data.length < 2 ^ 32 ∧
      PushOutcome q data q' r) ∨
    (∃ e ∈ q.live, op = .delete e.1 ∧ q' = q.removed e ∧ q'.Inv) ∨
    (∃ i, op = .get i ∧ q' = q) := by
  unfold perform at hstep
  cases op with
  | push data r =>
    obtain ⟨q₁, r₁, hpush, ho⟩ := Push_cases h data
    simp only [hpush, Option.ite_none_right_eq_some, Option.some_inj] at hstep
    obtain ⟨⟨hone, hlt, rfl⟩, rfl⟩ := hstep
    exact .inl ⟨data, _, rfl, hone, hlt, ho⟩
  | delete i =>
    by_cases hlive : ∃ e ∈ q.live, e.1 = i
    · obtain ⟨e, he, rfl⟩ := hlive
      obtain ⟨hdel, hinv⟩ := h.delete_live he
      simp only [hdel, Option.ite_none_right_eq_some, Option.some_inj] at hstep
      obtain ⟨-, rfl⟩ := hstep
      exact .inr (.inl ⟨e, he, rfl, rfl, hinv⟩)
    · simp only [if_neg hlive] at hstep
      split at hstep <;> cases hstep
  | get i =>
    simp only at hstep
    split at hstep
    · exact .inr (.inr ⟨i, rfl, (Option.some.inj hstep).symm⟩)
    · cases hstep

/-- The invariant along a run, with what the ghost entries mean: they are those that were pushed
and not deleted since. -/
theorem system_inv {ls : List Op} {q : BytesQueue T} (hr : (system T).Run ls q) :
    q.Inv ∧ ∀ i data, (i, data) ∈ q.live ↔ Since ls (.push data (.ok i)) (· = .delete i) := by
  refine hr.history_invariant ?_ ?_
  · rintro q ⟨ic, mc, rfl⟩
    exact ⟨new_inv ic mc, fun i data ↦ iff_of_false List.not_mem_nil
      TransitionSystem.not_since_nil⟩
  · rintro ls q op q' ⟨h, hlive⟩ hstep
    simp only [TransitionSystem.since_append_singleton, ← hlive]
    obtain ⟨data, r, rfl, hone, hlt, ho⟩ | ⟨e, he, rfl, rfl, hinv⟩ | ⟨i, rfl, rfl⟩ :=
      h.perform_cases hstep
    · refine ⟨ho.inv h hone hlt, fun i d ↦ ?_⟩
      cases r with
      | error e =>
        rw [(ho.eq_of_error).1]
        simp
      | ok j =>
        rw [ho.live_of_ok]
        simp [eq_comm, and_comm]
    · refine ⟨hinv, fun i d ↦ ?_⟩
      rw [mem_removed_live]
      simp [eq_comm]
    · exact ⟨h, fun i d ↦ by simp⟩

/-- **Storage integrity.**  Along every run, an entry that was pushed and not deleted since reads
back exactly as it was pushed; such entries never overlap; `Push` always returns, and when it
reports success the whole entry has been written; and deleting such an entry succeeds. -/
theorem storage_integrity {ls : List Op} {q : BytesQueue T} (hr : (system T).Run ls q) :
    (∀ i data, (i, data) ∈ q.live ↔ Since ls (.push data (.ok i)) (· = .delete i)) ∧
    (∀ i data, Since ls (.push data (.ok i)) (· = .delete i) →
      (∃ s, q.get i = .ok (.ok s) ∧ (q.load s).bytes = data) ∧
      ∃ q', q.delete i = .ok (q', .ok ())) ∧
    q.live.Pairwise Apart ∧
    ∀ data : Bytes, 1 ≤ data.length → data.length < 2 ^ 32 →
      ∃ q' r, q.Push data = .ok (q', r) ∧ ∀ i, r = .ok i →
        i + (4 + data.length) ≤ q'.array.length ∧
        Bytes.sub q'.array i (4 + data.length) = Bytes.toLE 4 data.length ++ data := by
  obtain ⟨h, hlive⟩ := system_inv hr
  refine ⟨hlive, ?_, h.apart, ?_⟩
  · intro i data hsince
    have he := (hlive i data).mpr hsince
    exact ⟨⟨_, (h.framed he).get⟩, _, (h.delete_live he).1⟩
  · intro data hone hlt
    obtain ⟨q', r, hpush, ho⟩ := Push_cases h data
    refine ⟨q', r, hpush, fun i hi ↦ ?_⟩
    subst hi
    rw [Nat.add_comm 4]
    exact ⟨(ho.end_le h).1, ho.bytes h⟩

/-- A run in which the array grows from nothing, a block is deleted, and its front is reused. -/
theorem storage_integrity_reuse :
    ∃ q, (system (SortedAssoc ℤ Ptr)).Run [.push [1, 2] (.ok 1), .push [3] (.ok 7), .delete 1,
        .push [4] (.ok 1), .get 7] q ∧
      (∃ s, q.get 7 = .ok (.ok s) ∧ (q.load s).bytes = [3]) ∧
      ∃ s, q.get 1 = .ok (.ok s) ∧ (q.load s).bytes = [4] := by
  refine Exists.imp (fun q hq ↦ ⟨hq.1, ?_⟩) (TransitionSystem.exists_run_from (S := system _)
    (fun _ _ _ ↦ id) (p := fun _ ↦ true) ⟨0, 0, rfl⟩ (by decide +kernel))
  have h := (storage_integrity hq.1).2.1
  exact ⟨(h 7 [3] ⟨[_], [_, _, _], rfl, by simp⟩).1, (h 1 [4] ⟨[_, _, _], [_], rfl, by simp⟩).1⟩

end BytesQueue
end ClusteredBigCache
