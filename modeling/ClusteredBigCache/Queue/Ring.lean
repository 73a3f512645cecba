import ClusteredBigCache.Queue.Storage

/-!
# The byte queue as a ring buffer

`Storage` treats the queue the way the cache uses it.  This file is about the other way to use it,
in which entries leave from the front by `Pop` and nothing is deleted, so that the free list stays
empty.  The blocks then lie in one of two layouts (`Ring`):

* *flat*: one row of blocks from the head to the tail, which is also the right margin;
* *wrapped*: the older blocks from the head to the right margin, the newer ones from the left margin
  to the tail, and at least `minimumEmptyBlobSize` bytes between the tail and the head.

`Ring q line` lists the blocks in the order in which `Pop` meets them.  `Ring.Push_cases` says
everything `Push` can do and `Ring.pop_cons` what `Pop` does; the lemmas after each say which layout
results.  The one case that does not simply add a block at the end of the line is `rewind`: a growth
in the wrapped layout fills the gap with an empty block and moves the head back to the left margin.
-/

set_option autoImplicit false

namespace ClusteredBigCache
namespace BytesQueue

variable {T : Type}

/-! ## Rows of blocks

`Arc` is a path through the array: each block ends where the next one begins.  Reading the queue is
walking along it. -/

/-- A block with its header and its data in place. -/
structure Holds (a : Bytes) (b : ℕ × Bytes) : Prop where
  nonempty : 1 ≤ b.2.length
  length_lt : b.2.length < 2 ^ 32
  bytes : Bytes.sub a b.1 (b.2.length + 4) = frame b.2

/-- The blocks lie one after the other, from position `i` up to position `j`. -/
def Arc (a : Bytes) : ℕ → List (ℕ × Bytes) → ℕ → Prop
  | i, [], j => i = j
  | i, b :: bs, j => b.1 = i ∧ Holds a b ∧ Arc a (i + (b.2.length + 4)) bs j

theorem Arc.le {a : Bytes} {i j : ℕ} {bs : List (ℕ × Bytes)} (h : Arc a i bs j) : i ≤ j := by
  induction bs generalizing i with
  | nil => exact Nat.le_of_eq h
  | cons b bs ih =>
    have := ih h.2.2
    omega

theorem Arc.lt {a : Bytes} {i j : ℕ} {bs : List (ℕ × Bytes)} (h : Arc a i bs j) (hbs : bs ≠ []) :
    i < j := by
  obtain ⟨b, bs, rfl⟩ := List.exists_cons_of_ne_nil hbs
  have := h.2.2.le
  omega

theorem Arc.append {a : Bytes} {i j k : ℕ} {bs cs : List (ℕ × Bytes)} (h : Arc a i bs j)
    (h' : Arc a j cs k) : Arc a i (bs ++ cs) k := by
  induction bs generalizing i with
  | nil =>
    obtain rfl : i = j := h
    exact h'
  | cons b bs ih => exact ⟨h.1, h.2.1, ih h.2.2⟩

/-- One block by itself. -/
theorem Holds.arc {a : Bytes} {b : ℕ × Bytes} (h : Holds a b) :
    Arc a b.1 [b] (b.1 + (b.2.length + 4)) :=
  ⟨rfl, h, rfl⟩

theorem Holds.congr {a a' : Bytes} {b : ℕ × Bytes} (h : Holds a b)
    (heq : ∀ k, b.1 ≤ k → k < b.1 + (b.2.length + 4) → a'[k]? = a[k]?) : Holds a' b where
  nonempty := h.nonempty
  length_lt := h.length_lt
  bytes := (Bytes.sub_congr heq).trans h.bytes

/-- A row of blocks stays when its bytes do. -/
theorem Arc.congr {a a' : Bytes} {i j : ℕ} {bs : List (ℕ × Bytes)} (h : Arc a i bs j)
    (heq : ∀ k, i ≤ k → k < j → a'[k]? = a[k]?) : Arc a' i bs j := by
  induction bs generalizing i with
  | nil => exact h
  | cons b bs ih =>
    obtain ⟨rfl, hb, hbs⟩ := h
    have hle := hbs.le
    exact ⟨rfl, hb.congr fun k hk hk' ↦ heq k hk (by omega),
      ih hbs fun k hk hk' ↦ heq k (by omega) hk'⟩

/-- The blocks of a row are in place, between its ends. -/
theorem Arc.mem {a : Bytes} {i j : ℕ} {bs : List (ℕ × Bytes)} (h : Arc a i bs j) {b : ℕ × Bytes}
    (hb : b ∈ bs) : Holds a b ∧ i ≤ b.1 ∧ b.1 + (b.2.length + 4) ≤ j := by
  induction bs generalizing i with
  | nil => exact absurd hb List.not_mem_nil
  | cons c bs ih =>
    obtain ⟨rfl, hc, hbs⟩ := h
    rcases List.mem_cons.mp hb with rfl | hb
    · exact ⟨hc, le_rfl, hbs.le⟩
    · have hih := ih hbs hb
      exact ⟨hih.1, by omega, hih.2.2⟩

/-- A row of blocks outside of which something is written. -/
theorem Arc.blit {a src : Bytes} {i j off : ℕ} {bs : List (ℕ × Bytes)} (h : Arc a i bs j)
    (hout : off + src.length ≤ i ∨ j ≤ off) : Arc (Bytes.blit a off src) i bs j := by
  refine h.congr fun k hk hk' ↦ ?_
  rw [Bytes.getElem?_blit, if_neg (by omega)]

/-- A block that was just written. -/
theorem holds_blit {a data : Bytes} {i : ℕ} (hone : 1 ≤ data.length) (hlt : data.length < 2 ^ 32)
    (hfit : i + (data.length + 4) ≤ a.length) : Holds (Bytes.blit a i (frame data)) (i, data) where
  nonempty := hone
  length_lt := hlt
  bytes := by
    rw [← length_frame data]
    exact Bytes.sub_blit_self (by rwa [length_frame])

/-! ## What the operations make of a queue -/

/-- A growth in the wrapped layout: what the source does when the tail is before the head and the
gap between them is too small. -/
def Rewinds (q : BytesQueue T) (data : Bytes) : Prop :=
  q.tail < q.head ∧ q.availableSpaceAfterTail < (data.length + headerEntrySize : ℕ) ∧
    ¬ q.Full (data.length + headerEntrySize)

instance (q : BytesQueue T) (data : Bytes) : Decidable (q.Rewinds data) :=
  inferInstanceAs (Decidable (_ ∧ _))

/-- The queue after an entry was written in front of the head. -/
def inserted (q : BytesQueue T) (data : Bytes) : BytesQueue T :=
  { q.written q.tail data with tail := q.tail + (data.length + 4) }

/-- The empty entry that fills the gap between the tail and the head. -/
def emptyBlob (q : BytesQueue T) : Bytes := List.replicate (q.head - q.tail - 4) 0

/-- The queue after a growth in the wrapped layout. -/
def rewound (q : BytesQueue T) (need : ℕ) : BytesQueue T :=
  { q with
    capacity := q.grownCapacity need
    retired := q.retired ++ [q.array]
    array := Bytes.blit (Bytes.blit (List.replicate (q.grownCapacity need) 0) 0
      (q.array.take q.rightMargin)) q.tail (frame q.emptyBlob)
    count := q.count + 1
    head := 1
    tail := q.rightMargin }

/-- Everything `Push` can do to a queue from which nothing was ever deleted. -/
inductive RingPush (q : BytesQueue T) (data : Bytes) :
    BytesQueue T → Except QueueError ℕ → Prop
  /-- The entry fits behind the tail. -/
  | behind (hflat : q.head ≤ q.tail) (hfit : q.tail + (data.length + 4) ≤ q.capacity) :
      RingPush q data (q.pushed data) (.ok q.tail)
  /-- It does not, and the tail goes to the left margin. -/
  | wrap (hflat : q.head ≤ q.tail) (hend : q.capacity < q.tail + (data.length + 4))
      (hfit : 1 + (data.length + 4) + 36 ≤ q.head) :
      RingPush q data (({ q with tail := 1 } : BytesQueue T).inserted data) (.ok 1)
  /-- The entry fits between the tail and the head. -/
  | between (hwrapped : q.tail < q.head) (hfit : q.tail + (data.length + 4) + 36 ≤ q.head) :
      RingPush q data (q.inserted data) (.ok q.tail)
  /-- The array is replaced by a larger one. -/
  | grow (hflat : q.head ≤ q.tail) (hend : q.capacity < q.tail + (data.length + 4))
      (hroom : q.head < 1 + (data.length + 4) + 36) (hfull : ¬ q.Full (data.length + 4)) :
      RingPush q data ((q.grown (data.length + 4)).pushed data) (.ok q.tail)
  /-- The array is replaced by a larger one while the tail is before the head. -/
  | rewind (hrewinds : q.Rewinds data) :
      RingPush q data ((q.rewound (data.length + 4)).pushed data) (.ok q.rightMargin)
  /-- The maximum size is reached. -/
  | full (hfull : q.Full (data.length + 4)) : RingPush q data q (.error .full)

/-- A successful `Push` makes one more entry live. -/
theorem RingPush.live_of_ok {q q' : BytesQueue T} {data : Bytes} {i : ℕ}
    (ho : RingPush q data q' (.ok i)) : q'.live = (i, data) :: q.live := by
  cases ho <;> rfl

theorem RingPush.eq_of_error {q q' : BytesQueue T} {data : Bytes} {e : QueueError}
    (ho : RingPush q data q' (.error e)) : q' = q := by
  cases ho
  rfl

/-- Writing an entry in front of the head leaves the right margin alone. -/
theorem push_inserted {q : BytesQueue T} {data : Bytes} (hle : q.tail + (data.length + 4) ≤ q.head)
    (h : q.tail + (data.length + 4) ≤ q.array.length) :
    q.push data =
      .ok { q with
        array := Bytes.blit q.array q.tail (frame data)
        tail := q.tail + (data.length + 4)
        count := q.count + 1 } := by
  rw [push, ← bind_assoc, copy_frame h, Go.ok_bind]
  simp only
  rw [if_neg (by omega)]
  rfl

/-- Moving to a larger array while the tail is before the head. -/
theorem allocateAdditionalMemory_rewound {q : BytesQueue T} (hlen : q.array.length = q.capacity)
    (hpos : 1 ≤ q.tail) (hgap : q.tail + 36 ≤ q.head) (hm : q.head ≤ q.rightMargin)
    (hle : q.rightMargin ≤ q.capacity) {need : ℕ} (hfull : ¬ q.Full need) :
    q.allocateAdditionalMemory need = .ok (q.rewound need) := by
  have hcap : q.capacity + need ≤ q.grownCapacity need := by
    simp only [Full, not_and_or, not_le, not_lt, ge_iff_le, gt_iff_lt] at hfull
    simp only [grownCapacity]
    split_ifs <;> omega
  have hblob : ((q.head : ℤ) - q.tail - headerEntrySize).toNat = q.head - q.tail - 4 := by
    rw [headerEntrySize]
    omega
  have hmargin : ¬ leftMarginIndex = q.rightMargin := by
    rw [leftMarginIndex]
    omega
  have hblob' : ¬ (q.head : ℤ) - q.tail - headerEntrySize < 0 := by
    rw [headerEntrySize]
    omega
  have hold : ¬ q.array.length < q.rightMargin := by omega
  have hwrapped : q.tail < q.head := by omega
  simp only [allocateAdditionalMemory, if_neg hmargin, if_neg hold, if_pos hwrapped, if_neg hblob',
    hblob]
  rw [push_inserted (by simp only [List.length_replicate]; omega)
    (by simp only [List.length_replicate, Bytes.length_blit]; omega)]
  rfl

/-- A growth in the wrapped layout keeps the bytes outside the gap. -/
theorem getElem?_rewound {q : BytesQueue T} {need k : ℕ} (hgap : q.tail + 4 ≤ q.head)
    (hlen : q.rightMargin ≤ q.array.length) (hcap : q.rightMargin ≤ q.grownCapacity need)
    (hk : k < q.rightMargin) (hout : k < q.tail ∨ q.head ≤ k) :
    (q.rewound need).array[k]? = q.array[k]? := by
  have hbloblen : q.emptyBlob.length = q.head - q.tail - 4 := List.length_replicate
  rw [rewound, Bytes.getElem?_blit, if_neg (by rw [length_frame]; omega), Bytes.getElem?_blit,
    if_pos, Nat.sub_zero, List.getElem?_take_of_lt hk]
  simp only [List.length_take, List.length_replicate]
  omega

/-- The queue after a block was popped. -/
def popped (q : BytesQueue T) (b : ℕ × Bytes) : BytesQueue T :=
  let q' := { q with
    head := q.head + (b.2.length + 4)
    count := q.count - 1
    live := q.live.filter fun e ↦ e.1 ≠ q.head }
  if q'.head = q.rightMargin then
    let tail := if q.tail = q.rightMargin then 1 else q.tail
    { q' with head := 1, tail := tail, rightMargin := tail }
  else q'

theorem popped_live (q : BytesQueue T) (b : ℕ × Bytes) :
    (q.popped b).live = q.live.filter fun e ↦ e.1 ≠ q.head := by
  rw [popped]
  split_ifs <;> rfl

/-- A pop leaves the arrays alone. -/
theorem load_popped (q : BytesQueue T) (b : ℕ × Bytes) (s : Slice) :
    (q.popped b).load s = q.load s := by
  rw [popped]
  split_ifs <;> rfl

/-- What `Pop` does when it reads a block. -/
theorem pop_eq {q : BytesQueue T} {b : ℕ × Bytes}
    (hpeek : q.peek q.head = .ok (.ok (q.view b, b.2.length))) :
    q.pop = .ok (q.popped b, .ok (q.view b)) := by
  rw [pop, hpeek, Go.ok_bind, popped]
  simp only [headerEntrySize, leftMarginIndex, Nat.add_comm 4]
  split_ifs <;> rfl

theorem popped_of_ne {q : BytesQueue T} {b : ℕ × Bytes}
    (hne : q.head + (b.2.length + 4) ≠ q.rightMargin) :
    q.popped b = { q with
      head := q.head + (b.2.length + 4)
      count := q.count - 1
      live := q.live.filter fun e ↦ e.1 ≠ q.head } :=
  if_neg hne

/-- Reading a block that is in place. -/
theorem Holds.peek {q : BytesQueue T} {b : ℕ × Bytes} (h : Holds q.array b) (hcount : q.count ≠ 0)
    (hpos : 1 ≤ b.1) (hfit : b.1 + (b.2.length + 4) ≤ q.array.length) :
    q.peek b.1 = .ok (.ok (q.view b, b.2.length)) ∧ (q.load (q.view b)).bytes = b.2 := by
  have hframed : q.Framed b := ⟨hcount, hpos, h.nonempty, h.length_lt, hfit, h.bytes⟩
  exact ⟨hframed.peek, hframed.get.2⟩

/-! ## The two layouts

Either the blocks lie between the head and the tail, or the tail has wrapped around and they lie
from the head to the right margin and from the left margin to the tail. -/

/-- Where the blocks lie, in the order in which `Pop` meets them. -/
inductive Layout (q : BytesQueue T) : List (ℕ × Bytes) → Prop
  | flat {line : List (ℕ × Bytes)} (hpos : 1 ≤ q.head) (hmargin : q.rightMargin = q.tail)
      (hle : q.tail ≤ max q.capacity 1) (hempty : line = [] → q.tail = 1)
      (hline : Arc q.array q.head line q.tail) : Layout q line
  | wrapped {older newer : List (ℕ × Bytes)} (hne : older ≠ []) (hne' : newer ≠ [])
      (hgap : q.tail + minimumEmptyBlobSize ≤ q.head) (hle : q.rightMargin ≤ q.capacity)
      (holder : Arc q.array q.head older q.rightMargin) (hnewer : Arc q.array 1 newer q.tail) :
      Layout q (older ++ newer)

variable [OrderedMap T ℤ Ptr]

/-- **The ring invariant**: the blocks `line` are in the queue, the next one to be popped first. -/
structure Ring (q : BytesQueue T) (line : List (ℕ × Bytes)) : Prop where
  length_eq : q.array.length = q.capacity
  free_eq : q.freelist = FreeList.new
  count_eq : q.count = line.length
  layout : q.Layout line

theorem new_ring (initialCapacity : ℕ) (maxCapacity : ℤ) :
    (new initialCapacity maxCapacity : BytesQueue T).Ring [] where
  length_eq := List.length_replicate
  free_eq := rfl
  count_eq := rfl
  layout := .flat le_rfl rfl (le_max_right _ _) (fun _ ↦ rfl) rfl

/-- The blocks of the line are in place, inside the array. -/
theorem Ring.mem {q : BytesQueue T} {line : List (ℕ × Bytes)} (h : q.Ring line) {b : ℕ × Bytes}
    (hb : b ∈ line) :
    Holds q.array b ∧ 1 ≤ b.1 ∧ b.1 + (b.2.length + 4) ≤ q.array.length := by
  have hlen := h.length_eq
  cases h.layout with
  | flat hpos hmargin hle hempty hline =>
    obtain ⟨hb, hi, hj⟩ := hline.mem hb
    exact ⟨hb, by omega, by omega⟩
  | wrapped hne hne' hgap hle holder hnewer =>
    have hm := holder.le
    rw [minimumEmptyBlobSize] at hgap
    rcases List.mem_append.mp hb with hb | hb
    · obtain ⟨hb, hi, hj⟩ := holder.mem hb
      exact ⟨hb, by omega, by omega⟩
    · obtain ⟨hb, hi, hj⟩ := hnewer.mem hb
      exact ⟨hb, hi, by omega⟩

/-- **Reading a block of the line.** -/
theorem Ring.peek {q : BytesQueue T} {line : List (ℕ × Bytes)} (h : q.Ring line) {b : ℕ × Bytes}
    (hb : b ∈ line) :
    q.peek b.1 = .ok (.ok (q.view b, b.2.length)) ∧ (q.load (q.view b)).bytes = b.2 := by
  obtain ⟨hh, hpos, hfit⟩ := h.mem hb
  refine hh.peek ?_ hpos hfit
  rw [h.count_eq]
  exact (List.length_pos_of_mem hb).ne'

theorem Ring.peek_nil {q : BytesQueue T} (h : q.Ring []) (i : ℤ) :
    q.peek i = .ok (.error .empty) := by
  have hcount : q.count = 0 := h.count_eq
  rw [BytesQueue.peek, if_pos hcount]

/-! ## Pushing -/

/-- A free list to which nothing was ever added has nothing to give. -/
theorem find_new (size : ℤ) : (FreeList.new : FreeList T).find size = (FreeList.new, -1) := by
  have hfrom : ∀ (l : List (Fin 8)) (b : ℤ),
      FreeList.findFrom (FreeList.new : FreeList T) size l b = (FreeList.new, -1) := by
    intro l
    induction l with
    | nil => exact fun _ ↦ rfl
    | cons i l ih => exact fun _ ↦ ih _
  exact hfrom _ _

/-- **`Push` returns, and does one of six things.** -/
theorem Ring.Push_cases {q : BytesQueue T} {line : List (ℕ × Bytes)} (h : q.Ring line)
    (data : Bytes) : ∃ q' r, q.Push data = .ok (q', r) ∧ RingPush q data q' r := by
  have hlen := h.length_eq
  have hfind : q.freelist.find (data.length + 4 : ℕ) = (q.freelist, -1) := by
    rw [h.free_eq]
    exact find_new _
  rw [Push_of_none hfind]
  cases h.layout with
  | flat hpos hmargin hle hempty hline =>
    have hflat := hline.le
    have hafter : q.availableSpaceAfterTail = q.capacity - q.tail := by
      rw [availableSpaceAfterTail, if_pos hflat]
    have hbefore : q.availableSpaceBeforeHead = q.head - 37 := by
      rw [availableSpaceBeforeHead, if_pos hflat, leftMarginIndex, minimumEmptyBlobSize,
        headerEntrySize]
      omega
    rw [makeRoom, hafter, hbefore]
    by_cases hfit : q.tail + (data.length + 4) ≤ q.capacity
    · rw [if_neg (by omega), Go.ok_bind]
      simp only
      rw [push_eq hflat (by omega)]
      exact ⟨_, _, rfl, .behind hflat hfit⟩
    rw [if_pos (by omega)]
    by_cases hroom : 1 + (data.length + 4) + 36 ≤ q.head
    · rw [if_pos (by omega), Go.ok_bind]
      simp only [leftMarginIndex]
      rw [push_inserted (by simp only; omega) (by simp only; omega)]
      exact ⟨_, _, rfl, .wrap hflat (by omega) hroom⟩
    rw [if_neg (by omega)]
    by_cases hfull : q.Full (data.length + 4)
    · rw [if_pos (by simpa [Full] using hfull)]
      exact ⟨_, _, rfl, .full hfull⟩
    · have hcap : q.tail + (data.length + 4) ≤ _ := le_grownCapacity hle (by omega) hfull
      rw [if_neg (by simpa [Full] using hfull),
        allocateAdditionalMemory_eq hmargin hflat (by rwa [hlen])]
      simp only [Go.ok_bind, Go.pure_eq_ok]
      rw [push_eq (q := q.grown _) hflat (by simpa [grown] using hcap)]
      exact ⟨_, _, rfl, .grow hflat (by omega) (by omega) hfull⟩
  | wrapped hne hne' hgap hle holder hnewer =>
    have hm := holder.le
    have hpos := hnewer.le
    rw [minimumEmptyBlobSize, headerEntrySize] at hgap
    have hafter : q.availableSpaceAfterTail = q.head - q.tail - 36 := by
      rw [availableSpaceAfterTail, if_neg (by omega)]
      rfl
    have hbefore : q.availableSpaceBeforeHead = q.head - q.tail - 36 := by
      rw [availableSpaceBeforeHead, if_neg (by omega)]
      rfl
    rw [makeRoom, hafter, hbefore]
    by_cases hfit : q.tail + (data.length + 4) + 36 ≤ q.head
    · rw [if_neg (by omega), Go.ok_bind]
      simp only
      rw [push_inserted (by omega) (by omega)]
      exact ⟨_, _, rfl, .between (by omega) hfit⟩
    rw [if_pos (by omega), if_neg (by omega)]
    by_cases hfull : q.Full (data.length + 4)
    · rw [if_pos (by simpa [Full] using hfull)]
      exact ⟨_, _, rfl, .full hfull⟩
    · have hcap : q.rightMargin + (data.length + 4) ≤ _ :=
        le_grownCapacity (hle.trans (le_max_left _ _)) (by omega) hfull
      rw [if_neg (by simpa [Full] using hfull),
        allocateAdditionalMemory_rewound hlen hpos hgap hm hle hfull]
      simp only [Go.ok_bind, Go.pure_eq_ok]
      rw [push_eq (q := q.rewound _) (by simp only [rewound]; omega)
        (by simpa [rewound] using hcap)]
      refine ⟨_, _, rfl, .rewind ⟨by omega, ?_, hfull⟩⟩
      rw [hafter, headerEntrySize]
      omega

/-- Adding a block behind the tail of a flat ring. -/
theorem Ring.pushed {q : BytesQueue T} {line : List (ℕ × Bytes)} (h : q.Ring line)
    (hflat : q.head ≤ q.tail) {data : Bytes} (hone : 1 ≤ data.length) (hlt : data.length < 2 ^ 32)
    (hfit : q.tail + (data.length + 4) ≤ q.capacity) :
    (q.pushed data).Ring (line ++ [(q.tail, data)]) where
  length_eq := by simpa [BytesQueue.pushed, BytesQueue.written] using h.length_eq
  free_eq := h.free_eq
  count_eq := by simp [BytesQueue.pushed, BytesQueue.written, h.count_eq]
  layout := by
    have hlen := h.length_eq
    cases h.layout with
    | flat hpos hmargin hle hempty hline =>
      refine .flat hpos rfl (le_max_of_le_left hfit) (fun hnil ↦ by simp at hnil) ?_
      exact (hline.blit (.inr le_rfl)).append (holds_blit hone hlt (by omega)).arc
    | wrapped hne hne' hgap hle holder hnewer =>
      rw [minimumEmptyBlobSize] at hgap
      omega

/-- Adding a block at the left margin, in front of a row that was flat. -/
theorem Ring.wrap {q : BytesQueue T} {line : List (ℕ × Bytes)} (h : q.Ring line)
    (hflat : q.head ≤ q.tail) {data : Bytes} (hone : 1 ≤ data.length) (hlt : data.length < 2 ^ 32)
    (hfit : 1 + (data.length + 4) + 36 ≤ q.head) :
    (({ q with tail := 1 } : BytesQueue T).inserted data).Ring (line ++ [(1, data)]) where
  length_eq := by simpa [inserted, BytesQueue.written] using h.length_eq
  free_eq := h.free_eq
  count_eq := by simp [inserted, BytesQueue.written, h.count_eq]
  layout := by
    have hlen := h.length_eq
    cases h.layout with
    | flat hpos hmargin hle hempty hline =>
      have hne : line ≠ [] := by
        rintro rfl
        have := hempty rfl
        omega
      refine .wrapped hne (List.cons_ne_nil _ _) hfit ?_ ?_ ?_
      · simp only [inserted, BytesQueue.written]
        omega
      · simp only [inserted, BytesQueue.written, hmargin]
        exact hline.blit (.inl (by rw [length_frame]; omega))
      · exact (holds_blit (i := 1) hone hlt (by simp only; omega)).arc
    | wrapped hne hne' hgap hle holder hnewer =>
      rw [minimumEmptyBlobSize] at hgap
      omega

/-- Adding a block between the tail and the head. -/
theorem Ring.inserted {q : BytesQueue T} {line : List (ℕ × Bytes)} (h : q.Ring line)
    (hwrapped : q.tail < q.head) {data : Bytes} (hone : 1 ≤ data.length)
    (hlt : data.length < 2 ^ 32) (hfit : q.tail + (data.length + 4) + 36 ≤ q.head) :
    (q.inserted data).Ring (line ++ [(q.tail, data)]) where
  length_eq := by simpa [BytesQueue.inserted, BytesQueue.written] using h.length_eq
  free_eq := h.free_eq
  count_eq := by simp [BytesQueue.inserted, BytesQueue.written, h.count_eq]
  layout := by
    have hlen := h.length_eq
    cases h.layout with
    | flat hpos hmargin hle hempty hline =>
      have := hline.le
      omega
    | @wrapped older newer hne hne' hgap hle holder hnewer =>
      have hm := holder.le
      rw [List.append_assoc]
      refine .wrapped hne (by simp) hfit hle ?_ ?_
      · exact holder.blit (.inl (by rw [length_frame]; omega))
      · exact (hnewer.blit (.inr le_rfl)).append (holds_blit hone hlt (by omega)).arc

/-- A growth of a flat ring keeps it. -/
theorem Ring.grown {q : BytesQueue T} {line : List (ℕ × Bytes)} (h : q.Ring line)
    (hflat : q.head ≤ q.tail) {need : ℕ} (hneed : 1 ≤ need) (hfull : ¬ q.Full need) :
    (q.grown need).Ring line ∧ q.tail + need ≤ (q.grown need).capacity := by
  have hlen := h.length_eq
  cases h.layout with
  | flat hpos hmargin hle hempty hline =>
    have hcap := le_grownCapacity hle hneed hfull
    refine ⟨⟨length_grownArray q need, h.free_eq, h.count_eq, ?_⟩, hcap⟩
    refine .flat hpos hmargin (le_max_of_le_left (by simp only [BytesQueue.grown]; omega)) hempty ?_
    exact hline.congr fun k hk hk' ↦
      getElem?_grownArray hlen hle hneed hfull (hpos.trans hk) hk'
  | wrapped hne hne' hgap hle holder hnewer =>
    rw [minimumEmptyBlobSize] at hgap
    omega

/-- **A growth in the wrapped layout keeps every block where it is**, provided the length of the
empty block fits its header.  The newer blocks now come first, and the empty block after them. -/
theorem Ring.rewound {q : BytesQueue T} {line : List (ℕ × Bytes)} (h : q.Ring line) {data : Bytes}
    (hre : q.Rewinds data) (hblob : q.emptyBlob.length < 2 ^ 32) :
    ∃ older newer, line = older ++ newer ∧
      (q.rewound (data.length + 4)).Ring (newer ++ (q.tail, q.emptyBlob) :: older) ∧
      1 ≤ q.rightMargin ∧
      q.rightMargin + (data.length + 4) ≤ (q.rewound (data.length + 4)).capacity := by
  obtain ⟨hwrapped, -, hfull⟩ := hre
  have hlen := h.length_eq
  cases h.layout with
  | flat hpos hmargin hle hempty hline =>
    have := hline.le
    omega
  | @wrapped older newer hne hne' hgap hle holder hnewer =>
    have hm := holder.le
    have hpos := hnewer.le
    rw [minimumEmptyBlobSize, headerEntrySize] at hgap
    have hcap : q.rightMargin + (data.length + 4) ≤ q.grownCapacity (data.length + 4) :=
      le_grownCapacity (hle.trans (le_max_left _ _)) (by omega) hfull
    have hbloblen : q.emptyBlob.length = q.head - q.tail - 4 := List.length_replicate
    -- the empty block is outside both rows
    have hnewer' : Arc (q.rewound (data.length + 4)).array 1 newer q.tail :=
      hnewer.congr fun k _ hk ↦
        getElem?_rewound (by omega) (by omega) (by omega) (by omega) (.inl hk)
    have holder' : Arc (q.rewound (data.length + 4)).array q.head older q.rightMargin :=
      holder.congr fun k hk hk' ↦ getElem?_rewound (by omega) (by omega) (by omega) hk' (.inr hk)
    have hblock : Holds (q.rewound (data.length + 4)).array (q.tail, q.emptyBlob) :=
      holds_blit (by omega) hblob
        (by simp only [Bytes.length_blit, List.length_replicate]; omega)
    have hend : q.tail + (q.emptyBlob.length + 4) = q.head := by omega
    refine ⟨older, newer, rfl, ⟨?_, h.free_eq, ?_, ?_⟩, by omega, hcap⟩
    · simp [BytesQueue.rewound]
    · have hcount := h.count_eq
      simp only [BytesQueue.rewound, List.length_append, List.length_cons] at hcount ⊢
      omega
    · refine .flat le_rfl rfl (le_max_of_le_left (by simp only [BytesQueue.rewound]; omega))
        (fun hnil ↦ by simp at hnil) (hnewer'.append ⟨rfl, hblock, ?_⟩)
      rw [hend]
      exact holder'

/-- **Without a growth in the wrapped layout, `Push` adds its block at the end of the line.** -/
theorem RingPush.ring {q q' : BytesQueue T} {line : List (ℕ × Bytes)} {data : Bytes} {i : ℕ}
    (ho : RingPush q data q' (.ok i)) (h : q.Ring line) (hone : 1 ≤ data.length)
    (hlt : data.length < 2 ^ 32) (hre : ¬ q.Rewinds data) : q'.Ring (line ++ [(i, data)]) := by
  cases ho with
  | behind hflat hfit => exact h.pushed hflat hone hlt hfit
  | wrap hflat _ hfit => exact h.wrap hflat hone hlt hfit
  | between hwrapped hfit => exact h.inserted hwrapped hone hlt hfit
  | grow hflat _ _ hfull =>
    obtain ⟨hgrown, hfit⟩ := h.grown hflat (by omega) hfull
    exact hgrown.pushed hflat hone hlt hfit
  | rewind hrewinds => exact absurd hrewinds hre

/-- **`Push` keeps every block of the line**, as long as an empty block it inserts is not too
long for its header. -/
theorem RingPush.ring_of_blob {q q' : BytesQueue T} {line : List (ℕ × Bytes)} {data : Bytes}
    {i : ℕ} (ho : RingPush q data q' (.ok i)) (h : q.Ring line) (hone : 1 ≤ data.length)
    (hlt : data.length < 2 ^ 32) (hblob : q.Rewinds data → q.emptyBlob.length < 2 ^ 32) :
    ∃ line', q'.Ring line' ∧ (i, data) ∈ line' ∧ ∀ b ∈ line, b ∈ line' := by
  by_cases hre : q.Rewinds data
  · obtain ⟨older, newer, rfl, hring, hpos, hfit⟩ := h.rewound hre (hblob hre)
    cases ho with
    | rewind =>
      refine ⟨_, hring.pushed hpos hone hlt hfit, by simp [BytesQueue.rewound], fun b hb ↦ ?_⟩
      simp only [List.mem_append, List.mem_cons] at hb ⊢
      tauto
    | behind hflat => exact absurd hre.1 (not_lt.mpr hflat)
    | wrap hflat => exact absurd hre.1 (not_lt.mpr hflat)
    | grow hflat => exact absurd hre.1 (not_lt.mpr hflat)
    | between hwrapped hfit =>
      have hafter := hre.2.1
      rw [availableSpaceAfterTail, if_neg (by omega), minimumEmptyBlobSize, headerEntrySize]
        at hafter
      omega
  · exact ⟨_, ho.ring h hone hlt hre, by simp, fun b hb ↦ List.mem_append_left _ hb⟩

/-! ## Popping -/

/-- The first block of the line is at the head. -/
theorem Ring.head_eq {q : BytesQueue T} {b : ℕ × Bytes} {line : List (ℕ × Bytes)}
    (h : q.Ring (b :: line)) : q.head = b.1 := by
  generalize hl : b :: line = l at h
  cases h.layout with
  | flat hpos hmargin hle hempty hline =>
    subst hl
    exact hline.1.symm
  | @wrapped older newer hne hne' hgap hle holder hnewer =>
    cases older with
    | nil => exact absurd rfl hne
    | cons c older =>
      obtain ⟨rfl, -⟩ := List.cons.inj hl
      exact holder.1.symm

/-- A pop takes the first block out of the line. -/
theorem Ring.popped {q : BytesQueue T} {b : ℕ × Bytes} {line : List (ℕ × Bytes)}
    (h : q.Ring (b :: line)) : (q.popped b).Ring line := by
  have hlen := h.length_eq
  have hcount : q.count - 1 = line.length := by simp [h.count_eq]
  generalize hl : b :: line = l at h
  cases h.layout with
  | flat hpos hmargin hle hempty hline =>
    subst hl
    obtain ⟨-, hb, hline⟩ := hline
    rw [BytesQueue.popped]
    simp only [hmargin, if_true]
    split_ifs with htail
    · -- the queue is empty again
      obtain rfl : line = [] := by
        by_contra hne
        have := hline.lt hne
        omega
      exact ⟨hlen, h.free_eq, hcount, .flat le_rfl rfl (le_max_right _ _) (fun _ ↦ rfl) rfl⟩
    · refine ⟨hlen, h.free_eq, hcount, .flat (by simp only; omega) rfl hle ?_ hline⟩
      rintro rfl
      exact absurd hline htail
  | @wrapped older newer hne hne' hgap hle holder hnewer =>
    cases older with
    | nil => exact absurd rfl hne
    | cons c older =>
      obtain ⟨rfl, rfl⟩ := List.cons.inj hl
      obtain ⟨hc, hb, holder⟩ := holder
      have hm := holder.le
      rw [minimumEmptyBlobSize, headerEntrySize] at hgap
      rw [BytesQueue.popped]
      simp only
      rw [if_neg (show ¬ q.tail = q.rightMargin by omega)]
      split_ifs with hend
      · -- the older blocks are gone: the newer ones are a flat ring
        obtain rfl : older = [] := by
          by_contra hne
          have := holder.lt hne
          omega
        refine ⟨hlen, h.free_eq, hcount, .flat le_rfl rfl ?_ (fun hnil ↦ absurd hnil hne') hnewer⟩
        simp only
        omega
      · refine ⟨hlen, h.free_eq, hcount, .wrapped ?_ hne' ?_ hle holder hnewer⟩
        · rintro rfl
          exact hend holder
        · simp only [minimumEmptyBlobSize, headerEntrySize]
          omega

/-- **`Pop` returns the first block of the line** and takes it out. -/
theorem Ring.pop_cons {q : BytesQueue T} {b : ℕ × Bytes} {line : List (ℕ × Bytes)}
    (h : q.Ring (b :: line)) :
    q.pop = .ok (q.popped b, .ok (q.view b)) ∧ (q.load (q.view b)).bytes = b.2 := by
  obtain ⟨hpeek, hload⟩ := h.peek List.mem_cons_self
  refine ⟨pop_eq ?_, hload⟩
  rw [h.head_eq]
  exact hpeek

/-- `Pop` on an empty queue. -/
theorem Ring.pop_nil {q : BytesQueue T} (h : q.Ring []) : q.pop = .ok (q, .error .empty) := by
  rw [pop, h.peek_nil]
  rfl

/-- **`Pop` always returns.** -/
theorem Ring.pop_returns {q : BytesQueue T} {line : List (ℕ × Bytes)} (h : q.Ring line) :
    ∃ q' r, q.pop = .ok (q', r) := by
  cases line with
  | nil => exact ⟨_, _, h.pop_nil⟩
  | cons b line => exact ⟨_, _, h.pop_cons.1⟩

end BytesQueue
end ClusteredBigCache
