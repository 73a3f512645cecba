import ClusteredBigCache.Lib.Go
import ClusteredBigCache.Queue.FreeList

/-!
# The byte queue

`BytesQueue` stores entries in one growing byte array, each as a four-byte length followed by the
data, and hands out the index of the length field.  `Push` has three ways to find room: a range the
free list gives back, the space behind the tail (or before the head, once entries have been
popped), and a larger array into which the old one is copied up to `rightMargin`.

The source has both an exported `Push` and an inner `push`, and likewise for `Peek` and `peek`;
these four keep their case.  Positions and sizes are Go's `int`, taken as unbounded, and natural
numbers where the source never makes them negative.  The scratch `headerBuffer`, which is always
rewritten before it is read, the `verbose` flag, which only logs, and `initialCapacity`, which
nothing reads, are left out.

A slice that was taken before the array was replaced still points into the old array, so the queue
of the model keeps the arrays that `allocateAdditionalMemory` retired, and a `Slice` says which
array it points into.  The field `live` is a ghost: it lists the entries that were pushed and not
removed since, and no function reads it.
-/

set_option autoImplicit false

namespace ClusteredBigCache

/-- Number of bytes used to keep information about entry size. -/
def headerEntrySize : ℕ := 4

/-- Bytes before the left margin are not used: a zero index means that there is no such element. -/
def leftMarginIndex : ℕ := 1

/-- Minimum empty blob size in bytes. -/
def minimumEmptyBlobSize : ℕ := 32 + headerEntrySize

/-- The errors of the queue. -/
inductive QueueError
  | full
  | empty
  | invalidIndex
  | outOfRange
  deriving DecidableEq, Repr

/-- The message of a `queueError`. -/
def QueueError.message : QueueError → String
  | .full => "Full queue. Maximum size limit reached."
  | .empty => "Empty queue"
  | .invalidIndex => "Index must be grater than zero. Invalid index."
  | .outOfRange => "Index out of range"

/-- A slice of a queue's array: which of the arrays the queue has had, and where in it. -/
structure Slice where
  /-- How many arrays had been retired before the one the slice points into. -/
  base : ℕ
  /-- The position of its first byte. -/
  off : ℕ
  /-- Its length. -/
  len : ℕ
  deriving DecidableEq, Repr

/-- A queue of byte entries. -/
structure BytesQueue (T : Type) where
  array : Bytes
  capacity : ℕ
  maxCapacity : ℤ
  head : ℕ
  tail : ℕ
  count : ℕ
  rightMargin : ℕ
  freelist : FreeList T
  /-- The arrays that were replaced, oldest first. -/
  retired : List Bytes
  /-- Ghost: the index and the data of each entry that was pushed and not removed since. -/
  live : List (ℕ × Bytes)

namespace BytesQueue

variable {T : Type} [OrderedMap T ℤ Ptr]

/-- `NewBytesQueue(initialCapacity, maxCapacity, _)`. -/
def new (initialCapacity : ℕ) (maxCapacity : ℤ) : BytesQueue T where
  array := List.replicate initialCapacity 0
  capacity := initialCapacity
  maxCapacity := maxCapacity
  head := leftMarginIndex
  tail := leftMarginIndex
  count := 0
  rightMargin := leftMarginIndex
  freelist := FreeList.new
  retired := []
  live := []

/-- `Reset` removes all entries from the queue: it just resets the indexes. -/
def reset (q : BytesQueue T) : BytesQueue T :=
  { q with
    tail := leftMarginIndex
    head := leftMarginIndex
    rightMargin := leftMarginIndex
    count := 0
    live := [] }

/-! ## Arrays and slices

A slice that was handed out stays valid when the queue moves to a larger array: it points into the
old one, which is kept as one of the `retired` arrays. -/

/-- The array a slice points into. -/
def backing (q : BytesQueue T) (base : ℕ) : Bytes := ((q.retired ++ [q.array])[base]?).getD []

/-- The bytes a slice shows, with the rest of its array as spare capacity. -/
def load (q : BytesQueue T) (s : Slice) : GoSlice where
  bytes := Bytes.sub (q.backing s.base) s.off s.len
  spare := (q.backing s.base).drop (s.off + s.len)

/-- Write through a slice, from `off` on. -/
def store (q : BytesQueue T) (s : Slice) (off : ℕ) (src : Bytes) : BytesQueue T :=
  if s.base < q.retired.length then
    { q with retired := q.retired.modify s.base fun a ↦ Bytes.blit a (s.off + off) src }
  else { q with array := Bytes.blit q.array (s.off + off) src }

/-- A slice that lies within its array. -/
def InBounds (q : BytesQueue T) (s : Slice) : Prop := s.off + s.len ≤ (q.backing s.base).length

instance (q : BytesQueue T) (s : Slice) : Decidable (q.InBounds s) :=
  inferInstanceAs (Decidable (_ ≤ _))

section

omit [OrderedMap T ℤ Ptr]

theorem length_load {q : BytesQueue T} {s : Slice} (hs : q.InBounds s) :
    (q.load s).bytes.length = s.len := by
  rw [InBounds] at hs
  rw [load, Bytes.length_sub]
  omega

/-- A write through a slice changes its array. -/
theorem backing_store (q : BytesQueue T) (s : Slice) (off : ℕ) (src : Bytes) :
    (q.store s off src).backing s.base = Bytes.blit (q.backing s.base) (s.off + off) src := by
  have hnil : Bytes.blit [] (s.off + off) src = [] := List.eq_nil_of_length_eq_zero (by simp)
  by_cases hbase : s.base < q.retired.length
  · rw [store, if_pos hbase, backing, backing, List.getElem?_append_left (by simpa using hbase),
      List.getElem?_append_left hbase, List.getElem?_modify_eq, List.getElem?_eq_getElem hbase]
    rfl
  · have hle : q.retired.length ≤ s.base := not_lt.mp hbase
    rw [store, if_neg hbase, backing, backing, List.getElem?_append_right hle,
      List.getElem?_append_right hle]
    -- behind the current array there is none
    cases s.base - q.retired.length with
    | zero => rfl
    | succ n => simp [hnil]

/-- What a slice shows after a write through it. -/
theorem load_store {q : BytesQueue T} {s : Slice} {off : ℕ} {src : Bytes} (hs : q.InBounds s)
    (hsrc : off + src.length ≤ s.len) :
    ((q.store s off src).load s).bytes = Bytes.blit (q.load s).bytes off src := by
  simp only [load, backing_store]
  exact Bytes.sub_blit_inside hsrc hs

end

/-- `copy(q.array[q.tail:], data)`: as much of the data as fits, and the tail moves behind it. -/
def copy (q : BytesQueue T) (data : Bytes) : Go (BytesQueue T) :=
  if q.array.length < q.tail then .error .panic
  else .ok { q with
    array := Bytes.blit q.array q.tail data
    tail := q.tail + min (q.array.length - q.tail) data.length }

/-! ## Pushing -/

/-- Write an entry at the tail. -/
def push (q : BytesQueue T) (data : Bytes) : Go (BytesQueue T) := do
  let q ← q.copy (Bytes.toLE headerEntrySize data.length)
  let q ← q.copy data
  let q := if q.tail > q.head then { q with rightMargin := q.tail } else q
  pure { q with count := q.count + 1 }

/-- The capacity after a growth: doubled, and clamped to the maximum. -/
def grownCapacity (q : BytesQueue T) (minimum : ℕ) : ℕ :=
  let capacity := if q.capacity < minimum then q.capacity + minimum else q.capacity
  let capacity := capacity * 2
  if (capacity : ℤ) > q.maxCapacity ∧ q.maxCapacity > 0 then q.maxCapacity.toNat else capacity

/-- Move to a larger array.  When the tail is before the head, the gap between them becomes an
empty entry. -/
def allocateAdditionalMemory (q : BytesQueue T) (minimum : ℕ) : Go (BytesQueue T) :=
  let capacity := q.grownCapacity minimum
  let oldArray := q.array
  let q := { q with
    capacity := capacity
    retired := q.retired ++ [oldArray]
    array := List.replicate capacity 0 }
  if leftMarginIndex = q.rightMargin then .ok q
  else if oldArray.length < q.rightMargin then .error .panic
  else
    let q := { q with array := Bytes.blit q.array 0 (oldArray.take q.rightMargin) }
    if q.tail < q.head then
      let emptyBlobLen : ℤ := q.head - q.tail - headerEntrySize
      if emptyBlobLen < 0 then .error .panic
      else do
        let q ← q.push (List.replicate emptyBlobLen.toNat 0)
        pure { q with head := leftMarginIndex, tail := q.rightMargin }
    else .ok q

def availableSpaceAfterTail (q : BytesQueue T) : ℤ :=
  if q.tail ≥ q.head then q.capacity - q.tail else q.head - q.tail - minimumEmptyBlobSize

def availableSpaceBeforeHead (q : BytesQueue T) : ℤ :=
  if q.tail ≥ q.head then q.head - leftMarginIndex - minimumEmptyBlobSize
  else q.head - q.tail - minimumEmptyBlobSize

/-- The first half of `Push`, when the free list has a range: the entry is written there, with the
tail moved out of the way meanwhile. -/
def pushFree (q : BytesQueue T) (idx : ℤ) (data : Bytes) : Go (BytesQueue T × ℕ) :=
  if idx < 0 then .error .panic
  else do
    let tmpTail := q.tail
    let q := { q with tail := idx.toNat }
    let q ← q.copy (Bytes.toLE headerEntrySize data.length)
    let q ← q.copy data
    pure ({ q with
      count := q.count + 1
      tail := tmpTail
      live := (idx.toNat, data) :: q.live }, idx.toNat)

/-- The room `Push` makes at the tail: none is needed, the tail wraps to the left margin, the queue
is full, or the array grows. -/
def makeRoom (q : BytesQueue T) (need : ℕ) : Go (Except QueueError (BytesQueue T)) :=
  if q.availableSpaceAfterTail < need then
    if q.availableSpaceBeforeHead ≥ need then .ok (.ok { q with tail := leftMarginIndex })
    else if q.capacity + need ≥ q.maxCapacity ∧ q.maxCapacity > 0 then .ok (.error .full)
    else do
      let q ← q.allocateAdditionalMemory need
      pure (.ok q)
  else .ok (.ok q)

/-- `Push` copies an entry into the queue and returns its index, or an error if the maximum size is
reached. -/
def Push (q : BytesQueue T) (data : Bytes) : Go (BytesQueue T × Except QueueError ℕ) :=
  let need := data.length + headerEntrySize
  let (freelist, idx) := q.freelist.find need
  let q := { q with freelist := freelist }
  if idx ≠ -1 then do
    let (q, index) ← q.pushFree idx data
    pure (q, .ok index)
  else do
    match ← q.makeRoom need with
    | .error e => pure (q, .error e)
    | .ok q =>
      let index := q.tail
      let q ← q.push data
      pure ({ q with live := (index, data) :: q.live }, .ok index)

/-! ## Reading and removing -/

/-- The entry at an index: a slice of its data, and its length. -/
def peek (q : BytesQueue T) (index : ℤ) : Go (Except QueueError (Slice × ℕ)) :=
  if q.count = 0 then .ok (.error .empty)
  else if index ≤ 0 then .ok (.error .invalidIndex)
  else if index + headerEntrySize ≥ q.array.length then .ok (.error .outOfRange)
  else
    let off := index.toNat + headerEntrySize
    let blockSize := Bytes.ofLE (Bytes.sub q.array index.toNat headerEntrySize)
    if q.array.length < off + blockSize then .error .panic
    else .ok (.ok (⟨q.retired.length, off, blockSize⟩, blockSize))

/-- `Pop` reads the oldest entry and moves the head behind it. -/
def pop (q : BytesQueue T) : Go (BytesQueue T × Except QueueError Slice) := do
  match ← q.peek q.head with
  | .error e => pure (q, .error e)
  | .ok (data, size) =>
    let q := { q with
      head := q.head + (headerEntrySize + size)
      count := q.count - 1
      live := q.live.filter fun e ↦ e.1 ≠ q.head }
    if q.head = q.rightMargin then
      let tail := if q.tail = q.rightMargin then leftMarginIndex else q.tail
      pure ({ q with head := leftMarginIndex, tail := tail, rightMargin := tail }, .ok data)
    else pure (q, .ok data)

/-- `Peek` reads the oldest entry without moving the head. -/
def Peek (q : BytesQueue T) : Go (Except QueueError Slice) := do
  pure ((← q.peek q.head).map Prod.fst)

/-- `Get` reads the entry at an index. -/
def get (q : BytesQueue T) (index : ℤ) : Go (Except QueueError Slice) := do
  pure ((← q.peek index).map Prod.fst)

/-- `Len`, the number of entries. -/
def len (q : BytesQueue T) : ℕ := q.count

/-- `Delete` gives the space of the entry at an index to the free list. -/
def delete (q : BytesQueue T) (index : ℤ) : Go (BytesQueue T × Except QueueError Unit) := do
  match ← q.peek index with
  | .error e => pure (q, .error e)
  | .ok (_, size) =>
    pure ({ q with
      freelist := q.freelist.add index (size + headerEntrySize)
      count := q.count - 1
      live := q.live.filter fun e ↦ (e.1 : ℤ) ≠ index }, .ok ())

end BytesQueue
end ClusteredBigCache
