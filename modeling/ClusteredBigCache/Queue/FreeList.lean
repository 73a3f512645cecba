import Mathlib.Logic.Function.Basic
import Mathlib.Data.Fin.VecNotation
import ClusteredBigCache.Lib.OrderedMap

/-!
# The free list

`freeList` keeps track of the byte ranges of the queue's array that have been deleted and can be
used again.  A free block is an `itemPos` — where it starts and how long it is — and is reachable
in two ways: from `indexTree`, under the position of its first and under that of its last byte, so
that the neighbours of a newly freed range can be found and merged with it; and from one of the
eight lists of `sizeList`, by size class, so that `find` can look for a block that is large enough.

Blocks are held by pointer: the tree and the size lists share one `itemPos`, `findInSizeList`
shortens it in place, and `listPos` compares pointers.  The model therefore has a heap of
`itemPos` values, and the tree and the lists hold addresses into it.  The tree itself is an ordered
map the source imports; the model is generic in it.

Indexes and sizes are Go's `int`, taken as unbounded.
-/

set_option autoImplicit false

namespace ClusteredBigCache

open OrderedMap

/-- The address of an `itemPos`. -/
abbrev Ptr := ℕ

/-- A free block of the parent slice. -/
structure ItemPos where
  /-- Its length in bytes. -/
  actualSize : ℤ
  /-- The index of its first byte. -/
  parentIndex : ℤ
  deriving DecidableEq, Repr

/-- The free list, and the heap its pointers point into. -/
structure FreeList (T : Type) where
  /-- The blocks by size class. -/
  sizeList : Fin 8 → List Ptr
  /-- The blocks by the positions of their first and last bytes. -/
  indexTree : T
  /-- What the pointers point to. -/
  heap : Ptr → ItemPos
  /-- The first address not yet handed out. -/
  fresh : Ptr

namespace FreeList

variable {T : Type} [OrderedMap T ℤ Ptr]

/-- `newFreeList()`. -/
def new : FreeList T where
  sizeList _ := []
  indexTree := empty
  heap _ := ⟨0, 0⟩
  fresh := 0

/-- The size class of a block, the `switch` of `putIntoSizeList` and of `removeFromSizeList`.
There is no class for a block of exactly 4096 bytes: neither of the last two cases covers it. -/
def sizeClass (actualSize : ℤ) : Option (Fin 8) :=
  if actualSize < 64 then some 0
  else if actualSize < 128 then some 1
  else if actualSize < 256 then some 2
  else if actualSize < 512 then some 3
  else if actualSize < 1024 then some 4
  else if actualSize < 2048 then some 5
  else if actualSize < 4096 then some 6
  else if actualSize > 4096 then some 7
  else none

/-- The position of a pointer in a list, or `-1`. -/
def listPos (v : Ptr) (arr : List Ptr) : ℤ := if v ∈ arr then arr.idxOf v else -1

/-- Take a block out of the list of its size class. -/
def removeFromSizeList (list : FreeList T) (v : Ptr) : FreeList T :=
  match sizeClass (list.heap v).actualSize with
  | none => list
  | some b =>
    let pos := listPos v (list.sizeList b)
    if pos ≠ -1 then
      { list with
        sizeList := Function.update list.sizeList b ((list.sizeList b).eraseIdx pos.toNat) }
    else list

/-- Append a block to the list of its size class. -/
def putIntoSizeList (list : FreeList T) (v : Ptr) : FreeList T :=
  match sizeClass (list.heap v).actualSize with
  | none => list
  | some b => { list with sizeList := Function.update list.sizeList b (list.sizeList b ++ [v]) }

/-- The first merge of `add`: a block that ends right before `index` is taken out, and the item
grows to the left over it. -/
def mergeLeft (list : FreeList T) (item : ItemPos) (index size : ℤ) : FreeList T × ItemPos :=
  match get list.indexTree (index - 1) with
  | none => (list, item)
  | some v =>
    let w := list.heap v
    let tree := remove (remove list.indexTree (index - 1)) w.parentIndex
    (removeFromSizeList { list with indexTree := tree } v,
      { parentIndex := w.parentIndex, actualSize := w.actualSize + size })

/-- The second merge of `add`: a block that starts right after the range is taken out, and the item
becomes the range together with it.  What the first merge did to the item is overwritten. -/
def mergeRight (list : FreeList T) (item : ItemPos) (index size : ℤ) : FreeList T × ItemPos :=
  match get list.indexTree (index + size) with
  | none => (list, item)
  | some v =>
    let w := list.heap v
    let tree := remove (remove list.indexTree (index + size)) (w.parentIndex + w.actualSize - 1)
    (removeFromSizeList { list with indexTree := tree } v,
      { parentIndex := index, actualSize := size + w.actualSize })

/-- The end of `add`: the item is stored under both its ends and in the list of its size class. -/
def record (list : FreeList T) (item : ItemPos) : FreeList T :=
  let v := list.fresh
  let tree := put (put list.indexTree item.parentIndex v)
    (item.parentIndex + item.actualSize - 1) v
  putIntoSizeList
    { list with indexTree := tree, heap := Function.update list.heap v item, fresh := v + 1 } v

/-- Add a range of the parent slice, merged with the free blocks next to it. -/
def add (list : FreeList T) (index size : ℤ) : FreeList T :=
  let (list, item) := mergeLeft list { parentIndex := index, actualSize := size } index size
  let (list, item) := mergeRight list item index size
  record list item

/-- Where `find` starts looking for a block of the given size, and the size from which on what is
left of a block stays in the list it was found in.  No case covers a size of exactly 4096, which
leaves both at their initial zero. -/
def findStart (size : ℤ) : Fin 8 × ℤ :=
  if size < 64 then (0, 64)
  else if size < 128 then (1, 128)
  else if size < 256 then (2, 256)
  else if size < 512 then (3, 512)
  else if size < 1024 then (4, 1024)
  else if size < 2048 then (5, 2048)
  else if size < 4096 then (6, 4096)
  else if size > 4096 then (7, 4097)
  else (0, 0)

/-- Take `size` bytes from the front of the first block of one list that is large enough. -/
def findInSizeList (list : FreeList T) (idx : Fin 8) (size buckSize : ℤ) :
    FreeList T × Option ℤ :=
  let fits : Ptr → Bool := fun p ↦ size ≤ (list.heap p).actualSize
  match (list.sizeList idx).find? fits with
  | none => (list, none)
  | some p =>
    let tmp := list.heap p
    let tree := remove list.indexTree tmp.parentIndex
    let rest := Function.update list.sizeList idx ((list.sizeList idx).eraseP fits)
    if size = tmp.actualSize then
      ({ list with
          sizeList := rest
          indexTree := remove tree (tmp.actualSize + tmp.parentIndex - 1) },
        some tmp.parentIndex)
    else if tmp.actualSize - size ≥ buckSize then
      -- the block is shortened in place and stays in its list
      let tmp' : ItemPos :=
        { parentIndex := tmp.parentIndex + size, actualSize := tmp.actualSize - size }
      ({ list with
          indexTree := put tree tmp'.parentIndex p
          heap := Function.update list.heap p tmp' },
        some tmp.parentIndex)
    else
      (add
        { list with
          sizeList := rest
          indexTree := remove tree (tmp.parentIndex + tmp.actualSize - 1) }
        (tmp.parentIndex + size) (tmp.actualSize - size), some tmp.parentIndex)

/-- What `find` makes of its `buckSize` when it goes on to the next list. -/
def nextBuckSize (idx : Fin 8) (buckSize : ℤ) : ℤ := if idx < 6 then buckSize * 2 else 4097

/-- The loop of `find` over the lists that are left. -/
def findFrom (list : FreeList T) (size : ℤ) : List (Fin 8) → ℤ → FreeList T × ℤ
  | [], _ => (list, -1)
  | idx :: rest, buckSize =>
    match findInSizeList list idx size buckSize with
    | (list', some v) => (list', v)
    | (_, none) => findFrom list size rest (nextBuckSize idx buckSize)

/-- Allocate `size` bytes: the index of a range taken out of the free blocks, or `-1`. -/
def find (list : FreeList T) (size : ℤ) : FreeList T × ℤ :=
  let (index, buckSize) := findStart size
  findFrom list size ((List.finRange 8).drop index) buckSize

end FreeList
end ClusteredBigCache
