import ClusteredBigCache.Lib.Bytes

/-!
# Calls that may not return, and slices

A Go call can end in three ways: it returns, it panics, or it blocks for ever on a lock that
nobody will release.  `Go α` keeps the last two apart from the values the call returns — an `error`
a Go function returns is an ordinary value here, an `Except` inside `Go`.  `Go.bind_eq_ok` peels a
sequence of calls apart and is what proofs about such code use in place of unfolding it.

`GoSlice` is a `[]byte`: the bytes it shows, and the bytes between its length and its capacity,
which a reslicing such as `data[i:j]` can bring back into view.  `GoSlice.slice` is that reslicing,
with the bounds Go checks, and `u16`, `u64` are the reads of `binary.LittleEndian`.
-/

set_option autoImplicit false

/-- How a Go call can fail to return. -/
inductive Fault
  /-- A run-time panic: an index or a slice bound out of range, or a negative `make`. -/
  | panic
  /-- A lock that is held and will not be released. -/
  | blocked
  deriving DecidableEq, Repr

/-- A call that returns an `α`, or fails to return. -/
abbrev Go (α : Type) := Except Fault α

namespace Go

variable {α β : Type}

/-- **A sequence of calls returns when both parts do.** -/
theorem bind_eq_ok {x : Go α} {f : α → Go β} {b : β} :
    (x >>= f) = .ok b ↔ ∃ a, x = .ok a ∧ f a = .ok b := by
  cases x with
  | error e => simp [bind, Except.bind]
  | ok a => simp [bind, Except.bind]

theorem toOption_eq_some {ε : Type*} {x : Except ε α} {a : α} :
    x.toOption = some a ↔ x = .ok a := by
  cases x <;> simp [Except.toOption]

@[simp] theorem ok_bind (a : α) (f : α → Go β) : ((.ok a : Go α) >>= f) = f a := rfl

@[simp] theorem pure_eq_ok (a : α) : (pure a : Go α) = .ok a := rfl

end Go

/-- A byte slice: the bytes in view, and those from its length up to its capacity. -/
structure GoSlice where
  /-- `s[0:len(s)]`. -/
  bytes : Bytes
  /-- `s[len(s):cap(s)]`. -/
  spare : Bytes := []

namespace GoSlice

/-- `len(s)`. -/
def len (s : GoSlice) : ℕ := s.bytes.length

/-- `s[i:j]`, which panics unless `i ≤ j ≤ cap(s)`. -/
def slice (s : GoSlice) (i j : ℕ) : Go GoSlice :=
  if i ≤ j ∧ j ≤ s.bytes.length + s.spare.length then
    .ok ⟨Bytes.sub (s.bytes ++ s.spare) i (j - i), (s.bytes ++ s.spare).drop j⟩
  else .error .panic

/-- `s[i:]`, which panics unless `i ≤ len(s)`. -/
def sliceFrom (s : GoSlice) (i : ℕ) : Go GoSlice := s.slice i s.len

/-- `binary.LittleEndian` reading `w` bytes, which panics when the slice is shorter. -/
def readLE (s : GoSlice) (w : ℕ) : Go ℕ :=
  if w ≤ s.len then .ok (Bytes.ofLE (Bytes.sub s.bytes 0 w)) else .error .panic

/-- `binary.LittleEndian.Uint16(s)`. -/
def u16 (s : GoSlice) : Go UInt16 := UInt16.ofNat <$> s.readLE 2

/-- `binary.LittleEndian.Uint64(s)`. -/
def u64 (s : GoSlice) : Go UInt64 := UInt64.ofNat <$> s.readLE 8

theorem sliceFrom_eq {s : GoSlice} {i : ℕ} (h : i ≤ s.bytes.length) :
    s.sliceFrom i = .ok ⟨s.bytes.drop i, s.spare⟩ := by
  rw [sliceFrom, slice, len, if_pos (by omega)]
  congr 2
  · rw [Bytes.sub, List.drop_append_of_le_length h, List.take_append_of_le_length (by simp),
      List.take_of_length_le (by simp)]
  · simp

/-- Reslicing within the length gives bytes of the slice. -/
theorem slice_eq {s : GoSlice} {i j : ℕ} (hij : i ≤ j) (h : j ≤ s.bytes.length) :
    s.slice i j = .ok ⟨Bytes.sub s.bytes i (j - i), s.bytes.drop j ++ s.spare⟩ := by
  rw [slice, if_pos (by omega)]
  congr 2
  · rw [Bytes.sub, Bytes.sub, List.drop_append_of_le_length (by omega),
      List.take_append_of_le_length (by simp; omega)]
  · exact List.drop_append_of_le_length h

theorem readLE_eq {s : GoSlice} {w : ℕ} (h : w ≤ s.bytes.length) :
    s.readLE w = .ok (Bytes.ofLE (Bytes.sub s.bytes 0 w)) := by
  rw [readLE, len, if_pos h]

/-- Reading a number that stands at the front of a slice. -/
theorem readLE_of_append {s : GoSlice} {w n : ℕ} {rest : Bytes}
    (h : s.bytes = Bytes.toLE w n ++ rest) (hn : n < 256 ^ w) : s.readLE w = .ok n := by
  have hsub := Bytes.sub_append_left (a := Bytes.toLE w n) (b := rest)
  rw [Bytes.length_toLE] at hsub
  rw [readLE_eq (by simp [h]), h, hsub, Bytes.ofLE_toLE_of_lt hn]

theorem u16_of_append {s : GoSlice} {n : UInt16} {rest : Bytes}
    (h : s.bytes = Bytes.toLE 2 n.toNat ++ rest) : s.u16 = .ok n := by
  rw [u16, readLE_of_append h (by simpa using n.toNat_lt)]
  simp [Functor.map, Except.map]

theorem u64_of_append {s : GoSlice} {n : UInt64} {rest : Bytes}
    (h : s.bytes = Bytes.toLE 8 n.toNat ++ rest) : s.u64 = .ok n := by
  rw [u64, readLE_of_append h (by simpa using n.toNat_lt)]
  simp [Functor.map, Except.map]

end GoSlice
