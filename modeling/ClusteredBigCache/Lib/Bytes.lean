import Mathlib.Data.List.Basic
import Mathlib.Tactic.Ring

/-!
# Byte strings as memory

A byte array that a program reads and writes at offsets is a list of bytes with two operations:
`sub b off n`, the `n` bytes from `off` on, and `blit dst off src`, which overwrites `dst` from
`off` on with as much of `src` as fits.  The three facts that make reasoning about such an array
possible are here: what was written is read back (`sub_blit_self`), what was not written over is
unchanged (`sub_blit_of_disjoint`), and two writes next to each other are one
(`blit_blit_append`).  All of them come from `getElem?_blit`, which says what a write does byte by
byte.

`toLE w n` and `ofLE` are the little-endian encoding of a number in `w` bytes and its inverse.
-/

set_option autoImplicit false

/-- A string of bytes. -/
abbrev Bytes := List UInt8

namespace Bytes

/-! ## Reading and writing at an offset

Both operations are total: what lies outside the array is not read and not written.  Whether a
program reads or writes out of range is for its model to say. -/

/-- The `n` bytes of `b` from offset `off` on, or as many of them as there are. -/
def sub (b : Bytes) (off n : ℕ) : Bytes := (b.drop off).take n

/-- Overwrite `dst` from offset `off` on with `src`, or with as much of it as fits. -/
def blit (dst : Bytes) (off : ℕ) (src : Bytes) : Bytes :=
  dst.take off ++ src.take (dst.length - off) ++ dst.drop (off + min (dst.length - off) src.length)

theorem length_sub (b : Bytes) (off n : ℕ) : (sub b off n).length = min n (b.length - off) := by
  simp [sub]

theorem getElem?_sub (b : Bytes) (off n i : ℕ) :
    (sub b off n)[i]? = if i < n then b[off + i]? else none := by
  rw [sub, List.getElem?_take]
  split <;> simp [List.getElem?_drop]

/-- **What a write does, byte by byte.** -/
theorem getElem?_blit (dst : Bytes) (off : ℕ) (src : Bytes) (i : ℕ) :
    (blit dst off src)[i]? =
      if off ≤ i ∧ i < off + src.length ∧ i < dst.length then src[i - off]? else dst[i]? := by
  rcases Nat.lt_or_ge i dst.length with hd | hd
  · simp only [blit, List.append_assoc, List.getElem?_append, List.length_take,
      List.getElem?_take, List.getElem?_drop]
    split_ifs <;> first | rfl | omega | (congr 1; omega)
  · rw [if_neg (by omega), List.getElem?_eq_none hd, List.getElem?_eq_none]
    simp only [blit, List.length_append, List.length_take, List.length_drop]
    omega

@[simp] theorem length_blit (dst : Bytes) (off : ℕ) (src : Bytes) :
    (blit dst off src).length = dst.length := by
  simp only [blit, List.length_append, List.length_take, List.length_drop]
  omega

/-- Two arrays have the same bytes in a range when they agree on every position of it. -/
theorem sub_congr {a b : Bytes} {off n : ℕ}
    (h : ∀ i, off ≤ i → i < off + n → a[i]? = b[i]?) : sub a off n = sub b off n := by
  refine List.ext_getElem? fun i ↦ ?_
  rw [getElem?_sub, getElem?_sub]
  split
  · exact h _ (by omega) (by omega)
  · rfl

/-- **What was written is read back.** -/
theorem sub_blit_self {dst src : Bytes} {off : ℕ} (h : off + src.length ≤ dst.length) :
    sub (blit dst off src) off src.length = src := by
  refine List.ext_getElem? fun i ↦ ?_
  rw [getElem?_sub, getElem?_blit]
  split
  · rw [if_pos (by omega)]
    congr 1
    omega
  · exact (List.getElem?_eq_none (by omega)).symm

/-- **What was not written over is unchanged.** -/
theorem sub_blit_of_disjoint {dst src : Bytes} {off off' n : ℕ}
    (h : off' + n ≤ off ∨ off + src.length ≤ off') :
    sub (blit dst off src) off' n = sub dst off' n := by
  refine sub_congr fun i hi hi' ↦ ?_
  rw [getElem?_blit, if_neg (by omega)]

/-- Two writes next to each other are one write. -/
theorem blit_blit_append (dst a b : Bytes) (off : ℕ) :
    blit (blit dst off a) (off + a.length) b = blit dst off (a ++ b) := by
  refine List.ext_getElem? fun i ↦ ?_
  rw [getElem?_blit, getElem?_blit, getElem?_blit, length_blit, List.length_append,
    List.getElem?_append]
  split_ifs <;> first | rfl | omega | (congr 1; omega)

/-- Filling an array from its front, piece by piece. -/
theorem blit_zero_append (dst : Bytes) {a b : Bytes} {n : ℕ} (h : a.length = n) :
    blit (blit dst 0 a) n b = blit dst 0 (a ++ b) := by
  rw [← blit_blit_append, Nat.zero_add, h]

/-- An array of which the front was written. -/
theorem take_blit_zero {dst src : Bytes} (h : src.length ≤ dst.length) :
    (blit dst 0 src).take src.length = src := by
  have h0 : 0 + src.length ≤ dst.length := by omega
  simpa [sub] using sub_blit_self h0

/-- Copying into a new array of the same length. -/
theorem blit_replicate {src : Bytes} {n : ℕ} (h : src.length = n) :
    blit (List.replicate n 0) 0 src = src := by
  have hle : src.length ≤ (List.replicate n (0 : UInt8)).length := by simp [h]
  have htake := take_blit_zero hle
  rwa [List.take_of_length_le (by simp [h])] at htake

/-- A range read from a range. -/
theorem sub_sub {b : Bytes} {off n i m : ℕ} (h : i + m ≤ n) :
    sub (sub b off n) i m = sub b (off + i) m := by
  refine List.ext_getElem? fun j ↦ ?_
  rw [getElem?_sub, getElem?_sub, getElem?_sub]
  split_ifs <;> first | rfl | omega | (congr 1; omega)

/-- A write inside a range, seen from the range. -/
theorem sub_blit_inside {b src : Bytes} {off n i : ℕ} (h : i + src.length ≤ n)
    (hb : off + n ≤ b.length) : sub (blit b (off + i) src) off n = blit (sub b off n) i src := by
  refine List.ext_getElem? fun j ↦ ?_
  rw [getElem?_sub, getElem?_blit, getElem?_blit, getElem?_sub, length_sub]
  split_ifs <;> first | rfl | omega | (congr 1; omega)

/-- Overwriting the middle one of three pieces. -/
theorem blit_middle {a b b' c : Bytes} (h : b'.length = b.length) :
    blit (a ++ (b ++ c)) a.length b' = a ++ (b' ++ c) := by
  refine List.ext_getElem? fun i ↦ ?_
  rw [getElem?_blit]
  simp only [List.getElem?_append, List.length_append]
  split_ifs <;> first | rfl | omega | (congr 1; omega)

theorem sub_append_left {a b : Bytes} : sub (a ++ b) 0 a.length = a := by
  simp [sub]

theorem sub_append_right {a b : Bytes} : sub (a ++ b) a.length b.length = b := by
  simp [sub]

/-! ## Little-endian numbers -/

/-- The number `n` in `w` bytes, least significant first; what does not fit is dropped. -/
def toLE : ℕ → ℕ → Bytes
  | 0, _ => []
  | w + 1, n => UInt8.ofNat n :: toLE w (n / 256)

/-- The number written least significant byte first. -/
def ofLE : Bytes → ℕ
  | [] => 0
  | b :: bs => b.toNat + 256 * ofLE bs

@[simp] theorem length_toLE (w n : ℕ) : (toLE w n).length = w := by
  induction w generalizing n with
  | zero => rfl
  | succ w ih => simp [toLE, ih]

/-- **Decoding inverts encoding**, up to what does not fit. -/
theorem ofLE_toLE (w n : ℕ) : ofLE (toLE w n) = n % 256 ^ w := by
  induction w generalizing n with
  | zero => simp [toLE, ofLE, Nat.mod_one]
  | succ w ih =>
    rw [toLE, ofLE, ih, UInt8.toNat_ofNat', pow_succ' 256 w, Nat.mod_mul]

/-- What does not fit is dropped. -/
theorem toLE_add_pow (w n k : ℕ) : toLE w (n + 256 ^ w * k) = toLE w n := by
  induction w generalizing n with
  | zero => rfl
  | succ w ih =>
    have hdiv : (n + 256 ^ (w + 1) * k) / 256 = n / 256 + 256 ^ w * k := by
      rw [pow_succ', mul_assoc, Nat.add_mul_div_left _ _ (by norm_num)]
    have hbyte : UInt8.ofNat (n + 256 ^ (w + 1) * k) = UInt8.ofNat n := by
      rw [← UInt8.toNat_inj, UInt8.toNat_ofNat', UInt8.toNat_ofNat', pow_succ', mul_assoc]
      exact Nat.add_mul_mod_self_left _ _ _
    rw [toLE, toLE, hdiv, ih, hbyte]

theorem ofLE_lt (bs : Bytes) : ofLE bs < 256 ^ bs.length := by
  induction bs with
  | nil => simp [ofLE]
  | cons b bs ih =>
    have hb := b.toNat_lt
    rw [ofLE, List.length_cons, pow_succ']
    omega

theorem ofLE_toLE_of_lt {w n : ℕ} (h : n < 256 ^ w) : ofLE (toLE w n) = n := by
  rw [ofLE_toLE, Nat.mod_eq_of_lt h]

end Bytes
