import ClusteredBigCache.Lib.Bytes

/-!
# Byte strings that are not UTF-8

A string of a program whose strings are bytes need not be UTF-8, and a text format such as JSON has
no way to carry one that is not: an encoder then writes the replacement character `U+FFFD` for every
byte that is not part of a character.  `repair` is what comes out at the other end.

* `decodeRune` is the character a byte string begins with, by the decoder of the standard library.
* `Valid` is that of the standard library, for lists of bytes.
* `repair_eq_self_iff` says that a byte string survives exactly when it is valid.
-/

set_option autoImplicit false

namespace Utf8

/-- The character a byte string begins with, if it begins with one. -/
def decodeRune (b : Bytes) : Option Char := b.toByteArray.utf8DecodeChar? 0

/-- The encoding of a list of characters. -/
def Valid (b : Bytes) : Prop := b.toByteArray.IsValidUTF8

/-- The encoding of `U+FFFD`. -/
def replacement : Bytes := [0xEF, 0xBF, 0xBD]

/-- Copy the `n` bytes that remain of a character, and repair what comes after them. -/
def repairFrom : ℕ → Bytes → Bytes
  | _, [] => []
  | n + 1, b :: rest => b :: repairFrom n rest
  | 0, b :: rest =>
    match decodeRune (b :: rest) with
    | some c => b :: repairFrom (c.utf8Size - 1) rest
    | none => replacement ++ repairFrom 0 rest

/-- Write `U+FFFD` for every byte that is not part of a character. -/
def repair (b : Bytes) : Bytes := repairFrom 0 b

/-! ## Characters -/

theorem decodeRune_eq_some_iff {b : Bytes} {c : Char} :
    decodeRune b = some c ↔ ∃ rest, b = String.utf8EncodeChar c ++ rest := by
  constructor
  · intro h
    obtain ⟨l, hl⟩ := ByteArray.exists_of_utf8DecodeChar?_eq_some h
    refine ⟨l.data.toList, List.toByteArray_inj.mp ?_⟩
    rw [hl, List.toByteArray_append]
    congr 1
    ext1
    simp
  · rintro ⟨rest, rfl⟩
    rw [decodeRune, List.toByteArray_append]
    exact ByteArray.utf8DecodeChar?_utf8EncodeChar_append

theorem valid_iff {b : Bytes} : Valid b ↔ ∃ l : List Char, b = l.flatMap String.utf8EncodeChar := by
  constructor
  · rintro ⟨l, hl⟩
    exact ⟨l, List.toByteArray_inj.mp hl⟩
  · rintro ⟨l, rfl⟩
    exact ⟨l, rfl⟩

theorem valid_encode_append {c : Char} {rest : Bytes} (h : Valid rest) :
    Valid (String.utf8EncodeChar c ++ rest) := by
  obtain ⟨l, rfl⟩ := valid_iff.mp h
  exact valid_iff.mpr ⟨c :: l, rfl⟩

theorem Valid.append {a b : Bytes} (ha : Valid a) (hb : Valid b) : Valid (a ++ b) := by
  obtain ⟨l, rfl⟩ := valid_iff.mp ha
  obtain ⟨m, rfl⟩ := valid_iff.mp hb
  exact valid_iff.mpr ⟨l ++ m, List.flatMap_append.symm⟩

/-! ## What repairing does -/

theorem repairFrom_append {n : ℕ} {a : Bytes} (b : Bytes) (h : a.length = n) :
    repairFrom n (a ++ b) = a ++ repair b := by
  induction a generalizing n with
  | nil =>
    subst h
    rfl
  | cons x a ih =>
    subst h
    rw [List.length_cons, List.cons_append, repairFrom, ih rfl, List.cons_append]

/-- A character is left as it is. -/
theorem repair_encode_append (c : Char) (rest : Bytes) :
    repair (String.utf8EncodeChar c ++ rest) = String.utf8EncodeChar c ++ repair rest := by
  have hdecode : decodeRune (String.utf8EncodeChar c ++ rest) = some c :=
    decodeRune_eq_some_iff.mpr ⟨rest, rfl⟩
  have hlen := String.length_utf8EncodeChar c
  cases hc : String.utf8EncodeChar c with
  | nil => exact absurd hc String.utf8EncodeChar_ne_nil
  | cons x xs =>
    rw [hc] at hdecode hlen
    have hxs : xs.length = c.utf8Size - 1 := by
      rw [← hlen, List.length_cons, Nat.add_sub_cancel]
    rw [List.cons_append] at hdecode
    rw [repair, List.cons_append, repairFrom, hdecode]
    simp only [repairFrom_append rest hxs, List.cons_append]

theorem repair_of_valid {b : Bytes} (h : Valid b) : repair b = b := by
  obtain ⟨l, rfl⟩ := valid_iff.mp h
  induction l with
  | nil => rfl
  | cons c l ih =>
    rw [List.flatMap_cons, repair_encode_append, ih (valid_iff.mpr ⟨l, rfl⟩)]

/-- Repairing does not shorten. -/
theorem length_le_repairFrom (n : ℕ) (b : Bytes) : b.length ≤ (repairFrom n b).length := by
  induction b generalizing n with
  | nil => exact Nat.zero_le _
  | cons x b ih =>
    cases n with
    | succ n => simpa [repairFrom] using ih n
    | zero =>
      rw [repairFrom]
      cases decodeRune (x :: b) with
      | some c => simpa using ih (c.utf8Size - 1)
      | none =>
        have := ih 0
        simp only [replacement, List.length_append, List.length_cons, List.length_nil]
        omega

/-- A byte that is not part of a character makes the string longer. -/
theorem length_lt_repair {x : UInt8} {b : Bytes} (h : decodeRune (x :: b) = none) :
    (x :: b).length < (repair (x :: b)).length := by
  have hle := length_le_repairFrom 0 b
  rw [repair, repairFrom, h]
  simp only [replacement, List.length_append, List.length_cons, List.length_nil]
  omega

/-- **A byte string survives exactly when it is valid.** -/
theorem repair_eq_self_iff {b : Bytes} : repair b = b ↔ Valid b := by
  refine ⟨fun h ↦ ?_, repair_of_valid⟩
  induction hn : b.length using Nat.strong_induction_on generalizing b with
  | _ n ih =>
    cases b with
    | nil => exact valid_iff.mpr ⟨[], rfl⟩
    | cons x b =>
      cases hc : decodeRune (x :: b) with
      | none => exact absurd (congrArg List.length h) (length_lt_repair hc).ne'
      | some c =>
        obtain ⟨rest, hrest⟩ := decodeRune_eq_some_iff.mp hc
        rw [hrest, repair_encode_append] at h
        have hlt : rest.length < n := by
          have hpos := c.utf8Size_pos
          rw [← hn, hrest, List.length_append, String.length_utf8EncodeChar]
          omega
        rw [hrest]
        exact valid_encode_append (ih _ hlt (List.append_cancel_left h) rfl)

end Utf8
