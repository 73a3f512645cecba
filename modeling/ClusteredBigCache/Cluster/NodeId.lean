import ClusteredBigCache.Cluster.Get

/-!
# Random ids

`GenerateNodeId` makes the id of a node, and the string that a `Get` puts after its key.  It takes
words of 63 random bits, ten groups of six bits from each, and drops the groups that are no letter.
The letters are written from the last place to the first.

The source of the random words is a list here, and `none` means that it has come to its end.

* `letters` are the letters in some words, in the order in which they are found.
* `write` puts letters into the places below `i`, from the last one down.  `takeLetters_eq` and
  `map_fst_loop` say that this is what the loop does with the letters in its words.
* `generateNodeId_spec` says what is returned, and that nothing but too few letters keeps the loop
  from returning.  What is returned can be sent with the key of a `Get` (`askable_generateNodeId`).
-/

set_option autoImplicit false

namespace ClusteredBigCache.NodeId

/-! ## The model -/

/-- The letters of `letterBytes`. -/
def letterChars : List Char :=
  ['a', 'b', 'c', 'd', 'e', 'f', 'g', 'h', 'i', 'j', 'k', 'l', 'm', 'n', 'o', 'p', 'q', 'r', 's',
    't', 'u', 'v', 'w', 'x', 'y', 'z', 'A', 'B', 'C', 'D', 'E', 'F', 'G', 'H', 'I', 'J', 'K', 'L',
    'M', 'N', 'O', 'P', 'Q', 'R', 'S', 'T', 'U', 'V', 'W', 'X', 'Y', 'Z']

def letterBytes : Bytes := letterChars.map Char.toUInt8

/-- 6 bits to represent a letter. -/
def letterIdxBits : UInt64 := 6

/-- All 1-bits, as many as `letterIdxBits`. -/
def letterIdxMask : UInt64 := 1 <<< letterIdxBits - 1

/-- The number of letters fitting in 63 bits. -/
def letterIdxMax : ℕ := 63 / 6

/-- The loop of `GenerateNodeId`, up to the point where no groups remain in the word.  The places
below `i` are still to be written. -/
def takeLetters : ℕ → UInt64 → ℕ × Bytes → ℕ × Bytes
  | 0, _, p => p
  | _ + 1, _, (0, b) => (0, b)
  | remain + 1, cache, (i + 1, b) =>
    takeLetters remain (cache >>> letterIdxBits)
      (match letterBytes[(cache &&& letterIdxMask).toNat]? with
        | some letter => (i, b.set i letter)
        | none => (i + 1, b))

/-- The loop of `GenerateNodeId`, from a point where no groups remain. -/
def loop : List UInt64 → ℕ × Bytes → Option (Bytes × List UInt64)
  | src, (0, b) => some (b, src)
  | [], (_ + 1, _) => none
  | cache :: src, (i + 1, b) => loop src (takeLetters letterIdxMax cache (i + 1, b))

/-- `GenerateNodeId`, and what is left of the random words. -/
def generateNodeId (n : ℕ) : List UInt64 → Option (Bytes × List UInt64)
  | [] => none
  | cache :: src => loop src (takeLetters letterIdxMax cache (n, List.replicate n 0))

/-! ## The letters in the words -/

/-- The letters in the first groups of a word. -/
def lettersOf : ℕ → UInt64 → Bytes
  | 0, _ => []
  | remain + 1, cache =>
    (letterBytes[(cache &&& letterIdxMask).toNat]?).toList ++
      lettersOf remain (cache >>> letterIdxBits)

/-- The letters in some words. -/
def letters (src : List UInt64) : Bytes := src.flatMap (lettersOf letterIdxMax)

theorem mem_lettersOf {x : UInt8} {remain : ℕ} {cache : UInt64} (h : x ∈ lettersOf remain cache) :
    x ∈ letterBytes := by
  induction remain generalizing cache with
  | zero => cases h
  | succ remain ih =>
    rw [lettersOf, List.mem_append, Option.mem_toList] at h
    rcases h with h | h
    · exact List.mem_of_getElem? h
    · exact ih h

theorem mem_letters {x : UInt8} {src : List UInt64} (h : x ∈ letters src) : x ∈ letterBytes := by
  obtain ⟨cache, -, h⟩ := List.mem_flatMap.mp h
  exact mem_lettersOf h

/-- Letters are characters of one byte. -/
theorem valid_of_letters {b : Bytes} (h : ∀ x ∈ b, x ∈ letterBytes) : Utf8.Valid b := by
  induction b with
  | nil => exact Utf8.valid_iff.mpr ⟨[], rfl⟩
  | cons x b ih =>
    obtain ⟨c, hc, rfl⟩ := List.mem_map.mp (h x List.mem_cons_self)
    have hascii : ∀ c ∈ letterChars, c.val ≤ 127 := by simp [letterChars]
    have hone : String.utf8EncodeChar c = [c.toUInt8] :=
      String.utf8EncodeChar_eq_singleton (Char.utf8Size_eq_one_iff.mpr (hascii c hc))
    have hrest := ih fun y hy ↦ h y (List.mem_cons_of_mem _ hy)
    rw [← List.singleton_append, ← hone]
    exact Utf8.valid_encode_append hrest

/-! ## The loops -/

/-- Write letters from the place below `i` down, as long as there are places. -/
def write : Bytes → ℕ × Bytes → ℕ × Bytes
  | [], p => p
  | _ :: _, (0, b) => (0, b)
  | x :: l, (i + 1, b) => write l (i, b.set i x)

@[simp] theorem write_zero (l b : Bytes) : write l (0, b) = (0, b) := by
  rcases l with _ | ⟨x, l⟩
  · rfl
  · rfl

theorem write_append (l l' : Bytes) (p : ℕ × Bytes) : write (l ++ l') p = write l' (write l p) := by
  induction l generalizing p with
  | nil => rfl
  | cons x l ih =>
    rcases p with ⟨_ | i, b⟩
    · rw [write_zero, write_zero, write_zero]
    · exact ih (i, b.set i x)

/-- What is written, and how many places are left. -/
theorem write_eq (l : Bytes) {i : ℕ} {b : Bytes} (h : i ≤ b.length) :
    write l (i, b) =
      (i - l.length, b.take (i - l.length) ++ ((l.take i).reverse ++ b.drop i)) := by
  induction l generalizing i b with
  | nil => simp [write]
  | cons x l ih =>
    rcases i with _ | i
    · simp
    · have hset : (b.set i x).drop i = x :: b.drop (i + 1) := by
        rw [List.drop_eq_getElem_cons (by rw [List.length_set]; omega), List.getElem_set_self,
          List.drop_set_of_lt (by omega)]
      have hlen : i + 1 - (x :: l).length = i - l.length := by
        rw [List.length_cons]
        omega
      rw [write, ih (by rw [List.length_set]; omega), hset, hlen, List.take_set_of_le (by omega),
        List.take_succ_cons, List.reverse_cons, List.append_assoc, List.singleton_append]

/-- The groups of one word. -/
theorem takeLetters_eq (remain : ℕ) (cache : UInt64) (p : ℕ × Bytes) :
    takeLetters remain cache p = write (lettersOf remain cache) p := by
  induction remain generalizing cache p with
  | zero => rfl
  | succ remain ih =>
    rcases p with ⟨_ | i, b⟩
    · rw [write_zero]
      rfl
    · rw [takeLetters, ih, lettersOf, write_append]
      rcases letterBytes[(cache &&& letterIdxMask).toNat]? with _ | x
      · rfl
      · rfl

/-- The loop returns when every place is written. -/
theorem map_fst_loop (src : List UInt64) (p : ℕ × Bytes) :
    (loop src p).map Prod.fst =
      if (write (letters src) p).1 = 0 then some (write (letters src) p).2 else none := by
  induction src generalizing p with
  | nil =>
    rcases p with ⟨_ | i, b⟩
    · rfl
    · rfl
  | cons cache src ih =>
    rcases p with ⟨_ | i, b⟩
    · simp [loop]
    · rw [loop, ih, takeLetters_eq, ← write_append]
      rfl

theorem map_fst_generateNodeId (n : ℕ) (src : List UInt64) :
    (generateNodeId n src).map Prod.fst =
      if src ≠ [] ∧ n ≤ (letters src).length then some ((letters src).take n).reverse
      else none := by
  rcases src with _ | ⟨cache, src⟩
  · rfl
  · rw [generateNodeId, map_fst_loop, takeLetters_eq, ← write_append]
    have hwrite := write_eq (letters (cache :: src)) (List.length_replicate (n := n) (a := 0)).ge
    rw [show lettersOf letterIdxMax cache ++ letters src = letters (cache :: src) from rfl, hwrite]
    by_cases hn : n ≤ (letters (cache :: src)).length
    · rw [if_pos (Nat.sub_eq_zero_of_le hn), if_pos ⟨List.cons_ne_nil _ _, hn⟩]
      simp [Nat.sub_eq_zero_of_le hn]
    · rw [if_neg (by simp only; omega), if_neg fun h ↦ hn h.2]

/-- A word with one letter in it. -/
def wordOf (k : ℕ) : UInt64 := UInt64.ofNat (2 ^ 60 - 64 + k)

theorem lettersOf_wordOf :
    ∀ k < 52, lettersOf letterIdxMax (wordOf k) = (letterBytes[k]?).toList := by
  decide +kernel

theorem wordOf_lt {k : ℕ} (hk : k < 52) : (wordOf k).toNat < 2 ^ 63 := by
  rw [wordOf, UInt64.toNat_ofNat']
  omega

/-- Any letters can come up. -/
theorem exists_letters_eq {b : Bytes} (h : ∀ x ∈ b, x ∈ letterBytes) :
    ∃ src, (∀ w ∈ src, w.toNat < 2 ^ 63) ∧ letters src = b := by
  induction b with
  | nil => exact ⟨[], by simp, rfl⟩
  | cons x b ih =>
    obtain ⟨src, hbits, rfl⟩ := ih fun y hy ↦ h y (List.mem_cons_of_mem _ hy)
    obtain ⟨k, hk, hx⟩ := List.getElem_of_mem (h x List.mem_cons_self)
    have hword := lettersOf_wordOf k hk
    rw [List.getElem?_eq_getElem hk, hx] at hword
    refine ⟨wordOf k :: src, List.forall_mem_cons.mpr ⟨wordOf_lt hk, hbits⟩, ?_⟩
    rw [letters, List.flatMap_cons, hword]
    rfl

/-- What is returned has the length that was asked for, and is a text. -/
theorem valid_of_generateNodeId {n : ℕ} {src : List UInt64} {id : Bytes}
    (hid : (generateNodeId n src).map Prod.fst = some id) : id.length = n ∧ Utf8.Valid id := by
  rw [map_fst_generateNodeId, Option.ite_none_right_eq_some] at hid
  obtain ⟨⟨-, hn⟩, hid⟩ := hid
  obtain rfl := Option.some.inj hid
  refine ⟨by simpa using hn, valid_of_letters fun x hx ↦ ?_⟩
  exact mem_letters (List.mem_of_mem_take (List.mem_reverse.mp hx))

/-- The string that `Get` puts after a key is read back as it was. -/
theorem askable_generateNodeId {src : List UInt64} {key id : Bytes}
    (hid : (generateNodeId 8 src).map Prod.fst = some id) (hkey : Utf8.Valid key)
    (hlen : key.length ≤ 65517) : Member.Askable key id := by
  obtain ⟨hlength, hvalid⟩ := valid_of_generateNodeId hid
  exact ⟨hkey, hlen, hvalid, hlength⟩

/-- **What `GenerateNodeId` returns**: the first letters in the random words, last one first, as
soon as there are enough of them.  It is a text of this length that messages can carry, and any text
of letters comes of some words of 63 bits. -/
theorem generateNodeId_spec (n : ℕ) :
    (∀ src, (generateNodeId n src).map Prod.fst =
      if src ≠ [] ∧ n ≤ (letters src).length then some ((letters src).take n).reverse
      else none) ∧
    (∀ src, ∀ id ∈ (generateNodeId n src).map Prod.fst, id.length = n ∧ Utf8.Valid id) ∧
    ∀ id : Bytes, id.length = n → (∀ x ∈ id, x ∈ letterBytes) →
      ∃ src, (∀ w ∈ src, w.toNat < 2 ^ 63) ∧ (generateNodeId n src).map Prod.fst = some id := by
  refine ⟨map_fst_generateNodeId n, fun src id hid ↦ valid_of_generateNodeId hid,
    fun id hlen hid ↦ ?_⟩
  obtain ⟨src, hbits, hsrc⟩ := exists_letters_eq fun x hx ↦ hid x (List.mem_reverse.mp hx)
  -- one more word, as the first one is taken even if no letter is needed
  refine ⟨src ++ [0], List.forall_mem_append.mpr ⟨hbits, by simp⟩, ?_⟩
  have hletters : letters (src ++ [0]) = id.reverse ++ letters [0] := by
    rw [letters, List.flatMap_append, ← hsrc]
    rfl
  have htake : (letters (src ++ [0])).take n = id.reverse := by
    rw [hletters, ← hlen, ← List.length_reverse, List.take_left]
  have hn : n ≤ (letters (src ++ [0])).length := by
    rw [hletters, List.length_append, List.length_reverse]
    omega
  rw [map_fst_generateNodeId, if_pos ⟨by simp, hn⟩, htake, List.reverse_reverse]

end ClusteredBigCache.NodeId
