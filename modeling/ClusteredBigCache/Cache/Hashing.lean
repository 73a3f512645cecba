import ClusteredBigCache.Cache.Sharding
import Mathlib.Data.Nat.ModEq
import Mathlib.Tactic.NormNum

/-!
# The default hash

FNV-1a takes the bytes of a key one by one.  An exclusive or and a multiplication never carry
anything from the high bits of a number to the low ones, and `getShard` looks at the low bits of the
hash only.

* `absorb_modEq_iff` is what one byte does to the low bits: as the prime is odd, nothing but the
  exclusive or decides whether two hashes agree there.
* `foldl_absorb_modEq_iff` and `foldl_absorb_congr` follow the low bits through a whole key.
* `bytewise_default` draws the conclusions for a cache with the default hash.  With 16 shards, the
  shard of a key depends on the low four bits of its bytes: whether a letter is a capital does not
  matter.  Two keys that differ in one byte never have the same hash.
-/

set_option autoImplicit false

namespace ClusteredBigCache

/-! ## The low bits

Everything is said modulo `2 ^ k`.  The state of the hash is general throughout, as in the loop of
`Sum64`, where it is what the bytes before have left. -/

/-- What `Sum64` does with one byte. -/
def absorb (hash : UInt64) (b : UInt8) : UInt64 := (hash ^^^ b.toUInt64) * prime64

theorem fnv64a_append (p s : Key) : fnv64a (p ++ s) = s.foldl absorb (fnv64a p) :=
  List.foldl_append

theorem toNat_absorb (hash : UInt64) (b : UInt8) :
    (absorb hash b).toNat = (hash.toNat ^^^ b.toNat) * 1099511628211 % 2 ^ 64 := by
  rw [absorb, UInt64.toNat_mul, UInt64.toNat_xor, UInt8.toNat_toUInt64]
  rfl

section

variable {k : ℕ} {hash hash' : UInt64} {a b : UInt8}

theorem absorb_modEq_iff (hk : k ≤ 64) :
    (absorb hash a).toNat ≡ (absorb hash' b).toNat [MOD 2 ^ k] ↔
      hash.toNat ^^^ a.toNat ≡ hash'.toNat ^^^ b.toNat [MOD 2 ^ k] := by
  have hmod : ∀ x : ℕ, x % 2 ^ 64 ≡ x [MOD 2 ^ k] := fun x ↦
    (Nat.mod_modEq x _).of_dvd (pow_dvd_pow 2 hk)
  have hodd : (2 ^ k).gcd 1099511628211 = 1 := Nat.Coprime.pow_left k (by norm_num)
  rw [toNat_absorb, toNat_absorb]
  constructor
  · intro h
    exact ((hmod _).symm.trans (h.trans (hmod _))).cancel_right_of_coprime hodd
  · intro h
    exact (hmod _).trans ((h.mul_right _).trans (hmod _).symm)

theorem xor_modEq {x y x' y' : ℕ} (hx : x ≡ x' [MOD 2 ^ k]) (hy : y ≡ y' [MOD 2 ^ k]) :
    x ^^^ y ≡ x' ^^^ y' [MOD 2 ^ k] := by
  rw [Nat.ModEq, Nat.xor_mod_two_pow, Nat.xor_mod_two_pow, hx, hy]

/-- A byte can be taken off again. -/
theorem xor_modEq_left_iff {x y z : ℕ} : x ^^^ z ≡ y ^^^ z [MOD 2 ^ k] ↔ x ≡ y [MOD 2 ^ k] := by
  refine ⟨fun h ↦ ?_, fun h ↦ xor_modEq h rfl⟩
  have hz := xor_modEq h (rfl : z % 2 ^ k = z % 2 ^ k)
  rwa [Nat.xor_assoc, Nat.xor_assoc, Nat.xor_self, Nat.xor_zero, Nat.xor_zero] at hz

/-- A rest that two keys have in common neither joins nor separates them. -/
theorem foldl_absorb_modEq_iff (hk : k ≤ 64) (s : Key) :
    (s.foldl absorb hash).toNat ≡ (s.foldl absorb hash').toNat [MOD 2 ^ k] ↔
      hash.toNat ≡ hash'.toNat [MOD 2 ^ k] := by
  induction s generalizing hash hash' with
  | nil => rfl
  | cons b s ih =>
    rw [List.foldl_cons, List.foldl_cons, ih, absorb_modEq_iff hk]
    exact xor_modEq_left_iff

/-- The low bits of the bytes determine the low bits of the hash. -/
theorem foldl_absorb_congr (hk : k ≤ 64) {key key' : Key}
    (h : List.Forall₂ (fun a b : UInt8 ↦ a.toNat ≡ b.toNat [MOD 2 ^ k]) key key')
    (hhash : hash.toNat ≡ hash'.toNat [MOD 2 ^ k]) :
    (key.foldl absorb hash).toNat ≡ (key'.foldl absorb hash').toNat [MOD 2 ^ k] := by
  induction h generalizing hash hash' with
  | nil => exact hhash
  | cons hab _ ih => exact ih ((absorb_modEq_iff hk).mpr (xor_modEq hhash hab))

/-- Two keys that differ in one byte. -/
theorem fnv64a_byte_modEq_iff (hk : k ≤ 64) (p s : Key) :
    (fnv64a (p ++ a :: s)).toNat ≡ (fnv64a (p ++ b :: s)).toNat [MOD 2 ^ k] ↔
      a.toNat ≡ b.toNat [MOD 2 ^ k] := by
  rw [fnv64a_append, fnv64a_append, List.foldl_cons, List.foldl_cons, foldl_absorb_modEq_iff hk,
    absorb_modEq_iff hk, Nat.xor_comm _ a.toNat, Nat.xor_comm _ b.toNat]
  exact xor_modEq_left_iff

end

/-- Sixty-four bits are enough for a byte. -/
theorem toNat_modEq_iff {a b : UInt8} : a.toNat ≡ b.toNat [MOD 2 ^ 64] ↔ a = b := by
  have ha := a.toNat_lt
  have hb := b.toNat_lt
  rw [Nat.ModEq, Nat.mod_eq_of_lt (by omega), Nat.mod_eq_of_lt (by omega), UInt8.toNat_inj]

/-! ## The shards -/

namespace BigCache

variable {T M : Type} [OrderedMap T ℤ Ptr] [OrderedMap M UInt64 (Finset Key)]

/-- How the keys are spread over the shards of a cache.  Without shards, the remainder of a byte is
the byte. -/
structure Bytewise (c : BigCache T M) : Prop where
  /-- Of the bytes of a key, only the remainders matter. -/
  congr : ∀ key key' : Key,
    List.Forall₂ (fun a b : UInt8 ↦ a.toNat ≡ b.toNat [MOD c.shards.length]) key key' →
      c.shardIndex (c.hash key) = c.shardIndex (c.hash key')
  /-- Keys that differ in one byte are in the same shard when the remainders are the same. -/
  byte : ∀ (p s : Key) (a b : UInt8),
    c.shardIndex (c.hash (p ++ a :: s)) = c.shardIndex (c.hash (p ++ b :: s)) ↔
      a.toNat ≡ b.toNat [MOD c.shards.length]
  /-- The same rest after two keys changes nothing. -/
  rest : ∀ p p' s : Key,
    c.shardIndex (c.hash (p ++ s)) = c.shardIndex (c.hash (p' ++ s)) ↔
      c.shardIndex (c.hash p) = c.shardIndex (c.hash p')
  /-- Keys that differ in one byte do not collide. -/
  distinct : ∀ (p s : Key) (a b : UInt8), c.hash (p ++ a :: s) = c.hash (p ++ b :: s) → a = b

/-- A shard is given by some of the low bits of the hash. -/
theorem exists_shardIndex_eq_mod {config : Config} {hasher : Option Hasher} {now : ℕ}
    {c : BigCache T M} (hnew : newBigCache config hasher now = .ok (.ok c)) :
    ∃ k ≤ 64, (∀ h, c.shardIndex h = h.toNat % 2 ^ k) ∧
      ∀ a b : UInt8, a.toNat ≡ b.toNat [MOD c.shards.length] ↔ a.toNat ≡ b.toNat [MOD 2 ^ k] := by
  obtain ⟨hpow, hpos, -, -, hmask, hlen, -⟩ := newBigCache_spec hnew
  rcases (isPowerOfTwo_iff _).mp hpow with h0 | hmin | ⟨k, hk⟩
  · -- there are no shards, and the mask has all bits set
    rw [h0] at hmask hlen
    refine ⟨64, le_rfl, fun h ↦ ?_, fun a b ↦ ?_⟩
    · have hones : c.shardMask.toNat = 2 ^ 64 - 1 := by rw [hmask]; rfl
      rw [shardIndex, UInt64.toNat_and, hones, Nat.and_two_pow_sub_one_eq_mod]
    · have hzero : c.shards.length = 0 := hlen
      rw [hzero, Nat.modEq_zero_iff, toNat_modEq_iff, UInt8.toNat_inj]
  · rw [hmin] at hpos
    exact absurd hpos (by decide)
  · obtain ⟨hlen, hindex⟩ := shardIndex_eq_mod hnew hk
    have hlt : 2 ^ k < 2 ^ 63 := by
      have hint := config.shards.toInt_lt
      rw [hk] at hint
      exact_mod_cast hint
    have hk63 : k < 63 := (Nat.pow_lt_pow_iff_right (by norm_num)).mp hlt
    exact ⟨k, by omega, hindex, fun a b ↦ by rw [hlen]⟩

/-- **The default hash goes by the low bits of the bytes**, in every cache that is made with it. -/
theorem bytewise_default {config : Config} {now : ℕ} {c : BigCache T M}
    (hnew : newBigCache config none now = .ok (.ok c)) : c.Bytewise := by
  have hhash : c.hash = fnv64a := (newBigCache_spec hnew).2.2.2.1
  obtain ⟨k, hk, hindex, hbytes⟩ := exists_shardIndex_eq_mod hnew
  refine ⟨fun key key' h ↦ ?_, fun p s a b ↦ ?_, fun p p' s ↦ ?_, fun p s a b h ↦ ?_⟩
  · rw [hindex, hindex, hhash]
    exact foldl_absorb_congr hk (h.imp fun a b ↦ (hbytes a b).mp) rfl
  · rw [hindex, hindex, hhash, hbytes]
    exact fnv64a_byte_modEq_iff hk p s
  · rw [hindex, hindex, hindex, hindex, hhash, fnv64a_append, fnv64a_append]
    exact foldl_absorb_modEq_iff hk s
  · rw [hhash] at h
    have hmod : (fnv64a (p ++ a :: s)).toNat ≡ (fnv64a (p ++ b :: s)).toNat [MOD 2 ^ 64] := by
      rw [h]
    exact toNat_modEq_iff.mp ((fnv64a_byte_modEq_iff le_rfl p s).mp hmod)

/-- With 16 shards, `A` and `a` are in the same shard. -/
theorem bytewise_default_sixteen :
    ∃ c : BigCache (SortedAssoc ℤ Ptr) (SortedAssoc UInt64 (Finset Key)),
      newBigCache ⟨16, 0, 1, 0, false⟩ none 0 = .ok (.ok c) ∧ c.Bytewise ∧
        c.shardIndex (c.hash [65]) = c.shardIndex (c.hash [97]) := by
  obtain ⟨c, hc⟩ := Option.isSome_iff_exists.mp
    (show ((newBigCache ⟨16, 0, 1, 0, false⟩ none 0 : Go (Except String (BigCache
      (SortedAssoc ℤ Ptr) (SortedAssoc UInt64 (Finset Key))))).toOption.bind
        Except.toOption).isSome = true by decide +kernel)
  have hnew := newBigCache_of_toOption hc
  have hlen : c.shards.length = 16 := (newBigCache_spec hnew).2.2.2.2.2.1
  have hbytes := bytewise_default hnew
  exact ⟨c, hnew, hbytes, (hbytes.byte [] [] 65 97).mpr (by rw [hlen]; rfl)⟩

end BigCache
end ClusteredBigCache
