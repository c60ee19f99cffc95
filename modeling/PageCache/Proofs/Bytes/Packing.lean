-- Bits that fill whole bytes come back from the bytes they were packed into, and numbers
-- that fit into their bytes do too.
import PageCache.Bytes.Bits
import Mathlib.Algebra.Ring.Nat

namespace PageCache

namespace Bytes

/-- A byte gives back the eight bits it was made of. -/
theorem bitsOfByte_valueOfBits (b0 b1 b2 b3 b4 b5 b6 b7 : Bool) :
    bitsOfByte (UInt8.ofNat (valueOfBits [b0, b1, b2, b3, b4, b5, b6, b7])) =
      [b0, b1, b2, b3, b4, b5, b6, b7] := by
  revert b0 b1 b2 b3 b4 b5 b6 b7
  decide +kernel

/-- A list of at least eight elements, with the first eight of them named. -/
theorem exists_eight_cons {α : Type} {l : List α} (h : 8 ≤ l.length) :
    ∃ b0 b1 b2 b3 b4 b5 b6 b7 rest, l = b0 :: b1 :: b2 :: b3 :: b4 :: b5 :: b6 :: b7 :: rest := by
  match l, h with
  | b0 :: b1 :: b2 :: b3 :: b4 :: b5 :: b6 :: b7 :: rest, _ =>
    exact ⟨b0, b1, b2, b3, b4, b5, b6, b7, rest, rfl⟩

theorem unpackBits_packBits {n : Nat} {bits : List Bool} (h : bits.length = 8 * n) :
    unpackBits (packBits bits) = bits := by
  induction n generalizing bits with
  | zero =>
    obtain rfl := List.length_eq_zero_iff.1 h
    rfl
  | succ n ih =>
    have hlong : 8 ≤ bits.length := by omega
    obtain ⟨b0, b1, b2, b3, b4, b5, b6, b7, rest, rfl⟩ := exists_eight_cons hlong
    have hrest : rest.length = 8 * n := by
      simp only [List.length_cons] at h
      omega
    have hih := ih hrest
    unfold unpackBits at hih ⊢
    rw [packBits, List.flatMap_cons, bitsOfByte_valueOfBits, hih]
    rfl

theorem length_packBits {n : Nat} {bits : List Bool} (h : bits.length = 8 * n) :
    (packBits bits).length = n := by
  have hlen := length_unpackBits (packBits bits)
  rw [unpackBits_packBits h, h] at hlen
  omega

theorem unpackBits_zeros (n : Nat) : unpackBits (zeros n) = List.replicate (8 * n) false := by
  induction n with
  | zero => rfl
  | succ n ih =>
    have hbyte : bitsOfByte 0 = List.replicate 8 false := by decide
    unfold unpackBits zeros at ih ⊢
    rw [List.replicate_succ, List.flatMap_cons, ih, hbyte, List.replicate_append_replicate]
    congr 1
    omega

/-- Reading what was written gives the number, as far as it fits. -/
@[simp] theorem bigEndian_ofNat (width n : Nat) : bigEndian (ofNat width n) = n % 256 ^ width := by
  induction width generalizing n with
  | zero => simp [ofNat, bigEndian, Nat.mod_one]
  | succ width ih =>
    have hbyte : (UInt8.ofNat n).toNat = n % 256 := by simp
    rw [ofNat, bigEndian_append_single, ih, hbyte, Nat.pow_succ, Nat.mul_comm (256 ^ width) 256,
      Nat.mod_mul]
    omega

theorem bigEndian_ofNat_of_lt {width n : Nat} (h : n < 256 ^ width) :
    bigEndian (ofNat width n) = n := by
  rw [bigEndian_ofNat, Nat.mod_eq_of_lt h]

end Bytes

end PageCache
