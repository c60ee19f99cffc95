-- Whole numbers as bytes, most significant byte first. A number below 256 ^ w fits
-- into w bytes and reads back from them.

namespace PageCache

/-- A string of bytes. -/
abbrev Bytes := List UInt8

namespace Bytes

/-- `n` zero bytes. -/
def zeros (n : Nat) : Bytes := List.replicate n 0

/-- The largest number of bytes that can be held in one piece: lengths are signed words of
64 bits. -/
def maxLength : Nat := UInt64.size / 2 - 1

/-- A page of zeros, if that many bytes can be held. -/
def blank? (n : Nat) : Option Bytes := if n ≤ maxLength then some (zeros n) else none

/-- The number that the bytes stand for: the first byte counts most. -/
def bigEndian (bs : Bytes) : Nat := bs.foldl (fun n b => n * 256 + b.toNat) 0

/-- The last `width` bytes of a number, the most significant first. -/
def ofNat : (width n : Nat) → Bytes
  | 0, _ => []
  | width + 1, n => ofNat width (n / 256) ++ [UInt8.ofNat n]

@[simp] theorem length_zeros (n : Nat) : (zeros n).length = n := by simp [zeros]

@[simp] theorem length_ofNat (width n : Nat) : (ofNat width n).length = width := by
  induction width generalizing n with
  | zero => rfl
  | succ width ih => simp [ofNat, ih]

theorem bigEndian_append_single (bs : Bytes) (b : UInt8) :
    bigEndian (bs ++ [b]) = bigEndian bs * 256 + b.toNat := by
  simp [bigEndian, List.foldl_append]

end Bytes

end PageCache
