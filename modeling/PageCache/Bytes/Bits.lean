-- Bits packed into bytes: bit i of a list stands in byte i / 8 at the place i % 8,
-- counted from the least significant end.
import PageCache.Bytes.BigEndian

namespace PageCache

namespace Bytes

/-- The eight bits of a byte, the least significant first. -/
def bitsOfByte (b : UInt8) : List Bool := (List.range 8).map b.toNat.testBit

/-- The number whose bits are given, the least significant first. -/
def valueOfBits : List Bool → Nat
  | [] => 0
  | bit :: rest => bit.toNat + 2 * valueOfBits rest

/-- The bits of a string of bytes, eight for each. -/
def unpackBits (bs : Bytes) : List Bool := bs.flatMap bitsOfByte

/-- Packs bits into bytes, eight to a byte; a last byte with fewer is filled with zeros. -/
def packBits : List Bool → Bytes
  | [] => []
  | b0 :: b1 :: b2 :: b3 :: b4 :: b5 :: b6 :: b7 :: rest =>
    UInt8.ofNat (valueOfBits [b0, b1, b2, b3, b4, b5, b6, b7]) :: packBits rest
  | bits => [UInt8.ofNat (valueOfBits bits)]

/-- The byte that has the bit `k` only. -/
def maskBit (k : Nat) : UInt8 := 1 <<< UInt8.ofNat k

/-- A byte with its bit `k` set or cleared. -/
def putBit (x : UInt8) (k : Nat) (b : Bool) : UInt8 :=
  if b then x ||| maskBit k else x &&& ~~~ maskBit k

/-- Bit `i` of some bytes is bit `i % 8` of byte `i / 8`, counted from the least significant
end. Behind the last byte all bits are clear. -/
def bit (bs : Bytes) (i : Nat) : Bool := (bs.getD (i / 8) 0 >>> UInt8.ofNat (i % 8)) &&& 1 == 1

/-- The bytes with bit `i` set or cleared. -/
def setBit (bs : Bytes) (i : Nat) (b : Bool) : Bytes := bs.modify (i / 8) (putBit · (i % 8) b)

@[simp] theorem length_unpackBits (bs : Bytes) : (unpackBits bs).length = 8 * bs.length := by
  induction bs with
  | nil => rfl
  | cons b rest ih =>
    have : (bitsOfByte b).length = 8 := by simp [bitsOfByte]
    simp only [unpackBits, List.flatMap_cons, List.length_append, List.length_cons] at *
    omega

/-- Packing the bits of some bytes gives the bytes. -/
theorem packBits_unpackBits (bs : Bytes) : packBits (unpackBits bs) = bs := by
  have byte : ∀ n < 256, valueOfBits ((List.range 8).map n.testBit) = n := by decide +kernel
  induction bs with
  | nil => rfl
  | cons b rest ih =>
    have h := byte b.toNat b.toNat_lt
    simp only [List.range, List.range.loop, List.map_cons, List.map_nil] at h
    simp only [unpackBits, List.flatMap_cons, bitsOfByte, List.range, List.range.loop,
      List.map_cons, List.map_nil, List.cons_append, List.nil_append, packBits, h] at ih ⊢
    simp [ih]

end Bytes

end PageCache
