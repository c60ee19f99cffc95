-- Single bits of a string of bytes, read and written with shifts and masks: they are the
-- elements of the list of its bits.
import PageCache.Proofs.Bytes.Packing

namespace PageCache

namespace Bytes

variable {bs cs : Bytes} {bits : List Bool} {i j n : Nat} {b : Bool}

/-! ## Bytes -/

/-- A bit of a byte, read by a shift and a mask. -/
theorem bitsOfByte_getElem? (x : UInt8) {k : Nat} (hk : k < 8) :
    (bitsOfByte x)[k]? = some ((x >>> UInt8.ofNat k) &&& 1 == 1) := by
  have hmod : k % 256 % 8 = k := by omega
  have hbit : x.toNat.testBit k = ((x >>> UInt8.ofNat k) &&& 1 == 1) := by
    rw [Bool.eq_iff_iff, beq_iff_eq, ← UInt8.toNat_inj, UInt8.toNat_and, UInt8.toNat_shiftRight,
      UInt8.toNat_ofNat', hmod, UInt8.toNat_one, Nat.and_one_is_mod,
      Nat.testBit_eq_decide_div_mod_eq, Nat.shiftRight_eq_div_pow, decide_eq_true_eq]
  simp [bitsOfByte, hk, hbit]

theorem testBit_putBit (x : UInt8) {j k : Nat} (hj : j < 8) (hk : k < 8) (b : Bool) :
    (putBit x k b).toNat.testBit j = if j = k then b else x.toNat.testBit j := by
  have hmask : ∀ k < 8, ∀ j < 8, (maskBit k).toNat.testBit j = decide (j = k) := by decide
  have hrest : ∀ k < 8, ∀ j < 8, (~~~ maskBit k).toNat.testBit j = !decide (j = k) := by decide
  cases b with
  | true =>
    rw [putBit, if_pos rfl, UInt8.toNat_or, Nat.testBit_or, hmask k hk j hj]
    by_cases h : j = k <;> simp [h]
  | false =>
    rw [putBit, if_neg Bool.false_ne_true, UInt8.toNat_and, Nat.testBit_and, hrest k hk j hj]
    by_cases h : j = k <;> simp [h]

theorem bitsOfByte_putBit (x : UInt8) {k : Nat} (hk : k < 8) (b : Bool) :
    bitsOfByte (putBit x k b) = (bitsOfByte x).set k b := by
  apply List.ext_getElem
  · simp [bitsOfByte]
  · intro j hj _
    have hlt : j < 8 := by simpa [bitsOfByte] using hj
    simp [bitsOfByte, List.getElem_set, testBit_putBit x hlt hk b, eq_comm]

/-! ## Strings of bytes -/

theorem unpackBits_cons (x : UInt8) (bs : Bytes) :
    unpackBits (x :: bs) = bitsOfByte x ++ unpackBits bs := List.flatMap_cons

theorem length_bitsOfByte (x : UInt8) : (bitsOfByte x).length = 8 := by simp [bitsOfByte]

/-- The bits of a string of bytes, one by one. -/
theorem unpackBits_getElem? (h : i < 8 * bs.length) : (unpackBits bs)[i]? = some (bs.bit i) := by
  induction bs generalizing i with
  | nil => simp at h
  | cons x bs ih =>
    rw [unpackBits_cons]
    by_cases hi : i < 8
    · have hdiv : i / 8 = 0 := by omega
      have hmod : i % 8 = i := by omega
      rw [List.getElem?_append_left (by rwa [length_bitsOfByte]), bitsOfByte_getElem? x hi]
      simp [bit, hdiv, hmod]
    · have hrest : i - 8 < 8 * bs.length := by
        rw [List.length_cons] at h
        omega
      have hdiv : i / 8 = (i - 8) / 8 + 1 := by omega
      have hmod : i % 8 = (i - 8) % 8 := by omega
      rw [List.getElem?_append_right (by rw [length_bitsOfByte]; omega), length_bitsOfByte,
        ih hrest]
      simp [bit, hdiv, hmod]

/-- Writing a bit changes one element of the list of bits. -/
theorem unpackBits_setBit (bs : Bytes) (i : Nat) (b : Bool) :
    unpackBits (bs.setBit i b) = (unpackBits bs).set i b := by
  induction bs generalizing i with
  | nil => simp [setBit, unpackBits]
  | cons x bs ih =>
    by_cases hi : i < 8
    · have hdiv : i / 8 = 0 := by omega
      have hmod : i % 8 = i := by omega
      rw [setBit, hdiv, hmod, List.modify_zero_cons, unpackBits_cons, unpackBits_cons,
        bitsOfByte_putBit x hi, List.set_append_left _ _ (by rwa [length_bitsOfByte])]
    · have hdiv : i / 8 = (i - 8) / 8 + 1 := by omega
      have hmod : i % 8 = (i - 8) % 8 := by omega
      have hih := ih (i - 8)
      rw [setBit] at hih
      rw [setBit, hdiv, hmod, List.modify_succ_cons, unpackBits_cons, unpackBits_cons, hih,
        List.set_append_right _ _ (by rw [length_bitsOfByte]; omega), length_bitsOfByte]

@[simp] theorem length_setBit (bs : Bytes) (i : Nat) (b : Bool) :
    (bs.setBit i b).length = bs.length := List.length_modify _ _ _

theorem bit_setBit (h : i < 8 * bs.length) : (bs.setBit i b).bit i = b := by
  have hget := @unpackBits_getElem? (bs.setBit i b) i (by rwa [length_setBit])
  rw [unpackBits_setBit, List.getElem?_set_self (by rwa [length_unpackBits])] at hget
  exact (Option.some.inj hget).symm

theorem bit_setBit_of_ne (h : i < 8 * bs.length) (hne : i ≠ j) :
    (bs.setBit j b).bit i = bs.bit i := by
  have hget := @unpackBits_getElem? (bs.setBit j b) i (by rwa [length_setBit])
  rw [unpackBits_setBit, List.getElem?_set_ne (Ne.symm hne), unpackBits_getElem? h] at hget
  exact (Option.some.inj hget).symm

/-- Bytes are known from their bits. -/
theorem eq_of_bit (hlen : bs.length = cs.length) (h : ∀ i < 8 * bs.length, bs.bit i = cs.bit i) :
    bs = cs := by
  have hbits : unpackBits bs = unpackBits cs := by
    apply List.ext_getElem?
    intro i
    by_cases hi : i < 8 * bs.length
    · rw [unpackBits_getElem? hi, unpackBits_getElem? (hlen ▸ hi), h i hi]
    · rw [List.getElem?_eq_none (by rw [length_unpackBits]; omega),
        List.getElem?_eq_none (by rw [length_unpackBits]; omega)]
  rw [← packBits_unpackBits bs, hbits, packBits_unpackBits]

/-- The bits that were packed are those of the bytes. -/
theorem packBits_bit (hlen : bits.length = 8 * n) (hi : i < 8 * n) :
    bits[i]? = some ((packBits bits).bit i) := by
  rw [← unpackBits_getElem? (by rwa [length_packBits hlen]), unpackBits_packBits hlen]

/-- Packing the bits anew after one of them has changed is the same as writing this bit. -/
theorem packBits_set (hlen : bits.length = 8 * n) (i : Nat) (b : Bool) :
    packBits (bits.set i b) = (packBits bits).setBit i b := by
  rw [← packBits_unpackBits ((packBits bits).setBit i b), unpackBits_setBit,
    unpackBits_packBits hlen]

/-- Bits of the first part of some bytes. -/
theorem bit_append_left (h : i < 8 * bs.length) : (bs ++ cs).bit i = bs.bit i := by
  have hlt : i / 8 < bs.length := by omega
  simp only [bit, List.getD_eq_getElem?_getD, List.getElem?_append_left hlt]

end Bytes

end PageCache
