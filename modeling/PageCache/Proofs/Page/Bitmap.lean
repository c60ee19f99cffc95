-- The bitmap at the head of a page. Its bits are the occupied slots and, behind them, the
-- spare bits as they were read. Filling or emptying one slot writes one bit of it.
import PageCache.Proofs.Bytes.SingleBits
import PageCache.Proofs.Page.RoundTrip

namespace PageCache

namespace HeapPage

variable {p q : HeapPage} {id : PageId} {schema : Schema} {size i : Nat} {data : Bytes}

/-- The number of bytes of the bitmap. -/
def bitmapSize (p : HeapPage) : Nat := Geometry.header p.size p.schema.width

/-- The bitmap of a page. -/
def bitmap (p : HeapPage) : Bytes := p.image.take p.bitmapSize

/-! ## The bits of a page -/

theorem bitmap_eq (h : p.headerBits.length = 8 * p.bitmapSize) :
    p.bitmap = Bytes.packBits p.headerBits := by
  rw [bitmap, image, List.append_assoc]
  exact List.take_left' (Bytes.length_packBits h)

theorem length_bitmap (h : p.Proper) : p.bitmap.length = p.bitmapSize := by
  rw [bitmap_eq h.length_headerBits, Bytes.length_packBits h.length_headerBits, bitmapSize]

theorem Proper.slots_le (h : p.Proper) : p.slotCount ≤ 8 * p.bitmapSize := by
  rw [slotCount, h.slot_count]
  exact Geometry.slots_le_header

/-- The bits of the bitmap stand at the head of the page. -/
theorem bit_bitmap (h : p.Proper) (hi : i < 8 * p.bitmapSize) :
    p.bitmap.bit i = p.image.bit i := by
  rw [← List.take_append_drop p.bitmapSize p.image, ← bitmap,
    Bytes.bit_append_left (by rwa [length_bitmap h])]

theorem headerBits_getElem? (h : p.Proper) (hi : i < 8 * p.bitmapSize) :
    p.headerBits[i]? = some (p.image.bit i) := by
  rw [← bit_bitmap h hi, bitmap_eq h.length_headerBits]
  exact Bytes.packBits_bit h.length_headerBits hi

/-- The bit of a slot is set if and only if the slot is used. -/
theorem bit_slot (h : p.Proper) (hi : i < p.slotCount) : p.image.bit i = p.isUsed i := by
  have hbit := headerBits_getElem? h (lt_of_lt_of_le hi h.slots_le)
  rw [headerBits, List.getElem?_append_left (by simpa [slotCount] using hi), List.getElem?_map,
    Array.getElem?_toList, Array.getElem?_eq_getElem hi] at hbit
  simp only [Option.map_some, Option.some.injEq] at hbit
  rw [← hbit, isUsed, Array.getElem?_eq_getElem hi, Option.join_some]

/-- The bits behind those of the slots are the spare ones. -/
theorem bit_spare (h : p.Proper) (hlow : p.slotCount ≤ i) (hi : i < 8 * p.bitmapSize) :
    p.spare[i - p.slotCount]? = some (p.image.bit i) := by
  have hbit := headerBits_getElem? h hi
  rwa [headerBits, List.getElem?_append_right (by simpa [slotCount] using hlow), List.length_map,
    Array.length_toList] at hbit

/-! ## Where the bits come from -/

/-- The bits of the header stand at the head of the bytes. -/
theorem unpackBits_header_getElem? (hlen : data.length = size)
    (hi : i < 8 * Geometry.header size schema.width) :
    (Bytes.unpackBits (data.take (Geometry.header size schema.width)))[i]? =
      some (data.bit i) := by
  have hin : i < 8 * (data.take (Geometry.header size schema.width)).length := by
    rwa [length_header hlen]
  rw [Bytes.unpackBits_getElem? hin, ← Bytes.bit_append_left hin, List.take_append_drop]

/-- No edit touches the spare bits. -/
theorem spare_edited (edits : List PageEdit) : (p.edited edits).spare = p.spare := by
  induction edits generalizing p with
  | nil => rfl
  | cons e rest ih =>
    have hstep : (p.edit e).spare = p.spare := by
      rcases edit_cases p e with ⟨slots, he⟩ | ⟨mark, he⟩ | ⟨-, he⟩ <;> rw [he]
      rfl
    exact (@ih (p.edit e)).trans hstep

/-- The spare bits of a page are bits of the bytes it was read from. -/
theorem spare_ofImage (h : ofImage id schema size data = .ok p) (hlow : p.slotCount ≤ i)
    (hi : i < 8 * p.bitmapSize) : p.spare[i - p.slotCount]? = some (data.bit i) := by
  obtain ⟨hproper, -, rfl, rfl⟩ := properAt_ofImage h
  obtain ⟨hlen, hspare, -⟩ := ofImage_parts h
  have hcount : p.slotCount = Geometry.slots p.size p.schema.width := hproper.slot_count
  rw [hspare, ← hcount, List.getElem?_drop, Nat.add_sub_cancel' hlow,
    unpackBits_header_getElem? hlen hi]

/-! ## Changes of one slot -/

/-- Whether the slot of a change is used from then on. -/
theorem headerBits_change (ch : Change) (hslot : ch.place.slot.toNat < p.slotCount) :
    (p.change ch).headerBits = p.headerBits.set ch.place.slot.toNat ch.row.isSome := by
  have hlen : ch.place.slot.toNat < (p.slots.toList.map Option.isSome).length := by
    simpa [slotCount] using hslot
  simp only [headerBits, change, Change.apply, Array.toList_setIfInBounds, List.map_set]
  exact (List.set_append_left _ _ hlen).symm

/-- The bitmap after a change of one slot is the one before it with the bit of this slot
written. -/
theorem bitmap_change (h : p.Proper) (ch : Change) (hslot : ch.place.slot.toNat < p.slotCount) :
    (p.change ch).bitmap = p.bitmap.setBit ch.place.slot.toNat ch.row.isSome := by
  have hbits := headerBits_change ch hslot
  have hlen : (p.change ch).headerBits.length = 8 * (p.change ch).bitmapSize := by
    rw [hbits, List.length_set]
    exact h.length_headerBits
  rw [bitmap_eq hlen, bitmap_eq h.length_headerBits, hbits]
  exact Bytes.packBits_set h.length_headerBits _ _

end HeapPage

end PageCache
