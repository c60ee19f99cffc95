-- Pages and their bytes. A proper page is read back from its bytes, whatever can be read is
-- a proper page, and a page of zeros is one with empty slots only. Storing and taking out
-- a record changes one slot and keeps a page proper.
import PageCache.Page.Image
import PageCache.Proofs.Row.Codec
import Mathlib.Tactic.Ring

namespace PageCache

/-! ## Geometry -/

namespace Geometry

variable {size width : Nat}

theorem slots_le_maxSlots : slots size width ≤ maxSlots := Nat.min_le_right _ _

theorem slots_le_header : slots size width ≤ 8 * header size width := by
  unfold header
  omega

/-- The bits and the slots fit into the page. -/
theorem header_add_slots_le : header size width + slots size width * width ≤ size := by
  have hmul : slots size width * (width * 8 + 1) ≤ size * 8 :=
    le_trans (Nat.mul_le_mul_right _ (Nat.min_le_left _ _)) (Nat.div_mul_le_self _ _)
  have hexpand : slots size width * (width * 8 + 1) =
      8 * (slots size width * width) + slots size width := by ring
  unfold header
  omega

/-- Each slot lies within the page. -/
theorem slot_fits {i : Nat} (hi : i < slots size width) :
    header size width + i * width + width ≤ size := by
  have hfit := @header_add_slots_le size width
  have hmul : (i + 1) * width ≤ slots size width * width := Nat.mul_le_mul_right _ hi
  rw [Nat.succ_mul] at hmul
  omega

end Geometry

namespace HeapPage

variable {p q : HeapPage} {id : PageId} {schema : Schema} {size : Nat} {data : Bytes}

/-! ## Proper pages -/

/-- A page has as many slots and spare bits as its size and schema ask for, and every record
on it fits the schema. -/
structure Proper (p : HeapPage) : Prop where
  slot_count : p.slots.size = Geometry.slots p.size p.schema.width
  bit_count : p.slots.size + p.spare.length = 8 * Geometry.header p.size p.schema.width
  rows_fit : ∀ row, some row ∈ p.slots → Record.RowFits p.schema.types row

/-- A page without records. -/
def blank (id : PageId) (schema : Schema) (size : Nat) : HeapPage :=
  let count := Geometry.slots size schema.width
  ⟨id, schema, size, Array.replicate count none,
    List.replicate (8 * Geometry.header size schema.width - count) false, none, Bytes.zeros size⟩

theorem Proper.length_headerBits (h : p.Proper) :
    p.headerBits.length = 8 * Geometry.header p.size p.schema.width := by
  rw [headerBits, List.length_append, List.length_map, Array.length_toList, h.bit_count]

/-! ## Slots and their bytes -/

theorem slotBytes_some {row : Row} (h : Record.RowFits p.schema.types row) :
    p.slotBytes (some row) = Record.fieldBytes p.schema.types row := by
  have hfits := ((Record.rowFits_iff ⟨p.schema, row, none⟩).1 h).2
  simp [slotBytes, Record.encode, hfits]

theorem length_slotBytes {slot : Option Row}
    (h : ∀ row, slot = some row → Record.RowFits p.schema.types row) :
    (p.slotBytes slot).length = p.schema.width := by
  cases slot with
  | none => exact Bytes.length_zeros _
  | some row =>
    rw [slotBytes_some (h row rfl), Record.length_fieldBytes (h row rfl), Schema.width_eq]

theorem length_flatMap_slotBytes {slots : List (Option Row)}
    (h : ∀ row, some row ∈ slots → Record.RowFits p.schema.types row) :
    (slots.flatMap p.slotBytes).length = slots.length * p.schema.width := by
  induction slots with
  | nil => simp
  | cons slot rest ih =>
    have hslot : ∀ row, slot = some row → Record.RowFits p.schema.types row :=
      fun row hr => h row (hr ▸ List.mem_cons_self)
    rw [List.flatMap_cons, List.length_append, length_slotBytes hslot,
      ih fun row hr => h row (List.mem_cons_of_mem _ hr), List.length_cons]
    ring

/-- Slots are read back from their bits and their bytes. -/
theorem readSlots_go_flatMap {slots : List (Option Row)} {rest : Bytes}
    (h : ∀ row, some row ∈ slots → Record.RowFits p.schema.types row) (read : Array (Option Row)) :
    readSlots.go p.schema (slots.map Option.isSome) (slots.flatMap p.slotBytes ++ rest) read =
      .ok (read ++ slots.toArray) := by
  induction slots generalizing read with
  | nil => simp [readSlots.go]
  | cons slot others ih =>
    have hothers := ih fun row hr => h row (List.mem_cons_of_mem _ hr)
    have hslot : ∀ row, slot = some row → Record.RowFits p.schema.types row :=
      fun row hr => h row (hr ▸ List.mem_cons_self)
    have hlen := length_slotBytes hslot
    rw [List.flatMap_cons, List.append_assoc, List.map_cons]
    cases slot with
    | none =>
      simp only [Option.isSome_none, readSlots.go]
      rw [List.drop_left' hlen, hothers]
      simp
    | some row =>
      have hrow : readRow p.schema (p.slotBytes (some row)) = some row := by
        rw [readRow, slotBytes_some (hslot row rfl), ← List.append_nil (Record.fieldBytes _ _),
          Record.decodeFields_fieldBytes (hslot row rfl)]
      simp only [Option.isSome_some, readSlots.go]
      rw [List.take_left' hlen, hrow]
      simp only
      rw [List.drop_left' hlen, hothers]
      simp

/-- What is read has one slot for each bit, and rows that fit. -/
theorem readSlots_go_ok {bits : List Bool} {body : Bytes} {read slots : Array (Option Row)}
    (hread : ∀ row, some row ∈ read → Record.RowFits schema.types row)
    (h : readSlots.go schema bits body read = .ok slots) :
    slots.size = read.size + bits.length ∧
      ∀ row, some row ∈ slots → Record.RowFits schema.types row := by
  induction bits generalizing body read with
  | nil =>
    cases h
    exact ⟨rfl, hread⟩
  | cons bit rest ih =>
    cases bit with
    | false =>
      have hpush : ∀ r, some r ∈ read.push none → Record.RowFits schema.types r := by
        simpa using hread
      have hnext := ih hpush h
      refine ⟨?_, hnext.2⟩
      rw [hnext.1, Array.size_push, List.length_cons]
      omega
    | true =>
      unfold readSlots.go at h
      split at h
      · rename_i row hrow
        have hfits := Record.rowFits_of_decodeFields hrow
        have hpush : ∀ r, some r ∈ read.push (some row) → Record.RowFits schema.types r := by
          intro r hr
          rcases Array.mem_push.1 hr with hr | hr
          · exact hread r hr
          · cases hr
            exact hfits
        have hnext := ih hpush h
        refine ⟨?_, hnext.2⟩
        rw [hnext.1, Array.size_push, List.length_cons]
        omega
      · cases h

theorem readSlots_go_replicate_false (n : Nat) (body : Bytes) (read : Array (Option Row)) :
    readSlots.go schema (List.replicate n false) body read =
      .ok (read ++ Array.replicate n none) := by
  induction n generalizing body read with
  | zero => simp [readSlots.go]
  | succ n ih =>
    rw [List.replicate_succ, readSlots.go, ih, Array.replicate_succ']
    simp

/-! ## Pages and their bytes -/

/-- A mark does not show in the bytes. -/
theorem image_congr (hslots : p.slots = q.slots) (hschema : p.schema = q.schema)
    (hsize : p.size = q.size) (hspare : p.spare = q.spare) : p.image = q.image := by
  have hslot : p.slotBytes = q.slotBytes := by
    funext slot
    cases slot <;> simp only [slotBytes, hschema]
  simp only [image, headerBits, hslots, hspare, hsize, hslot]

@[simp] theorem image_markClean : p.markClean.image = p.image :=
  image_congr rfl rfl rfl rfl

/-- The bytes in front of the padding are those of the header and of the slots. -/
theorem length_used (h : p.Proper) :
    (Bytes.packBits p.headerBits ++ p.slots.toList.flatMap p.slotBytes).length =
      Geometry.header p.size p.schema.width + p.slotCount * p.schema.width := by
  have hrows : ∀ row, some row ∈ p.slots.toList → Record.RowFits p.schema.types row :=
    fun row hr => h.rows_fit row (by simpa using hr)
  rw [List.length_append, Bytes.length_packBits h.length_headerBits,
    length_flatMap_slotBytes hrows, Array.length_toList, slotCount]

/-- There is room for the header and the slots. -/
theorem length_used_le (h : p.Proper) :
    (Bytes.packBits p.headerBits ++ p.slots.toList.flatMap p.slotBytes).length ≤ p.size := by
  rw [length_used h, slotCount, h.slot_count]
  exact Geometry.header_add_slots_le

theorem length_image (h : p.Proper) : p.image.length = p.size := by
  have hused := length_used_le h
  unfold image
  rw [List.length_append, Bytes.length_zeros]
  omega

/-- A proper page is read back from its bytes, clean and with these bytes as its snapshot. -/
theorem ofImage_image (h : p.Proper) :
    ofImage p.id p.schema p.size p.image = .ok p.markClean.snapshot := by
  have hrows : ∀ row, some row ∈ p.slots.toList → Record.RowFits p.schema.types row :=
    fun row hr => h.rows_fit row (by simpa using hr)
  have hsplit : p.image = Bytes.packBits p.headerBits ++ (p.slots.toList.flatMap p.slotBytes ++
      Bytes.zeros (p.size - (Bytes.packBits p.headerBits ++
        p.slots.toList.flatMap p.slotBytes).length)) := by
    rw [image, List.append_assoc]
  have hheader := Bytes.length_packBits h.length_headerBits
  have hbits : Bytes.unpackBits (p.image.take (Geometry.header p.size p.schema.width)) =
      p.slots.toList.map Option.isSome ++ p.spare := by
    rw [hsplit, List.take_left' hheader, Bytes.unpackBits_packBits h.length_headerBits, headerBits]
  have hcount :
      (p.slots.toList.map Option.isSome).length = Geometry.slots p.size p.schema.width := by
    rw [List.length_map, Array.length_toList, h.slot_count]
  unfold ofImage
  rw [if_neg (by simp [length_image h])]
  simp only [hbits, List.take_left' hcount, List.drop_left' hcount]
  rw [show p.image.drop (Geometry.header p.size p.schema.width) = _ by
    rw [hsplit, List.drop_left' hheader]]
  rw [readSlots, readSlots_go_flatMap hrows]
  simp [snapshot, markClean]
  exact image_markClean.symm

/-- A page is long enough for the bits of its slots. -/
theorem length_header (hlen : data.length = size) :
    (data.take (Geometry.header size schema.width)).length = Geometry.header size schema.width := by
  have hfit := @Geometry.header_add_slots_le size schema.width
  rw [List.length_take, hlen]
  omega

/-- There is a bit for each slot. -/
theorem length_slotBits (hlen : data.length = size) :
    ((Bytes.unpackBits (data.take (Geometry.header size schema.width))).take
      (Geometry.slots size schema.width)).length = Geometry.slots size schema.width := by
  rw [List.length_take, Bytes.length_unpackBits, length_header hlen,
    Nat.min_eq_left Geometry.slots_le_header]

/-- Whatever can be read is a proper page. -/
theorem ofImage_ok (h : ofImage id schema size data = .ok p) :
    p.Proper ∧ p.id = id ∧ p.schema = schema ∧ p.size = size ∧ p.dirty = none ∧
      p.before = data := by
  unfold ofImage at h
  split at h
  · cases h
  · rename_i hlen
    simp only [ne_eq, Decidable.not_not] at hlen
    simp only at h
    split at h
    · cases h
    · rename_i slots hread
      cases h
      have hle := @Geometry.slots_le_header size schema.width
      have hslots := readSlots_go_ok (by simp) hread
      have hsize : slots.size = Geometry.slots size schema.width := by
        rw [hslots.1, length_slotBits hlen]
        simp
      refine ⟨⟨hsize, ?_, hslots.2⟩, rfl, rfl, rfl, rfl, rfl⟩
      simp only [List.length_drop, Bytes.length_unpackBits, length_header hlen, hsize]
      omega

/-- Zeros are a page without records. -/
theorem ofImage_zeros (id : PageId) (schema : Schema) (size : Nat) :
    ofImage id schema size (Bytes.zeros size) = .ok (blank id schema size) := by
  have hheader : Geometry.header size schema.width ≤ size :=
    le_trans (Nat.le_add_right _ _) Geometry.header_add_slots_le
  have htake : (Bytes.zeros size).take (Geometry.header size schema.width) =
      Bytes.zeros (Geometry.header size schema.width) := by
    simp [Bytes.zeros, List.take_replicate, hheader]
  unfold ofImage
  rw [if_neg (by simp)]
  simp only [htake, Bytes.unpackBits_zeros, List.take_replicate, List.drop_replicate,
    Nat.min_eq_left Geometry.slots_le_header]
  rw [readSlots, readSlots_go_replicate_false]
  simp [blank]

end HeapPage

end PageCache
