-- A page as an array of optional records. The bitmap says which slots are occupied, and
-- whatever is stored fits and knows its place. Storing a record fills the lowest empty slot,
-- taking one out empties its own, and what is refused is refused for a reason that can be read
-- off the array, and leaves the page.
import PageCache.Proofs.Page.TwoStores

namespace PageCache

namespace BitmapPage

variable {p q : BitmapPage} {r : Record} {place : RecordId} {id : PageId} {schema : Schema}
  {size i slot : Nat} {data : Bytes} {content : Option Record}

/-! ## The array -/

/-- A page is an array of optional records, over the bytes it was read from. -/
structure IsArray (data : Bytes) (p : BitmapPage) : Prop where
  /-- The bitmap fills its bytes, and has a bit for each slot. -/
  bitmap_length : p.bitmap.length = Geometry.header p.size p.schema.width
  slotCount_le : p.slotCount ≤ 8 * p.bitmap.length
  /-- The bit of a slot is set if and only if the slot stores a record. -/
  bit_iff : ∀ i < p.slotCount, p.bitmap.bit i = true ↔ ∃ r, p.recordAt i = some r
  /-- Slots are used where the bitmap says so. -/
  used_iff : ∀ i, p.isUsed i = true ↔ i < p.slotCount ∧ p.bitmap.bit i = true
  /-- A stored record has the schema of the page, fits its columns, and knows its place. -/
  stored : ∀ i r, p.recordAt i = some r → r.schema = p.schema ∧ r.IsWhole ∧ r.fits = true ∧
    ∃ place, r.location = some place ∧ place.page = p.id ∧ place.slot.toNat = i
  /-- The bits behind those of the slots are as they were read. -/
  spare_bit : ∀ i, p.slotCount ≤ i → i < 8 * p.bitmap.length → p.bitmap.bit i = data.bit i
  /-- The bytes of the page begin with the bitmap. -/
  image_bit : ∀ i < 8 * p.bitmap.length, p.image.bit i = p.bitmap.bit i

/-- The page `q` is the page `p` with the given content in one slot. -/
structure SameBut (slot : Nat) (content : Option Record) (p q : BitmapPage) : Prop where
  at_slot : q.recordAt slot = content
  elsewhere : ∀ i, i ≠ slot → q.recordAt i = p.recordAt i
  bit_slot : q.bitmap.bit slot = content.isSome
  bit_elsewhere : ∀ i < 8 * p.bitmap.length, i ≠ slot → q.bitmap.bit i = p.bitmap.bit i
  bitmap_length : q.bitmap.length = p.bitmap.length
  slotCount_eq : q.slotCount = p.slotCount
  id_eq : q.id = p.id
  schema_eq : q.schema = p.schema
  size_eq : q.size = p.size
  dirty_eq : q.dirty = p.dirty
  before_eq : q.before = p.before

/-- What becomes of a record that is to be stored in a page. -/
structure Inserts (p : BitmapPage) (r : Record) : Prop where
  mismatch_iff : (p.insert r).2 = .error (.schemaMismatch p.id) ↔
    r.schema ≠ p.schema ∨ r.fits = false
  full_iff : (p.insert r).2 = .error (.pageFull p.id) ↔
    r.schema = p.schema ∧ r.fits = true ∧ ∀ i < p.slotCount, p.isUsed i = true
  ok_iff : (∃ place, (p.insert r).2 = .ok place) ↔
    r.schema = p.schema ∧ r.fits = true ∧ ∃ i < p.slotCount, p.isUsed i = false
  /-- The slot that is filled is the lowest empty one. -/
  filled : ∀ place, (p.insert r).2 = .ok place →
    place.page = p.id ∧ place.slot.toNat < p.slotCount ∧ p.isUsed place.slot.toNat = false ∧
      (∀ i < place.slot.toNat, p.isUsed i = true) ∧
      p.SameBut place.slot.toNat (some { r with location := some place }) (p.insert r).1
  refused : ∀ e, (p.insert r).2 = .error e →
    (e = .schemaMismatch p.id ∨ e = .pageFull p.id) ∧ (p.insert r).1 = p

/-- What becomes of a record that is to be taken out of a page. -/
structure Deletes (p : BitmapPage) : Prop where
  noLocation_iff : ∀ location, (p.delete location).2 = .error .noLocation ↔ location = none
  notOnPage_iff : ∀ place, (p.delete (some place)).2 = .error (.notOnPage place p.id) ↔
    place.page ≠ p.id ∨ p.slotCount ≤ place.slot.toNat
  slotEmpty_iff : ∀ place, (p.delete (some place)).2 = .error (.slotEmpty p.id place.slot) ↔
    place.page = p.id ∧ place.slot.toNat < p.slotCount ∧ p.isUsed place.slot.toNat = false
  ok_iff : ∀ place, (p.delete (some place)).2 = .ok () ↔
    place.page = p.id ∧ place.slot.toNat < p.slotCount ∧ p.isUsed place.slot.toNat = true
  emptied : ∀ place, (p.delete (some place)).2 = .ok () →
    p.SameBut place.slot.toNat none (p.delete (some place)).1
  refused : ∀ location e, (p.delete location).2 = .error e →
    (e = .noLocation ∨ ∃ place, location = some place ∧
      (e = .notOnPage place p.id ∨ e = .slotEmpty p.id place.slot)) ∧ (p.delete location).1 = p

/-! ## Used slots -/

/-- The first slot without a record is the first one that the bitmap says is empty. -/
theorem InStep.findIdx?_eq_some_iff (h : p.InStep) :
    p.slots.findIdx? Option.isNone = some slot ↔
      slot < p.slotCount ∧ p.isUsed slot = false ∧ ∀ i < slot, p.isUsed i = true := by
  have hused : ∀ i (hi : i < p.slots.size), p.isUsed i = p.slots[i].isSome := by
    intro i hi
    rw [h.isUsed_eq, recordAt, Array.getElem?_eq_getElem hi, Option.join_some]
  rw [Array.findIdx?_eq_some_iff_getElem]
  constructor
  · rintro ⟨hlt, hnone, hbefore⟩
    refine ⟨hlt, ?_, fun i hi => ?_⟩
    · rw [hused slot hlt, Option.isNone_iff_eq_none.1 hnone, Option.isSome_none]
    · rw [hused i (lt_trans hi hlt)]
      simpa [Option.isSome_iff_ne_none] using hbefore i hi
  · rintro ⟨hlt, hempty, hbefore⟩
    have hnone := hused slot hlt
    rw [hempty] at hnone
    refine ⟨hlt, by simpa using hnone.symm, fun i hi => ?_⟩
    have hsome := hused i (lt_trans hi hlt)
    rw [hbefore i hi] at hsome
    simpa [Option.isSome_iff_ne_none] using hsome.symm

theorem InStep.findIdx?_eq_none_iff (h : p.InStep) :
    p.slots.findIdx? Option.isNone = none ↔ ∀ i < p.slotCount, p.isUsed i = true := by
  rw [Array.findIdx?_eq_none_iff]
  constructor
  · intro hall i hi
    have hslot := hall _ (Array.getElem_mem hi)
    rw [h.isUsed_eq, recordAt, Array.getElem?_eq_getElem hi, Option.join_some]
    simpa [Option.isSome_iff_ne_none] using hslot
  · intro hall content hc
    obtain ⟨i, hi, rfl⟩ := Array.getElem_of_mem hc
    have hslot := hall i hi
    rw [h.isUsed_eq, recordAt, Array.getElem?_eq_getElem hi, Option.join_some] at hslot
    simpa [Option.isSome_iff_ne_none] using hslot

theorem InStep.stored (h : p.InStep) (hr : p.recordAt i = some r) :
    r.schema = p.schema ∧ r.IsWhole ∧ r.fits = true ∧
      ∃ place, r.location = some place ∧ place.page = p.id ∧ place.slot.toNat = i := by
  have hlt : i < p.slotCount := by
    by_contra hout
    rw [recordAt, Array.getElem?_eq_none (Nat.le_of_not_lt hout)] at hr
    cases hr
  obtain ⟨⟨hschema, hplace⟩, hfits⟩ := h.fits hr
  rw [← hschema] at hfits
  obtain ⟨hwhole, hfits⟩ := (Record.rowFits_iff r).1 hfits
  exact ⟨hschema, hwhole, hfits, _, hplace, rfl, h.toNat_slot hlt⟩

/-- The bytes of a page begin with its bitmap. -/
theorem image_bit (hi : i < 8 * p.bitmap.length) : p.image.bit i = p.bitmap.bit i := by
  rw [image, List.append_assoc, Bytes.bit_append_left hi]

/-- A page that was read keeps its id, its schema, its size and the number of its slots. -/
theorem edited_at (h : ofImage id schema size data = .ok p) (edits : List PageEdit) :
    (p.edited edits).id = id ∧ (p.edited edits).schema = schema ∧ (p.edited edits).size = size ∧
      (p.edited edits).slotCount = p.slotCount := by
  obtain ⟨hread, -⟩ := ofImage_parts h
  obtain ⟨hstep, htold⟩ := (inStep_ofImage h).edited edits
  have hbefore := HeapPage.properAt_ofImage hread
  obtain ⟨hproper, hid, hschema, hsize⟩ := hbefore.edited edits
  rw [← htold] at hproper hid hschema hsize
  refine ⟨hid, hschema, hsize, ?_⟩
  rw [hstep.slotCount_eq, (inStep_ofImage h).slotCount_eq]
  exact congrArg₂ Geometry.slots (hsize.trans hbefore.size_eq.symm)
    (congrArg Schema.width (hschema.trans hbefore.schema_eq.symm))

/-- What was read from some bytes and edited since is an array over these bytes. -/
theorem isArray_edited (h : ofImage id schema size data = .ok p) (edits : List PageEdit) :
    (p.edited edits).IsArray data := by
  obtain ⟨hread, -⟩ := ofImage_parts h
  obtain ⟨hstep, htold⟩ := (inStep_ofImage h).edited edits
  obtain ⟨-, hschema, hsize, hcount⟩ := edited_at h edits
  constructor
  · exact hstep.length_bitmap
  · exact hstep.slotCount_le
  · intro i hi
    rw [hstep.bit_eq hi, Option.isSome_iff_exists]
  · intro i
    rw [isUsed, Bool.and_eq_true, decide_eq_true_eq]
  · exact fun i r hr => hstep.stored hr
  · intro i hlow hi
    rw [hstep.length_bitmap, hschema, hsize] at hi
    have hspare := congrArg HeapPage.spare htold
    rw [HeapPage.spare_edited] at hspare
    have hnow : (p.edited edits).toHeapPage.spare[i - p.slotCount]? =
        some ((p.edited edits).bitmap.bit i) := by
      rw [toHeapPage, List.getElem?_drop, hcount, Nat.add_sub_cancel' (hcount ▸ hlow)]
      apply Bytes.unpackBits_getElem?
      rwa [hstep.length_bitmap, hschema, hsize]
    obtain ⟨-, -, hschema', hsize'⟩ := HeapPage.properAt_ofImage hread
    have hwas := HeapPage.spare_ofImage hread (i := i) (by
      rw [slotCount_toHeapPage]
      exact hcount ▸ hlow) (by rwa [HeapPage.bitmapSize, hschema', hsize'])
    rw [slotCount_toHeapPage, ← hspare, hnow] at hwas
    exact Option.some.inj hwas
  · exact fun i hi => image_bit hi

/-! ## Filling and emptying a slot -/

/-- Writing both stores of a slot changes what is stored there, and its bit. -/
theorem InStep.sameBut_write (h : p.InStep) (hslot : slot < p.slotCount)
    (content : Option Record) : p.SameBut slot content (p.write slot content) where
  at_slot := by
    rw [recordAt, BitmapPage.write, Array.getElem?_setIfInBounds_self_of_lt hslot, Option.join_some]
  elsewhere i hi := by
    rw [recordAt, BitmapPage.write, Array.getElem?_setIfInBounds_ne (Ne.symm hi)]
    rfl
  bit_slot := Bytes.bit_setBit (lt_of_lt_of_le hslot h.slotCount_le)
  bit_elsewhere i hi hne := Bytes.bit_setBit_of_ne hi hne
  bitmap_length := Bytes.length_setBit _ _ _
  slotCount_eq := Array.size_setIfInBounds
  id_eq := rfl
  schema_eq := rfl
  size_eq := rfl
  dirty_eq := rfl
  before_eq := rfl

theorem accepts_iff : p.accepts r = true ↔ r.schema = p.schema ∧ r.fits = true := by
  rw [accepts, Bool.and_eq_true, decide_eq_true_eq]

theorem insert_mismatch_iff : (p.insert r).2 = .error (.schemaMismatch p.id) ↔
    r.schema ≠ p.schema ∨ r.fits = false := by
  have hrejects : p.accepts r = false ↔ r.schema ≠ p.schema ∨ r.fits = false := by
    rw [← Bool.not_eq_true, accepts_iff, not_and_or, Bool.not_eq_true]
  rw [← hrejects]
  rcases insert_cases p r with ⟨hacc, he⟩ | ⟨hacc, -, he⟩ | ⟨hacc, slot, -, he⟩ <;>
    simp [he, hacc]

theorem InStep.insert_full_iff (h : p.InStep) : (p.insert r).2 = .error (.pageFull p.id) ↔
    r.schema = p.schema ∧ r.fits = true ∧ ∀ i < p.slotCount, p.isUsed i = true := by
  rw [← and_assoc, ← accepts_iff, ← h.findIdx?_eq_none_iff]
  rcases insert_cases p r with ⟨hacc, he⟩ | ⟨hacc, hfind, he⟩ | ⟨hacc, slot, hfind, he⟩ <;>
    rw [he, hacc]
  · simp
  · simp [hfind]
  · simp [hfind]

theorem InStep.insert_ok_iff (h : p.InStep) : (∃ place, (p.insert r).2 = .ok place) ↔
    r.schema = p.schema ∧ r.fits = true ∧ ∃ i < p.slotCount, p.isUsed i = false := by
  have hfree : (∃ i < p.slotCount, p.isUsed i = false) ↔ p.slots.findIdx? Option.isNone ≠ none := by
    rw [Ne, h.findIdx?_eq_none_iff]
    simp
  rw [← and_assoc, ← accepts_iff, hfree]
  rcases insert_cases p r with ⟨hacc, he⟩ | ⟨hacc, hfind, he⟩ | ⟨hacc, slot, hfind, he⟩ <;>
    rw [he, hacc]
  · simp
  · simp [hfind]
  · simp [hfind]

theorem InStep.inserts (h : p.InStep) (r : Record) : p.Inserts r where
  mismatch_iff := insert_mismatch_iff
  full_iff := h.insert_full_iff
  ok_iff := h.insert_ok_iff
  filled place hi := by
    rcases insert_cases p r with ⟨-, he⟩ | ⟨-, -, he⟩ | ⟨-, slot, hfind, he⟩ <;> rw [he] at hi
    · cases hi
    · cases hi
    · obtain ⟨hlt, hempty, hbefore⟩ := h.findIdx?_eq_some_iff.1 hfind
      cases hi
      rw [he, h.toNat_slot hlt]
      exact ⟨rfl, hlt, hempty, hbefore, h.sameBut_write hlt _⟩
  refused e he := by
    rcases insert_cases p r with ⟨-, hcase⟩ | ⟨-, -, hcase⟩ | ⟨-, slot, -, hcase⟩ <;>
      rw [hcase] at he ⊢ <;> cases he
    · exact ⟨.inl rfl, rfl⟩
    · exact ⟨.inr rfl, rfl⟩

theorem delete_notOnPage_iff : (p.delete (some place)).2 = .error (.notOnPage place p.id) ↔
    place.page ≠ p.id ∨ p.slotCount ≤ place.slot.toNat := by
  rcases delete_cases p place with ⟨hout, he⟩ | ⟨hpage, hlt, -, he⟩ | ⟨hpage, hlt, -, he⟩
  · simp [he, hout]
  · simp [he, hpage, hlt]
  · simp [he, hpage, hlt]

theorem delete_slotEmpty_iff : (p.delete (some place)).2 = .error (.slotEmpty p.id place.slot) ↔
    place.page = p.id ∧ place.slot.toNat < p.slotCount ∧ p.isUsed place.slot.toNat = false := by
  rcases delete_cases p place with ⟨hout, he⟩ | ⟨hpage, hlt, hused, he⟩ | ⟨hpage, hlt, hused, he⟩
  · have hnot : ¬ (place.page = p.id ∧ place.slot.toNat < p.slotCount) := by
      rintro ⟨hpage, hlt⟩
      exact hout.elim (· hpage) (by omega)
    simp [he, ← and_assoc, hnot]
  · simp [he, hpage, hlt, hused]
  · simp [he, hused]

theorem delete_ok_iff : (p.delete (some place)).2 = .ok () ↔
    place.page = p.id ∧ place.slot.toNat < p.slotCount ∧ p.isUsed place.slot.toNat = true := by
  rcases delete_cases p place with ⟨hout, he⟩ | ⟨hpage, hlt, hused, he⟩ | ⟨hpage, hlt, hused, he⟩
  · have hnot : ¬ (place.page = p.id ∧ place.slot.toNat < p.slotCount) := by
      rintro ⟨hpage, hlt⟩
      exact hout.elim (· hpage) (by omega)
    simp [he, ← and_assoc, hnot]
  · simp [he, hused]
  · simp [he, hpage, hlt, hused]

theorem InStep.deletes (h : p.InStep) : p.Deletes where
  noLocation_iff location := by
    cases location with
    | none => simp [delete]
    | some place =>
      rcases delete_cases p place with ⟨-, he⟩ | ⟨-, -, -, he⟩ | ⟨-, -, -, he⟩ <;> simp [he]
  notOnPage_iff _ := delete_notOnPage_iff
  slotEmpty_iff _ := delete_slotEmpty_iff
  ok_iff _ := delete_ok_iff
  emptied place hd := by
    obtain ⟨-, hlt, -⟩ := delete_ok_iff.1 hd
    rcases delete_cases p place with ⟨-, he⟩ | ⟨-, -, -, he⟩ | ⟨-, -, -, he⟩ <;> rw [he] at hd ⊢
    · cases hd
    · cases hd
    · exact h.sameBut_write hlt none
  refused location e he := by
    cases location with
    | none => exact ⟨.inl (Except.error.inj he).symm, rfl⟩
    | some place =>
      rcases delete_cases p place with ⟨-, hcase⟩ | ⟨-, -, -, hcase⟩ | ⟨-, -, -, hcase⟩ <;>
        rw [hcase] at he ⊢ <;> cases he
      · exact ⟨.inr ⟨place, rfl, .inl rfl⟩, rfl⟩
      · exact ⟨.inr ⟨place, rfl, .inr rfl⟩, rfl⟩

/-! ## The law -/

/-- However a page that was read is edited, it keeps its id, its schema and the number of its
slots, and is an array of optional records: its bitmap tells which slots are occupied, a record
is stored in the lowest empty slot, what is taken out leaves an empty slot, and whatever is refused
leaves the page as it was. -/
theorem page_is_slot_array (h : ofImage id schema size data = .ok p) (edits : List PageEdit) :
    (p.edited edits).id = id ∧ (p.edited edits).schema = schema ∧
      (p.edited edits).slotCount = Geometry.slots size schema.width ∧
      (p.edited edits).IsArray data ∧ (∀ r, (p.edited edits).Inserts r) ∧
      (p.edited edits).Deletes := by
  obtain ⟨hstep, -⟩ := (inStep_ofImage h).edited edits
  obtain ⟨hid, hschema, hsize, -⟩ := edited_at h edits
  have hcount := hstep.slotCount_eq
  rw [hsize, hschema] at hcount
  exact ⟨hid, hschema, hcount, isArray_edited h edits, hstep.inserts, hstep.deletes⟩

/-- A page of three truth values, with its bitmap: one slot is used, and the other two and the
spare bits have something in them. -/
def threeFlags : BitmapPage where
  id := ⟨⟨1⟩, 0⟩
  schema := ⟨[⟨"flag", .boolean⟩]⟩
  size := 4
  bitmap := [0xf1]
  slots := #[some ⟨⟨[⟨"flag", .boolean⟩]⟩, [.boolean true], some ⟨⟨⟨1⟩, 0⟩, 0⟩⟩, none, none]
  dirty := none
  before := [0xf1, 7, 9, 9]

/-- A page with spare bits set, where a second record was stored and the first one taken out:
the next record goes to the empty slot in front, and nothing more can be taken out there. -/
theorem slot_array_of_threeFlags :
    ofImage threeFlags.id threeFlags.schema 4 [0xf1, 7, 9, 9] = .ok threeFlags ∧
      (threeFlags.edited HeapPage.flagEdits).bitmap.bit 0 = false ∧
      (threeFlags.edited HeapPage.flagEdits).bitmap.bit 1 = true ∧
      (threeFlags.edited HeapPage.flagEdits).bitmap.bit 7 = true ∧
      (∃ place, ((threeFlags.edited HeapPage.flagEdits).insert
        ⟨threeFlags.schema, [.boolean false], none⟩).2 = .ok place ∧ place.slot.toNat = 0) ∧
      ((threeFlags.edited HeapPage.flagEdits).delete (some ⟨threeFlags.id, 0⟩)).2 =
        .error (.slotEmpty threeFlags.id 0) := by
  have hread : ofImage threeFlags.id threeFlags.schema 4 [0xf1, 7, 9, 9] = .ok threeFlags := by
    decide +kernel
  obtain ⟨hid, -, hcount, harray, hins, hdel⟩ := page_is_slot_array hread HeapPage.flagEdits
  have hthree : (threeFlags.edited HeapPage.flagEdits).slotCount = 3 := hcount.trans (by decide)
  have hempty : (threeFlags.edited HeapPage.flagEdits).recordAt 0 = none := by decide +kernel
  have hused : ((threeFlags.edited HeapPage.flagEdits).recordAt 1).isSome = true := by
    decide +kernel
  have hbit : (threeFlags.edited HeapPage.flagEdits).bitmap.bit 0 = false := by
    rw [← Bool.not_eq_true, harray.bit_iff 0 (by omega), hempty]
    rintro ⟨r, hr⟩
    cases hr
  have hunused : (threeFlags.edited HeapPage.flagEdits).isUsed 0 = false := by
    rw [← Bool.not_eq_true, harray.used_iff 0, hbit]
    rintro ⟨-, hset⟩
    cases hset
  refine ⟨hread, hbit, (harray.bit_iff 1 (by omega)).2 (Option.isSome_iff_exists.1 hused),
    (harray.spare_bit 7 (by omega) (by decide +kernel)).trans (by decide +kernel), ?_, ?_⟩
  · obtain ⟨place, hok⟩ := (hins ⟨threeFlags.schema, [.boolean false], none⟩).ok_iff.2
      ⟨by decide +kernel, by decide +kernel, 0, by omega, hunused⟩
    obtain ⟨-, -, -, hbefore, -⟩ := (hins _).filled place hok
    refine ⟨place, hok, ?_⟩
    by_contra hne
    have hzero := hbefore 0 (by omega)
    rw [hunused] at hzero
    cases hzero
  · have hplace := (hdel.slotEmpty_iff ⟨threeFlags.id, 0⟩).2
      ⟨hid.symm, by rw [hthree]; decide, hunused⟩
    rwa [hid] at hplace

end BitmapPage

end PageCache
