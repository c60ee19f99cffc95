-- Edits of a page are local in its bytes. A record that is stored or taken out changes its own
-- bit and the bytes of its own slot, and what is taken out leaves a clear bit and zeros. So a
-- record that was stored and taken out again has left no trace.
import PageCache.Proofs.Page.Bitmap

namespace PageCache

namespace HeapPage

variable {p q q' : HeapPage} {r : Record} {place : RecordId} {id : PageId} {schema : Schema}
  {size slot k : Nat} {data : Bytes} {area more : List Nat}

/-! ## The bytes of a slot -/

/-- Where the bytes of a slot begin. -/
def fieldStart (p : HeapPage) (slot : Nat) : Nat := p.bitmapSize + slot * p.schema.width

/-- The bytes of a slot. -/
def field (p : HeapPage) (slot : Nat) : Bytes :=
  (p.image.drop (p.fieldStart slot)).take p.schema.width

/-- The byte at `k` is one of the slot. -/
def InField (p : HeapPage) (slot k : Nat) : Prop :=
  p.fieldStart slot ≤ k ∧ k < p.fieldStart slot + p.schema.width

theorem field_getElem? (h : p.InField slot k) :
    (p.field slot)[k - p.fieldStart slot]? = p.image[k]? := by
  obtain ⟨hlow, hhigh⟩ := h
  rw [field, List.getElem?_take_of_lt (by omega), List.getElem?_drop, Nat.add_sub_cancel' hlow]

/-- The bytes of a page around those of one of its slots. -/
theorem image_eq (h : p.Proper) {content : Option Row} (hslot : p.slots[slot]? = some content) :
    p.image = p.bitmap ++ ((p.slots.toList.take slot).flatMap p.slotBytes ++
      (p.slotBytes content ++ ((p.slots.toList.drop (slot + 1)).flatMap p.slotBytes ++
        Bytes.zeros (p.size - (p.bitmapSize + p.slotCount * p.schema.width))))) := by
  have hused : (Bytes.packBits p.headerBits ++ p.slots.toList.flatMap p.slotBytes).length =
      p.bitmapSize + p.slotCount * p.schema.width := length_used h
  obtain ⟨hlt, rfl⟩ := List.getElem?_eq_some_iff.1 ((Array.getElem?_toList ..).trans hslot)
  have hbody : p.slots.toList.flatMap p.slotBytes =
      (p.slots.toList.take slot).flatMap p.slotBytes ++ (p.slotBytes p.slots.toList[slot] ++
        (p.slots.toList.drop (slot + 1)).flatMap p.slotBytes) := by
    rw [← List.flatMap_cons, List.getElem_cons_drop, ← List.flatMap_append,
      List.take_append_drop]
  rw [bitmap_eq h.length_headerBits, image, hused, hbody]
  simp only [List.append_assoc]

theorem length_front (h : p.Proper) (hslot : slot ≤ p.slotCount) :
    ((p.slots.toList.take slot).flatMap p.slotBytes).length = slot * p.schema.width := by
  rw [length_flatMap_slotBytes, List.length_take, Array.length_toList, ← slotCount,
    Nat.min_eq_left hslot]
  intro row hr
  exact h.rows_fit row (by simpa using List.mem_of_mem_take hr)

theorem length_content (h : p.Proper) {content : Option Row}
    (hslot : p.slots[slot]? = some content) :
    (p.slotBytes content).length = p.schema.width := by
  apply length_slotBytes
  rintro row rfl
  exact h.rows_fit row (Array.mem_of_getElem? hslot)

/-- The bytes of a slot are what is written for its content. -/
theorem field_eq (h : p.Proper) {content : Option Row} (hslot : p.slots[slot]? = some content) :
    p.field slot = p.slotBytes content := by
  have hlt : slot < p.slotCount := (Array.getElem?_eq_some_iff.1 hslot).1
  have hfront : (p.bitmap ++ (p.slots.toList.take slot).flatMap p.slotBytes).length =
      p.fieldStart slot := by
    rw [List.length_append, length_bitmap h, length_front h hlt.le, fieldStart]
  rw [field, image_eq h hslot, ← List.append_assoc, List.drop_left' hfront,
    List.take_left' (length_content h hslot)]

/-! ## Pages that differ at some slots -/

/-- The bytes of the two pages differ at most in the bits and the bytes of some slots. -/
structure DifferAt (area : List Nat) (p q : HeapPage) : Prop where
  size_eq : q.size = p.size
  schema_eq : q.schema = p.schema
  length_eq : q.image.length = p.image.length
  bit_eq : ∀ i < 8 * p.bitmapSize, i ∉ area → q.image.bit i = p.image.bit i
  byte_eq : ∀ k, p.bitmapSize ≤ k → (∀ slot ∈ area, ¬ p.InField slot k) →
    q.image[k]? = p.image[k]?

namespace DifferAt

theorem bitmapSize_eq (h : p.DifferAt area q) : q.bitmapSize = p.bitmapSize := by
  rw [bitmapSize, bitmapSize, h.size_eq, h.schema_eq]

theorem inField_iff (h : p.DifferAt area q) : q.InField slot k ↔ p.InField slot k := by
  rw [InField, InField, fieldStart, fieldStart, h.bitmapSize_eq, h.schema_eq]

theorem of_image_eq (hsize : q.size = p.size) (hschema : q.schema = p.schema)
    (himage : q.image = p.image) : p.DifferAt area q :=
  ⟨hsize, hschema, by rw [himage], fun _ _ _ => by rw [himage], fun _ _ _ => by rw [himage]⟩

theorem trans (h : p.DifferAt area q) (h' : q.DifferAt more q') :
    p.DifferAt (area ++ more) q' where
  size_eq := h'.size_eq.trans h.size_eq
  schema_eq := h'.schema_eq.trans h.schema_eq
  length_eq := h'.length_eq.trans h.length_eq
  bit_eq i hi hout := by
    rw [List.mem_append, not_or] at hout
    rw [h'.bit_eq i (by rwa [h.bitmapSize_eq]) hout.2, h.bit_eq i hi hout.1]
  byte_eq k hk hout := by
    have hleft : ∀ slot ∈ area, ¬ p.InField slot k :=
      fun slot hs => hout slot (List.mem_append_left _ hs)
    have hright : ∀ slot ∈ more, ¬ q.InField slot k := by
      intro slot hs
      rw [h.inField_iff]
      exact hout slot (List.mem_append_right _ hs)
    rw [h'.byte_eq k (by rwa [h.bitmapSize_eq]) hright, h.byte_eq k hk hleft]

/-- Where nothing is area, nothing differs. -/
theorem image_eq_of_nil (h : p.DifferAt [] q) (hp : p.Proper) (hq : q.Proper) :
    q.image = p.image := by
  have hbitmap : q.bitmap = p.bitmap := by
    apply Bytes.eq_of_bit
    · rw [length_bitmap hq, length_bitmap hp, h.bitmapSize_eq]
    · intro i hi
      rw [length_bitmap hq] at hi
      rw [bit_bitmap hq hi, bit_bitmap hp (by rwa [← h.bitmapSize_eq])]
      exact h.bit_eq i (by rwa [← h.bitmapSize_eq]) List.not_mem_nil
  rw [← List.take_append_drop q.bitmapSize q.image, ← List.take_append_drop p.bitmapSize p.image,
    ← bitmap, ← bitmap, hbitmap, h.bitmapSize_eq]
  congr 1
  apply List.ext_getElem?
  intro k
  rw [List.getElem?_drop, List.getElem?_drop]
  exact h.byte_eq _ (by omega) (by simp)

/-- A slot whose bit and bytes are the same on both pages need not be counted. -/
theorem of_cons (h : p.DifferAt area q) (hbit : q.image.bit slot = p.image.bit slot)
    (hfield : q.field slot = p.field slot) (hsub : ∀ i ∈ area, i = slot ∨ i ∈ more) :
    p.DifferAt more q where
  size_eq := h.size_eq
  schema_eq := h.schema_eq
  length_eq := h.length_eq
  bit_eq i hi hout := by
    by_cases hslot : i = slot
    · rw [hslot, hbit]
    · apply h.bit_eq i hi
      intro hin
      exact (hsub i hin).elim hslot hout
  byte_eq k hk hout := by
    by_cases hslot : p.InField slot k
    · have hstart : q.fieldStart slot = p.fieldStart slot := by
        rw [fieldStart, fieldStart, h.bitmapSize_eq, h.schema_eq]
      rw [← field_getElem? (h.inField_iff.2 hslot), ← field_getElem? hslot, hstart, hfield]
    · apply h.byte_eq k hk
      intro i hi
      rcases hsub i hi with rfl | hi
      · exact hslot
      · exact hout i hi

end DifferAt

/-! ## Changes of one slot -/

/-- Lists that differ in a first and a third part only have the same elements elsewhere. -/
theorem getElem?_of_parts {α : Type} {a a' b c c' d : List α} (ha : a'.length = a.length)
    (hc : c'.length = c.length) (hk : a.length ≤ k)
    (hout : ¬ (a.length + b.length ≤ k ∧ k < a.length + b.length + c.length)) :
    (a' ++ (b ++ (c' ++ d)))[k]? = (a ++ (b ++ (c ++ d)))[k]? := by
  rw [List.getElem?_append_right (by omega), List.getElem?_append_right hk, ha]
  by_cases hfront : k - a.length < b.length
  · rw [List.getElem?_append_left hfront, List.getElem?_append_left hfront]
  · rw [List.getElem?_append_right (by omega), List.getElem?_append_right (by omega),
      List.getElem?_append_right (by omega), List.getElem?_append_right (by omega), hc]

/-- A change of one slot shows in its bit and in its bytes only. -/
theorem differAt_change (h : p.Proper) (ch : Change) (hslot : ch.place.slot.toNat < p.slotCount)
    (hrow : ∀ row, ch.row = some row → Record.RowFits p.schema.types row) :
    p.DifferAt [ch.place.slot.toNat] (p.change ch) ∧
      (p.change ch).image.bit ch.place.slot.toNat = ch.row.isSome ∧
      (p.change ch).field ch.place.slot.toNat = p.slotBytes ch.row := by
  have hproper := h.change ch hrow
  have hbits := lt_of_lt_of_le hslot h.slots_le
  have hlen : p.bitmap.length = p.bitmapSize := length_bitmap h
  obtain ⟨old, hold⟩ : ∃ old, p.slots[ch.place.slot.toNat]? = some old :=
    ⟨_, Array.getElem?_eq_getElem hslot⟩
  have hnew : (p.change ch).slots[ch.place.slot.toNat]? = some ch.row :=
    Array.getElem?_setIfInBounds_self_of_lt hslot
  have hbitmap := bitmap_change h ch hslot
  refine ⟨⟨rfl, rfl, ?_, ?_, ?_⟩, ?_, field_eq hproper hnew⟩
  · rw [length_image hproper, length_image h]
    rfl
  · intro i hi hne
    rw [← bit_bitmap hproper hi, ← bit_bitmap h hi, hbitmap]
    exact Bytes.bit_setBit_of_ne (by rwa [hlen]) (by simpa using hne)
  · intro k hk hout
    have himage := image_eq hproper hnew
    have htake : (p.change ch).slots.toList.take ch.place.slot.toNat =
        p.slots.toList.take ch.place.slot.toNat := by
      rw [change, Change.apply, Array.toList_setIfInBounds, List.take_set_of_le (le_refl _)]
    have hdrop : (p.change ch).slots.toList.drop (ch.place.slot.toNat + 1) =
        p.slots.toList.drop (ch.place.slot.toNat + 1) := by
      rw [change, Change.apply, Array.toList_setIfInBounds, List.drop_set_of_lt (by omega)]
    have hcount : (p.change ch).slotCount = p.slotCount := Change.size_apply _ _
    have hbytes : (p.change ch).slotBytes = p.slotBytes := rfl
    rw [htake, hdrop, hcount, hbytes] at himage
    rw [himage, image_eq h hold]
    apply getElem?_of_parts
    · rw [length_bitmap hproper, hlen]
      rfl
    · rw [length_content h hold]
      exact length_content hproper hnew
    · rwa [hlen]
    · rw [hlen, length_front h hslot.le, length_content h hold]
      exact hout _ (List.mem_singleton_self _)
  · rw [← bit_bitmap hproper hbits, hbitmap]
    exact Bytes.bit_setBit (by rwa [hlen])

/-! ## Edits -/

/-- The slot that an edit fills or empties. One that is refused has none. -/
def target (p : HeapPage) : PageEdit → Option Nat
  | .insert r _ =>
    match p.insert r with
    | .ok (_, place) => some place.slot.toNat
    | .error _ => none
  | .delete location =>
    match p.delete location with
    | .ok _ => location.map (·.slot.toNat)
    | .error _ => none
  | _ => none

/-- The slots that some edits fill or empty, one after the other. -/
def touched (p : HeapPage) : List PageEdit → List Nat
  | [] => []
  | e :: rest => (p.target e).toList ++ (p.edit e).touched rest

/-- A record that is stored shows in the bit and the bytes of its slot. -/
theorem differAt_insert (h : p.Proper) (whole : r.IsWhole) (hi : p.insert r = .ok (q, place)) :
    p.DifferAt [place.slot.toNat] q ∧ q.image.bit place.slot.toNat = true ∧
      r.encode = some (q.field place.slot.toNat) := by
  obtain ⟨rfl, -, hschema, hfits⟩ := insert_ok h hi
  obtain ⟨hlt, -, -⟩ := slots_of_insert h hi
  have hrow : Record.RowFits p.schema.types r.values := by
    rw [← hschema]
    exact (Record.rowFits_iff r).2 ⟨whole, hfits⟩
  obtain ⟨hdiffer, hbit, hfield⟩ := differAt_change h ⟨place, some r.values⟩ hlt (by
    rintro row ⟨⟩
    exact hrow)
  refine ⟨hdiffer, hbit, ?_⟩
  dsimp only at hfield
  rw [hfield, slotBytes_some hrow, Record.encode, if_pos hfits, hschema]

/-- A record that is taken out leaves a clear bit and zeros. -/
theorem differAt_delete (h : p.Proper) {location : Option RecordId}
    (hd : p.delete location = .ok q) :
    ∃ place, location = some place ∧ p.DifferAt [place.slot.toNat] q ∧
      q.image.bit place.slot.toNat = false ∧
      q.field place.slot.toNat = Bytes.zeros p.schema.width := by
  obtain ⟨place, rfl, hq, -⟩ := delete_ok hd
  obtain ⟨-, hlt, -⟩ := delete_ok_iff.1 ⟨q, hd⟩
  subst hq
  exact ⟨place, rfl, differAt_change h ⟨place, none⟩ hlt nofun⟩

theorem differAt_edit (h : p.Proper) (e : PageEdit) :
    p.DifferAt (p.target e).toList (p.edit e) := by
  cases e with
  | insert r whole =>
    rcases hi : p.insert r with e | ⟨q, place⟩
    · simp only [target, edit, hi]
      exact .of_image_eq rfl rfl rfl
    · simp only [target, edit, hi]
      exact (differAt_insert h whole hi).1
  | delete location =>
    rcases hd : p.delete location with e | q
    · simp only [target, edit, hd]
      exact .of_image_eq rfl rfl rfl
    · obtain ⟨place, rfl, hdiffer, -⟩ := differAt_delete h hd
      simp only [target, edit, hd]
      exact hdiffer
  | markDirty txn => exact .of_image_eq rfl rfl (image_congr rfl rfl rfl rfl)
  | markClean => exact .of_image_eq rfl rfl image_markClean
  | snapshot => exact .of_image_eq rfl rfl (image_congr rfl rfl rfl rfl)

/-- A run of edits shows in the slots that it touches. -/
theorem differAt_edited (h : p.ProperAt id schema size) (edits : List PageEdit) :
    p.DifferAt (p.touched edits) (p.edited edits) := by
  induction edits generalizing p with
  | nil => exact .of_image_eq rfl rfl rfl
  | cons e rest ih => exact (differAt_edit h.proper e).trans (ih (h.edit e))

/-- An empty slot has a clear bit and zeros. -/
theorem empty_slot (h : p.Proper) (hlt : slot < p.slotCount) (hempty : p.isUsed slot = false) :
    p.image.bit slot = false ∧ p.field slot = Bytes.zeros p.schema.width := by
  refine ⟨(bit_slot h hlt).trans hempty, ?_⟩
  have hnone : p.slots[slot]? = some none := by
    rw [isUsed_of_lt hlt, ← Bool.not_eq_true, Option.not_isSome_iff_eq_none] at hempty
    rw [Array.getElem?_eq_getElem hlt]
    exact congrArg some hempty
  exact field_eq h hnone

/-- A record that was stored can be taken out after any edits of other slots, and has left no
trace then. -/
theorem insert_then_delete (h : p.ProperAt id schema size) (whole : r.IsWhole)
    (hi : p.insert r = .ok (q, place)) (between : List PageEdit)
    (hout : place.slot.toNat ∉ q.touched between) :
    ∃ q', (q.edited between).delete (some place) = .ok q' ∧ q'.ProperAt id schema size ∧
      p.DifferAt (q.touched between) q' ∧
      (q.edited between).DifferAt [place.slot.toNat] q' := by
  obtain ⟨hstored, hset, -⟩ := differAt_insert h.proper whole hi
  obtain ⟨hlt, hempty, -⟩ := slots_of_insert h.proper hi
  obtain ⟨-, hpage, -⟩ := insert_ok h.proper hi
  have hq : q.ProperAt id schema size := by
    have hedit := h.edit (.insert r whole)
    simpa only [edit, hi] using hedit
  have hmid := hq.edited between
  have hbetween := differAt_edited hq between
  have hcount : (q.edited between).slotCount = p.slotCount := by
    rw [slotCount, slotCount, hmid.proper.slot_count, h.proper.slot_count, hmid.size_eq,
      hmid.schema_eq, h.size_eq, h.schema_eq]
  have hmidlt : place.slot.toNat < (q.edited between).slotCount := hcount.symm ▸ hlt
  have hlow : place.slot.toNat < 8 * q.bitmapSize := by
    rw [hstored.bitmapSize_eq]
    exact lt_of_lt_of_le hlt h.proper.slots_le
  -- No edit in between has touched the bit of the slot, so it is still used.
  have hused : (q.edited between).isUsed place.slot.toNat = true := by
    rw [← bit_slot hmid.proper hmidlt, hbetween.bit_eq _ hlow hout, hset]
  have hmidpage : place.page = (q.edited between).id := by rw [hpage, h.id_eq, hmid.id_eq]
  obtain ⟨q', hd⟩ := delete_ok_iff.2 ⟨hmidpage, hmidlt, hused⟩
  obtain ⟨_, ⟨⟩, htaken, hclear, hzeros⟩ := differAt_delete hmid.proper hd
  have hlast : q'.ProperAt id schema size := by
    have hedit := hmid.edit (.delete (some place))
    simpa only [edit, hd] using hedit
  obtain ⟨hbit, hfield⟩ := empty_slot h.proper hlt hempty
  refine ⟨q', hd, hlast, ?_, htaken⟩
  apply ((hstored.trans hbetween).trans htaken).of_cons
  · exact hclear.trans hbit.symm
  · rw [hzeros, hfield, hmid.schema_eq, h.schema_eq]
  · intro i hi
    simp only [List.mem_append, List.mem_singleton] at hi
    tauto

/-! ## The law -/

/-- On a page that was read and edited, a record that is stored changes its bit, which is set
then, and the bytes of its slot, which hold the record. One that is taken out changes the same and
leaves a clear bit and zeros. Taking a record out that was stored restores the bytes of the page,
but for the slots that other edits have touched in between. -/
theorem edits_are_local (h : ofImage id schema size data = .ok p) (edits : List PageEdit) :
    (∀ r q place, r.IsWhole → (p.edited edits).insert r = .ok (q, place) →
      (p.edited edits).DifferAt [place.slot.toNat] q ∧ q.image.bit place.slot.toNat = true ∧
        r.encode = some (q.field place.slot.toNat)) ∧
    (∀ location q, (p.edited edits).delete location = .ok q →
      ∃ place, location = some place ∧ (p.edited edits).DifferAt [place.slot.toNat] q ∧
        q.image.bit place.slot.toNat = false ∧
        q.field place.slot.toNat = Bytes.zeros schema.width) ∧
    (∀ r q place between, r.IsWhole → (p.edited edits).insert r = .ok (q, place) →
      place.slot.toNat ∉ q.touched between →
      ∃ q', (q.edited between).delete (some place) = .ok q' ∧
        (p.edited edits).DifferAt (q.touched between) q' ∧
        (q.edited between).DifferAt [place.slot.toNat] q' ∧
        (q.touched between = [] → q'.image = (p.edited edits).image)) := by
  have hedited := (properAt_ofImage h).edited edits
  refine ⟨?_, ?_, ?_⟩
  · intro r q place whole hi
    exact differAt_insert hedited.proper whole hi
  · intro location q hd
    have htaken := differAt_delete hedited.proper hd
    rwa [hedited.schema_eq] at htaken
  · intro r q place between whole hi hout
    obtain ⟨q', hd, hlast, hdiffer, htaken⟩ := insert_then_delete hedited whole hi between hout
    refine ⟨q', hd, hdiffer, htaken, ?_⟩
    intro hnone
    rw [hnone] at hdiffer
    exact hdiffer.image_eq_of_nil hedited.proper hlast.proper

/-- The page of three truth values with a second one. -/
def twoOfThreeFlags : HeapPage :=
  { threeFlags with slots := #[some [.boolean true], some [.boolean true], none] }

/-- A second record is stored, the first one is taken out, and then the second one is: of the page
as it was at first only the first slot and its bit have changed. -/
theorem second_flag_leaves_no_trace :
    ofImage threeFlags.id threeFlags.schema 4 [0xf1, 7, 9, 9] = .ok threeFlags ∧
      threeFlags.insert ⟨threeFlags.schema, [.boolean true], none⟩ =
        .ok (twoOfThreeFlags, ⟨threeFlags.id, 1⟩) ∧
      threeFlags.image = [0xf1, 1, 0, 0] ∧ twoOfThreeFlags.image = [0xf3, 1, 1, 0] ∧
      twoOfThreeFlags.touched [.delete (some ⟨threeFlags.id, 0⟩)] = [0] ∧
      ∃ q, (twoOfThreeFlags.edited [.delete (some ⟨threeFlags.id, 0⟩)]).delete
          (some ⟨threeFlags.id, 1⟩) = .ok q ∧
        q.image = [0xf0, 0, 0, 0] ∧ threeFlags.DifferAt [0] q := by
  have hread : ofImage threeFlags.id threeFlags.schema 4 [0xf1, 7, 9, 9] = .ok threeFlags := by
    decide +kernel
  have hins : threeFlags.insert ⟨threeFlags.schema, [.boolean true], none⟩ =
      .ok (twoOfThreeFlags, ⟨threeFlags.id, 1⟩) := by decide +kernel
  have htouched : twoOfThreeFlags.touched [.delete (some ⟨threeFlags.id, 0⟩)] = [0] := by
    decide +kernel
  have hlast : ((twoOfThreeFlags.edited [.delete (some ⟨threeFlags.id, 0⟩)]).delete
      (some ⟨threeFlags.id, 1⟩)).map image = .ok [0xf0, 0, 0, 0] := by decide +kernel
  obtain ⟨-, -, htrace⟩ := edits_are_local hread []
  obtain ⟨q, hd, hdiffer, -, -⟩ := htrace ⟨threeFlags.schema, [.boolean true], none⟩
    twoOfThreeFlags ⟨threeFlags.id, 1⟩ [.delete (some ⟨threeFlags.id, 0⟩)] rfl hins
    (by rw [htouched]; decide)
  rw [hd] at hlast
  rw [htouched] at hdiffer
  exact ⟨hread, hins, by decide +kernel, by decide +kernel, htouched, q, hd,
    Except.ok.inj hlast, hdiffer⟩

end HeapPage

end PageCache
