-- The two stores of a page are kept in step: the bitmap says of each slot whether it holds a
-- record, and each record knows its place. So a page may be told by its records alone, and all
-- that is done to it and asked of it is the same of that page.
import PageCache.Page.BitmapPage
import PageCache.Proofs.Page.Bitmap

namespace PageCache

namespace BitmapPage

variable {p q : BitmapPage} {r : Record} {id : PageId} {schema : Schema} {size i slot : Nat}
  {bitmap body data : Bytes} {read slots : Array (Option Record)} {content : Option Record}

/-! ## Edits -/

/-- The page after an edit. A refused one leaves what the operation leaves. -/
def edit (p : BitmapPage) : PageEdit → BitmapPage
  | .insert r _ => (p.insert r).1
  | .delete location => (p.delete location).1
  | .markDirty txn => p.markDirty txn
  | .markClean => p.markClean
  | .snapshot => p.snapshot

/-- The page after some edits, one after the other. -/
def edited (p : BitmapPage) (edits : List PageEdit) : BitmapPage := edits.foldl edit p

/-- The page with another content of one slot, in both of its stores. -/
def write (p : BitmapPage) (slot : Nat) (content : Option Record) : BitmapPage :=
  { p with
    bitmap := p.bitmap.setBit slot content.isSome
    slots := p.slots.setIfInBounds slot content }

/-- A record is stored in the lowest slot without one, or refused for itself or for want of
room. -/
theorem insert_cases (p : BitmapPage) (r : Record) :
    (p.accepts r = false ∧ p.insert r = (p, .error (.schemaMismatch p.id))) ∨
    (p.accepts r = true ∧ p.slots.findIdx? Option.isNone = none ∧
      p.insert r = (p, .error (.pageFull p.id))) ∨
    (p.accepts r = true ∧ ∃ slot, p.slots.findIdx? Option.isNone = some slot ∧
      p.insert r = (p.write slot (some { r with location := some (p.locate slot) }),
        .ok (p.locate slot))) := by
  unfold insert
  split
  · rename_i hacc
    exact .inl ⟨by simpa using hacc, rfl⟩
  · rename_i hacc
    rw [Bool.not_eq_true', Bool.not_eq_false] at hacc
    split
    · rename_i hfind
      exact .inr (.inl ⟨hacc, hfind, rfl⟩)
    · rename_i slot hfind
      exact .inr (.inr ⟨hacc, slot, hfind, rfl⟩)

/-- A record is taken out, or its place is not on the page, or the bitmap says that there is
nothing. -/
theorem delete_cases (p : BitmapPage) (place : RecordId) :
    ((place.page ≠ p.id ∨ p.slotCount ≤ place.slot.toNat) ∧
      p.delete (some place) = (p, .error (.notOnPage place p.id))) ∨
    (place.page = p.id ∧ place.slot.toNat < p.slotCount ∧ p.isUsed place.slot.toNat = false ∧
      p.delete (some place) = (p, .error (.slotEmpty p.id place.slot))) ∨
    (place.page = p.id ∧ place.slot.toNat < p.slotCount ∧ p.isUsed place.slot.toNat = true ∧
      p.delete (some place) = (p.write place.slot.toNat none, .ok ())) := by
  unfold delete
  dsimp only
  split
  · rename_i hout
    exact .inl ⟨by simpa using hout, rfl⟩
  · rename_i hin
    obtain ⟨hpage, hslot⟩ : place.page = p.id ∧ place.slot.toNat < p.slotCount := by
      simpa using hin
    split
    · rename_i hused
      exact .inr (.inl ⟨hpage, hslot, by simpa using hused, rfl⟩)
    · rename_i hused
      exact .inr (.inr ⟨hpage, hslot, by simpa using hused, rfl⟩)

/-- A deletion that is refused leaves the page. -/
theorem delete_error {location : Option RecordId} {e : StoreError}
    (hd : p.delete location = (q, .error e)) : q = p := by
  cases location with
  | none => exact (congrArg Prod.fst hd).symm
  | some place =>
    rcases delete_cases p place with ⟨-, he⟩ | ⟨-, -, -, he⟩ | ⟨-, -, -, he⟩ <;> rw [he] at hd <;>
      cases hd <;> rfl

/-! ## Pages told by their records -/

/-- What a slot holds, without its place. -/
def valuesOf (content : Option Record) : Option Row := content.map Record.values

/-- The page told by its records. Of the bitmap only the bits that no slot has are kept. -/
def toHeapPage (p : BitmapPage) : HeapPage where
  id := p.id
  schema := p.schema
  size := p.size
  slots := p.slots.map valuesOf
  spare := (Bytes.unpackBits p.bitmap).drop p.slotCount
  dirty := p.dirty
  before := p.before

/-- The record has the schema of the page, and a place there. -/
def Stamped (id : PageId) (schema : Schema) (slot : Nat) (r : Record) : Prop :=
  r.schema = schema ∧ r.location = some ⟨id, UInt16.ofNat slot⟩

/-- The two stores of a page agree, and what is stored fits and knows its place. -/
structure InStep (p : BitmapPage) : Prop where
  proper : p.toHeapPage.Proper
  bits : (Bytes.unpackBits p.bitmap).take p.slotCount = p.slots.toList.map Option.isSome
  stamped : ∀ i r, p.slots[i]? = some (some r) → Stamped p.id p.schema i r

@[simp] theorem isSome_valuesOf (content : Option Record) :
    (valuesOf content).isSome = content.isSome := Option.isSome_map

@[simp] theorem isNone_valuesOf (content : Option Record) :
    (valuesOf content).isNone = content.isNone := Option.isNone_map

@[simp] theorem slotCount_toHeapPage (p : BitmapPage) :
    p.toHeapPage.slotCount = p.slotCount := Array.size_map

@[simp] theorem accepts_toHeapPage (p : BitmapPage) (r : Record) :
    p.toHeapPage.accepts r = p.accepts r := rfl

@[simp] theorem freeCount_toHeapPage (p : BitmapPage) : p.toHeapPage.freeCount = p.freeCount := by
  rw [HeapPage.freeCount, toHeapPage, Array.countP_map]
  exact congrArg (Array.countP · p.slots) (funext isNone_valuesOf)

theorem isSome_toHeapPage (p : BitmapPage) :
    p.toHeapPage.slots.toList.map Option.isSome = p.slots.toList.map Option.isSome := by
  simp [toHeapPage, Function.comp_def]

theorem findIdx?_toHeapPage (p : BitmapPage) :
    p.toHeapPage.slots.findIdx? Option.isNone = p.slots.findIdx? Option.isNone := by
  rw [toHeapPage, Array.findIdx?_map]
  exact congrArg (p.slots.findIdx? ·) (funext isNone_valuesOf)

namespace InStep

theorem slotCount_eq (h : p.InStep) : p.slotCount = Geometry.slots p.size p.schema.width := by
  rw [← slotCount_toHeapPage]
  exact h.proper.slot_count

/-- The bitmap has all the bits of its slots, and fills its bytes. -/
theorem length_bitmap (h : p.InStep) :
    p.bitmap.length = Geometry.header p.size p.schema.width := by
  have hcount := h.proper.bit_count
  have htake := congrArg List.length h.bits
  simp only [toHeapPage, Array.size_map, List.length_drop, Bytes.length_unpackBits] at hcount
  simp only [List.length_take, Bytes.length_unpackBits, List.length_map, Array.length_toList]
    at htake
  rw [slotCount] at hcount htake
  omega

theorem slotCount_le (h : p.InStep) : p.slotCount ≤ 8 * p.bitmap.length := by
  rw [h.slotCount_eq, h.length_bitmap]
  exact Geometry.slots_le_header

/-- The bits of the bitmap are those told by the records, and the spare ones. -/
theorem headerBits_eq (h : p.InStep) :
    p.toHeapPage.headerBits = Bytes.unpackBits p.bitmap := by
  rw [HeapPage.headerBits, isSome_toHeapPage, ← h.bits]
  exact List.take_append_drop _ _

/-- The bit of a slot is set if and only if there is a record in the slot. -/
theorem bit_eq (h : p.InStep) (hi : i < p.slotCount) : p.bitmap.bit i = (p.recordAt i).isSome := by
  have hbit := Bytes.unpackBits_getElem? (lt_of_lt_of_le hi h.slotCount_le)
  have htake : ((Bytes.unpackBits p.bitmap).take p.slotCount)[i]? = some (p.bitmap.bit i) := by
    rw [List.getElem?_take_of_lt hi, hbit]
  rw [h.bits, List.getElem?_map, Array.getElem?_toList, Array.getElem?_eq_getElem hi] at htake
  rw [recordAt, Array.getElem?_eq_getElem hi, Option.join_some]
  exact (Option.some.inj htake).symm

/-- A slot is used if and only if there is a record in it. -/
theorem isUsed_eq (h : p.InStep) (i : Nat) : p.isUsed i = (p.recordAt i).isSome := by
  by_cases hi : i < p.slotCount
  · simp [isUsed, hi, h.bit_eq hi]
  · have hout : p.slots.size ≤ i := Nat.le_of_not_lt hi
    simp [isUsed, hi, recordAt, Array.getElem?_eq_none hout]

theorem fits (h : p.InStep) (hr : p.recordAt i = some r) :
    Stamped p.id p.schema i r ∧ Record.RowFits p.schema.types r.values := by
  have hslot : p.slots[i]? = some (some r) := Option.join_eq_some_iff.1 hr
  refine ⟨h.stamped i r hslot, h.proper.rows_fit r.values ?_⟩
  exact Array.mem_map.2 ⟨some r, Array.mem_of_getElem? hslot, rfl⟩

/-! ## The same answers and the same bytes -/

theorem isUsed_toHeapPage (h : p.InStep) (i : Nat) : p.toHeapPage.isUsed i = p.isUsed i := by
  rw [h.isUsed_eq, HeapPage.isUsed, toHeapPage, Array.getElem?_map, recordAt]
  rcases p.slots[i]? with _ | _ | r <;> rfl

theorem recordAt_toHeapPage (h : p.InStep) (i : Nat) :
    p.toHeapPage.recordAt i = p.recordAt i := by
  rw [HeapPage.recordAt, toHeapPage, Array.getElem?_map, recordAt]
  rcases hslot : p.slots[i]? with _ | _ | r
  · rfl
  · rfl
  · obtain ⟨hschema, hplace⟩ := h.stamped i r hslot
    change some (Record.mk p.schema r.values (some _)) = some r
    rw [← hschema]
    change some (Record.mk r.schema r.values (some ⟨p.id, UInt16.ofNat i⟩)) = some r
    rw [← hplace]

theorem records_toHeapPage (h : p.InStep) : p.toHeapPage.records = p.records := by
  have hlist : p.slots.toList = (List.range p.slotCount).map fun i => p.recordAt i := by
    apply List.ext_getElem (by simp [slotCount])
    intro i hi _
    have hlt : i < p.slots.size := hi
    simp [recordAt, Array.getElem?_eq_getElem hlt]
  rw [HeapPage.records, slotCount_toHeapPage, records, hlist, List.filterMap_map]
  exact congrArg (List.filterMap · _) (funext h.recordAt_toHeapPage)

theorem slotBytes_toHeapPage (h : p.InStep) (hmem : content ∈ p.slots) :
    p.toHeapPage.slotBytes (valuesOf content) = p.slotBytes content := by
  cases content with
  | none => rfl
  | some r =>
    obtain ⟨i, hi, heq⟩ := Array.getElem_of_mem hmem
    obtain ⟨hschema, -⟩ := h.stamped i r (by rw [Array.getElem?_eq_getElem hi, heq])
    change (Record.mk p.schema r.values none).encode.getD (Bytes.zeros p.schema.width) =
      r.encode.getD (Bytes.zeros p.schema.width)
    rw [← hschema]
    rfl

theorem image_toHeapPage (h : p.InStep) : p.toHeapPage.image = p.image := by
  have hslots : p.toHeapPage.slots.toList.flatMap p.toHeapPage.slotBytes =
      p.slots.toList.flatMap p.slotBytes := by
    rw [toHeapPage, Array.toList_map, List.flatMap_map]
    exact List.flatMap_congr fun content hc => h.slotBytes_toHeapPage (by simpa using hc)
  rw [HeapPage.image, h.headerBits_eq, Bytes.packBits_unpackBits, hslots]
  rfl

/-! ## What is done to a page -/

/-- The number of a slot fits the two bytes that a place has for it. -/
theorem toNat_slot (h : p.InStep) (hslot : slot < p.slotCount) :
    (p.locate slot).slot.toNat = slot := by
  apply h.proper.toNat_slot
  rw [toHeapPage, Array.size_map]
  exact hslot

theorem toHeapPage_write (h : p.InStep) (hslot : slot < p.slotCount) (content : Option Record) :
    (p.write slot content).toHeapPage =
      p.toHeapPage.change ⟨p.locate slot, valuesOf content⟩ := by
  have hlt : slot < p.slots.size := hslot
  simp only [toHeapPage, BitmapPage.write, HeapPage.change, Change.apply, h.toNat_slot hslot,
    slotCount, Array.size_setIfInBounds, Array.map_setIfInBounds, Bytes.unpackBits_setBit]
  rw [List.drop_set_of_lt hlt]

/-- Whoever writes both stores of a slot keeps them in step. -/
theorem write (h : p.InStep) (hslot : slot < p.slotCount)
    (hcontent : ∀ r, content = some r →
      Stamped p.id p.schema slot r ∧ Record.RowFits p.schema.types r.values) :
    (p.write slot content).InStep := by
  have hlt : slot < p.slots.size := hslot
  constructor
  · rw [h.toHeapPage_write hslot]
    apply h.proper.change
    intro row hrow
    obtain ⟨r, hr, rfl⟩ := Option.map_eq_some_iff.1 hrow
    exact (hcontent r hr).2
  · simp only [BitmapPage.write, slotCount, Array.size_setIfInBounds, Array.toList_setIfInBounds,
      List.map_set, Bytes.unpackBits_setBit]
    rw [List.take_set, ← slotCount, h.bits]
  · intro i r hr
    by_cases hi : slot = i
    · subst hi
      rw [BitmapPage.write, Array.getElem?_setIfInBounds_self_of_lt hlt, Option.some.injEq] at hr
      exact (hcontent r hr).1
    · rw [BitmapPage.write, Array.getElem?_setIfInBounds_ne hi] at hr
      exact h.stamped i r hr

/-- A record is stored in the same slot, or refused for the same reason. -/
theorem insert_toHeapPage (h : p.InStep) (r : Record) :
    p.toHeapPage.insert r = (p.insert r).2.map fun place => ((p.insert r).1.toHeapPage, place) := by
  unfold HeapPage.insert
  rw [accepts_toHeapPage, findIdx?_toHeapPage]
  rcases insert_cases p r with ⟨hacc, he⟩ | ⟨hacc, hfind, he⟩ | ⟨hacc, slot, hfind, he⟩
  · rw [he, hacc]
    rfl
  · rw [he, hacc, hfind]
    rfl
  · have hslot : slot < p.slotCount := (Array.findIdx?_eq_some_iff_getElem.1 hfind).1
    rw [he, hacc, hfind]
    simp only [Except.map, h.toHeapPage_write hslot, HeapPage.change, Change.apply,
      h.toNat_slot hslot]
    rfl

/-- A record is taken out of the same slot, or this is refused for the same reason. -/
theorem delete_toHeapPage (h : p.InStep) (location : Option RecordId) :
    p.toHeapPage.delete location =
      (p.delete location).2.map fun _ => (p.delete location).1.toHeapPage := by
  cases location with
  | none => rfl
  | some place =>
    have hid : p.toHeapPage.id = p.id := rfl
    unfold HeapPage.delete
    simp only [hid, slotCount_toHeapPage, h.isUsed_toHeapPage]
    rcases delete_cases p place with ⟨hout, he⟩ | ⟨hpage, hslot, hused, he⟩ |
      ⟨hpage, hslot, hused, he⟩
    · rw [he, if_pos (by simpa using hout)]
      rfl
    · rw [he, if_neg (by simp [hpage, hslot]), hused]
      rfl
    · rw [he, if_neg (by simp [hpage, hslot]), hused]
      simp only [Except.map, h.toHeapPage_write hslot, HeapPage.change, Change.apply,
        h.toNat_slot hslot]
      rfl

theorem edit (h : p.InStep) (e : PageEdit) :
    (p.edit e).InStep ∧ (p.edit e).toHeapPage = p.toHeapPage.edit e := by
  cases e with
  | insert r whole =>
    constructor
    · simp only [BitmapPage.edit]
      rcases insert_cases p r with ⟨-, he⟩ | ⟨-, -, he⟩ | ⟨hacc, slot, hfind, he⟩ <;> rw [he]
      · exact h
      · exact h
      · apply h.write (Array.findIdx?_eq_some_iff_getElem.1 hfind).1
        intro stored hstored
        obtain ⟨hschema, hfits⟩ : r.schema = p.schema ∧ r.fits = true := by
          simpa [accepts] using hacc
        cases hstored
        refine ⟨⟨hschema, rfl⟩, ?_⟩
        rw [← hschema]
        exact (Record.rowFits_iff r).2 ⟨whole, hfits⟩
    · simp only [BitmapPage.edit, HeapPage.edit, h.insert_toHeapPage r]
      rcases insert_cases p r with ⟨-, he⟩ | ⟨-, -, he⟩ | ⟨-, slot, -, he⟩ <;> rw [he] <;> rfl
  | delete location =>
    constructor
    · cases location with
      | none => exact h
      | some place =>
        simp only [BitmapPage.edit]
        rcases delete_cases p place with ⟨-, he⟩ | ⟨-, -, -, he⟩ | ⟨-, hslot, -, he⟩ <;> rw [he]
        · exact h
        · exact h
        · exact h.write hslot fun _ hstored => by cases hstored
    · simp only [BitmapPage.edit, HeapPage.edit, h.delete_toHeapPage location]
      rcases hd : p.delete location with ⟨q, e | _⟩
      · rcases delete_error hd with rfl
        rfl
      · rfl
  | markDirty txn => exact ⟨⟨h.proper.markDirty txn, h.bits, h.stamped⟩, rfl⟩
  | markClean =>
    obtain ⟨hcount, hbits, hrows⟩ := h.proper
    exact ⟨⟨⟨hcount, hbits, hrows⟩, h.bits, h.stamped⟩, rfl⟩
  | snapshot =>
    obtain ⟨hcount, hbits, hrows⟩ := h.proper
    refine ⟨⟨⟨hcount, hbits, hrows⟩, h.bits, h.stamped⟩, ?_⟩
    simp only [BitmapPage.edit, HeapPage.edit, HeapPage.snapshot, h.image_toHeapPage]
    rfl

/-- However a page is edited, its stores stay in step, and it stays the page told by its
records with the same edits. -/
theorem edited (h : p.InStep) (edits : List PageEdit) :
    (p.edited edits).InStep ∧ (p.edited edits).toHeapPage = p.toHeapPage.edited edits := by
  induction edits generalizing p with
  | nil => exact ⟨h, rfl⟩
  | cons e rest ih =>
    obtain ⟨hstep, heq⟩ := h.edit e
    obtain ⟨hrest, hsame⟩ := ih hstep
    refine ⟨hrest, ?_⟩
    rw [heq] at hsame
    exact hsame

end InStep

/-! ## Pages that are read -/

theorem stamped_push {new : Option Record}
    (hread : ∀ i r, read[i]? = some (some r) → Stamped id schema i r)
    (hnew : ∀ r, new = some r → Stamped id schema read.size r) :
    ∀ i r, (read.push new)[i]? = some (some r) → Stamped id schema i r := by
  intro i r hr
  rw [Array.getElem?_push] at hr
  split at hr
  · rename_i hi
    subst hi
    exact hnew r (Option.some.inj hr)
  · exact hread i r hr

/-- What is read has all slots, and each record has its place. -/
theorem readSlots_ok {left : Nat} (hread : ∀ i r, read[i]? = some (some r) → Stamped id schema i r)
    (h : readSlots id schema bitmap body left read = .ok slots) :
    slots.size = read.size + left ∧
      ∀ i r, slots[i]? = some (some r) → Stamped id schema i r := by
  induction left generalizing read with
  | zero =>
    cases h
    exact ⟨rfl, hread⟩
  | succ left ih =>
    unfold readSlots at h
    dsimp only at h
    split at h
    · split at h
      · rename_i r hr
        have hschema : r.schema = schema := by
          obtain ⟨values, -, rfl⟩ := Option.map_eq_some_iff.1 hr
          rfl
        have hnew : ∀ q, some { r with location := some ⟨id, UInt16.ofNat read.size⟩ } = some q →
            Stamped id schema read.size q := by
          intro q hq
          rw [← Option.some.inj hq]
          exact ⟨hschema, rfl⟩
        obtain ⟨hsize, hstamped⟩ := ih (stamped_push hread hnew) h
        rw [Array.size_push] at hsize
        exact ⟨by omega, hstamped⟩
      · cases h
    · obtain ⟨hsize, hstamped⟩ := ih (stamped_push hread fun q hq => by cases hq) h
      rw [Array.size_push] at hsize
      exact ⟨by omega, hstamped⟩

/-- The slots are read as those of the page told by its records. -/
theorem readSlots_map {left : Nat} (hleft : read.size + left ≤ 8 * bitmap.length) :
    (readSlots id schema bitmap body left read).map (·.map valuesOf) =
      HeapPage.readSlots.go schema (((Bytes.unpackBits bitmap).drop read.size).take left)
        (body.drop (read.size * schema.width)) (read.map valuesOf) := by
  induction left generalizing read with
  | zero => rfl
  | succ left ih =>
    have hlt : read.size < (Bytes.unpackBits bitmap).length := by
      rw [Bytes.length_unpackBits]
      omega
    have hbit : (Bytes.unpackBits bitmap)[read.size] = bitmap.bit read.size := by
      have hget := @Bytes.unpackBits_getElem? bitmap read.size (by omega)
      rw [List.getElem?_eq_getElem hlt] at hget
      exact Option.some.inj hget
    have hrest : ∀ new : Option Record, (read.push new).size + left ≤ 8 * bitmap.length := by
      intro new
      rw [Array.size_push]
      omega
    have hdrop : ∀ new : Option Record, body.drop ((read.push new).size * schema.width) =
        (body.drop (read.size * schema.width)).drop schema.width := by
      intro new
      rw [Array.size_push, List.drop_drop, Nat.succ_mul]
    rw [List.drop_eq_getElem_cons hlt, List.take_succ_cons, hbit, readSlots]
    dsimp only
    rcases hb : bitmap.bit read.size with _ | _
    · rw [if_neg (by simp), ih (hrest none), hdrop]
      simp [HeapPage.readSlots.go, valuesOf]
    · rw [if_pos rfl, Record.decode]
      unfold HeapPage.readSlots.go HeapPage.readRow
      rcases Record.decodeFields schema.types ((body.drop (read.size * schema.width)).take
        schema.width) with ⟨_ | row, rest⟩
      · simp [Except.map]
      · simp only [Option.map_some]
        rw [ih (hrest _), hdrop]
        simp [valuesOf]

/-- The same bytes are read, as the page that its records tell, and the others are refused for the
same reason. -/
theorem ofImage_toHeapPage (id : PageId) (schema : Schema) (size : Nat) (data : Bytes) :
    (ofImage id schema size data).map toHeapPage = HeapPage.ofImage id schema size data := by
  unfold ofImage HeapPage.ofImage
  split
  · rfl
  · rename_i hlen
    have hlen : data.length = size := Decidable.not_not.1 hlen
    have hcount : (#[] : Array (Option Record)).size + Geometry.slots size schema.width ≤
        8 * (data.take (Geometry.header size schema.width)).length := by
      rw [HeapPage.length_header hlen, Array.size_empty, Nat.zero_add]
      exact Geometry.slots_le_header
    have hmap := @readSlots_map id schema _ (data.drop (Geometry.header size schema.width)) _ _ hcount
    simp only [Array.size_empty, List.drop_zero, Nat.zero_mul, Array.map_empty] at hmap
    dsimp only
    rw [HeapPage.readSlots, ← hmap]
    rcases hread : readSlots id schema (data.take (Geometry.header size schema.width))
      (data.drop (Geometry.header size schema.width)) (Geometry.slots size schema.width) #[]
      with slot | slots
    · rfl
    · obtain ⟨hsize, -⟩ := readSlots_ok (by simp) hread
      rw [Array.size_empty, Nat.zero_add] at hsize
      simp only [Except.map, toHeapPage, slotCount, hsize]

/-- A page and the page told by its records were the same before. -/
theorem beforeImage_toHeapPage (p : BitmapPage) :
    p.toHeapPage.beforeImage = p.beforeImage.map toHeapPage :=
  (ofImage_toHeapPage p.id p.schema p.size p.before).symm

/-- The parts of a page that was read: it is the page that its records tell, its bitmap is the
head of the bytes, and its records have their places. -/
theorem ofImage_parts (h : ofImage id schema size data = .ok p) :
    HeapPage.ofImage id schema size data = .ok p.toHeapPage ∧
      p.bitmap = data.take (Geometry.header size schema.width) ∧
      ∀ i r, p.slots[i]? = some (some r) → Stamped id schema i r := by
  have htold := ofImage_toHeapPage id schema size data
  rw [h] at htold
  refine ⟨htold.symm, ?_⟩
  unfold ofImage at h
  split at h
  · cases h
  · dsimp only at h
    split at h
    · cases h
    · rename_i slots hread
      cases h
      exact ⟨rfl, (readSlots_ok (by simp) hread).2⟩

/-- What is read from bytes has its stores in step. -/
theorem inStep_ofImage (h : ofImage id schema size data = .ok p) : p.InStep := by
  obtain ⟨hread, hbitmap, hstamped⟩ := ofImage_parts h
  obtain ⟨hproper, rfl, rfl, rfl⟩ := HeapPage.properAt_ofImage hread
  obtain ⟨hlen, -, hslots⟩ := HeapPage.ofImage_parts hread
  change data.length = p.size at hlen
  have hroom : ((Bytes.unpackBits (data.take (Geometry.header p.size p.schema.width))).take
      (Geometry.slots p.size p.schema.width)).length * p.schema.width ≤
        (data.drop (Geometry.header p.size p.schema.width)).length := by
    have hfit := @Geometry.header_add_slots_le p.size p.schema.width
    rw [HeapPage.length_slotBits hlen, List.length_drop, hlen]
    omega
  obtain ⟨new, hnew, hbits, -⟩ := @HeapPage.readSlots_go_inv p.toHeapPage _ _ _ _ hroom hslots
  have hcount : p.slotCount = Geometry.slots p.size p.schema.width := by
    rw [← slotCount_toHeapPage]
    exact hproper.slot_count
  refine ⟨hproper, ?_, hstamped⟩
  rw [hbitmap, hcount, ← isSome_toHeapPage, hnew, Array.empty_append, List.toList_toArray]
  exact hbits.symm

end BitmapPage

end PageCache
