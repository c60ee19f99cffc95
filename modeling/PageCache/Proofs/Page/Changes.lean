-- What insertions and deletions do to the slots of a page: each fills one empty slot or
-- empties an occupied one, and leaves the rest of the page as it was.
import PageCache.Proofs.Page.Images

namespace PageCache

/-- A change of one slot: what stands there from now on, a row or nothing. -/
structure Change where
  place : RecordId
  row : Option Row
deriving DecidableEq

namespace Change

/-- The slots after a change. -/
def apply (slots : Array (Option Row)) (ch : Change) : Array (Option Row) :=
  slots.setIfInBounds ch.place.slot.toNat ch.row

@[simp] theorem size_apply (slots : Array (Option Row)) (ch : Change) :
    (ch.apply slots).size = slots.size := Array.size_setIfInBounds

end Change

namespace HeapPage

variable {p q : HeapPage} {r : Record} {place : RecordId} {i : Nat}

/-- The page after a change of one slot. -/
def change (p : HeapPage) (ch : Change) : HeapPage := { p with slots := ch.apply p.slots }

/-- What users know of a page. The spare bits, the mark and the snapshot are left out, which
are there for the file and the cache. -/
def bare (p : HeapPage) : HeapPage := { p with spare := [], dirty := none, before := [] }

@[simp] theorem bare_change (p : HeapPage) (ch : Change) :
    (p.change ch).bare = p.bare.change ch := rfl

@[simp] theorem bare_markDirty (p : HeapPage) (txn : TransactionId) :
    (p.markDirty txn).bare = p.bare := rfl

/-- The records of a page, with their places, are known from what users know of it. -/
theorem records_bare (p : HeapPage) : p.bare.records = p.records := rfl

/-- The number of a slot fits the two bytes that a place has for it. -/
theorem Proper.toNat_slot (h : p.Proper) {slot : Nat} (hlt : slot < p.slots.size) :
    (UInt16.ofNat slot).toNat = slot := by
  have hmax : p.slots.size ≤ Geometry.maxSlots := by
    rw [h.slot_count]
    exact Geometry.slots_le_maxSlots
  rw [UInt16.toNat_ofNat']
  exact Nat.mod_eq_of_lt (lt_of_lt_of_le hlt hmax)

/-- An insertion fills a slot of the page with the values of the record. -/
theorem insert_ok (h : p.Proper) (hi : p.insert r = .ok (q, place)) :
    q = p.change ⟨place, some r.values⟩ ∧ place.page = p.id ∧ r.schema = p.schema ∧
      r.fits = true := by
  unfold insert at hi
  split at hi
  · cases hi
  · rename_i hacc
    simp only [accepts, Bool.not_eq_true', Bool.not_eq_false, Bool.and_eq_true,
      decide_eq_true_eq] at hacc
    split at hi
    · cases hi
    · rename_i slot hfind
      cases hi
      have hlt : slot < p.slots.size := (Array.findIdx?_eq_some_iff_getElem.1 hfind).1
      refine ⟨?_, rfl, hacc⟩
      simp only [change, Change.apply, locate, h.toNat_slot hlt]

/-- The slot that an insertion fills is the first empty one. -/
theorem slot_of_insert (h : p.Proper) (hi : p.insert r = .ok (q, place)) :
    p.slots.findIdx? Option.isNone = some place.slot.toNat := by
  unfold insert at hi
  split at hi
  · cases hi
  · split at hi
    · cases hi
    · rename_i slot hfind
      cases hi
      have hlt : slot < p.slots.size := (Array.findIdx?_eq_some_iff_getElem.1 hfind).1
      rw [hfind, locate, h.toNat_slot hlt]

theorem isUsed_of_lt (hi : i < p.slots.size) : p.isUsed i = p.slots[i].isSome := by
  rw [isUsed, Array.getElem?_eq_getElem hi, Option.join_some]

/-- The slot that an insertion fills is empty, and those before it are used. -/
theorem slots_of_insert (h : p.Proper) (hi : p.insert r = .ok (q, place)) :
    place.slot.toNat < p.slotCount ∧ p.isUsed place.slot.toNat = false ∧
      ∀ i < place.slot.toNat, p.isUsed i = true := by
  obtain ⟨hlt, hnone, hbefore⟩ := Array.findIdx?_eq_some_iff_getElem.1 (slot_of_insert h hi)
  refine ⟨hlt, ?_, ?_⟩
  · rw [isUsed_of_lt hlt, Option.isNone_iff_eq_none.1 hnone, Option.isSome_none]
  · intro i hi
    rw [isUsed_of_lt (Nat.lt_trans hi hlt), Option.isSome_iff_ne_none]
    exact fun hempty => hbefore i hi (congrArg Option.isNone hempty)

theorem vacant_of_insert (h : p.Proper) (hi : p.insert r = .ok (q, place)) :
    p.slots[place.slot.toNat]? = some none := by
  obtain ⟨hlt, hnone, -⟩ := Array.findIdx?_eq_some_iff_getElem.1 (slot_of_insert h hi)
  rw [Array.getElem?_eq_getElem hlt]
  exact congrArg some (Option.isNone_iff_eq_none.1 hnone)

theorem insert_of_full (hacc : p.accepts r = true) (hfull : p.freeCount = 0) :
    p.insert r = .error (.pageFull p.id) := by
  have hnone : p.slots.findIdx? Option.isNone = none := by
    rw [Array.findIdx?_eq_none_iff]
    intro slot hslot
    simpa [Option.isSome_iff_ne_none] using Array.countP_eq_zero.1 hfull slot hslot
  rw [insert, hacc, hnone]
  rfl

theorem insert_of_free (hacc : p.accepts r = true) (hfree : p.freeCount ≠ 0) :
    ∃ q place, p.insert r = .ok (q, place) := by
  rw [insert, hacc]
  rcases hfind : p.slots.findIdx? Option.isNone with _ | slot
  · refine absurd (Array.countP_eq_zero.2 fun slot hslot => ?_) hfree
    simpa [Option.isSome_iff_ne_none] using Array.findIdx?_eq_none_iff.1 hfind slot hslot
  · exact ⟨_, _, rfl⟩

/-- A deletion empties the slot at its place. -/
theorem delete_ok {location : Option RecordId} (hd : p.delete location = .ok q) :
    ∃ place, location = some place ∧ q = p.change ⟨place, none⟩ ∧ place.page = p.id := by
  unfold delete at hd
  split at hd
  · cases hd
  · rename_i place
    simp only at hd
    split at hd
    · cases hd
    · rename_i hpage
      simp only [ne_eq, Bool.or_eq_true, decide_eq_true_eq, not_or, Decidable.not_not] at hpage
      split at hd
      · cases hd
      · cases hd
        exact ⟨place, rfl, rfl, hpage.1⟩

/-- A record is taken out, or its place is not on the page, or there is nothing there. -/
theorem delete_cases (p : HeapPage) (place : RecordId) :
    ((place.page ≠ p.id ∨ p.slotCount ≤ place.slot.toNat) ∧
      p.delete (some place) = .error (.notOnPage place p.id)) ∨
    ((place.page = p.id ∧ place.slot.toNat < p.slotCount) ∧ p.isUsed place.slot.toNat = false ∧
      p.delete (some place) = .error (.slotEmpty p.id place.slot)) ∨
    ((place.page = p.id ∧ place.slot.toNat < p.slotCount) ∧ p.isUsed place.slot.toNat = true ∧
      p.delete (some place) = .ok (p.change ⟨place, none⟩)) := by
  unfold delete
  dsimp only
  split
  · rename_i hout
    exact .inl ⟨by simpa using hout, rfl⟩
  · rename_i hin
    have hplace : place.page = p.id ∧ place.slot.toNat < p.slotCount := by simpa using hin
    split
    · rename_i hused
      exact .inr (.inl ⟨hplace, by simpa using hused, rfl⟩)
    · rename_i hused
      exact .inr (.inr ⟨hplace, by simpa using hused, rfl⟩)

theorem delete_ok_iff : (∃ q, p.delete (some place) = .ok q) ↔
    place.page = p.id ∧ place.slot.toNat < p.slotCount ∧ p.isUsed place.slot.toNat = true := by
  rcases delete_cases p place with ⟨hout, he⟩ | ⟨⟨hpage, hlt⟩, hused, he⟩ |
    ⟨⟨hpage, hlt⟩, hused, he⟩
  · have hnot : ¬ (place.page = p.id ∧ place.slot.toNat < p.slotCount) := by
      rintro ⟨hpage, hlt⟩
      exact hout.elim (· hpage) (by omega)
    simp [he, ← and_assoc, hnot]
  · simp [he, hused]
  · simp [he, hpage, hlt, hused]

theorem Proper.change (h : p.Proper) (ch : Change)
    (hrow : ∀ row, ch.row = some row → Record.RowFits p.schema.types row) :
    (p.change ch).Proper where
  slot_count := (Change.size_apply _ _).trans h.slot_count
  bit_count := (congrArg (· + p.spare.length) (Change.size_apply _ _)).trans h.bit_count
  rows_fit row hr := by
    rcases Array.mem_or_eq_of_mem_setIfInBounds hr with hr | hr
    · exact h.rows_fit row hr
    · exact hrow row hr.symm

/-! ## Changes one after the other -/

theorem foldl_change_same (changes : List Change) (p : HeapPage) :
    (changes.foldl change p).id = p.id ∧ (changes.foldl change p).schema = p.schema ∧
      (changes.foldl change p).slotCount = p.slotCount := by
  induction changes generalizing p with
  | nil => exact ⟨rfl, rfl, rfl⟩
  | cons ch rest ih =>
    obtain ⟨hid, hschema, hcount⟩ := ih (p.change ch)
    exact ⟨hid, hschema, hcount.trans (Change.size_apply _ _)⟩

/-- Of some changes, the last one of a slot decides what stands there. -/
theorem slots_foldl_change (changes : List Change) (p : HeapPage) (i : Nat) :
    (changes.foldl change p).slots[i]? = p.slots[i]?.map fun old =>
      (changes.filter (·.place.slot.toNat = i)).getLast?.elim old Change.row := by
  induction changes generalizing p with
  | nil => simp
  | cons ch rest ih =>
    rw [List.foldl_cons, ih, HeapPage.change, Change.apply]
    by_cases hi : ch.place.slot.toNat = i
    · subst hi
      rw [Array.getElem?_setIfInBounds_self, List.filter_cons_of_pos (by simp), List.getLast?_cons]
      rcases hlast : (rest.filter (·.place.slot.toNat = ch.place.slot.toNat)).getLast? with _ | last <;>
        rcases Nat.lt_or_ge ch.place.slot.toNat p.slots.size with hlt | hge <;> simp [*]
    · rw [Array.getElem?_setIfInBounds_ne hi, List.filter_cons_of_neg (by simpa using hi)]

theorem Proper.markDirty (h : p.Proper) (txn : TransactionId) : (p.markDirty txn).Proper :=
  ⟨h.slot_count, h.bit_count, h.rows_fit⟩

end HeapPage

end PageCache
