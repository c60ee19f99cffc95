-- How many slots a page has room for. The number of slots comes from counting bits, without
-- rounding the header up to whole bytes; it is still the largest for which the rounded header
-- and the slots fit. So whatever is looked up in the bytes of a page is there, its records and
-- their bits leave room for the padding, and each slot has a number of its own.
import PageCache.Proofs.Page.Bounds
import Mathlib.Order.Bounds.Basic

namespace PageCache

/-! ## The number of slots -/

namespace Geometry

variable {pageSize width n : Nat}

/-- So many slots, and the whole bytes that hold their bits, fit into a page, and there are
numbers for all of them. -/
def HasRoom (pageSize width n : Nat) : Prop :=
  n ≤ maxSlots ∧ (n + 7) / 8 + n * width ≤ pageSize

/-- Rounding the header up to bytes costs no slot: the slots are whole bytes, so what the bits
leave of the last byte of the header is of no use to them. -/
theorem hasRoom_iff : HasRoom pageSize width n ↔ n ≤ slots pageSize width := by
  have hbits : n * (width * 8 + 1) = 8 * (n * width) + n := by ring
  unfold HasRoom slots
  rw [Nat.le_min, Nat.le_div_iff_mul_le (Nat.succ_pos _), hbits, and_comm]
  apply and_congr_left'
  constructor <;> intro hfit <;> omega

/-- The number of slots is the largest for which there is room. -/
theorem isGreatest_slots : IsGreatest {n | HasRoom pageSize width n} (slots pageSize width) :=
  ⟨hasRoom_iff.2 (le_refl _), fun _ hn => hasRoom_iff.1 hn⟩

/-- The bit of a slot is in the header. -/
theorem div_lt_header (h : n < slots pageSize width) : n / 8 < header pageSize width := by
  unfold header
  omega

theorem measure?_of_lt (hpage : pageSize * 8 < UInt64.size) (hwidth : width * 8 < UInt64.size) :
    measure? pageSize width = some (slots pageSize width, header pageSize width) := by
  rw [measure?, if_pos ⟨hpage, hwidth⟩]

end Geometry

/-! ## Pages -/

namespace HeapPage

variable {p : HeapPage}

/-- The bytes of a page, with a look at the length of the padding. There is nothing where header
and slots are longer than the page. -/
def imageChecked (p : HeapPage) : Option Bytes :=
  let used := Bytes.packBits p.headerBits ++ p.slots.toList.flatMap p.slotBytes
  if used.length ≤ p.size then some (used ++ Bytes.zeros (p.size - used.length)) else none

theorem imageChecked_eq (h : p.Proper) : p.imageChecked = some p.image :=
  if_pos (length_used_le h)

end HeapPage

/-! ## The law -/

namespace Geometry

variable {pageSize width : Nat}

/-- As long as the bits of a page and of a record are counted in words, a page has the largest
number of slots for which there is room. Then the bit and the bytes of each slot are within the
page, and its number is one of 16 bits. A page of this size that is read is read within its
bytes; however it is edited afterwards, it keeps its slots, it is written with the padding that
is left, and each slot is told by its place. -/
theorem slots_fill_page (hpage : pageSize * 8 < UInt64.size) (hwidth : width * 8 < UInt64.size) :
    ∃ slots header, measure? pageSize width = some (slots, header) ∧
      IsGreatest {n | HasRoom pageSize width n} slots ∧
      header = (slots + 7) / 8 ∧ header + slots * width ≤ pageSize ∧
      (∀ slot < slots, slot / 8 < header ∧ header + slot * width + width ≤ pageSize ∧
        slot < UInt16.size) ∧
      ∀ (id : PageId) (schema : Schema) (data : Bytes), schema.width = width →
        HeapPage.ofImageChecked id schema pageSize data =
          some (HeapPage.ofImage id schema pageSize data) ∧
        ∀ p, HeapPage.ofImage id schema pageSize data = .ok p → ∀ edits,
          (p.edited edits).slotCount = slots ∧
          (p.edited edits).imageChecked = some (p.edited edits).image ∧
          ∀ slot < slots, ((p.edited edits).locate slot).slot.toNat = slot := by
  refine ⟨_, _, measure?_of_lt hpage hwidth, isGreatest_slots, rfl, header_add_slots_le, ?_, ?_⟩
  · intro slot hslot
    exact ⟨div_lt_header hslot, slot_fits hslot, lt_of_lt_of_le hslot slots_le_maxSlots⟩
  · rintro id schema data rfl
    refine ⟨HeapPage.ofImageChecked_eq id schema pageSize data, fun p hread edits => ?_⟩
    have h := (HeapPage.properAt_ofImage hread).edited edits
    have hcount : (p.edited edits).slotCount = slots pageSize schema.width := by
      rw [HeapPage.slotCount, h.proper.slot_count, h.size_eq, h.schema_eq]
    refine ⟨hcount, HeapPage.imageChecked_eq h.proper, fun slot hslot => ?_⟩
    rw [← hcount] at hslot
    exact h.proper.toNat_slot hslot

/-- Pages with room for more slots than there are numbers, and pages of four bytes with three
truth values. -/
theorem slots_fill_page_of_flags :
    100000 * 8 < UInt64.size ∧ 4 * 8 < UInt64.size ∧ 1 * 8 < UInt64.size ∧
      IsGreatest {n | HasRoom 100000 1 n} 65536 ∧ IsGreatest {n | HasRoom 4 1 n} 3 ∧
      (HeapPage.threeFlags.edited HeapPage.flagEdits).imageChecked = some [0xf2, 0, 1, 0] := by
  have hread : HeapPage.ofImage HeapPage.threeFlags.id HeapPage.threeFlags.schema 4
      [0xf1, 7, 9, 9] = .ok HeapPage.threeFlags := by decide +kernel
  have hwritten : (HeapPage.threeFlags.edited HeapPage.flagEdits).image = [0xf2, 0, 1, 0] := by
    decide +kernel
  have hlarge : 100000 * 8 < UInt64.size := by decide
  have hsmall : 4 * 8 < UInt64.size := by decide
  have hflag : 1 * 8 < UInt64.size := by decide
  obtain ⟨slots, _, hslots, hmost, -⟩ := slots_fill_page hlarge hflag
  obtain ⟨few, _, hfew, hthree, -, -, -, hpages⟩ := slots_fill_page hsmall hflag
  have hsame : measure? 100000 1 = some (65536, 8192) := by decide
  cases hsame.symm.trans hslots
  have hsame : measure? 4 1 = some (3, 1) := by decide
  cases hsame.symm.trans hfew
  obtain ⟨-, hedited⟩ := hpages HeapPage.threeFlags.id HeapPage.threeFlags.schema _ (by decide)
  obtain ⟨-, hchecked, -⟩ := hedited _ hread HeapPage.flagEdits
  exact ⟨hlarge, hsmall, hflag, hmost, hthree, hchecked.trans (by rw [hwritten])⟩

/-- For records so wide that their bits are not counted in a word there is no answer, although
there is a largest number of slots, none. -/
theorem widest_records_not_measured :
    100 * 8 < UInt64.size ∧ measure? 100 2305843009213693952 = none ∧
      IsGreatest {n | HasRoom 100 2305843009213693952 n} 0 := by
  refine ⟨by decide, by decide, ?_, ?_⟩
  · exact ⟨by decide, by decide⟩
  · rintro n ⟨-, hfit⟩
    omega

end Geometry

end PageCache
