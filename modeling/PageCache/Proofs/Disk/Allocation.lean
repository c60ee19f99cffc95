-- Appending a page to a disk, on any file and after any actions, also failed ones. As long as a
-- word of 32 bits can count the whole pages in the file and one more, the new page lies behind
-- all of them and they keep their bytes. When it can count no more, appending breaks off and the
-- count starts again at zero; and where there are more pages than it can count, appending clears
-- one of them.
import PageCache.Proofs.Disk.PageArray

namespace PageCache

namespace Disk

variable {d : Disk} {page : UInt32} {data : Bytes} {file : SparseFile} {size : Nat}

/-- The number of whole pages in the file, however many they are. -/
def wholePages (d : Disk) : Nat := d.file.length / d.pageSize

/-- The next page is appended behind the whole pages of the file, it is the last one counted,
and each page before it keeps its bytes. -/
def AllocatesFresh (d : Disk) : Prop :=
  ∃ page, d.allocate.2 = .ok page ∧ d.wholePages ≤ page.toNat ∧
    d.allocate.1.pageCount.toNat = page.toNat + 1 ∧
    ∀ k < d.wholePages, d.allocate.1.file.read (k * d.pageSize) d.pageSize =
      d.file.read (k * d.pageSize) d.pageSize

/-! ## One page written -/

theorem isCountable_iff : isCountable page = true ↔ page.toNat + 1 < UInt32.size := by
  rw [isCountable, decide_eq_true_eq]

theorem wholePages_put (hsize : 0 < d.pageSize) (hdata : data.length = d.pageSize) :
    (d.put page data).wholePages = max d.wholePages (page.toNat + 1) := by
  change max d.file.length (page.toNat * d.pageSize + data.length) / d.pageSize = _
  rw [hdata, max_succ_mul_div _ _ _ hsize]
  rfl

theorem wholePages_le_put (page : UInt32) (hsize : 0 < d.pageSize)
    (hdata : data.length = d.pageSize) : d.wholePages ≤ (d.put page data).wholePages := by
  rw [wholePages_put hsize hdata]
  exact Nat.le_max_left _ _

/-- The page that cannot be counted makes the file too long to be counted. -/
theorem size_le_wholePages_put (hsize : 0 < d.pageSize) (hdata : data.length = d.pageSize)
    (hlast : isCountable page ≠ true) : UInt32.size ≤ (d.put page data).wholePages := by
  rw [ne_eq, isCountable_iff, not_lt] at hlast
  rw [wholePages_put hsize hdata]
  exact hlast.trans (Nat.le_max_right _ _)

/-- The page behind the last one that can be counted is written, but the count starts again. -/
theorem allocate_of_not_countable (hhold : d.isHoldable = true)
    (hlast : isCountable d.pageCount ≠ true) :
    d.allocate = ({ d with pageCount := d.pageCount + 1 }.put d.pageCount
      (Bytes.zeros d.pageSize), .error .brokenOff) := by
  unfold allocate write
  simp only [hhold, hlast, Bytes.length_zeros, ne_eq, not_true_eq_false, if_false, if_true,
    Bool.false_eq_true]

/-- A page too large to be held is counted, but not written. -/
theorem allocate_of_not_holdable (hhold : d.isHoldable ≠ true) :
    d.allocate = ({ d with pageCount := d.pageCount + 1 }, .error .brokenOff) := by
  unfold allocate
  rw [if_neg hhold]

/-- A page is appended only if it can be held and counted, and it has the next number. -/
theorem admits_of_allocate_ok (h : d.allocate.2 = .ok page) :
    d.Admits .allocate ∧ page = d.pageCount := by
  by_cases hhold : d.isHoldable = true
  · by_cases hcount : isCountable d.pageCount = true
    · rw [allocate_of_admits ⟨hhold, hcount⟩] at h
      exact ⟨⟨hhold, hcount⟩, (Except.ok.inj h).symm⟩
    · rw [allocate_of_not_countable hhold hcount] at h
      cases h
  · rw [allocate_of_not_holdable hhold] at h
    cases h

/-- The bytes in front of a page stay when it is appended. -/
theorem read_grown_of_lt {k : Nat} (hk : k < d.pageCount.toNat) :
    d.grown.file.read (k * d.pageSize) d.pageSize =
      d.file.read (k * d.pageSize) d.pageSize := by
  apply SparseFile.read_write_of_disjoint
  left
  calc k * d.pageSize + d.pageSize = (k + 1) * d.pageSize := (Nat.succ_mul _ _).symm
    _ ≤ d.pageCount.toNat * d.pageSize := Nat.mul_le_mul_right _ hk

theorem allocate_clears (hhold : d.isHoldable = true) :
    d.allocate.1.pageBytes d.pageCount = Bytes.zeros d.pageSize := by
  by_cases hcount : isCountable d.pageCount = true
  · rw [allocate_of_admits ⟨hhold, hcount⟩]
    exact pageBytes_put_self (Bytes.length_zeros _)
  · rw [allocate_of_not_countable hhold hcount]
    exact pageBytes_put_self (Bytes.length_zeros _)

/-! ## The count -/

/-- The pages counted are the whole ones in the file, unless the file has too many of them. A
disk whose pages are too large to be held counts pages that it never writes. -/
structure Tallied (size : Nat) (d : Disk) : Prop where
  size_eq : d.pageSize = size
  pageSize_pos : 0 < d.pageSize
  counted : d.isHoldable = true → d.wholePages < UInt32.size → d.Counted

theorem open?_of_pos (hsize : 0 < size) :
    Disk.open? file size = some ⟨file, size, UInt32.ofNat (file.length / size), 0, 0⟩ :=
  if_neg (Nat.ne_of_gt hsize)

theorem tallied_opened (file : SparseFile) (hsize : 0 < size) :
    Tallied size ⟨file, size, UInt32.ofNat (file.length / size), 0, 0⟩ :=
  ⟨rfl, hsize, fun _ hfew => ⟨hsize, Nat.mod_eq_of_lt hfew⟩⟩

theorem Tallied.read (h : Tallied size d) (page : UInt32) :
    Tallied size (d.perform (.read page)).1 := by
  unfold perform
  simp only [read_eq]
  split
  · rename_i d' bytes hread
    split at hread
    · cases hread
      exact ⟨h.size_eq, h.pageSize_pos, fun hhold hfew =>
        ⟨h.pageSize_pos, (h.counted hhold hfew).count_eq⟩⟩
    · cases hread
  · exact h

theorem Tallied.write (h : Tallied size d) (page : UInt32) (data : Bytes) :
    Tallied size (d.write page data).1 := by
  unfold Disk.write
  split
  · exact h
  · rename_i hdata
    rw [ne_eq, not_not] at hdata
    split
    · rename_i hcount
      refine ⟨h.size_eq, h.pageSize_pos, fun hhold hfew => ?_⟩
      have hbefore : d.wholePages < UInt32.size :=
        (wholePages_le_put page h.pageSize_pos hdata).trans_lt hfew
      exact (h.counted hhold hbefore).written hdata hcount
    · rename_i hlast
      refine ⟨h.size_eq, h.pageSize_pos, fun _ hfew => ?_⟩
      exact absurd hfew (size_le_wholePages_put h.pageSize_pos hdata hlast).not_gt

theorem Tallied.allocate (h : Tallied size d) : Tallied size d.allocate.1 := by
  by_cases hhold : d.isHoldable = true
  · by_cases hcount : isCountable d.pageCount = true
    · rw [allocate_of_admits ⟨hhold, hcount⟩]
      refine ⟨h.size_eq, h.pageSize_pos, fun _ hfew => ?_⟩
      have hbefore : d.wholePages < UInt32.size :=
        (wholePages_le_put d.pageCount h.pageSize_pos (Bytes.length_zeros _)).trans_lt hfew
      exact (h.counted hhold hbefore).grown ⟨hhold, hcount⟩
    · rw [allocate_of_not_countable hhold hcount]
      refine ⟨h.size_eq, h.pageSize_pos, fun _ hfew => ?_⟩
      exact absurd hfew
        (size_le_wholePages_put h.pageSize_pos (Bytes.length_zeros _) hcount).not_gt
  · rw [allocate_of_not_holdable hhold]
    exact ⟨h.size_eq, h.pageSize_pos, fun hhold' _ => absurd hhold' hhold⟩

theorem Tallied.perform (h : Tallied size d) (a : DiskAction) : Tallied size (d.perform a).1 := by
  cases a with
  | read page => exact h.read page
  | write page data => exact h.write page data
  | allocate => exact h.allocate
  | reopen =>
    have hsize : 0 < size := h.size_eq ▸ h.pageSize_pos
    change Tallied size ((Disk.open? d.file d.pageSize).getD d)
    rw [h.size_eq, open?_of_pos hsize, Option.getD_some]
    exact tallied_opened d.file hsize

theorem Tallied.after (h : Tallied size d) (actions : List DiskAction) :
    Tallied size (d.after actions) := by
  induction actions generalizing d with
  | nil => exact h
  | cons a rest ih => exact ih (h.perform a)

/-! ## The next page -/

/-- The count is right as long as a word of 32 bits can hold it. -/
theorem Tallied.count_eq (h : Tallied size d) (hhold : d.isHoldable = true)
    (hfew : d.wholePages < UInt32.size) : d.pageCount.toNat = d.wholePages :=
  (h.counted hhold hfew).count_eq

theorem Tallied.allocatesFresh_iff (h : Tallied size d) :
    d.AllocatesFresh ↔ d.isHoldable = true ∧ d.wholePages + 1 < UInt32.size := by
  constructor
  · rintro ⟨page, hok, hbehind, -, -⟩
    obtain ⟨⟨hhold, hcount⟩, rfl⟩ := admits_of_allocate_ok hok
    rw [isCountable_iff] at hcount
    exact ⟨hhold, by omega⟩
  · rintro ⟨hhold, hroom⟩
    have hcount := h.count_eq hhold (by omega)
    have hadmits : d.Admits .allocate := ⟨hhold, isCountable_iff.2 (by omega)⟩
    unfold AllocatesFresh
    rw [allocate_of_admits hadmits]
    refine ⟨d.pageCount, rfl, hcount.ge, ?_, fun k hk => read_grown_of_lt (by omega)⟩
    change (max (d.pageCount + 1) (d.pageCount + 1)).toNat = d.pageCount.toNat + 1
    rw [toNat_max, max_self, toNat_succ hadmits.2]

/-- At the last page that can be counted, appending breaks off and forgets how many there are. -/
theorem Tallied.allocate_last (h : Tallied size d) (hhold : d.isHoldable = true)
    (hlast : d.wholePages + 1 = UInt32.size) :
    d.allocate.2 = .error .brokenOff ∧ d.allocate.1.pageCount = 0 := by
  have hcount := h.count_eq hhold (by omega)
  have hend : isCountable d.pageCount ≠ true := by
    rw [ne_eq, isCountable_iff]
    omega
  rw [allocate_of_not_countable hhold hend]
  refine ⟨rfl, ?_⟩
  apply UInt32.toNat_inj.1
  change (d.pageCount + 1).toNat = 0
  rw [UInt32.toNat_add, hcount]
  change (d.wholePages + 1) % UInt32.size = 0
  rw [hlast, Nat.mod_self]

/-- A disk on any file, after any actions: the next page is appended behind the pages of the
file if and only if a page can be held and a word of 32 bits counts the pages and one more. If
it just cannot, appending breaks off and the count is zero again; and if it counts too few, the
page that is cleared for the next one is a page of the file. -/
theorem allocation_fresh_iff (file : SparseFile) (size : Nat) (hsize : 0 < size) :
    ∃ d, Disk.open? file size = some d ∧ ∀ actions,
      let e := d.after actions
      (e.AllocatesFresh ↔ size ≤ Bytes.maxLength ∧ e.file.length / size + 1 < UInt32.size) ∧
      (size ≤ Bytes.maxLength → e.file.length / size + 1 = UInt32.size →
        e.allocate.2 = .error .brokenOff ∧ e.allocate.1.pageCount = 0) ∧
      (size ≤ Bytes.maxLength → UInt32.size ≤ e.file.length / size →
        e.pageCount.toNat < e.file.length / size ∧
          e.allocate.1.pageBytes e.pageCount = Bytes.zeros size) := by
  refine ⟨_, open?_of_pos hsize, fun actions => ?_⟩
  have h := (tallied_opened file hsize).after actions
  intro e
  have hpages : e.file.length / size = e.wholePages := by rw [wholePages, h.size_eq]
  have hhold : size ≤ Bytes.maxLength ↔ e.isHoldable = true := by
    rw [isHoldable, decide_eq_true_eq, h.size_eq]
  rw [hpages, hhold]
  refine ⟨h.allocatesFresh_iff, h.allocate_last, fun hhold hmany => ⟨?_, ?_⟩⟩
  · exact Nat.lt_of_lt_of_le e.pageCount.toNat_lt hmany
  · rw [allocate_clears hhold, h.size_eq]

/-- On the patched file of five pages and a half the next page is a new one. -/
theorem allocation_fresh_after_patching :
    0 < 2 ∧ ∃ d, Disk.open? (.ofBytes [1, 2, 3, 4, 5]) 2 = some d ∧
      (d.after patching).AllocatesFresh := by
  obtain ⟨d, hopen, hlaw⟩ := allocation_fresh_iff (.ofBytes [1, 2, 3, 4, 5]) 2 (by decide)
  obtain rfl : oddSized = d := Option.some.inj hopen
  exact ⟨by decide, oddSized, hopen, (hlaw patching).1.2 (by decide)⟩

/-- A file of four pages more than a word of 32 bits counts. Only two of its parts were ever
written, one of them early in the file. -/
def beyondWord : SparseFile :=
  (SparseFile.empty.write 4 [7, 0]).write (UInt32.size + 2) [0, 1]

/-- Opened with pages of one byte it counts four pages, and the first page appended is the
fifth, whose byte is lost. -/
theorem allocation_clears_live_page :
    ∃ d, Disk.open? beyondWord 1 = some d ∧ d.wholePages = UInt32.size + 4 ∧
      d.pageCount = 4 ∧ d.pageBytes 4 = [7] ∧ d.allocate.2 = .ok 4 ∧
      d.allocate.1.pageBytes 4 = [0] ∧ ¬ d.AllocatesFresh := by
  refine ⟨_, rfl, by decide, by decide, by decide, by decide, by decide, ?_⟩
  rintro ⟨page, hok, hbehind, -, -⟩
  obtain ⟨-, rfl⟩ := admits_of_allocate_ok hok
  exact absurd hbehind (by decide)

end Disk

end PageCache
