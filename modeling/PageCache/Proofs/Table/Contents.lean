-- What the file of a table holds: for each of its pages the heap page that its bytes stand
-- for, and blank pages behind them. Reading and appending change nothing of it, and writing
-- changes one page.
import PageCache.Proofs.Disk.Pieces
import PageCache.Proofs.Page.Images
import PageCache.Table.TableFile
import Mathlib.Tactic.SplitIfs

namespace PageCache

namespace Disk

/-- Why the system cannot read a page. -/
def readFailure (d : Disk) (page : UInt32) : StoreError :=
  if d.isHoldable = true ∧ d.offset page < UInt64.size then unreachable else .brokenOff

theorem read_eq (d : Disk) (page : UInt32) :
    d.read page =
      if d.isHoldable = true ∧ d.offset page < UInt64.size / 2 then
        .ok ({ d with reads := d.reads + 1 }, d.pageBytes page)
      else .error (d.readFailure page) := by
  unfold read readInto readFailure
  by_cases hhold : d.isHoldable = true
  · by_cases hword : d.offset page ≥ UInt64.size
    · rw [if_pos (Or.inr (Or.inr hword)), if_neg (by omega), if_neg (by omega)]
    · rw [if_neg (by simp only [hhold]; simpa using hword)]
      split
      · rw [if_neg (by omega), if_pos ⟨hhold, by omega⟩]
      · rw [if_pos ⟨hhold, by omega⟩]
  · rw [if_pos (Or.inr (Or.inl (by simpa using hhold))), if_neg (by simp [hhold]),
      if_neg (by simp [hhold])]

variable {d : Disk} {n m : UInt32} {data : Bytes}

theorem pageBytes_put_self (h : data.length = d.pageSize) :
    (d.put n data).pageBytes n = data := by
  unfold pageBytes put offset
  rw [← h]
  exact SparseFile.read_write_self d.file _ data

/-- Pages do not overlap, so a write to one leaves the others as they are. -/
theorem pageBytes_put_of_ne (h : data.length = d.pageSize) (hne : m ≠ n) :
    (d.put n data).pageBytes m = d.pageBytes m := by
  apply SparseFile.read_write_of_disjoint
  have hnat : m.toNat ≠ n.toNat := fun heq => hne (UInt32.toNat_inj.1 heq)
  simp only [offset, h]
  rcases Nat.lt_or_gt_of_ne hnat with hlt | hlt
  · left
    calc m.toNat * d.pageSize + d.pageSize = (m.toNat + 1) * d.pageSize := (Nat.succ_mul _ _).symm
      _ ≤ n.toNat * d.pageSize := Nat.mul_le_mul_right _ hlt
  · right
    calc n.toNat * d.pageSize + d.pageSize = (n.toNat + 1) * d.pageSize := (Nat.succ_mul _ _).symm
      _ ≤ m.toNat * d.pageSize := Nat.mul_le_mul_right _ hlt

end Disk

namespace TableFile

variable {f g : TableFile} {page : PageId} {p : HeapPage}

/-- The heap page that the bytes of a page stand for, if they can be decoded. A page that the
table does not have yet counts as blank. -/
def stored (f : TableFile) (page : PageId) : Option HeapPage :=
  if page.number < f.pageCount then
    (HeapPage.ofImage page f.schema f.disk.pageSize (f.disk.pageBytes page.number)).toOption
  else some (HeapPage.blank page f.schema f.disk.pageSize)

/-- The page is one of the table's, and the system can read it. -/
structure Reaches (f : TableFile) (page : PageId) : Prop where
  in_range : page.number < f.pageCount
  holdable : f.disk.isHoldable = true
  readable : f.disk.offset page.number < UInt64.size / 2

/-- The file but for the number of its reads. -/
def withoutReads (f : TableFile) : TableFile := { f with disk := { f.disk with reads := 0 } }

/-- What is stored is read from some bytes, those of its snapshot. -/
theorem exists_bytes_of_stored (h : f.stored page = some p) :
    ∃ data, HeapPage.ofImage page f.schema f.disk.pageSize data = .ok p := by
  unfold stored at h
  split at h
  · rcases hread : HeapPage.ofImage page f.schema f.disk.pageSize
      (f.disk.pageBytes page.number) with e | q
    · rw [hread] at h
      cases h
    · rw [hread] at h
      cases h
      exact ⟨_, hread⟩
  · cases h
    exact ⟨_, HeapPage.ofImage_zeros page f.schema f.disk.pageSize⟩

/-- What is stored is a proper page of the table, and clean. -/
theorem stored_proper (h : f.stored page = some p) :
    p.Proper ∧ p.id = page ∧ p.schema = f.schema ∧ p.size = f.disk.pageSize ∧ p.dirty = none := by
  obtain ⟨data, hread⟩ := exists_bytes_of_stored h
  obtain ⟨hproper, hid, hschema, hsize, hdirty, -⟩ := HeapPage.ofImage_ok hread
  exact ⟨hproper, hid, hschema, hsize, hdirty⟩

/-- What is stored is what it was before. -/
theorem beforeImage_of_stored (h : f.stored page = some p) : p.beforeImage = .ok p := by
  obtain ⟨data, hread⟩ := exists_bytes_of_stored h
  obtain ⟨-, hid, hschema, hsize, -, hbefore⟩ := HeapPage.ofImage_ok hread
  rw [HeapPage.beforeImage, hid, hschema, hsize, hbefore, hread]

/-! ## Reading -/

/-- A page of the table is read if the system can read it. -/
theorem read_eq (f : TableFile) (page : PageId) :
    f.read page = match f.check page with
      | .error e => (f, .error e)
      | .ok () =>
        if f.disk.isHoldable = true ∧ f.disk.offset page.number < UInt64.size / 2 then
          ({ f with disk := { f.disk with reads := f.disk.reads + 1 } },
            HeapPage.ofImage page f.schema f.disk.pageSize (f.disk.pageBytes page.number))
        else (f, .error (RequestQueue.seen (f.disk.readFailure page.number))) := by
  unfold read
  rcases f.check page with e | _
  · rfl
  · simp only [Disk.read_eq]
    split_ifs <;> rfl

/-- Reading a page changes nothing but the number of reads. -/
theorem withoutReads_read (f : TableFile) (page : PageId) :
    (f.read page).1.withoutReads = f.withoutReads := by
  rw [read_eq]
  split
  · rfl
  · split <;> rfl

/-- What a read gives does not depend on the number of reads before. -/
theorem read_withoutReads (f : TableFile) (page : PageId) :
    (f.withoutReads.read page).2 = (f.read page).2 := by
  have hcheck : f.withoutReads.check page = f.check page := rfl
  rw [read_eq, read_eq, hcheck]
  split
  · rfl
  · simp only [apply_ite Prod.snd]
    rfl

theorem read_ok (h : (f.read page).2 = .ok p) :
    page.table = f.table ∧ f.stored page = some p ∧ f.Reaches page := by
  rw [read_eq] at h
  split at h
  · cases h
  · rename_i hcheck
    unfold check at hcheck
    split at hcheck
    · cases hcheck
    · rename_i htable
      split at hcheck
      · cases hcheck
      · rename_i hrange
        split at h
        · rename_i hcan
          simp only [ge_iff_le, UInt32.not_le] at hrange
          refine ⟨by simpa using htable, ?_, hrange, hcan.1, hcan.2⟩
          rw [stored, if_pos hrange]
          simp only at h
          rw [h]
          rfl
        · cases h

/-- A page that is stored is read, if the system can read it. -/
theorem read_of_stored (htable : page.table = f.table) (h : f.stored page = some p)
    (hreach : f.Reaches page) : (f.read page).2 = .ok p := by
  have hcheck : f.check page = .ok () := by
    rw [check, if_neg (by simpa using htable), if_neg (by simpa using hreach.in_range)]
  rw [read_eq, hcheck]
  rw [stored, if_pos hreach.in_range] at h
  simp only [if_pos (And.intro hreach.holdable hreach.readable)]
  rcases hread : HeapPage.ofImage page f.schema f.disk.pageSize
    (f.disk.pageBytes page.number) with e | q
  · rw [hread] at h
    cases h
  · rw [hread] at h
    cases h
    rfl

/-- The bytes of a page that is stored can be read, and stand for what is stored. -/
theorem bytes_of_stored (h : f.stored page = some p) (hreach : f.Reaches page) :
    f.disk.read page.number = .ok ({ f.disk with reads := f.disk.reads + 1 }, p.before) ∧
      HeapPage.ofImage page f.schema f.disk.pageSize p.before = .ok p := by
  rw [stored, if_pos hreach.in_range] at h
  rcases hdata : HeapPage.ofImage page f.schema f.disk.pageSize
    (f.disk.pageBytes page.number) with e | q
  · rw [hdata] at h
    cases h
  · rw [hdata] at h
    cases h
    obtain ⟨-, -, -, -, -, hbefore⟩ := HeapPage.ofImage_ok hdata
    rw [hbefore, Disk.read_eq, if_pos ⟨hreach.holdable, hreach.readable⟩]
    exact ⟨rfl, hdata⟩

/-! ## Writing and appending -/

/-- The file after a page of it was written. -/
def wrote (f : TableFile) (p : HeapPage) : TableFile :=
  { f with disk := (f.disk.put p.id.number p.image).count p.id.number }

/-- The file with one more page, which is blank. -/
def grown (f : TableFile) : TableFile :=
  let last := f.disk.pageCount
  let counted := { f.disk with pageCount := last + 1 }
  { f with disk := (counted.put last (Bytes.zeros f.disk.pageSize)).count last }

/-- One more page can be counted and held. -/
def HasRoom (f : TableFile) : Prop :=
  f.disk.isHoldable = true ∧ f.disk.pageCount.toNat + 1 < UInt32.size

instance (f : TableFile) : Decidable f.HasRoom :=
  inferInstanceAs (Decidable (f.disk.isHoldable = true ∧ f.disk.pageCount.toNat + 1 < UInt32.size))

theorem toNat_succ_of_lt {n m : UInt32} (h : n < m) : (n + 1).toNat = n.toNat + 1 := by
  rw [UInt32.lt_iff_toNat_lt] at h
  have hmax := m.toNat_lt
  rw [UInt32.toNat_add]
  exact Nat.mod_eq_of_lt (by simp only [UInt32.toNat_one]; omega)

/-- A page of the table is written: its number can be counted, for it was counted before. -/
theorem write_eq (hp : p.Proper) (hsize : p.size = f.disk.pageSize) (htable : p.id.table = f.table)
    (hlt : p.id.number < f.pageCount) : f.write p = .ok (f.wrote p) := by
  have hcheck : f.check p.id = .ok () := by
    rw [check, if_neg (by simpa using htable), if_neg (by simpa using hlt)]
  have hlen : p.image.length = f.disk.pageSize := (HeapPage.length_image hp).trans hsize
  have hcount : Disk.isCountable p.id.number = true := by
    rw [UInt32.lt_iff_toNat_lt] at hlt
    have := f.pageCount.toNat_lt
    simp only [Disk.isCountable, UInt32.size, decide_eq_true_eq]
    omega
  unfold write Disk.write
  rw [hcheck]
  simp only
  rw [if_neg (by simpa using hlen), if_pos hcount]
  rfl

theorem pageCount_wrote (hlt : p.id.number < f.pageCount) :
    (f.wrote p).pageCount = f.pageCount := by
  have hsucc := toNat_succ_of_lt hlt
  rw [UInt32.lt_iff_toNat_lt] at hlt
  change (if f.pageCount ≤ p.id.number + 1 then p.id.number + 1 else f.pageCount) = f.pageCount
  split
  · rename_i hle
    rw [UInt32.le_iff_toNat_le] at hle
    exact UInt32.toNat_inj.1 (by omega)
  · rfl

/-- After a write the page holds what was written, and the others hold what they held. -/
theorem stored_wrote (hp : p.Proper) (hschema : p.schema = f.schema)
    (hsize : p.size = f.disk.pageSize) (htable : p.id.table = f.table)
    (hlt : p.id.number < f.pageCount) (hpage : page.table = f.table) :
    (f.wrote p).stored page = if page = p.id then some p.markClean.snapshot else f.stored page := by
  have hlen : p.image.length = f.disk.pageSize := (HeapPage.length_image hp).trans hsize
  unfold stored
  rw [pageCount_wrote hlt]
  by_cases heq : page = p.id
  · subst heq
    have hbytes : (f.wrote p).disk.pageBytes p.id.number = p.image := Disk.pageBytes_put_self hlen
    rw [if_pos hlt, if_pos rfl, hbytes]
    change (HeapPage.ofImage p.id f.schema f.disk.pageSize p.image).toOption = _
    rw [← hschema, ← hsize, HeapPage.ofImage_image hp]
    rfl
  · have hne : page.number ≠ p.id.number := by
      intro hnum
      apply heq
      rcases page with ⟨t, n⟩
      rcases hid : p.id with ⟨u, m⟩
      simp_all
    have hbytes : (f.wrote p).disk.pageBytes page.number = f.disk.pageBytes page.number :=
      Disk.pageBytes_put_of_ne hlen hne
    rw [if_neg heq, hbytes]
    rfl

theorem allocate_eq (h : f.HasRoom) : f.allocate = (f.grown, .ok (f.pageId f.pageCount)) := by
  have hcount : Disk.isCountable f.disk.pageCount = true := by
    simp only [Disk.isCountable, UInt32.size, decide_eq_true_eq]
    exact h.2
  unfold allocate Disk.allocate Disk.write
  rw [if_pos h.1]
  simp only [Bytes.length_zeros, ne_eq, not_true_eq_false, if_false, hcount, if_true]
  rfl

theorem pageCount_grown : f.grown.pageCount = f.pageCount + 1 := by
  change (if f.pageCount + 1 ≤ f.pageCount + 1 then f.pageCount + 1 else f.pageCount + 1) = _
  exact ite_self _

/-- What the pages hold, and the blank ones behind them, stays the same. -/
theorem stored_grown (h : f.HasRoom) (page : PageId) : f.grown.stored page = f.stored page := by
  have hsucc : (f.pageCount + 1).toNat = f.pageCount.toNat + 1 := by
    rw [UInt32.toNat_add]
    exact Nat.mod_eq_of_lt h.2
  unfold stored
  simp only [pageCount_grown, UInt32.lt_iff_toNat_lt, hsucc]
  by_cases heq : page.number = f.pageCount
  · have hbytes : f.grown.disk.pageBytes page.number = Bytes.zeros f.disk.pageSize := by
      rw [heq]
      exact Disk.pageBytes_put_self (by simp)
    have hnum : page.number.toNat = f.pageCount.toNat := congrArg UInt32.toNat heq
    rw [if_pos (by omega), if_neg (by omega), hbytes]
    change (HeapPage.ofImage page f.schema f.disk.pageSize _).toOption = _
    rw [HeapPage.ofImage_zeros]
    rfl
  · have hbytes : f.grown.disk.pageBytes page.number = f.disk.pageBytes page.number :=
      Disk.pageBytes_put_of_ne (by simp) heq
    have hnum : page.number.toNat ≠ f.pageCount.toNat := fun h => heq (UInt32.toNat_inj.1 h)
    rw [hbytes]
    split
    · rw [if_pos (by omega)]
      rfl
    · rw [if_neg (by omega)]
      rfl

/-! ## Files that differ in the number of reads only -/

section Alike

variable (h : f.withoutReads = g.withoutReads)
include h

theorem table_eq_of_alike : f.table = g.table := by
  have htable := congrArg table h
  exact htable

theorem schema_eq_of_alike : f.schema = g.schema := by
  have hschema := congrArg schema h
  exact hschema

theorem pageCount_eq_of_alike : f.pageCount = g.pageCount := by
  have hcount := congrArg pageCount h
  exact hcount

theorem stored_eq_of_alike (page : PageId) : f.stored page = g.stored page := by
  have hstored := congrArg (stored · page) h
  exact hstored

theorem wrote_alike (p : HeapPage) : (f.wrote p).withoutReads = (g.wrote p).withoutReads := by
  have hwrote := congrArg (fun x => (wrote x p).withoutReads) h
  exact hwrote

theorem grown_alike : f.grown.withoutReads = g.grown.withoutReads := by
  have hgrown := congrArg (fun x => (grown x).withoutReads) h
  exact hgrown

theorem read_eq_of_alike (page : PageId) : (f.read page).2 = (g.read page).2 := by
  rw [← read_withoutReads, h, read_withoutReads]

end Alike

end TableFile

end PageCache
