-- A disk is an array of pages. Whatever the file held when it was opened, and whatever was
-- read, written, appended and opened again since, the number of pages is the length of the file
-- divided by the page size, and each page reads as the bytes that it was given last, or as the
-- bytes of the old file in its place.
import PageCache.Proofs.Along
import PageCache.Proofs.Table.Contents

namespace PageCache

/-- What can be done with a disk. -/
inductive DiskAction where
  | read (page : UInt32)
  | write (page : UInt32) (data : Bytes)
  | allocate
  /-- The file is closed and opened again with the same page size. -/
  | reopen
deriving DecidableEq

/-- The answer to an action. -/
inductive DiskReport where
  | bytes (result : Except StoreError Bytes)
  | done (result : Except StoreError Unit)
  | page (result : Except StoreError UInt32)
  | reopened

namespace Disk

/-- The disk after an action, and the answer. -/
def perform (d : Disk) : DiskAction → Disk × DiskReport
  | .read page =>
    match d.read page with
    | .ok (d', data) => (d', .bytes (.ok data))
    | .error e => (d, .bytes (.error e))
  | .write page data => ((d.write page data).1, .done (d.write page data).2)
  | .allocate => (d.allocate.1, .page d.allocate.2)
  | .reopen => ((Disk.open? d.file d.pageSize).getD d, .reopened)

/-- The system can do it: a page to be read can be held and reached, the data to be written is
one page, and a page that is written or appended can be counted. -/
def Admits (d : Disk) : DiskAction → Prop
  | .read page => d.isHoldable = true ∧ d.offset page < UInt64.size / 2
  | .write page data => data.length = d.pageSize ∧ isCountable page = true
  | .allocate => d.isHoldable = true ∧ isCountable d.pageCount = true
  | .reopen => True

instance (d : Disk) : (a : DiskAction) → Decidable (d.Admits a)
  | .read page => inferInstanceAs (Decidable (d.isHoldable = true ∧ d.offset page < UInt64.size / 2))
  | .write page data =>
    inferInstanceAs (Decidable (data.length = d.pageSize ∧ isCountable page = true))
  | .allocate => inferInstanceAs (Decidable (d.isHoldable = true ∧ isCountable d.pageCount = true))
  | .reopen => instDecidableTrue

/-- Every action of a run is admitted where it is taken. -/
def AdmitsAll (d : Disk) (actions : List DiskAction) : Prop :=
  Along (fun d a => (d.perform a).1) Admits d actions

instance (d : Disk) (actions : List DiskAction) : Decidable (d.AdmitsAll actions) :=
  inferInstanceAs (Decidable (Along (fun d a => (d.perform a).1) Admits d actions))

/-- The disk after some actions, one after the other. -/
def after (d : Disk) (actions : List DiskAction) : Disk :=
  actions.foldl (fun d a => (d.perform a).1) d

/-- The actions of a run with their answers. -/
def log (d : Disk) : List DiskAction → List (DiskAction × DiskReport)
  | [] => []
  | a :: rest => (a, (d.perform a).2) :: (d.perform a).1.log rest

end Disk

/-! ## What a page was given -/

/-- The bytes that an action gives to a page: those that it writes there, or zeros if it
appends the page. -/
def given (size : Nat) (page : UInt32) : DiskAction × DiskReport → Option Bytes
  | (.write p data, .done (.ok ())) => if p = page then some data else none
  | (.allocate, .page (.ok p)) => if p = page then some (Bytes.zeros size) else none
  | _ => none

/-- The bytes that a run gave to a page last. -/
def lastGiven (size : Nat) (page : UInt32) (log : List (DiskAction × DiskReport)) : Option Bytes :=
  log.reverse.findSome? (given size page)

/-- The bytes of a string from an offset on, with zeros behind its end. -/
def Bytes.window (content : Bytes) (offset count : Nat) : Bytes :=
  let part := (content.drop offset).take count
  part ++ zeros (count - part.length)

/-- The bytes that a page should read as: those that it was given last, or those of the file as
it was first opened. -/
def expected (content : Bytes) (size : Nat) (log : List (DiskAction × DiskReport))
    (page : UInt32) : Bytes :=
  (lastGiven size page log).getD (content.window (page.toNat * size) size)

section

variable {content : Bytes} {size : Nat} {page : UInt32} {log : List (DiskAction × DiskReport)}

theorem expected_append (e : DiskAction × DiskReport) :
    expected content size (log ++ [e]) page =
      (given size page e).getD (expected content size log page) := by
  unfold expected lastGiven
  rw [List.reverse_append, List.reverse_singleton, List.singleton_append, List.findSome?_cons]
  cases given size page e <;> rfl

theorem length_window (content : Bytes) (offset count : Nat) :
    (content.window offset count).length = count := by
  simp only [Bytes.window, List.length_append, Bytes.length_zeros, List.length_take,
    List.length_drop]
  omega

theorem getElem?_window {offset count k : Nat} (hk : k < count) :
    (content.window offset count)[k]? = some (content.getD (offset + k) 0) := by
  have hpart : ((content.drop offset).take count).length = min count (content.length - offset) := by
    rw [List.length_take, List.length_drop]
  unfold Bytes.window
  simp only [List.getElem?_append, hpart]
  by_cases hin : offset + k < content.length
  · rw [if_pos (by omega), List.getElem?_take_of_lt hk, List.getElem?_drop,
      List.getElem?_eq_getElem hin]
    simp [hin]
  · have hzero : k - min count (content.length - offset) <
        count - min count (content.length - offset) := by omega
    rw [if_neg (by omega), Bytes.zeros, List.getElem?_replicate, if_pos hzero]
    simp [Nat.le_of_not_lt hin]

/-- A file that was only opened reads as its bytes, with zeros behind them. -/
theorem SparseFile.read_ofBytes (content : Bytes) (offset count : Nat) :
    (SparseFile.ofBytes content).read offset count = content.window offset count := by
  have hbyte : ∀ i, byteIn (SparseFile.ofBytes content).pieces i = content.getD i 0 := by
    intro i
    simp only [SparseFile.ofBytes, byteIn]
    split
    · rfl
    · rename_i hout
      rw [Piece.covers_iff] at hout
      rw [List.getD_eq_getElem?_getD, List.getElem?_eq_none (by simp only at hout; omega)]
      rfl
  rw [read_eq_map]
  apply List.ext_getElem?
  intro k
  by_cases hk : k < count
  · rw [List.getElem?_map, List.getElem?_range hk, Option.map_some, hbyte, getElem?_window hk]
  · rw [List.getElem?_eq_none (by simp; omega),
      List.getElem?_eq_none (by rw [length_window]; omega)]

end

/-! ## One action -/

namespace Disk

variable {d : Disk} {page p : UInt32} {data : Bytes}

/-- The page that an action gives bytes to, if there is one. -/
def target (d : Disk) : DiskAction → Option UInt32
  | .write page _ => some page
  | .allocate => some d.pageCount
  | .read _ | .reopen => none

/-- The pages counted are the whole ones in the file. -/
structure Counted (d : Disk) : Prop where
  size_pos : 0 < d.pageSize
  count_eq : d.pageCount.toNat = d.file.length / d.pageSize

theorem read_of_admits (h : d.Admits (.read page)) :
    d.read page = .ok ({ d with reads := d.reads + 1 }, d.pageBytes page) := by
  rw [read_eq]
  exact if_pos h

theorem write_of_admits (h : d.Admits (.write page data)) :
    d.write page data = ((d.put page data).count page, .ok ()) := by
  unfold write
  rw [if_neg (by simpa using h.1), if_pos h.2]

/-- The disk with one more page, of zeros. -/
def grown (d : Disk) : Disk :=
  ({ d with pageCount := d.pageCount + 1 }.put d.pageCount (Bytes.zeros d.pageSize)).count
    d.pageCount

theorem allocate_of_admits (h : d.Admits .allocate) : d.allocate = (d.grown, .ok d.pageCount) := by
  unfold allocate write
  simp only [h.1, h.2, Bytes.length_zeros, ne_eq, not_true_eq_false, if_false, if_true]
  rfl

/-- The disk that opening the file again gives. -/
theorem open?_file (h : d.Counted) :
    Disk.open? d.file d.pageSize = some { d with reads := 0, writes := 0 } := by
  have hcount : UInt32.ofNat (d.file.length / d.pageSize) = d.pageCount := by
    rw [← h.count_eq, UInt32.ofNat_toNat]
  unfold Disk.open?
  rw [if_neg (Nat.ne_of_gt h.size_pos), hcount]

theorem toNat_succ (h : isCountable page = true) : (page + 1).toNat = page.toNat + 1 := by
  simp only [isCountable, decide_eq_true_eq] at h
  rw [UInt32.toNat_add]
  exact Nat.mod_eq_of_lt h

theorem toNat_max (n m : UInt32) : (max n m).toNat = max n.toNat m.toNat := by
  change (if n ≤ m then m else n).toNat = max n.toNat m.toNat
  split
  · rename_i hle
    rw [UInt32.le_iff_toNat_le] at hle
    omega
  · rename_i hlt
    rw [UInt32.le_iff_toNat_le] at hlt
    omega

/-- A file that reaches to the end of a page has all whole pages up to it. -/
theorem max_succ_mul_div (length size n : Nat) (h : 0 < size) :
    max length (n * size + size) / size = max (length / size) (n + 1) := by
  have hpage : (n * size + size) / size = n + 1 := by
    rw [← Nat.succ_mul, Nat.mul_div_cancel _ h]
  rcases Nat.le_total length (n * size + size) with hle | hle
  · have hdiv := Nat.div_le_div_right hle (c := size)
    rw [Nat.max_eq_right hle, hpage]
    omega
  · have hdiv := Nat.div_le_div_right hle (c := size)
    rw [Nat.max_eq_left hle]
    omega

theorem Counted.written (h : d.Counted) (hdata : data.length = d.pageSize)
    (hcount : isCountable page = true) : ((d.put page data).count page).Counted := by
  refine ⟨h.size_pos, ?_⟩
  change (max d.pageCount (page + 1)).toNat =
    max d.file.length (page.toNat * d.pageSize + data.length) / d.pageSize
  rw [hdata, max_succ_mul_div _ _ _ h.size_pos, ← h.count_eq, toNat_max, toNat_succ hcount]

theorem Counted.grown (h : d.Counted) (ha : d.Admits .allocate) : d.grown.Counted := by
  refine ⟨h.size_pos, ?_⟩
  change (max (d.pageCount + 1) (d.pageCount + 1)).toNat =
    max d.file.length (d.pageCount.toNat * d.pageSize + (Bytes.zeros d.pageSize).length) /
      d.pageSize
  rw [Bytes.length_zeros, max_succ_mul_div _ _ _ h.size_pos, ← h.count_eq, toNat_max,
    toNat_succ ha.2]
  omega

theorem pageBytes_grown : d.grown.pageBytes p =
    if d.pageCount = p then Bytes.zeros d.pageSize else d.pageBytes p := by
  split
  · rename_i hp
    rw [← hp]
    exact pageBytes_put_self (Bytes.length_zeros _)
  · rename_i hp
    exact pageBytes_put_of_ne (Bytes.length_zeros _) (Ne.symm hp)

theorem pageBytes_written (h : data.length = d.pageSize) :
    ((d.put page data).count page).pageBytes p = if page = p then data else d.pageBytes p := by
  split
  · rename_i hp
    rw [← hp]
    exact pageBytes_put_self h
  · rename_i hp
    exact pageBytes_put_of_ne h (Ne.symm hp)

theorem perform_read (h : d.Admits (.read page)) : d.perform (.read page) =
    ({ d with reads := d.reads + 1 }, .bytes (.ok (d.pageBytes page))) := by
  unfold perform
  simp only [read_of_admits h]

theorem perform_write (h : d.Admits (.write page data)) :
    d.perform (.write page data) = ((d.put page data).count page, .done (.ok ())) := by
  unfold perform
  simp only [write_of_admits h]

theorem perform_allocate (h : d.Admits .allocate) :
    d.perform .allocate = (d.grown, .page (.ok d.pageCount)) := by
  unfold perform
  simp only [allocate_of_admits h]

theorem perform_reopen (h : d.Counted) :
    d.perform .reopen = ({ d with reads := 0, writes := 0 }, .reopened) := by
  unfold perform
  simp only [open?_file h, Option.getD_some]

/-- What an action does: the page size stays, the count stays right, and each page reads as what
the action gave to it, or as before. -/
theorem perform_effect (h : d.Counted) {a : DiskAction} (ha : d.Admits a) :
    (d.perform a).1.Counted ∧ (d.perform a).1.pageSize = d.pageSize ∧
      ∀ p, (d.perform a).1.pageBytes p =
        (given d.pageSize p (a, (d.perform a).2)).getD (d.pageBytes p) := by
  cases a with
  | read page =>
    rw [perform_read ha]
    exact ⟨⟨h.size_pos, h.count_eq⟩, rfl, fun _ => rfl⟩
  | write page data =>
    rw [perform_write ha]
    refine ⟨h.written ha.1 ha.2, rfl, fun p => ?_⟩
    rw [pageBytes_written ha.1, given]
    split <;> rfl
  | allocate =>
    rw [perform_allocate ha]
    refine ⟨h.grown ha, rfl, fun p => ?_⟩
    rw [pageBytes_grown, given]
    split <;> rfl
  | reopen =>
    rw [perform_reopen h]
    exact ⟨⟨h.size_pos, h.count_eq⟩, rfl, fun _ => rfl⟩

/-- An action gives nothing to a page that is not its target. -/
theorem given_eq_none {a : DiskAction} (ha : d.Admits a) (hp : d.target a ≠ some p) :
    given d.pageSize p (a, (d.perform a).2) = none := by
  cases a with
  | read page => rfl
  | write page data => rw [perform_write ha, given, if_neg (by simpa [target] using hp)]
  | allocate => rw [perform_allocate ha, given, if_neg (by simpa [target] using hp)]
  | reopen => rfl

theorem map_read_congr {d' : Disk} (hsize : d'.pageSize = d.pageSize)
    (hbytes : d'.pageBytes page = d.pageBytes page) :
    (d'.read page).map Prod.snd = (d.read page).map Prod.snd := by
  have hfail : d'.readFailure page = d.readFailure page := by
    unfold readFailure isHoldable offset
    rw [hsize]
  rw [read_eq, read_eq, hfail]
  unfold isHoldable offset
  rw [hsize]
  split
  · rw [Except.map, Except.map, hbytes]
  · rfl

/-! ## A run -/

/-- The disk is the array of pages that a run makes of the first content of its file. -/
structure Holds (d : Disk) (content : Bytes) (size : Nat)
    (log : List (DiskAction × DiskReport)) : Prop where
  counted : d.Counted
  size_eq : d.pageSize = size
  pages : ∀ p, d.pageBytes p = expected content size log p

variable {content : Bytes} {size : Nat} {before : List (DiskAction × DiskReport)}

theorem Holds.perform (h : d.Holds content size before) {a : DiskAction} (ha : d.Admits a) :
    (d.perform a).1.Holds content size (before ++ [(a, (d.perform a).2)]) := by
  obtain ⟨hcounted, hsize, hpages⟩ := perform_effect h.counted ha
  refine ⟨hcounted, hsize.trans h.size_eq, fun p => ?_⟩
  rw [hpages p, h.pages p, expected_append, h.size_eq]

theorem Holds.after (h : d.Holds content size before) {actions : List DiskAction}
    (ha : d.AdmitsAll actions) :
    (d.after actions).Holds content size (before ++ d.log actions) := by
  induction actions generalizing d before with
  | nil => simpa [log, Disk.after] using h
  | cons a rest ih =>
    have hrest := ih (h.perform ha.1) ha.2
    rwa [List.append_assoc] at hrest

theorem open?_holds (hsize : 0 < size) (hcount : content.length / size < UInt32.size) :
    ∃ d, Disk.open? (.ofBytes content) size = some d ∧ d.Holds content size [] := by
  unfold Disk.open?
  rw [if_neg (Nat.ne_of_gt hsize)]
  refine ⟨_, rfl, ⟨hsize, ?_⟩, rfl, fun p => SparseFile.read_ofBytes content _ _⟩
  exact Nat.mod_eq_of_lt hcount

/-- A disk that was opened on any content, after any run: the pages counted are the whole ones
in the file, also when it is opened again; an appended page gets the number of the pages before;
each page reads as the run gave it last, or as the first content of the file padded with zeros;
and no action changes what a page reads as that is not its target. -/
theorem reads_as_array_of_pages (content : Bytes) (size : Nat) (hsize : 0 < size)
    (hcount : content.length / size < UInt32.size) :
    ∃ d, Disk.open? (.ofBytes content) size = some d ∧
      ∀ actions, d.AdmitsAll actions →
        let e := d.after actions
        e.pageCount.toNat = e.file.length / size ∧
        (∃ e', Disk.open? e.file size = some e' ∧ e'.pageCount = e.pageCount) ∧
        (e.Admits .allocate → e.allocate.2 = .ok e.pageCount) ∧
        (∀ page data, e.Admits (.write page data) → (e.write page data).2 = .ok ()) ∧
        (∀ page, e.Admits (.read page) →
          ∃ e', e.read page = .ok (e', expected content size (d.log actions) page)) ∧
        ∀ a, e.Admits a → ∀ page, e.target a ≠ some page →
          ((e.perform a).1.read page).map Prod.snd = (e.read page).map Prod.snd := by
  obtain ⟨d, hopen, hd⟩ := open?_holds hsize hcount
  refine ⟨d, hopen, ?_⟩
  intro actions hactions
  have h := hd.after hactions
  rw [List.nil_append] at h
  generalize d.after actions = e at h
  have hreopen := open?_file h.counted
  have hlength := h.counted.count_eq
  rw [h.size_eq] at hreopen hlength
  refine ⟨hlength, ⟨_, hreopen, rfl⟩, ?_, ?_, ?_, ?_⟩
  · intro ha
    rw [allocate_of_admits ha]
  · intro page data ha
    rw [write_of_admits ha]
  · intro page ha
    rw [read_of_admits ha, h.pages page]
    exact ⟨_, rfl⟩
  · intro a ha page hpage
    obtain ⟨-, hsame, hbytes⟩ := perform_effect h.counted ha
    apply map_read_congr hsame
    rw [hbytes page, given_eq_none ha hpage]
    rfl

/-- A disk on a file of two pages and a half. -/
def oddSized : Disk := ⟨.ofBytes [1, 2, 3, 4, 5], 2, 2, 0, 0⟩

/-- A page is appended over the half, one is written behind a hole, and the file is opened
again. -/
def patching : List DiskAction := [.read 2, .allocate, .write 4 [8, 9], .reopen, .write 1 [7, 7]]

/-- The half is gone, the hole is zero, and what was not written reads as before; the next page
would be the one with number 5. -/
theorem reads_as_array_of_pages_after_patching :
    0 < 2 ∧ [1, 2, 3, 4, 5].length / 2 < UInt32.size ∧
      Disk.open? (.ofBytes [1, 2, 3, 4, 5]) 2 = some oddSized ∧ oddSized.AdmitsAll patching ∧
      (oddSized.after patching).allocate.2 = .ok 5 ∧
      (∃ e, (oddSized.after patching).read 0 = .ok (e, [1, 2])) ∧
      (∃ e, (oddSized.after patching).read 2 = .ok (e, [0, 0])) ∧
      (∃ e, (oddSized.after patching).read 3 = .ok (e, [0, 0])) ∧
      ∃ e, (oddSized.after patching).read 4 = .ok (e, [8, 9]) := by
  have hadmits : oddSized.AdmitsAll patching := by decide
  obtain ⟨d, hopen, hlaw⟩ := reads_as_array_of_pages [1, 2, 3, 4, 5] 2 (by decide) (by decide)
  have hodd : Disk.open? (.ofBytes [1, 2, 3, 4, 5]) 2 = some oddSized := rfl
  obtain rfl : oddSized = d := Option.some.inj (hodd.symm.trans hopen)
  obtain ⟨-, -, hallocate, -, hread, -⟩ := hlaw patching hadmits
  exact ⟨by decide, by decide, hodd, hadmits, hallocate (by decide), hread 0 (by decide),
    hread 2 (by decide), hread 3 (by decide), hread 4 (by decide)⟩

end Disk

end PageCache
