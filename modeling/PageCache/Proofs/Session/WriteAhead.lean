-- The log comes before the write. Whatever a run has done to a page and its locks, each page that an
-- operation writes back is shown to the log first, once: as its file holds it, and as the file is to
-- hold it. Only if the log agrees is the file written. If it refuses, nothing has become of the page.
import PageCache.Proofs.Session.Confined

namespace PageCache

theorem WriteLog.told_tell (l : WriteLog) (entry : LogEntry) :
    (l.tell entry).1.told = l.told ++ [entry] := by
  unfold tell
  split <;> rfl

/-- The operations that write pages back. -/
inductive Writing where
  | commit (txn : TransactionId)
  | flush (page : PageId)
  | flushAll

namespace Cache

variable {c c' d : Cache} {strict : Bool} {page : PageId} {p : HeapPage} {txn : TransactionId}
  {hook : WriteLog} {entry : LogEntry} {answer : Except StoreError Unit} {entries : List LogEntry}
  {f : TableFile}

/-- What such an operation does to a cache, and its result. -/
def write (c : Cache) : Writing → Cache × Except StoreError Unit
  | .commit txn => c.commit txn
  | .flush page => c.flush page
  | .flushAll => c.flushAll

/-- An operation is to write the page `p`, and `txn` is named as the one who writes: who commits
writes all changed pages that it holds, whoever changed them, and a flush writes for the transaction
whose mark is on the page. -/
def IsDue (c : Cache) (w : Writing) (txn : TransactionId) (p : HeapPage) : Prop :=
  c.residentPage p.id = some p ∧
    match w with
    | .commit u => txn = u ∧ p.id ∈ c.heldPages u ∧ p.dirty ≠ none
    | .flush page => p.id = page ∧ p.dirty = some txn
    | .flushAll => p.dirty = some txn

/-! ## One page -/

/-- The log is told of a changed page that is resident. The page before is what the bytes stand for
that the file holds now. The log has noted this one entry, and nothing else has changed. -/
structure Announces (c : Cache) (entry : LogEntry) (answer : Except StoreError Unit) (d : Cache) :
    Prop where
  resident : c.residentPage entry.after.id = some entry.after
  dirty : entry.after.dirty ≠ none
  before_eq : ∃ file disk data, c.tables.get? entry.after.id.table = some file ∧
    file.disk.read entry.after.id.number = .ok (disk, data) ∧
    HeapPage.ofImage entry.after.id file.schema file.disk.pageSize data = .ok entry.before
  told : ∃ hook, c.log = some hook ∧ answer = (hook.tell entry).2 ∧
    d = { c with log := some (hook.tell entry).1 }

/-- The page is written to its file, and from now on it is resident without a mark and with its
bytes as its snapshot. All other pages, the locks and the log are as they were. -/
structure Writes (c : Cache) (p : HeapPage) (c' : Cache) : Prop where
  in_file : ∃ file disk q, c'.tables.get? p.id.table = some file ∧
    file.disk.read p.id.number = .ok (disk, p.image) ∧
    HeapPage.ofImage p.id file.schema file.disk.pageSize p.image = .ok q ∧
    q.slotCount = p.slotCount ∧ (∀ slot, q.isUsed slot = p.isUsed slot) ∧
    ∀ slot, q.recordAt slot = p.recordAt slot
  resident : c'.residentPage p.id = some p.markClean.snapshot
  others : ∀ other, other ≠ p.id → c'.residentPage other = c.residentPage other ∧
    c'.onDisk other = c.onDisk other
  locks_eq : c'.locks = c.locks
  log_eq : c'.log = c.log

/-- Pages are written back one after the other: the log is told of each page, and then its file is
written. The first refusal ends it, and is the result. -/
inductive WritesBack : Cache → List LogEntry → Except StoreError Unit → Cache → Prop
  | done (c : Cache) : WritesBack c [] (.ok ()) c
  | refused {c d : Cache} {entry : LogEntry} {e : StoreError} :
      c.Announces entry (.error e) d → WritesBack c [entry] (.error e) d
  | written {c d d' c' : Cache} {entry : LogEntry} {entries : List LogEntry}
      {result : Except StoreError Unit} :
      c.Announces entry (.ok ()) d → d.Writes entry.after d' → WritesBack d' entries result c' →
      WritesBack c (entry :: entries) result c'

/-- The log can always be told of a page that is anchored. -/
theorem Anchored.announces (h : c.Anchored strict) (hlog : c.log = some hook)
    (hres : c.residentPage page = some p) (hdirty : p.dirty ≠ none) (txn : TransactionId) :
    ∃ before, c.tellLog txn p = ({ c with log := some (hook.tell ⟨txn, before, p⟩).1 },
        (hook.tell ⟨txn, before, p⟩).2) ∧
      c.Announces ⟨txn, before, p⟩ (hook.tell ⟨txn, before, p⟩).2
        { c with log := some (hook.tell ⟨txn, before, p⟩).1 } := by
  have ha := h.anchors page p hres
  have hid := ha.id_eq
  obtain ⟨⟨file, hfile, hreach⟩, -, ⟨q, hq, hanchor⟩, -⟩ := ha
  have hbefore : p.beforeImage = .ok q := by
    rw [HeapPage.beforeImage_eq_of_anchor hanchor, beforeImage_of_onDisk hq]
  refine ⟨q, by rw [tellLog, hlog, hbefore], ?_, hdirty, ?_, hook, hlog, rfl, rfl⟩
  · exact hid.symm ▸ hres
  · rw [onDisk, hfile] at hq
    obtain ⟨hdisk, hdata⟩ := TableFile.bytes_of_stored hq hreach
    rw [← hid] at hfile hdisk hdata
    exact ⟨file, _, q.before, hfile, hdisk, hdata⟩

/-- A changed page is written to its file as it is. -/
theorem Anchored.writes (h : c.Anchored strict) (hm : c.Marked page p f) :
    c.Writes p (c.wroteBack f p) := by
  have hid := hm.id_eq
  have hreach := hm.reaches_wroteBack (h.anchors page p hm.resident).reaches
  have hdisk := hm.onDisk_wroteBack page
  have hfile := hm.tables_wroteBack page.table
  rw [if_pos rfl] at hdisk hfile
  rw [HeapPage.saved_of_dirty hm.dirty] at hdisk
  obtain ⟨g, hg, hreach⟩ := hreach
  rw [hfile, Option.some.injEq] at hg
  subst hg
  rw [onDisk, hfile] at hdisk
  obtain ⟨hread, hdata⟩ := TableFile.bytes_of_stored hdisk hreach
  rw [show p.markClean.snapshot.before = p.image from HeapPage.image_markClean] at hread hdata
  constructor
  · rw [hid]
    exact ⟨_, _, _, hfile, hread, hdata, rfl, fun _ => rfl, fun _ => rfl⟩
  · rw [Cache.wroteBack, residentPage_place]
    exact if_pos rfl
  · intro other hother
    rw [hid] at hother
    have hplace := residentPage_place (c.setTable (f.wrote p)) p.markClean.snapshot other
    rw [if_neg (by rw [show p.markClean.snapshot.id = page from hid]; exact hother)] at hplace
    exact ⟨hplace, by rw [hm.onDisk_wroteBack, if_neg hother]⟩
  · rfl
  · rfl

/-- A changed page that is resident is written back: the log is told, and then it either refuses or
the page is written. -/
theorem Anchored.writeBack_cases (h : c.Anchored strict) (hlog : c.log = some hook)
    (hres : c.residentPage page = some p) (hdirty : p.dirty ≠ none) (txn : TransactionId) :
    ∃ before d,
      (∃ e, c.Announces ⟨txn, before, p⟩ (.error e) d ∧ c.writeBack txn p = (d, .error e)) ∨
      ∃ d', c.Announces ⟨txn, before, p⟩ (.ok ()) d ∧ d.Writes p d' ∧
        c.writeBack txn p = (d', .ok ()) := by
  obtain ⟨before, htell, hannounces⟩ := h.announces hlog hres hdirty txn
  obtain ⟨f, hf⟩ := h.exists_file hres
  have hset := h.setLog (some (hook.tell ⟨txn, before, p⟩).1)
  have hm := hset.marked hf hres hdirty
  refine ⟨before, { c with log := some (hook.tell ⟨txn, before, p⟩).1 }, ?_⟩
  unfold Cache.writeBack
  rw [hm.id_eq, table_eq_ok hf, htell]
  rcases hanswer : (hook.tell ⟨txn, before, p⟩).2 with e | _ <;> rw [hanswer] at hannounces
  · exact .inl ⟨e, hannounces, rfl⟩
  · simp only [hm.write_eq, hm.amend_eq]
    exact .inr ⟨_, hannounces, hset.writes hm, rfl⟩

/-! ## Many pages -/

/-- The changed pages of a list are written back, each one once. `writer` says for whom, given the
mark of the page. -/
structure Sweeps (c : Cache) (writer : TransactionId → TransactionId) (pages : List PageId)
    (entries : List LogEntry) (result : Except StoreError Unit) (c' : Cache) : Prop where
  writes : WritesBack c entries result c'
  once : (entries.map fun entry => entry.after.id).Nodup
  due : ∀ entry ∈ entries, c.residentPage entry.after.id = some entry.after ∧
    entry.after.id ∈ pages ∧ entry.after.dirty.map writer = some entry.txn
  all : result = .ok () → ∀ page ∈ pages, ∀ p, c.residentPage page = some p → p.dirty ≠ none →
    ∃ entry ∈ entries, entry.after = p

section Sweeps

variable {writer : TransactionId → TransactionId} {pages : List PageId} {mark : TransactionId}
  {before : HeapPage} {result : Except StoreError Unit} {e : StoreError}

theorem sweeps_nil (c : Cache) (writer : TransactionId → TransactionId) :
    c.Sweeps writer [] [] (.ok ()) c where
  writes := .done c
  once := .nil
  due := nofun
  all _ := nofun

/-- A page that is not resident, or not changed, is passed over. -/
theorem Sweeps.skip (h : c.Sweeps writer pages entries result c')
    (hclean : ∀ p, c.residentPage page = some p → p.dirty = none) :
    c.Sweeps writer (page :: pages) entries result c' where
  writes := h.writes
  once := h.once
  due entry hentry := by
    obtain ⟨hres, hmem, hmark⟩ := h.due entry hentry
    exact ⟨hres, .tail _ hmem, hmark⟩
  all hok other hother q hq hdirty := by
    rcases List.mem_cons.1 hother with rfl | hmem
    · exact absurd (hclean q hq) hdirty
    · exact h.all hok other hmem q hq hdirty

theorem sweeps_refused (ha : c.Announces ⟨writer mark, before, p⟩ (.error e) d)
    (hmark : p.dirty = some mark) (hid : p.id ∈ pages) :
    c.Sweeps writer pages [⟨writer mark, before, p⟩] (.error e) d where
  writes := .refused ha
  once := List.nodup_singleton _
  due entry hentry := by
    rw [List.mem_singleton.1 hentry]
    exact ⟨ha.resident, hid, by rw [hmark, Option.map_some]⟩
  all := nofun

/-- The page that was written has no mark any more, so it is not written once more even if the list
names it again. -/
theorem Sweeps.write {d' : Cache} (h : d'.Sweeps writer pages entries result c')
    (ha : c.Announces ⟨writer mark, before, p⟩ (.ok ()) d) (hw : d.Writes p d')
    (hmark : p.dirty = some mark) :
    c.Sweeps writer (p.id :: pages) (⟨writer mark, before, p⟩ :: entries) result c' := by
  have hothers : ∀ other, other ≠ p.id → d'.residentPage other = c.residentPage other := by
    obtain ⟨hook, -, -, rfl⟩ := ha.told
    exact fun other hne => (hw.others other hne).1
  have hnot : ∀ entry ∈ entries, entry.after.id ≠ p.id := by
    intro entry hentry heq
    obtain ⟨hres, -, hdirty⟩ := h.due entry hentry
    rw [heq, hw.resident, Option.some.injEq] at hres
    rw [← hres] at hdirty
    cases hdirty
  constructor
  · exact .written ha hw h.writes
  · rw [List.map_cons, List.nodup_cons]
    refine ⟨?_, h.once⟩
    intro hmem
    obtain ⟨entry, hentry, heq⟩ := List.mem_map.1 hmem
    exact hnot entry hentry heq
  · intro entry hentry
    rcases List.mem_cons.1 hentry with rfl | hrest
    · exact ⟨ha.resident, .head _, by rw [hmark, Option.map_some]⟩
    · obtain ⟨hres, hmem, hdirty⟩ := h.due entry hrest
      rw [hothers _ (hnot entry hrest)] at hres
      exact ⟨hres, .tail _ hmem, hdirty⟩
  · intro hok other hother q hq hdirty
    by_cases heq : other = p.id
    · rw [heq, ha.resident, Option.some.injEq] at hq
      exact ⟨_, .head _, hq⟩
    · have hmem := (List.mem_cons.1 hother).resolve_left heq
      rw [← hothers other heq] at hq
      obtain ⟨entry, hentry, hafter⟩ := h.all hok other hmem q hq hdirty
      exact ⟨entry, .tail _ hentry, hafter⟩

end Sweeps

theorem Announces.log_eq (h : c.Announces entry answer d) : ∃ hook, d.log = some hook := by
  obtain ⟨hook, -, -, rfl⟩ := h.told
  exact ⟨_, rfl⟩

/-- Writes the changed pages of a list back, up to the first failure. -/
def sweep (writer : TransactionId → TransactionId) : List PageId → Cache →
    Cache × Except StoreError Unit
  | [], c => (c, .ok ())
  | page :: rest, c =>
    match c.residentPage page with
    | none => sweep writer rest c
    | some p =>
      match p.dirty with
      | none => sweep writer rest c
      | some mark =>
        match c.writeBack (writer mark) p with
        | (c, .error e) => (c, .error e)
        | (c, .ok ()) => sweep writer rest c

theorem writeBackAll_eq_sweep (c : Cache) (txn : TransactionId) (pages : List PageId) :
    writeBackAll txn pages c = sweep (fun _ => txn) pages c := by
  induction pages generalizing c with
  | nil => rfl
  | cons page rest ih =>
    unfold writeBackAll sweep
    rcases c.residentPage page with _ | p
    · exact ih c
    · rcases hmark : p.dirty with _ | mark
      · simp only [hmark, Option.isNone_none, if_pos, ih]
      · rcases hw : c.writeBack txn p with ⟨d, e | _⟩ <;>
          simp only [hmark, Option.isNone_some, Bool.false_eq_true, if_false, hw, ih]

theorem flushList_eq_sweep (c : Cache) (pages : List PageId) :
    flushList pages c = sweep id pages c := by
  induction pages generalizing c with
  | nil => rfl
  | cons page rest ih =>
    unfold flushList sweep flush
    rcases c.residentPage page with _ | p
    · exact ih c
    · rcases hmark : p.dirty with _ | mark
      · simp only [hmark, ih]
      · rcases hw : c.writeBack mark p with ⟨d, e | _⟩ <;> simp only [hmark, hw, ih, id]

theorem flush_eq_sweep (c : Cache) (page : PageId) : c.flush page = sweep id [page] c := by
  rw [← flushList_eq_sweep]
  unfold flushList
  rcases c.flush page with ⟨d, e | _⟩ <;> rfl

theorem Anchored.sweeps (h : c.Anchored strict) (hlog : c.log = some hook)
    (writer : TransactionId → TransactionId) (pages : List PageId) :
    ∃ entries, c.Sweeps writer pages entries (sweep writer pages c).2
      (sweep writer pages c).1 := by
  induction pages generalizing c hook with
  | nil => exact ⟨[], sweeps_nil c writer⟩
  | cons page rest ih =>
    unfold sweep
    rcases hres : c.residentPage page with _ | p
    · obtain ⟨entries, hs⟩ := ih h hlog
      exact ⟨entries, hs.skip (by simp [hres])⟩
    · rcases hmark : p.dirty with _ | mark
      · obtain ⟨entries, hs⟩ := ih h hlog
        simp only [hmark]
        exact ⟨entries, hs.skip (by simp [hres, hmark])⟩
      · have hdirty : p.dirty ≠ none := by simp [hmark]
        have hid := (h.anchors page p hres).id_eq
        have hwritten := h.writeBack hres hdirty (writer mark)
        simp only [hmark]
        obtain ⟨before, d, ⟨e, ha, hw⟩ | ⟨d', ha, hd, hw⟩⟩ :=
          h.writeBack_cases hlog hres hdirty (writer mark)
        · rw [hw]
          exact ⟨_, sweeps_refused ha hmark (by rw [hid]; exact .head _)⟩
        · rw [hw] at hwritten ⊢
          obtain ⟨hook', hlog'⟩ := ha.log_eq
          obtain ⟨entries, hs⟩ := ih hwritten (hd.log_eq.trans hlog')
          rw [← hid]
          exact ⟨_, hs.write ha hd hmark⟩

/-- The log was told of these pages and of no others, in this order. -/
theorem WritesBack.told {result : Except StoreError Unit} (h : WritesBack c entries result c')
    (hlog : c.log = some hook) :
    ∃ hook', c'.log = some hook' ∧ hook'.told = hook.told ++ entries := by
  induction h generalizing hook with
  | done c => exact ⟨hook, hlog, by simp⟩
  | refused ha =>
    obtain ⟨hook', hlog', -, rfl⟩ := ha.told
    rw [hlog, Option.some.injEq] at hlog'
    exact ⟨_, rfl, hlog' ▸ hook.told_tell _⟩
  | written ha hw _ ih =>
    obtain ⟨hook₁, hlog₁, -, rfl⟩ := ha.told
    rw [hlog, Option.some.injEq] at hlog₁
    obtain ⟨hook', hlog', htold⟩ := ih hw.log_eq
    refine ⟨hook', hlog', ?_⟩
    rw [htold, ← hlog₁, hook.told_tell, List.append_assoc, List.singleton_append]

/-- What is left to do once the pages are written: a commit gives its locks back. -/
def settle (c : Cache) : Writing → Except StoreError Unit → Cache
  | .commit txn, .ok () => c.releaseAll txn
  | _, _ => c

/-- How an operation sweeps pages, and which ones these are. -/
def swept (c : Cache) : Writing → (TransactionId → TransactionId) × List PageId
  | .commit txn => (fun _ => txn, c.heldPages txn)
  | .flush page => (id, [page])
  | .flushAll => (id, c.resident.keys)

theorem write_eq_sweep (c : Cache) (w : Writing) :
    c.write w = ((sweep (c.swept w).1 (c.swept w).2 c).1.settle w
      (sweep (c.swept w).1 (c.swept w).2 c).2, (sweep (c.swept w).1 (c.swept w).2 c).2) := by
  cases w with
  | commit txn =>
    simp only [write, commit, swept, writeBackAll_eq_sweep]
    rcases sweep (fun _ => txn) (c.heldPages txn) c with ⟨d, e | _⟩ <;> rfl
  | flush page => exact c.flush_eq_sweep page
  | flushAll => exact c.flushList_eq_sweep _

/-- A page is to be written just if the operation sweeps it. -/
theorem isDue_iff (w : Writing) (txn : TransactionId) (p : HeapPage) :
    c.IsDue w txn p ↔ c.residentPage p.id = some p ∧ p.id ∈ (c.swept w).2 ∧
      p.dirty.map (c.swept w).1 = some txn := by
  cases w with
  | commit u =>
    simp only [IsDue, swept, Option.map_eq_some_iff]
    constructor
    · rintro ⟨hres, rfl, hheld, hdirty⟩
      obtain ⟨mark, hmark⟩ := Option.ne_none_iff_exists'.1 hdirty
      exact ⟨hres, hheld, mark, hmark, rfl⟩
    · rintro ⟨hres, hheld, mark, hmark, rfl⟩
      exact ⟨hres, rfl, hheld, by simp [hmark]⟩
  | flush page => simp [IsDue, swept]
  | flushAll =>
    simp only [IsDue, swept, Option.map_id_fun, id]
    constructor
    · rintro ⟨hres, hdirty⟩
      exact ⟨hres, mem_keys_of_resident hres, hdirty⟩
    · rintro ⟨hres, -, hdirty⟩
      exact ⟨hres, hdirty⟩

/-- What has happened to a cache when an operation has written pages back, and what the log of the
cache was told in the meantime. -/
structure WritesOut (c : Cache) (w : Writing) (hook : WriteLog) (entries : List LogEntry)
    (result : Except StoreError Unit) (c' : Cache) : Prop where
  writes : WritesBack c entries result c'
  write_eq : c.write w = (c'.settle w result, result)
  once : (entries.map fun entry => entry.after.id).Nodup
  due : ∀ entry ∈ entries, c.IsDue w entry.txn entry.after
  all : result = .ok () → ∀ txn p, c.IsDue w txn p →
    ∃ entry ∈ entries, entry.txn = txn ∧ entry.after = p
  told : ∃ hook', c'.log = some hook' ∧ hook'.told = hook.told ++ entries

theorem Anchored.writesOut (h : c.Anchored strict) (hlog : c.log = some hook) (w : Writing) :
    ∃ entries result c', c.WritesOut w hook entries result c' := by
  obtain ⟨entries, hs⟩ := h.sweeps hlog (c.swept w).1 (c.swept w).2
  refine ⟨entries, _, _, hs.writes, write_eq_sweep c w, hs.once, ?_, ?_, hs.writes.told hlog⟩
  · intro entry hentry
    obtain ⟨hres, hmem, hmark⟩ := hs.due entry hentry
    exact (isDue_iff w _ _).2 ⟨hres, hmem, hmark⟩
  · intro hok txn p hdue
    obtain ⟨hres, hmem, hmark⟩ := (isDue_iff w _ _).1 hdue
    have hdirty : p.dirty ≠ none := by
      intro hnone
      rw [hnone] at hmark
      cases hmark
    obtain ⟨entry, hentry, rfl⟩ := hs.all hok _ hmem p hres hdirty
    obtain ⟨-, -, hwriter⟩ := hs.due entry hentry
    rw [hmark, Option.some.injEq] at hwriter
    exact ⟨entry, hentry, hwriter.symm, rfl⟩

end Cache

namespace Session

variable {config : Config} {log : Option WriteLog} {steps : List Step} {hook : WriteLog}

/-- The log sees the page before and the page after, and it sees them before the write. Each changed
page that a commit or a flush writes is shown to the log once. The page before is what the bytes
stand for that are in the file now, and the page after is what the file then holds. The first
refusal is the result of the operation, and the page that was refused stays as it was, in its file
and in the cache. -/
theorem log_sees_each_write (hsteps : (new config log).ConfinesAll steps)
    (hlog : ((new config log).after steps).cache.log = some hook) (w : Writing) :
    ∃ entries result c',
      ((new config log).after steps).cache.WritesOut w hook entries result c' := by
  have hmoored := hsteps.induction (moored_new config log false) fun _ _ h => h.confined
  exact hmoored.anchored.writesOut hlog w

/-- A log that has room for two entries. -/
def shortLog : WriteLog :=
  ⟨[], [], fun told _ => if told.length < 2 then none else some .brokenOff⟩

/-- The first flag is committed. Another transaction raises two more, and gives its lock on the
first of them back. -/
def flagsGivenBack : List Step :=
  [.act (.addTable (flagFile .empty 0 0 0)),
    .act (.submit ⟨1⟩ none (.insert ⟨⟨1⟩, ⟨flags, [.boolean true], none⟩, true⟩)),
    .act (.commit ⟨1⟩),
    .act (.submit ⟨2⟩ none (.insert ⟨⟨1⟩, ⟨flags, [.boolean true], none⟩, true⟩)),
    .release ⟨2⟩ ⟨⟨1⟩, 1⟩,
    .act (.submit ⟨2⟩ none (.insert ⟨⟨1⟩, ⟨flags, [.boolean false], none⟩, true⟩))]

/-- Of the two new flags one is written, and the log has no room for the other. -/
theorem log_sees_flags_given_back : ∃ hook entries c',
    (new ⟨4, 1, none⟩ (some shortLog)).ConfinesAll flagsGivenBack ∧
      ((new ⟨4, 1, none⟩ (some shortLog)).after flagsGivenBack).cache.log = some hook ∧
      ((new ⟨4, 1, none⟩ (some shortLog)).after flagsGivenBack).cache.WritesOut .flushAll hook
        entries (.error .brokenOff) c' ∧
      hook.told.length = 1 ∧ c'.log.map (·.told.length) = some 3 := by
  have hsteps : (new ⟨4, 1, none⟩ (some shortLog)).ConfinesAll flagsGivenBack := by
    decide +kernel
  have htold : (((new ⟨4, 1, none⟩ (some shortLog)).after flagsGivenBack).cache.log.map
      (·.told.length)) = some 1 := by decide +kernel
  obtain ⟨hook, hlog, hone⟩ := Option.map_eq_some_iff.1 htold
  obtain ⟨entries, result, c', hout⟩ := log_sees_each_write hsteps hlog .flushAll
  have hresult : (((new ⟨4, 1, none⟩ (some shortLog)).after flagsGivenBack).cache.write
      .flushAll).2 = .error .brokenOff := by decide +kernel
  have hthree : ((((new ⟨4, 1, none⟩ (some shortLog)).after flagsGivenBack).cache.write
      .flushAll).1.log.map (·.told.length)) = some 3 := by decide +kernel
  rw [hout.write_eq] at hresult hthree
  obtain rfl : result = .error .brokenOff := hresult
  exact ⟨hook, entries, c', hsteps, hlog, hout, hone, hthree⟩

end Session

end PageCache
