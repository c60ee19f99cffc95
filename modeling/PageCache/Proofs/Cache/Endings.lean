-- How a transaction ends. Pages that are written back stand in their files as they were
-- seen, pages that are read again are seen as they stand in their files, and nothing else
-- changes. A write that is refused leaves the pages before it written.
import PageCache.Cache.Ending
import PageCache.Proofs.Cache.Fetching

namespace PageCache

namespace HeapPage

/-- A page as it stands in its file once its changes were written. -/
def saved (p : HeapPage) : HeapPage := if p.dirty = none then p else p.markClean.snapshot

theorem saved_of_clean {p : HeapPage} (h : p.dirty = none) : p.saved = p := if_pos h

theorem saved_of_dirty {p : HeapPage} (h : p.dirty ≠ none) : p.saved = p.markClean.snapshot :=
  if_neg h

@[simp] theorem dirty_saved (p : HeapPage) : p.saved.dirty = none := by
  unfold saved
  split
  · assumption
  · rfl

theorem saved_saved (p : HeapPage) : p.saved.saved = p.saved := saved_of_clean p.dirty_saved

@[simp] theorem bare_saved (p : HeapPage) : p.saved.bare = p.bare := by
  unfold saved
  split <;> rfl

theorem map_bare_saved (p : Option HeapPage) : (p.map saved).map bare = p.map bare := by
  cases p <;> simp

theorem Proper.saved {p : HeapPage} (h : p.Proper) : p.saved.Proper := by
  unfold HeapPage.saved
  split
  · exact h
  · exact ⟨h.slot_count, h.bit_count, h.rows_fit⟩

end HeapPage

namespace Cache

variable {c c' d : Cache} {page : PageId} {p q : HeapPage} {txn : TransactionId} {f : TableFile}

/-- The log of the cache refuses nothing. -/
def AcceptsAll (c : Cache) : Prop :=
  ∀ log, c.log = some log → ∀ told entry, log.refusal told entry = none

/-! ## Pages that are written back -/

/-- The pages of a list stand in their files as they were seen, and all else is as before. -/
structure Saved (pages : List PageId) (c c' : Cache) : Prop where
  sound : c'.Sound
  view_eq : ∀ page, c'.view page =
    if page ∈ pages then (c.view page).map HeapPage.saved else c.view page
  onDisk_eq : ∀ page, c'.onDisk page =
    if page ∈ pages then (c.view page).map HeapPage.saved else c.onDisk page
  tables_iff : ∀ id, c'.tables.get? id = none ↔ c.tables.get? id = none
  locks_eq : c'.locks = c.locks
  accepts : c.AcceptsAll → c'.AcceptsAll

theorem Saved.nil (h : c.Sound) : c.Saved [] c where
  sound := h
  view_eq _ := rfl
  onDisk_eq _ := rfl
  tables_iff _ := Iff.rfl
  locks_eq := rfl
  accepts ha := ha

theorem Saved.cons {pages : List PageId} (h₁ : c.Saved [page] c') (h₂ : c'.Saved pages d) :
    c.Saved (page :: pages) d where
  sound := h₂.sound
  view_eq other := by
    rw [h₂.view_eq, h₁.view_eq]
    by_cases hpage : other = page <;> by_cases hmem : other ∈ pages <;>
      simp [hpage, hmem, Function.comp_def, HeapPage.saved_saved]
  onDisk_eq other := by
    rw [h₂.onDisk_eq, h₁.onDisk_eq, h₁.view_eq]
    by_cases hpage : other = page <;> by_cases hmem : other ∈ pages <;>
      simp [hpage, hmem, Function.comp_def, HeapPage.saved_saved]
  tables_iff id := (h₂.tables_iff id).trans (h₁.tables_iff id)
  locks_eq := h₂.locks_eq.trans h₁.locks_eq
  accepts ha := h₂.accepts (h₁.accepts ha)

/-- Nothing has to be written where the page that is seen has no mark. -/
theorem Sound.saved_of_clean (h : c.Sound) (hclean : ∀ p, c.view page = some p → p.dirty = none) :
    c.Saved [page] c := by
  have hsame : ∀ other, other ∈ [page] → (c.view other).map HeapPage.saved = c.view other := by
    intro other hmem
    rw [List.mem_singleton.1 hmem]
    rcases hv : c.view page with _ | p
    · rfl
    · rw [Option.map_some, HeapPage.saved_of_clean (hclean p hv)]
  refine ⟨h, ?_, ?_, fun _ => Iff.rfl, rfl, id⟩
  · intro other
    split
    · rename_i hmem
      exact (hsame other hmem).symm
    · rfl
  · intro other
    split
    · rename_i hmem
      rw [hsame other hmem]
      rw [List.mem_singleton.1 hmem]
      rcases hv : c.view page with _ | p
      · exact (Option.or_eq_none_iff.1 hv).2
      · exact h.eq_onDisk hv (hclean p hv)
    · rfl

theorem Sound.setLog (h : c.Sound) (log : Option WriteLog) : Sound { c with log } :=
  ⟨⟨h.keyed, h.reached, h.lies_over⟩, h.locked⟩

/-- What the log is told changes nothing else. -/
theorem saved_setLog (h : c.Sound) (log : Option WriteLog)
    (ha : c.AcceptsAll → AcceptsAll { c with log }) : c.Saved [] { c with log } where
  sound := h.setLog log
  view_eq _ := rfl
  onDisk_eq _ := rfl
  tables_iff _ := Iff.rfl
  locks_eq := rfl
  accepts := ha

/-- A resident page with a mark, and the file it belongs to. -/
structure Marked (c : Cache) (page : PageId) (p : HeapPage) (f : TableFile) : Prop where
  file : c.tables.get? page.table = some f
  resident : c.residentPage page = some p
  dirty : p.dirty ≠ none
  id_eq : p.id = page
  table_eq : page.table = f.table
  proper : p.Proper
  schema_eq : p.schema = f.schema
  size_eq : p.size = f.disk.pageSize
  in_range : page.number < f.pageCount

theorem Sound.marked (h : c.Sound) (hf : c.tables.get? page.table = some f)
    (hres : c.residentPage page = some p) (hdirty : p.dirty ≠ none) : c.Marked page p f := by
  have hview := view_of_resident hres
  obtain ⟨q, hq, hproper, hover⟩ := h.lies_over page p hview
  obtain ⟨f', hf', hreach⟩ := h.reached page p hres
  rw [hf, Option.some.injEq] at hf'
  subst hf'
  rw [onDisk, hf] at hq
  obtain ⟨-, -, hschema, hsize, -⟩ := TableFile.stored_proper (f := f) hq
  exact ⟨hf, hres, hdirty, h.id_eq hview, (h.keyed _ f hf).symm, hproper,
    hover.schema_eq.trans hschema, hover.size_eq.trans hsize, hreach.in_range⟩

/-- The page is put into its file, and without its mark into its place. -/
def wroteBack (c : Cache) (f : TableFile) (p : HeapPage) : Cache :=
  (c.setTable (f.wrote p)).place p.markClean.snapshot

theorem Marked.write_eq (h : c.Marked page p f) : f.write p = .ok (f.wrote p) :=
  TableFile.write_eq h.proper h.size_eq (by rw [h.id_eq, h.table_eq]) (by
    rw [h.id_eq]
    exact h.in_range)

theorem Marked.amend_eq (h : c.Marked page p f) :
    (c.setTable (f.wrote p)).amend p.markClean.snapshot = c.wroteBack f p := by
  have hres : (c.setTable (f.wrote p)).residentPage p.markClean.snapshot.id = some p := by
    change c.residentPage p.id = some p
    rw [h.id_eq, h.resident]
  exact amend_eq_place hres

theorem Marked.tables_wroteBack (h : c.Marked page p f) (id : TableId) :
    (c.wroteBack f p).tables.get? id =
      if id = page.table then some (f.wrote p) else c.tables.get? id := by
  have hget := get?_setTable c (f.wrote p) id
  rw [show (f.wrote p).table = page.table from h.table_eq.symm] at hget
  exact hget

/-- Each file holds what it held, but for the page that was written. -/
theorem Marked.onDisk_wroteBack (h : c.Marked page p f) (other : PageId) :
    (c.wroteBack f p).onDisk other = if other = page then some p.saved else c.onDisk other := by
  have htable : p.id.table = f.table := by rw [h.id_eq, h.table_eq]
  have hlt : p.id.number < f.pageCount := by
    rw [h.id_eq]
    exact h.in_range
  rw [onDisk, h.tables_wroteBack]
  split
  · rename_i htab
    have hother : other.table = f.table := by rw [htab, h.table_eq]
    have hwrote := TableFile.stored_wrote h.proper h.schema_eq h.size_eq htable hlt hother
    rw [h.id_eq] at hwrote
    rw [Option.bind_some, hwrote, HeapPage.saved_of_dirty h.dirty]
    split
    · rfl
    · rw [onDisk, htab, h.file]
      rfl
  · rename_i htab
    rw [if_neg (fun heq => htab (by rw [heq]))]
    rfl

theorem Marked.view_wroteBack (h : c.Marked page p f) (other : PageId) :
    (c.wroteBack f p).view other = if other = page then some p.saved else c.view other := by
  rw [view, wroteBack, residentPage_place, ← wroteBack, h.onDisk_wroteBack]
  change (if other = p.id then _ else c.residentPage other).or _ = _
  rw [h.id_eq, HeapPage.saved_of_dirty h.dirty]
  split <;> rfl

theorem Marked.reaches_wroteBack (h : c.Marked page p f) {other : PageId}
    (hreach : c.Reaches other) : (c.wroteBack f p).Reaches other := by
  obtain ⟨g, hg, hgr⟩ := hreach
  rw [Reaches, h.tables_wroteBack]
  split
  · rename_i htab
    rw [htab, h.file, Option.some.injEq] at hg
    subst hg
    refine ⟨_, rfl, ?_, hgr.holdable, hgr.readable⟩
    rw [TableFile.pageCount_wrote (by rw [h.id_eq]; exact h.in_range)]
    exact hgr.in_range
  · exact ⟨g, hg, hgr⟩

theorem Marked.sound_wroteBack (h : c.Marked page p f) (hc : c.Sound) : (c.wroteBack f p).Sound where
  keyed id g hg := by
    rw [h.tables_wroteBack] at hg
    split at hg
    · rename_i htab
      cases hg
      rw [htab, h.table_eq]
      rfl
    · exact hc.keyed id g hg
  reached other r hr := by
    apply h.reaches_wroteBack
    rw [wroteBack, residentPage_place] at hr
    split at hr
    · rename_i heq
      rw [heq, show p.markClean.snapshot.id = page from h.id_eq]
      exact hc.reached page p h.resident
    · exact hc.reached other r hr
  lies_over other r hr := by
    rw [h.view_wroteBack] at hr
    rw [h.onDisk_wroteBack]
    split at hr
    · rename_i heq
      cases hr
      rw [if_pos heq]
      exact ⟨_, rfl, h.proper.saved, .refl p.dirty_saved⟩
    · rename_i heq
      rw [if_neg heq]
      exact hc.lies_over other r hr
  locked other r u hr hmark := by
    rw [h.view_wroteBack] at hr
    split at hr
    · cases hr
      rw [HeapPage.dirty_saved] at hmark
      cases hmark
    · exact hc.locked other r u hr hmark

/-- A page with a mark is written to its file. -/
theorem Sound.saved_write (h : c.Sound) (hmarked : c.Marked page p f) :
    c.Saved [page] (c.wroteBack f p) where
  sound := hmarked.sound_wroteBack h
  view_eq other := by
    rw [hmarked.view_wroteBack]
    by_cases heq : other = page
    · simp [heq, view_of_resident hmarked.resident]
    · simp [heq]
  onDisk_eq other := by
    rw [hmarked.onDisk_wroteBack]
    by_cases heq : other = page
    · simp [heq, view_of_resident hmarked.resident]
    · simp [heq]
  tables_iff id := by
    rw [hmarked.tables_wroteBack]
    split
    · rename_i heq
      simp [heq, hmarked.file]
    · rfl
  locks_eq := rfl
  accepts := id

/-- What becomes of the log, and whether it refuses, depends on nothing but the log. -/
theorem tellLog_eq (c : Cache) (txn : TransactionId) (p : HeapPage) :
    ∃ log result, ∀ d : Cache, d.log = c.log → d.tellLog txn p = ({ d with log }, result) := by
  rcases hlog : c.log with _ | log
  · refine ⟨none, .ok (), ?_⟩
    intro d hd
    rw [tellLog, hd]
    simp only
    rw [← hd]
  · rcases hbefore : p.beforeImage with e | before
    · refine ⟨some log, .error e, ?_⟩
      intro d hd
      rw [tellLog, hd, hbefore]
      simp only
      rw [← hd]
    · refine ⟨some (log.tell ⟨txn, before, p⟩).1, (log.tell ⟨txn, before, p⟩).2, ?_⟩
      intro d hd
      rw [tellLog, hd, hbefore]

/-- Telling the log of a page that lies over its file can only fail if the log refuses. -/
theorem tellLog_cases (h : c.Sound) (hview : c.view page = some p) (txn : TransactionId) :
    ∃ log result, c.tellLog txn p = ({ c with log }, result) ∧
      (c.AcceptsAll → result = .ok () ∧ AcceptsAll { c with log }) := by
  obtain ⟨q, hq, -, hover⟩ := h.lies_over page p hview
  have hbefore : p.beforeImage = .ok q := by rw [hover.beforeImage_eq, beforeImage_of_onDisk hq]
  rcases hlog : c.log with _ | log
  · refine ⟨c.log, .ok (), ?_, fun ha => ⟨rfl, ha⟩⟩
    simp only [tellLog, hlog]
    rw [← hlog]
  · refine ⟨some (log.tell ⟨txn, q, p⟩).1, (log.tell ⟨txn, q, p⟩).2, ?_, ?_⟩
    · rw [tellLog, hlog, hbefore]
    · intro ha
      unfold WriteLog.tell
      rw [ha log hlog log.told ⟨txn, q, p⟩]
      refine ⟨rfl, ?_⟩
      intro log' hlog'
      cases hlog'
      exact ha log hlog

/-- A page is written back, or the log refuses it and only the log knows. -/
theorem Sound.writeBack_cases (h : c.Sound) (hres : c.residentPage page = some p)
    (hdirty : p.dirty ≠ none) (txn : TransactionId) :
    (∃ c' e, c.writeBack txn p = (c', .error e) ∧ c.Saved [] c' ∧ ¬ c.AcceptsAll) ∨
    ∃ c', c.writeBack txn p = (c', .ok ()) ∧ c.Saved [page] c' := by
  have hview := view_of_resident hres
  have hid := h.id_eq hview
  obtain ⟨f, hf, -⟩ := h.reached page p hres
  obtain ⟨log, result, htell, haccepts⟩ := tellLog_cases h hview txn
  unfold writeBack
  rw [hid, table_eq_ok hf, htell]
  cases result with
  | error e =>
    refine Or.inl ⟨_, e, rfl, saved_setLog h log fun ha => (haccepts ha).2, fun ha => ?_⟩
    cases (haccepts ha).1
  | ok _ =>
    have hset := saved_setLog h log fun ha => (haccepts ha).2
    have hmarked := hset.sound.marked hf hres hdirty
    have hsaved := hset.sound.saved_write hmarked
    rw [← hmarked.amend_eq] at hsaved
    simp only [hmarked.write_eq]
    refine Or.inr ⟨_, rfl, hsaved.sound, hsaved.view_eq, hsaved.onDisk_eq, hsaved.tables_iff,
      hsaved.locks_eq, fun ha => hsaved.accepts (hset.accepts ha)⟩

/-- A page that is seen without a mark, if it is resident, is resident without a mark. -/
theorem resident_clean (hclean : ∀ p, c.view page = some p → p.dirty = none)
    (hres : c.residentPage page = some p) : p.dirty = none := hclean p (view_of_resident hres)

/-- A page without a mark is passed over. -/
theorem writeBackAll_clean (hclean : ∀ p, c.view page = some p → p.dirty = none)
    (txn : TransactionId) (rest : List PageId) :
    writeBackAll txn (page :: rest) c = writeBackAll txn rest c := by
  rw [writeBackAll]
  rcases hres : c.residentPage page with _ | p
  · rfl
  · simp only
    rw [if_pos (by rw [resident_clean hclean hres]; rfl)]

theorem writeBackAll_dirty (hres : c.residentPage page = some p) (hdirty : p.dirty ≠ none)
    (txn : TransactionId) (rest : List PageId) :
    writeBackAll txn (page :: rest) c = match c.writeBack txn p with
      | (c, .error e) => (c, .error e)
      | (c, .ok ()) => writeBackAll txn rest c := by
  rcases hwrite : c.writeBack txn p with ⟨c', e | _⟩ <;> simp [writeBackAll, hres, hdirty, hwrite]

/-- A page has a mark and is resident, or whoever sees it sees no mark. -/
theorem dirty_or_clean (c : Cache) (page : PageId) :
    (∃ p, c.residentPage page = some p ∧ p.dirty ≠ none) ∨
      ∀ p, c.view page = some p → p.dirty = none := by
  by_cases h : ∀ p, c.view page = some p → p.dirty = none
  · exact Or.inr h
  · push Not at h
    obtain ⟨p, hp, hdirty⟩ := h
    exact Or.inl ⟨p, resident_of_dirty hp hdirty, hdirty⟩

/-- Pages are written back in order up to the first one that is refused, which has a mark. -/
theorem Sound.writeBackAll_cases (h : c.Sound) (txn : TransactionId) (pages : List PageId) :
    (∃ c', writeBackAll txn pages c = (c', .ok ()) ∧ c.Saved pages c') ∨
    ∃ c' e written refused rest p, writeBackAll txn pages c = (c', .error e) ∧
      pages = written ++ refused :: rest ∧ c.Saved written c' ∧
      c'.view refused = some p ∧ p.dirty ≠ none ∧ ¬ c.AcceptsAll := by
  induction pages generalizing c with
  | nil => exact Or.inl ⟨c, rfl, .nil h⟩
  | cons page rest ih =>
    -- the rest of the list follows the first page, which has been written or is clean
    have hnext : ∀ c₁, c.Saved [page] c₁ →
        (∃ c', writeBackAll txn rest c₁ = (c', .ok ()) ∧ c.Saved (page :: rest) c') ∨
        ∃ c' e written refused after p, writeBackAll txn rest c₁ = (c', .error e) ∧
          page :: rest = written ++ refused :: after ∧ c.Saved written c' ∧
          c'.view refused = some p ∧ p.dirty ≠ none ∧ ¬ c.AcceptsAll := by
      intro c₁ hsaved
      rcases ih hsaved.sound with ⟨c', he, hrest⟩ | ⟨c', e, written, refused, after, p, he, hsplit,
        hrest, hp, hdirty, hnot⟩
      · exact Or.inl ⟨c', he, hsaved.cons hrest⟩
      · exact Or.inr ⟨c', e, page :: written, refused, after, p, he, by rw [hsplit]; rfl,
          hsaved.cons hrest, hp, hdirty, fun ha => hnot (hsaved.accepts ha)⟩
    rcases c.dirty_or_clean page with ⟨p, hres, hdirty⟩ | hclean
    · rw [writeBackAll_dirty hres hdirty]
      rcases h.writeBack_cases hres hdirty txn with ⟨c', e, he, hsaved, hnot⟩ | ⟨c', he, hsaved⟩
      · rw [he]
        refine Or.inr ⟨c', e, [], page, rest, p, rfl, rfl, hsaved, ?_, hdirty, hnot⟩
        rw [hsaved.view_eq, if_neg (by simp), view_of_resident hres]
      · rw [he]
        exact hnext c' hsaved
    · rw [writeBackAll_clean hclean]
      exact hnext c (h.saved_of_clean hclean)

/-! ## Pages that are read again -/

/-- The pages of a list are seen as they stand in their files, and all else is as before. -/
structure Restored (pages : List PageId) (c c' : Cache) : Prop where
  sound : c'.Sound
  view_eq : ∀ page, c'.view page = if page ∈ pages then c.onDisk page else c.view page
  files : c.SameFiles c'
  locks_eq : c'.locks = c.locks
  log_eq : c'.log = c.log

theorem SameFiles.grows (h : c.SameFiles c') : c.Grows c' where
  no_new _ := h.none_of_none
  grows _ _ hf := by
    obtain ⟨g, hg, halike⟩ := h.exists_alike hf
    exact ⟨g, hg, TableFile.grows_of_alike halike⟩

theorem Restored.nil (h : c.Sound) : c.Restored [] c := ⟨h, fun _ => rfl, .refl c, rfl, rfl⟩

theorem Restored.cons {pages : List PageId} (h₁ : c.Restored [page] c')
    (h₂ : c'.Restored pages d) : c.Restored (page :: pages) d where
  sound := h₂.sound
  view_eq other := by
    rw [h₂.view_eq, h₁.view_eq, h₁.files.grows.onDisk_eq]
    by_cases hpage : other = page <;> by_cases hmem : other ∈ pages <;> simp [hpage, hmem]
  files := h₁.files.trans h₂.files
  locks_eq := h₂.locks_eq.trans h₁.locks_eq
  log_eq := h₂.log_eq.trans h₁.log_eq

/-- Where the page that is seen has no mark, it is seen as it stands in its file. -/
theorem Sound.restored_of_clean (h : c.Sound)
    (hclean : ∀ p, c.view page = some p → p.dirty = none) : c.Restored [page] c := by
  refine ⟨h, ?_, .refl c, rfl, rfl⟩
  intro other
  split
  · rename_i hmem
    rw [List.mem_singleton.1 hmem]
    rcases hv : c.view page with _ | p
    · exact (Option.or_eq_none_iff.1 hv).2.symm
    · exact (h.eq_onDisk hv (hclean p hv)).symm
  · rfl

/-- A page is put into its place again as its file holds it. -/
theorem Sound.restored_place (h : c.Sound) {g : TableFile} (hfiles : c.SameFiles (c.setTable g))
    (hres : c.residentPage page = some p) (hq : c.onDisk page = some q) :
    c.Restored [page] ((c.setTable g).place q) := by
  have hid : q.id = page := (stored_clean hq).2.1
  have hgrows : c.Grows ((c.setTable g).place q) := hfiles.grows.trans (.of_eq rfl)
  have hview : ∀ other, ((c.setTable g).place q).view other =
      if other ∈ [page] then c.onDisk other else c.view other := by
    intro other
    rw [view, residentPage_place, hgrows.onDisk_eq, hid]
    by_cases heq : other = page
    · rw [if_pos heq, if_pos (List.mem_singleton.2 heq), heq, hq, Option.some_or]
    · rw [if_neg heq, if_neg (fun hmem => heq (List.mem_singleton.1 hmem))]
      rfl
  refine ⟨⟨⟨hgrows.keyed h.keyed, ?_, ?_⟩, ?_⟩, hview, hfiles, rfl, rfl⟩
  · intro other r hr
    rw [residentPage_place, hid] at hr
    split at hr
    · rename_i heq
      rw [heq]
      exact hgrows.reaches (h.reached page p hres)
    · exact hgrows.reaches (h.reached other r hr)
  · intro other r hr
    rw [hview] at hr
    rw [hgrows.onDisk_eq]
    split at hr
    · obtain ⟨hproper, -, hclean⟩ := stored_clean hr
      exact ⟨r, hr, hproper, .refl hclean⟩
    · exact h.lies_over other r hr
  · intro other r u hr hmark
    rw [hview] at hr
    split at hr
    · rw [(stored_clean hr).2.2] at hmark
      cases hmark
    · exact h.locked other r u hr hmark

/-- A resident page is read again from its file. -/
theorem Sound.restored_reload (h : c.Sound) (hres : c.residentPage page = some p) :
    ∃ c₁ q, c.readPage page.table page = (c₁, .ok q) ∧ c.Restored [page] (c₁.amend q) := by
  obtain ⟨q, hq, -, -⟩ := h.lies_over page p (view_of_resident hres)
  obtain ⟨f, hf, hreach⟩ := h.reached page p hres
  have hkey := h.keyed _ f hf
  have hstored : f.stored page = some q := by
    rw [onDisk, hf] at hq
    exact hq
  have hread := TableFile.read_of_stored hkey.symm hstored hreach
  have halike := TableFile.withoutReads_read f page
  have hfiles : c.SameFiles (c.setTable (f.read page).1) := by
    refine sameFiles_setTable (f := f) ?_ halike
    rw [TableFile.table_eq_of_alike halike, hkey, hf]
  refine ⟨c.setTable (f.read page).1, q, ?_, ?_⟩
  · rw [readPage, table_eq_ok hf]
    simp only
    rw [hread]
  · have hres' : (c.setTable (f.read page).1).residentPage q.id = some p := by
      rw [(stored_clean hq).2.1]
      exact hres
    rw [amend_eq_place hres']
    exact h.restored_place hfiles hres hq

theorem reloadAll_clean (hclean : ∀ p, c.view page = some p → p.dirty = none)
    (rest : List PageId) (first : Option StoreError) :
    reloadAll (page :: rest) first c = reloadAll rest first c := by
  rw [reloadAll]
  rcases hres : c.residentPage page with _ | p
  · rfl
  · simp only
    rw [if_pos (by rw [resident_clean hclean hres]; rfl)]

/-- All pages of a list are read again, and none of these reads fails. -/
theorem Sound.reloadAll (h : c.Sound) (pages : List PageId) (first : Option StoreError) :
    ∃ c', reloadAll pages first c = (c', first) ∧ c.Restored pages c' := by
  induction pages generalizing c with
  | nil => exact ⟨c, rfl, .nil h⟩
  | cons page rest ih =>
    have hnext : ∀ c₁, c.Restored [page] c₁ →
        ∃ c', Cache.reloadAll rest first c₁ = (c', first) ∧ c.Restored (page :: rest) c' := by
      intro c₁ hrestored
      obtain ⟨c', he, hrest⟩ := ih hrestored.sound
      exact ⟨c', he, hrestored.cons hrest⟩
    rcases c.dirty_or_clean page with ⟨p, hres, hdirty⟩ | hclean
    · obtain ⟨c₁, q, hread, hrestored⟩ := h.restored_reload hres
      rw [Cache.reloadAll, hres]
      simp only
      rw [if_neg (by simpa using hdirty), hread]
      exact hnext _ hrestored
    · rw [reloadAll_clean hclean]
      exact hnext c (h.restored_of_clean hclean)

/-! ## The end of a transaction -/

/-- The transaction has ended. The pages that it had changed are seen, and stand in their
files, as `final` says; all other pages are as before. -/
structure Ended (txn : TransactionId) (final : PageId → Option HeapPage) (c c' : Cache) : Prop where
  sound : c'.Sound
  changed : ∀ page p, c.view page = some p → p.dirty = some txn →
    c'.view page = final page ∧ c'.onDisk page = final page
  unchanged : ∀ page, (∀ p, c.view page = some p → p.dirty ≠ some txn) →
    c'.view page = c.view page ∧ c'.onDisk page = c.onDisk page
  tables_iff : ∀ id, c'.tables.get? id = none ↔ c.tables.get? id = none
  locks_eq : c'.locks = c.locks.releaseAll txn
  accepts : c.AcceptsAll → c'.AcceptsAll

/-- The others keep their locks. -/
theorem Ended.heldMode_of_ne {final : PageId → Option HeapPage} (h : c.Ended txn final c')
    (ho : c.locks.Orderly) {u : TransactionId} (hne : u ≠ txn) :
    c'.locks.table.heldMode u page = c.locks.table.heldMode u page := by
  rw [h.locks_eq]
  change (c.locks.table.releaseAll txn).heldMode u page = _
  rw [LockTable.heldMode_releaseAll ho.tidy, if_neg hne]

/-- The pages that others have changed are left to them. -/
theorem Ended.mark_stays {final : PageId → Option HeapPage} (h : c.Ended txn final c')
    {u : TransactionId} (hview : c.view page = some p) (hdirty : p.dirty = some u) (hne : u ≠ txn) :
    c'.view page = some p := by
  refine (h.unchanged page fun q hq hmark => hne ?_).1.trans hview
  rw [hview, Option.some.injEq] at hq
  rw [← hq, hdirty, Option.some.injEq] at hmark
  exact hmark

/-- Whoever has changed a page holds it. -/
theorem Sound.mem_heldPages (h : c.Sound) (ho : c.locks.Orderly) (hview : c.view page = some p)
    (hdirty : p.dirty = some txn) : page ∈ c.heldPages txn := by
  have hheld := h.locked page p txn hview hdirty
  rw [heldPages, ho.tidy.mem_heldPages, hheld]
  simp

/-- On a page that a transaction holds, nobody else has made changes. -/
theorem Sound.dirty_of_held (h : c.Sound) (ho : c.locks.Orderly) (hheld : page ∈ c.heldPages txn)
    (hview : c.view page = some p) {u : TransactionId} (hdirty : p.dirty = some u) : u = txn := by
  have hwriter := h.locked page p u hview hdirty
  rw [heldPages, ho.tidy.mem_heldPages] at hheld
  exact (PageLock.eq_of_heldBy_readWrite (ho.tidy.exclusive page) hwriter hheld).symm

/-- A page that a transaction holds and has not changed has no mark. -/
theorem Sound.clean_of_held (h : c.Sound) (ho : c.locks.Orderly) (hheld : page ∈ c.heldPages txn)
    (hnot : ∀ p, c.view page = some p → p.dirty ≠ some txn) :
    ∀ p, c.view page = some p → p.dirty = none := by
  intro p hp
  rcases hdirty : p.dirty with _ | u
  · rfl
  · rw [h.dirty_of_held ho hheld hp hdirty] at hdirty
    exact absurd hdirty (hnot p hp)

/-- The locks of a transaction may go once no page has its mark. -/
theorem Sound.releaseAll (h : c.Sound) (ho : c.locks.Orderly)
    (hnone : ∀ page p, c.view page = some p → p.dirty ≠ some txn) : (c.releaseAll txn).Sound where
  keyed := h.keyed
  reached := h.reached
  lies_over := h.lies_over
  locked page p u hview hdirty := by
    have hne : u ≠ txn := by
      rintro rfl
      exact hnone page p hview hdirty
    have hall : (c.releaseAll txn).locks.table.heldMode u page = _ :=
      LockTable.heldMode_releaseAll ho.tidy
    rw [hall, if_neg hne]
    exact h.locked page p u hview hdirty

/-- A commit leaves the pages that it changed as they were seen, in their files too. -/
theorem Saved.ended (h : c.Sound) (ho : c.locks.Orderly) (hs : c.Saved (c.heldPages txn) c') :
    c.Ended txn (fun page => (c.view page).map HeapPage.saved) (c'.releaseAll txn) where
  sound := by
    apply hs.sound.releaseAll (by rw [hs.locks_eq]; exact ho)
    intro page p hview hdirty
    rw [hs.view_eq] at hview
    split at hview
    · obtain ⟨q, -, rfl⟩ := Option.map_eq_some_iff.1 hview
      rw [HeapPage.dirty_saved] at hdirty
      cases hdirty
    · rename_i hnot
      exact hnot (h.mem_heldPages ho hview hdirty)
  changed page p hview hdirty := by
    have hmem := h.mem_heldPages ho hview hdirty
    have hv := hs.view_eq page
    have hd := hs.onDisk_eq page
    rw [if_pos hmem] at hv hd
    exact ⟨hv, hd⟩
  unchanged page hnot := by
    have hv := hs.view_eq page
    have hd := hs.onDisk_eq page
    split at hv
    · rename_i hmem
      have hsame := h.saved_of_clean (h.clean_of_held ho hmem hnot)
      have hv' := hsame.view_eq page
      have hd' := hsame.onDisk_eq page
      rw [if_pos (List.mem_singleton.2 rfl)] at hv' hd'
      rw [if_pos hmem] at hd
      exact ⟨hv.trans hv'.symm, hd.trans hd'.symm⟩
    · rename_i hmem
      rw [if_neg hmem] at hd
      exact ⟨hv, hd⟩
  tables_iff := hs.tables_iff
  locks_eq := by
    rw [Cache.releaseAll, hs.locks_eq]
  accepts := hs.accepts

/-- An abort leaves the pages that it changed as they stand in their files. -/
theorem Restored.ended (h : c.Sound) (ho : c.locks.Orderly)
    (hr : c.Restored (c.heldPages txn) c') : c.Ended txn c.onDisk (c'.releaseAll txn) where
  sound := by
    apply hr.sound.releaseAll (by rw [hr.locks_eq]; exact ho)
    intro page p hview hdirty
    rw [hr.view_eq] at hview
    split at hview
    · rw [(stored_clean hview).2.2] at hdirty
      cases hdirty
    · rename_i hnot
      exact hnot (h.mem_heldPages ho hview hdirty)
  changed page p hview hdirty := by
    have hv := hr.view_eq page
    rw [if_pos (h.mem_heldPages ho hview hdirty)] at hv
    exact ⟨hv, hr.files.grows.onDisk_eq page⟩
  unchanged page hnot := by
    refine ⟨?_, hr.files.grows.onDisk_eq page⟩
    have hv := hr.view_eq page
    split at hv
    · rename_i hmem
      have hv' := (h.restored_of_clean (h.clean_of_held ho hmem hnot)).view_eq page
      rw [if_pos (List.mem_singleton.2 rfl)] at hv'
      exact hv.trans hv'.symm
    · exact hv
  tables_iff id := by
    constructor
    · exact hr.files.symm.none_of_none
    · exact hr.files.none_of_none
  locks_eq := by rw [Cache.releaseAll, hr.locks_eq]
  accepts ha log hlog := by
    have hlog' : c'.log = some log := hlog
    rw [hr.log_eq] at hlog'
    exact ha log hlog'

/-- A commit ends the transaction, or the log has refused a page and those before it in the
order of its pages have been written. -/
theorem Sound.commit_cases (h : c.Sound) (ho : c.locks.Orderly) (txn : TransactionId) :
    (∃ c', c.commit txn = (c', .ok ()) ∧
      c.Ended txn (fun page => (c.view page).map HeapPage.saved) c') ∨
    ∃ c' e written refused rest p, c.commit txn = (c', .error e) ∧
      c.heldPages txn = written ++ refused :: rest ∧ c.Saved written c' ∧
      c'.view refused = some p ∧ p.dirty ≠ none ∧ ¬ c.AcceptsAll := by
  unfold commit
  rcases h.writeBackAll_cases txn (c.heldPages txn) with ⟨c', he, hs⟩ | ⟨c', e, written, refused,
    rest, p, he, hsplit, hs, hp, hdirty, hnot⟩
  · rw [he]
    exact Or.inl ⟨_, rfl, hs.ended h ho⟩
  · rw [he]
    exact Or.inr ⟨c', e, written, refused, rest, p, rfl, hsplit, hs, hp, hdirty, hnot⟩

/-- An abort always succeeds. -/
theorem Sound.abort_ended (h : c.Sound) (ho : c.locks.Orderly) (txn : TransactionId) :
    ∃ c', c.abort txn = (c', .ok ()) ∧ c.Ended txn c.onDisk c' := by
  unfold abort
  obtain ⟨c', he, hr⟩ := h.reloadAll (c.heldPages txn) none
  rw [he]
  exact ⟨_, rfl, hr.ended h ho⟩

end Cache

end PageCache
