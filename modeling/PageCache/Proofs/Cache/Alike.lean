-- Two caches that differ only in what is resident. Whoever looks at pages cannot tell them
-- apart, and what is done to both leaves them so: pages that are fetched or appended, and
-- transactions that end.
import PageCache.Proofs.Cache.Endings

namespace PageCache

namespace Cache

variable {c c' d d' : Cache} {page : PageId} {p q : HeapPage} {txn : TransactionId}

/-! ## Caches that nobody can tell apart -/

/-- The caches have the same locks, the same log and the same files, and every page is seen
alike in both. -/
structure Alike (c d : Cache) : Prop where
  locks_eq : d.locks = c.locks
  log_eq : d.log = c.log
  files : c.SameFiles d
  view_eq : ∀ page, d.view page = c.view page

theorem Alike.symm (h : c.Alike d) : d.Alike c :=
  ⟨h.locks_eq.symm, h.log_eq.symm, h.files.symm, fun page => (h.view_eq page).symm⟩

theorem Alike.holds_eq (h : c.Alike d) (txn : TransactionId) (page : PageId) :
    d.holds txn page = c.holds txn page := by rw [holds, holds, h.locks_eq]

/-- A table is in both caches, with the same file, or in none. -/
theorem Alike.table_cases (h : c.Alike d) (id : TableId) :
    (∃ e, c.table id = .error e ∧ d.table id = .error e) ∨
      ∃ f g, c.tables.get? id = some f ∧ d.tables.get? id = some g ∧
        c.table id = .ok f ∧ d.table id = .ok g ∧ g.withoutReads = f.withoutReads := by
  rcases hf : c.tables.get? id with _ | f
  · have hg := h.files.none_of_none hf
    exact Or.inl ⟨.unknownTable id, by rw [table, hf], by rw [table, hg]⟩
  · obtain ⟨g, hg, halike⟩ := h.files.exists_alike hf
    exact Or.inr ⟨f, g, rfl, hg, table_eq_ok hf, table_eq_ok hg, halike⟩

theorem Alike.setLocks (h : c.Alike d) (locks : Locking) :
    Alike { c with locks } { d with locks } := ⟨rfl, h.log_eq, h.files, h.view_eq⟩

/-- Quiet steps on both sides, with the same locks and files in the end. -/
theorem Alike.of_quiet (h : c.Alike d) (hc : c.Quiet c') (hd : d.Quiet d') (hclog : c'.log = c.log)
    (hdlog : d'.log = d.log) (hlocks : d'.locks = c'.locks) (hfiles : c'.SameFiles d') :
    c'.Alike d' where
  locks_eq := hlocks
  log_eq := by rw [hclog, hdlog, h.log_eq]
  files := hfiles
  view_eq page := by rw [hc.view_eq, hd.view_eq, h.view_eq]

/-! ## Bringing a page in -/

/-- What comes of reading a page without a cache between: the page as it is seen, or the
failure that its file tells of. -/
def readThrough (c : Cache) (page : PageId) : Except StoreError HeapPage :=
  match c.table page.table with
  | .error e => .error e
  | .ok file => (file.read page).2.map fun p => (c.view page).getD p

theorem exhausted_of_makeRoom {e : StoreError} (h : c.makeRoom = .error e) :
    e = .cacheFull c.capacity := by
  unfold makeRoom evict at h
  split at h
  · split at h <;> cases h
    rfl
  · cases h

/-- Bringing a page in is reading it, unless the cache is full. -/
theorem Sound.bring_cases (h : c.Sound) (page : PageId) :
    (∃ capacity, (c.bring page).2 = .error (.cacheFull capacity)) ∨
      (c.bring page).2 = c.readThrough page := by
  rcases hframe : c.resident.get? page with _ | frame
  · have hres : c.residentPage page = none := by rw [residentPage, hframe]; rfl
    unfold Cache.bring readThrough
    rw [hframe]
    rcases htable : c.table page.table with e | f
    · exact Or.inr rfl
    · have hf := get?_of_table htable
      simp only
      rcases hread : f.read page with ⟨g, e | p⟩
      · exact Or.inr rfl
      · obtain ⟨-, hstored, -⟩ := TableFile.read_ok (congrArg Prod.snd hread)
        have hview : c.view page = some p := by
          rw [view_of_not_resident hres, onDisk, hf]
          exact hstored
        simp only
        split
        · rename_i e hroom
          exact Or.inl ⟨_, by rw [exhausted_of_makeRoom hroom]⟩
        · right
          rw [hview]
          rfl
  · have hres : c.residentPage page = some frame.page := by rw [residentPage, hframe]; rfl
    have hview := view_of_resident hres
    obtain ⟨f, hf, hreach⟩ := h.reached page _ hres
    obtain ⟨q, hq, -⟩ := h.lies_over page _ hview
    have hstored : f.stored page = some q := by
      rw [onDisk, hf] at hq
      exact hq
    have hread := TableFile.read_of_stored (h.keyed _ f hf).symm hstored hreach
    right
    unfold Cache.bring readThrough
    rw [hframe, table_eq_ok hf, hview]
    simp only [hread]
    rfl

theorem Alike.readThrough_eq (h : c.Alike d) (page : PageId) :
    d.readThrough page = c.readThrough page := by
  unfold readThrough
  rcases h.table_cases page.table with ⟨e, hc, hd⟩ | ⟨f, g, -, -, hc, hd, halike⟩
  · rw [hc, hd]
  · rw [hc, hd]
    simp only
    rw [TableFile.read_eq_of_alike halike, h.view_eq]

/-- A page is brought into both caches alike. -/
theorem Alike.bring (h : c.Alike d) (hc : c.Sound) (hd : d.Sound) (page : PageId) :
    (c.bring page).1.Alike (d.bring page).1 ∧
      ((∃ capacity, (c.bring page).2 = .error (.cacheFull capacity)) ∨
        (∃ capacity, (d.bring page).2 = .error (.cacheFull capacity)) ∨
        (d.bring page).2 = (c.bring page).2) := by
  obtain ⟨hcq, hclocks, hclog, -⟩ := hc.bring page
  obtain ⟨hdq, hdlocks, hdlog, -⟩ := hd.bring page
  have hfiles := ((hc.sameFiles_bring page).symm.trans h.files).trans (hd.sameFiles_bring page)
  refine ⟨h.of_quiet hcq hdq hclog hdlog (by rw [hclocks, hdlocks, h.locks_eq]) hfiles, ?_⟩
  rcases hc.bring_cases page with hfull | heq
  · exact Or.inl hfull
  · rcases hd.bring_cases page with hfull | heq'
    · exact Or.inr (Or.inl hfull)
    · exact Or.inr (Or.inr (by rw [heq, heq', h.readThrough_eq]))

/-- A page is fetched from both caches alike. -/
theorem Alike.fetch (h : c.Alike d) (hc : c.Ready txn) (hd : d.Ready txn) (page : PageId)
    (access : Access) :
    (c.fetch txn page access).1.Alike (d.fetch txn page access).1 ∧
      ((∃ capacity, (c.fetch txn page access).2 = .failed (.cacheFull capacity)) ∨
        (∃ capacity, (d.fetch txn page access).2 = .failed (.cacheFull capacity)) ∨
        (d.fetch txn page access).2 = (c.fetch txn page access).2) := by
  unfold Cache.fetch
  rcases h.table_cases page.table with ⟨e, hce, hde⟩ | ⟨f, g, -, -, hce, hde, -⟩
  · rw [hce, hde]
    exact ⟨h, Or.inr (Or.inr rfl)⟩
  · rw [hce, hde, h.locks_eq]
    obtain ⟨hturn, hanswer⟩ := hc.orderly.turn_acquire hc.idle page access
    rcases hacq : c.locks.acquire txn page access with ⟨locks, answer⟩
    rw [hacq] at hturn hanswer
    cases answer with
    | refused => exact ⟨h.setLocks locks, Or.inr (Or.inr rfl)⟩
    | waiting => exact ⟨h.setLocks locks, Or.inr (Or.inr rfl)⟩
    | granted =>
      have hsound : ∀ {x : Cache}, x.Ready txn → x.locks = c.locks → Cache.Sound { x with locks } :=
        fun {x} hx hlocks => hx.sound.of_quiet (.of_same rfl fun _ => rfl) fun u other hw =>
          hturn.writers u other (hlocks ▸ hw)
      obtain ⟨halike, hresult⟩ :=
        (h.setLocks locks).bring (hsound hc rfl) (hsound hd h.locks_eq) page
      simp only
      rcases hcb : Cache.bring { c with locks } page with ⟨c₁, e | p⟩ <;>
        rcases hdb : Cache.bring { d with locks } page with ⟨d₁, e' | p'⟩ <;>
        rw [hcb, hdb] at halike hresult <;> refine ⟨halike, ?_⟩ <;>
        simpa using hresult

theorem SameFiles.setTable (h : c.SameFiles d) {f g : TableFile}
    (halike : g.withoutReads = f.withoutReads) : (c.setTable f).SameFiles (d.setTable g) := by
  intro id
  rw [get?_setTable, get?_setTable, TableFile.table_eq_of_alike halike]
  split
  · rw [Option.map_some, Option.map_some, halike]
  · exact h id

/-- A new table is added to both caches. Nothing of it is resident. -/
theorem Alike.new_table (h : c.Alike d) (hc : c.Sound) (hd : d.Sound) {f : TableFile}
    (hnew : c.tables.get? f.table = none) : (c.setTable f).Alike (d.setTable f) := by
  have hfiles := h.files.setTable (rfl : f.withoutReads = f.withoutReads)
  refine ⟨h.locks_eq, h.log_eq, hfiles, ?_⟩
  intro page
  rw [hc.view_new_table hnew, hd.view_new_table (h.files.none_of_none hnew), h.view_eq]

/-- Both caches append the same page. -/
theorem Alike.allocate (h : c.Alike d) (hc : c.Sound) (hd : d.Sound) (hroom : c.HasRoom)
    (id : TableId) : (c.allocate id).1.Alike (d.allocate id).1 ∧
      (d.allocate id).2 = (c.allocate id).2 := by
  have hroom' := h.files.hasRoom hroom
  obtain ⟨hcq, hclocks, hclog⟩ := hc.quiet_allocate hroom id
  obtain ⟨hdq, hdlocks, hdlog⟩ := hd.quiet_allocate hroom' id
  unfold Cache.allocate at *
  rcases h.table_cases id with ⟨e, hce, hde⟩ | ⟨f, g, hf, hg, hce, hde, halike⟩
  · rw [hce, hde]
    exact ⟨h, rfl⟩
  · rw [hce] at hcq hclocks hclog
    rw [hde] at hdq hdlocks hdlog
    simp only [hce, hde, TableFile.allocate_eq (hroom id f hf),
      TableFile.allocate_eq (hroom' id g hg)] at *
    have hfiles := h.files.setTable (TableFile.grown_alike halike)
    refine ⟨h.of_quiet hcq hdq hclog hdlog (by rw [hclocks, hdlocks, h.locks_eq]) hfiles, ?_⟩
    rw [TableFile.pageCount_eq_of_alike halike, TableFile.pageId, TableFile.pageId,
      TableFile.table_eq_of_alike halike]

/-- Each cache lets a page go that nobody misses. -/
theorem Alike.evict_left (h : c.Alike d) (hc : c.Sound) (he : c.evict = .ok (c', page)) :
    c'.Alike d := by
  obtain ⟨hquiet, hlocks, hlog⟩ := hc.quiet_evict he
  exact h.of_quiet hquiet (.refl d) hlog rfl (by rw [hlocks, h.locks_eq])
    ((SameFiles.of_eq (evict_tables he)).symm.trans h.files)

/-! ## The end of a transaction in both caches -/

/-- A changed page is resident in both caches. It is written back in both, or refused. -/
theorem Alike.writeBack (h : c.Alike d) (hc : c.Sound) (hd : d.Sound)
    (hcres : c.residentPage page = some p) (hdres : d.residentPage page = some p)
    (hdirty : p.dirty ≠ none) (txn : TransactionId) :
    (c.writeBack txn p).1.Alike (d.writeBack txn p).1 ∧
      (d.writeBack txn p).2 = (c.writeBack txn p).2 := by
  have hid := hc.id_eq (view_of_resident hcres)
  obtain ⟨log, result, htell⟩ := c.tellLog_eq txn p
  rcases h.table_cases page.table with ⟨e, hce, hde⟩ | ⟨f, g, hf, hg, hce, hde, halike⟩
  · obtain ⟨f, hf, -⟩ := hc.reached page p hcres
    rw [table_eq_ok hf] at hce
    cases hce
  · unfold Cache.writeBack
    rw [hid, hce, hde, htell c rfl, htell d h.log_eq]
    cases result with
    | error e => exact ⟨⟨h.locks_eq, rfl, h.files, h.view_eq⟩, rfl⟩
    | ok _ =>
      have hcmarked := (hc.setLog log).marked hf hcres hdirty
      have hdmarked := (hd.setLog log).marked hg hdres hdirty
      simp only [hcmarked.write_eq, hdmarked.write_eq, hcmarked.amend_eq, hdmarked.amend_eq]
      refine ⟨⟨h.locks_eq, rfl, h.files.setTable (TableFile.wrote_alike halike p), fun other => ?_⟩,
        trivial⟩
      rw [hcmarked.view_wroteBack, hdmarked.view_wroteBack]
      split
      · rfl
      · exact h.view_eq other

/-- The same pages are written back in both caches, up to the same refusal. -/
theorem Alike.writeBackAll (h : c.Alike d) (hc : c.Sound) (hd : d.Sound) (txn : TransactionId)
    (pages : List PageId) :
    (writeBackAll txn pages c).1.Alike (writeBackAll txn pages d).1 ∧
      (writeBackAll txn pages d).2 = (writeBackAll txn pages c).2 := by
  induction pages generalizing c d with
  | nil => exact ⟨h, rfl⟩
  | cons page rest ih =>
    rcases c.dirty_or_clean page with ⟨p, hcres, hdirty⟩ | hclean
    · have hdres : d.residentPage page = some p :=
        resident_of_dirty (by rw [h.view_eq, view_of_resident hcres]) hdirty
      obtain ⟨halike, hresult⟩ := h.writeBack hc hd hcres hdres hdirty txn
      rw [writeBackAll_dirty hcres hdirty, writeBackAll_dirty hdres hdirty]
      rcases hc.writeBack_cases hcres hdirty txn with ⟨c', e, hce, -, -⟩ | ⟨c', hce, hcsaved⟩ <;>
        rcases hd.writeBack_cases hdres hdirty txn with ⟨d', e', hde, -, -⟩ | ⟨d', hde, hdsaved⟩ <;>
        rw [hce, hde] at halike hresult <;> rw [hce, hde] <;> cases hresult
      · exact ⟨halike, rfl⟩
      · exact ih halike hcsaved.sound hdsaved.sound
    · rw [writeBackAll_clean hclean, writeBackAll_clean (by simpa only [h.view_eq] using hclean)]
      exact ih h hc hd

theorem Alike.releaseAll (h : c.Alike d) (txn : TransactionId) :
    (c.releaseAll txn).Alike (d.releaseAll txn) := by
  rw [Cache.releaseAll, Cache.releaseAll, h.locks_eq]
  exact h.setLocks _

theorem Alike.commit (h : c.Alike d) (hc : c.Sound) (hd : d.Sound) (txn : TransactionId) :
    (c.commit txn).1.Alike (d.commit txn).1 ∧ (d.commit txn).2 = (c.commit txn).2 := by
  obtain ⟨halike, hresult⟩ := h.writeBackAll hc hd txn (c.heldPages txn)
  unfold Cache.commit
  rw [show d.heldPages txn = c.heldPages txn by rw [heldPages, heldPages, h.locks_eq]]
  rcases hcw : Cache.writeBackAll txn (c.heldPages txn) c with ⟨c', e | _⟩ <;>
    rcases hdw : Cache.writeBackAll txn (c.heldPages txn) d with ⟨d', e' | _⟩ <;>
    rw [hcw, hdw] at halike hresult <;> cases hresult
  · exact ⟨halike, rfl⟩
  · exact ⟨halike.releaseAll txn, rfl⟩

theorem Alike.abort (h : c.Alike d) (hc : c.Sound) (hd : d.Sound) (txn : TransactionId) :
    (c.abort txn).1.Alike (d.abort txn).1 ∧ (d.abort txn).2 = (c.abort txn).2 := by
  obtain ⟨c', hce, hcr⟩ := hc.reloadAll (c.heldPages txn) none
  obtain ⟨d', hde, hdr⟩ := hd.reloadAll (c.heldPages txn) none
  unfold Cache.abort
  rw [show d.heldPages txn = c.heldPages txn by rw [heldPages, heldPages, h.locks_eq], hce, hde]
  have hdisk : ∀ page, d.onDisk page = c.onDisk page := h.files.grows.onDisk_eq
  have halike : c'.Alike d' := by
    constructor
    · rw [hcr.locks_eq, hdr.locks_eq, h.locks_eq]
    · rw [hcr.log_eq, hdr.log_eq, h.log_eq]
    · exact (hcr.files.symm.trans h.files).trans hdr.files
    · intro page
      rw [hcr.view_eq, hdr.view_eq, h.view_eq, hdisk]
  exact ⟨halike.releaseAll txn, rfl⟩

end Cache

end PageCache
