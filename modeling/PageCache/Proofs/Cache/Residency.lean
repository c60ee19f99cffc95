-- Which pages are resident does not matter to those who look at them: a page that is let go
-- is as its file holds it, and a page that is brought in is what was seen of it before.
import PageCache.Proofs.Cache.View

namespace PageCache

namespace Cache

variable {c c' : Cache} {page : PageId} {p q : HeapPage} {txn : TransactionId}
  {f : TableFile} {e : StoreError}

theorem get?_of_table {id : TableId} (h : c.table id = .ok f) : c.tables.get? id = some f := by
  unfold table at h
  split at h
  · rename_i hget
    cases h
    exact hget
  · cases h

theorem table_eq_ok {id : TableId} (h : c.tables.get? id = some f) : c.table id = .ok f := by
  rw [table, h]

/-! ## Single steps -/

/-- Caches with the same resident pages and the same tables are seen alike. -/
theorem Quiet.of_same (htables : c'.tables = c.tables)
    (hresident : ∀ page, c'.residentPage page = c.residentPage page) : c.Quiet c' where
  toGrows := .of_eq htables
  view_eq page := by rw [view, view, onDisk, onDisk, hresident, htables]
  reached page p h := Or.inl (by rw [← hresident, h])

theorem quiet_noteUse (c : Cache) (page : PageId) : c.Quiet (c.noteUse page) :=
  .of_same rfl fun _ => rfl

theorem setPinned_same (c : Cache) (page : PageId) (pinned : Bool) :
    (c.setPinned page pinned).tables = c.tables ∧ (c.setPinned page pinned).locks = c.locks ∧
      (c.setPinned page pinned).log = c.log := by
  unfold setPinned
  split <;> exact ⟨rfl, rfl, rfl⟩

/-- A pin changes nothing of a page. -/
theorem residentPage_setPinned (c : Cache) (page : PageId) (pinned : Bool) (other : PageId) :
    (c.setPinned page pinned).residentPage other = c.residentPage other := by
  unfold setPinned
  split
  · rename_i frame hframe
    simp only [residentPage, FinMap.get?_insert]
    split
    · rename_i heq
      rw [heq, hframe]
      rfl
    · rfl
  · rfl

theorem quiet_setPinned (c : Cache) (page : PageId) (pinned : Bool) :
    c.Quiet (c.setPinned page pinned) :=
  .of_same (setPinned_same c page pinned).1 (residentPage_setPinned c page pinned)

theorem get?_setTable (c : Cache) (f : TableFile) (id : TableId) :
    (c.setTable f).tables.get? id = if id = f.table then some f else c.tables.get? id :=
  FinMap.get?_insert _ _ _ _

theorem onDisk_setTable (c : Cache) (f : TableFile) (page : PageId) :
    (c.setTable f).onDisk page =
      if page.table = f.table then f.stored page else c.onDisk page := by
  rw [onDisk, get?_setTable]
  split <;> rfl

/-- The pages of a new table are seen as its file holds them. -/
theorem Grounded.view_new_table (h : c.Grounded) (hnew : c.tables.get? f.table = none)
    (page : PageId) : (c.setTable f).view page = if page.table = f.table then f.stored page else c.view page := by
  rw [view, onDisk_setTable]
  split
  · rename_i htable
    have hres : (c.setTable f).residentPage page = none := by
      rcases hres : c.residentPage page with _ | p
      · exact hres
      · obtain ⟨g, hg, -⟩ := h.reached page p hres
        rw [htable, hnew] at hg
        cases hg
    rw [hres, Option.none_or]
  · rfl

/-- A file that has grown is put back under its own number. -/
theorem grows_setTable (hkeyed : ∀ id k, c.tables.get? id = some k → k.table = id)
    {table : TableId} (hf : c.tables.get? table = some f) {g : TableFile} (hgrows : f.Grows g) :
    c.Grows (c.setTable g) := by
  have hkey : g.table = table := hgrows.table_eq.trans (hkeyed _ f hf)
  constructor
  · intro id hid
    rw [get?_setTable, if_neg]
    · exact hid
    · rintro rfl
      rw [hkey, hf] at hid
      cases hid
  · intro id k hk
    rw [get?_setTable]
    split
    · rename_i hid
      rw [hid, hkey, hf, Option.some.injEq] at hk
      exact ⟨g, rfl, hk ▸ hgrows⟩
    · exact ⟨k, hk, .refl k⟩

theorem Grounded.quiet_setTable (h : c.Grounded) {table : TableId}
    (hf : c.tables.get? table = some f) {g : TableFile} (hgrows : f.Grows g) : c.Quiet (c.setTable g) := by
  have hgrow := grows_setTable h.keyed hf hgrows
  refine ⟨hgrow, fun other => ?_, fun _ _ => Or.inl⟩
  rw [view, view, hgrow.onDisk_eq other]
  rfl

theorem residentPage_place (c : Cache) (p : HeapPage) (other : PageId) :
    (c.place p).residentPage other = if other = p.id then some p else c.residentPage other := by
  simp only [place, residentPage, FinMap.get?_insert]
  split <;> rfl

theorem contains_of_resident (hres : c.residentPage page = some p) :
    c.resident.contains page = true := by
  obtain ⟨frame, hframe, -⟩ := Option.map_eq_some_iff.1 hres
  exact (FinMap.contains_iff _ _).2 ⟨frame, hframe⟩

theorem mem_keys_of_resident (hres : c.residentPage page = some p) : page ∈ c.resident.keys :=
  (FinMap.mem_keys_iff _ _).2 ((FinMap.contains_iff _ _).1 (contains_of_resident hres))

/-- A resident page is replaced in its place. -/
theorem amend_eq_place (hres : c.residentPage p.id = some q) : c.amend p = c.place p := by
  rw [amend, if_pos (contains_of_resident hres)]

theorem residentPage_amend (hres : c.residentPage p.id = some q) (other : PageId) :
    (c.amend p).residentPage other = if other = p.id then some p else c.residentPage other := by
  rw [amend_eq_place hres, residentPage_place]

theorem amend_same (c : Cache) (p : HeapPage) : (c.amend p).tables = c.tables ∧
    (c.amend p).locks = c.locks ∧ (c.amend p).log = c.log := by
  unfold amend
  split <;> exact ⟨rfl, rfl, rfl⟩

theorem discard_same (c : Cache) (page : PageId) :
    (c.discard page).tables = c.tables ∧ (c.discard page).locks = c.locks := by
  unfold discard
  split <;> exact ⟨rfl, rfl⟩

theorem residentPage_discard (c : Cache) (page other : PageId) :
    (c.discard page).residentPage other = if other = page then none else c.residentPage other := by
  unfold discard
  split
  · simp only [residentPage, FinMap.get?_erase]
    split <;> rfl
  · rename_i hnot
    split
    · rename_i heq
      rcases hres : c.residentPage other with _ | p
      · rfl
      · exact absurd (contains_of_resident (heq ▸ hres)) hnot
    · rfl

/-- A page is brought in as its file holds it. -/
theorem quiet_place (hres : c.residentPage p.id = none) (hdisk : c.onDisk p.id = some p)
    (hreach : c.Reaches p.id) : c.Quiet (c.place p) where
  toGrows := .of_eq rfl
  view_eq other := by
    rw [view, residentPage_place]
    split
    · rename_i heq
      rw [heq, view_of_not_resident hres, hdisk, Option.some_or]
    · rfl
  reached other r h := by
    rw [residentPage_place] at h
    split at h
    · rename_i heq
      rw [heq]
      exact Or.inr hreach
    · exact Or.inl h

theorem mayEvict_iff : c.mayEvict page = true ↔
    c.locks.table.pageMode page ≠ some .readWrite ∧ ∃ frame, c.resident.get? page = some frame ∧
      frame.pinned = false ∧ frame.page.dirty = none := by
  simp only [mayEvict, ne_eq, decide_not, Bool.and_eq_true, Bool.not_eq_true',
    decide_eq_false_iff_not, Option.any_eq_true, Option.isNone_iff_eq_none]

theorem residentPage_evict (he : c.evict = .ok (c', page)) (other : PageId) :
    c'.residentPage other = if other = page then none else c.residentPage other := by
  unfold evict at he
  split at he
  · cases he
    simp only [residentPage, FinMap.get?_erase]
    split <;> rfl
  · cases he

/-- What is resident after room was made was resident before. -/
theorem residentPage_makeRoom (he : c.makeRoom = .ok c') (hres : c'.residentPage page = some p) :
    c.residentPage page = some p := by
  unfold makeRoom at he
  split at he
  · rcases hev : c.evict with e | ⟨d, victim⟩ <;> rw [hev] at he <;> cases he
    rw [residentPage_evict hev] at hres
    split at hres
    · cases hres
    · exact hres
  · cases he
    exact hres

/-- A page without a mark is let go, so the view stays. -/
theorem Grounded.quiet_evict (h : c.Grounded) (he : c.evict = .ok (c', page)) :
    c.Quiet c' ∧ c'.locks = c.locks ∧ c'.log = c.log := by
  unfold evict at he
  split at he
  · rename_i uses victim hvictim
    cases he
    have hmay := LruK.candidate_of_evict (congrArg Prod.snd hvictim)
    obtain ⟨-, frame, hframe, -, hclean⟩ := mayEvict_iff.1 hmay
    have hres : c.residentPage page = some frame.page := by rw [residentPage, hframe]; rfl
    have hdisk := h.eq_onDisk (view_of_resident hres) hclean
    refine ⟨⟨.of_eq rfl, fun other => ?_, fun other r hr => ?_⟩,
      rfl, rfl⟩
    · rw [view]
      simp only [residentPage, FinMap.get?_erase]
      split
      · rename_i heq
        rw [heq, view_of_resident hres, Option.map_none, Option.none_or]
        exact hdisk
      · rfl
    · simp only [residentPage, FinMap.get?_erase] at hr
      split at hr
      · cases hr
      · exact Or.inl hr
  · cases he

theorem Grounded.quiet_makeRoom (h : c.Grounded) (he : c.makeRoom = .ok c') :
    c.Quiet c' ∧ c'.locks = c.locks ∧ c'.log = c.log ∧
      (∀ page, c.residentPage page = none → c'.residentPage page = none) := by
  have hnone : ∀ page, c.residentPage page = none → c'.residentPage page = none := by
    intro page hnone
    rcases hres : c'.residentPage page with _ | p
    · rfl
    · rw [residentPage_makeRoom he hres] at hnone
      cases hnone
  unfold makeRoom at he
  split at he
  · rcases hev : c.evict with err | ⟨d, victim⟩ <;> rw [hev] at he <;> cases he
    obtain ⟨hq, hlocks, hlog⟩ := h.quiet_evict hev
    exact ⟨hq, hlocks, hlog, hnone⟩
  · cases he
    exact ⟨.refl c, rfl, rfl, hnone⟩

/-! ## Bringing a page in -/

/-- Whatever comes of bringing a page in, nothing is seen of it. What is returned is what was
seen of the page before, and the page is resident from then on. -/
theorem Grounded.bring (h : c.Grounded) (page : PageId) :
    c.Quiet (c.bring page).1 ∧ (c.bring page).1.locks = c.locks ∧ (c.bring page).1.log = c.log ∧
      ∀ p, (c.bring page).2 = .ok p →
        c.view page = some p ∧ (c.bring page).1.residentPage page = some p := by
  unfold Cache.bring
  split
  · rename_i frame hframe
    have hres : c.residentPage page = some frame.page := by rw [residentPage, hframe]; rfl
    refine ⟨quiet_noteUse c page, rfl, rfl, ?_⟩
    intro p hp
    cases hp
    exact ⟨view_of_resident hres, hres⟩
  · rename_i hframe
    have hres : c.residentPage page = none := by rw [residentPage, hframe]; rfl
    split
    · exact ⟨.refl c, rfl, rfl, fun p hp => by cases hp⟩
    · rename_i file htable
      have hfile := get?_of_table htable
      rcases hread : file.read page with ⟨g, err | p⟩
      · have hgrows : file.Grows g := TableFile.grows_of_alike (by
          rw [← TableFile.withoutReads_read file page, hread])
        exact ⟨h.quiet_setTable hfile hgrows, rfl, rfl, fun p hp => by cases hp⟩
      · have hgrows : file.Grows g := TableFile.grows_of_alike (by
          rw [← TableFile.withoutReads_read file page, hread])
        have hok : (file.read page).2 = .ok p := by rw [hread]
        obtain ⟨htab, hstored, hreach⟩ := TableFile.read_ok hok
        have hset := h.quiet_setTable hfile hgrows
        have hgrounded : (c.setTable g).Grounded := h.of_quiet hset
        have hid : p.id = page := (TableFile.stored_proper hstored).2.1
        simp only
        split
        · exact ⟨hset, rfl, rfl, fun p hp => by cases hp⟩
        · rename_i d hroom
          obtain ⟨hq, hlocks, hlog, hnone⟩ := hgrounded.quiet_makeRoom hroom
          have hdisk : d.onDisk p.id = some p := by
            rw [hid, hq.onDisk_eq, hset.onDisk_eq, onDisk, hfile]
            exact hstored
          have hdreach : d.Reaches p.id := by
            rw [hid]
            exact hq.reaches (hset.reaches ⟨file, hfile, hreach⟩)
          have hdres : d.residentPage p.id = none := by
            rw [hid]
            exact hnone page hres
          refine ⟨
            ((hset.trans hq).trans (quiet_place hdres hdisk hdreach)).trans (quiet_noteUse _ page),
            hlocks, hlog, ?_⟩
          intro r hr
          cases hr
          constructor
          · rw [view_of_not_resident hres, onDisk, hfile]
            exact hstored
          · change (d.place p).residentPage page = some p
            rw [residentPage_place, if_pos hid.symm]

/-! ## Files and their room -/

/-- The files are the same but for the number of their reads. -/
def SameFiles (c c' : Cache) : Prop :=
  ∀ id, (c'.tables.get? id).map TableFile.withoutReads =
    (c.tables.get? id).map TableFile.withoutReads

/-- Every table has room for one more page. -/
def HasRoom (c : Cache) : Prop := ∀ id f, c.tables.get? id = some f → f.HasRoom

theorem SameFiles.refl (c : Cache) : c.SameFiles c := fun _ => rfl

theorem SameFiles.symm (h : c.SameFiles c') : c'.SameFiles c := fun id => (h id).symm

theorem SameFiles.trans {d : Cache} (h₁ : c.SameFiles c') (h₂ : c'.SameFiles d) : c.SameFiles d :=
  fun id => (h₂ id).trans (h₁ id)

theorem SameFiles.of_eq (h : c'.tables = c.tables) : c.SameFiles c' := fun id => by rw [h]

/-- Each file has its counterpart. -/
theorem SameFiles.exists_alike (h : c.SameFiles c') {id : TableId}
    (hf : c.tables.get? id = some f) :
    ∃ g, c'.tables.get? id = some g ∧ g.withoutReads = f.withoutReads := by
  have hid := h id
  rw [hf, Option.map_some] at hid
  exact Option.map_eq_some_iff.1 hid

theorem SameFiles.none_of_none (h : c.SameFiles c') {id : TableId} (hf : c.tables.get? id = none) :
    c'.tables.get? id = none := by
  have hid := h id
  rw [hf, Option.map_none, Option.map_eq_none_iff] at hid
  exact hid

theorem SameFiles.hasRoom (h : c.SameFiles c') (hroom : c.HasRoom) : c'.HasRoom := by
  intro id g hg
  obtain ⟨f, hf, halike⟩ := h.symm.exists_alike hg
  have hdisk : g.withoutReads.HasRoom := by
    rw [← halike]
    exact hroom id f hf
  exact hdisk

theorem sameFiles_setTable {g : TableFile} (hf : c.tables.get? g.table = some f)
    (h : g.withoutReads = f.withoutReads) : c.SameFiles (c.setTable g) := by
  intro id
  rw [get?_setTable]
  split
  · rename_i hid
    rw [hid, hf, Option.map_some, Option.map_some, h]
  · rfl

theorem evict_tables (h : c.evict = .ok (c', page)) : c'.tables = c.tables := by
  unfold evict at h
  split at h <;> cases h
  rfl

theorem makeRoom_tables (h : c.makeRoom = .ok c') : c'.tables = c.tables := by
  unfold makeRoom at h
  split at h
  · rcases hev : c.evict with err | ⟨d, victim⟩ <;> rw [hev] at h <;> cases h
    exact evict_tables hev
  · cases h
    rfl

/-- A page that is brought in is read from a table that is known by its own number. -/
theorem sameFiles_bring (hkeyed : c.Keyed) (page : PageId) : c.SameFiles (c.bring page).1 := by
  unfold Cache.bring
  split
  · exact .refl c
  · split
    · exact .refl c
    · rename_i file htable
      have hfile := get?_of_table htable
      rcases hread : file.read page with ⟨g, result⟩
      have halike : g.withoutReads = file.withoutReads := by
        rw [← TableFile.withoutReads_read file page, hread]
      have hkey : g.table = page.table :=
        (TableFile.table_eq_of_alike halike).trans (hkeyed _ file hfile)
      have hset : c.SameFiles (c.setTable g) := sameFiles_setTable (by rw [hkey, hfile]) halike
      cases result with
      | error err => exact hset
      | ok p =>
        simp only
        split
        · exact hset
        · rename_i d hroom
          have htables : d.tables = (c.setTable g).tables := makeRoom_tables hroom
          exact hset.trans (.of_eq htables)

theorem Grounded.sameFiles_bring (h : c.Grounded) (page : PageId) : c.SameFiles (c.bring page).1 :=
  Cache.sameFiles_bring h.keyed page

theorem Keyed.sameFiles_fetch (h : c.Keyed) (txn : TransactionId) (page : PageId)
    (access : Access) : c.SameFiles (c.fetch txn page access).1 := by
  unfold fetch
  split
  · exact .refl c
  · rcases c.locks.acquire txn page access with ⟨locks, _ | _ | _⟩
    · have hbring := Cache.sameFiles_bring (c := { c with locks }) h page
      simp only
      rcases hb : Cache.bring { c with locks } page with ⟨c', e | p⟩ <;> rw [hb] at hbring
      · exact hbring
      · exact hbring
    · exact .refl c
    · exact .refl c

/-- Whatever comes of the wish for a page, nothing is seen of it. A page that is fetched is what was
seen of it before. -/
theorem Grounded.fetch (h : c.Grounded) (txn : TransactionId) (page : PageId) (access : Access) :
    c.Quiet (c.fetch txn page access).1 ∧
      ∀ p, (c.fetch txn page access).2 = .page p → c.view page = some p := by
  have hlocked : ∀ locks : Locking, c.Quiet { c with locks } := fun _ => .of_same rfl fun _ => rfl
  unfold Cache.fetch
  split
  · exact ⟨.refl c, fun p hp => by cases hp⟩
  · rcases c.locks.acquire txn page access with ⟨locks, _ | _ | _⟩
    · obtain ⟨hquiet, -, -, hpage⟩ := (h.of_quiet (hlocked locks)).bring page
      have hall := (hlocked locks).trans hquiet
      simp only
      rcases hbring : Cache.bring { c with locks } page with ⟨c', e | p⟩ <;>
        rw [hbring] at hall hpage
      · exact ⟨hall, fun p hp => by cases hp⟩
      · refine ⟨hall, ?_⟩
        rintro q ⟨⟩
        exact (hpage p rfl).1
    · exact ⟨hlocked locks, fun p hp => by cases hp⟩
    · exact ⟨hlocked locks, fun p hp => by cases hp⟩

/-- An appended page was blank before, so nothing is seen of it. -/
theorem Grounded.quiet_allocate (h : c.Grounded) (hroom : c.HasRoom) (id : TableId) :
    c.Quiet (c.allocate id).1 ∧ (c.allocate id).1.locks = c.locks ∧
      (c.allocate id).1.log = c.log := by
  unfold allocate
  split
  · exact ⟨.refl c, rfl, rfl⟩
  · rename_i file htable
    have hfile := get?_of_table htable
    have hfroom := hroom id file hfile
    rw [TableFile.allocate_eq hfroom]
    exact ⟨h.quiet_setTable hfile (TableFile.grows_grown hfroom), rfl, rfl⟩

end Cache

end PageCache
