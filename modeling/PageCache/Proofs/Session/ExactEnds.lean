-- What the end of a transaction does, page by page. A commit writes each page that the transaction
-- has changed once, an abort reads each of them once. No other page is written, read or replaced,
-- and no page comes in or goes.
import PageCache.Proofs.Session.EarlyEnds

namespace PageCache

namespace TableFile

variable {f : TableFile} {page : PageId} {order : List HeapPage} {pages : List PageId}

/-! ## Files after several writes or reads -/

/-- Each write counts once, and none counts as a read. -/
theorem counters_wroteAll (f : TableFile) (order : List HeapPage) :
    (order.foldl wrote f).disk.writes = f.disk.writes + UInt32.ofNat order.length ∧
      (order.foldl wrote f).disk.reads = f.disk.reads := by
  induction order generalizing f with
  | nil => exact ⟨(UInt32.add_zero _).symm, rfl⟩
  | cons p rest ih =>
    obtain ⟨hwrites, hreads⟩ := ih (f.wrote p)
    refine ⟨hwrites.trans ?_, hreads⟩
    change f.disk.writes + 1 + UInt32.ofNat rest.length = _
    rw [List.length_cons, UInt32.ofNat_add, UInt32.add_assoc]
    congr 1
    exact UInt32.add_comm _ _

/-- Pages that are written leave the others as they are. -/
theorem kept_wroteAll (hlen : ∀ p ∈ order, p.image.length = f.disk.pageSize)
    (hlt : ∀ p ∈ order, p.id.number < f.pageCount) :
    (order.foldl wrote f).pageCount = f.pageCount ∧
      ∀ n, (∀ p ∈ order, p.id.number ≠ n) →
        (order.foldl wrote f).disk.pageBytes n = f.disk.pageBytes n := by
  induction order generalizing f with
  | nil => exact ⟨rfl, fun _ _ => rfl⟩
  | cons p rest ih =>
    have hfirst := pageCount_wrote (f := f) (hlt p List.mem_cons_self)
    obtain ⟨hcount, hbytes⟩ := @ih (f.wrote p) (fun q hq => hlen q (List.mem_cons_of_mem _ hq))
      fun q hq => by rw [hfirst]; exact hlt q (List.mem_cons_of_mem _ hq)
    refine ⟨hcount.trans hfirst, fun n hn => ?_⟩
    rw [List.foldl_cons, hbytes n fun q hq => hn q (List.mem_cons_of_mem _ hq)]
    exact Disk.pageBytes_put_of_ne (hlen p List.mem_cons_self) (hn p List.mem_cons_self).symm

/-- The file after some of its pages were read. -/
def readAll (f : TableFile) (pages : List PageId) : TableFile :=
  pages.foldl (fun f page => (f.read page).1) f

/-- Reads change nothing but their number, and each counts once. -/
theorem counters_readAll (htable : ∀ page ∈ pages, page.table = f.table)
    (hreach : ∀ page ∈ pages, f.Reaches page) :
    (f.readAll pages).withoutReads = f.withoutReads ∧
      (f.readAll pages).disk.reads = f.disk.reads + UInt32.ofNat pages.length := by
  induction pages generalizing f with
  | nil => exact ⟨rfl, (UInt32.add_zero _).symm⟩
  | cons page rest ih =>
    have hfirst := hreach page List.mem_cons_self
    have hread : (f.read page).1 =
        { f with disk := { f.disk with reads := f.disk.reads + 1 } } := by
      have hcheck : f.check page = .ok () := by
        rw [check, if_neg (by simpa using htable page List.mem_cons_self),
          if_neg (by simpa using hfirst.in_range)]
      rw [read_eq, hcheck]
      simp only [if_pos (And.intro hfirst.holdable hfirst.readable)]
    obtain ⟨hsame, hreads⟩ := @ih (f.read page).1
      (fun other hother => by rw [hread]; exact htable other (List.mem_cons_of_mem _ hother))
      fun other hother => by
        have hold := hreach other (List.mem_cons_of_mem _ hother)
        rw [hread]
        exact ⟨hold.in_range, hold.holdable, hold.readable⟩
    refine ⟨hsame.trans (withoutReads_read f page), hreads.trans ?_⟩
    rw [hread, List.length_cons, UInt32.ofNat_add, UInt32.add_assoc]
    congr 1
    exact UInt32.add_comm _ _

end TableFile

namespace Cache

variable {c c' d : Cache} {page : PageId} {p q : HeapPage} {txn : TransactionId} {f : TableFile}
  {touch : HeapPage → TableFile → TableFile} {final : HeapPage → Option HeapPage}
  {pages : List PageId} {order : List HeapPage}

/-- The resident pages that a transaction has changed. -/
def changedBy (c : Cache) (txn : TransactionId) : List PageId :=
  c.resident.keys.filter fun page => (c.residentPage page).bind HeapPage.dirty = some txn

theorem mem_changedBy : page ∈ c.changedBy txn ↔
    ∃ p, c.residentPage page = some p ∧ p.dirty = some txn := by
  rw [changedBy, List.mem_filter, decide_eq_true_iff, Option.bind_eq_some_iff]
  refine and_iff_right_of_imp ?_
  rintro ⟨p, hres, -⟩
  exact mem_keys_of_resident hres

/-! ## Pages that are revised -/

/-- A resident page was replaced in its place, and its file was used for that in some way. -/
structure Turned (touch : HeapPage → TableFile → TableFile) (final : HeapPage → Option HeapPage)
    (p : HeapPage) (c c' : Cache) : Prop where
  tables_eq : ∀ id, c'.tables.get? id =
    (c.tables.get? id).map fun f => if p.id.table = id then touch p f else f
  keys_eq : c'.resident.keys = c.resident.keys
  resident_eq : ∀ page, c'.residentPage page =
    if page = p.id then final p else c.residentPage page
  clean : ∀ q, final p = some q → q.dirty = none

/-- Those pages of a list that are resident and have a mark were replaced, one after the other and
each of them once. Nothing else has changed in the files or among the resident pages. -/
structure Revised (touch : HeapPage → TableFile → TableFile) (final : HeapPage → Option HeapPage)
    (pages : List PageId) (order : List HeapPage) (c c' : Cache) : Prop where
  nodup : (order.map HeapPage.id).Nodup
  mem_iff : ∀ p, p ∈ order ↔ p.id ∈ pages ∧ c.residentPage p.id = some p ∧ p.dirty ≠ none
  tables_eq : ∀ id, c'.tables.get? id = (c.tables.get? id).map fun f =>
    (order.filter (·.id.table = id)).foldl (fun f p => touch p f) f
  keys_eq : c'.resident.keys = c.resident.keys
  revised : ∀ p ∈ order, c'.residentPage p.id = final p
  kept : ∀ page, page ∉ order.map HeapPage.id → c'.residentPage page = c.residentPage page

theorem Revised.nil : Revised touch final [] [] c c where
  nodup := List.nodup_nil
  mem_iff p := by simp
  tables_eq id := Option.map_id_fun'.symm ▸ rfl
  keys_eq := rfl
  revised p hp := by cases hp
  kept _ _ := rfl

/-- A page without a mark is passed over. -/
theorem Revised.skip (hclean : ∀ p, c.residentPage page = some p → p.dirty = none)
    (h : Revised touch final pages order c d) : Revised touch final (page :: pages) order c d where
  nodup := h.nodup
  mem_iff p := by
    rw [h.mem_iff, List.mem_cons]
    refine ⟨fun ⟨hmem, hrest⟩ => ⟨Or.inr hmem, hrest⟩, ?_⟩
    rintro ⟨heq | hmem, hres, hdirty⟩
    · exact absurd (hclean p (heq ▸ hres)) hdirty
    · exact ⟨hmem, hres, hdirty⟩
  tables_eq := h.tables_eq
  keys_eq := h.keys_eq
  revised := h.revised
  kept := h.kept

/-- A page with a mark is replaced; it has none from then on, so its turn comes once only. -/
theorem Revised.cons (hres : c.residentPage p.id = some p) (hdirty : p.dirty ≠ none)
    (h₁ : Turned touch final p c c') (h₂ : Revised touch final pages order c' d) :
    Revised touch final (p.id :: pages) (p :: order) c d := by
  have hnew : p.id ∉ order.map HeapPage.id := by
    intro hmem
    obtain ⟨q, hq, hid⟩ := List.mem_map.1 hmem
    obtain ⟨-, hqres, hqdirty⟩ := (h₂.mem_iff q).1 hq
    rw [h₁.resident_eq, if_pos hid] at hqres
    exact hqdirty (h₁.clean q hqres)
  constructor
  · exact List.nodup_cons.2 ⟨hnew, h₂.nodup⟩
  · intro q
    rw [List.mem_cons, List.mem_cons, h₂.mem_iff, h₁.resident_eq]
    constructor
    · rintro (rfl | ⟨hmem, hqres, hqdirty⟩)
      · exact ⟨Or.inl rfl, hres, hdirty⟩
      · split at hqres
        · exact absurd (h₁.clean q hqres) hqdirty
        · exact ⟨Or.inr hmem, hqres, hqdirty⟩
    · rintro ⟨hmem, hqres, hqdirty⟩
      by_cases hid : q.id = p.id
      · rw [hid, hres, Option.some.injEq] at hqres
        exact Or.inl hqres.symm
      · rw [if_neg hid]
        exact Or.inr ⟨hmem.resolve_left hid, hqres, hqdirty⟩
  · intro id
    rw [h₂.tables_eq, h₁.tables_eq, Option.map_map]
    congr 1
    funext f
    by_cases hid : p.id.table = id <;> simp [hid]
  · exact h₂.keys_eq.trans h₁.keys_eq
  · intro q hq
    rcases List.mem_cons.1 hq with rfl | hq
    · rw [h₂.kept _ hnew, h₁.resident_eq, if_pos rfl]
    · exact h₂.revised q hq
  · intro other hother
    rw [List.map_cons, List.mem_cons, not_or] at hother
    rw [h₂.kept other hother.2, h₁.resident_eq, if_neg hother.1]

/-- A resident page is replaced without a change of the keys. -/
theorem keys_place (hres : c.residentPage p.id = some q) :
    (c.place p).resident.keys = c.resident.keys :=
  FinMap.keys_insert (contains_of_resident hres) _

/-! ## Pages that are written back -/

theorem Sound.turned_writeBack (h : c.Sound) (ha : c.AcceptsAll)
    (hres : c.residentPage page = some p) (hdirty : p.dirty ≠ none) (txn : TransactionId) :
    ∃ c₁, c.writeBack txn p = (c₁, .ok ()) ∧ c₁.Sound ∧ c₁.AcceptsAll ∧
      Turned (fun p f => f.wrote p) (fun p => some p.saved) p c c₁ := by
  have hview := view_of_resident hres
  have hid := h.id_eq hview
  obtain ⟨f, hf, -⟩ := h.reached page p hres
  obtain ⟨log, result, htell, haccepts⟩ := tellLog_cases h hview txn
  obtain ⟨rfl, ha'⟩ := haccepts ha
  have hmarked : Marked { c with log } page p f := (h.setLog log).marked hf hres hdirty
  refine ⟨({ c with log } : Cache).wroteBack f p, ?_, hmarked.sound_wroteBack (h.setLog log), ha',
    ?_⟩
  · unfold writeBack
    rw [hid, table_eq_ok hf, htell]
    simp only [hmarked.write_eq]
    rw [hmarked.amend_eq]
  · constructor
    · intro id
      rw [hmarked.tables_wroteBack, hid]
      by_cases htab : id = page.table
      · simp [htab, hf]
      · simp [htab, Ne.symm htab]
    · refine keys_place (q := p) ?_
      change c.residentPage p.id = some p
      rw [hid, hres]
    · intro other
      rw [wroteBack, residentPage_place, HeapPage.saved_of_dirty hdirty]
      rfl
    · intro q hq
      cases hq
      exact p.dirty_saved

theorem Sound.revised_writeBackAll (h : c.Sound) (ha : c.AcceptsAll) (txn : TransactionId)
    (pages : List PageId) : ∃ order c', writeBackAll txn pages c = (c', .ok ()) ∧
      Revised (fun p f => f.wrote p) (fun p => some p.saved) pages order c c' := by
  induction pages generalizing c with
  | nil => exact ⟨[], c, rfl, .nil⟩
  | cons page rest ih =>
    rcases c.dirty_or_clean page with ⟨p, hres, hdirty⟩ | hclean
    · obtain ⟨c₁, hwrite, hsound, ha₁, hturned⟩ := h.turned_writeBack ha hres hdirty txn
      obtain ⟨order, c', hrest, hrevised⟩ := ih hsound ha₁
      obtain rfl := h.id_eq (view_of_resident hres)
      rw [writeBackAll_dirty hres hdirty, hwrite]
      exact ⟨p :: order, c', hrest, hrevised.cons hres hdirty hturned⟩
    · obtain ⟨order, c', hrest, hrevised⟩ := ih h ha
      rw [writeBackAll_clean hclean]
      exact ⟨order, c', hrest, hrevised.skip fun _ => resident_clean hclean⟩

/-! ## Pages that are read again -/

theorem Sound.turned_reload (h : c.Sound) (hres : c.residentPage page = some p) :
    ∃ c₁ q, c.readPage page.table page = (c₁, .ok q) ∧ (c₁.amend q).Sound ∧
      (∀ other, (c₁.amend q).onDisk other = c.onDisk other) ∧
      Turned (fun p f => (f.read p.id).1) (fun p => c.onDisk p.id) p c (c₁.amend q) := by
  obtain ⟨c₁, q, hread, hrestored⟩ := h.restored_reload hres
  have hid := h.id_eq (view_of_resident hres)
  obtain ⟨f, hf, -⟩ := h.reached page p hres
  have hpast : c.readPage page.table page = (c.setTable (f.read page).1, (f.read page).2) := by
    rw [readPage, table_eq_ok hf]
  obtain ⟨rfl, hq⟩ := Prod.mk.inj (hpast.symm.trans hread)
  have hdisk : c.onDisk page = some q := by
    rw [onDisk, hf]
    exact (TableFile.read_ok hq).2.1
  have hqid : q.id = page := (stored_clean hdisk).2.1
  have hqres : (c.setTable (f.read page).1).residentPage q.id = some p := by
    rw [hqid]
    exact hres
  refine ⟨_, q, hread, hrestored.sound, hrestored.files.grows.onDisk_eq, ?_, ?_, ?_, ?_⟩
  · intro id
    have hkey : (f.read page).1.table = page.table :=
      (TableFile.table_eq_of_alike (TableFile.withoutReads_read f page)).trans (h.keyed _ f hf)
    rw [(amend_same _ q).1, get?_setTable, hkey, hid]
    by_cases htab : id = page.table
    · simp [htab, hf]
    · simp [htab, Ne.symm htab]
  · rw [amend_eq_place hqres]
    exact keys_place hqres
  · intro other
    rw [residentPage_amend hqres, hqid, hid, hdisk]
    rfl
  · intro r hr
    exact (stored_clean hr).2.2

theorem Sound.revised_reloadAll (h : c.Sound) (pages : List PageId) (first : Option StoreError) :
    ∃ order c', Cache.reloadAll pages first c = (c', first) ∧
      Revised (fun p f => (f.read p.id).1) (fun p => c.onDisk p.id) pages order c c' := by
  induction pages generalizing c with
  | nil => exact ⟨[], c, rfl, .nil⟩
  | cons page rest ih =>
    rcases c.dirty_or_clean page with ⟨p, hres, hdirty⟩ | hclean
    · obtain ⟨c₁, q, hread, hsound, hdisk, hturned⟩ := h.turned_reload hres
      obtain ⟨order, c', hrest, hrevised⟩ := ih hsound
      simp only [hdisk] at hrevised
      obtain rfl := h.id_eq (view_of_resident hres)
      refine ⟨p :: order, c', ?_, hrevised.cons hres hdirty hturned⟩
      rw [Cache.reloadAll, hres]
      simp only
      rw [if_neg (by simpa using hdirty), hread]
      exact hrest
    · obtain ⟨order, c', hrest, hrevised⟩ := ih h
      rw [reloadAll_clean hclean]
      exact ⟨order, c', hrest, hrevised.skip fun _ => resident_clean hclean⟩

/-! ## Ends -/

/-- The pages that are revised at the end of a transaction are those that it has changed. -/
theorem Revised.perm_changedBy (h : c.Sound) (ho : c.locks.Orderly)
    (hr : Revised touch final (c.heldPages txn) order c d) :
    (order.map HeapPage.id).Perm (c.changedBy txn) := by
  have hnodup : (c.changedBy txn).Nodup := c.resident.nodup.filter _
  refine (List.perm_ext_iff_of_nodup hr.nodup hnodup).2 fun page => ?_
  rw [List.mem_map, mem_changedBy]
  constructor
  · rintro ⟨p, hp, rfl⟩
    obtain ⟨hheld, hres, hdirty⟩ := (hr.mem_iff p).1 hp
    obtain ⟨u, hu⟩ := Option.ne_none_iff_exists'.1 hdirty
    refine ⟨p, hres, ?_⟩
    rw [hu, h.dirty_of_held ho hheld (view_of_resident hres) hu]
  · rintro ⟨p, hres, hdirty⟩
    have hview := view_of_resident hres
    obtain rfl := h.id_eq hview
    exact ⟨p, (hr.mem_iff p).2 ⟨h.mem_heldPages ho hview hdirty, hres, by simp [hdirty]⟩, rfl⟩

/-- The snapshot of a resident page has the bytes that its file has. -/
theorem Sound.before_eq (h : c.Sound) (hres : c.residentPage page = some p) :
    ∃ f, c.tables.get? page.table = some f ∧ p.before = f.disk.pageBytes page.number := by
  obtain ⟨f, disk, q, hf, hread, -⟩ := h.read_resident hres
  refine ⟨f, hf, ?_⟩
  rw [Disk.read_eq] at hread
  split at hread
  · exact (Prod.mk.inj (Except.ok.inj hread)).2.symm
  · cases hread

/-- Only the pages that the transaction has changed are affected. They are clean now, with the
bytes of their files as their snapshots. The other resident pages are as they were, and so are the
other pages in the files. -/
structure Settles (txn : TransactionId) (c c' : Cache) : Prop where
  keys_eq : c'.resident.keys = c.resident.keys
  clean : ∀ page ∈ c.changedBy txn, ∃ q f, c'.residentPage page = some q ∧ q.dirty = none ∧
    c'.tables.get? page.table = some f ∧ q.before = f.disk.pageBytes page.number
  kept : ∀ page, page ∉ c.changedBy txn → c'.residentPage page = c.residentPage page
  files : ∀ id f, c.tables.get? id = some f → ∃ g, c'.tables.get? id = some g ∧
    g.pageCount = f.pageCount ∧
    ∀ n, ⟨id, n⟩ ∉ c.changedBy txn → g.disk.pageBytes n = f.disk.pageBytes n

/-- The number of pages of a table that a transaction has changed. -/
def changedIn (c : Cache) (txn : TransactionId) (id : TableId) : Nat :=
  (c.changedBy txn).countP (·.table = id)

/-- Each page that the transaction has changed was written once, as it was, and no other page was
written or read. -/
structure WroteChanges (txn : TransactionId) (c c' : Cache) : Prop extends c.Settles txn c' where
  written : ∃ order : List HeapPage, (order.map HeapPage.id).Perm (c.changedBy txn) ∧
    (∀ p ∈ order, c.residentPage p.id = some p) ∧
    ∀ id, c'.tables.get? id = (c.tables.get? id).map fun f =>
      (order.filter (·.id.table = id)).foldl TableFile.wrote f
  counted : ∀ id f g, c.tables.get? id = some f → c'.tables.get? id = some g →
    g.disk.writes = f.disk.writes + UInt32.ofNat (c.changedIn txn id) ∧
      g.disk.reads = f.disk.reads
  own : ∀ page p, c.residentPage page = some p → p.dirty = some txn →
    c'.residentPage page = some p.markClean.snapshot

/-- Each page that the transaction has changed was read once, and is as it was read. No other page
was read, and nothing was written. -/
structure ReadAgain (txn : TransactionId) (c c' : Cache) : Prop extends c.Settles txn c' where
  read : ∃ order : List PageId, order.Perm (c.changedBy txn) ∧
    ∀ id, c'.tables.get? id = (c.tables.get? id).map (·.readAll (order.filter (·.table = id)))
  counted : ∀ id f g, c.tables.get? id = some f → c'.tables.get? id = some g →
    g.withoutReads = f.withoutReads ∧
      g.disk.reads = f.disk.reads + UInt32.ofNat (c.changedIn txn id)
  own : ∀ page ∈ c.changedBy txn, c'.residentPage page = c.onDisk page

/-- What is left to others when the pages of a transaction are revised. -/
theorem Revised.settles (h : c.Sound) (ho : c.locks.Orderly) (h' : c'.Sound)
    (hr : Revised touch final (c.heldPages txn) order c c')
    (hclean : ∀ p q, final p = some q → q.dirty = none)
    (hfinal : ∀ p ∈ order, (final p).isSome)
    (hfiles : ∀ id f, c.tables.get? id = some f → ∃ g, c'.tables.get? id = some g ∧
      g.pageCount = f.pageCount ∧
      ∀ n, ⟨id, n⟩ ∉ c.changedBy txn → g.disk.pageBytes n = f.disk.pageBytes n) :
    c.Settles txn c' where
  keys_eq := hr.keys_eq
  clean page hpage := by
    obtain ⟨p, hp, rfl⟩ := List.mem_map.1 ((hr.perm_changedBy h ho).mem_iff.2 hpage)
    obtain ⟨q, hq⟩ := Option.isSome_iff_exists.1 (hfinal p hp)
    have hres := (hr.revised p hp).trans hq
    obtain ⟨f, hf, hbefore⟩ := h'.before_eq hres
    exact ⟨q, f, hres, hclean p q hq, hf, hbefore⟩
  kept page hpage := hr.kept page fun hmem => hpage ((hr.perm_changedBy h ho).mem_iff.1 hmem)
  files := hfiles

/-- The pages of one table among those that are revised. -/
theorem Revised.length_filter (h : c.Sound) (ho : c.locks.Orderly)
    (hr : Revised touch final (c.heldPages txn) order c d) (id : TableId) :
    (order.filter (·.id.table = id)).length = c.changedIn txn id := by
  rw [changedIn, ← (hr.perm_changedBy h ho).countP_eq, List.countP_map,
    ← List.countP_eq_length_filter]
  rfl

/-- Locks do not matter for that. -/
theorem Revised.releaseAll (hr : Revised touch final pages order c d) (txn : TransactionId) :
    Revised touch final pages order c (d.releaseAll txn) :=
  ⟨hr.nodup, hr.mem_iff, hr.tables_eq, hr.keys_eq, hr.revised, hr.kept⟩

/-- The pages that are written leave the others in the file alone. -/
theorem Revised.kept_wroteAll (h : c.Sound) (ho : c.locks.Orderly)
    (hr : Revised touch final (c.heldPages txn) order c d) {id : TableId}
    (hf : c.tables.get? id = some f) :
    ((order.filter (·.id.table = id)).foldl TableFile.wrote f).pageCount = f.pageCount ∧
      ∀ n, ⟨id, n⟩ ∉ c.changedBy txn →
        ((order.filter (·.id.table = id)).foldl TableFile.wrote f).disk.pageBytes n =
          f.disk.pageBytes n := by
  have hmarked : ∀ p ∈ order.filter (·.id.table = id), c.Marked p.id p f := by
    intro p hp
    obtain ⟨hp, htab⟩ := List.mem_filter.1 hp
    obtain ⟨-, hres, hdirty⟩ := (hr.mem_iff p).1 hp
    exact h.marked (by rw [of_decide_eq_true htab, hf]) hres hdirty
  obtain ⟨hcount, hbytes⟩ := TableFile.kept_wroteAll (f := f)
    (fun p hp => (HeapPage.length_image (hmarked p hp).proper).trans (hmarked p hp).size_eq)
    fun p hp => (hmarked p hp).in_range
  refine ⟨hcount, fun n hn => hbytes n fun p hp hnum => hn ?_⟩
  obtain ⟨hp, htab⟩ := List.mem_filter.1 hp
  rw [← (hr.perm_changedBy h ho).mem_iff, ← of_decide_eq_true htab, ← hnum]
  exact List.mem_map_of_mem hp

theorem Sound.wroteChanges (h : c.Sound) (ho : c.locks.Orderly) (ha : c.AcceptsAll)
    (txn : TransactionId) :
    ∃ c', c.commit txn = (c', .ok ()) ∧ c.WroteChanges txn c' := by
  obtain ⟨order, d, hall, hd⟩ := h.revised_writeBackAll ha txn (c.heldPages txn)
  have hcommit : c.commit txn = (d.releaseAll txn, .ok ()) := by
    rw [commit, hall]
  have hsound : (d.releaseAll txn).Sound := by
    rcases h.commit_cases ho txn with ⟨c', he, hended⟩ | ⟨_, _, _, _, _, _, _, -, -, -, -, hnot⟩
    · rw [hcommit] at he
      cases he
      exact hended.sound
    · exact absurd ha hnot
  have hr := hd.releaseAll txn
  refine ⟨_, hcommit, hr.settles h ho hsound ?_ (fun _ _ => rfl) ?_, ?_, ?_, ?_⟩
  · rintro p q ⟨⟩
    exact p.dirty_saved
  · intro id f hf
    exact ⟨_, (hr.tables_eq id).trans (by rw [hf]; rfl), hr.kept_wroteAll h ho hf⟩
  · exact ⟨order, hr.perm_changedBy h ho, fun p hp => ((hr.mem_iff p).1 hp).2.1, hr.tables_eq⟩
  · intro id f g hf hg
    have hg' : (d.releaseAll txn).tables.get? id = _ := hr.tables_eq id
    rw [hg, hf] at hg'
    cases hg'
    rw [← hr.length_filter h ho id]
    exact TableFile.counters_wroteAll f _
  · intro page p hres hdirty
    have hid := h.id_eq (view_of_resident hres)
    have hmarked : p.dirty ≠ none := by simp [hdirty]
    rw [← HeapPage.saved_of_dirty hmarked, ← hid]
    refine hr.revised p ((hr.mem_iff p).2 ⟨?_, by rw [hid, hres], hmarked⟩)
    rw [hid]
    exact h.mem_heldPages ho (view_of_resident hres) hdirty

/-- Files are used by reads only when pages are read again. -/
theorem Revised.tables_readAll
    (hr : Revised (fun p f => (f.read p.id).1) final pages order c d) (id : TableId) :
    d.tables.get? id = (c.tables.get? id).map
      (·.readAll ((order.map HeapPage.id).filter (·.table = id))) := by
  rw [hr.tables_eq]
  simp only [TableFile.readAll, List.filter_map, List.foldl_map, Function.comp_def]

theorem Revised.counters_readAll (h : c.Sound) (ho : c.locks.Orderly)
    (hr : Revised (fun p f => (f.read p.id).1) final (c.heldPages txn) order c d) {id : TableId}
    {g : TableFile} (hf : c.tables.get? id = some f) (hg : d.tables.get? id = some g) :
    g.withoutReads = f.withoutReads ∧
      g.disk.reads = f.disk.reads + UInt32.ofNat (c.changedIn txn id) := by
  rw [hr.tables_readAll, hf, Option.map_some, Option.some.injEq] at hg
  rw [← hr.length_filter h ho id, ← hg, ← List.length_map HeapPage.id]
  simp only [List.filter_map]
  refine TableFile.counters_readAll ?_ ?_ <;> intro page hpage <;>
    obtain ⟨p, hp, rfl⟩ := List.mem_map.1 hpage <;> obtain ⟨hp, htab⟩ := List.mem_filter.1 hp
  · rw [h.keyed id f hf]
    exact of_decide_eq_true htab
  · obtain ⟨f', hf', hreach⟩ := h.reached _ p ((hr.mem_iff p).1 hp).2.1
    rw [show p.id.table = id from of_decide_eq_true htab, hf, Option.some.injEq] at hf'
    rw [hf']
    exact hreach

theorem Sound.readAgain (h : c.Sound) (ho : c.locks.Orderly) (txn : TransactionId) :
    ∃ c', c.abort txn = (c', .ok ()) ∧ c.ReadAgain txn c' := by
  obtain ⟨order, d, hall, hd⟩ := h.revised_reloadAll (c.heldPages txn) none
  have habort : c.abort txn = (d.releaseAll txn, .ok ()) := by
    rw [abort, hall]
  have hsound : (d.releaseAll txn).Sound := by
    obtain ⟨c', he, hended⟩ := h.abort_ended ho txn
    rw [habort] at he
    cases he
    exact hended.sound
  have hr := hd.releaseAll txn
  have hdisk : ∀ p ∈ order, ∃ q, c.onDisk p.id = some q := by
    intro p hp
    obtain ⟨q, hq, -⟩ := h.lies_over p.id p (view_of_resident ((hr.mem_iff p).1 hp).2.1)
    exact ⟨q, hq⟩
  refine ⟨_, habort, hr.settles h ho hsound (fun p q hq => (stored_clean hq).2.2)
    (fun p hp => Option.isSome_iff_exists.2 (hdisk p hp)) ?_, ?_,
    fun _ _ _ => hr.counters_readAll h ho, ?_⟩
  · intro id f hf
    have hg := hr.tables_readAll id
    rw [hf, Option.map_some] at hg
    have halike := (hr.counters_readAll h ho hf hg).1
    refine ⟨_, hg, TableFile.pageCount_eq_of_alike halike, fun n _ => ?_⟩
    have hbytes := congrArg (fun x => x.disk.pageBytes n) halike
    exact hbytes
  · exact ⟨order.map HeapPage.id, hr.perm_changedBy h ho, hr.tables_readAll⟩
  · intro page hpage
    obtain ⟨p, hp, rfl⟩ := List.mem_map.1 ((hr.perm_changedBy h ho).mem_iff.2 hpage)
    exact hr.revised p hp

end Cache

namespace Session

variable {config : Config} {log : Option WriteLog} {steps : List Step}

/-- **The end of a transaction touches the pages that it has changed, and no others.** After every
run, a commit succeeds if the log refuses nothing, and has written each resident page with the mark
of the transaction once; an abort succeeds, and has read each of these pages once and written
nothing. The pages are clean then, with the bytes of their files as snapshots. All other resident
pages and all other pages in the files are as they were, and no page has come or gone. -/
theorem ends_touch_own_changes_only (hsteps : (new config log).AllowsAll steps)
    (haccepts : ((new config log).after steps).cache.AcceptsAll) (txn : TransactionId) :
    ((((new config log).after steps).perform (.commit txn)).2 = .ended (.ok ()) ∧
      ((new config log).after steps).cache.WroteChanges txn
        (((new config log).after steps).perform (.commit txn)).1.cache) ∧
    (((new config log).after steps).perform (.abort txn)).2 = .ended (.ok ()) ∧
      ((new config log).after steps).cache.ReadAgain txn
        (((new config log).after steps).perform (.abort txn)).1.cache := by
  have hcoh := (coherent_new config log).after_allowed hsteps
  obtain ⟨c, hcommit, hwrote⟩ := hcoh.sound.wroteChanges hcoh.orderly haccepts txn
  obtain ⟨d, habort, hread⟩ := hcoh.sound.readAgain hcoh.orderly txn
  simp only [Session.perform, hcommit, habort]
  exact ⟨⟨trivial, hwrote⟩, trivial, hread⟩

/-- Behind the first flag, which is committed, another transaction raises two flags on new pages,
and looks at the first one. -/
def threeFlags : List Step :=
  [.act (.addTable (flagFile .empty 0 0 0)),
    .act (.submit ⟨1⟩ none (.insert ⟨⟨1⟩, ⟨flags, [.boolean true], none⟩, true⟩)),
    .act (.commit ⟨1⟩),
    .act (.submit ⟨2⟩ none (.insert ⟨⟨1⟩, ⟨flags, [.boolean true], none⟩, true⟩)),
    .act (.submit ⟨2⟩ none (.insert ⟨⟨1⟩, ⟨flags, [.boolean false], none⟩, false⟩)),
    .act (.submit ⟨2⟩ none (.fetch ⟨⟨1⟩, 0⟩ .readOnly .view))]

theorem ends_touch_two_of_three_flags :
    ((new ⟨4, 1, none⟩ none).after threeFlags).cache.changedBy ⟨2⟩ = [⟨⟨1⟩, 1⟩, ⟨⟨1⟩, 2⟩] ∧
      ((new ⟨4, 1, none⟩ none).after threeFlags).cache.heldPages ⟨2⟩ =
        [⟨⟨1⟩, 1⟩, ⟨⟨1⟩, 2⟩, ⟨⟨1⟩, 0⟩] ∧
      ((new ⟨4, 1, none⟩ none).after threeFlags).cache.WroteChanges ⟨2⟩
        (((new ⟨4, 1, none⟩ none).after threeFlags).perform (.commit ⟨2⟩)).1.cache ∧
      ((new ⟨4, 1, none⟩ none).after threeFlags).cache.ReadAgain ⟨2⟩
        (((new ⟨4, 1, none⟩ none).after threeFlags).perform (.abort ⟨2⟩)).1.cache := by
  have haccepts : ((new ⟨4, 1, none⟩ none).after threeFlags).cache.AcceptsAll := by
    have hnone : ((new ⟨4, 1, none⟩ none).after threeFlags).cache.log.isNone = true := by
      decide +kernel
    intro log hlog
    rw [hlog] at hnone
    cases hnone
  obtain ⟨⟨-, hwrote⟩, -, hread⟩ := ends_touch_own_changes_only
    (show (new ⟨4, 1, none⟩ none).AllowsAll threeFlags by decide +kernel) haccepts ⟨2⟩
  exact ⟨by decide +kernel, by decide +kernel, hwrote, hread⟩

end Session

end PageCache
