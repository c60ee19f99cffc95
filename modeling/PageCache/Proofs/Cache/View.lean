-- What the users of a cache see of a page: the resident page, or else what the file of its
-- table holds. Bringing pages in, letting them go and pinning them changes nothing of it,
-- and neither does an appended page, for it was blank before.
import PageCache.Cache.Basic
import PageCache.Proofs.Eviction.Choice
import PageCache.Proofs.Page.Changes
import PageCache.Proofs.Table.Contents

namespace PageCache

/-! ## Pages over their files -/

/-- A page differs from what its file holds in its slots and its mark only, and without a
mark not at all. -/
structure HeapPage.Over (p q : HeapPage) : Prop where
  framed : { p with slots := q.slots, dirty := none } = q
  clean : p.dirty = none → p.slots = q.slots

namespace HeapPage

variable {p q : HeapPage}

theorem Over.refl (h : q.dirty = none) : q.Over q where
  framed := by
    cases q
    cases h
    rfl
  clean _ := rfl

theorem Over.eq_of_clean (h : p.Over q) (hclean : p.dirty = none) : p = q := by
  have hframed := h.framed
  rw [← h.clean hclean] at hframed
  cases p
  cases hclean
  exact hframed

theorem Over.id_eq (h : p.Over q) : p.id = q.id := by
  have hframed := congrArg HeapPage.id h.framed
  exact hframed

theorem Over.schema_eq (h : p.Over q) : p.schema = q.schema := by
  have hframed := congrArg HeapPage.schema h.framed
  exact hframed

theorem Over.size_eq (h : p.Over q) : p.size = q.size := by
  have hframed := congrArg HeapPage.size h.framed
  exact hframed

/-- A changed page still knows what it was like before. -/
theorem Over.beforeImage_eq (h : p.Over q) : p.beforeImage = q.beforeImage := by
  rw [← h.framed]
  rfl

/-- Another change keeps a page over its file. -/
theorem Over.alter (h : p.Over q) (ch : Change) (txn : TransactionId) :
    ((p.change ch).markDirty txn).Over q where
  framed := h.framed
  clean hclean := by cases hclean

end HeapPage

/-! ## Files that grow -/

/-- The file holds what it held, and perhaps has more blank pages. -/
structure TableFile.Grows (f g : TableFile) : Prop where
  table_eq : g.table = f.table
  schema_eq : g.schema = f.schema
  pageSize_eq : g.disk.pageSize = f.disk.pageSize
  stored_eq : ∀ page, g.stored page = f.stored page
  pageCount_le : f.pageCount ≤ g.pageCount

namespace TableFile

variable {f g k : TableFile} {page : PageId}

theorem Grows.refl (f : TableFile) : f.Grows f :=
  ⟨rfl, rfl, rfl, fun _ => rfl, UInt32.le_refl _⟩

theorem Grows.trans (h₁ : f.Grows g) (h₂ : g.Grows k) : f.Grows k where
  table_eq := h₂.table_eq.trans h₁.table_eq
  schema_eq := h₂.schema_eq.trans h₁.schema_eq
  pageSize_eq := h₂.pageSize_eq.trans h₁.pageSize_eq
  stored_eq page := (h₂.stored_eq page).trans (h₁.stored_eq page)
  pageCount_le := UInt32.le_trans h₁.pageCount_le h₂.pageCount_le

theorem Grows.reaches (h : f.Grows g) (hreach : f.Reaches page) : g.Reaches page where
  in_range := UInt32.lt_of_lt_of_le hreach.in_range h.pageCount_le
  holdable := by
    rw [Disk.isHoldable, h.pageSize_eq]
    exact hreach.holdable
  readable := by
    rw [Disk.offset, h.pageSize_eq]
    exact hreach.readable

theorem grows_of_alike (h : g.withoutReads = f.withoutReads) : f.Grows g where
  table_eq := table_eq_of_alike h
  schema_eq := schema_eq_of_alike h
  pageSize_eq := by
    have hdisk := congrArg (fun x => x.disk.pageSize) h
    exact hdisk
  stored_eq page := stored_eq_of_alike h page
  pageCount_le := by
    rw [pageCount_eq_of_alike h]
    exact UInt32.le_refl _

theorem grows_grown (h : f.HasRoom) : f.Grows f.grown where
  table_eq := rfl
  schema_eq := rfl
  pageSize_eq := rfl
  stored_eq := stored_grown h
  pageCount_le := by
    have hsucc : (f.pageCount + 1).toNat = f.pageCount.toNat + 1 := by
      rw [UInt32.toNat_add]
      exact Nat.mod_eq_of_lt h.2
    rw [pageCount_grown, UInt32.le_iff_toNat_le, hsucc]
    omega

end TableFile

namespace Cache

variable {c c' d : Cache} {page : PageId} {p q : HeapPage} {txn : TransactionId}

/-! ## The view of a cache -/

/-- What the file of its table holds for a page. -/
def onDisk (c : Cache) (page : PageId) : Option HeapPage :=
  (c.tables.get? page.table).bind (·.stored page)

/-- What a user of the cache sees of a page. -/
def view (c : Cache) (page : PageId) : Option HeapPage :=
  (c.residentPage page).or (c.onDisk page)

/-- The page is one of its table's, and the system can read it. -/
def Reaches (c : Cache) (page : PageId) : Prop :=
  ∃ f, c.tables.get? page.table = some f ∧ f.Reaches page

theorem view_of_resident (h : c.residentPage page = some p) : c.view page = some p := by
  rw [view, h, Option.some_or]

theorem view_of_not_resident (h : c.residentPage page = none) : c.view page = c.onDisk page := by
  rw [view, h, Option.none_or]

/-- Each table is kept under its own number. -/
def Keyed (c : Cache) : Prop := ∀ id f, c.tables.get? id = some f → f.table = id

/-- Tables are known by their own numbers, resident pages can be read again, and every page that
is seen lies over what its file holds. -/
structure Grounded (c : Cache) : Prop where
  keyed : c.Keyed
  reached : ∀ page p, c.residentPage page = some p → c.Reaches page
  lies_over : ∀ page p, c.view page = some p → ∃ q, c.onDisk page = some q ∧ p.Proper ∧ p.Over q

/-- Whoever has changed a page of a grounded cache writes alone there. -/
structure Sound (c : Cache) : Prop extends c.Grounded where
  locked : ∀ page p txn, c.view page = some p → p.dirty = some txn →
    c.locks.table.heldMode txn page = some .readWrite

/-- The tables of a cache are still there, each with what it held, and no others. -/
structure Grows (c c' : Cache) : Prop where
  no_new : ∀ id, c.tables.get? id = none → c'.tables.get? id = none
  grows : ∀ id f, c.tables.get? id = some f → ∃ g, c'.tables.get? id = some g ∧ f.Grows g

/-- From one cache to the other nothing changes for those who look at pages: files may grow
by blank pages, and other pages may be resident. -/
structure Quiet (c c' : Cache) : Prop extends c.Grows c' where
  view_eq : ∀ page, c'.view page = c.view page
  reached : ∀ page p, c'.residentPage page = some p →
    c.residentPage page = some p ∨ c'.Reaches page

theorem stored_clean (h : c.onDisk page = some q) : q.Proper ∧ q.id = page ∧ q.dirty = none := by
  obtain ⟨f, -, hstored⟩ := Option.bind_eq_some_iff.1 h
  obtain ⟨hproper, hid, -, -, hdirty⟩ := TableFile.stored_proper hstored
  exact ⟨hproper, hid, hdirty⟩

theorem beforeImage_of_onDisk (h : c.onDisk page = some q) : q.beforeImage = .ok q := by
  obtain ⟨f, -, hstored⟩ := Option.bind_eq_some_iff.1 h
  exact TableFile.beforeImage_of_stored hstored

/-- A page with a mark is resident. -/
theorem resident_of_dirty (h : c.view page = some p) (hdirty : p.dirty ≠ none) :
    c.residentPage page = some p := by
  rcases hres : c.residentPage page with _ | r
  · rw [view_of_not_resident hres] at h
    exact absurd (stored_clean h).2.2 hdirty
  · rw [view_of_resident hres] at h
    exact h

theorem Grounded.id_eq (h : c.Grounded) (hview : c.view page = some p) : p.id = page := by
  obtain ⟨q, hq, -, hover⟩ := h.lies_over page p hview
  rw [hover.id_eq, (stored_clean hq).2.1]

/-- A page that is seen is one of a table of the cache. -/
theorem Grounded.exists_table (h : c.Grounded) (hview : c.view page = some p) :
    ∃ f, c.tables.get? page.table = some f := by
  obtain ⟨q, hq, -⟩ := h.lies_over page p hview
  obtain ⟨f, hf, -⟩ := Option.bind_eq_some_iff.1 hq
  exact ⟨f, hf⟩

theorem Grounded.eq_onDisk (h : c.Grounded) (hview : c.view page = some p)
    (hclean : p.dirty = none) : c.onDisk page = some p := by
  obtain ⟨q, hq, -, hover⟩ := h.lies_over page p hview
  rw [hq, hover.eq_of_clean hclean]

namespace Grows

theorem refl (c : Cache) : c.Grows c := ⟨fun _ h => h, fun _ f h => ⟨f, h, .refl f⟩⟩

theorem of_eq (h : c'.tables = c.tables) : c.Grows c' :=
  ⟨fun _ hid => by rw [h, hid], fun _ f hf => ⟨f, by rw [h, hf], .refl f⟩⟩

theorem trans (h₁ : c.Grows c') (h₂ : c'.Grows d) : c.Grows d where
  no_new id h := h₂.no_new id (h₁.no_new id h)
  grows id f h := by
    obtain ⟨g, hg, hfg⟩ := h₁.grows id f h
    obtain ⟨k, hk, hgk⟩ := h₂.grows id g hg
    exact ⟨k, hk, hfg.trans hgk⟩

theorem none_iff (h : c.Grows c') (id : TableId) :
    c'.tables.get? id = none ↔ c.tables.get? id = none := by
  refine ⟨?_, h.no_new id⟩
  intro hid
  rcases hf : c.tables.get? id with _ | f
  · rfl
  · obtain ⟨g, hg, -⟩ := h.grows id f hf
    rw [hid] at hg
    cases hg

theorem reaches (h : c.Grows c') (hreach : c.Reaches page) : c'.Reaches page := by
  obtain ⟨f, hf, hfr⟩ := hreach
  obtain ⟨g, hg, hgrows⟩ := h.grows _ f hf
  exact ⟨g, hg, hgrows.reaches hfr⟩

theorem onDisk_eq (h : c.Grows c') (page : PageId) : c'.onDisk page = c.onDisk page := by
  unfold onDisk
  rcases hf : c.tables.get? page.table with _ | f
  · rw [h.no_new _ hf]
  · obtain ⟨g, hg, hgrows⟩ := h.grows _ f hf
    rw [hg]
    exact hgrows.stored_eq page

theorem keyed (h : c.Grows c') (hkeyed : ∀ id f, c.tables.get? id = some f → f.table = id)
    (id : TableId) (g : TableFile) (hg : c'.tables.get? id = some g) : g.table = id := by
  rcases hf : c.tables.get? id with _ | f
  · rw [h.no_new id hf] at hg
    cases hg
  · obtain ⟨k, hk, hgrows⟩ := h.grows id f hf
    rw [hg, Option.some.injEq] at hk
    rw [hk, hgrows.table_eq, hkeyed id f hf]

end Grows

namespace Quiet

theorem refl (c : Cache) : c.Quiet c := ⟨.refl c, fun _ => rfl, fun _ _ h => Or.inl h⟩

theorem trans (h₁ : c.Quiet c') (h₂ : c'.Quiet d) : c.Quiet d where
  toGrows := h₁.toGrows.trans h₂.toGrows
  view_eq page := (h₂.view_eq page).trans (h₁.view_eq page)
  reached page p h := by
    rcases h₂.reached page p h with hres | hreach
    · rcases h₁.reached page p hres with hres | hreach
      · exact Or.inl hres
      · exact Or.inr (h₂.reaches hreach)
    · exact Or.inr hreach

end Quiet

/-- What is grounded stays so. -/
theorem Grounded.of_quiet (h : c.Grounded) (hq : c.Quiet c') : c'.Grounded where
  keyed := hq.keyed h.keyed
  reached page p hp := by
    rcases hq.reached page p hp with hres | hreach
    · exact hq.reaches (h.reached page p hres)
    · exact hreach
  lies_over page p hp := by
    rw [hq.onDisk_eq]
    rw [hq.view_eq] at hp
    exact h.lies_over page p hp

/-- What is sound stays so, as long as the writers keep their locks. -/
theorem Sound.of_quiet (h : c.Sound) (hq : c.Quiet c')
    (hlocks : ∀ txn page, c.locks.table.heldMode txn page = some .readWrite →
      c'.locks.table.heldMode txn page = some .readWrite) : c'.Sound where
  toGrounded := h.toGrounded.of_quiet hq
  locked page p txn hp hdirty := by
    rw [hq.view_eq] at hp
    exact hlocks txn page (h.locked page p txn hp hdirty)

end Cache

end PageCache
