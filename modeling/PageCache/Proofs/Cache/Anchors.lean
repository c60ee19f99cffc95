-- What a resident page has from its file, whatever was done to it and whoever has locked it: all
-- but its slots and its mark. So its snapshot has the bytes of the file, and can always be read. If
-- whoever changes a page marks it, then a page without a mark has its slots from the file, too, and
-- nobody who looks at pages sees which ones are resident.
import PageCache.Proofs.Cache.Prefixes
import PageCache.Proofs.Page.Edits

namespace PageCache

namespace HeapPage

variable {p q : HeapPage} {r : Record} {place : RecordId}

/-- What neither insertions and deletions nor marks change of a page. -/
def anchor (p : HeapPage) : HeapPage := { p with slots := #[], dirty := none }

@[simp] theorem anchor_change (p : HeapPage) (ch : Change) : (p.change ch).anchor = p.anchor := rfl

@[simp] theorem anchor_markDirty (p : HeapPage) (txn : TransactionId) :
    (p.markDirty txn).anchor = p.anchor := rfl

/-- Storing a record keeps a page proper, and its anchor. -/
theorem Proper.of_insert (h : p.Proper) (whole : r.IsWhole) (hi : p.insert r = .ok (q, place)) :
    q.Proper ∧ q.anchor = p.anchor := by
  have hedit := (ProperAt.edit ⟨h, rfl, rfl, rfl⟩ (.insert r whole)).proper
  obtain ⟨rfl, -⟩ := insert_ok h hi
  simp only [edit, hi] at hedit
  exact ⟨hedit, rfl⟩

/-- So does taking a record out. -/
theorem Proper.of_delete (h : p.Proper) {location : Option RecordId}
    (hd : p.delete location = .ok q) : q.Proper ∧ q.anchor = p.anchor := by
  have hedit := (ProperAt.edit ⟨h, rfl, rfl, rfl⟩ (.delete location)).proper
  obtain ⟨place, -, rfl, -⟩ := delete_ok hd
  simp only [edit, hd] at hedit
  exact ⟨hedit, rfl⟩

theorem id_eq_of_anchor (h : p.anchor = q.anchor) : p.id = q.id := by
  have hid := congrArg HeapPage.id h
  exact hid

/-- A page lies over what its file holds if it has its anchor from there, and is the same unless it
is marked. -/
theorem over_of_anchor (h : p.anchor = q.anchor) (hq : q.dirty = none)
    (hclean : p.dirty = none → p = q) : p.Over q where
  framed := by
    have hframed := congrArg (fun r : HeapPage => { r with slots := q.slots }) h
    refine hframed.trans ?_
    cases q
    cases hq
    rfl
  clean hnone := by rw [hclean hnone]

/-- Pages with one anchor have one snapshot. -/
theorem beforeImage_eq_of_anchor (h : p.anchor = q.anchor) : p.beforeImage = q.beforeImage := by
  have hbefore : p.anchor.beforeImage = q.anchor.beforeImage := by rw [h]
  exact hbefore

end HeapPage

namespace Cache

variable {c c' d : Cache} {strict : Bool} {page : PageId} {p q : HeapPage} {txn : TransactionId}
  {f : TableFile}

/-- The file of a page can be read there, and the page has its anchor in the file. In the strict
sense it is also what the file holds, unless it is marked. -/
structure Anchors (c : Cache) (strict : Bool) (page : PageId) (p : HeapPage) : Prop where
  reaches : c.Reaches page
  proper : p.Proper
  anchor_eq : ∃ q, c.onDisk page = some q ∧ p.anchor = q.anchor
  clean : strict = true → p.dirty = none → c.onDisk page = some p

/-- Tables are kept under their own numbers, and every resident page is anchored in its file. -/
structure Anchored (c : Cache) (strict : Bool) : Prop where
  keyed : c.Keyed
  anchors : ∀ page p, c.residentPage page = some p → c.Anchors strict page p

theorem anchored_new (config : Config) (log : Option WriteLog) (strict : Bool) :
    (Cache.new config log).Anchored strict where
  keyed _ _ hf := by cases hf
  anchors _ _ hres := by cases hres

namespace Anchors

theorem id_eq (h : c.Anchors strict page p) : p.id = page := by
  obtain ⟨q, hq, hanchor⟩ := h.anchor_eq
  rw [HeapPage.id_eq_of_anchor hanchor, (stored_clean hq).2.1]

theorem of_grows (h : c.Anchors strict page p) (hg : c.Grows c') : c'.Anchors strict page p where
  reaches := hg.reaches h.reaches
  proper := h.proper
  anchor_eq := by
    rw [hg.onDisk_eq]
    exact h.anchor_eq
  clean := by
    rw [hg.onDisk_eq]
    exact h.clean

/-- A page that was changed keeps its anchor. In the strict sense it has to be marked. -/
theorem alter (h : c.Anchors strict page p) (hq : q.Proper ∧ q.anchor = p.anchor)
    (hmark : strict = true → q.dirty ≠ none) : c.Anchors strict page q where
  reaches := h.reaches
  proper := hq.1
  anchor_eq := by
    rw [hq.2]
    exact h.anchor_eq
  clean hstrict hclean := absurd hclean (hmark hstrict)

theorem mark (h : c.Anchors strict page p) (hq : q.Proper ∧ q.anchor = p.anchor)
    (txn : TransactionId) : c.Anchors strict page (q.markDirty txn) :=
  h.alter ⟨hq.1.markDirty txn, hq.2⟩ fun _ hclean => by cases hclean

end Anchors

namespace Anchored

/-- What is anchored in the strict sense is grounded: an eviction is not seen. -/
theorem grounded (h : c.Anchored true) : c.Grounded where
  keyed := h.keyed
  reached page p hres := (h.anchors page p hres).reaches
  lies_over page p hview := by
    rcases hres : c.residentPage page with _ | r
    · rw [view_of_not_resident hres] at hview
      obtain ⟨hproper, -, hclean⟩ := stored_clean hview
      exact ⟨p, hview, hproper, .refl hclean⟩
    · rw [view_of_resident hres, Option.some.injEq] at hview
      subst hview
      obtain ⟨-, hproper, ⟨q, hq, hanchor⟩, hclean⟩ := h.anchors page r hres
      refine ⟨q, hq, hproper, HeapPage.over_of_anchor hanchor (stored_clean hq).2.2 fun hnone => ?_⟩
      exact Option.some.inj ((hclean rfl hnone).symm.trans hq)

/-- Files may grow, and pages may come in that are anchored. -/
theorem of_grows (h : c.Anchored strict) (hg : c.Grows c')
    (hres : ∀ page p, c'.residentPage page = some p →
      c.residentPage page = some p ∨ c'.Anchors strict page p) : c'.Anchored strict where
  keyed := hg.keyed h.keyed
  anchors page p hp := by
    rcases hres page p hp with hold | hnew
    · exact (h.anchors page p hold).of_grows hg
    · exact hnew

theorem of_same (h : c.Anchored strict) (htables : c'.tables = c.tables)
    (hres : ∀ page, c'.residentPage page = c.residentPage page) : c'.Anchored strict :=
  h.of_grows (.of_eq htables) fun page p hp => .inl (by rw [← hres page, hp])

/-! ## Pages that come and go -/

theorem noteUse (h : c.Anchored strict) (page : PageId) : (c.noteUse page).Anchored strict :=
  h.of_same rfl fun _ => rfl

theorem setLocks (h : c.Anchored strict) (locks : Locking) : Anchored { c with locks } strict :=
  h.of_same rfl fun _ => rfl

theorem setPinned (h : c.Anchored strict) (page : PageId) (pinned : Bool) :
    (c.setPinned page pinned).Anchored strict :=
  h.of_same (setPinned_same c page pinned).1 (residentPage_setPinned c page pinned)

theorem setTable (h : c.Anchored strict) {id : TableId} (hf : c.tables.get? id = some f)
    {g : TableFile} (hgrows : f.Grows g) : (c.setTable g).Anchored strict :=
  h.of_grows (grows_setTable h.keyed hf hgrows) fun _ _ => .inl

theorem allocate (h : c.Anchored strict) (hroom : c.HasRoom) (id : TableId) :
    (c.allocate id).1.Anchored strict := by
  unfold Cache.allocate
  split
  · exact h
  · rename_i file htable
    have hfile := get?_of_table htable
    have hfroom := hroom id file hfile
    rw [TableFile.allocate_eq hfroom]
    exact h.setTable hfile (TableFile.grows_grown hfroom)

/-- A new table has no resident pages yet. -/
theorem addTable (h : c.Anchored strict) (he : c.addTable f = .ok c') : c'.Anchored strict := by
  unfold Cache.addTable at he
  split at he
  · cases he
  · rename_i hnew
    cases he
    have hnone : c.tables.get? f.table = none := by
      rwa [← FinMap.contains_eq_false_iff, ← Bool.not_eq_true]
    have hother : ∀ id, id ≠ f.table → (c.setTable f).tables.get? id = c.tables.get? id :=
      fun id hid => (get?_setTable c f id).trans (if_neg hid)
    constructor
    · intro id g hg
      by_cases hid : id = f.table
      · rw [hid, FinMap.get?_insert, if_pos rfl] at hg
        cases hg
        exact hid.symm
      · exact h.keyed id g ((hother id hid).symm.trans hg)
    · intro page p hp
      obtain ⟨⟨g, hg, hreach⟩, hproper, ⟨q, hq, hanchor⟩, hclean⟩ := h.anchors page p hp
      have htable : page.table ≠ f.table := by
        intro heq
        rw [heq, hnone] at hg
        cases hg
      have hdisk : (c.setTable f).onDisk page = c.onDisk page :=
        (onDisk_setTable c f page).trans (if_neg htable)
      exact ⟨⟨g, (hother _ htable).trans hg, hreach⟩, hproper, ⟨q, hdisk.trans hq, hanchor⟩,
        fun hstrict hnone => hdisk.trans (hclean hstrict hnone)⟩

theorem makeRoom (h : c.Anchored strict) (he : c.makeRoom = .ok c') : c'.Anchored strict :=
  h.of_grows (.of_eq (makeRoom_tables he)) fun _ _ hp => .inl (residentPage_makeRoom he hp)

theorem evict (h : c.Anchored strict) (he : c.evict = .ok (c', page)) : c'.Anchored strict := by
  apply h.of_grows (.of_eq (evict_tables he))
  intro other p hp
  rw [residentPage_evict he] at hp
  split at hp
  · cases hp
  · exact .inl hp

theorem discard (h : c.Anchored strict) (page : PageId) : (c.discard page).Anchored strict := by
  apply h.of_grows (.of_eq (discard_same c page).1)
  intro other p hp
  rw [residentPage_discard] at hp
  split at hp
  · cases hp
  · exact .inl hp

/-- An anchored page takes its place. -/
theorem place (h : c.Anchored strict) (ha : c.Anchors strict page p) :
    (c.place p).Anchored strict := by
  have hgrows : c.Grows (c.place p) := .of_eq rfl
  apply h.of_grows hgrows
  intro other q hq
  rw [residentPage_place] at hq
  split at hq
  · rename_i hother
    cases hq
    rw [hother, ha.id_eq]
    exact .inr (ha.of_grows hgrows)
  · exact .inl hq

theorem amend (h : c.Anchored strict) (ha : c.Anchors strict page p) :
    (c.amend p).Anchored strict := by
  unfold Cache.amend
  split
  · exact h.place ha
  · exact h

/-- A page that was read is anchored. -/
theorem readPage (h : c.Anchored strict) (page : PageId) :
    (c.readPage page.table page).1.Anchored strict ∧
    ∀ p, (c.readPage page.table page).2 = .ok p →
      (c.readPage page.table page).1.Anchors strict page p := by
  unfold Cache.readPage
  split
  · exact ⟨h, fun p hp => by cases hp⟩
  · rename_i file htable
    have hfile := get?_of_table htable
    have hgrows := TableFile.grows_of_alike (TableFile.withoutReads_read file page)
    have hgrow := grows_setTable h.keyed hfile hgrows
    refine ⟨h.setTable hfile hgrows, fun p hp => ?_⟩
    obtain ⟨-, hstored, hreach⟩ := TableFile.read_ok hp
    have hdisk : (c.setTable (file.read page).1).onDisk page = some p := by
      rw [hgrow.onDisk_eq, onDisk, hfile]
      exact hstored
    exact ⟨hgrow.reaches ⟨file, hfile, hreach⟩, (TableFile.stored_proper hstored).1,
      ⟨p, hdisk, rfl⟩, fun _ _ => hdisk⟩

/-- A page that was brought in is resident, and so it is anchored. -/
theorem bring (h : c.Anchored strict) (page : PageId) : (c.bring page).1.Anchored strict := by
  rcases hget : c.resident.get? page with _ | frame
  · rw [bring_eq_of_miss hget]
    obtain ⟨hread, hpage⟩ := h.readPage page
    rcases hr : c.readPage page.table page with ⟨c', e | p⟩ <;> rw [hr] at hread hpage
    · exact hread
    · simp only
      split
      · exact hread
      · rename_i d hroom
        have hd := hread.makeRoom hroom
        have ha := (hpage p rfl).of_grows (.of_eq (makeRoom_tables hroom))
        exact (hd.place ha).noteUse page
  · unfold Cache.bring
    rw [hget]
    exact h.noteUse page

end Anchored

end Cache

end PageCache
