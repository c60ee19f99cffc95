-- What others leave to a transaction: the pages that it holds are seen as before, whatever the
-- others call, commit and abort, for to change a page they would have to hold it alone. And as
-- long as the transaction only reads, it marks no page.
import PageCache.Proofs.Cache.Calls
import PageCache.Proofs.Cache.Endings

namespace PageCache

/-- Nothing is to be stored or taken out. -/
def Errand.reads : Errand → Bool
  | .store _ | .clear _ => false
  | .visit .. | .read => true

theorem Errand.change_of_reads {errand : Errand} (h : errand.reads = true) (outcome : Outcome) :
    errand.change outcome = none := by
  cases errand with
  | store row => cases h
  | clear place => cases h
  | visit page purpose => rfl
  | read => rfl

theorem Stage.seeks_of_reads {stage : Stage} {page : PageId}
    (h : (stage.errand page).reads = true) : stage.seeks = false := by
  cases stage with
  | seek job left next held => cases h
  | _ => rfl

namespace Cache

variable {c c' d : Cache} {page : PageId} {p : HeapPage} {txn u : TransactionId}

/-! ## Tables that do not become shorter -/

theorem pageCount_eq {id : TableId} {f : TableFile} (h : c.tables.get? id = some f) :
    c.pageCount id = f.pageCount := by
  rw [pageCount, h]

theorem pageCount_setTable (c : Cache) (f : TableFile) (id : TableId) :
    (c.setTable f).pageCount id = if id = f.table then f.pageCount else c.pageCount id := by
  unfold pageCount
  rw [get?_setTable]
  by_cases hid : id = f.table
  · rw [if_pos hid, if_pos hid]
  · rw [if_neg hid, if_neg hid]

theorem Grows.pageCount_le (h : c.Grows c') (id : TableId) : c.pageCount id ≤ c'.pageCount id := by
  unfold pageCount
  rcases hf : c.tables.get? id with _ | f
  · exact UInt32.zero_le
  · obtain ⟨g, hg, hgrows⟩ := h.grows id f hf
    rw [hg]
    exact hgrows.pageCount_le

theorem SameFiles.pageCount_eq (h : c.SameFiles c') (id : TableId) :
    c'.pageCount id = c.pageCount id := by
  unfold pageCount
  rcases hf : c.tables.get? id with _ | f
  · rw [h.none_of_none hf]
  · obtain ⟨g, hg, halike⟩ := h.exists_alike hf
    rw [hg]
    exact TableFile.pageCount_eq_of_alike halike

/-- A write goes to a page of the table, and leaves the table no shorter. -/
theorem pageCount_le_write {f g : TableFile} (h : f.write p = .ok g) :
    g.table = f.table ∧ p.id.table = f.table ∧ f.pageCount ≤ g.pageCount := by
  unfold TableFile.write at h
  split at h
  · cases h
  · rename_i hcheck
    unfold TableFile.check at hcheck
    split at hcheck
    · cases hcheck
    · rename_i htable
      unfold Disk.write at h
      split at h
      · rename_i hwrite
        cases h
        refine ⟨rfl, by simpa using htable, ?_⟩
        split at hwrite
        · cases hwrite
        · split at hwrite
          · cases hwrite
            change f.pageCount ≤ if f.pageCount ≤ p.id.number + 1 then p.id.number + 1
              else f.pageCount
            split
            · assumption
            · exact UInt32.le_refl _
          · cases hwrite
      · cases h

/-- A table does not become shorter where pages are written back. -/
theorem pageCount_le_writeBack (c : Cache) (txn : TransactionId) (p : HeapPage) (id : TableId) :
    c.pageCount id ≤ (c.writeBack txn p).1.pageCount id := by
  unfold writeBack
  split
  · exact UInt32.le_refl _
  · rename_i file hfile
    have hget := get?_of_table hfile
    obtain ⟨log, result, hlog⟩ := tellLog_eq c txn p
    rw [hlog c rfl]
    rcases result with e | _
    · exact UInt32.le_refl _
    · simp only
      split
      · exact UInt32.le_refl _
      · rename_i g hwrite
        obtain ⟨htable, hid, hle⟩ := pageCount_le_write hwrite
        have hafter : ((Cache.setTable { c with log } g).amend p.markClean.snapshot).pageCount id =
            (Cache.setTable { c with log } g).pageCount id := by
          rw [pageCount, pageCount, (amend_same _ _).1]
        rw [hafter, pageCount_setTable]
        split
        · rename_i hg
          rw [hg, htable, ← hid, pageCount_eq hget]
          exact hle
        · exact UInt32.le_refl _

theorem pageCount_le_writeBackAll (txn : TransactionId) (pages : List PageId) (c : Cache)
    (id : TableId) : c.pageCount id ≤ (writeBackAll txn pages c).1.pageCount id := by
  induction pages generalizing c with
  | nil => exact UInt32.le_refl _
  | cons page rest ih =>
    unfold writeBackAll
    split
    · exact ih c
    · split
      · exact ih c
      · rename_i p _ _
        have hfirst := pageCount_le_writeBack c txn p id
        rcases hw : c.writeBack txn p with ⟨d, e | _⟩
        · rw [hw] at hfirst
          exact hfirst
        · rw [hw] at hfirst
          exact UInt32.le_trans hfirst (ih d)

theorem pageCount_le_commit (c : Cache) (txn : TransactionId) (id : TableId) :
    c.pageCount id ≤ (c.commit txn).1.pageCount id := by
  have hall := pageCount_le_writeBackAll txn (c.heldPages txn) c id
  unfold commit
  rcases hw : writeBackAll txn (c.heldPages txn) c with ⟨d, e | _⟩ <;> rw [hw] at hall
  · exact hall
  · exact hall

theorem pageCount_abort (h : c.Sound) (txn : TransactionId) (id : TableId) :
    (c.abort txn).1.pageCount id = c.pageCount id := by
  obtain ⟨c', he, hrestored⟩ := h.reloadAll (c.heldPages txn) none
  unfold abort
  rw [he]
  exact hrestored.files.pageCount_eq id

/-! ## What others leave to a transaction -/

/-- The transaction keeps the pages that it holds, users know of them what they knew, no table
has become shorter, and the transaction has not changed any other page. -/
structure Spares (txn : TransactionId) (c c' : Cache) : Prop where
  kept : ∀ page, c.holds txn page = true → c'.holds txn page = true
  seen : ∀ page p, c.holds txn page = true → c.view page = some p →
    ∃ q, c'.view page = some q ∧ q.bare = p.bare
  grown : ∀ id, c.pageCount id ≤ c'.pageCount id
  unmarked : ∀ page q, c'.view page = some q → q.dirty = some txn →
    ∃ p, c.view page = some p ∧ p.dirty = some txn

theorem Spares.refl (txn : TransactionId) (c : Cache) : c.Spares txn c where
  kept _ hholds := hholds
  seen _ p _ hview := ⟨p, hview, rfl⟩
  grown _ := UInt32.le_refl _
  unmarked _ q hview hmark := ⟨q, hview, hmark⟩

theorem Spares.trans (h₁ : c.Spares txn c') (h₂ : c'.Spares txn d) : c.Spares txn d where
  kept page hholds := h₂.kept page (h₁.kept page hholds)
  seen page p hholds hview := by
    obtain ⟨q, hq, hbare⟩ := h₁.seen page p hholds hview
    obtain ⟨r, hr, hbare'⟩ := h₂.seen page q (h₁.kept page hholds) hq
    exact ⟨r, hr, hbare'.trans hbare⟩
  grown id := UInt32.le_trans (h₁.grown id) (h₂.grown id)
  unmarked page q hview hmark := by
    obtain ⟨p, hp, hmark'⟩ := h₂.unmarked page q hview hmark
    exact h₁.unmarked page p hp hmark'

theorem Quiet.spares (h : c.Quiet c')
    (hkept : ∀ page, c.holds txn page = true → c'.holds txn page = true) : c.Spares txn c' where
  kept := hkept
  seen page p _ hview := ⟨p, (h.view_eq page).trans hview, rfl⟩
  grown := h.toGrows.pageCount_le
  unmarked page q hview hmark := ⟨q, (h.view_eq page).symm.trans hview, hmark⟩

/-! ## What the steps of others leave -/

/-- A call of another transaction changes what nobody else holds, and a call of the transaction
itself that changes nothing takes nothing from it. -/
theorem Did.spares {change : Option Change} (h : c.Did u change c')
    (hkept : ∀ page, c.holds txn page = true → c'.holds txn page = true)
    (hown : u = txn → change = none) : c.Spares txn c' where
  kept := hkept
  seen page p hholds hview := by
    refine ⟨p.altered u change page, by rw [h.view_eq, hview, Option.map_some], ?_⟩
    unfold HeapPage.altered
    split
    · rename_i ch
      split
      · rename_i hpage
        have hwriter := (h.writes ch rfl).1
        rw [hpage] at hwriter
        have hboth := PageLock.eq_of_heldBy_readWrite (h.turn.orderly.tidy.exclusive page) hwriter
          (LockTable.holds_iff.1 (hkept page hholds))
        cases hown hboth.symm
      · rfl
    · rfl
  grown := h.toGrows.pageCount_le
  unmarked page q hview hmark := by
    rw [h.view_eq] at hview
    obtain ⟨p, hp, rfl⟩ := Option.map_eq_some_iff.1 hview
    refine ⟨p, hp, ?_⟩
    unfold HeapPage.altered at hmark
    split at hmark
    · split at hmark
      · cases hown (Option.some.inj hmark)
      · exact hmark
    · exact hmark

/-- What others hold stays with them when a transaction ends. -/
theorem Ended.holds {final : PageId → Option HeapPage} (h : c.Ended u final c')
    (ho : c.locks.Orderly) (hne : u ≠ txn) (hholds : c.holds txn page = true) :
    c'.holds txn page = true := by
  apply LockTable.holds_iff.2
  rw [h.heldMode_of_ne ho (Ne.symm hne)]
  exact LockTable.holds_iff.1 hholds

/-- A commit writes what is seen of its pages. -/
theorem Ended.spares_commit (h : c.Ended u (fun page => (c.view page).map HeapPage.saved) c')
    (ho : c.locks.Orderly) (hne : u ≠ txn) (hgrown : ∀ id, c.pageCount id ≤ c'.pageCount id) :
    c.Spares txn c' where
  kept _ hholds := h.holds ho hne hholds
  seen page p _ hview := by
    by_cases hmark : p.dirty = some u
    · refine ⟨p.saved, ?_, p.bare_saved⟩
      rw [(h.changed page p hview hmark).1, hview, Option.map_some]
    · refine ⟨p, ?_, rfl⟩
      rw [(h.unchanged page fun q hq => ?_).1, hview]
      rw [hview, Option.some.injEq] at hq
      rw [← hq]
      exact hmark
  grown := hgrown
  unmarked page q hview hmark := by
    by_cases hmine : ∃ p, c.view page = some p ∧ p.dirty = some u
    · obtain ⟨p, hp, hdirty⟩ := hmine
      rw [(h.changed page p hp hdirty).1, hp, Option.map_some, Option.some.injEq] at hview
      rw [← hview, p.dirty_saved] at hmark
      cases hmark
    · rw [(h.unchanged page fun p hp hdirty => hmine ⟨p, hp, hdirty⟩).1] at hview
      exact ⟨q, hview, hmark⟩

/-- So does a commit that the log has stopped. -/
theorem Saved.spares {pages : List PageId} (h : c.Saved pages c')
    (hgrown : ∀ id, c.pageCount id ≤ c'.pageCount id) : c.Spares txn c' where
  kept page hholds := by
    rw [Cache.holds, h.locks_eq]
    exact hholds
  seen page p _ hview := by
    rw [h.view_eq, hview]
    split
    · exact ⟨p.saved, rfl, p.bare_saved⟩
    · exact ⟨p, rfl, rfl⟩
  grown := hgrown
  unmarked page q hview hmark := by
    rw [h.view_eq] at hview
    split at hview
    · obtain ⟨p, -, rfl⟩ := Option.map_eq_some_iff.1 hview
      rw [p.dirty_saved] at hmark
      cases hmark
    · exact ⟨q, hview, hmark⟩

/-- An abort reads pages again that nobody else can hold. -/
theorem Ended.spares_abort (h : c.Ended u c.onDisk c') (hc : c.Sound) (ho : c.locks.Orderly)
    (hne : u ≠ txn) (hgrown : ∀ id, c.pageCount id ≤ c'.pageCount id) : c.Spares txn c' where
  kept _ hholds := h.holds ho hne hholds
  seen page p hholds hview := by
    refine ⟨p, ?_, rfl⟩
    rw [(h.unchanged page fun q hq hdirty => hne ?_).1, hview]
    exact (PageLock.eq_of_heldBy_readWrite (ho.tidy.exclusive page) (hc.locked page q u hq hdirty)
      (LockTable.holds_iff.1 hholds)).symm
  grown := hgrown
  unmarked page q hview hmark := by
    by_cases hmine : ∃ p, c.view page = some p ∧ p.dirty = some u
    · obtain ⟨p, hp, hdirty⟩ := hmine
      rw [(h.changed page p hp hdirty).1] at hview
      rw [(stored_clean hview).2.2] at hmark
      cases hmark
    · rw [(h.unchanged page fun p hp hdirty => hmine ⟨p, hp, hdirty⟩).1] at hview
      exact ⟨q, hview, hmark⟩

/-- A new table is no table of pages that were held and seen. -/
theorem Sound.spares_addTable (h : c.Sound) {file : TableFile}
    (hnew : c.tables.get? file.table = none) : c.Spares txn (c.setTable file) where
  kept _ hholds := hholds
  seen page p _ hview := by
    refine ⟨p, ?_, rfl⟩
    rw [h.view_new_table hnew, if_neg, hview]
    intro htable
    obtain ⟨f, hf⟩ := h.exists_table hview
    rw [htable, hnew] at hf
    cases hf
  grown id := by
    rw [pageCount_setTable]
    split
    · rename_i hid
      rw [hid, pageCount, hnew]
      exact UInt32.zero_le
    · exact UInt32.le_refl _
  unmarked page q hview hmark := by
    rw [h.view_new_table hnew] at hview
    split at hview
    · rw [(TableFile.stored_proper hview).2.2.2.2] at hmark
      cases hmark
    · exact ⟨q, hview, hmark⟩

end Cache

end PageCache
