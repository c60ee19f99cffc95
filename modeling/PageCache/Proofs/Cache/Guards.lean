-- A mark is guarded: whoever has changed a resident page has it locked for writing, also where
-- files fail, are torn or are written by others. So the pages that a transaction holds are all
-- that its end has to look at: after it they are clean or gone, and the other pages stay.
import PageCache.Proofs.Cache.Tracking
import PageCache.Proofs.Cache.Endings
import PageCache.Proofs.Lock.Bookkeeping

namespace PageCache

namespace Cache

variable {c c' d : Cache} {page : PageId} {p q : HeapPage} {txn u : TransactionId}
  {f : TableFile}

/-- Resident pages stand in their own places. -/
def Placed (c : Cache) : Prop := ∀ page p, c.residentPage page = some p → p.id = page

/-- The locks are those of a run, a resident page stands in its own place, and whoever has
marked it has it locked for writing. -/
structure Guarded (c : Cache) : Prop where
  reachable : c.locks.Reachable
  placed : ∀ page p, c.residentPage page = some p → p.id = page
  locked : ∀ page p txn, c.residentPage page = some p → p.dirty = some txn →
    c.locks.table.heldMode txn page = some .readWrite

/-- Pages come in without a mark, lose their marks or go, and the locks stay. -/
structure Fades (c c' : Cache) : Prop where
  locks_eq : c'.locks = c.locks
  pages : ∀ page p, c'.residentPage page = some p →
    c.residentPage page = some p ∨ (p.id = page ∧ p.dirty = none)

theorem guarded_new (config : Config) (log : Option WriteLog) : (Cache.new config log).Guarded where
  reachable := .empty
  placed _ _ hres := by cases hres
  locked _ _ _ hres := by cases hres

theorem Placed.of_fades (h : c.Placed) (hf : c.Fades c') : c'.Placed := by
  intro page p hres
  rcases hf.pages page p hres with hold | ⟨hid, -⟩
  · exact h page p hold
  · exact hid

theorem Guarded.of_fades (h : c.Guarded) (hf : c.Fades c') : c'.Guarded where
  reachable := hf.locks_eq ▸ h.reachable
  placed := Placed.of_fades h.placed hf
  locked page p txn hres hmark := by
    rw [hf.locks_eq]
    rcases hf.pages page p hres with hold | ⟨-, hclean⟩
    · exact h.locked page p txn hold hmark
    · rw [hclean] at hmark
      cases hmark

/-- No two transactions can have marked what only one of them may write. -/
theorem Guarded.eq_of_mark (h : c.Guarded) (hres : c.residentPage page = some p)
    (hmark : p.dirty = some u) (hholds : c.holds txn page = true) : txn = u :=
  PageLock.eq_of_heldBy_readWrite (h.reachable.orderly.tidy.exclusive page)
    (h.locked page p u hres hmark) (LockTable.holds_iff.1 hholds)

/-! ## Pages that fade -/

namespace Fades

theorem refl (c : Cache) : c.Fades c := ⟨rfl, fun _ _ hres => Or.inl hres⟩

theorem trans (h₁ : c.Fades c') (h₂ : c'.Fades d) : c.Fades d where
  locks_eq := h₂.locks_eq.trans h₁.locks_eq
  pages page p hres := by
    rcases h₂.pages page p hres with hmid | hclean
    · exact h₁.pages page p hmid
    · exact Or.inr hclean

theorem of_same (hlocks : c'.locks = c.locks)
    (hres : ∀ page, c'.residentPage page = c.residentPage page) : c.Fades c' :=
  ⟨hlocks, fun page p hp => Or.inl (by rw [← hres page, hp])⟩

theorem noteUse (c : Cache) (page : PageId) : c.Fades (c.noteUse page) := .of_same rfl fun _ => rfl

theorem setTable (c : Cache) (f : TableFile) : c.Fades (c.setTable f) := .of_same rfl fun _ => rfl

theorem setPinned (c : Cache) (page : PageId) (pinned : Bool) :
    c.Fades (c.setPinned page pinned) :=
  .of_same (setPinned_same c page pinned).2.1 (residentPage_setPinned c page pinned)

/-- A clean page takes the place that is its own. -/
theorem place (c : Cache) (hclean : p.dirty = none) : c.Fades (c.place p) := by
  refine ⟨rfl, fun page r hres => ?_⟩
  rw [residentPage_place] at hres
  split at hres
  · rename_i hpage
    cases hres
    exact Or.inr ⟨hpage.symm, hclean⟩
  · exact Or.inl hres

theorem amend (c : Cache) (hclean : p.dirty = none) : c.Fades (c.amend p) := by
  unfold Cache.amend
  split
  · exact .place c hclean
  · exact .refl c

theorem discard (c : Cache) (page : PageId) : c.Fades (c.discard page) := by
  unfold Cache.discard
  split
  · refine ⟨rfl, fun other r hres => Or.inl ?_⟩
    simp only [residentPage, FinMap.get?_erase] at hres
    split at hres
    · cases hres
    · exact hres
  · exact .refl c

theorem evict (he : c.evict = .ok (c', page)) : c.Fades c' := by
  have hres := residentPage_evict he
  unfold Cache.evict at he
  split at he
  · cases he
    refine ⟨rfl, fun other r hr => Or.inl ?_⟩
    rw [hres] at hr
    split at hr
    · cases hr
    · exact hr
  · cases he

theorem makeRoom (he : c.makeRoom = .ok c') : c.Fades c' := by
  unfold Cache.makeRoom at he
  split at he
  · rcases hev : c.evict with err | ⟨d, victim⟩
    · rw [hev] at he
      cases he
    · rw [hev] at he
      cases he
      exact .evict hev
  · cases he
    exact .refl c

theorem readPage (c : Cache) (table : TableId) (page : PageId) :
    c.Fades (c.readPage table page).1 := by
  obtain ⟨tables, he⟩ := readPage_same c table page
  rw [he]
  exact .of_same rfl fun _ => rfl

theorem allocate (c : Cache) (id : TableId) : c.Fades (c.allocate id).1 := by
  unfold Cache.allocate
  split
  · exact .refl c
  · exact .setTable c _

theorem addTable (he : c.addTable f = .ok c') : c.Fades c' := by
  unfold Cache.addTable at he
  split at he
  · cases he
  · cases he
    exact .setTable c f

end Fades

/-- What is read from a file is a page of its own, without a mark. -/
theorem clean_of_readPage {table : TableId} (he : (c.readPage table page).2 = .ok p) :
    p.id = page ∧ p.dirty = none := by
  refine ⟨id_of_readPage he, ?_⟩
  unfold Cache.readPage at he
  split at he
  · cases he
  · obtain ⟨-, hstored, -⟩ := TableFile.read_ok he
    exact (TableFile.stored_proper hstored).2.2.2.2

/-- A page that was brought in is resident, and what was resident fades. -/
theorem fades_bring (c : Cache) (page : PageId) : c.Fades (c.bring page).1 ∧
    ∀ p, (c.bring page).2 = .ok p → (c.bring page).1.residentPage page = some p := by
  rcases hget : c.resident.get? page with _ | frame
  · rw [bring_eq_of_miss hget]
    have hfades := Fades.readPage c page.table page
    rcases hread : c.readPage page.table page with ⟨c', e | p⟩
    · rw [hread] at hfades
      exact ⟨hfades, fun p hp => by cases hp⟩
    · rw [hread] at hfades
      obtain ⟨hid, hclean⟩ := clean_of_readPage (congrArg Prod.snd hread)
      simp only
      split
      · exact ⟨hfades, fun p hp => by cases hp⟩
      · rename_i d hroom
        refine ⟨((hfades.trans (.makeRoom hroom)).trans (.place d hclean)).trans (.noteUse _ page),
          fun r hr => ?_⟩
        cases hr
        change (d.place p).residentPage page = some p
        rw [residentPage_place, if_pos hid.symm]
  · unfold Cache.bring
    rw [hget]
    refine ⟨.noteUse c page, fun p hp => ?_⟩
    cases hp
    change (c.resident.get? page).map Frame.page = some frame.page
    rw [hget]
    rfl

/-! ## Pages that an end has looked at -/

/-- The pages of a list are clean or gone, and the others are as they were. -/
structure Cleaned (pages : List PageId) (c c' : Cache) : Prop where
  fades : c.Fades c'
  clean : ∀ page ∈ pages, ∀ p, c'.residentPage page = some p → p.dirty = none
  same : ∀ page, page ∉ pages → c'.residentPage page = c.residentPage page

theorem Cleaned.nil (c : Cache) : c.Cleaned [] c where
  fades := .refl c
  clean _ hmem := by cases hmem
  same _ _ := rfl

theorem Cleaned.cons {pages : List PageId} (h₁ : c.Cleaned [page] c') (h₂ : c'.Cleaned pages d) :
    c.Cleaned (page :: pages) d where
  fades := h₁.fades.trans h₂.fades
  clean other hmem p hres := by
    -- once clean, a page can only come in clean again
    rcases List.mem_cons.1 hmem with rfl | hrest
    · rcases h₂.fades.pages other p hres with hmid | ⟨-, hclean⟩
      · exact h₁.clean other (List.mem_singleton_self other) p hmid
      · exact hclean
    · exact h₂.clean other hrest p hres
  same other hmem := by
    rw [List.mem_cons, not_or] at hmem
    rw [h₂.same other hmem.2, h₁.same other (by simpa using hmem.1)]

/-- A page that is not there needs no look. -/
theorem cleaned_of_none (hnone : c.residentPage page = none) : c.Cleaned [page] c where
  fades := .refl c
  clean other hmem p hres := by
    rw [List.mem_singleton.1 hmem, hnone] at hres
    cases hres
  same _ _ := rfl

/-- Nor does a page without a mark. -/
theorem cleaned_of_clean (hres : c.residentPage page = some p) (hclean : p.dirty.isNone = true) :
    c.Cleaned [page] c where
  fades := .refl c
  clean other hmem r hr := by
    rw [List.mem_singleton.1 hmem, hres, Option.some.injEq] at hr
    rw [← hr]
    exact Option.isNone_iff_eq_none.1 hclean
  same _ _ := rfl

/-- A resident page is replaced by a clean one. -/
theorem cleaned_amend (hres : c.residentPage page = some q) (hid : p.id = page)
    (hclean : p.dirty = none) : c.Cleaned [page] (c.amend p) := by
  subst hid
  have hafter := residentPage_amend hres
  refine ⟨.amend c hclean, fun other hmem r hr => ?_, fun other hmem => ?_⟩
  · rw [List.mem_singleton.1 hmem, hafter, if_pos rfl] at hr
    cases hr
    exact hclean
  · rw [hafter, if_neg (by simpa using hmem)]

theorem cleaned_discard (c : Cache) (page : PageId) : c.Cleaned [page] (c.discard page) := by
  have hafter : ∀ other, (c.discard page).residentPage other =
      if other = page then none else c.residentPage other := residentPage_discard c page
  refine ⟨.discard c page, fun other hmem r hr => ?_, fun other hmem => ?_⟩
  · rw [hafter, if_pos (List.mem_singleton.1 hmem)] at hr
    cases hr
  · rw [hafter, if_neg (by simpa using hmem)]

/-- What comes before with the same resident pages does not matter. -/
theorem Cleaned.of_same {pages : List PageId} (h : c'.Cleaned pages d)
    (hlocks : c'.locks = c.locks) (hres : ∀ page, c'.residentPage page = c.residentPage page) :
    c.Cleaned pages d where
  fades := (Fades.of_same hlocks hres).trans h.fades
  clean := h.clean
  same page hmem := (h.same page hmem).trans (hres page)

theorem tellLog_same (c : Cache) (txn : TransactionId) (p : HeapPage) :
    (c.tellLog txn p).1.locks = c.locks ∧
      ∀ page, (c.tellLog txn p).1.residentPage page = c.residentPage page := by
  obtain ⟨log, result, hlog⟩ := tellLog_eq c txn p
  rw [hlog c rfl]
  exact ⟨rfl, fun _ => rfl⟩

/-- A page is written back and clean, or nothing has become of it. -/
theorem Placed.writeBack (h : c.Placed) (hres : c.residentPage page = some p)
    (txn : TransactionId) : c.Fades (c.writeBack txn p).1 ∧
      ((c.writeBack txn p).2 = .ok () → c.Cleaned [page] (c.writeBack txn p).1) := by
  have hid := h page p hres
  obtain ⟨hlocks, hsame⟩ := tellLog_same c txn p
  unfold Cache.writeBack
  split
  · exact ⟨.refl c, fun hok => by cases hok⟩
  · rcases htell : c.tellLog txn p with ⟨d, e | _⟩
    · rw [htell] at hlocks hsame
      exact ⟨.of_same hlocks hsame, fun hok => by cases hok⟩
    · rw [htell] at hlocks hsame
      simp only
      split
      · exact ⟨.of_same hlocks hsame, fun hok => by cases hok⟩
      · rename_i g _
        have hafter : (d.setTable g).residentPage page = some p := (hsame page).trans hres
        have hsaved : p.markClean.snapshot.id = page ∧ p.markClean.snapshot.dirty = none :=
          ⟨hid, rfl⟩
        have hcleaned : c.Cleaned [page] ((d.setTable g).amend p.markClean.snapshot) :=
          (cleaned_amend hafter hsaved.1 hsaved.2).of_same hlocks hsame
        exact ⟨hcleaned.fades, fun _ => hcleaned⟩

/-- Pages are written back up to the first failure; without one they are all clean. -/
theorem Placed.writeBackAll (h : c.Placed) (txn : TransactionId) (pages : List PageId) :
    c.Fades (writeBackAll txn pages c).1 ∧
      ((writeBackAll txn pages c).2 = .ok () →
        c.Cleaned pages (writeBackAll txn pages c).1) := by
  induction pages generalizing c with
  | nil => exact ⟨.refl c, fun _ => .nil c⟩
  | cons page rest ih =>
    unfold Cache.writeBackAll
    split
    · rename_i hnone
      obtain ⟨hfades, hcleaned⟩ := ih h
      exact ⟨hfades, fun hok => .cons (cleaned_of_none hnone) (hcleaned hok)⟩
    · rename_i p hres
      split
      · rename_i hclean
        obtain ⟨hfades, hcleaned⟩ := ih h
        exact ⟨hfades, fun hok => .cons (cleaned_of_clean hres hclean) (hcleaned hok)⟩
      · obtain ⟨hfades, hcleaned⟩ := h.writeBack hres txn
        rcases hw : c.writeBack txn p with ⟨d, e | _⟩
        · rw [hw] at hfades
          exact ⟨hfades, fun hok => by cases hok⟩
        · rw [hw] at hfades hcleaned
          obtain ⟨hfades', hcleaned'⟩ := ih (h.of_fades hfades)
          exact ⟨hfades.trans hfades', fun hok => .cons (hcleaned rfl) (hcleaned' hok)⟩

/-- Pages that are read again are clean, and those that cannot be read are gone. -/
theorem Placed.reloadAll (h : c.Placed) (pages : List PageId) (first : Option StoreError) :
    c.Cleaned pages (reloadAll pages first c).1 := by
  induction pages generalizing c first with
  | nil => exact .nil c
  | cons page rest ih =>
    unfold Cache.reloadAll
    split
    · rename_i hnone
      exact .cons (cleaned_of_none hnone) (ih h first)
    · rename_i p hres
      split
      · rename_i hclean
        exact .cons (cleaned_of_clean hres hclean) (ih h first)
      · obtain ⟨tables, hsame⟩ := readPage_same c page.table page
        rcases hread : c.readPage page.table page with ⟨d, e | fresh⟩
        · rw [hread] at hsame
          have hcleaned : c.Cleaned [page] (d.discard page) := by
            rw [show d = { c with tables } from hsame]
            exact (cleaned_discard { c with tables } page).of_same rfl fun _ => rfl
          exact .cons hcleaned (ih (h.of_fades hcleaned.fades) _)
        · obtain ⟨hid, hclean⟩ := clean_of_readPage (congrArg Prod.snd hread)
          rw [hread] at hsame
          have hcleaned : c.Cleaned [page] (d.amend fresh) := by
            have hafter : ({ c with tables } : Cache).residentPage page = some p := hres
            rw [show d = { c with tables } from hsame]
            exact (cleaned_amend hafter hid hclean).of_same rfl fun _ => rfl
          exact .cons hcleaned (ih (h.of_fades hcleaned.fades) _)

/-! ## Nothing is left of a transaction -/

/-- `c'` is the cache `c` without the transaction: it holds no lock, waits for none and has
marked no page; what the others hold, wait for and have marked is as it was. -/
structure Rid (txn : TransactionId) (c c' : Cache) : Prop where
  locks : c.locks.Without txn c'.locks
  unmarked : ∀ page p, c'.residentPage page = some p → p.dirty ≠ some txn
  marks : ∀ u, u ≠ txn → ∀ page p, p.dirty = some u →
    (c'.residentPage page = some p ↔ c.residentPage page = some p)

/-- Whoever has looked at all pages that a transaction holds has found all of its marks. -/
theorem Guarded.rid_releaseAll (h : c.Guarded) (hidle : c.locks.pending.get? txn = none)
    (hcleaned : c.Cleaned (c.heldPages txn) c') : c.Rid txn (c'.releaseAll txn) := by
  have htidy := h.reachable.orderly.tidy
  have hlist : ∀ page, page ∈ c.heldPages txn ↔ c.locks.table.heldMode txn page ≠ none :=
    fun page => htidy.mem_heldPages txn page
  constructor
  · have hlocks : (c'.releaseAll txn).locks = c.locks.releaseAll txn := by
      rw [Cache.releaseAll, hcleaned.fades.locks_eq]
    rw [hlocks]
    exact h.reachable.without_releaseAll (Locking.isWaiting_eq_false_iff.2 hidle)
  · intro page p hres hmark
    have hres' : c'.residentPage page = some p := hres
    by_cases hmem : page ∈ c.heldPages txn
    · rw [hcleaned.clean page hmem p hres'] at hmark
      cases hmark
    · rw [hcleaned.same page hmem] at hres'
      apply hmem
      rw [hlist, h.locked page p txn hres' hmark]
      simp
  · intro u hu page p hmark
    change c'.residentPage page = some p ↔ c.residentPage page = some p
    by_cases hmem : page ∈ c.heldPages txn
    · have hholds : c.holds txn page = true := LockTable.holds_iff.2 ((hlist page).1 hmem)
      constructor
      · intro hres
        rw [hcleaned.clean page hmem p hres] at hmark
        cases hmark
      · intro hres
        exact absurd (h.eq_of_mark hres hmark hholds).symm hu
    · rw [hcleaned.same page hmem]

theorem Guarded.commit_ok (h : c.Guarded) (hidle : c.locks.pending.get? txn = none)
    (hok : (c.commit txn).2 = .ok ()) : c.Rid txn (c.commit txn).1 := by
  obtain ⟨-, hcleaned⟩ := Placed.writeBackAll h.placed txn (c.heldPages txn)
  unfold Cache.commit at hok ⊢
  rcases hw : Cache.writeBackAll txn (c.heldPages txn) c with ⟨d, e | _⟩
  · rw [hw] at hok
    cases hok
  · rw [hw] at hcleaned
    exact h.rid_releaseAll hidle (hcleaned rfl)

theorem Guarded.abort (h : c.Guarded) (hidle : c.locks.pending.get? txn = none) :
    c.Rid txn (c.abort txn).1 :=
  h.rid_releaseAll hidle (Placed.reloadAll h.placed (c.heldPages txn) none)

/-- The other transactions are guarded as before. -/
theorem Guarded.of_cleaned (h : c.Guarded) (hidle : c.locks.pending.get? txn = none)
    (hcleaned : c.Cleaned (c.heldPages txn) c') : (c'.releaseAll txn).Guarded := by
  have hrid := h.rid_releaseAll hidle hcleaned
  have hguarded := h.of_fades hcleaned.fades
  have htidy := hguarded.reachable.orderly.tidy
  refine ⟨?_, hguarded.placed, fun page p u hres hmark => ?_⟩
  · refine .step (.releaseAll txn) hguarded.reachable ?_
    rw [hcleaned.fades.locks_eq]
    exact Locking.isWaiting_eq_false_iff.2 hidle
  · have hu : u ≠ txn := by
      rintro rfl
      exact hrid.unmarked page p hres hmark
    change (c'.locks.table.releaseAll txn).heldMode u page = some .readWrite
    rw [LockTable.heldMode_releaseAll htidy, if_neg hu]
    exact hguarded.locked page p u hres hmark

theorem Guarded.of_commit (h : c.Guarded) (hidle : c.locks.pending.get? txn = none) :
    (c.commit txn).1.Guarded := by
  obtain ⟨hfades, hcleaned⟩ := Placed.writeBackAll h.placed txn (c.heldPages txn)
  unfold Cache.commit
  rcases hw : Cache.writeBackAll txn (c.heldPages txn) c with ⟨d, e | _⟩
  · rw [hw] at hfades
    exact h.of_fades hfades
  · rw [hw] at hcleaned
    exact h.of_cleaned hidle (hcleaned rfl)

theorem Guarded.of_abort (h : c.Guarded) (hidle : c.locks.pending.get? txn = none) :
    (c.abort txn).1.Guarded :=
  h.of_cleaned hidle (Placed.reloadAll h.placed (c.heldPages txn) none)

/-! ## Flushes -/

theorem Placed.flush (h : c.Placed) (page : PageId) : c.Fades (c.flush page).1 := by
  unfold Cache.flush
  split
  · exact .refl c
  · rename_i p hres
    split
    · exact .refl c
    · exact (h.writeBack hres _).1

theorem Placed.flushList (h : c.Placed) (pages : List PageId) :
    c.Fades (flushList pages c).1 := by
  induction pages generalizing c with
  | nil => exact .refl c
  | cons page rest ih =>
    have hfades := h.flush page
    unfold Cache.flushList
    rcases hf : c.flush page with ⟨d, e | _⟩
    · rw [hf] at hfades
      exact hfades
    · rw [hf] at hfades
      exact hfades.trans (ih (h.of_fades hfades))

end Cache

end PageCache
