-- Runs in which pages are also written back, dropped and let go at any time. Whatever order
-- that comes in, a page that is marked as changed is locked for writing by the transaction that
-- changed it, a page without a mark is the one of its file, and the snapshot of each resident
-- page has the bytes that the file has.
import PageCache.Proofs.Session.Ledger

namespace PageCache

/-- What can happen to a session in one step, also past its transactions. -/
inductive Step where
  | act (a : Action)
  /-- Writes a page back, if it is resident and changed. -/
  | flush (page : PageId)
  /-- Writes all such pages back. -/
  | flushAll
  /-- Drops a page without writing it. -/
  | discard (page : PageId)
  /-- Takes a transaction's lock on one page away. -/
  | release (txn : TransactionId) (page : PageId)
  /-- The file of a table is changed by others. -/
  | overwrite (file : TableFile)

namespace Session

variable {s : Session}

/-- The session after a step. -/
def step (s : Session) : Step → Session
  | .act a => (s.perform a).1
  | .flush page => { s with cache := (s.cache.flush page).1 }
  | .flushAll => { s with cache := s.cache.flushAll.1 }
  | .discard page => { s with cache := s.cache.discard page }
  | .release txn page => { s with cache := s.cache.release txn page }
  | .overwrite file => { s with cache := s.cache.setTable file }

/-- The session after some steps, one after the other. -/
def after (s : Session) (steps : List Step) : Session := steps.foldl step s

/-- A step by which locks are kept to the end of their transaction, and files are changed by
the session only. -/
def Permits (s : Session) : Step → Prop
  | .act a => s.Admits a
  | .flush _ | .flushAll | .discard _ => True
  | .release .. | .overwrite _ => False

instance (s : Session) : (st : Step) → Decidable (s.Permits st)
  | .act a => inferInstanceAs (Decidable (s.Admits a))
  | .flush _ | .flushAll | .discard _ => instDecidableTrue
  | .release .. | .overwrite _ => instDecidableFalse

/-- Every step of a run is permitted where it is taken. -/
def PermitsAll (s : Session) (steps : List Step) : Prop := Along step Permits s steps

instance (s : Session) (steps : List Step) : Decidable (s.PermitsAll steps) :=
  inferInstanceAs (Decidable (Along step Permits s steps))

end Session

namespace Cache

variable {c c' : Cache} {page : PageId} {p q : HeapPage}

/-! ## Pages written back and dropped -/

theorem Sound.flush (h : c.Sound) (page : PageId) :
    (c.flush page).1.Sound ∧ (c.flush page).1.locks = c.locks := by
  unfold Cache.flush
  split
  · exact ⟨h, rfl⟩
  · rename_i p hres
    split
    · exact ⟨h, rfl⟩
    · rename_i txn hmark
      rcases h.writeBack_cases hres (by simp [hmark]) txn with ⟨c', e, he, hsaved, -⟩ |
        ⟨c', he, hsaved⟩
      · rw [he]
        exact ⟨hsaved.sound, hsaved.locks_eq⟩
      · rw [he]
        exact ⟨hsaved.sound, hsaved.locks_eq⟩

theorem Sound.flushList (h : c.Sound) (pages : List PageId) :
    (flushList pages c).1.Sound ∧ (flushList pages c).1.locks = c.locks := by
  induction pages generalizing c with
  | nil => exact ⟨h, rfl⟩
  | cons page rest ih =>
    have hfirst := h.flush page
    unfold Cache.flushList
    rcases he : c.flush page with ⟨c', e | _⟩
    · rw [he] at hfirst
      exact hfirst
    · rw [he] at hfirst
      obtain ⟨hsound, hlocks⟩ := ih hfirst.1
      exact ⟨hsound, hlocks.trans hfirst.2⟩

/-- A page that is dropped is seen as it stands in its file. -/
theorem view_discard (c : Cache) (page other : PageId) :
    (c.discard page).view other = if other = page then c.onDisk other else c.view other := by
  rw [view, residentPage_discard, onDisk, (discard_same c page).1]
  split <;> rfl

theorem Sound.discard (h : c.Sound) (page : PageId) : (c.discard page).Sound := by
  obtain ⟨htables, hlocks⟩ := discard_same c page
  have hgrows : c.Grows (c.discard page) := .of_eq htables
  refine ⟨⟨?_, ?_, ?_⟩, ?_⟩
  · exact hgrows.keyed h.keyed
  · intro other r hr
    rw [residentPage_discard] at hr
    split at hr
    · cases hr
    · exact hgrows.reaches (h.reached other r hr)
  · intro other r hr
    rw [hgrows.onDisk_eq]
    rw [view_discard] at hr
    split at hr
    · obtain ⟨hproper, -, hclean⟩ := stored_clean hr
      exact ⟨r, hr, hproper, .refl hclean⟩
    · exact h.lies_over other r hr
  · intro other r u hr hmark
    rw [hlocks]
    rw [view_discard] at hr
    split at hr
    · rw [(stored_clean hr).2.2] at hmark
      cases hmark
    · exact h.locked other r u hr hmark

/-- The file of a resident page can be read, and its bytes are those of the page's snapshot. -/
theorem Sound.read_resident (h : c.Sound) (hres : c.residentPage page = some p) :
    ∃ file disk q, c.tables.get? page.table = some file ∧
      file.disk.read page.number = .ok (disk, p.before) ∧ (file.read page).2 = .ok q ∧
      (p.dirty = none → p = q) := by
  obtain ⟨q, hq, -, hover⟩ := h.lies_over page p (view_of_resident hres)
  obtain ⟨file, hfile, hreach⟩ := h.reached page p hres
  have hstored : file.stored page = some q := by
    rw [onDisk, hfile] at hq
    exact hq
  have hread := TableFile.read_of_stored (h.keyed _ file hfile).symm hstored hreach
  have hbefore : p.before = q.before := by
    have hsame := congrArg HeapPage.before hover.framed
    exact hsame
  obtain ⟨hdisk, -⟩ := TableFile.bytes_of_stored hstored hreach
  rw [← hbefore] at hdisk
  exact ⟨file, _, q, hfile, hdisk, hread, hover.eq_of_clean⟩

end Cache

namespace Session

variable {s : Session} {config : Config} {log : Option WriteLog} {steps : List Step}
  {page : PageId} {p : HeapPage}

/-! ## All steps -/

/-- Whatever is done to its pages, the calls and the locks of a session stay as they are. -/
theorem Coherent.of_upkeep (h : s.Coherent) {c : Cache} (hsound : c.Sound)
    (hlocks : c.locks = s.cache.locks) : Coherent { s with cache := c } :=
  h.of_same_calls hsound (hlocks ▸ h.orderly) rfl fun u => congrArg (·.pending.get? u) hlocks

theorem Coherent.step (h : s.Coherent) {st : Step} (hst : s.Permits st) : (s.step st).Coherent := by
  cases st with
  | act a => exact (h.perform hst).1
  | flush page => exact h.of_upkeep (h.sound.flush page).1 (h.sound.flush page).2
  | flushAll =>
    obtain ⟨hsound, hlocks⟩ := h.sound.flushList s.cache.resident.keys
    exact h.of_upkeep hsound hlocks
  | discard page =>
    exact h.of_upkeep (h.sound.discard page) (Cache.discard_same s.cache page).2
  | release txn page => exact hst.elim
  | overwrite file => exact hst.elim

/-! ## The law -/

/-- After every run, a resident page with a mark is locked for writing by the transaction of the
mark, one without a mark is what reading its file gives, and the snapshot of each has the bytes
that its file has. -/
theorem resident_pages_match_files (hsteps : (new config log).PermitsAll steps)
    (hres : ((new config log).after steps).cache.residentPage page = some p) :
    (∀ txn, p.dirty = some txn →
      ((new config log).after steps).cache.locks.table.heldMode txn page = some .readWrite) ∧
    ∃ file disk q, ((new config log).after steps).cache.tables.get? page.table = some file ∧
      file.disk.read page.number = .ok (disk, p.before) ∧ (file.read page).2 = .ok q ∧
      (p.dirty = none → p = q) := by
  have hsound := (hsteps.induction (coherent_new config log) fun _ _ h => h.step).sound
  exact ⟨fun txn => hsound.locked page p txn (Cache.view_of_resident hres),
    hsound.read_resident hres⟩

/-- A flag is raised, the page is written before the transaction ends, and the flag is taken
away again. -/
def raisedAndFlushed : List Step :=
  [.act (.addTable (flagFile .empty 0 0 0)),
    .act (.submit ⟨1⟩ none (.insert ⟨⟨1⟩, ⟨flags, [.boolean true], none⟩, true⟩)),
    .flush flagPage,
    .act (.submit ⟨1⟩ none (.delete (some ⟨flagPage, 0⟩)))]

theorem resident_pages_match_files_after_flush :
    ((new ⟨1, 1, none⟩ none).after raisedAndFlushed).cache.residentPage flagPage =
        some ⟨flagPage, flags, 2, #[none], List.replicate 7 false, some ⟨1⟩, [1, 1]⟩ ∧
      ((new ⟨1, 1, none⟩ none).after raisedAndFlushed).cache.locks.table.heldMode ⟨1⟩ flagPage =
        some .readWrite ∧
      ∃ file disk q, ((new ⟨1, 1, none⟩ none).after raisedAndFlushed).cache.tables.get? ⟨1⟩ =
          some file ∧
        file.disk.read 0 = .ok (disk, [1, 1]) ∧ (file.read flagPage).2 = .ok q := by
  have hres : ((new ⟨1, 1, none⟩ none).after raisedAndFlushed).cache.residentPage flagPage =
      some ⟨flagPage, flags, 2, #[none], List.replicate 7 false, some ⟨1⟩, [1, 1]⟩ := by
    decide +kernel
  obtain ⟨hlocked, file, disk, q, hfile, hdisk, hread, -⟩ :=
    resident_pages_match_files (by decide +kernel) hres
  exact ⟨hres, hlocked ⟨1⟩ rfl, file, disk, q, hfile, hdisk, hread⟩

end Session

end PageCache
