-- Runs in which transactions also give single locks back before they end, on pages that they have
-- not changed. What holds of the locks and the pages in all other runs holds in these, too.
import PageCache.Proofs.Session.Residue

namespace PageCache

namespace Session

/-- A step of users who keep the locks on pages that they have changed, and who change files
through the session only. -/
def Respects (s : Session) : Step → Prop
  | .act a => s.Admits a
  | .flush _ | .flushAll | .discard _ => True
  | .release txn page =>
    s.isBusy txn = false ∧ (s.cache.residentPage page).bind HeapPage.dirty ≠ some txn
  | .overwrite _ => False

instance (s : Session) : (st : Step) → Decidable (s.Respects st)
  | .act a => inferInstanceAs (Decidable (s.Admits a))
  | .flush _ | .flushAll | .discard _ => instDecidableTrue
  | .release txn page => inferInstanceAs (Decidable (s.isBusy txn = false ∧
      (s.cache.residentPage page).bind HeapPage.dirty ≠ some txn))
  | .overwrite _ => instDecidableFalse

/-- Every step of a run is of that kind where it is taken. -/
def RespectsAll (s : Session) (steps : List Step) : Prop := Along step Respects s steps

instance (s : Session) (steps : List Step) : Decidable (s.RespectsAll steps) :=
  inferInstanceAs (Decidable (Along step Respects s steps))

end Session

namespace Cache

variable {c : Cache} {txn u : TransactionId} {page other : PageId}

/-- Only the transaction's own lock on the one page is gone. -/
theorem heldMode_release (ho : c.locks.Orderly) (txn : TransactionId) (page : PageId)
    (u : TransactionId) (other : PageId) : (c.release txn page).locks.table.heldMode u other =
      if u = txn ∧ other = page then none else c.locks.table.heldMode u other :=
  LockTable.heldMode_release ho.tidy u other

/-- Whoever has not changed a page does not write on it alone for others to see. -/
theorem ne_of_unmarked {p : HeapPage}
    (hclean : (c.residentPage page).bind HeapPage.dirty ≠ some txn)
    (hres : c.residentPage other = some p) (hmark : p.dirty = some u) :
    ¬ (u = txn ∧ other = page) := by
  rintro ⟨rfl, rfl⟩
  rw [hres, Option.bind_some] at hclean
  exact hclean hmark

theorem Sound.release (h : c.Sound) (ho : c.locks.Orderly)
    (hclean : (c.residentPage page).bind HeapPage.dirty ≠ some txn) :
    (c.release txn page).Sound where
  keyed := h.keyed
  reached := h.reached
  lies_over := h.lies_over
  locked other p u hview hmark := by
    have hres : c.residentPage other = some p := resident_of_dirty hview (by rw [hmark]; simp)
    rw [heldMode_release ho, if_neg (ne_of_unmarked hclean hres hmark)]
    exact h.locked other p u hview hmark

theorem Guarded.release (h : c.Guarded) (hidle : c.locks.pending.get? txn = none)
    (hclean : (c.residentPage page).bind HeapPage.dirty ≠ some txn) :
    (c.release txn page).Guarded where
  reachable := .step (.release txn page) h.reachable (Locking.isWaiting_eq_false_iff.2 hidle)
  placed := h.placed
  locked other p u hres hmark := by
    rw [heldMode_release h.reachable.orderly, if_neg (ne_of_unmarked hclean hres hmark)]
    exact h.locked other p u hres hmark

end Cache

namespace Session

variable {s : Session} {st : Step} {steps : List Step}

/-- Apart from the locks that are given back, the steps are those of the runs before. -/
theorem Respects.cases (h : s.Respects st) : (s.Permits st ∧ s.Tolerates st) ∨
    ∃ txn page, st = .release txn page ∧ s.isBusy txn = false ∧
      (s.cache.residentPage page).bind HeapPage.dirty ≠ some txn := by
  cases st with
  | act a => exact Or.inl ⟨h, tolerates_of_admits h⟩
  | release txn page => exact Or.inr ⟨txn, page, rfl, h⟩
  | overwrite file => exact h.elim
  | _ => exact Or.inl ⟨trivial, trivial⟩

theorem Coherent.respected (h : s.Coherent) (hst : s.Respects st) : (s.step st).Coherent := by
  rcases hst.cases with ⟨hpermits, -⟩ | ⟨txn, page, rfl, -, hclean⟩
  · exact h.step hpermits
  · exact h.of_same_calls (h.sound.release h.orderly hclean) (h.orderly.release txn page) rfl
      fun _ => rfl

theorem Steady.respected (h : s.Steady) (hst : s.Respects st) : (s.step st).Steady := by
  rcases hst.cases with ⟨-, htolerates⟩ | ⟨txn, page, rfl, hfree, hclean⟩
  · exact h.step htolerates
  · exact h.of_same_calls (h.guarded.release (h.idle hfree) hclean) rfl rfl

end Session

end PageCache
