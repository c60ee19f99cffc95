-- Runs in which a transaction may also end while a call of its own still waits, and may give locks
-- back meanwhile. The call then goes on as that of a transaction which has done nothing yet, and
-- all that holds of the pages and of the locks holds after such steps, too.
import PageCache.Proofs.Session.Releases

namespace PageCache

/-- A call that the action starts changes pages by insertions of whole records and by deletions
only. -/
def Action.IsPlain : Action → Prop
  | .submit _ _ op => op.IsPlain
  | _ => True

instance (a : Action) : Decidable a.IsPlain :=
  match a with
  | .submit _ _ op => inferInstanceAs (Decidable op.IsPlain)
  | .addTable _ | .allocate _ | .resume _ | .expire _ | .commit _ | .abort _ | .evict | .unpin _ |
    .openIterator .. | .rewindIterator _ => instDecidableTrue

namespace Session

/-- A step of users who keep the locks on pages that they have changed, change files through the
session only, and end their transactions at any time. -/
def Allows (s : Session) : Step → Prop
  | .act a => (∀ file ∈ s.cache.tables.values, file.HasRoom) ∧ a.IsPlain
  | .flush _ | .flushAll | .discard _ => True
  | .release txn page => (s.cache.residentPage page).bind HeapPage.dirty ≠ some txn
  | .overwrite _ => False

instance (s : Session) : (st : Step) → Decidable (s.Allows st)
  | .act a => inferInstanceAs (Decidable (_ ∧ a.IsPlain))
  | .flush _ | .flushAll | .discard _ => instDecidableTrue
  | .release txn page =>
    inferInstanceAs (Decidable ((s.cache.residentPage page).bind HeapPage.dirty ≠ some txn))
  | .overwrite _ => instDecidableFalse

/-- Every step of a run is of that kind where it is taken. -/
def AllowsAll (s : Session) (steps : List Step) : Prop := Along step Allows s steps

instance (s : Session) (steps : List Step) : Decidable (s.AllowsAll steps) :=
  inferInstanceAs (Decidable (Along step Allows s steps))

variable {s : Session} {st : Step} {steps : List Step} {a : Action}

theorem after_append (s : Session) (before rest : List Step) :
    s.after (before ++ rest) = (s.after before).after rest := List.foldl_append

/-- A part of a run is of that kind if the whole run is. -/
theorem allowsAll_append {before rest : List Step} :
    s.AllowsAll (before ++ rest) ↔ s.AllowsAll before ∧ (s.after before).AllowsAll rest :=
  Along.append_iff

/-- The runs before are of that kind, too. -/
theorem Respects.allows (h : s.Respects st) : s.Allows st := by
  cases st with
  | act a =>
    obtain ⟨hroom, ha⟩ := h
    refine ⟨hroom, ?_⟩
    cases a <;> first | exact ha | exact trivial
  | release txn page => exact h.2
  | overwrite file => exact h.elim
  | _ => exact trivial

theorem Coherent.perform_allowed (h : s.Coherent) (ha : s.Allows (.act a)) :
    (s.perform a).1.Coherent ∧ Effect s a (s.perform a).2 (s.perform a).1 := by
  obtain ⟨hroom, hplain⟩ := ha
  cases a with
  | commit txn => exact h.commit txn
  | abort txn => exact h.abort txn
  | submit txn name op => exact h.perform ⟨hroom, hplain⟩
  | _ => exact h.perform ⟨hroom, trivial⟩

theorem Coherent.allowed (h : s.Coherent) (hst : s.Allows st) : (s.step st).Coherent := by
  cases st with
  | act a => exact (h.perform_allowed hst).1
  | release txn page =>
    exact h.of_same_calls (h.sound.release h.orderly hst) (h.orderly.release txn page) rfl
      fun _ => rfl
  | overwrite file => exact hst.elim
  | _ => exact h.step trivial

theorem Coherent.after_allowed (h : s.Coherent) (hsteps : s.AllowsAll steps) :
    (s.after steps).Coherent := hsteps.induction h fun _ _ h => h.allowed

end Session

end PageCache
