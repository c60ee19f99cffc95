-- What a step leaves to the transactions that do not take it. Their calls and their requests go on
-- waiting, they keep the pages that they hold and get no others, and what they see on those pages
-- is what they saw before.
import PageCache.Proofs.Session.EarlyEnds
import PageCache.Proofs.Session.Linked

namespace PageCache

namespace Cache

variable {c : Cache} {txn : TransactionId}

/-- A page is written as it is seen. -/
theorem Sound.spares_flush (h : c.Sound) (page : PageId) : c.Spares txn (c.flush page).1 := by
  unfold Cache.flush
  split
  · exact .refl txn c
  · rename_i p hres
    split
    · exact .refl txn c
    · rename_i u hmark
      have hgrown := c.pageCount_le_writeBack u p
      rcases h.writeBack_cases hres (by simp [hmark]) u with ⟨c', e, he, hsaved, -⟩ |
        ⟨c', he, hsaved⟩ <;> rw [he] at hgrown ⊢
      · exact hsaved.spares hgrown
      · exact hsaved.spares hgrown

theorem Sound.spares_flushList (h : c.Sound) (pages : List PageId) :
    c.Spares txn (Cache.flushList pages c).1 := by
  induction pages generalizing c with
  | nil => exact .refl txn c
  | cons page rest ih =>
    have hfirst : c.Spares txn (c.flush page).1 := h.spares_flush page
    have hsound := (h.flush page).1
    unfold Cache.flushList
    rcases he : c.flush page with ⟨c', e | _⟩ <;> rw [he] at hfirst hsound
    · exact hfirst
    · exact hfirst.trans (ih hsound)

end Cache

namespace Session

variable {s s' : Session} {txn u : TransactionId} {a : Action} {st : Step}

/-! ## Steps of users -/

/-- A step of others has spared the transaction: its call is as it was, and while it waits it is
granted nothing. -/
structure Spares (txn : TransactionId) (s s' : Session) : Prop where
  call : s'.calls.get? txn = s.calls.get? txn
  cache : s.cache.Spares txn s'.cache
  idle : s.calls.get? txn ≠ none → ∀ page, s'.cache.holds txn page = true →
    s.cache.holds txn page = true

/-- Another cache with the same locks has come into its place. -/
theorem Spares.of_cache {c : Cache} (h : s.cache.Spares txn c) (hlocks : c.locks = s.cache.locks) :
    s.Spares txn { s with cache := c } := by
  refine ⟨rfl, h, fun _ page hholds => ?_⟩
  rw [Cache.holds, ← hlocks]
  exact hholds

/-- Steps after which users end their transactions at any time, and give locks back. -/
theorem Coherent.spares_perform (h : s.Coherent) (ha : s.Allows (.act a))
    (hne : a.actor ≠ some txn) : s.Spares txn (s.perform a).1 := by
  have hby := (h.linked.perform a).others txn hne
  have hkept : ∀ page, s.cache.holds txn page = true →
      (s.perform a).1.cache.holds txn page = true := fun page hholds => by
    rw [hby.holds_eq, hholds]
  refine ⟨hby.call, ?_, fun _ page hholds => by rw [← hby.holds_eq, hholds]⟩
  obtain ⟨-, heffect⟩ := h.perform_allowed ha
  cases a with
  | submit u name op =>
    obtain ⟨answer, -, ⟨-, hsame⟩ | ⟨-, hstep⟩⟩ := heffect
    · rw [hsame]
      exact .refl txn s.cache
    · exact hstep.did.spares hkept fun heq => absurd (congrArg some heq) hne
  | resume u | expire u =>
    obtain ⟨answer, -, ⟨-, -, hsame⟩ | ⟨call, -, hstep⟩⟩ := heffect
    · rw [hsame]
      exact .refl txn s.cache
    · exact hstep.did.spares hkept fun heq => absurd (congrArg some heq) hne
  | addTable file =>
    rcases heffect with ⟨-, hnew, hsame⟩ | ⟨e, -, hsame⟩ <;> rw [hsame]
    · exact h.sound.spares_addTable hnew
    · exact .refl txn s.cache
  | commit u =>
    have hu : u ≠ txn := fun heq => hne (congrArg some heq)
    have hgrown := s.cache.pageCount_le_commit u
    obtain ⟨-, ⟨-, hended⟩ | ⟨e, written, refused, rest, -, -, hsaved, -⟩⟩ := heffect
    · exact hended.spares_commit h.orderly hu hgrown
    · exact hsaved.spares hgrown
  | abort u =>
    have hu : u ≠ txn := fun heq => hne (congrArg some heq)
    refine heffect.2.2.spares_abort h.sound h.orderly hu fun id => ?_
    simp only [Session.perform, Cache.pageCount_abort h.sound u id]
    exact UInt32.le_refl _
  | allocate _ | evict | unpin _ | openIterator _ _ _ | rewindIterator _ =>
    exact heffect.1.spares hkept

/-! ## All steps -/

/-- The same of all steps. A page that is dropped with its changes is seen differently by the one
that has changed it, so that is said of pages held for reading only. -/
structure StandsBy (txn : TransactionId) (s s' : Session) : Prop where
  call : s'.calls.get? txn = s.calls.get? txn
  holds_eq : s.calls.get? txn ≠ none → ∀ page,
    s'.cache.holds txn page = s.cache.holds txn page
  seen : ∀ page p, s.cache.locks.table.heldMode txn page = some .readOnly →
    s.cache.view page = some p → ∃ q, s'.cache.view page = some q ∧ q.bare = p.bare
  grown : ∀ id, s.cache.pageCount id ≤ s'.cache.pageCount id

theorem Spares.standsBy (h : s.Spares txn s') : s.StandsBy txn s' where
  call := h.call
  holds_eq hwaits page := by
    rw [Bool.eq_iff_iff]
    exact ⟨h.idle hwaits page, h.cache.kept page⟩
  seen page p hmode hview := by
    refine h.cache.seen page p (LockTable.holds_iff.2 ?_) hview
    rw [hmode]
    simp
  grown := h.cache.grown

theorem Coherent.standsBy_discard (h : s.Coherent) (page : PageId) :
    s.StandsBy txn (s.step (.discard page)) := by
  obtain ⟨htables, hlocks⟩ := Cache.discard_same s.cache page
  refine ⟨rfl, fun _ other => ?_, fun other p hmode hview => ⟨p, ?_, rfl⟩, fun id => ?_⟩
  · simp only [Session.step, Cache.holds, hlocks]
  · simp only [Session.step]
    rw [Cache.view_discard]
    split
    · apply h.sound.eq_onDisk hview
      rcases hdirty : p.dirty with _ | u
      · rfl
      · -- whoever has changed the page holds it alone, and for writing
        have hwriter := h.sound.locked other p u hview hdirty
        obtain rfl : txn = u := PageLock.eq_of_heldBy_readWrite (h.orderly.tidy.exclusive other)
          hwriter (by
            rw [show (s.cache.locks.table.lockOf other).heldBy txn = some .readOnly from hmode]
            simp)
        rw [hmode] at hwriter
        cases hwriter
    · exact hview
  · simp only [Session.step, Cache.pageCount, htables]
    exact UInt32.le_refl _

theorem Coherent.standsBy (h : s.Coherent) (hst : s.Allows st) (hne : st.actor ≠ some txn) :
    s.StandsBy txn (s.step st) := by
  cases st with
  | act a => exact (h.spares_perform hst hne).standsBy
  | flush page =>
    exact (Spares.of_cache (h.sound.spares_flush page) (h.sound.flush page).2).standsBy
  | flushAll =>
    exact (Spares.of_cache (h.sound.spares_flushList _) (h.sound.flushList _).2).standsBy
  | discard page => exact h.standsBy_discard page
  | release u page =>
    have hu : txn ≠ u := fun heq => hne (congrArg some heq.symm)
    refine ⟨rfl, fun _ other => ?_, fun _ p _ hview => ⟨p, hview, rfl⟩, fun _ => UInt32.le_refl _⟩
    have hmode := Cache.heldMode_release h.orderly u page txn other
    rw [if_neg fun heq => hu heq.1] at hmode
    exact congrArg Option.isSome hmode
  | overwrite file => exact hst.elim

/-- No step makes a table shorter. -/
theorem Coherent.pageCount_le_step (h : s.Coherent) (hst : s.Allows st) (id : TableId) :
    s.cache.pageCount id ≤ (s.step st).cache.pageCount id := by
  -- whatever a step leaves to those that do not take it, it leaves to everybody
  by_cases hactor : st.actor = some ⟨0⟩
  · have hne : st.actor ≠ some ⟨1⟩ := by rw [hactor]; decide
    exact (h.standsBy hst hne).grown id
  · exact (h.standsBy hst hactor).grown id

end Session

end PageCache
