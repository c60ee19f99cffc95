-- What a transaction can do to the locks while it is at work: nobody loses a page that is
-- held for writing, and the requests of the others go on waiting. Each request, each look
-- at a waiting one and each release is said once, with all that follows from its answer.
import PageCache.Proofs.Lock.Runs

namespace PageCache

namespace Locking

variable {s s' s'' : Locking} {txn u : TransactionId} {page p : PageId} {access : Access}
  {r : PendingLock}

/-- A transaction has been at work on locks that are in order: writers keep their pages, and
the requests of the others stay as they are. -/
structure Turn (txn : TransactionId) (s s' : Locking) : Prop where
  orderly : s'.Orderly
  writers : ∀ u page, s.table.heldMode u page = some .readWrite →
    s'.table.heldMode u page = some .readWrite
  others : ∀ u, u ≠ txn → s'.pending.get? u = s.pending.get? u

theorem Turn.refl (h : s.Orderly) : s.Turn txn s := ⟨h, fun _ _ hw => hw, fun _ _ => rfl⟩

theorem Turn.trans (h₁ : s.Turn txn s') (h₂ : s'.Turn txn s'') : s.Turn txn s'' where
  orderly := h₂.orderly
  writers u page hw := h₂.writers u page (h₁.writers u page hw)
  others u hu := (h₂.others u hu).trans (h₁.others u hu)

/-! ## Grants -/

/-- A grant takes nothing away from a writer: it gives what was not covered before. -/
theorem heldMode_grant_of_uncovered (hg : (s.table.lockOf page).canGrant txn access = true)
    (hu : (s.table.heldMode txn page).any (·.covers access) = false) (u : TransactionId)
    (p : PageId) :
    (s.table.grant txn page access).heldMode u p =
      if u = txn ∧ p = page then some access else s.table.heldMode u p := by
  simp only [PageLock.canGrant, Bool.and_eq_true] at hg
  exact LockTable.heldMode_grant hg.1 (PageLock.not_writer_of_uncovered hu) u p

theorem writers_grant (hg : (s.table.lockOf page).canGrant txn access = true)
    (hu : (s.table.heldMode txn page).any (·.covers access) = false)
    (hw : s.table.heldMode u p = some .readWrite) :
    (s.table.grant txn page access).heldMode u p = some .readWrite := by
  rw [heldMode_grant_of_uncovered hg hu]
  split
  · rename_i heq
    rw [heq.1, heq.2] at hw
    rw [hw] at hu
    cases hu
  · exact hw

theorem Orderly.turn_grant_queued (h : s.Orderly) (hp : s.pending.get? txn = some r)
    (hg : (s.table.lockOf r.page).canGrant txn r.access = true) :
    s.Turn txn ⟨s.table.grant txn r.page r.access, s.pending.erase txn⟩ ∧
      (s.table.grant txn r.page r.access).heldMode txn r.page = some r.access := by
  have hu := h.uncovered txn r hp
  refine ⟨⟨h.grant_queued hp hg, fun u p => writers_grant hg hu, fun u hne => ?_⟩, ?_⟩
  · rw [FinMap.get?_erase, if_neg hne]
  · rw [heldMode_grant_of_uncovered hg hu, if_pos ⟨rfl, rfl⟩]

/-! ## Requests -/

/-- What follows from the answer to a request: the access that the transaction has of the
page now, or the request that waits. -/
def Answered (s s' : Locking) (txn : TransactionId) (page : PageId) (access : Access) :
    LockAnswer → Prop
  | .granted => s'.pending.get? txn = none ∧ ∃ m, s'.table.heldMode txn page = some m ∧
      m.covers access = true ∧ (s.table.holds txn page = false → m = access)
  | .refused => s'.pending.get? txn = none
  | .waiting => ∃ entered, s'.pending.get? txn = some ⟨page, access, entered⟩

theorem Orderly.turn_acquire (h : s.Orderly) (hw : s.pending.get? txn = none) (page : PageId)
    (access : Access) :
    s.Turn txn (s.acquire txn page access).1 ∧
      Answered s (s.acquire txn page access).1 txn page access (s.acquire txn page access).2 := by
  have hord : (s.acquire txn page access).1.Orderly := h.acquire hw
  rcases s.acquire_cases txn page access with ⟨hc, he⟩ | ⟨hu, waits, verdict, -, hcase⟩
  · rw [he]
    obtain ⟨m, hm, hcov⟩ := (Option.any_eq_true _ _).1 hc
    refine ⟨Turn.refl h, hw, m, hm, hcov, ?_⟩
    intro hnot
    rw [LockTable.holds, hm] at hnot
    cases hnot
  · rcases hcase with ⟨-, he⟩ | ⟨-, hg, he⟩ | ⟨-, -, he⟩
    · rw [he] at hord ⊢
      exact ⟨⟨hord, fun _ _ hm => hm, fun _ _ => rfl⟩, hw⟩
    · rw [he] at hord ⊢
      have hheld := heldMode_grant_of_uncovered (s := { s with table := { s.table with waits } })
        hg hu
      have hwriters := fun u p => @writers_grant { s with table := { s.table with waits } }
        txn u page p access hg hu
      refine ⟨⟨hord, hwriters, fun _ _ => rfl⟩, hw, access, ?_, access.covers_self, fun _ => rfl⟩
      exact (hheld txn page).trans (if_pos ⟨rfl, rfl⟩)
    · rw [he] at hord ⊢
      refine ⟨⟨hord, fun u p hm => ?_, fun u hne => ?_⟩, decide (verdict = .added), ?_⟩
      · exact (LockTable.heldMode_store (fun _ => PageLock.heldBy_enqueue) u p).trans hm
      · simp only [FinMap.get?_insert, if_neg hne]
      · simp only [FinMap.get?_insert, if_true]

/-- A waiting request that is looked at again is granted, or goes on waiting. -/
theorem Orderly.turn_recheck (h : s.Orderly) (txn : TransactionId) :
    s.Turn txn (s.recheck txn).1 ∧
      match (s.recheck txn).2 with
      | some r => s.pending.get? txn = some r ∧ (s.recheck txn).1.pending.get? txn = none ∧
          (s.recheck txn).1.table.heldMode txn r.page = some r.access
      | none => (s.recheck txn).1.pending.get? txn = s.pending.get? txn := by
  have hord := h.recheck txn
  rcases s.recheck_cases txn with ⟨-, he⟩ | ⟨r, hp, ⟨hg, he⟩ | ⟨-, he⟩⟩
  · rw [he]
    exact ⟨Turn.refl h, rfl⟩
  · rw [he]
    obtain ⟨hturn, hheld⟩ := h.turn_grant_queued hp hg
    exact ⟨hturn, hp, by rw [FinMap.get?_erase, if_pos rfl], hheld⟩
  · rw [he] at hord ⊢
    refine ⟨⟨hord, fun u q hm => ?_, fun _ _ => rfl⟩, rfl⟩
    simp only [LockTable.heldMode, h.lockOf_recheck hp]
    exact hm

/-- A request whose time is over is granted in the last moment, or nobody waits for it any
more. -/
theorem Orderly.turn_expire (h : s.Orderly) (hp : s.pending.get? txn = some r) :
    s.Turn txn (s.expire txn).1 ∧ (s.expire txn).1.pending.get? txn = none ∧
      ∃ granted, (s.expire txn).2 = some (r, granted) ∧
        (granted = true → (s.expire txn).1.table.heldMode txn r.page = some r.access) := by
  have hord := h.expire txn
  rcases s.expire_cases txn with ⟨hnone, -⟩ | ⟨q, hq, ⟨hg, he⟩ | ⟨-, he⟩⟩
  · rw [hp] at hnone
    cases hnone
  · rw [hp, Option.some.injEq] at hq
    subst hq
    rw [he]
    obtain ⟨hturn, hheld⟩ := h.turn_grant_queued hp hg
    exact ⟨hturn, by rw [FinMap.get?_erase, if_pos rfl], true, rfl, fun _ => hheld⟩
  · rw [hp, Option.some.injEq] at hq
    subst hq
    rw [he] at hord ⊢
    refine ⟨⟨hord, fun u q hm => ?_, fun u hne => ?_⟩, ?_, false, rfl, fun hf => by cases hf⟩
    · exact (LockTable.heldMode_store (fun _ => PageLock.heldBy_dequeue) u q).trans hm
    · simp only [FinMap.get?_erase, if_neg hne]
    · simp only [FinMap.get?_erase, if_true]

/-- A page that is not held for writing can be given back. -/
theorem Orderly.turn_release (h : s.Orderly)
    (hnot : s.table.heldMode txn page ≠ some .readWrite) : s.Turn txn (s.release txn page) where
  orderly := h.release txn page
  writers u p hm := by
    rw [Locking.release, LockTable.heldMode_release h.tidy]
    split
    · rename_i heq
      rw [heq.1, heq.2] at hm
      exact absurd hm hnot
    · exact hm
  others _ _ := rfl

end Locking

end PageCache
