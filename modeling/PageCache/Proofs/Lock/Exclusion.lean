-- Writers are alone. However requests, waits, time-outs and releases follow each other, also
-- where a transaction releases pages while a request of it waits, a page has either readers or
-- one writer. Every set of readers and every writer is possible.
import PageCache.Proofs.Lock.Detection
import PageCache.Proofs.Lock.Effects

namespace PageCache

/-! ## Readers -/

namespace PageLock

variable {l : PageLock} {txn : TransactionId} {access : Access}

@[simp] theorem readers_enqueue : (l.enqueue txn access).readers = l.readers := by
  unfold enqueue
  split <;> rfl

theorem nodup_readers_grant (h : l.readers.Nodup) : (l.grant txn access).readers.Nodup := by
  cases access with
  | readOnly =>
    by_cases hmem : txn ∈ l.readers
    · simpa [grant, dequeue, hmem] using h
    · have hnew : ∀ r ∈ l.readers, r ≠ txn := fun r hr heq => hmem (heq ▸ hr)
      simpa [grant, dequeue, hmem, List.nodup_append] using ⟨h, hnew⟩
  | readWrite => exact h.filter _

theorem nodup_readers_release (h : l.readers.Nodup) : (l.release txn).1.readers.Nodup := by
  unfold release
  split
  · exact h
  · split
    · exact h.filter _
    · exact h

end PageLock

namespace Locking

variable {s s' : Locking} {txn : TransactionId} {page : PageId} {access : Access}
  {a : LockAction} {told : Option LockEvent}

theorem LockEffect.nodup_readers (e : s.LockEffect a s' told)
    (h : ∀ p, (s.table.lockOf p).readers.Nodup) : ∀ p, (s'.table.lockOf p).readers.Nodup := by
  intro p
  cases e with
  | same locks _ => exact locks p ▸ h p
  | covered _ locks _ => exact locks p ▸ h p
  | queued _ _ locks _ =>
    rw [locks p]
    split
    · rw [PageLock.readers_enqueue]
      exact h _
    · exact h p
  | granted _ _ _ locks _ =>
    rw [locks p]
    split
    · exact PageLock.nodup_readers_grant (h _)
    · exact h p
  | abandoned _ _ locks _ =>
    rw [locks p]
    split
    · exact h _
    · exact h p
  | released _ _ locks _ =>
    rw [locks p]
    split
    · exact PageLock.nodup_readers_release (h p)
    · exact h p

theorem FreelyReachable.nodup_readers (h : s.FreelyReachable) (page : PageId) :
    (s.table.lockOf page).readers.Nodup := by
  induction h generalizing page with
  | empty => exact List.nodup_nil
  | step a hs ha ih => exact (hs.orderly.effect ha).nodup_readers ih page

/-! ## Every holding is possible -/

theorem Reachable.perform_acquire (h : s.Reachable) (txn : TransactionId) (page : PageId)
    (access : Access) (hw : s.pending.get? txn = none)
    (hu : (s.table.heldMode txn page).any (·.covers access) = false)
    (hg : (s.table.lockOf page).canGrant txn access = true) :
    (s.perform (.acquire txn page access)).Reachable ∧
      (s.perform (.acquire txn page access)).pending = s.pending ∧
      (s.perform (.acquire txn page access)).table.lockOf page =
        (s.table.lockOf page).grant txn access := by
  refine ⟨.step _ h (isWaiting_eq_false_iff.2 hw), ?_⟩
  have hgranted := h.traced.granted_of_canGrant h.isStrengthening hw hu hg
  rcases s.acquire_cases txn page access with ⟨hc, -⟩ | ⟨-, waits, verdict, -, hcase⟩
  · rw [hu] at hc
    cases hc
  · rcases hcase with ⟨-, he⟩ | ⟨-, -, he⟩ | ⟨-, -, he⟩
    · rw [he] at hgranted
      cases hgranted
    · rw [perform, he]
      refine ⟨rfl, ?_⟩
      rw [LockTable.lockOf_grant, if_pos rfl]
      rfl
    · rw [he] at hgranted
      cases hgranted

/-- Transactions read a page, one after the other. -/
def readBy (page : PageId) (readers : List TransactionId) : Locking :=
  empty.run (readers.map fun txn => .acquire txn page .readOnly)

theorem lockOf_readBy (page : PageId) {readers : List TransactionId} (hnd : readers.Nodup) :
    (readBy page readers).Reachable ∧ (readBy page readers).pending = .empty ∧
      (readBy page readers).table.lockOf page = ⟨readers, none, []⟩ := by
  induction readers using List.reverseRecOn with
  | nil => exact ⟨.empty, rfl, rfl⟩
  | append_singleton readers txn ih =>
    rw [List.nodup_append] at hnd
    obtain ⟨hreach, hpending, hlock⟩ := ih hnd.1
    have hnew : txn ∉ readers := fun hm => hnd.2.2 txn hm txn (by simp) rfl
    have hstep : readBy page (readers ++ [txn]) =
        (readBy page readers).perform (.acquire txn page .readOnly) := by
      rw [readBy, List.map_append, List.map_singleton, run_append]
      rfl
    rw [hstep]
    obtain ⟨hreach', hpending', hlock'⟩ := hreach.perform_acquire txn page .readOnly
      (by rw [hpending]; rfl)
      (by rw [LockTable.heldMode, hlock]; simp [PageLock.heldBy, hnew])
      (by rw [hlock]; simp [PageLock.canGrant, PageLock.holdersAllow, PageLock.ahead])
    refine ⟨hreach', hpending'.trans hpending, ?_⟩
    rw [hlock', hlock]
    simp [PageLock.grant, PageLock.dequeue, hnew]

theorem exists_read_by (page : PageId) (readers : List TransactionId) (hnd : readers.Nodup) :
    ∃ s : Locking, s.FreelyReachable ∧ s.table.lockOf page = ⟨readers, none, []⟩ := by
  obtain ⟨hreach, -, hlock⟩ := lockOf_readBy page hnd
  exact ⟨_, hreach.freely, hlock⟩

theorem exists_written_by (page : PageId) (w : TransactionId) :
    ∃ s : Locking, s.FreelyReachable ∧ s.table.lockOf page = ⟨[], some w, []⟩ := by
  obtain ⟨hreach, -, hlock⟩ := Reachable.empty.perform_acquire w page .readWrite rfl rfl rfl
  exact ⟨_, hreach.freely, hlock⟩

/-! ## The law -/

/-- In every state that a run can reach, a page has readers and no writer, or one writer and no
reader, who is the only one that holds it. One release takes away all that a transaction holds
of a page, and nothing else. Any transactions can come to read a page together, and any one to
write it. -/
theorem mutual_exclusion (h : s.FreelyReachable) :
    (∀ page, (s.table.lockOf page).readers.Nodup ∧
      ((s.table.lockOf page).writer = none ∨
        (∃ w, (s.table.lockOf page).writer = some w) ∧ (s.table.lockOf page).readers = [])) ∧
    (∀ page t u, s.table.heldMode t page = some .readWrite → s.table.holds u page = true → u = t) ∧
    (∀ txn page u p, (s.release txn page).table.heldMode u p =
      if u = txn ∧ p = page then none else s.table.heldMode u p) ∧
    (∀ page (readers : List TransactionId), readers.Nodup →
      ∃ s' : Locking, s'.FreelyReachable ∧ s'.table.lockOf page = ⟨readers, none, []⟩) ∧
    ∀ page w, ∃ s' : Locking, s'.FreelyReachable ∧ s'.table.lockOf page = ⟨[], some w, []⟩ := by
  have htidy := h.orderly.tidy
  refine ⟨fun page => ⟨h.nodup_readers page, ?_⟩, ?_, ?_, exists_read_by, exists_written_by⟩
  · rcases hw : (s.table.lockOf page).writer with _ | w
    · exact Or.inl rfl
    · exact Or.inr ⟨⟨w, rfl⟩, htidy.exclusive page w hw⟩
  · intro page t u ht hu
    exact PageLock.eq_of_heldBy_readWrite (htidy.exclusive page) ht (LockTable.holds_iff.1 hu)
  · intro txn page u p
    exact LockTable.heldMode_release htidy u p

/-- Two transactions read a page, and the first waits to write it. Before it may, both of them
release, the first one too. -/
def lateUpgrade : Locking :=
  upgrading.run [.release ⟨1⟩ ⟨⟨1⟩, 0⟩, .release ⟨2⟩ ⟨⟨1⟩, 0⟩, .recheck ⟨1⟩]

theorem lateUpgrade_reachable : lateUpgrade.FreelyReachable :=
  upgrading_reachable.freely.run (by decide)

/-- The first is the writer then, alone, and one release takes that away. -/
theorem mutual_exclusion_after_late_upgrade :
    lateUpgrade.table.heldMode ⟨1⟩ ⟨⟨1⟩, 0⟩ = some .readWrite ∧
      (∀ u, lateUpgrade.table.holds u ⟨⟨1⟩, 0⟩ = true → u = ⟨1⟩) ∧
      (lateUpgrade.release ⟨1⟩ ⟨⟨1⟩, 0⟩).table.heldMode ⟨1⟩ ⟨⟨1⟩, 0⟩ = none := by
  obtain ⟨-, halone, hrelease, -, -⟩ := mutual_exclusion lateUpgrade_reachable
  have hwrites : lateUpgrade.table.heldMode ⟨1⟩ ⟨⟨1⟩, 0⟩ = some .readWrite := by decide
  refine ⟨hwrites, fun u => halone _ _ u hwrites, ?_⟩
  rw [hrelease, if_pos ⟨rfl, rfl⟩]

end Locking

end PageCache
