-- Who holds what, after each operation on the lock of a page and on the lock table. A
-- writer has its page alone; with that, each operation changes the holdings of no
-- transaction but its own.
import PageCache.Lock.LockTable
import PageCache.Proofs.Lookup
import Mathlib.Data.List.TakeWhile

namespace PageCache

/-! ## Accesses -/

namespace Access

theorem covers_self (a : Access) : a.covers a = true := by cases a <;> rfl

theorem covers_trans {a b c : Access} (hab : a.covers b = true) (hbc : b.covers c = true) :
    a.covers c = true := by
  cases a <;> cases b <;> cases c <;> simp_all [covers]

/-- What covers a request beyond an access covers that access too. -/
theorem covers_of_not_covers {a b c : Access} (hab : a.covers b = false) (hac : a.covers c = true) :
    b.covers c = true := by
  cases a <;> cases b <;> cases c <;> simp_all [covers]

theorem compatible_iff (a b : Access) :
    a.compatible b = true ↔ a = .readOnly ∧ b = .readOnly := by
  cases a <;> cases b <;> decide

theorem compatible_comm (a b : Access) : a.compatible b = b.compatible a := by
  cases a <;> cases b <;> rfl

/-- What covers an access excludes all that the access excludes. -/
theorem excludes_of_covers {a b c : Access} (hab : a.covers b = true)
    (hbc : b.compatible c = false) : a.compatible c = false := by
  cases a <;> cases b <;> cases c <;> simp_all [covers, compatible]

end Access

/-! ## The lock of one page -/

namespace PageLock

variable {l : PageLock} {txn u : TransactionId} {access : Access}

/-- Where one transaction writes, nobody reads. -/
def Exclusive (l : PageLock) : Prop := ∀ w, l.writer = some w → l.readers = []

theorem exclusive_free : free.Exclusive := fun _ _ => rfl

theorem heldBy_eq_readWrite_iff : l.heldBy u = some .readWrite ↔ l.writer = some u := by
  unfold heldBy
  split <;> rename_i h
  · simp [h]
  · split <;> simp [h]

/-- A writer is the only one that holds its page. -/
theorem eq_of_heldBy_readWrite (h : l.Exclusive) (hw : l.heldBy txn = some .readWrite)
    (hu : l.heldBy u ≠ none) : u = txn := by
  rw [heldBy_eq_readWrite_iff] at hw
  by_contra hne
  apply hu
  simp [heldBy, hw, h txn hw, Ne.symm hne]

/-- Two transactions hold a page in ways that go together. -/
theorem compatible_of_heldBy (h : l.Exclusive) {a b : Access} (hne : u ≠ txn)
    (ht : l.heldBy txn = some a) (hu : l.heldBy u = some b) : a.compatible b = true := by
  rw [Access.compatible_iff]
  constructor
  · cases a with
    | readOnly => rfl
    | readWrite => exact absurd (eq_of_heldBy_readWrite h ht (by simp [hu])) hne
  · cases b with
    | readOnly => rfl
    | readWrite => exact absurd (eq_of_heldBy_readWrite h hu (by simp [ht])) hne.symm

/-- An idle lock is the free one. -/
theorem eq_free_of_isIdle (h : l.isIdle = true) : l = free := by
  obtain ⟨readers, writer, queue⟩ := l
  simp only [isIdle, isFree, mode, Bool.and_eq_true, List.isEmpty_iff] at h
  obtain ⟨hmode, rfl⟩ := h
  rcases writer with _ | w
  · rcases readers with _ | ⟨r, rest⟩
    · rfl
    · simp at hmode
  · simp at hmode

@[simp] theorem heldBy_free : free.heldBy u = none := rfl

@[simp] theorem heldBy_enqueue : (l.enqueue txn access).heldBy u = l.heldBy u := by
  unfold enqueue
  split <;> rfl

@[simp] theorem heldBy_dequeue : (l.dequeue txn).heldBy u = l.heldBy u := rfl

@[simp] theorem queue_dequeue : (l.dequeue txn).queue = l.queue.filter (·.txn ≠ txn) := rfl

@[simp] theorem queue_release : (l.release txn).1.queue = l.queue := by
  unfold release
  split
  · rfl
  · split <;> rfl

@[simp] theorem queue_grant : (l.grant txn access).queue = l.queue.filter (·.txn ≠ txn) := by
  unfold grant
  cases access
  · simp only
    split <;> rfl
  · rfl

theorem queue_enqueue (h : ∀ r ∈ l.queue, r.txn ≠ txn) :
    (l.enqueue txn access).queue = l.queue ++ [⟨txn, access⟩] := by
  unfold enqueue
  rw [if_neg (by simpa using h)]

theorem mem_queue_enqueue (h : ∀ r ∈ l.queue, r.txn ≠ txn) (r : LockRequest) :
    r ∈ (l.enqueue txn access).queue ↔ r ∈ l.queue ∨ r = ⟨txn, access⟩ := by
  rw [queue_enqueue h, List.mem_append, List.mem_singleton]

theorem nodup_queue_enqueue (h : ∀ r ∈ l.queue, r.txn ≠ txn)
    (hnd : (l.queue.map LockRequest.txn).Nodup) :
    ((l.enqueue txn access).queue.map LockRequest.txn).Nodup := by
  rw [queue_enqueue h, List.map_append, List.nodup_append]
  refine ⟨hnd, by simp, ?_⟩
  intro a ha b hb
  obtain ⟨r, hr, rfl⟩ := List.mem_map.1 ha
  rw [List.map_singleton, List.mem_singleton] at hb
  rw [hb]
  exact h r hr

theorem enqueue_eq_self (h : ∃ r ∈ l.queue, r.txn = txn) : l.enqueue txn access = l := by
  unfold enqueue
  rw [if_pos (by simpa using h)]

/-! ## Places in the queue -/

theorem ahead_eq_queue (h : ∀ r ∈ l.queue, r.txn ≠ txn) : l.ahead txn = l.queue := by
  rw [ahead, List.takeWhile_eq_self_iff]
  simpa using h

theorem txn_ne_of_mem_ahead {r : LockRequest} (h : r ∈ l.ahead u) : r.txn ≠ u := by
  simpa using List.mem_takeWhile_imp h

theorem mem_queue_of_mem_ahead {r : LockRequest} (h : r ∈ l.ahead u) : r ∈ l.queue :=
  (List.takeWhile_sublist _).subset h

theorem ahead_congr {m : PageLock} (h : m.queue = l.queue) : m.ahead u = l.ahead u := by
  rw [ahead, ahead, h]

theorem ahead_grant : (l.grant txn access).ahead u = (l.dequeue txn).ahead u :=
  ahead_congr queue_grant

/-- Who leaves the queue goes from the requests ahead of the others, too. -/
theorem ahead_dequeue (hne : u ≠ txn) :
    (l.dequeue txn).ahead u = (l.ahead u).filter (·.txn ≠ txn) := by
  rw [ahead, ahead, queue_dequeue, List.takeWhile_filter]
  congr 2
  funext r
  by_cases hr : r.txn = txn
  · simp [hr, Ne.symm hne]
  · simp [hr]

/-- Whoever leaves the queue, the other requests stay ahead of those that they were ahead of. -/
theorem mem_ahead_dequeue {r : LockRequest} (h : r ∈ l.ahead u) (hr : r.txn ≠ txn) :
    r ∈ (l.dequeue txn).ahead u := by
  by_cases hu : u = txn
  · subst hu
    rw [ahead_eq_queue (by simp), queue_dequeue]
    simpa [hr] using mem_queue_of_mem_ahead h
  · rw [ahead_dequeue hu]
    simpa [hr] using h

theorem mem_ahead_enqueue {r : LockRequest} (h : r ∈ l.ahead u) :
    r ∈ (l.enqueue txn access).ahead u := by
  unfold enqueue
  split
  · exact h
  · rw [ahead, List.takeWhile_append]
    split
    · exact List.mem_append_left _ (mem_queue_of_mem_ahead h)
    · exact h

/-- A new request at the end is ahead of nobody who waits. -/
theorem ahead_enqueue (h : u = txn ∨ ∃ r ∈ l.queue, r.txn = u) :
    (l.enqueue txn access).ahead u = l.ahead u := by
  unfold enqueue
  split
  · rfl
  · rw [ahead, List.takeWhile_append]
    split
    · rename_i hlen
      have hall : l.ahead u = l.queue :=
        (List.takeWhile_sublist (l := l.queue) _).eq_of_length hlen
      rcases h with rfl | ⟨r, hr, rfl⟩
      · simp [hall]
      · exact absurd rfl (txn_ne_of_mem_ahead (hall ▸ hr))
    · rfl

/-! ## Grants and releases -/

/-- A request that the holders do not allow meets a holder that excludes it. -/
theorem exists_excluding_holder (hx : l.Exclusive) (h : l.holdersAllow txn access = false) :
    ∃ u m, u ≠ txn ∧ l.heldBy u = some m ∧ m.compatible access = false := by
  rcases hw : l.writer with _ | w
  · rw [holdersAllow, hw] at h
    simp only [Option.all_none, Bool.true_and, Bool.or_eq_false_iff, decide_eq_false_iff_not,
      List.all_eq_false] at h
    obtain ⟨ha, u, hu, hne⟩ := h
    refine ⟨u, .readOnly, by simpa using hne, by simp [heldBy, hw, hu], ?_⟩
    cases access
    · exact absurd rfl ha
    · rfl
  · refine ⟨w, .readWrite, ?_, by simp [heldBy, hw], by cases access <;> rfl⟩
    rintro rfl
    simp [holdersAllow, hw, hx w hw] at h

/-- Where the holders allow an access, each other one holds the page in a way that goes with it. -/
theorem compatible_of_holdersAllow {m : Access} (h : l.holdersAllow txn access = true)
    (hne : u ≠ txn) (hu : l.heldBy u = some m) : m.compatible access = true := by
  simp only [holdersAllow, Bool.and_eq_true, Option.all_eq_true, Bool.or_eq_true,
    decide_eq_true_eq, List.all_eq_true] at h
  obtain ⟨hwriter, hreaders⟩ := h
  unfold heldBy at hu
  split at hu
  · rename_i hw
    exact absurd (hwriter u hw) hne
  · split at hu
    · rename_i hr
      cases hu
      rcases hreaders with rfl | hall
      · rfl
      · exact absurd (hall u hr) hne
    · cases hu

/-- A holder blocks the accesses of all others that it excludes. -/
theorem not_canGrant_of_held {m : Access} (hm : l.heldBy txn = some m) (hne : txn ≠ u)
    (hc : m.compatible access = false) : l.canGrant u access = false := by
  rw [← Bool.not_eq_true]
  intro hg
  simp only [canGrant, Bool.and_eq_true] at hg
  rw [compatible_of_holdersAllow hg.1 hne hm] at hc
  cases hc

/-- A request that stands ahead blocks the accesses that it excludes. -/
theorem not_canGrant_of_ahead {r : LockRequest} (hr : r ∈ l.ahead u)
    (hc : r.access.compatible access = false) : l.canGrant u access = false := by
  rw [canGrant, Bool.and_eq_false_iff]
  right
  rw [List.all_eq_false]
  exact ⟨r, hr, by simp [hc]⟩

theorem not_writer_of_uncovered (h : (l.heldBy txn).any (·.covers access) = false) :
    l.writer ≠ some txn := by
  intro hw
  simp [heldBy, hw, Access.covers] at h

/-- A grant gives the transaction what it asked for and changes no other holding. -/
theorem heldBy_grant (h : l.holdersAllow txn access = true) (hw : l.writer ≠ some txn) :
    (l.grant txn access).heldBy u = if u = txn then some access else l.heldBy u := by
  have hnone : l.writer = none := by
    simp only [holdersAllow, Bool.and_eq_true, Option.all_eq_true] at h
    rcases hl : l.writer with _ | w
    · rfl
    · have := h.1 w hl
      simp only [decide_eq_true_eq] at this
      exact absurd (this ▸ hl) hw
  cases access with
  | readOnly =>
    by_cases hmem : txn ∈ l.readers
    · by_cases hu : u = txn
      · subst hu
        simp [grant, dequeue, heldBy, hnone, hmem]
      · simp [grant, dequeue, heldBy, hnone, hmem, hu]
    · by_cases hu : u = txn
      · subst hu
        simp [grant, dequeue, heldBy, hnone, hmem]
      · simp [grant, dequeue, heldBy, hnone, hmem, hu]
  | readWrite =>
    by_cases hu : u = txn
    · subst hu
      simp [grant, dequeue, heldBy]
    · simp [grant, dequeue, heldBy, hnone, hu, Ne.symm hu]

theorem exclusive_grant (h : l.holdersAllow txn access = true) (hw : l.writer ≠ some txn) :
    (l.grant txn access).Exclusive := by
  intro w hgrant
  rw [← heldBy_eq_readWrite_iff, heldBy_grant h hw] at hgrant
  simp only [holdersAllow, Bool.and_eq_true, Option.all_eq_true, List.all_eq_true,
    Bool.or_eq_true, decide_eq_true_eq] at h
  split at hgrant
  · cases hgrant
    have hall : ∀ r ∈ l.readers, r = txn := by simpa using h.2
    simpa [grant, dequeue] using hall
  · rename_i hne
    rw [heldBy_eq_readWrite_iff] at hgrant
    exact absurd (h.1 w hgrant) hne

/-- A release takes away all that the transaction holds and changes no other holding. -/
theorem heldBy_release (h : l.Exclusive) :
    (l.release txn).1.heldBy u = if u = txn then none else l.heldBy u := by
  unfold release
  split
  · rename_i hw
    simp only [heldBy, h txn hw, hw]
    by_cases hu : u = txn
    · simp [hu]
    · simp [hu, Ne.symm hu]
  · rename_i hw
    split
    · by_cases hu : u = txn
      · subst hu
        simp [heldBy, hw]
      · simp [heldBy, hu]
    · rename_i hr
      by_cases hu : u = txn
      · subst hu
        simp [heldBy, hw, hr]
      · simp [hu]

theorem exclusive_release (h : l.Exclusive) : (l.release txn).1.Exclusive := by
  intro w hw
  unfold release at hw ⊢
  split at hw
  · cases hw
  · split at hw <;> simp_all [Exclusive]

theorem exclusive_congr {m : PageLock} (hr : m.readers = l.readers) (hw : m.writer = l.writer)
    (h : l.Exclusive) : m.Exclusive := by
  intro w hm
  rw [hr]
  exact h w (hw ▸ hm)

theorem exclusive_enqueue (h : l.Exclusive) : (l.enqueue txn access).Exclusive := by
  unfold enqueue
  split
  · exact h
  · exact exclusive_congr rfl rfl h

theorem exclusive_dequeue (h : l.Exclusive) : (l.dequeue txn).Exclusive :=
  exclusive_congr rfl rfl h

end PageLock

/-! ## The lock table -/

namespace LockTable

variable {t : LockTable} {txn u : TransactionId} {page p : PageId} {access : Access}

/-- Storing a lock changes the lock of its page only. -/
@[simp] theorem lockOf_store (l : PageLock) :
    (t.store page l).lockOf p = if p = page then l else t.lockOf p := by
  unfold store lockOf
  by_cases hidle : l.isIdle = true
  · simp only [hidle, if_true, FinMap.get?_erase]
    split
    · simp [PageLock.eq_free_of_isIdle hidle]
    · rfl
  · rw [if_neg hidle, FinMap.get?_insert]
    split <;> rfl

@[simp] theorem lockOf_setHeld (pages : List PageId) :
    (t.setHeld txn pages).lockOf p = t.lockOf p := rfl

@[simp] theorem heldPages_store (l : PageLock) : (t.store page l).heldPages u = t.heldPages u := rfl

@[simp] theorem heldPages_setHeld (pages : List PageId) :
    (t.setHeld txn pages).heldPages u = if u = txn then pages else t.heldPages u := by
  unfold setHeld heldPages
  by_cases hnil : pages.isEmpty = true
  · simp only [hnil, if_true, FinMap.get?_erase]
    split
    · simpa using (List.isEmpty_iff.1 hnil).symm
    · rfl
  · rw [if_neg hnil, FinMap.get?_insert]
    split <;> rfl

@[simp] theorem waits_store (l : PageLock) : (t.store page l).waits = t.waits := rfl

@[simp] theorem waits_setHeld (pages : List PageId) : (t.setHeld txn pages).waits = t.waits := rfl

@[simp] theorem waits_grant : (t.grant txn page access).waits = t.waits := rfl

@[simp] theorem lockOf_grant : (t.grant txn page access).lockOf p =
    if p = page then (t.lockOf page).grant txn access else t.lockOf p := by
  simp [grant]

theorem heldPages_grant : (t.grant txn page access).heldPages u =
    if u = txn then (if page ∈ t.heldPages txn then t.heldPages txn else t.heldPages txn ++ [page])
    else t.heldPages u := by
  simp [grant]

@[simp] theorem lockOf_release : (t.release txn page).lockOf p =
    if p = page then ((t.lockOf page).release txn).1 else t.lockOf p := by
  simp only [release, lockOf_setHeld]
  exact lockOf_store _

@[simp] theorem heldPages_release : (t.release txn page).heldPages u =
    if u = txn then (t.heldPages txn).filter (· ≠ page) else t.heldPages u := by
  simp only [release, heldPages_setHeld]
  rfl

@[simp] theorem waits_release : (t.release txn page).waits = t.waits.release txn page := rfl

/-! ## Holdings that agree -/

/-- Writers are alone on their pages, and the pages listed for a transaction are those that
it holds. -/
structure Tidy (t : LockTable) : Prop where
  exclusive : ∀ page, (t.lockOf page).Exclusive
  mem_heldPages : ∀ txn page, page ∈ t.heldPages txn ↔ t.heldMode txn page ≠ none

theorem tidy_empty : empty.Tidy where
  exclusive _ := PageLock.exclusive_free
  mem_heldPages _ _ := by simp [heldPages, heldMode, lockOf, empty]

theorem holds_iff : t.holds txn page = true ↔ t.heldMode txn page ≠ none := by
  rw [holds, Option.isSome_iff_ne_none]

/-- Whoever holds a page is listed among the holders. -/
theorem Tidy.mem_keys_held (h : t.Tidy) (hold : t.holds txn page = true) : txn ∈ t.held.keys := by
  have hmem := (h.mem_heldPages txn page).2 (holds_iff.1 hold)
  rw [FinMap.mem_keys_iff]
  unfold heldPages at hmem
  rcases hg : t.held.get? txn with _ | pages
  · simp [hg] at hmem
  · exact ⟨pages, rfl⟩

/-- A change of one queue changes no holding. -/
theorem tidy_of_same_holdings {t' : LockTable} (h : t.Tidy)
    (hx : ∀ p, (t'.lockOf p).Exclusive)
    (hh : ∀ u p, t'.heldMode u p = t.heldMode u p)
    (hp : ∀ u, t'.heldPages u = t.heldPages u) : t'.Tidy where
  exclusive := hx
  mem_heldPages u p := by rw [hp, hh, h.mem_heldPages]

/-- Nothing is held differently when a lock with the same holders is stored. -/
theorem heldMode_store {l : PageLock} (hh : ∀ u, l.heldBy u = (t.lockOf page).heldBy u)
    (u : TransactionId) (p : PageId) : (t.store page l).heldMode u p = t.heldMode u p := by
  simp only [heldMode, lockOf_store]
  split
  · rename_i hp
    rw [hh, hp]
  · rfl

theorem tidy_store (h : t.Tidy) (l : PageLock) (hx : l.Exclusive)
    (hh : ∀ u, l.heldBy u = (t.lockOf page).heldBy u) : (t.store page l).Tidy := by
  apply tidy_of_same_holdings h
  · intro p
    rw [lockOf_store]
    split
    · exact hx
    · exact h.exclusive p
  · exact heldMode_store hh
  · intro u
    rfl

theorem heldMode_grant (ha : (t.lockOf page).holdersAllow txn access = true)
    (hw : (t.lockOf page).writer ≠ some txn) (u : TransactionId) (p : PageId) :
    (t.grant txn page access).heldMode u p =
      if u = txn ∧ p = page then some access else t.heldMode u p := by
  simp only [heldMode, lockOf_grant]
  by_cases hp : p = page
  · subst hp
    simp [PageLock.heldBy_grant ha hw]
  · simp [hp]

theorem tidy_grant (h : t.Tidy) (ha : (t.lockOf page).holdersAllow txn access = true)
    (hw : (t.lockOf page).writer ≠ some txn) : (t.grant txn page access).Tidy where
  exclusive p := by
    rw [lockOf_grant]
    split
    · exact PageLock.exclusive_grant ha hw
    · exact h.exclusive p
  mem_heldPages u p := by
    rw [heldMode_grant ha hw, heldPages_grant]
    by_cases hu : u = txn
    · subst hu
      by_cases hp : p = page
      · subst hp
        simp only [if_true, and_self]
        split <;> simp_all
      · have hiff := h.mem_heldPages u p
        simp only [if_true, hp, and_false, if_false]
        split
        · exact hiff
        · simpa [hp] using hiff
    · simpa [hu] using h.mem_heldPages u p

theorem heldMode_release (h : t.Tidy) (u : TransactionId) (p : PageId) :
    (t.release txn page).heldMode u p =
      if u = txn ∧ p = page then none else t.heldMode u p := by
  simp only [heldMode, lockOf_release]
  by_cases hp : p = page
  · subst hp
    simp [PageLock.heldBy_release (h.exclusive p)]
  · simp [hp]

theorem tidy_release (h : t.Tidy) : (t.release txn page).Tidy where
  exclusive p := by
    rw [lockOf_release]
    split
    · exact PageLock.exclusive_release (h.exclusive page)
    · exact h.exclusive p
  mem_heldPages u p := by
    rw [heldMode_release h, heldPages_release]
    have hiff := h.mem_heldPages u p
    by_cases hu : u = txn
    · subst hu
      by_cases hp : p = page <;> simp_all
    · simpa [hu] using hiff

/-! ## Holdings after an end -/

theorem heldMode_releaseList (h : t.Tidy) (pages : List PageId) :
    (pages.foldl (fun t page => t.release txn page) t).heldMode u p =
      if u = txn ∧ p ∈ pages then none else t.heldMode u p := by
  induction pages generalizing t with
  | nil => simp
  | cons page rest ih =>
    rw [List.foldl_cons, ih (tidy_release h), heldMode_release h]
    by_cases hu : u = txn <;> by_cases hp : p = page <;> by_cases hr : p ∈ rest <;>
      simp [hu, hp, hr]

/-- After the end of a transaction it holds nothing, and the others hold what they held. -/
theorem heldMode_releaseAll (h : t.Tidy) :
    (t.releaseAll txn).heldMode u p = if u = txn then none else t.heldMode u p := by
  have hlist : (t.releaseAll txn).heldMode u p =
      if u = txn ∧ p ∈ t.heldPages txn then none else t.heldMode u p :=
    heldMode_releaseList h _
  rw [hlist]
  by_cases hu : u = txn
  · subst hu
    by_cases hp : p ∈ t.heldPages u
    · simp [hp]
    · simpa [hp] using (not_iff_not.2 (h.mem_heldPages u p)).1 hp
  · simp [hu]

end LockTable

end PageCache
