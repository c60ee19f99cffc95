-- Runs of the lock table: transactions ask for locks, look at their waiting requests
-- again, give up and release, in any order. What each of these steps can do is said once;
-- the queues and the waiting requests agree after every step.
import PageCache.Lock.Locking
import PageCache.Proofs.Lock.Arrivals

namespace PageCache

/-- A request to the lock table is covered, refused, granted or left waiting. -/
theorem LockTable.acquire_cases (t : LockTable) (txn : TransactionId) (page : PageId)
    (access : Access) :
    ((t.heldMode txn page).any (·.covers access) = true ∧
      t.acquire txn page access = (t, .granted)) ∨
    ((t.heldMode txn page).any (·.covers access) = false ∧
      ∃ waits verdict, t.waits.request txn page access = (waits, verdict) ∧
        ((verdict = .refused ∧ t.acquire txn page access = ({ t with waits }, .refused)) ∨
          (verdict ≠ .refused ∧ (t.lockOf page).canGrant txn access = true ∧
            t.acquire txn page access =
              (LockTable.grant { t with waits } txn page access, .granted)) ∨
          (verdict ≠ .refused ∧ (t.lockOf page).canGrant txn access = false ∧
            t.acquire txn page access =
              (LockTable.store { t with waits } page ((t.lockOf page).enqueue txn access),
                .waiting (verdict = .added))))) := by
  by_cases hcov : (t.heldMode txn page).any (·.covers access) = true
  · refine Or.inl ⟨hcov, ?_⟩
    simp [acquire, hcov]
  · rw [Bool.not_eq_true] at hcov
    rcases hreq : t.waits.request txn page access with ⟨waits, verdict⟩
    refine Or.inr ⟨hcov, waits, verdict, rfl, ?_⟩
    by_cases href : verdict = .refused
    · refine Or.inl ⟨href, ?_⟩
      simp [acquire, hcov, hreq, href]
    · right
      have hlock : LockTable.lockOf { t with waits } page = t.lockOf page := rfl
      by_cases hg : (t.lockOf page).canGrant txn access = true
      · refine Or.inl ⟨href, hg, ?_⟩
        simp [acquire, tryGrant, hcov, hreq, href, hlock, hg]
      · rw [Bool.not_eq_true] at hg
        refine Or.inr ⟨href, hg, ?_⟩
        simp [acquire, tryGrant, hcov, hreq, href, hlock, hg]

/-- What can happen to the locks in one step. -/
inductive LockAction where
  /-- A transaction asks for a lock. -/
  | acquire (txn : TransactionId) (page : PageId) (access : Access)
  /-- The waiting request of a transaction is looked at again. -/
  | recheck (txn : TransactionId)
  /-- The time of a transaction's waiting request is over. -/
  | expire (txn : TransactionId)
  | release (txn : TransactionId) (page : PageId)
  | releaseAll (txn : TransactionId)
deriving DecidableEq

namespace Locking

/-- The locks after an action. -/
def perform (s : Locking) : LockAction → Locking
  | .acquire txn page access => (s.acquire txn page access).1
  | .recheck txn => (s.recheck txn).1
  | .expire txn => (s.expire txn).1
  | .release txn page => s.release txn page
  | .releaseAll txn => s.releaseAll txn

/-- A transaction has at most one unfinished request, and releases only while it has none. -/
def Admits (s : Locking) : LockAction → Prop
  | .acquire txn _ _ => s.isWaiting txn = false
  | .release txn _ => s.isWaiting txn = false
  | .releaseAll txn => s.isWaiting txn = false
  | _ => True

instance (s : Locking) : (a : LockAction) → Decidable (s.Admits a)
  | .acquire txn _ _ => inferInstanceAs (Decidable (s.isWaiting txn = false))
  | .release txn _ => inferInstanceAs (Decidable (s.isWaiting txn = false))
  | .releaseAll txn => inferInstanceAs (Decidable (s.isWaiting txn = false))
  | .recheck _ => instDecidableTrue
  | .expire _ => instDecidableTrue

/-- The locks that a run of admitted actions can lead to. -/
inductive Reachable : Locking → Prop where
  | empty : Reachable empty
  | step {s : Locking} (a : LockAction) : Reachable s → s.Admits a → Reachable (s.perform a)

variable {s : Locking} {txn u : TransactionId} {page p : PageId} {access : Access}

/-! ## What a step can do -/

/-- A request is covered, refused, granted or left waiting. -/
theorem acquire_cases (s : Locking) (txn : TransactionId) (page : PageId) (access : Access) :
    ((s.table.heldMode txn page).any (·.covers access) = true ∧
      s.acquire txn page access = (s, .granted)) ∨
    ((s.table.heldMode txn page).any (·.covers access) = false ∧
      ∃ waits verdict, s.table.waits.request txn page access = (waits, verdict) ∧
        ((verdict = .refused ∧
            s.acquire txn page access = ({ s with table := { s.table with waits } }, .refused)) ∨
          (verdict ≠ .refused ∧ (s.table.lockOf page).canGrant txn access = true ∧
            s.acquire txn page access =
              ({ s with table := LockTable.grant { s.table with waits } txn page access },
                .granted)) ∨
          (verdict ≠ .refused ∧ (s.table.lockOf page).canGrant txn access = false ∧
            s.acquire txn page access =
              (⟨LockTable.store { s.table with waits } page
                  ((s.table.lockOf page).enqueue txn access),
                s.pending.insert txn ⟨page, access, verdict = .added⟩⟩, .waiting)))) := by
  unfold acquire
  rcases s.table.acquire_cases txn page access with
    ⟨hcov, he⟩ | ⟨hcov, waits, verdict, hreq, hcase⟩
  · exact Or.inl ⟨hcov, by rw [he]⟩
  · refine Or.inr ⟨hcov, waits, verdict, hreq, ?_⟩
    rcases hcase with ⟨hv, he⟩ | ⟨hv, hg, he⟩ | ⟨hv, hg, he⟩
    · exact Or.inl ⟨hv, by rw [he]⟩
    · exact Or.inr (Or.inl ⟨hv, hg, by rw [he]⟩)
    · exact Or.inr (Or.inr ⟨hv, hg, by rw [he]⟩)

/-- A waiting request that is looked at again is granted, or joins its queue. -/
theorem recheck_cases (s : Locking) (txn : TransactionId) :
    (s.pending.get? txn = none ∧ s.recheck txn = (s, none)) ∨
    ∃ r, s.pending.get? txn = some r ∧
      (((s.table.lockOf r.page).canGrant txn r.access = true ∧
          s.recheck txn = (⟨s.table.grant txn r.page r.access, s.pending.erase txn⟩, some r)) ∨
        ((s.table.lockOf r.page).canGrant txn r.access = false ∧
          s.recheck txn =
            (⟨s.table.store r.page ((s.table.lockOf r.page).enqueue txn r.access), s.pending⟩,
              none))) := by
  unfold recheck LockTable.tryGrant
  rcases hp : s.pending.get? txn with _ | r
  · exact Or.inl ⟨rfl, rfl⟩
  · refine Or.inr ⟨r, rfl, ?_⟩
    by_cases hg : (s.table.lockOf r.page).canGrant txn r.access = true
    · exact Or.inl ⟨hg, by simp [hg]⟩
    · rw [Bool.not_eq_true] at hg
      exact Or.inr ⟨hg, by simp [hg]⟩

/-- A request whose time is over is granted in the last moment, or taken back. -/
theorem expire_cases (s : Locking) (txn : TransactionId) :
    (s.pending.get? txn = none ∧ s.expire txn = (s, none)) ∨
    ∃ r, s.pending.get? txn = some r ∧
      (((s.table.lockOf r.page).canGrant txn r.access = true ∧
          s.expire txn =
            (⟨s.table.grant txn r.page r.access, s.pending.erase txn⟩, some (r, true))) ∨
        ((s.table.lockOf r.page).canGrant txn r.access = false ∧
          s.expire txn =
            (⟨{ s.table.store r.page ((s.table.lockOf r.page).dequeue txn) with
                waits := if r.entered then s.table.waits.withdraw txn r.page else s.table.waits },
              s.pending.erase txn⟩, some (r, false)))) := by
  unfold expire LockTable.giveUp
  rcases hp : s.pending.get? txn with _ | r
  · exact Or.inl ⟨rfl, rfl⟩
  · refine Or.inr ⟨r, rfl, ?_⟩
    by_cases hg : (s.table.lockOf r.page).canGrant txn r.access = true
    · exact Or.inl ⟨hg, by simp [hg]⟩
    · rw [Bool.not_eq_true] at hg
      exact Or.inr ⟨hg, by simp [hg]⟩

/-! ## Queues and waiting requests -/

/-- The queues hold the waiting requests, each transaction once, and no waiting request is
covered by what its transaction holds. -/
structure Orderly (s : Locking) : Prop where
  tidy : s.table.Tidy
  mem_queue_iff : ∀ page (r : LockRequest), r ∈ (s.table.lockOf page).queue ↔
    ∃ entered, s.pending.get? r.txn = some ⟨page, r.access, entered⟩
  queue_nodup : ∀ page, ((s.table.lockOf page).queue.map LockRequest.txn).Nodup
  uncovered : ∀ txn r, s.pending.get? txn = some r →
    (s.table.heldMode txn r.page).any (·.covers r.access) = false

theorem isWaiting_eq_false_iff : s.isWaiting txn = false ↔ s.pending.get? txn = none :=
  FinMap.contains_eq_false_iff _ _

theorem isWaiting_iff : s.isWaiting txn = true ↔ ∃ r, s.pending.get? txn = some r :=
  FinMap.contains_iff _ _

namespace Orderly

theorem not_queued (h : s.Orderly) (hw : s.pending.get? txn = none) (page : PageId) :
    ∀ r ∈ (s.table.lockOf page).queue, r.txn ≠ txn := by
  rintro r hr rfl
  obtain ⟨entered, hp⟩ := (h.mem_queue_iff page r).1 hr
  rw [hw] at hp
  cases hp

theorem queued (h : s.Orderly) {r : PendingLock} (hp : s.pending.get? txn = some r) :
    (⟨txn, r.access⟩ : LockRequest) ∈ (s.table.lockOf r.page).queue :=
  (h.mem_queue_iff r.page ⟨txn, r.access⟩).2 ⟨r.entered, hp⟩

/-- A transaction stands in a queue with the request that waits, and in no other one. -/
theorem own_request (h : s.Orderly) {r : PendingLock} (hp : s.pending.get? txn = some r)
    {q : LockRequest} (hq : q ∈ (s.table.lockOf p).queue) (ht : q.txn = txn) :
    p = r.page ∧ q = ⟨txn, r.access⟩ := by
  subst ht
  obtain ⟨entered, hp'⟩ := (h.mem_queue_iff p q).1 hq
  rw [hp, Option.some.injEq] at hp'
  subst hp'
  exact ⟨rfl, rfl⟩

theorem not_queued_elsewhere (h : s.Orderly) {r : PendingLock}
    (hp : s.pending.get? txn = some r) (hne : p ≠ r.page) :
    ∀ q ∈ (s.table.lockOf p).queue, q.txn ≠ txn :=
  fun _ hq ht => hne (h.own_request hp hq ht).1

theorem not_writer (_ : s.Orderly) {r : PendingLock}
    (hu : (s.table.heldMode txn r.page).any (·.covers r.access) = false) :
    (s.table.lockOf r.page).writer ≠ some txn := PageLock.not_writer_of_uncovered hu

theorem empty : Locking.empty.Orderly where
  tidy := LockTable.tidy_empty
  mem_queue_iff _ _ := by simp [Locking.empty, LockTable.lockOf, LockTable.empty, PageLock.free]
  queue_nodup _ := by simp [Locking.empty, LockTable.lockOf, LockTable.empty, PageLock.free]
  uncovered _ _ hp := by simp [Locking.empty] at hp

/-- The graph of waits, and how locks are listed, does not matter. -/
theorem of_same (h : s.Orderly) {t' : LockTable} (hl : ∀ q, t'.lockOf q = s.table.lockOf q)
    (hp : ∀ v, t'.heldPages v = s.table.heldPages v) : Orderly { s with table := t' } := by
  have hheld : ∀ v q, t'.heldMode v q = s.table.heldMode v q := by
    intro v q
    simp only [LockTable.heldMode, hl]
  constructor
  · apply LockTable.tidy_of_same_holdings h.tidy _ hheld hp
    intro q
    exact (hl q).symm ▸ h.tidy.exclusive q
  · intro q r
    rw [hl]
    exact h.mem_queue_iff q r
  · intro q
    rw [hl]
    exact h.queue_nodup q
  · intro v r hv
    rw [hheld]
    exact h.uncovered v r hv

/-- A request goes to the end of the queue of its page. -/
theorem enqueue (h : s.Orderly) (hw : s.pending.get? txn = none)
    (hu : (s.table.heldMode txn page).any (·.covers access) = false) (entered : Bool) :
    Orderly ⟨s.table.store page ((s.table.lockOf page).enqueue txn access),
      s.pending.insert txn ⟨page, access, entered⟩⟩ := by
  have hq := h.not_queued hw page
  have hheld : ∀ v q, LockTable.heldMode
      (s.table.store page ((s.table.lockOf page).enqueue txn access)) v q =
        s.table.heldMode v q := LockTable.heldMode_store fun _ => PageLock.heldBy_enqueue
  constructor
  · exact LockTable.tidy_store h.tidy _ (PageLock.exclusive_enqueue (h.tidy.exclusive page))
      (fun _ => PageLock.heldBy_enqueue)
  · intro q r
    simp only [LockTable.lockOf_store, FinMap.get?_insert]
    by_cases hq' : q = page
    · subst hq'
      rw [if_pos rfl, PageLock.mem_queue_enqueue hq]
      by_cases hr : r.txn = txn
      · rw [if_pos hr]
        constructor
        · rintro (hm | rfl)
          · exact absurd hr (hq r hm)
          · exact ⟨entered, rfl⟩
        · rintro ⟨e, he⟩
          right
          cases r
          simp_all
      · rw [if_neg hr, ← h.mem_queue_iff]
        constructor
        · rintro (hm | rfl)
          · exact hm
          · exact absurd rfl hr
        · exact Or.inl
    · rw [if_neg hq', h.mem_queue_iff]
      by_cases hr : r.txn = txn
      · simp [hr, hw, Ne.symm hq']
      · simp [hr]
  · intro q
    simp only [LockTable.lockOf_store]
    split
    · exact PageLock.nodup_queue_enqueue hq (h.queue_nodup page)
    · exact h.queue_nodup q
  · intro v r hp
    simp only [FinMap.get?_insert] at hp
    rw [hheld]
    split at hp
    · rename_i hv
      cases hp
      rw [hv]
      exact hu
    · exact h.uncovered v r hp

/-- Where a transaction leaves a queue, and its request is forgotten, the queues go on to
agree. `t'` is the table after that, with holdings that are still in order. -/
theorem leave (h : s.Orderly) {r : PendingLock} (hp : s.pending.get? txn = some r)
    {t' : LockTable} (ht : t'.Tidy)
    (hqueue : ∀ q, (t'.lockOf q).queue =
      if q = r.page then (s.table.lockOf q).queue.filter (·.txn ≠ txn)
      else (s.table.lockOf q).queue)
    (hheld : ∀ v, v ≠ txn → ∀ q, t'.heldMode v q = s.table.heldMode v q) :
    Orderly ⟨t', s.pending.erase txn⟩ := by
  have hmem : ∀ q (x : LockRequest), x ∈ (t'.lockOf q).queue ↔
      x ∈ (s.table.lockOf q).queue ∧ x.txn ≠ txn := by
    intro q x
    rw [hqueue]
    split
    · simp
    · rename_i hne
      exact ⟨fun hx => ⟨hx, h.not_queued_elsewhere hp hne x hx⟩, And.left⟩
  constructor
  · exact ht
  · intro q x
    simp only [hmem, h.mem_queue_iff, FinMap.get?_erase]
    by_cases hx : x.txn = txn <;> simp [hx]
  · intro q
    simp only [hqueue]
    split
    · exact (h.queue_nodup q).sublist (List.filter_sublist.map _)
    · exact h.queue_nodup q
  · intro v x hv
    simp only [FinMap.get?_erase] at hv
    split at hv
    · cases hv
    · rename_i hne
      rw [hheld v hne]
      exact h.uncovered v x hv

theorem grant_queued (h : s.Orderly) {r : PendingLock} (hp : s.pending.get? txn = some r)
    (hg : (s.table.lockOf r.page).canGrant txn r.access = true) :
    Orderly ⟨s.table.grant txn r.page r.access, s.pending.erase txn⟩ := by
  simp only [PageLock.canGrant, Bool.and_eq_true] at hg
  have hw := h.not_writer (h.uncovered txn r hp)
  apply h.leave hp (LockTable.tidy_grant h.tidy hg.1 hw)
  · intro q
    rw [LockTable.lockOf_grant]
    split
    · rename_i hq
      rw [PageLock.queue_grant, hq]
    · rfl
  · intro v hv q
    rw [LockTable.heldMode_grant hg.1 hw, if_neg (fun hc => hv hc.1)]

theorem abandon (h : s.Orderly) {r : PendingLock} (hp : s.pending.get? txn = some r)
    (waits : WaitGraph) :
    Orderly ⟨{ s.table.store r.page ((s.table.lockOf r.page).dequeue txn) with waits },
      s.pending.erase txn⟩ := by
  have hlock : ∀ q, LockTable.lockOf
      { s.table.store r.page ((s.table.lockOf r.page).dequeue txn) with waits } q =
        if q = r.page then (s.table.lockOf r.page).dequeue txn else s.table.lockOf q :=
    fun q => LockTable.lockOf_store _
  apply h.leave hp
  · have hst : (s.table.store r.page ((s.table.lockOf r.page).dequeue txn)).Tidy :=
      LockTable.tidy_store h.tidy _ (PageLock.exclusive_dequeue (h.tidy.exclusive r.page))
        (fun _ => PageLock.heldBy_dequeue)
    exact ⟨hst.exclusive, hst.mem_heldPages⟩
  · intro q
    rw [hlock]
    split
    · rename_i hq
      rw [PageLock.queue_dequeue, hq]
    · rfl
  · intro v _ q
    exact LockTable.heldMode_store (fun _ => PageLock.heldBy_dequeue) v q

theorem grant_now (h : s.Orderly) (hw : s.pending.get? txn = none)
    (hu : (s.table.heldMode txn page).any (·.covers access) = false)
    (hg : (s.table.lockOf page).canGrant txn access = true) :
    Orderly { s with table := s.table.grant txn page access } := by
  simp only [PageLock.canGrant, Bool.and_eq_true] at hg
  have hwr := PageLock.not_writer_of_uncovered hu
  have hqueue : ∀ q, (LockTable.lockOf (s.table.grant txn page access) q).queue =
      (s.table.lockOf q).queue := by
    intro q
    rw [LockTable.lockOf_grant]
    split
    · rename_i hq
      rw [PageLock.queue_grant, hq, List.filter_eq_self]
      simpa using h.not_queued hw page
    · rfl
  constructor
  · exact LockTable.tidy_grant h.tidy hg.1 hwr
  · intro q r
    rw [hqueue]
    exact h.mem_queue_iff q r
  · intro q
    rw [hqueue]
    exact h.queue_nodup q
  · intro v r hp
    have hne : v ≠ txn := by
      rintro rfl
      rw [hw] at hp
      cases hp
    simp only at hp ⊢
    rw [LockTable.heldMode_grant hg.1 hwr, if_neg (fun hc => hne hc.1)]
    exact h.uncovered v r hp

theorem release (h : s.Orderly) (txn : TransactionId) (page : PageId) :
    (s.release txn page).Orderly := by
  have hqueue : ∀ q, (LockTable.lockOf (s.table.release txn page) q).queue =
      (s.table.lockOf q).queue := by
    intro q
    rw [LockTable.lockOf_release]
    split
    · rename_i hq
      rw [PageLock.queue_release, hq]
    · rfl
  constructor
  · exact LockTable.tidy_release h.tidy
  · intro q r
    simp only [Locking.release]
    rw [hqueue]
    exact h.mem_queue_iff q r
  · intro q
    simp only [Locking.release]
    rw [hqueue]
    exact h.queue_nodup q
  · intro v r hp
    simp only [Locking.release] at hp ⊢
    rw [LockTable.heldMode_release h.tidy]
    split
    · rfl
    · exact h.uncovered v r hp

theorem acquire (h : s.Orderly) (hw : s.pending.get? txn = none) :
    (s.acquire txn page access).1.Orderly := by
  rcases s.acquire_cases txn page access with ⟨-, he⟩ | ⟨hu, waits, verdict, -, hcase⟩
  · rw [he]
    exact h
  · have hset : Orderly { s with table := { s.table with waits } } :=
      h.of_same (fun _ => rfl) (fun _ => rfl)
    rcases hcase with ⟨-, he⟩ | ⟨-, hg, he⟩ | ⟨-, -, he⟩
    · rw [he]
      exact hset
    · rw [he]
      exact hset.grant_now hw hu hg
    · rw [he]
      exact hset.enqueue hw hu _

/-- A request that goes on waiting has its place in the queue already. -/
theorem lockOf_recheck (h : s.Orderly) {r : PendingLock} (hp : s.pending.get? txn = some r)
    (q : PageId) :
    (s.table.store r.page ((s.table.lockOf r.page).enqueue txn r.access)).lockOf q =
      s.table.lockOf q := by
  rw [LockTable.lockOf_store, PageLock.enqueue_eq_self ⟨_, h.queued hp, rfl⟩]
  split
  · rename_i hq
    rw [hq]
  · rfl

theorem recheck (h : s.Orderly) (txn : TransactionId) : (s.recheck txn).1.Orderly := by
  rcases s.recheck_cases txn with ⟨-, he⟩ | ⟨r, hp, ⟨hg, he⟩ | ⟨-, he⟩⟩
  · rw [he]
    exact h
  · rw [he]
    exact h.grant_queued hp hg
  · rw [he]
    exact h.of_same (h.lockOf_recheck hp) (fun _ => rfl)

theorem expire (h : s.Orderly) (txn : TransactionId) : (s.expire txn).1.Orderly := by
  rcases s.expire_cases txn with ⟨-, he⟩ | ⟨r, hp, ⟨hg, he⟩ | ⟨-, he⟩⟩
  · rw [he]
    exact h
  · rw [he]
    exact h.grant_queued hp hg
  · rw [he]
    exact h.abandon hp _

theorem releaseList (h : s.Orderly) (txn : TransactionId) (pages : List PageId) :
    Orderly { s with table := pages.foldl (fun t page => t.release txn page) s.table } := by
  induction pages generalizing s with
  | nil => exact h
  | cons page rest ih => exact ih (h.release txn page)

theorem releaseAll (h : s.Orderly) (txn : TransactionId) : (s.releaseAll txn).Orderly :=
  (h.releaseList txn (s.table.heldPages txn)).of_same (fun _ => rfl) (fun _ => rfl)

/-- Every step keeps the queues in order, also a release by a transaction that waits. -/
theorem perform (h : s.Orderly) (a : LockAction)
    (ha : ∀ txn page access, a = .acquire txn page access → s.isWaiting txn = false) :
    (s.perform a).Orderly := by
  cases a with
  | acquire txn page access =>
    exact h.acquire (isWaiting_eq_false_iff.1 (ha txn page access rfl))
  | recheck txn => exact h.recheck txn
  | expire txn => exact h.expire txn
  | release txn page => exact h.release txn page
  | releaseAll txn => exact h.releaseAll txn

end Orderly

theorem Reachable.orderly (h : s.Reachable) : s.Orderly := by
  induction h with
  | empty => exact Orderly.empty
  | step a _ ha ih =>
    apply ih.perform a
    rintro txn page access rfl
    exact ha

end Locking

end PageCache
