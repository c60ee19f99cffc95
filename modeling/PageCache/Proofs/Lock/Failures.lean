-- Requests for locks that fail. The operations on the lock table come in any order: a transaction
-- may have several requests open at once, even for one page, and may release while they wait. A
-- request that is refused leaves the table as it was. One that waits and gives up before anything
-- else happens does so too, to the order of the lists, if its transaction has no other one open.
import PageCache.Proofs.Lock.Effects
import PageCache.Proofs.Lock.Refusals
import PageCache.Proofs.Lock.Wakeups

namespace PageCache

/-! ## Tables with open requests -/

/-- What a request adds to the open ones: itself, if it has to wait. -/
def Attempt.opened (txn : TransactionId) (page : PageId) (access : Access) :
    Attempt → List (TransactionId × PendingLock)
  | .granted | .refused => []
  | .waiting entered => [(txn, ⟨page, access, entered⟩)]

namespace LockTable

/-- The lock tables that operations in any order lead to, with the requests that are open. -/
inductive Arises : LockTable → List (TransactionId × PendingLock) → Prop where
  | empty : Arises .empty []
  | acquire {t : LockTable} {opens : List (TransactionId × PendingLock)} (txn : TransactionId)
      (page : PageId) (access : Access) : Arises t opens →
      Arises (t.acquire txn page access).1
        (opens ++ (t.acquire txn page access).2.opened txn page access)
  /-- An open request is looked at again. -/
  | tryGrant {t : LockTable} {opens : List (TransactionId × PendingLock)} {txn : TransactionId}
      {r : PendingLock} : Arises t opens → (txn, r) ∈ opens →
      Arises (t.tryGrant txn r.page r.access).1
        (if (t.tryGrant txn r.page r.access).2 then opens.erase (txn, r) else opens)
  /-- The time of an open request is over. -/
  | giveUp {t : LockTable} {opens : List (TransactionId × PendingLock)} {txn : TransactionId}
      {r : PendingLock} : Arises t opens → (txn, r) ∈ opens →
      Arises (t.giveUp txn r.page r.access r.entered).1 (opens.erase (txn, r))
  | release {t : LockTable} {opens : List (TransactionId × PendingLock)} (txn : TransactionId)
      (page : PageId) : Arises t opens → Arises (t.release txn page) opens
  | releaseAll {t : LockTable} {opens : List (TransactionId × PendingLock)}
      (txn : TransactionId) : Arises t opens → Arises (t.releaseAll txn) opens

/-- Nothing empty is listed, and who stands in a queue has an open request for the page. -/
structure Accounted (t : LockTable) (opens : List (TransactionId × PendingLock)) : Prop where
  pruned : t.Pruned
  queued : ∀ page, ∀ q ∈ (t.lockOf page).queue, ∃ r, (q.txn, r) ∈ opens ∧ r.page = page

end LockTable

namespace PageLock

variable {l : PageLock} {txn : TransactionId} {access : Access}

theorem mem_of_mem_enqueue {q : LockRequest} (h : q ∈ (l.enqueue txn access).queue) :
    q ∈ l.queue ∨ q = ⟨txn, access⟩ := by
  unfold enqueue at h
  split at h
  · exact Or.inl h
  · simpa using h

theorem exists_mem_enqueue : ∃ r ∈ (l.enqueue txn access).queue, r.txn = txn := by
  unfold enqueue
  split
  · rename_i hany
    simpa using hany
  · exact ⟨⟨txn, access⟩, by simp, rfl⟩

/-- A lock with a queue is not idle. -/
theorem isIdle_enqueue : (l.enqueue txn access).isIdle = false := by
  obtain ⟨r, hr, -⟩ : ∃ r ∈ (l.enqueue txn access).queue, r.txn = txn := exists_mem_enqueue
  simp [isIdle, List.ne_nil_of_mem hr]

/-- Who joins the queue and leaves it leaves the lock as it was. -/
theorem dequeue_enqueue (h : ∀ r ∈ l.queue, r.txn ≠ txn) :
    (l.enqueue txn access).dequeue txn = l := by
  have hany : l.queue.any (·.txn = txn) = false := by simpa using h
  have hsame : l.queue.filter (·.txn ≠ txn) = l.queue := by simpa using h
  simp only [enqueue, hany, dequeue, Bool.false_eq_true, if_false, List.filter_append, hsame]
  simp

end PageLock

namespace LockTable

variable {t : LockTable} {opens opens' : List (TransactionId × PendingLock)}
  {txn : TransactionId} {page p : PageId} {access : Access} {r : PendingLock}

theorem lockOf_setWaits (waits : WaitGraph) : lockOf { t with waits } page = t.lockOf page := rfl

/-! ## Who stands in the queues -/

theorem queue_releaseAll : ((t.releaseAll txn).lockOf p).queue = (t.lockOf p).queue := by
  have hlist : ∀ pages : List PageId,
      ((pages.foldl (fun t page => t.release txn page) t).lockOf p).queue =
        (t.lockOf p).queue := by
    intro pages
    induction pages generalizing t with
    | nil => rfl
    | cons page rest ih =>
      rw [List.foldl_cons, ih, lockOf_release]
      split
      · rename_i hp
        rw [PageLock.queue_release, hp]
      · rfl
  exact hlist _

namespace Accounted

theorem empty : LockTable.empty.Accounted [] := by
  refine ⟨.empty, fun page q hq => ?_⟩
  cases hq

/-- The graph of waits may change, and other requests may be opened. -/
theorem setWaits (h : t.Accounted opens) {waits : WaitGraph} (hw : waits.arrivals.Lacks [])
    (ho : ∀ e ∈ opens, e ∈ opens') : Accounted { t with waits } opens' := by
  refine ⟨h.pruned.setWaits hw, fun p q hq => ?_⟩
  obtain ⟨r, hr, hpage⟩ := h.queued p q hq
  exact ⟨r, ho _ hr, hpage⟩

/-- A request that joins the queue of its page is an open one. -/
theorem enqueue (h : t.Accounted opens) (ho : (txn, r) ∈ opens) :
    (t.store r.page ((t.lockOf r.page).enqueue txn r.access)).Accounted opens where
  pruned := h.pruned.store r.page _
  queued p q hmem := by
    rw [lockOf_store] at hmem
    split at hmem
    · rename_i hp
      rw [hp]
      rcases PageLock.mem_of_mem_enqueue hmem with hold | rfl
      · exact h.queued r.page q hold
      · exact ⟨r, ho, rfl⟩
    · exact h.queued p q hmem

/-- A transaction that has left the queue of a page needs no open request for it. -/
theorem leave (h : t.Accounted opens) {t' : LockTable} (hp : t'.Pruned)
    (hq : ∀ p, (t'.lockOf p).queue =
      if p = r.page then (t.lockOf p).queue.filter (·.txn ≠ txn) else (t.lockOf p).queue) :
    t'.Accounted (opens.erase (txn, r)) where
  pruned := hp
  queued p q hmem := by
    have hold : q ∈ (t.lockOf p).queue ∧ ¬ (q.txn = txn ∧ p = r.page) := by
      rw [hq] at hmem
      split at hmem
      · simp_all
      · rename_i hne
        exact ⟨hmem, fun hc => hne hc.2⟩
    obtain ⟨r', hr', rfl⟩ := h.queued p q hold.1
    refine ⟨r', (List.mem_erase_of_ne ?_).2 hr', rfl⟩
    intro heq
    obtain ⟨htxn, rfl⟩ := Prod.mk.inj heq
    exact hold.2 ⟨htxn, rfl⟩

theorem grant (h : t.Accounted opens) :
    (t.grant txn r.page r.access).Accounted (opens.erase (txn, r)) := by
  apply h.leave h.pruned.grant
  intro p
  rw [lockOf_grant]
  split
  · rename_i hp
    rw [PageLock.queue_grant, hp]
  · rfl

theorem acquire (h : t.Accounted opens) (txn : TransactionId) (page : PageId) (access : Access) :
    (t.acquire txn page access).1.Accounted
      (opens ++ (t.acquire txn page access).2.opened txn page access) := by
  rcases t.acquire_cases txn page access with ⟨-, he⟩ | ⟨-, waits, verdict, hreq, hcase⟩
  · simpa [he, Attempt.opened] using h
  · have hwaits : waits.arrivals.Lacks [] := by
      have hlacks := WaitGraph.lacks_request h.pruned.arrivals txn page access
      rwa [hreq] at hlacks
    rcases hcase with ⟨-, he⟩ | ⟨-, -, he⟩ | ⟨-, -, he⟩ <;> rw [he]
    · exact h.setWaits hwaits (fun e he => List.mem_append_left _ he)
    · refine ⟨(h.pruned.setWaits hwaits).grant, fun p q hq => ?_⟩
      have hold : q ∈ (t.lockOf p).queue := by
        rw [lockOf_grant] at hq
        split at hq
        · rename_i hp
          rw [PageLock.queue_grant] at hq
          exact hp ▸ List.mem_of_mem_filter hq
        · exact hq
      obtain ⟨r, hr, hpage⟩ := h.queued p q hold
      exact ⟨r, List.mem_append_left _ hr, hpage⟩
    · have hopen : Accounted { t with waits }
          (opens ++ [(txn, ⟨page, access, verdict = .added⟩)]) :=
        h.setWaits hwaits (fun e he => List.mem_append_left _ he)
      exact hopen.enqueue (r := ⟨page, access, verdict = .added⟩) (by simp)

theorem tryGrant (h : t.Accounted opens) (ho : (txn, r) ∈ opens) :
    (t.tryGrant txn r.page r.access).1.Accounted
      (if (t.tryGrant txn r.page r.access).2 then opens.erase (txn, r) else opens) := by
  unfold LockTable.tryGrant
  dsimp only
  split
  · exact h.grant
  · exact h.enqueue ho

theorem giveUp (h : t.Accounted opens) :
    (t.giveUp txn r.page r.access r.entered).1.Accounted (opens.erase (txn, r)) := by
  unfold LockTable.giveUp
  dsimp only
  split
  · exact h.grant
  · apply h.leave
    · apply (h.pruned.store r.page _).setWaits
      split
      · exact WaitGraph.lacks_list h.pruned.arrivals r.page _
      · exact h.pruned.arrivals
    · intro p
      rw [lockOf_setWaits, lockOf_store]
      split
      · rename_i hp
        rw [PageLock.queue_dequeue, hp]
      · rfl

end Accounted

/-- Whatever the order of the operations, the queues hold open requests only. -/
theorem Arises.accounted (h : t.Arises opens) : t.Accounted opens := by
  induction h with
  | empty => exact .empty
  | acquire txn page access _ ih => exact ih.acquire txn page access
  | tryGrant _ ho ih => exact ih.tryGrant ho
  | giveUp _ _ ih => exact ih.giveUp
  | release txn page _ ih =>
    refine ⟨ih.pruned.release, fun p q hq => ih.queued p q ?_⟩
    rw [lockOf_release] at hq
    split at hq
    · rename_i hp
      rw [PageLock.queue_release] at hq
      exact hp ▸ hq
    · exact hq
  | releaseAll txn _ ih =>
    refine ⟨ih.pruned.releaseAll, fun p q hq => ih.queued p q ?_⟩
    rwa [queue_releaseAll] at hq

theorem Arises.not_queued (h : t.Arises opens) (hnone : ∀ e ∈ opens, e.1 ≠ txn) :
    ∀ q ∈ (t.lockOf page).queue, q.txn ≠ txn := by
  rintro q hq rfl
  obtain ⟨r, hr, -⟩ := h.accounted.queued page q hq
  exact hnone _ hr rfl

/-! ## What is undone -/

/-- A lock that is stored over another one is stored there again. -/
theorem store_store_self (l : PageLock) (hl : l.isIdle = false) :
    (t.store page l).store page l = t.store page l := by
  unfold store
  simp only [hl, Bool.false_eq_true, if_false]
  congr 1
  exact FinMap.ext (FinMap.place_find (FinMap.get?_insert_self t.locks page l))

/-- The old lock of a page that is put back is listed as it was. -/
theorem store_store_lockOf (h : t.locks.Lacks .free) {l : PageLock} (hl : l.isIdle = false) :
    (t.store page l).store page (t.lockOf page) = t := by
  unfold store lockOf
  simp only [hl, Bool.false_eq_true, if_false]
  rcases hget : t.locks.get? page with _ | old
  · have hfree : PageLock.free.isIdle = true := rfl
    simp only [Option.getD_none]
    rw [if_pos hfree, FinMap.erase_insert_of_get? hget]
  · have hidle : ¬ old.isIdle = true := by
      intro hidle
      rw [PageLock.eq_free_of_isIdle hidle] at hget
      exact h page hget
    simp only [Option.getD_some]
    rw [if_neg hidle, FinMap.insert_insert_of_get? hget]

/-- A request that gets into the graph leaves it as it was once it is taken back; one that does
not changes nothing. -/
theorem request_undone (h : t.Pruned) {waits : WaitGraph} {verdict : WaitGraph.Verdict}
    (hreq : t.waits.request txn page access = (waits, verdict)) :
    (if verdict = .added then waits.withdraw txn page else waits) = t.waits := by
  by_cases hcov : ∃ e ∈ t.waits.on page, e.txn = txn ∧ e.access.covers access = true
  · rw [WaitGraph.request_of_covered hcov] at hreq
    obtain ⟨rfl, rfl⟩ := Prod.mk.inj hreq
    rfl
  · rw [WaitGraph.request_of_uncovered hcov] at hreq
    have hback : (t.waits.list page (t.waits.on page ++ [⟨txn, access⟩])).withdraw txn page =
        t.waits := WaitGraph.withdraw_list_append h.arrivals
    split at hreq <;> obtain ⟨rfl, rfl⟩ := Prod.mk.inj hreq
    · rw [if_neg (by decide), hback]
    · rw [if_pos rfl, hback]

theorem acquire_refused (h : t.Pruned) (hr : (t.acquire txn page access).2 = .refused) :
    (t.acquire txn page access).1 = t := by
  rcases t.acquire_cases txn page access with ⟨-, he⟩ | ⟨-, waits, verdict, hreq, hcase⟩
  · rw [he]
  · rcases hcase with ⟨rfl, he⟩ | ⟨-, -, he⟩ | ⟨-, -, he⟩ <;> rw [he] at hr ⊢
    · have hsame := request_undone h hreq
      rw [if_neg (by decide)] at hsame
      rw [hsame]
    · cases hr
    · cases hr

/-- What a request does that has to wait: it goes to the end of its queue, and to the graph unless
an earlier one there covers it. -/
theorem acquire_waiting {t' : LockTable} {entered : Bool}
    (he : t.acquire txn page access = (t', .waiting entered)) :
    ∃ waits verdict, t.waits.request txn page access = (waits, verdict) ∧
      entered = decide (verdict = .added) ∧ (t.lockOf page).canGrant txn access = false ∧
      t' = store { t with waits } page ((t.lockOf page).enqueue txn access) := by
  rcases t.acquire_cases txn page access with ⟨-, he'⟩ | ⟨-, waits, verdict, hreq, hcase⟩
  · rw [he'] at he
    cases he
  · refine ⟨waits, verdict, hreq, ?_⟩
    rcases hcase with ⟨-, he'⟩ | ⟨-, -, he'⟩ | ⟨-, hg, he'⟩ <;> rw [he'] at he <;> cases he
    exact ⟨rfl, hg, rfl⟩

/-- A request that waits is not granted as long as nothing else happens. -/
theorem tryGrant_waiting {t' : LockTable} {entered : Bool}
    (he : t.acquire txn page access = (t', .waiting entered)) :
    t'.tryGrant txn page access = (t', false) := by
  obtain ⟨waits, verdict, -, -, hg, rfl⟩ := acquire_waiting he
  unfold LockTable.tryGrant
  dsimp only
  rw [lockOf_store, if_pos rfl, PageLock.canGrant_enqueue (Or.inl rfl), hg,
    PageLock.enqueue_eq_self PageLock.exists_mem_enqueue]
  simp only [Bool.false_eq_true, if_false]
  rw [store_store_self _ PageLock.isIdle_enqueue]

/-- A request that waits and gives up at once has changed nothing. -/
theorem giveUp_waiting (h : t.Pruned) (hq : ∀ q ∈ (t.lockOf page).queue, q.txn ≠ txn)
    {t' : LockTable} {entered : Bool} (he : t.acquire txn page access = (t', .waiting entered)) :
    t'.giveUp txn page access entered = (t, false) := by
  obtain ⟨waits, verdict, hreq, rfl, hg, rfl⟩ := acquire_waiting he
  have hlocks : (t.store page ((t.lockOf page).enqueue txn access)).store page (t.lockOf page) =
      t := store_store_lockOf h.locks PageLock.isIdle_enqueue
  have hwaits := request_undone h hreq
  unfold LockTable.giveUp
  dsimp only
  rw [lockOf_store, if_pos rfl, PageLock.canGrant_enqueue (Or.inl rfl), hg,
    PageLock.dequeue_enqueue hq]
  simp only [Bool.false_eq_true, if_false, decide_eq_true_eq]
  refine Prod.ext ?_ rfl
  -- the locks and the graph are put back one beside the other
  change LockTable.mk ((t.store page ((t.lockOf page).enqueue txn access)).store page
    (t.lockOf page)).locks t.held _ = t
  simp only [waits_store]
  rw [hlocks, hwaits]

end LockTable

namespace Locking

variable {s : Locking} {txn : TransactionId} {page : PageId} {access : Access}

/-- Runs in which a transaction has one request open at most are among these. -/
theorem FreelyReachable.arises (h : s.FreelyReachable) : s.table.Arises s.pending.entries := by
  induction h with
  | empty => exact .empty
  | @step s a _ ha ih =>
    cases a with
    | acquire txn page access =>
      have hstep := LockTable.Arises.acquire txn page access ih
      have hnone : s.pending.get? txn = none := isWaiting_eq_false_iff.1 ha
      change (s.acquire txn page access).1.table.Arises
        (s.acquire txn page access).1.pending.entries
      unfold Locking.acquire
      rcases he : s.table.acquire txn page access with ⟨table, answer⟩
      rw [he] at hstep
      cases answer with
      | granted => simpa [Attempt.opened] using hstep
      | refused => simpa [Attempt.opened] using hstep
      | waiting entered =>
        dsimp only
        rw [FinMap.entries_insert_of_get? hnone]
        exact hstep
    | recheck txn =>
      change (s.recheck txn).1.table.Arises (s.recheck txn).1.pending.entries
      unfold Locking.recheck
      rcases hp : s.pending.get? txn with _ | r
      · exact ih
      · have hstep := LockTable.Arises.tryGrant ih ((FinMap.get?_eq_some_iff _ _ _).1 hp)
        dsimp only
        rcases he : s.table.tryGrant txn r.page r.access with ⟨table, granted⟩
        rw [he] at hstep
        cases granted with
        | false => exact hstep
        | true =>
          dsimp only
          rw [FinMap.entries_erase_of_get? hp]
          exact hstep
    | expire txn =>
      change (s.expire txn).1.table.Arises (s.expire txn).1.pending.entries
      unfold Locking.expire
      rcases hp : s.pending.get? txn with _ | r
      · exact ih
      · dsimp only
        rw [FinMap.entries_erase_of_get? hp]
        exact LockTable.Arises.giveUp ih ((FinMap.get?_eq_some_iff _ _ _).1 hp)
    | release txn page => exact .release txn page ih
    | releaseAll txn => exact .releaseAll txn ih

/-- A request that fails in a run leaves the requests that wait as they were, too. -/
theorem request_failed (hp : s.table.Pruned)
    (hq : ∀ q ∈ (s.table.lockOf page).queue, q.txn ≠ txn) {patient : Bool} {e : StoreError}
    (hf : (s.request patient txn page access).2 = .failed e) :
    (s.request patient txn page access).1 = s := by
  revert hf
  unfold request
  split
  · intro hf
    cases hf
  · rename_i hidle
    have hnone : s.pending.get? txn = none := isWaiting_eq_false_iff.1 (by simpa using hidle)
    unfold Locking.acquire
    rcases he : s.table.acquire txn page access with ⟨table, answer⟩
    cases answer with
    | granted =>
      intro hf
      cases hf
    | refused =>
      intro _
      have hsame := LockTable.acquire_refused hp (by rw [he])
      rw [he] at hsame
      exact congrArg (Locking.mk · s.pending) hsame
    | waiting entered =>
      cases patient
      · intro _
        simp only [Bool.false_eq_true, if_false, expire, FinMap.get?_insert_self,
          LockTable.giveUp_waiting hp hq he, FinMap.erase_insert_of_get? hnone]
      · intro hf
        cases hf

end Locking

/-! ## The law -/

namespace LockTable

variable {t : LockTable} {opens : List (TransactionId × PendingLock)}

/-- A failed request has changed nothing. One that is refused leaves the whole table as it was.
One that has to wait, of a transaction without another open request, is not granted by looking at
it again, and when it gives up the table is as before. The same goes for the locks together with
the requests that wait. What is left lists nothing empty. -/
theorem failed_request_changes_nothing (h : t.Arises opens) (txn : TransactionId) (page : PageId)
    (access : Access) :
    ((t.acquire txn page access).2 = .refused → (t.acquire txn page access).1 = t) ∧
    ((∀ e ∈ opens, e.1 ≠ txn) →
      (∀ t' entered, t.acquire txn page access = (t', .waiting entered) →
        t'.tryGrant txn page access = (t', false) ∧
        t'.giveUp txn page access entered = (t, false)) ∧
      ∀ s : Locking, s.table = t → ∀ patient e,
        (s.request patient txn page access).2 = .failed e →
        (s.request patient txn page access).1 = s) ∧
    t.Pruned := by
  have hp := h.accounted.pruned
  refine ⟨acquire_refused hp, fun hnone => ⟨fun t' entered he => ?_, ?_⟩, hp⟩
  · exact ⟨tryGrant_waiting he, giveUp_waiting hp (h.not_queued hnone) he⟩
  · rintro s rfl patient e hf
    exact Locking.request_failed hp (h.not_queued hnone) hf

/-- Two transactions read a page. -/
def shared : LockTable :=
  ((empty.acquire ⟨1⟩ ⟨⟨1⟩, 0⟩ .readOnly).1.acquire ⟨2⟩ ⟨⟨1⟩, 0⟩ .readOnly).1

theorem shared_arises : shared.Arises [] :=
  .acquire ⟨2⟩ ⟨⟨1⟩, 0⟩ .readOnly (.acquire ⟨1⟩ ⟨⟨1⟩, 0⟩ .readOnly .empty)

/-- When the first one asks to write it waits, and gives up as a reader. While it waits the second
one is refused the same, and goes on reading, too. -/
theorem failed_upgrades_leave_readers :
    (shared.acquire ⟨1⟩ ⟨⟨1⟩, 0⟩ .readWrite).2 = .waiting true ∧
    (shared.acquire ⟨1⟩ ⟨⟨1⟩, 0⟩ .readWrite).1.giveUp ⟨1⟩ ⟨⟨1⟩, 0⟩ .readWrite true =
      (shared, false) ∧
    shared.heldMode ⟨1⟩ ⟨⟨1⟩, 0⟩ = some .readOnly ∧
    ((shared.acquire ⟨1⟩ ⟨⟨1⟩, 0⟩ .readWrite).1.acquire ⟨2⟩ ⟨⟨1⟩, 0⟩ .readWrite).2 = .refused ∧
    ((shared.acquire ⟨1⟩ ⟨⟨1⟩, 0⟩ .readWrite).1.acquire ⟨2⟩ ⟨⟨1⟩, 0⟩ .readWrite).1 =
      (shared.acquire ⟨1⟩ ⟨⟨1⟩, 0⟩ .readWrite).1 := by
  have hwaits : (shared.acquire ⟨1⟩ ⟨⟨1⟩, 0⟩ .readWrite).2 = .waiting true := by decide
  have hrefused : ((shared.acquire ⟨1⟩ ⟨⟨1⟩, 0⟩ .readWrite).1.acquire ⟨2⟩ ⟨⟨1⟩, 0⟩
      .readWrite).2 = .refused := by decide
  have hwaiting : (shared.acquire ⟨1⟩ ⟨⟨1⟩, 0⟩ .readWrite).1.Arises _ :=
    .acquire ⟨1⟩ ⟨⟨1⟩, 0⟩ .readWrite shared_arises
  refine ⟨hwaits, ?_, by decide, hrefused, ?_⟩
  · exact (((failed_request_changes_nothing shared_arises ⟨1⟩ ⟨⟨1⟩, 0⟩ .readWrite).2.1
      (by simp)).1 _ true (Prod.ext rfl hwaits)).2
  · exact (failed_request_changes_nothing hwaiting ⟨2⟩ ⟨⟨1⟩, 0⟩ .readWrite).1 hrefused

end LockTable

end PageCache
