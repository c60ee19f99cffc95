-- Runs in which releases come at any time, also from a transaction with a request that waits.
-- What a step does to the locks and the waiting requests, what callers are told of it and who
-- is woken is said once; all laws of such runs go by the cases of it.
import PageCache.Proofs.Along
import PageCache.Proofs.Lock.Runs

namespace PageCache

/-- What a transaction is told when its request is over. -/
inductive LockEvent where
  | granted (txn : TransactionId) (page : PageId) (access : Access)
  /-- The time of the request was over. -/
  | abandoned (txn : TransactionId) (page : PageId) (access : Access)
deriving DecidableEq

/-- The transaction's request for the page is over. -/
def LockEvent.Ends (e : LockEvent) (txn : TransactionId) (page : PageId) (access : Access) : Prop :=
  e = .granted txn page access ∨ e = .abandoned txn page access

/-- The action takes the transaction's lock on the page away, if it has one. -/
def LockAction.frees (txn : TransactionId) (page : PageId) : LockAction → Bool
  | .release t p => t = txn && p = page
  | .releaseAll t => t = txn
  | _ => false

namespace Locking

variable {s s' : Locking} {txn u : TransactionId} {page p : PageId} {access : Access}
  {a : LockAction}

/-! ## Runs -/

/-- A transaction has at most one unfinished request. Releases come at any time. -/
def AdmitsFreely (s : Locking) : LockAction → Prop
  | .acquire txn _ _ => s.isWaiting txn = false
  | _ => True

instance (s : Locking) : (a : LockAction) → Decidable (s.AdmitsFreely a)
  | .acquire txn _ _ => inferInstanceAs (Decidable (s.isWaiting txn = false))
  | .recheck _ | .expire _ | .release .. | .releaseAll _ => instDecidableTrue

/-- The locks that a run of such actions can lead to. -/
inductive FreelyReachable : Locking → Prop where
  | empty : FreelyReachable empty
  | step {s : Locking} (a : LockAction) :
      FreelyReachable s → s.AdmitsFreely a → FreelyReachable (s.perform a)

/-- The locks after some actions, one after the other. -/
def run (s : Locking) (actions : List LockAction) : Locking := actions.foldl perform s

/-- Every step of a run is admitted where it is taken. -/
def AdmitsAllFreely (s : Locking) (actions : List LockAction) : Prop :=
  Along perform AdmitsFreely s actions

instance (s : Locking) (actions : List LockAction) : Decidable (s.AdmitsAllFreely actions) :=
  inferInstanceAs (Decidable (Along perform AdmitsFreely s actions))

theorem run_append (s : Locking) (before after : List LockAction) :
    s.run (before ++ after) = (s.run before).run after := List.foldl_append

/-- A part of a run is admitted if the whole run is. -/
theorem admitsAllFreely_append {before after : List LockAction} :
    s.AdmitsAllFreely (before ++ after) ↔
      s.AdmitsAllFreely before ∧ (s.run before).AdmitsAllFreely after := Along.append_iff

theorem AdmitsFreely.of_admits (h : s.Admits a) : s.AdmitsFreely a := by
  cases a with
  | acquire txn page access => exact h
  | _ => trivial

/-- Runs where nobody releases while it waits are among these. -/
theorem Reachable.freely (h : s.Reachable) : s.FreelyReachable := by
  induction h with
  | empty => exact .empty
  | step a _ ha ih => exact .step a ih (.of_admits ha)

theorem Orderly.perform_freely (h : s.Orderly) (ha : s.AdmitsFreely a) : (s.perform a).Orderly := by
  apply h.perform a
  rintro txn page access rfl
  exact ha

theorem FreelyReachable.orderly (h : s.FreelyReachable) : s.Orderly := by
  induction h with
  | empty => exact Orderly.empty
  | step a _ ha ih => exact ih.perform_freely ha

theorem FreelyReachable.run (h : s.FreelyReachable) {actions : List LockAction}
    (ha : s.AdmitsAllFreely actions) : (s.run actions).FreelyReachable :=
  ha.induction h fun _ a => .step a

/-! ## What a step tells -/

/-- What the transaction of an action is told, if a request of it is over with the action. -/
def told (s : Locking) : LockAction → Option LockEvent
  | .acquire txn page access =>
    match (s.acquire txn page access).2 with
    | .granted => some (.granted txn page access)
    | .refused | .waiting => none
  | .recheck txn => (s.recheck txn).2.map fun r => .granted txn r.page r.access
  | .expire txn => (s.expire txn).2.map fun (r, granted) =>
    if granted then .granted txn r.page r.access else .abandoned txn r.page r.access
  | .release .. | .releaseAll _ => none

/-- The events of a run, in order. -/
def events (s : Locking) : List LockAction → List LockEvent
  | [] => []
  | a :: rest => (s.told a).toList ++ (s.perform a).events rest

theorem events_append (s : Locking) (before after : List LockAction) :
    s.events (before ++ after) = s.events before ++ (s.run before).events after := by
  induction before generalizing s with
  | nil => rfl
  | cons a rest ih =>
    rw [List.cons_append, events, ih, events, List.append_assoc]
    rfl

/-- The action wakes all transactions that wait: something was released, a transaction has
ended, or a request was given up. -/
def notifies (s : Locking) : LockAction → Bool
  | .acquire .. | .recheck _ => false
  | .expire txn => (s.expire txn).2.any fun (_, granted) => !granted
  | .release txn page => ((s.table.lockOf page).release txn).2.isSome
  | .releaseAll _ => true

end Locking

/-! ## Releases -/

namespace PageLock

variable {l : PageLock} {txn : TransactionId}

theorem release_of_not_held (h : l.heldBy txn = none) : l.release txn = (l, none) := by
  unfold heldBy at h
  unfold release
  split at h
  · cases h
  · rename_i hw
    split at h
    · cases h
    · rename_i hr
      rw [if_neg hw, if_neg hr]

theorem heldBy_of_release_none (h : (l.release txn).2 = none) : l.heldBy txn = none := by
  unfold release at h
  unfold heldBy
  split at h
  · cases h
  · rename_i hw
    split at h
    · cases h
    · rename_i hr
      rw [if_neg hw, if_neg hr]

/-- A second release finds nothing. -/
theorem release_release (h : l.Exclusive) :
    ((l.release txn).1.release txn).1 = (l.release txn).1 := by
  rw [release_of_not_held (by rw [heldBy_release h, if_pos rfl])]

end PageLock

namespace LockTable

variable {t : LockTable} {txn : TransactionId} {p : PageId}

theorem lockOf_releaseList (h : t.Tidy) (pages : List PageId) :
    (pages.foldl (fun t page => t.release txn page) t).lockOf p =
      if p ∈ pages then ((t.lockOf p).release txn).1 else t.lockOf p := by
  induction pages generalizing t with
  | nil => simp
  | cons page rest ih =>
    rw [List.foldl_cons, ih (tidy_release h), lockOf_release]
    by_cases hp : p = page
    · subst hp
      simp [PageLock.release_release (h.exclusive p)]
    · simp [hp]

/-- The end of a transaction releases every lock, those that it does not hold too. -/
theorem lockOf_releaseAll (h : t.Tidy) :
    (t.releaseAll txn).lockOf p = ((t.lockOf p).release txn).1 := by
  have hlist : (t.releaseAll txn).lockOf p =
      if p ∈ t.heldPages txn then ((t.lockOf p).release txn).1 else t.lockOf p :=
    lockOf_releaseList h _
  rw [hlist]
  split
  · rfl
  · rename_i hp
    have hnone : (t.lockOf p).heldBy txn = none := by
      simpa [heldMode] using (not_iff_not.2 (h.mem_heldPages txn p)).1 hp
    rw [PageLock.release_of_not_held hnone]

end LockTable

/-! ## What a step does -/

namespace Locking

variable {s s' : Locking} {txn u : TransactionId} {page p : PageId} {access : Access}
  {a : LockAction}

/-- What a step does to the locks and the waiting requests, and what is told of it. -/
inductive LockEffect (s : Locking) (a : LockAction) (s' : Locking) : Option LockEvent → Prop where
  /-- A request is refused or goes on waiting, or nothing was there to release. -/
  | same (locks : ∀ p, s'.table.lockOf p = s.table.lockOf p) (pending : s'.pending = s.pending) :
      LockEffect s a s' none
  /-- What the transaction holds is enough. -/
  | covered {txn : TransactionId} {page : PageId} {access : Access}
      (hold : (s.table.heldMode txn page).any (·.covers access) = true)
      (locks : ∀ p, s'.table.lockOf p = s.table.lockOf p) (pending : s'.pending = s.pending) :
      LockEffect s a s' (some (.granted txn page access))
  | queued {txn : TransactionId} {page : PageId} {access : Access} {entered : Bool}
      (idle : s.pending.get? txn = none)
      (blocked : (s.table.lockOf page).canGrant txn access = false)
      (locks : ∀ p, s'.table.lockOf p =
        if p = page then (s.table.lockOf page).enqueue txn access else s.table.lockOf p)
      (pending : s'.pending = s.pending.insert txn ⟨page, access, entered⟩) :
      LockEffect s a s' none
  /-- A new request or a waiting one is granted. -/
  | granted {txn : TransactionId} {page : PageId} {access : Access}
      (asked : ∀ r, s.pending.get? txn = some r → r.page = page ∧ r.access = access)
      (uncovered : (s.table.heldMode txn page).any (·.covers access) = false)
      (allowed : (s.table.lockOf page).canGrant txn access = true)
      (locks : ∀ p, s'.table.lockOf p =
        if p = page then (s.table.lockOf page).grant txn access else s.table.lockOf p)
      (pending : ∀ u, s'.pending.get? u = if u = txn then none else s.pending.get? u) :
      LockEffect s a s' (some (.granted txn page access))
  | abandoned {txn : TransactionId} {r : PendingLock} (loud : s.notifies a = true)
      (waits : s.pending.get? txn = some r)
      (locks : ∀ p, s'.table.lockOf p =
        if p = r.page then (s.table.lockOf r.page).dequeue txn else s.table.lockOf p)
      (pending : s'.pending = s.pending.erase txn) :
      LockEffect s a s' (some (.abandoned txn r.page r.access))
  | released {txn : TransactionId} (loud : s.notifies a = true)
      (own : ∀ u p, a.frees u p = true → u = txn)
      (locks : ∀ p, s'.table.lockOf p =
        if a.frees txn p = true then ((s.table.lockOf p).release txn).1 else s.table.lockOf p)
      (pending : s'.pending = s.pending) : LockEffect s a s' none

theorem asked_of_pending {r : PendingLock} (hp : s.pending.get? txn = some r) :
    ∀ q, s.pending.get? txn = some q → q.page = r.page ∧ q.access = r.access := by
  intro q hq
  rw [hp, Option.some.injEq] at hq
  rw [hq]
  exact ⟨rfl, rfl⟩

theorem effect_acquire (hw : s.pending.get? txn = none) :
    s.LockEffect (.acquire txn page access) (s.acquire txn page access).1
      (s.told (.acquire txn page access)) := by
  rw [told]
  rcases s.acquire_cases txn page access with ⟨hc, he⟩ | ⟨hu, waits, verdict, -, hcase⟩
  · rw [he]
    exact .covered hc (fun _ => rfl) rfl
  · rcases hcase with ⟨-, he⟩ | ⟨-, hg, he⟩ | ⟨-, hg, he⟩
    · rw [he]
      exact .same (fun _ => rfl) rfl
    · rw [he]
      refine .granted ?_ hu hg (fun _ => LockTable.lockOf_grant) ?_
      · intro r hr
        rw [hw] at hr
        cases hr
      · intro u
        split
        · rename_i hut
          rw [hut]
          exact hw
        · rfl
    · rw [he]
      exact .queued hw hg (fun _ => LockTable.lockOf_store _) rfl

theorem effect_release (s : Locking) (txn : TransactionId) (page : PageId) :
    s.LockEffect (.release txn page) (s.release txn page) (s.told (.release txn page)) := by
  rcases hrel : ((s.table.lockOf page).release txn).2 with _ | m
  · have hnone := PageLock.heldBy_of_release_none hrel
    refine .same (fun p => ?_) rfl
    rw [Locking.release, LockTable.lockOf_release, PageLock.release_of_not_held hnone]
    split
    · rename_i hp
      rw [hp]
    · rfl
  · have hloud : s.notifies (.release txn page) = true := by
      rw [notifies, hrel]
      rfl
    have hown : ∀ u p, (LockAction.release txn page).frees u p = true → u = txn := by
      intro u p hf
      simp only [LockAction.frees, Bool.and_eq_true, decide_eq_true_eq] at hf
      exact hf.1.symm
    refine .released hloud hown (fun p => ?_) rfl
    rw [Locking.release, LockTable.lockOf_release]
    by_cases hp : p = page
    · simp [LockAction.frees, hp]
    · simp [LockAction.frees, hp, Ne.symm hp]

namespace Orderly

theorem effect_recheck (h : s.Orderly) (txn : TransactionId) :
    s.LockEffect (.recheck txn) (s.recheck txn).1 (s.told (.recheck txn)) := by
  rw [told]
  rcases s.recheck_cases txn with ⟨-, he⟩ | ⟨r, hp, ⟨hg, he⟩ | ⟨-, he⟩⟩
  · rw [he]
    exact .same (fun _ => rfl) rfl
  · rw [he]
    exact .granted (asked_of_pending hp) (h.uncovered txn r hp) hg (fun _ => LockTable.lockOf_grant)
      (fun u => FinMap.get?_erase _ _ _)
  · rw [he]
    exact .same (h.lockOf_recheck hp) rfl

theorem effect_expire (h : s.Orderly) (txn : TransactionId) :
    s.LockEffect (.expire txn) (s.expire txn).1 (s.told (.expire txn)) := by
  rw [told]
  rcases s.expire_cases txn with ⟨-, he⟩ | ⟨r, hp, ⟨hg, he⟩ | ⟨-, he⟩⟩
  · rw [he]
    exact .same (fun _ => rfl) rfl
  · rw [he]
    exact .granted (asked_of_pending hp) (h.uncovered txn r hp) hg (fun _ => LockTable.lockOf_grant)
      (fun u => FinMap.get?_erase _ _ _)
  · have hloud : s.notifies (.expire txn) = true := by
      rw [notifies, he]
      rfl
    rw [he]
    exact .abandoned hloud hp (fun _ => LockTable.lockOf_store _) rfl

theorem effect_releaseAll (h : s.Orderly) (txn : TransactionId) :
    s.LockEffect (.releaseAll txn) (s.releaseAll txn) (s.told (.releaseAll txn)) := by
  have hown : ∀ u p, (LockAction.releaseAll txn).frees u p = true → u = txn :=
    fun u p hf => (of_decide_eq_true hf).symm
  refine .released rfl hown (fun p => ?_) rfl
  rw [Locking.releaseAll, LockTable.lockOf_releaseAll h.tidy]
  simp [LockAction.frees]

theorem effect (h : s.Orderly) (ha : s.AdmitsFreely a) :
    s.LockEffect a (s.perform a) (s.told a) := by
  cases a with
  | acquire txn page access => exact effect_acquire (isWaiting_eq_false_iff.1 ha)
  | recheck txn => exact h.effect_recheck txn
  | expire txn => exact h.effect_expire txn
  | release txn page => exact effect_release s txn page
  | releaseAll txn => exact h.effect_releaseAll txn

end Orderly

/-! ## Holders and waiting requests after a step -/

namespace LockEffect

variable {told : Option LockEvent}

/-- A holding changes when a request of the transaction is granted, or by its own release. -/
theorem heldMode_cases (e : s.LockEffect a s' told) (h : s.Orderly) (u : TransactionId)
    (p : PageId) :
    s'.table.heldMode u p = s.table.heldMode u p ∨
    (∃ access, (s.table.lockOf p).canGrant u access = true ∧ s'.pending.get? u = none ∧
      s'.table.heldMode u p = some access) ∨
    (a.frees u p = true ∧ s'.table.heldMode u p = none) := by
  simp only [LockTable.heldMode]
  cases e with
  | same locks _ => exact Or.inl (by rw [locks p])
  | covered _ locks _ => exact Or.inl (by rw [locks p])
  | queued _ _ locks _ =>
    left
    rw [locks p]
    split
    · rename_i hp
      rw [PageLock.heldBy_enqueue, hp]
    · rfl
  | @granted txn page access _ uncovered allowed locks pending =>
    by_cases hp : p = page
    · subst hp
      have hallow : (s.table.lockOf p).holdersAllow txn access = true := by
        simp only [PageLock.canGrant, Bool.and_eq_true] at allowed
        exact allowed.1
      have hheld := PageLock.heldBy_grant (u := u) hallow
        (PageLock.not_writer_of_uncovered uncovered)
      rw [locks p, if_pos rfl, hheld]
      by_cases hu : u = txn
      · subst hu
        exact Or.inr (Or.inl ⟨access, allowed, by rw [pending, if_pos rfl], if_pos rfl⟩)
      · exact Or.inl (if_neg hu)
    · exact Or.inl (by rw [locks p, if_neg hp])
  | abandoned _ _ locks _ =>
    left
    rw [locks p]
    split
    · rename_i hp
      rw [PageLock.heldBy_dequeue, hp]
    · rfl
  | @released txn _ own locks _ =>
    rw [locks p]
    split
    · rename_i hf
      rw [PageLock.heldBy_release (h.tidy.exclusive p)]
      by_cases hu : u = txn
      · subst hu
        exact Or.inr (Or.inr ⟨hf, if_pos rfl⟩)
      · exact Or.inl (if_neg hu)
    · exact Or.inl rfl

/-- A waiting request goes on waiting, or it is over and its transaction is told so. -/
theorem pending_cases (e : s.LockEffect a s' told) {r : PendingLock}
    (hp : s.pending.get? u = some r) :
    s'.pending.get? u = some r ∨ ∃ o, told = some o ∧ o.Ends u r.page r.access := by
  cases e with
  | same _ pending => exact Or.inl (pending ▸ hp)
  | covered _ _ pending => exact Or.inl (pending ▸ hp)
  | queued idle _ _ pending =>
    left
    rw [pending, FinMap.get?_insert, if_neg, hp]
    rintro rfl
    rw [idle] at hp
    cases hp
  | @granted txn page access asked _ _ _ pending =>
    by_cases hu : u = txn
    · subst hu
      obtain ⟨rfl, rfl⟩ := asked r hp
      exact Or.inr ⟨_, rfl, Or.inl rfl⟩
    · exact Or.inl (by rw [pending, if_neg hu, hp])
  | @abandoned txn q _ waits _ pending =>
    by_cases hu : u = txn
    · subst hu
      rw [waits, Option.some.injEq] at hp
      subst hp
      exact Or.inr ⟨_, rfl, Or.inr rfl⟩
    · exact Or.inl (by rw [pending, FinMap.get?_erase, if_neg hu, hp])
  | released _ _ _ pending => exact Or.inl (pending ▸ hp)

/-- A request that stands ahead of a transaction stays ahead of it, or is over. -/
theorem ahead_cases (e : s.LockEffect a s' told) (h : s.Orderly) {r : LockRequest}
    (hr : r ∈ (s.table.lockOf p).ahead u) :
    r ∈ (s'.table.lockOf p).ahead u ∨ ∃ o, told = some o ∧ o.Ends r.txn p r.access := by
  obtain ⟨entered, hp⟩ := (h.mem_queue_iff p r).1 (PageLock.mem_queue_of_mem_ahead hr)
  rcases e.pending_cases hp with hstays | hover
  · left
    cases e with
    | same locks _ => exact locks p ▸ hr
    | covered _ locks _ => exact locks p ▸ hr
    | queued _ _ locks _ =>
      rw [locks p]
      split
      · rename_i hpage
        exact PageLock.mem_ahead_enqueue (hpage ▸ hr)
      · exact hr
    | @granted txn page access _ _ _ locks pending =>
      have hne : r.txn ≠ txn := by
        intro heq
        rw [pending, if_pos heq] at hstays
        cases hstays
      rw [locks p]
      split
      · rename_i hpage
        rw [PageLock.ahead_grant]
        exact PageLock.mem_ahead_dequeue (hpage ▸ hr) hne
      · exact hr
    | @abandoned txn q _ _ locks pending =>
      have hne : r.txn ≠ txn := by
        intro heq
        rw [pending, FinMap.get?_erase, if_pos heq] at hstays
        cases hstays
      rw [locks p]
      split
      · rename_i hpage
        exact PageLock.mem_ahead_dequeue (hpage ▸ hr) hne
      · exact hr
    | released _ _ locks _ =>
      rw [locks p]
      split
      · rw [PageLock.ahead_congr PageLock.queue_release]
        exact hr
      · exact hr
  · exact Or.inr hover

end LockEffect

end Locking

end PageCache
