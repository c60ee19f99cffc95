-- No deadlock goes undetected. The graph of waits never looks at a holder or a queue; it
-- keeps lists of arrivals of its own. After every step each list is in step with the lock
-- of its page, so whoever really waits for another transaction is behind it in the graph,
-- and the graph has no cycle.
import PageCache.Proofs.Lock.Runs

namespace PageCache

open Relation

namespace Locking

variable {s : Locking} {txn : TransactionId} {page : PageId} {access : Access}

/-! ## The graph follows the locks -/

/-- The queues are in order, every waiting request was entered into the graph, each list of
arrivals is in step with the lock of its page, and the graph has no cycle. -/
structure Traced (s : Locking) : Prop where
  orderly : s.Orderly
  entered : ∀ txn r, s.pending.get? txn = some r → r.entered = true
  in_step : ∀ page, InStep (s.table.lockOf page) (s.table.waits.on page)
  acyclic : s.table.waits.IsAcyclic

namespace Traced

theorem empty : Locking.empty.Traced where
  orderly := Orderly.empty
  entered _ _ hp := by simp [Locking.empty] at hp
  in_step _ := InStep.free_nil
  acyclic := WaitGraph.isAcyclic_empty

theorem acquire (h : s.Traced) (hw : s.pending.get? txn = none) :
    (s.acquire txn page access).1.Traced := by
  have hord : (s.acquire txn page access).1.Orderly := h.orderly.acquire hw
  have hq := h.orderly.not_queued hw page
  rcases s.acquire_cases txn page access with ⟨-, he⟩ | ⟨hu, waits, verdict, hreq, hcase⟩
  · rw [he]
    exact h
  · rcases s.table.waits.request_cases txn page access with
      ⟨⟨r, hr, ht, hc⟩, -⟩ | ⟨-, g', hg', hon⟩ | ⟨-, g', hg', hacyc, hon⟩
    · -- the list would say that the transaction holds or waits for enough
      have := (h.in_step page).not_covered hq hu r hr ht
      rw [hc] at this
      cases this
    · rw [hreq, Prod.mk.injEq] at hg'
      obtain ⟨rfl, rfl⟩ := hg'
      rcases hcase with ⟨-, he⟩ | ⟨hne, -⟩ | ⟨hne, -⟩
      · rw [he] at hord ⊢
        refine ⟨hord, h.entered, ?_, ?_⟩
        · intro p
          simp only [hon p]
          exact h.in_step p
        · exact WaitGraph.isAcyclic_of_sublist h.acyclic fun p => by
            simp only [hon p]
            exact List.Sublist.refl _
      · exact absurd rfl hne
      · exact absurd rfl hne
    · rw [hreq, Prod.mk.injEq] at hg'
      obtain ⟨rfl, rfl⟩ := hg'
      rcases hcase with ⟨hne, -⟩ | ⟨-, hg, he⟩ | ⟨-, -, he⟩
      · cases hne
      · rw [he] at hord ⊢
        refine ⟨hord, h.entered, ?_, hacyc⟩
        intro p
        simp only [LockTable.waits_grant, LockTable.lockOf_grant, hon p]
        split
        · exact (h.in_step page).grant_now hq hu hg
        · exact h.in_step p
      · rw [he] at hord ⊢
        refine ⟨hord, ?_, ?_, hacyc⟩
        · intro v r hp
          simp only [FinMap.get?_insert] at hp
          split at hp
          · cases hp
            rfl
          · exact h.entered v r hp
        · intro p
          simp only [LockTable.waits_store, LockTable.lockOf_store, hon p]
          split
          · exact (h.in_step page).enqueue hq hu
          · exact h.in_step p

theorem grant_queued (h : s.Traced) {r : PendingLock} (hp : s.pending.get? txn = some r)
    (hg : (s.table.lockOf r.page).canGrant txn r.access = true) :
    Traced ⟨s.table.grant txn r.page r.access, s.pending.erase txn⟩ where
  orderly := h.orderly.grant_queued hp hg
  entered v x hv := by
    simp only [FinMap.get?_erase] at hv
    split at hv
    · cases hv
    · exact h.entered v x hv
  in_step p := by
    simp only [LockTable.waits_grant, LockTable.lockOf_grant]
    split
    · rename_i hpage
      rw [hpage]
      exact (h.in_step r.page).grant_queued (h.orderly.queue_nodup r.page) (h.orderly.queued hp)
        (h.orderly.uncovered txn r hp) hg
    · exact h.in_step p
  acyclic := h.acyclic

theorem recheck (h : s.Traced) (txn : TransactionId) : (s.recheck txn).1.Traced := by
  have hord := h.orderly.recheck txn
  rcases s.recheck_cases txn with ⟨-, he⟩ | ⟨r, hp, ⟨hg, he⟩ | ⟨-, he⟩⟩
  · rw [he]
    exact h
  · rw [he]
    exact h.grant_queued hp hg
  · rw [he] at hord ⊢
    refine ⟨hord, h.entered, ?_, h.acyclic⟩
    intro p
    simp only [h.orderly.lockOf_recheck hp, LockTable.waits_store]
    exact h.in_step p

theorem expire (h : s.Traced) (txn : TransactionId) : (s.expire txn).1.Traced := by
  have hord := h.orderly.expire txn
  rcases s.expire_cases txn with ⟨-, he⟩ | ⟨r, hp, ⟨hg, he⟩ | ⟨-, he⟩⟩
  · rw [he]
    exact h
  · rw [he]
    exact h.grant_queued hp hg
  · rw [he] at hord ⊢
    rw [h.entered txn r hp] at hord ⊢
    refine ⟨hord, ?_, ?_, ?_⟩
    · intro v x hv
      simp only [FinMap.get?_erase] at hv
      split at hv
      · cases hv
      · exact h.entered v x hv
    · intro p
      have hlock : LockTable.lockOf
          { s.table.store r.page ((s.table.lockOf r.page).dequeue txn) with
            waits := s.table.waits.withdraw txn r.page } p =
          if p = r.page then (s.table.lockOf r.page).dequeue txn else s.table.lockOf p :=
        LockTable.lockOf_store _
      simp only [if_true, hlock, WaitGraph.on_withdraw]
      split
      · exact (h.in_step r.page).abandon (h.orderly.queue_nodup r.page) (h.orderly.queued hp)
          (h.orderly.uncovered txn r hp)
      · exact h.in_step p
    · exact WaitGraph.isAcyclic_of_sublist h.acyclic WaitGraph.on_withdraw_sublist

theorem release (h : s.Traced) (hw : s.pending.get? txn = none) (page : PageId) :
    (s.release txn page).Traced where
  orderly := h.orderly.release txn page
  entered := h.entered
  in_step p := by
    simp only [Locking.release, LockTable.waits_release, LockTable.lockOf_release,
      WaitGraph.on_release]
    split
    · exact (h.in_step page).forget (h.orderly.not_queued hw page) PageLock.queue_release
        fun _ => PageLock.heldBy_release (h.orderly.tidy.exclusive page)
    · exact h.in_step p
  acyclic := WaitGraph.isAcyclic_of_sublist h.acyclic WaitGraph.on_release_sublist

theorem releaseList (h : s.Traced) (hw : s.pending.get? txn = none) (pages : List PageId) :
    Traced { s with table := pages.foldl (fun t page => t.release txn page) s.table } := by
  induction pages generalizing s with
  | nil => exact h
  | cons page rest ih => exact ih (h.release hw page) hw

theorem releaseAll (h : s.Traced) (hw : s.pending.get? txn = none) : (s.releaseAll txn).Traced := by
  have hlist := h.releaseList hw (s.table.heldPages txn)
  refine ⟨h.orderly.releaseAll txn, h.entered, ?_, ?_⟩
  · intro p
    have hon : (s.releaseAll txn).table.waits.on p =
        ((List.foldl (fun t page => t.release txn page) s.table
          (s.table.heldPages txn)).waits.on p).filter (·.txn ≠ txn) := WaitGraph.on_forget
    rw [hon]
    apply (hlist.in_step p).forget (hlist.orderly.not_queued hw p) rfl
    intro u
    have hall : (s.releaseAll txn).table.heldMode u p = _ :=
      LockTable.heldMode_releaseAll h.orderly.tidy
    have hnone : u = txn → (s.releaseAll txn).table.heldMode u p = none := by
      intro hu
      rw [hall, if_pos hu]
    split
    · rename_i hu
      exact hnone hu
    · rfl
  · exact WaitGraph.isAcyclic_of_sublist hlist.acyclic WaitGraph.on_forget_sublist

theorem perform (h : s.Traced) (a : LockAction) (ha : s.Admits a) : (s.perform a).Traced := by
  cases a with
  | acquire txn page access => exact h.acquire (isWaiting_eq_false_iff.1 ha)
  | recheck txn => exact h.recheck txn
  | expire txn => exact h.expire txn
  | release txn page => exact h.release (isWaiting_eq_false_iff.1 ha) page
  | releaseAll txn => exact h.releaseAll (isWaiting_eq_false_iff.1 ha)

end Traced

theorem Reachable.traced (h : s.Reachable) : s.Traced := by
  induction h with
  | empty => exact Traced.empty
  | step a _ ha ih => exact ih.perform a ha

/-! ## Real waits -/

/-- A transaction `t` waits for `u`: it has a request in the queue of a page that `u` holds in
a way that excludes it, or where `u` has a request ahead that excludes it. -/
def WaitsFor (s : Locking) (t u : TransactionId) : Prop :=
  ∃ page access ahead behind, (s.table.lockOf page).queue = ahead ++ ⟨t, access⟩ :: behind ∧
    u ≠ t ∧ ((∃ m, s.table.heldMode u page = some m ∧ m.compatible access = false) ∨
      ∃ r ∈ ahead, r.txn = u ∧ r.access.compatible access = false)

/-- Whoever waits for a transaction is behind it in a graph that is in step with the locks. -/
theorem behind_of_waitsFor {g : WaitGraph} (hin : ∀ page, InStep (s.table.lockOf page) (g.on page))
    {t u : TransactionId} (hw : s.WaitsFor t u) : g.Behind u t := by
  obtain ⟨page, access, ahead, behind, hq, hne, hcase⟩ := hw
  rcases hcase with ⟨m, hm, hc⟩ | ⟨r, hr, rfl, hc⟩
  · have hconf : LockRequest.conflicts ⟨u, m⟩ ⟨t, access⟩ = true := by
      simp [LockRequest.conflicts, hne, hc]
    have hmem : (⟨t, access⟩ : LockRequest) ∈
        (s.table.lockOf page).queue.filter (LockRequest.conflicts ⟨u, m⟩) := by
      rw [List.mem_filter, hq]
      exact ⟨by simp, hconf⟩
    have hsub := (hin page).holder_first ⟨u, m⟩ hm
    have hpair := (List.singleton_sublist.2 hmem).cons_cons (⟨u, m⟩ : LockRequest)
    exact WaitGraph.behind_of_sublist (hpair.trans hsub) hconf
  · have hconf : r.conflicts ⟨t, access⟩ = true := by
      simp [LockRequest.conflicts, hne, hc]
    have hsub : [r, ⟨t, access⟩].Sublist (s.table.lockOf page).queue := by
      rw [hq]
      exact (List.singleton_sublist.2 hr).append (List.singleton_sublist.2 (by simp))
    exact WaitGraph.behind_of_sublist (hsub.trans (hin page).queue_sublist) hconf

theorem Traced.waits_acyclic (h : s.Traced) (t : TransactionId) : ¬ TransGen s.WaitsFor t t := by
  intro ht
  have hle : s.WaitsFor ≤ Function.swap s.table.waits.Behind := by
    intro _ _ hw
    exact behind_of_waitsFor h.in_step hw
  exact h.acyclic t (transGen_swap.1 (TransGen.mono hle t t ht))

/-- A waiting request that cannot be granted waits for somebody, who waits or holds a page. -/
theorem Orderly.exists_waitsFor (h : s.Orderly) {r : PendingLock}
    (hp : s.pending.get? txn = some r) (hg : s.isGrantable txn r = false) :
    ∃ u, s.WaitsFor txn u ∧ (s.isWaiting u = true ∨ s.table.holds u r.page = true) := by
  obtain ⟨before, after, hsplit⟩ := List.append_of_mem (h.queued hp)
  have hbefore : ∀ x ∈ before, x.txn ≠ txn := by
    have hnd := h.queue_nodup r.page
    rw [hsplit, List.map_append, List.map_cons, List.nodup_append] at hnd
    exact fun x hx => hnd.2.2 _ (List.mem_map_of_mem hx) _ (by simp)
  have hahead : (s.table.lockOf r.page).ahead txn = before := by
    rw [PageLock.ahead, hsplit, List.takeWhile_append_of_pos (by simpa using hbefore)]
    simp
  rw [isGrantable, PageLock.canGrant, Bool.and_eq_false_iff, hahead, List.all_eq_false] at hg
  rcases hg with hg | ⟨x, hx, hc⟩
  · obtain ⟨u, m, hne, hm, hc⟩ := PageLock.exists_excluding_holder (h.tidy.exclusive r.page) hg
    refine ⟨u, ⟨r.page, r.access, before, after, hsplit, hne, Or.inl ⟨m, hm, hc⟩⟩, Or.inr ?_⟩
    rw [LockTable.holds_iff, LockTable.heldMode, hm]
    simp
  · refine ⟨x.txn, ⟨r.page, r.access, before, after, hsplit, hbefore x hx,
      Or.inr ⟨x, hx, rfl, by simpa using hc⟩⟩, Or.inl ?_⟩
    obtain ⟨entered, hpx⟩ := (h.mem_queue_iff r.page x).1 (by rw [hsplit]; simp [hx])
    exact isWaiting_iff.2 ⟨_, hpx⟩

/-- Where only waiting transactions hold anything, one of them can go on. -/
theorem Traced.exists_grantable (h : s.Traced)
    (hholds : ∀ u p, s.table.holds u p = true → s.isWaiting u = true)
    (hne : ∃ t, s.isWaiting t = true) :
    ∃ t r, s.pending.get? t = some r ∧ s.isGrantable t r = true := by
  by_contra hno
  push Not at hno
  obtain ⟨t, ht⟩ := hne
  have hmem : ∀ u, u ∈ s.pending.keys ↔ s.isWaiting u = true := by
    intro u
    rw [FinMap.mem_keys_iff, isWaiting_iff]
  obtain ⟨u, -, hu⟩ := exists_cycle_of_predecessors (r := Function.swap s.WaitsFor) s.pending.keys
    (List.ne_nil_of_mem ((hmem t).2 ht)) fun u hu => by
      obtain ⟨r, hr⟩ := isWaiting_iff.1 ((hmem u).1 hu)
      obtain ⟨v, hv, hor⟩ := h.orderly.exists_waitsFor hr (by simpa using hno u r hr)
      exact ⟨v, (hmem v).2 (hor.elim id (hholds v r.page)), hv⟩
  exact h.waits_acyclic u (transGen_swap.1 hu)

/-! ## Everybody who can release does -/

theorem isWaiting_releaseAll (u : TransactionId) : (s.releaseAll txn).isWaiting u = s.isWaiting u :=
  rfl

theorem isWaiting_foldl_releaseAll (idle : List TransactionId) (u : TransactionId) :
    (idle.foldl releaseAll s).isWaiting u = s.isWaiting u := by
  induction idle generalizing s with
  | nil => rfl
  | cons txn rest ih => rw [List.foldl_cons, ih, isWaiting_releaseAll]

theorem Traced.foldl_releaseAll (h : s.Traced) {idle : List TransactionId}
    (hidle : ∀ t ∈ idle, s.isWaiting t = false) : (idle.foldl Locking.releaseAll s).Traced := by
  induction idle generalizing s with
  | nil => exact h
  | cons txn rest ih =>
    apply ih (h.releaseAll (isWaiting_eq_false_iff.1 (hidle txn (by simp))))
    intro t ht
    rw [isWaiting_releaseAll]
    exact hidle t (by simp [ht])

theorem holds_foldl_releaseAll (h : s.Orderly) (idle : List TransactionId) (u : TransactionId)
    (p : PageId) : (idle.foldl releaseAll s).table.holds u p = true ↔
      u ∉ idle ∧ s.table.holds u p = true := by
  induction idle generalizing s with
  | nil => simp
  | cons txn rest ih =>
    rw [List.foldl_cons, ih (h.releaseAll txn), List.mem_cons, LockTable.holds_iff,
      LockTable.holds_iff]
    have hheld : (s.releaseAll txn).table.heldMode u p = _ := LockTable.heldMode_releaseAll h.tidy
    rw [hheld]
    by_cases hu : u = txn <;> simp [hu]

/-! ## The law -/

/-- In every state that a run can reach, the waits among transactions have no cycle. So when
everybody who does not wait gives up all locks, one of those who wait can go on. -/
theorem no_deadlock_goes_undetected (h : s.Reachable) :
    (∀ t, ¬ TransGen s.WaitsFor t t) ∧
      ∀ idle : List TransactionId, (∀ t ∈ idle, s.isWaiting t = false) →
        (∀ t p, s.table.holds t p = true → s.isWaiting t = false → t ∈ idle) →
        (∃ t, s.isWaiting t = true) →
        ∃ t r, (idle.foldl releaseAll s).pending.get? t = some r ∧
          (idle.foldl releaseAll s).isGrantable t r = true := by
  refine ⟨h.traced.waits_acyclic, ?_⟩
  intro idle hidle hall hne
  apply (h.traced.foldl_releaseAll hidle).exists_grantable
  · intro u p hu
    rw [holds_foldl_releaseAll h.orderly] at hu
    rw [isWaiting_foldl_releaseAll]
    by_contra hw
    exact hu.1 (hall u p hu.2 (by simpa using hw))
  · simpa only [isWaiting_foldl_releaseAll] using hne

/-- Two writers hold a page each. The second asks for the page of the first and waits; the first
asks for the page of the second, which would close the circle, and is refused. -/
def crossing : Locking :=
  (((empty.perform (.acquire ⟨1⟩ ⟨⟨1⟩, 0⟩ .readWrite)).perform
    (.acquire ⟨2⟩ ⟨⟨1⟩, 1⟩ .readWrite)).perform
    (.acquire ⟨2⟩ ⟨⟨1⟩, 0⟩ .readOnly)).perform (.acquire ⟨1⟩ ⟨⟨1⟩, 1⟩ .readOnly)

theorem crossing_reachable : crossing.Reachable :=
  .step _ (.step _ (.step _ (.step _ .empty (by decide)) (by decide)) (by decide)) (by decide)

/-- The one that waits can go on once the other one has released. -/
theorem no_deadlock_in_crossing :
    crossing.isWaiting ⟨2⟩ = true ∧
      ∃ t r, (crossing.releaseAll ⟨1⟩).pending.get? t = some r ∧
        (crossing.releaseAll ⟨1⟩).isGrantable t r = true := by
  refine ⟨by decide, ?_⟩
  refine (no_deadlock_goes_undetected crossing_reachable).2 [⟨1⟩] (by decide) ?_ ⟨⟨2⟩, by decide⟩
  intro t p hold hidle
  have hlisted : ∀ t ∈ crossing.table.held.keys, crossing.isWaiting t = false →
      t ∈ [(⟨1⟩ : TransactionId)] := by decide
  exact hlisted t (crossing_reachable.orderly.tidy.mem_keys_held hold) hidle

end Locking

end PageCache
