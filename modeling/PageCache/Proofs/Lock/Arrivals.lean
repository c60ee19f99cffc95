-- The lists of arrivals after each operation on the graph of waits, and how the list of a
-- page is tied to the lock of the page: the queue stands in the list in its order, and
-- every holder stands there before the requests that it keeps waiting.
import PageCache.Proofs.Lock.Elimination
import PageCache.Proofs.Lock.Holding

namespace PageCache

open Relation

/-! ## Lists without a last request -/

namespace WaitGraph

variable {l s : List LockRequest} {r : LockRequest} {txn : TransactionId}

theorem dropLast_append_self (access : Access) : dropLast txn (l ++ [⟨txn, access⟩]) = l := by
  simp [dropLast]

theorem dropLast_sublist : (dropLast txn l).Sublist l := by
  have h := List.Sublist.reverse (List.eraseP_sublist (p := fun r => r.txn = txn) (l := l.reverse))
  rwa [List.reverse_reverse] at h

/-- The last request of a transaction splits the list; behind it there is none of its. -/
theorem exists_split_of_getLast? (h : (l.filter (·.txn = txn)).getLast? = some r) :
    ∃ a b, l = a ++ r :: b ∧ (∀ x ∈ b, x.txn ≠ txn) ∧ dropLast txn l = a ++ b := by
  have hr : r.txn = txn := by
    have := List.mem_filter.1 (List.mem_of_getLast? h)
    simpa using this.2
  induction l using List.reverseRecOn with
  | nil => simp at h
  | append_singleton l x ih =>
    by_cases hx : x.txn = txn
    · simp only [List.filter_append, List.filter_cons, hx, decide_true, if_true,
        List.filter_nil, List.getLast?_append, List.getLast?_singleton, Option.some_or,
        Option.some.injEq] at h
      subst h
      exact ⟨l, [], rfl, by simp, by simp [dropLast, hx]⟩
    · simp only [List.filter_append, List.filter_cons, hx, decide_false, List.filter_nil,
        List.append_nil, Bool.false_eq_true, if_false] at h
      obtain ⟨a, b, rfl, hb, hd⟩ := ih h
      refine ⟨a, b ++ [x], by simp, ?_, ?_⟩
      · intro y hy
        rcases List.mem_append.1 hy with hy | hy
        · exact hb y hy
        · rw [List.mem_singleton.1 hy]
          exact hx
      · have hstep : dropLast txn (a ++ r :: b ++ [x]) = dropLast txn (a ++ r :: b) ++ [x] := by
          simp [dropLast, hx]
        rw [hstep, hd, List.append_assoc]

/-- Taking a request out of a list leaves every sublist that does without it. -/
theorem sublist_append_of_not_mem {a b : List LockRequest} (h : s.Sublist (a ++ r :: b))
    (hr : r ∉ s) : s.Sublist (a ++ b) := by
  obtain ⟨s₁, s₂, rfl, h₁, h₂⟩ := List.sublist_append_iff.1 h
  rcases List.sublist_cons_iff.1 h₂ with h₂ | ⟨tail, rfl, -⟩
  · exact h₁.append h₂
  · simp at hr

theorem sublist_dropLast (h : (l.filter (·.txn = txn)).getLast? = some r) (hs : s.Sublist l)
    (hr : r ∉ s) : s.Sublist (dropLast txn l) := by
  obtain ⟨a, b, rfl, -, hd⟩ := exists_split_of_getLast? h
  rw [hd]
  exact sublist_append_of_not_mem hs hr

theorem filter_dropLast_of_ne {u : TransactionId}
    (h : (l.filter (·.txn = txn)).getLast? = some r) (hu : u ≠ txn) :
    (dropLast txn l).filter (·.txn = u) = l.filter (·.txn = u) := by
  have hr : r.txn = txn := by
    have := List.mem_filter.1 (List.mem_of_getLast? h)
    simpa using this.2
  obtain ⟨a, b, rfl, -, hd⟩ := exists_split_of_getLast? h
  rw [hd]
  simp [hr, Ne.symm hu]

/-! ## The lists after each operation -/

variable {g : WaitGraph} {page p : PageId}

@[simp] theorem on_list (requests : List LockRequest) :
    (g.list page requests).on p = if p = page then requests else g.on p := by
  unfold list on
  by_cases hnil : requests.isEmpty = true
  · simp only [hnil, if_true, FinMap.get?_erase]
    split
    · simpa using (List.isEmpty_iff.1 hnil).symm
    · rfl
  · rw [if_neg hnil, FinMap.get?_insert]
    split <;> rfl

theorem on_withdraw : (g.withdraw txn page).on p =
    if p = page then dropLast txn (g.on page) else g.on p := by
  simp [withdraw]

theorem on_release : (g.release txn page).on p =
    if p = page then (g.on page).filter (·.txn ≠ txn) else g.on p := by
  simp [release]

theorem on_forget : (g.forget txn).on p = (g.on p).filter (·.txn ≠ txn) := by
  unfold forget on
  rw [FinMap.get?_filterMap]
  rcases g.arrivals.get? p with _ | requests
  · rfl
  · simp only [Option.bind_some, Option.getD_some]
    split
    · rename_i hnil
      simpa using hnil
    · rfl

theorem on_withdraw_sublist (p : PageId) : ((g.withdraw txn page).on p).Sublist (g.on p) := by
  rw [on_withdraw]
  split
  · rename_i hp
    rw [hp]
    exact dropLast_sublist
  · exact List.Sublist.refl _

theorem on_release_sublist (p : PageId) : ((g.release txn page).on p).Sublist (g.on p) := by
  rw [on_release]
  split
  · rename_i hp
    rw [hp]
    exact List.filter_sublist
  · exact List.Sublist.refl _

theorem on_forget_sublist (p : PageId) : ((g.forget txn).on p).Sublist (g.on p) := by
  rw [on_forget]
  exact List.filter_sublist

/-! ## The waits of the graph -/

/-- A request of `b` for some page arrived behind one of `a` that excludes it. -/
def Behind (g : WaitGraph) (a b : TransactionId) : Prop :=
  ∃ page, (a, b) ∈ LockRequest.waits (g.on page)

/-- No transaction is behind itself, in any number of steps. -/
def IsAcyclic (g : WaitGraph) : Prop := ∀ t, ¬ TransGen g.Behind t t

theorem behind_of_sublist {r s : LockRequest} (h : [r, s].Sublist (g.on page))
    (hc : r.conflicts s = true) : g.Behind r.txn s.txn :=
  ⟨page, (mem_waits_iff _ _ _).2 ⟨r, s, h, hc, rfl, rfl⟩⟩

theorem mem_edges_iff (a b : TransactionId) : (a, b) ∈ edges g.arrivals.values ↔ g.Behind a b := by
  unfold edges Behind on
  rw [List.mem_flatMap]
  constructor
  · rintro ⟨l, hl, hw⟩
    obtain ⟨page, hp⟩ := (FinMap.mem_values_iff _ _).1 hl
    exact ⟨page, by rwa [hp, Option.getD_some]⟩
  · rintro ⟨page, hw⟩
    rcases hp : g.arrivals.get? page with _ | l
    · rw [hp] at hw
      simp [LockRequest.waits] at hw
    · rw [hp] at hw
      exact ⟨l, (FinMap.mem_values_iff _ _).2 ⟨page, hp⟩, hw⟩

theorem hasCycle_eq_false_iff : hasCycle g.arrivals.values = false ↔ g.IsAcyclic := by
  rw [← Bool.not_eq_true, hasCycle_iff, not_not]
  unfold Acyclic IsAcyclic
  simp only [mem_edges_iff]

/-- Taking requests out of the lists closes no cycle. -/
theorem isAcyclic_of_sublist {g' : WaitGraph} (h : g.IsAcyclic)
    (hs : ∀ p, (g'.on p).Sublist (g.on p)) : g'.IsAcyclic := by
  have hle : g'.Behind ≤ g.Behind := by
    rintro a b ⟨page, hw⟩
    obtain ⟨r, s, hsub, hc, rfl, rfl⟩ := (mem_waits_iff _ _ _).1 hw
    exact behind_of_sublist (hsub.trans (hs page)) hc
  intro t ht
  exact h t (TransGen.mono hle t t ht)

theorem isAcyclic_empty : empty.IsAcyclic := by
  rw [← hasCycle_eq_false_iff]
  rfl

/-- A request is covered by an earlier one, or refused, or becomes the last of its page
without closing a cycle. -/
theorem request_cases (g : WaitGraph) (txn : TransactionId) (page : PageId) (access : Access) :
    ((∃ r ∈ g.on page, r.txn = txn ∧ r.access.covers access = true) ∧
      g.request txn page access = (g, .covered)) ∨
    ((∀ r ∈ g.on page, r.txn = txn → r.access.covers access = false) ∧
      ∃ g', g.request txn page access = (g', .refused) ∧ ∀ p, g'.on p = g.on p) ∨
    ((∀ r ∈ g.on page, r.txn = txn → r.access.covers access = false) ∧
      ∃ g', g.request txn page access = (g', .added) ∧ g'.IsAcyclic ∧
        ∀ p, g'.on p = if p = page then g.on page ++ [⟨txn, access⟩] else g.on p) := by
  unfold request
  by_cases hcov : (g.on page).any (fun r => r.txn = txn && r.access.covers access) = true
  · refine Or.inl ⟨by simpa using hcov, ?_⟩
    rw [if_pos hcov]
  · have hnot : ∀ r ∈ g.on page, r.txn = txn → r.access.covers access = false := by
      simpa using hcov
    simp only [hcov, Bool.false_eq_true, if_false]
    right
    by_cases hcyc : hasCycle
        (g.list page (g.on page ++ [⟨txn, access⟩])).arrivals.values = true
    · refine Or.inl ⟨hnot, _, by rw [if_pos hcyc], fun p => ?_⟩
      rw [on_withdraw]
      by_cases hp : p = page
      · subst hp
        simp [dropLast_append_self]
      · simp [hp]
    · refine Or.inr ⟨hnot, _, by rw [if_neg hcyc], ?_, fun p => on_list _⟩
      rw [← hasCycle_eq_false_iff]
      simpa using hcyc

end WaitGraph

/-! ## A list in step with the lock of its page -/

/-- The requests for a page in the order of arrival, `entries`, are in step with the lock
of the page. -/
structure InStep (l : PageLock) (entries : List LockRequest) : Prop where
  nodup : entries.Nodup
  queue_sublist : l.queue.Sublist entries
  /-- A holder comes before the waiting requests that it excludes. -/
  holder_first : ∀ h : LockRequest, l.heldBy h.txn = some h.access →
    (h :: l.queue.filter h.conflicts).Sublist entries
  /-- What waits is the last request of its transaction. -/
  queued_last : ∀ r ∈ l.queue, (entries.filter (·.txn = r.txn)).getLast? = some r
  /-- What does not wait is covered by what its transaction holds. -/
  held_or_queued : ∀ e ∈ entries, e ∈ l.queue ∨ (l.heldBy e.txn).any (·.covers e.access) = true

namespace InStep

variable {l l' : PageLock} {entries : List LockRequest} {txn : TransactionId} {access : Access}

theorem free_nil : InStep .free [] where
  nodup := List.nodup_nil
  queue_sublist := List.Sublist.refl _
  holder_first := by simp
  queued_last := by simp [PageLock.free]
  held_or_queued := by simp

/-- A request that nothing covers is new to the list. -/
theorem not_mem_of_uncovered (h : InStep l entries) (hq : ∀ r ∈ l.queue, r.txn ≠ txn)
    (hu : (l.heldBy txn).any (·.covers access) = false) :
    (⟨txn, access⟩ : LockRequest) ∉ entries := by
  intro hm
  rcases h.held_or_queued _ hm with hm | hc
  · exact hq _ hm rfl
  · rw [hu] at hc
    cases hc

theorem nodup_entered (h : InStep l entries) (hq : ∀ r ∈ l.queue, r.txn ≠ txn)
    (hu : (l.heldBy txn).any (·.covers access) = false) :
    (entries ++ [(⟨txn, access⟩ : LockRequest)]).Nodup := by
  rw [List.nodup_append]
  refine ⟨h.nodup, by simp, ?_⟩
  rintro a ha b hb rfl
  exact h.not_mem_of_uncovered hq hu (List.mem_singleton.1 hb ▸ ha)

/-- A transaction that neither waits nor holds enough has no request that covers more. -/
theorem not_covered (h : InStep l entries) (hq : ∀ r ∈ l.queue, r.txn ≠ txn)
    (hu : (l.heldBy txn).any (·.covers access) = false) :
    ∀ r ∈ entries, r.txn = txn → r.access.covers access = false := by
  intro r hr ht
  rw [← Bool.not_eq_true]
  intro hcov
  rcases h.held_or_queued r hr with hm | hc
  · exact hq r hm ht
  · rw [ht] at hc
    rcases hm : l.heldBy txn with _ | m
    · simp [hm] at hc
    · rw [hm, Option.any_some] at hc hu
      rw [Access.covers_trans hc hcov] at hu
      cases hu

theorem enqueue (h : InStep l entries) (hq : ∀ r ∈ l.queue, r.txn ≠ txn)
    (hu : (l.heldBy txn).any (·.covers access) = false) :
    InStep (l.enqueue txn access) (entries ++ [⟨txn, access⟩]) := by
  constructor
  · exact h.nodup_entered hq hu
  · rw [PageLock.queue_enqueue hq]
    exact h.queue_sublist.append (List.Sublist.refl _)
  · intro holder hh
    rw [PageLock.heldBy_enqueue] at hh
    rw [PageLock.queue_enqueue hq, List.filter_append, ← List.cons_append]
    exact (h.holder_first holder hh).append List.filter_sublist
  · intro r hr
    rw [PageLock.queue_enqueue hq, List.mem_append, List.mem_singleton] at hr
    rw [List.filter_append]
    rcases hr with hr | rfl
    · have hne : txn ≠ r.txn := (hq r hr).symm
      simpa [hne] using h.queued_last r hr
    · simp
  · intro e he
    rw [PageLock.queue_enqueue hq, PageLock.heldBy_enqueue]
    rcases List.mem_append.1 he with he | he
    · rcases h.held_or_queued e he with hm | hc
      · exact Or.inl (List.mem_append_left _ hm)
      · exact Or.inr hc
    · exact Or.inl (List.mem_append_right _ he)

/-- What the holder of a page held before a grant is covered by what it holds after it. -/
theorem any_covers_grant (ha : l.holdersAllow txn access = true)
    (hu : (l.heldBy txn).any (·.covers access) = false) {e : LockRequest}
    (hc : (l.heldBy e.txn).any (·.covers e.access) = true) :
    ((l.grant txn access).heldBy e.txn).any (·.covers e.access) = true := by
  rw [PageLock.heldBy_grant ha (PageLock.not_writer_of_uncovered hu)]
  split
  · rename_i ht
    rw [ht] at hc
    rcases hm : l.heldBy txn with _ | m
    · simp [hm] at hc
    · rw [hm, Option.any_some] at hc hu
      exact Access.covers_of_not_covers hu hc
  · exact hc

/-- Requests that a new access goes together with do not conflict with it. -/
theorem filter_conflicts_of_compatible {waiting : List LockRequest}
    (h : ∀ r ∈ waiting, r.access.compatible access = true) :
    waiting.filter (⟨txn, access⟩ : LockRequest).conflicts = [] := by
  rw [List.filter_eq_nil_iff]
  intro r hr hc
  obtain ⟨hread, rfl⟩ := (Access.compatible_iff _ _).1 (h r hr)
  simp [LockRequest.conflicts, hread, Access.compatible] at hc

/-- The queue around a waiting request: nobody but those before it stands ahead. -/
theorem exists_queue_split (hnd : (l.queue.map LockRequest.txn).Nodup)
    (hr : (⟨txn, access⟩ : LockRequest) ∈ l.queue) :
    ∃ before after, l.queue = before ++ ⟨txn, access⟩ :: after ∧
      (l.grant txn access).queue = before ++ after ∧ l.ahead txn = before := by
  obtain ⟨before, after, hsplit⟩ := List.append_of_mem hr
  rw [hsplit] at hnd
  simp only [List.map_append, List.map_cons, List.nodup_append, List.nodup_cons] at hnd
  have hbefore : ∀ x ∈ before, x.txn ≠ txn := by
    intro x hx
    exact hnd.2.2 _ (List.mem_map_of_mem hx) _ (by simp)
  have hafter : ∀ x ∈ after, x.txn ≠ txn := by
    intro x hx hxt
    exact hnd.2.1.1 (hxt ▸ List.mem_map_of_mem hx)
  refine ⟨before, after, hsplit, ?_, ?_⟩
  · rw [PageLock.queue_grant, hsplit, List.filter_append, List.filter_cons,
      List.filter_eq_self.2 (by simpa using hbefore), List.filter_eq_self.2 (by simpa using hafter)]
    simp
  · rw [PageLock.ahead, hsplit, List.takeWhile_append_of_pos (by simpa using hbefore)]
    simp

/-- A request that is granted at once excludes nothing that waits. -/
theorem grant_now (h : InStep l entries) (hq : ∀ r ∈ l.queue, r.txn ≠ txn)
    (hu : (l.heldBy txn).any (·.covers access) = false) (hg : l.canGrant txn access = true) :
    InStep (l.grant txn access) (entries ++ [⟨txn, access⟩]) := by
  simp only [PageLock.canGrant, Bool.and_eq_true] at hg
  obtain ⟨ha, hahead⟩ := hg
  have hw := PageLock.not_writer_of_uncovered hu
  have hqueue : (l.grant txn access).queue = l.queue := by
    rw [PageLock.queue_grant, List.filter_eq_self]
    simpa using hq
  rw [PageLock.ahead_eq_queue hq, List.all_eq_true] at hahead
  constructor
  · exact h.nodup_entered hq hu
  · rw [hqueue]
    exact h.queue_sublist.trans (List.sublist_append_left _ _)
  · intro holder hh
    rw [PageLock.heldBy_grant ha hw] at hh
    rw [hqueue]
    split at hh
    · rename_i ht
      have hself : holder = ⟨txn, access⟩ := by
        cases holder
        simp_all
      rw [hself, filter_conflicts_of_compatible hahead]
      exact List.sublist_append_right _ _
    · exact (h.holder_first holder hh).trans (List.sublist_append_left _ _)
  · intro r hr
    rw [hqueue] at hr
    have hne : txn ≠ r.txn := (hq r hr).symm
    simpa [List.filter_append, hne] using h.queued_last r hr
  · intro e he
    rw [hqueue]
    rcases List.mem_append.1 he with he | he
    · rcases h.held_or_queued e he with hm | hc
      · exact Or.inl hm
      · exact Or.inr (any_covers_grant ha hu hc)
    · rw [List.mem_singleton.1 he, PageLock.heldBy_grant ha hw]
      exact Or.inr (by simp [Access.covers_self])

/-- A waiting request that is granted comes before what it excludes: it waited ahead. -/
theorem grant_queued (h : InStep l entries) (hnd : (l.queue.map LockRequest.txn).Nodup)
    (hr : (⟨txn, access⟩ : LockRequest) ∈ l.queue)
    (hu : (l.heldBy txn).any (·.covers access) = false) (hg : l.canGrant txn access = true) :
    InStep (l.grant txn access) entries := by
  simp only [PageLock.canGrant, Bool.and_eq_true] at hg
  obtain ⟨ha, hahead⟩ := hg
  have hw := PageLock.not_writer_of_uncovered hu
  obtain ⟨before, after, hsplit, hqueue, hall⟩ := exists_queue_split hnd hr
  rw [hall, List.all_eq_true] at hahead
  have hsub : (before ++ after).Sublist l.queue := by
    rw [hsplit]
    exact (List.Sublist.refl _).append (List.sublist_cons_self _ _)
  constructor
  · exact h.nodup
  · rw [hqueue]
    exact hsub.trans h.queue_sublist
  · intro holder hh
    rw [PageLock.heldBy_grant ha hw] at hh
    rw [hqueue]
    split at hh
    · rename_i ht
      have hself : holder = ⟨txn, access⟩ := by
        cases holder
        simp_all
      rw [hself, List.filter_append, filter_conflicts_of_compatible hahead, List.nil_append]
      refine List.Sublist.trans ?_ h.queue_sublist
      rw [hsplit]
      exact (List.filter_sublist.cons_cons _).trans (List.sublist_append_right _ _)
    · exact ((hsub.filter _).cons_cons _).trans (h.holder_first holder hh)
  · intro r hr
    exact h.queued_last r (hsub.subset (hqueue ▸ hr))
  · intro e he
    rw [hqueue]
    rcases h.held_or_queued e he with hm | hc
    · rw [hsplit, List.mem_append, List.mem_cons] at hm
      rcases hm with hm | rfl | hm
      · exact Or.inl (List.mem_append_left _ hm)
      · rw [PageLock.heldBy_grant ha hw]
        exact Or.inr (by simp [Access.covers_self])
      · exact Or.inl (List.mem_append_right _ hm)
    · exact Or.inr (any_covers_grant ha hu hc)

/-- A transaction that gives up leaves the queue, and its last request leaves the list. -/
theorem abandon (h : InStep l entries) (hnd : (l.queue.map LockRequest.txn).Nodup)
    (hr : (⟨txn, access⟩ : LockRequest) ∈ l.queue)
    (hu : (l.heldBy txn).any (·.covers access) = false) :
    InStep (l.dequeue txn) (WaitGraph.dropLast txn entries) := by
  have hlast := h.queued_last _ hr
  simp only at hlast
  have hqueue : ∀ r ∈ (l.dequeue txn).queue, r ∈ l.queue ∧ r.txn ≠ txn := by
    simp
  have hsub : (l.dequeue txn).queue.Sublist l.queue := List.filter_sublist
  obtain ⟨a, b, hab, hb, hdrop⟩ := WaitGraph.exists_split_of_getLast? hlast
  constructor
  · exact h.nodup.sublist WaitGraph.dropLast_sublist
  · exact WaitGraph.sublist_dropLast hlast (hsub.trans h.queue_sublist)
      fun hm => (hqueue _ hm).2 rfl
  · intro holder hh
    rw [PageLock.heldBy_dequeue] at hh
    refine WaitGraph.sublist_dropLast hlast
      (((hsub.filter _).cons_cons _).trans (h.holder_first holder hh)) ?_
    rintro (_ | ⟨_, hm⟩)
    · rw [hh, Option.any_some, Access.covers_self] at hu
      cases hu
    · exact (hqueue _ (List.mem_filter.1 hm).1).2 rfl
  · intro r hr
    obtain ⟨hmem, hne⟩ := hqueue r hr
    rw [WaitGraph.filter_dropLast_of_ne hlast hne]
    exact h.queued_last r hmem
  · intro e he
    rw [PageLock.heldBy_dequeue]
    rcases h.held_or_queued e (WaitGraph.dropLast_sublist.subset he) with hm | hc
    · by_cases ht : e.txn = txn
      · have hself : e = ⟨txn, access⟩ :=
          List.inj_on_of_nodup_map hnd hm hr ht
        have hnodup := h.nodup
        rw [hab, List.nodup_append] at hnodup
        rw [hdrop, hself, List.mem_append] at he
        rcases he with he | he
        · exact absurd rfl (hnodup.2.2 _ he _ (List.mem_cons_self))
        · exact absurd he (List.nodup_cons.1 hnodup.2.1).1
      · exact Or.inl (by simpa using ⟨hm, ht⟩)
    · exact Or.inr hc

/-- Where a transaction holds nothing any more and does not wait, all its requests go. -/
theorem forget (h : InStep l entries) (hq : ∀ r ∈ l.queue, r.txn ≠ txn)
    (hqueue : l'.queue = l.queue)
    (hheld : ∀ u, l'.heldBy u = if u = txn then none else l.heldBy u) :
    InStep l' (entries.filter (·.txn ≠ txn)) := by
  have hfix : l.queue.filter (·.txn ≠ txn) = l.queue := by
    rw [List.filter_eq_self]
    simpa using hq
  constructor
  · exact h.nodup.sublist List.filter_sublist
  · rw [hqueue, ← hfix]
    exact h.queue_sublist.filter _
  · intro holder hh
    rw [hheld] at hh
    split at hh
    · cases hh
    · rename_i ht
      have hkeep : (holder :: l.queue.filter holder.conflicts).filter (·.txn ≠ txn) =
          holder :: l.queue.filter holder.conflicts := by
        rw [List.filter_eq_self]
        intro x hx
        rcases List.mem_cons.1 hx with rfl | hx
        · simpa using ht
        · simpa using hq x (List.mem_filter.1 hx).1
      rw [hqueue, ← hkeep]
      exact (h.holder_first holder hh).filter _
  · intro r hr
    rw [hqueue] at hr
    rw [List.filter_filter]
    rw [← h.queued_last r hr]
    congr 1
    apply List.filter_congr
    intro x _
    by_cases hx : x.txn = r.txn
    · simp [hx, hq r hr]
    · simp [hx]
  · intro e he
    obtain ⟨he, ht⟩ := List.mem_filter.1 he
    have hne : e.txn ≠ txn := by simpa using ht
    rw [hqueue, hheld, if_neg hne]
    exact h.held_or_queued e he

end InStep

end PageCache
