-- Deadlock reports are exact. Along a run the later requests of a transaction for a page ask
-- for more than the earlier ones, so no request that was granted stands behind a request that
-- it excludes: an edge of the graph is always a real wait. A request is refused exactly when
-- it would close a cycle of real waits, and one that can be granted at once never is.
import PageCache.Proofs.Lock.Deadlock

namespace PageCache

open Relation

/-! ## Places in a list -/

/-- A place in a list with one more at its end: a place before it, or the end. -/
theorem split_before_last {α : Type} {l before after : List α} {last x : α}
    (h : l ++ [last] = before ++ x :: after) :
    (∃ rest, l = before ++ x :: rest ∧ after = rest ++ [last]) ∨
      (l = before ∧ x = last ∧ after = []) := by
  rcases List.eq_nil_or_concat after with rfl | ⟨rest, y, rfl⟩
  · obtain ⟨hl, hx⟩ := List.append_inj' h rfl
    exact Or.inr ⟨hl, (List.cons.inj hx).1.symm, rfl⟩
  · rw [List.concat_eq_append, ← List.cons_append, ← List.append_assoc] at h
    obtain ⟨hl, hy⟩ := List.append_inj' h rfl
    exact Or.inl ⟨rest, hl, by rw [List.concat_eq_append, hy]⟩

theorem mem_left_of_pair_sublist {α : Type} {before after : List α} {a b : α}
    (hnd : (before ++ b :: after).Nodup) (h : [a, b].Sublist (before ++ b :: after)) :
    a ∈ before := by
  have hbefore : b ∉ before := fun hm => List.disjoint_of_nodup_append hnd hm List.mem_cons_self
  have hafter : b ∉ after := (List.nodup_cons.1 (List.nodup_append.1 hnd).2.1).1
  obtain ⟨s₁, s₂, hs, h₁, h₂⟩ := List.sublist_append_iff.1 h
  rcases s₁ with _ | ⟨x, _ | ⟨y, rest⟩⟩
  · obtain rfl : [a, b] = s₂ := hs
    rcases List.sublist_cons_iff.1 h₂ with hsub | ⟨tail, heq, hsub⟩
    · exact absurd (hsub.subset (by simp)) hafter
    · obtain rfl : [b] = tail := (List.cons.inj heq).2
      exact absurd (List.singleton_sublist.1 hsub) hafter
  · rw [(List.cons.inj hs).1]
    exact List.singleton_sublist.1 h₁
  · rw [(List.cons.inj (List.cons.inj hs).2).1] at hbefore
    exact absurd (h₁.subset (by simp)) hbefore

theorem mem_right_of_pair_sublist {α : Type} {before after : List α} {a b : α}
    (hnd : (before ++ a :: after).Nodup) (h : [a, b].Sublist (before ++ a :: after)) :
    b ∈ after := by
  have hrev : (before ++ a :: after).reverse = after.reverse ++ a :: before.reverse := by simp
  have hpair : [b, a].Sublist (before ++ a :: after).reverse := h.reverse
  rw [hrev] at hpair
  exact List.mem_reverse.1 (mem_left_of_pair_sublist (hrev ▸ List.nodup_reverse.2 hnd) hpair)

theorem pair_sublist_trans {α : Type} {l : List α} {a b c : α} (hnd : l.Nodup)
    (hab : [a, b].Sublist l) (hbc : [b, c].Sublist l) : [a, c].Sublist l := by
  obtain ⟨before, after, rfl⟩ := List.append_of_mem (hab.subset (by simp) : b ∈ l)
  have ha := mem_left_of_pair_sublist hnd hab
  have hc := mem_right_of_pair_sublist hnd hbc
  exact (List.singleton_sublist.2 ha).append
    ((List.singleton_sublist.2 hc).trans (List.sublist_cons_self b after))

/-! ## Requests that ask for more and more -/

/-- A later request of a transaction asks for more than its earlier ones. -/
def Strengthening (entries : List LockRequest) : Prop :=
  entries.Pairwise fun r q => r.txn = q.txn → r.access.covers q.access = false

theorem Strengthening.not_covers {entries : List LockRequest} (h : Strengthening entries)
    {r q : LockRequest} (hpair : [r, q].Sublist entries) (ht : r.txn = q.txn) :
    r.access.covers q.access = false :=
  List.pairwise_iff_forall_sublist.1 h hpair ht

theorem Strengthening.entered {entries : List LockRequest} (h : Strengthening entries)
    {txn : TransactionId} {access : Access}
    (hnot : ∀ r ∈ entries, r.txn = txn → r.access.covers access = false) :
    Strengthening (entries ++ [⟨txn, access⟩]) := by
  unfold Strengthening
  rw [List.pairwise_append]
  refine ⟨h, List.pairwise_singleton _ _, ?_⟩
  intro r hr q hq
  rw [List.mem_singleton.1 hq]
  exact hnot r hr

namespace WaitGraph

variable {g g' : WaitGraph} {txn : TransactionId} {page : PageId} {access : Access}

/-- For every page the later requests of a transaction ask for more. -/
def IsStrengthening (g : WaitGraph) : Prop := ∀ page, Strengthening (g.on page)

theorem IsStrengthening.of_sublist (h : g.IsStrengthening)
    (hs : ∀ p, (g'.on p).Sublist (g.on p)) : g'.IsStrengthening :=
  fun p => (h p).sublist (hs p)

theorem IsStrengthening.list (h : g.IsStrengthening)
    (hnot : ∀ r ∈ g.on page, r.txn = txn → r.access.covers access = false) :
    (g.list page (g.on page ++ [⟨txn, access⟩])).IsStrengthening := by
  intro p
  rw [on_list]
  split
  · exact (h page).entered hnot
  · exact h p

theorem IsStrengthening.request (h : g.IsStrengthening) :
    (g.request txn page access).1.IsStrengthening := by
  rcases g.request_cases txn page access with ⟨-, he⟩ | ⟨-, g', he, hon⟩ | ⟨hnot, g', he, -, hon⟩
  · rw [he]
    exact h
  · rw [he]
    exact h.of_sublist fun p => by rw [hon p]
  · rw [he]
    intro p
    rw [hon p, ← on_list]
    exact h.list hnot p

/-- A request that nothing covers is refused exactly when the waits with it have a cycle. -/
theorem request_refused_iff
    (hnot : ∀ r ∈ g.on page, r.txn = txn → r.access.covers access = false) :
    (g.request txn page access).2 = .refused ↔
      ¬ (g.list page (g.on page ++ [⟨txn, access⟩])).IsAcyclic := by
  have hcov : (g.on page).any (fun r => r.txn = txn && r.access.covers access) = false := by
    simpa using hnot
  unfold request
  rw [← hasCycle_eq_false_iff]
  simp only [hcov, Bool.false_eq_true, if_false]
  split
  · rename_i hcyc
    simp [hcyc]
  · rename_i hcyc
    simp [hcyc]

end WaitGraph

/-! ## A conflict in the list is a wait -/

namespace InStep

variable {l : PageLock} {entries : List LockRequest} {r q : LockRequest}

/-- What is behind a request that excludes it has not been granted. -/
theorem mem_queue_of_conflict (h : InStep l entries) (hx : l.Exclusive) (hs : Strengthening entries)
    (hpair : [r, q].Sublist entries) (hc : r.conflicts q = true) : q ∈ l.queue := by
  rcases h.held_or_queued q (hpair.subset (by simp)) with hq | hq
  · exact hq
  exfalso
  simp only [LockRequest.conflicts, Bool.and_eq_true, decide_eq_true_eq, Bool.not_eq_true'] at hc
  obtain ⟨hne, hc⟩ := hc
  obtain ⟨m, hm, hcov⟩ := (Option.any_eq_true _ _).1 hq
  -- the access that `q` was granted, perhaps a stronger one, excludes `r` as well
  have hmr : m.compatible r.access = false :=
    Access.excludes_of_covers hcov (by rw [Access.compatible_comm]; exact hc)
  rcases h.held_or_queued r (hpair.subset (by simp)) with hr | hr
  · have hconf : LockRequest.conflicts ⟨q.txn, m⟩ r = true := by
      simp [LockRequest.conflicts, Ne.symm hne, hmr]
    have hwaits : r ∈ l.queue.filter (LockRequest.conflicts ⟨q.txn, m⟩) :=
      List.mem_filter.2 ⟨hr, hconf⟩
    have hfirst : [⟨q.txn, m⟩, r].Sublist entries :=
      ((List.singleton_sublist.2 hwaits).cons_cons _).trans (h.holder_first ⟨q.txn, m⟩ hm)
    have hnot := hs.not_covers (pair_sublist_trans h.nodup hfirst hpair) rfl
    rw [hcov] at hnot
    cases hnot
  · obtain ⟨m', hm', hcov'⟩ := (Option.any_eq_true _ _).1 hr
    have hcomp := PageLock.compatible_of_heldBy hx (Ne.symm hne) hm' hm
    rw [Access.excludes_of_covers hcov' (by rw [Access.compatible_comm]; exact hmr)] at hcomp
    cases hcomp

/-- A request that arrived behind one that excludes it waits: for a hold of that transaction,
or for its request ahead. -/
theorem exists_wait (h : InStep l entries) (hx : l.Exclusive) (hs : Strengthening entries)
    (hpair : [r, q].Sublist entries) (hc : r.conflicts q = true) :
    ∃ ahead behind, l.queue = ahead ++ q :: behind ∧
      ((∃ m, l.heldBy r.txn = some m ∧ m.compatible q.access = false) ∨ r ∈ ahead) := by
  have hq := h.mem_queue_of_conflict hx hs hpair hc
  simp only [LockRequest.conflicts, Bool.and_eq_true, decide_eq_true_eq, Bool.not_eq_true'] at hc
  obtain ⟨ahead, behind, hsplit⟩ := List.append_of_mem hq
  refine ⟨ahead, behind, hsplit, ?_⟩
  rcases h.held_or_queued r (hpair.subset (by simp)) with hr | hr
  · right
    rw [hsplit, List.mem_append, List.mem_cons] at hr
    rcases hr with hr | rfl | hr
    · exact hr
    · exact absurd rfl hc.1
    · -- the queue keeps the order of arrival, so `r` cannot stand behind `q`
      have hback : [q, r].Sublist entries := by
        refine List.Sublist.trans ?_ (hsplit ▸ h.queue_sublist)
        exact ((List.singleton_sublist.2 hr).cons_cons q).trans (List.sublist_append_right _ _)
      have htwice := pair_sublist_trans h.nodup hpair hback
      exact absurd htwice (List.nodup_iff_sublist.1 h.nodup r)
  · left
    obtain ⟨m, hm, hcov⟩ := (Option.any_eq_true _ _).1 hr
    exact ⟨m, hm, Access.excludes_of_covers hcov hc.2⟩

end InStep

namespace Locking

variable {s : Locking} {g : WaitGraph} {txn t u : TransactionId} {page : PageId} {access : Access}

/-- In a graph that is in step with the locks, whoever is behind a transaction waits for it. -/
theorem waitsFor_of_behind (hin : ∀ page, InStep (s.table.lockOf page) (g.on page))
    (hx : ∀ page, (s.table.lockOf page).Exclusive) (hs : g.IsStrengthening)
    (h : g.Behind u t) : s.WaitsFor t u := by
  obtain ⟨page, hw⟩ := h
  obtain ⟨r, q, hpair, hc, rfl, rfl⟩ := (mem_waits_iff _ _ _).1 hw
  obtain ⟨ahead, behind, hsplit, hcase⟩ := (hin page).exists_wait (hx page) (hs page) hpair hc
  simp only [LockRequest.conflicts, Bool.and_eq_true, decide_eq_true_eq, Bool.not_eq_true'] at hc
  refine ⟨page, q.access, ahead, behind, hsplit, hc.1, ?_⟩
  rcases hcase with hheld | hr
  · exact Or.inl hheld
  · exact Or.inr ⟨r, hr, rfl, hc.2⟩

theorem behind_iff_waitsFor (hin : ∀ page, InStep (s.table.lockOf page) (g.on page))
    (hx : ∀ page, (s.table.lockOf page).Exclusive) (hs : g.IsStrengthening) (t u : TransactionId) :
    g.Behind u t ↔ s.WaitsFor t u :=
  ⟨waitsFor_of_behind hin hx hs, behind_of_waitsFor hin⟩

/-! ## Every run strengthens -/

theorem isStrengthening_acquire (h : s.table.waits.IsStrengthening) :
    (s.acquire txn page access).1.table.waits.IsStrengthening := by
  rcases s.acquire_cases txn page access with ⟨-, he⟩ | ⟨-, waits, verdict, hreq, hcase⟩
  · rw [he]
    exact h
  · have hwaits : waits = (s.table.waits.request txn page access).1 := by rw [hreq]
    rcases hcase with ⟨-, he⟩ | ⟨-, -, he⟩ | ⟨-, -, he⟩ <;> rw [he, hwaits] <;> exact h.request

theorem isStrengthening_recheck (h : s.table.waits.IsStrengthening) :
    (s.recheck txn).1.table.waits.IsStrengthening := by
  rcases s.recheck_cases txn with ⟨-, he⟩ | ⟨r, -, ⟨-, he⟩ | ⟨-, he⟩⟩ <;> rw [he] <;> exact h

theorem isStrengthening_expire (h : s.table.waits.IsStrengthening) :
    (s.expire txn).1.table.waits.IsStrengthening := by
  rcases s.expire_cases txn with ⟨-, he⟩ | ⟨r, -, ⟨-, he⟩ | ⟨-, he⟩⟩
  · rw [he]
    exact h
  · rw [he]
    exact h
  · rw [he]
    dsimp only
    split
    · exact h.of_sublist WaitGraph.on_withdraw_sublist
    · exact h

theorem isStrengthening_releaseList {t : LockTable} (h : t.waits.IsStrengthening)
    (txn : TransactionId) (pages : List PageId) :
    (pages.foldl (fun t page => t.release txn page) t).waits.IsStrengthening := by
  induction pages generalizing t with
  | nil => exact h
  | cons page rest ih => exact ih (h.of_sublist WaitGraph.on_release_sublist)

theorem Reachable.isStrengthening (h : s.Reachable) : s.table.waits.IsStrengthening := by
  induction h with
  | empty => exact fun _ => List.Pairwise.nil
  | step a _ _ ih =>
    cases a with
    | acquire txn page access => exact isStrengthening_acquire ih
    | recheck txn => exact isStrengthening_recheck ih
    | expire txn => exact isStrengthening_expire ih
    | release txn page => exact ih.of_sublist WaitGraph.on_release_sublist
    | releaseAll txn =>
      exact (isStrengthening_releaseList ih txn _).of_sublist WaitGraph.on_forget_sublist

/-! ## A request that would wait -/

/-- The locks with a request of the transaction put at the end of the queue of the page. -/
def queued (s : Locking) (txn : TransactionId) (page : PageId) (access : Access) : Locking :=
  ⟨s.table.store page ((s.table.lockOf page).enqueue txn access),
    s.pending.insert txn ⟨page, access, true⟩⟩

theorem lockOf_queued (p : PageId) : (s.queued txn page access).table.lockOf p =
    if p = page then (s.table.lockOf page).enqueue txn access else s.table.lockOf p :=
  LockTable.lockOf_store _

theorem heldMode_queued (u : TransactionId) (p : PageId) :
    (s.queued txn page access).table.heldMode u p = s.table.heldMode u p :=
  LockTable.heldMode_store (fun _ => PageLock.heldBy_enqueue) u p

/-- Whoever waits with the request in the queue waited without it, or has made it. -/
theorem waitsFor_of_queued (hq : ∀ r ∈ (s.table.lockOf page).queue, r.txn ≠ txn)
    (h : (s.queued txn page access).WaitsFor t u) (hne : t ≠ txn) : s.WaitsFor t u := by
  obtain ⟨p, a, ahead, behind, hsplit, hu, hcase⟩ := h
  simp only [heldMode_queued] at hcase
  rw [lockOf_queued] at hsplit
  split at hsplit
  · rename_i hp
    subst hp
    rw [PageLock.queue_enqueue hq] at hsplit
    rcases split_before_last hsplit with ⟨rest, hqueue, -⟩ | ⟨-, hself, -⟩
    · exact ⟨p, a, ahead, rest, hqueue, hu, hcase⟩
    · exact absurd (congrArg LockRequest.txn hself) hne
  · exact ⟨p, a, ahead, behind, hsplit, hu, hcase⟩

/-- A request that can be granted at once would wait for nobody. -/
theorem not_waitsFor_of_canGrant (h : s.Orderly) (hw : s.pending.get? txn = none)
    (hg : (s.table.lockOf page).canGrant txn access = true) :
    ¬ (s.queued txn page access).WaitsFor txn u := by
  rintro ⟨p, a, ahead, behind, hsplit, hne, hcase⟩
  have hq := h.not_queued hw p
  have hnot : ∀ rest, (s.table.lockOf p).queue ≠ ahead ++ ⟨txn, a⟩ :: rest := by
    intro rest hqueue
    exact hq ⟨txn, a⟩ (by rw [hqueue]; simp) rfl
  simp only [heldMode_queued] at hcase
  rw [lockOf_queued] at hsplit
  split at hsplit
  · rename_i hp
    subst hp
    simp only [PageLock.canGrant, Bool.and_eq_true] at hg
    obtain ⟨hallow, hahead⟩ := hg
    rw [PageLock.ahead_eq_queue hq, List.all_eq_true] at hahead
    rw [PageLock.queue_enqueue hq] at hsplit
    rcases split_before_last hsplit with ⟨rest, hqueue, -⟩ | ⟨rfl, hself, -⟩
    · exact hnot rest hqueue
    · obtain rfl : a = access := congrArg LockRequest.access hself
      rcases hcase with ⟨m, hm, hc⟩ | ⟨r, hr, -, hc⟩
      · rw [PageLock.compatible_of_holdersAllow hallow hne hm] at hc
        cases hc
      · rw [hahead r hr] at hc
        cases hc
  · exact hnot behind hsplit

/-! ## Refusals -/

/-- A path of a relation that agrees with another one away from `x` is a path of that one, or
goes through `x`. -/
theorem transGen_or_through {α : Type} {r r' : α → α → Prop} {x a b : α}
    (h : ∀ a b, r' a b → a ≠ x → r a b) (hab : TransGen r' a b) :
    TransGen r a b ∨ (ReflTransGen r' a x ∧ TransGen r' x b) := by
  induction hab with
  | single hr =>
    rename_i b
    by_cases hx : a = x
    · exact Or.inr ⟨hx ▸ ReflTransGen.refl, hx ▸ TransGen.single hr⟩
    · exact Or.inl (TransGen.single (h _ _ hr hx))
  | tail hpath hr ih =>
    rename_i c d
    by_cases hx : c = x
    · exact Or.inr ⟨hx ▸ hpath.to_reflTransGen, hx ▸ TransGen.single hr⟩
    · rcases ih with ih | ⟨hto, hfrom⟩
      · exact Or.inl (ih.tail (h _ _ hr hx))
      · exact Or.inr ⟨hto, hfrom.tail hr⟩

namespace Traced

/-- The cycles that a request would close all go through its transaction. -/
theorem cycle_of_queued (h : s.Traced) (hw : s.pending.get? txn = none)
    (ht : TransGen (s.queued txn page access).WaitsFor t t) :
    TransGen (s.queued txn page access).WaitsFor txn txn := by
  have hq := h.orderly.not_queued hw page
  rcases transGen_or_through (fun _ _ hr hne => waitsFor_of_queued hq hr hne) ht with
    hold | ⟨hto, hfrom⟩
  · exact absurd hold (h.waits_acyclic t)
  · exact TransGen.trans_left hfrom hto

/-- With a request in the queue and in the graph, the edges of the graph are the real waits. -/
theorem behind_entered_iff (h : s.Traced) (hs : s.table.waits.IsStrengthening)
    (hw : s.pending.get? txn = none)
    (hu : (s.table.heldMode txn page).any (·.covers access) = false) (t u : TransactionId) :
    (s.table.waits.list page (s.table.waits.on page ++ [⟨txn, access⟩])).Behind u t ↔
      (s.queued txn page access).WaitsFor t u := by
  have hq := h.orderly.not_queued hw page
  apply behind_iff_waitsFor
  · intro p
    rw [lockOf_queued, WaitGraph.on_list]
    split
    · exact (h.in_step page).enqueue hq hu
    · exact h.in_step p
  · intro p
    rw [lockOf_queued]
    split
    · exact PageLock.exclusive_enqueue (h.orderly.tidy.exclusive page)
    · exact h.orderly.tidy.exclusive p
  · exact hs.list ((h.in_step page).not_covered hq hu)

end Traced

theorem acquire_refused_iff (hu : (s.table.heldMode txn page).any (·.covers access) = false) :
    (s.acquire txn page access).2 = .refused ↔
      (s.table.waits.request txn page access).2 = .refused := by
  rcases s.acquire_cases txn page access with ⟨hc, -⟩ | ⟨-, waits, verdict, hreq, hcase⟩
  · rw [hu] at hc
    cases hc
  · rw [hreq]
    rcases hcase with ⟨hv, he⟩ | ⟨hv, -, he⟩ | ⟨hv, -, he⟩ <;> rw [he] <;> simp [hv]

theorem Traced.refused_iff (h : s.Traced) (hs : s.table.waits.IsStrengthening)
    (hw : s.pending.get? txn = none)
    (hu : (s.table.heldMode txn page).any (·.covers access) = false) :
    (s.acquire txn page access).2 = .refused ↔
      ∃ t, TransGen (s.queued txn page access).WaitsFor t t := by
  have hnot := (h.in_step page).not_covered (h.orderly.not_queued hw page) hu
  have hsame : (s.table.waits.list page (s.table.waits.on page ++ [⟨txn, access⟩])).Behind =
      Function.swap (s.queued txn page access).WaitsFor := by
    funext u t
    exact propext (h.behind_entered_iff hs hw hu t u)
  rw [acquire_refused_iff hu, WaitGraph.request_refused_iff hnot, WaitGraph.IsAcyclic, hsame]
  simp only [transGen_swap, not_forall, not_not]

/-- A request that can be granted at once is granted. -/
theorem Traced.granted_of_canGrant (h : s.Traced) (hs : s.table.waits.IsStrengthening)
    (hw : s.pending.get? txn = none)
    (hu : (s.table.heldMode txn page).any (·.covers access) = false)
    (hg : (s.table.lockOf page).canGrant txn access = true) :
    (s.acquire txn page access).2 = .granted := by
  have hnot : (s.acquire txn page access).2 ≠ .refused := by
    intro href
    obtain ⟨t, ht⟩ := (h.refused_iff hs hw hu).1 href
    obtain ⟨u, hfirst, -⟩ := TransGen.head'_iff.1 (h.cycle_of_queued hw ht)
    exact not_waitsFor_of_canGrant h.orderly hw hg hfirst
  rcases s.acquire_cases txn page access with ⟨-, he⟩ | ⟨-, waits, verdict, -, hcase⟩
  · rw [he]
  · rcases hcase with ⟨-, he⟩ | ⟨-, -, he⟩ | ⟨-, hno, -⟩
    · exact absurd (by rw [he]) hnot
    · rw [he]
    · rw [hg] at hno
      cases hno

/-- A request of a transaction that has none waiting fails with a deadlock if it is refused, and
not otherwise, also if it is not patient. -/
theorem request_failed_iff (hw : s.isWaiting txn = false) (patient : Bool) :
    (s.request patient txn page access).2 = .failed (.wouldDeadlock txn page) ↔
      (s.acquire txn page access).2 = .refused := by
  unfold request
  rw [if_neg (by simp [hw])]
  rcases hacq : s.acquire txn page access with ⟨s', answer⟩
  cases answer with
  | granted => simp
  | refused => simp
  | waiting =>
    cases patient
    · simp only [Bool.false_eq_true, if_false]
      split <;> simp
    · simp

/-! ## The law -/

/-- A request that a transaction's hold does not cover is refused exactly when it would close a
cycle of real waits, one that can be granted at once never is, and the edges of the graph are
the real waits. -/
theorem refused_iff_closes_cycle (h : s.Reachable) :
    (∀ txn page access, s.isWaiting txn = false →
      (s.table.heldMode txn page).any (·.covers access) = false →
      (∀ patient, (s.request patient txn page access).2 = .failed (.wouldDeadlock txn page) ↔
        (s.acquire txn page access).2 = .refused) ∧
      ((s.acquire txn page access).2 = .refused ↔
        ∃ t, TransGen (s.queued txn page access).WaitsFor t t) ∧
      (∀ t, TransGen (s.queued txn page access).WaitsFor t t →
        TransGen (s.queued txn page access).WaitsFor txn txn) ∧
      ((s.table.lockOf page).canGrant txn access = true →
        (s.acquire txn page access).2 = .granted)) ∧
    ∀ u t, (u, t) ∈ WaitGraph.edges s.table.waits.arrivals.values ↔ s.WaitsFor t u := by
  constructor
  · intro txn page access hwait hu
    have hw := isWaiting_eq_false_iff.1 hwait
    exact ⟨request_failed_iff hwait, h.traced.refused_iff h.isStrengthening hw hu,
      fun _ => h.traced.cycle_of_queued hw, h.traced.granted_of_canGrant h.isStrengthening hw hu⟩
  · intro u t
    rw [WaitGraph.mem_edges_iff]
    exact behind_iff_waitsFor h.traced.in_step h.orderly.tidy.exclusive h.isStrengthening t u

/-- Two transactions read a page. The first asks to write it and waits for the second. -/
def upgrading : Locking :=
  ((empty.perform (.acquire ⟨1⟩ ⟨⟨1⟩, 0⟩ .readOnly)).perform
    (.acquire ⟨2⟩ ⟨⟨1⟩, 0⟩ .readOnly)).perform (.acquire ⟨1⟩ ⟨⟨1⟩, 0⟩ .readWrite)

theorem upgrading_reachable : upgrading.Reachable :=
  .step _ (.step _ (.step _ .empty (by decide)) (by decide)) (by decide)

/-- The second one may not ask to write as well: each would wait for the other to stop reading. -/
theorem second_upgrade_closes_cycle :
    (upgrading.acquire ⟨2⟩ ⟨⟨1⟩, 0⟩ .readWrite).2 = .refused ∧
      ∃ t, TransGen (upgrading.queued ⟨2⟩ ⟨⟨1⟩, 0⟩ .readWrite).WaitsFor t t := by
  have hlaw := (refused_iff_closes_cycle upgrading_reachable).1 ⟨2⟩ ⟨⟨1⟩, 0⟩ .readWrite
    (by decide) (by decide)
  have hrefused : (upgrading.acquire ⟨2⟩ ⟨⟨1⟩, 0⟩ .readWrite).2 = .refused := by decide
  exact ⟨hrefused, hlaw.2.1.1 hrefused⟩

end Locking

end PageCache
