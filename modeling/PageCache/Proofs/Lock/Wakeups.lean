-- Who has to be woken, and when. A request that waits becomes grantable only where something is
-- released or a request is given up. All that can be granted then is granted in whatever order
-- the transactions look again, and the locks are the same after it.
import PageCache.Proofs.Lock.Effects
import PageCache.Proofs.Lock.Turns

namespace PageCache

/-! ## Grants and the rest of the queue -/

namespace PageLock

variable {l : PageLock} {txn u : TransactionId} {access m : Access}

/-- Of two transactions in a queue, one stands ahead of the other. -/
theorem mem_ahead_or_ahead (hnd : (l.queue.map LockRequest.txn).Nodup) {r : LockRequest}
    (hr : r ∈ l.queue) (hne : r.txn ≠ txn) :
    r ∈ l.ahead txn ∨ ∃ q ∈ l.ahead r.txn, q.txn = txn := by
  unfold ahead
  generalize l.queue = queue at *
  induction queue with
  | nil => cases hr
  | cons x rest ih =>
    rw [List.map_cons, List.nodup_cons] at hnd
    by_cases hx : x.txn = txn
    · exact Or.inr ⟨x, by simp [hx, hne.symm], hx⟩
    · rcases List.mem_cons.1 hr with rfl | hmem
      · exact Or.inl (by simp [hx])
      · have hdiff : x.txn ≠ r.txn := fun heq => hnd.1 (heq ▸ List.mem_map_of_mem hmem)
        rcases ih hnd.2 hmem with hahead | ⟨q, hq, hqt⟩
        · rw [List.takeWhile_cons_of_pos (by simpa using hx)]
          exact Or.inl (List.mem_cons_of_mem _ hahead)
        · refine Or.inr ⟨q, ?_, hqt⟩
          rw [List.takeWhile_cons_of_pos (by simpa using hdiff)]
          exact List.mem_cons_of_mem _ hq

theorem canGrant_enqueue (h : u = txn ∨ ∃ r ∈ l.queue, r.txn = u) :
    (l.enqueue txn access).canGrant u m = l.canGrant u m := by
  have hallow : (l.enqueue txn access).holdersAllow u m = l.holdersAllow u m := by
    unfold enqueue
    split <;> rfl
  rw [canGrant, canGrant, ahead_enqueue h, hallow]

/-- A grant neither makes another request grantable nor takes that away from it. -/
theorem canGrant_grant (hnd : (l.queue.map LockRequest.txn).Nodup)
    (hown : ∀ q ∈ l.queue, q.txn = txn → q.access = access)
    (hg : l.canGrant txn access = true) (hw : l.writer ≠ some txn) {r : LockRequest}
    (hr : r ∈ l.queue) (hne : r.txn ≠ txn) :
    (l.grant txn access).canGrant r.txn r.access = l.canGrant r.txn r.access := by
  have hallow : l.holdersAllow txn access = true := by
    simp only [canGrant, Bool.and_eq_true] at hg
    exact hg.1
  by_cases hc : access.compatible r.access = true
  · -- both read: the writer is the same, and no request that excludes readers has left
    obtain ⟨rfl, hread⟩ := (Access.compatible_iff _ _).1 hc
    have hholders : (l.grant txn .readOnly).holdersAllow r.txn r.access =
        l.holdersAllow r.txn r.access := by
      rw [hread]
      simp only [grant]
      split <;> rfl
    have hahead : ((l.grant txn .readOnly).ahead r.txn).all (·.access.compatible r.access) =
        (l.ahead r.txn).all (·.access.compatible r.access) := by
      rw [ahead_grant, ahead_dequeue hne, Bool.eq_iff_iff, List.all_eq_true, List.all_eq_true]
      constructor
      · intro hall q hq
        by_cases hqt : q.txn = txn
        · rw [hown q (mem_queue_of_mem_ahead hq) hqt]
          exact hc
        · exact hall q (by simpa [hqt] using hq)
      · intro hall q hq
        exact hall q (List.mem_of_mem_filter hq)
    rw [canGrant, canGrant, hholders, hahead]
  · -- one of them writes: the other has to wait, before the grant and after it
    rw [Bool.not_eq_true] at hc
    have hheld : (l.grant txn access).heldBy txn = some access := by
      rw [heldBy_grant hallow hw, if_pos rfl]
    rw [not_canGrant_of_held hheld hne.symm hc]
    symm
    rcases mem_ahead_or_ahead hnd hr hne with hahead | ⟨q, hq, rfl⟩
    · rw [Access.compatible_comm] at hc
      rw [not_canGrant_of_ahead hahead hc] at hg
      cases hg
    · rw [← hown q (mem_queue_of_mem_ahead hq) rfl] at hc
      exact not_canGrant_of_ahead hq hc

end PageLock

namespace Locking

variable {s s' : Locking} {txn u : TransactionId} {page p : PageId} {access : Access}
  {a : LockAction} {told : Option LockEvent} {r q : LockRequest}

/-- The request waits for the page and can be granted now. -/
def Ready (s : Locking) (page : PageId) (r : LockRequest) : Prop :=
  r ∈ (s.table.lockOf page).queue ∧ (s.table.lockOf page).canGrant r.txn r.access = true

instance : Decidable (s.Ready page r) := inferInstanceAs (Decidable (_ ∧ _))

theorem ready_congr (h : s'.table.lockOf p = s.table.lockOf p) : s'.Ready p q ↔ s.Ready p q := by
  rw [Ready, Ready, h]

/-! ## Steps -/

/-- When a request is granted, the others are ready that were ready before. -/
theorem Orderly.ready_granted (h : s.Orderly)
    (asked : ∀ r, s.pending.get? txn = some r → r.page = page ∧ r.access = access)
    (uncovered : (s.table.heldMode txn page).any (·.covers access) = false)
    (allowed : (s.table.lockOf page).canGrant txn access = true)
    (locks : ∀ p, s'.table.lockOf p =
      if p = page then (s.table.lockOf page).grant txn access else s.table.lockOf p) :
    s'.Ready p q ↔ s.Ready p q ∧ q.txn ≠ txn := by
  by_cases hp : p = page
  · subst hp
    have hown : ∀ r ∈ (s.table.lockOf p).queue, r.txn = txn → r.access = access := by
      rintro r hr rfl
      obtain ⟨entered, hpending⟩ := (h.mem_queue_iff p r).1 hr
      exact (asked _ hpending).2
    have hothers := fun hmem hne => PageLock.canGrant_grant (h.queue_nodup p) hown allowed
      (PageLock.not_writer_of_uncovered uncovered) (r := q) hmem hne
    have hqueue : q ∈ (s'.table.lockOf p).queue ↔ q ∈ (s.table.lockOf p).queue ∧ q.txn ≠ txn := by
      rw [locks, if_pos rfl, PageLock.queue_grant, List.mem_filter, decide_eq_true_eq]
    rw [Ready, Ready, hqueue, locks, if_pos rfl]
    constructor
    · rintro ⟨⟨hmem, hne⟩, hg⟩
      exact ⟨⟨hmem, hothers hmem hne ▸ hg⟩, hne⟩
    · rintro ⟨⟨hmem, hg⟩, hne⟩
      exact ⟨⟨hmem, hne⟩, (hothers hmem hne).symm ▸ hg⟩
  · have hsame : s'.Ready p q ↔ s.Ready p q := ready_congr (by rw [locks, if_neg hp])
    refine hsame.trans ⟨fun hr => ⟨hr, ?_⟩, And.left⟩
    rintro rfl
    obtain ⟨entered, hpending⟩ := (h.mem_queue_iff p q).1 hr.1
    exact hp (asked _ hpending).1

/-- What is ready after a step was waiting before it, and ready too if the step wakes nobody. -/
theorem LockEffect.of_ready (e : s.LockEffect a s' told) (h : s.Orderly) (hr : s'.Ready p q) :
    q ∈ (s.table.lockOf p).queue ∧ (s.notifies a = false → s.Ready p q) := by
  cases e with
  | same locks _ =>
    rw [ready_congr (locks p)] at hr
    exact ⟨hr.1, fun _ => hr⟩
  | covered _ locks _ =>
    rw [ready_congr (locks p)] at hr
    exact ⟨hr.1, fun _ => hr⟩
  | @queued txn page access entered idle blocked locks _ =>
    suffices hready : s.Ready p q from ⟨hready.1, fun _ => hready⟩
    by_cases hp : p = page
    · subst hp
      rw [Ready, locks, if_pos rfl, PageLock.mem_queue_enqueue (h.not_queued idle p)] at hr
      obtain ⟨hmem | rfl, hg⟩ := hr
      · rw [PageLock.canGrant_enqueue (Or.inr ⟨q, hmem, rfl⟩)] at hg
        exact ⟨hmem, hg⟩
      · rw [PageLock.canGrant_enqueue (Or.inl rfl), blocked] at hg
        cases hg
    · exact (ready_congr (by rw [locks, if_neg hp])).1 hr
  | granted asked uncovered allowed locks _ =>
    have hready := ((h.ready_granted asked uncovered allowed locks).1 hr).1
    exact ⟨hready.1, fun _ => hready⟩
  | abandoned loud _ locks _ =>
    refine ⟨?_, fun hquiet => absurd hquiet (by simp [loud])⟩
    have hmem := hr.1
    rw [locks] at hmem
    split at hmem
    · rename_i hp
      rw [hp]
      exact List.mem_of_mem_filter hmem
    · exact hmem
  | released loud _ locks _ =>
    refine ⟨?_, fun hquiet => absurd hquiet (by simp [loud])⟩
    have hmem := hr.1
    rw [locks] at hmem
    split at hmem
    · rw [PageLock.queue_release] at hmem
      exact hmem
    · exact hmem

theorem Orderly.not_ready_of_idle (h : s.Orderly) (hw : s.pending.get? q.txn = none) :
    ¬ s.Ready p q :=
  fun hr => h.not_queued hw p q hr.1 rfl

/-- A transaction that has looked at its request again has it granted, or it is not ready. -/
theorem Orderly.not_ready_recheck (h : s.Orderly) : ¬ (s.perform (.recheck q.txn)).Ready p q := by
  have hafter := h.recheck q.txn
  rw [Locking.perform]
  rcases s.recheck_cases q.txn with ⟨hw, he⟩ | ⟨r, hpending, ⟨-, he⟩ | ⟨hg, he⟩⟩
  · rw [he]
    exact h.not_ready_of_idle hw
  · rw [he] at hafter ⊢
    exact hafter.not_ready_of_idle (by simp)
  · rw [he, ready_congr (h.lockOf_recheck hpending p)]
    rintro ⟨hmem, hready⟩
    obtain ⟨rfl, hq⟩ := h.own_request hpending hmem rfl
    rw [congrArg LockRequest.access hq, hg] at hready
    cases hready

theorem Orderly.not_ready_expire (h : s.Orderly) : ¬ (s.perform (.expire q.txn)).Ready p q := by
  have hafter := h.expire q.txn
  rw [Locking.perform]
  rcases s.expire_cases q.txn with ⟨hw, he⟩ | ⟨r, hpending, ⟨-, he⟩ | ⟨-, he⟩⟩
  · rw [he]
    exact h.not_ready_of_idle hw
  · rw [he] at hafter ⊢
    exact hafter.not_ready_of_idle (by simp)
  · rw [he] at hafter ⊢
    exact hafter.not_ready_of_idle (by simp)

/-! ## No wake-up is lost -/

/-- Since something woke a transaction, it has neither looked at its request again nor given up. -/
theorem exists_wakeup {actions : List LockAction} (hadm : empty.AdmitsAllFreely actions)
    (hr : (empty.run actions).Ready p q) :
    ∃ before a after, actions = before ++ a :: after ∧
      q ∈ ((empty.run before).table.lockOf p).queue ∧ (empty.run before).notifies a = true ∧
      ∀ b ∈ after, b ≠ .recheck q.txn ∧ b ≠ .expire q.txn := by
  induction actions using List.reverseRecOn with
  | nil => exact absurd hr (Orderly.empty.not_ready_of_idle rfl)
  | append_singleton actions a ih =>
    obtain ⟨hbefore, hlast⟩ := admitsAllFreely_append.1 hadm
    have ho := (FreelyReachable.empty.run hbefore).orderly
    rw [run_append] at hr
    obtain ⟨hmem, hquiet⟩ := (ho.effect hlast.1).of_ready ho hr
    rcases hn : (empty.run actions).notifies a with _ | _
    · obtain ⟨before, b, after, rfl, hqueue, hnotifies, hsince⟩ := ih hbefore (hquiet hn)
      refine ⟨before, b, after ++ [a], by simp, hqueue, hnotifies, ?_⟩
      intro c hc
      rcases List.mem_append.1 hc with hc | hc
      · exact hsince c hc
      · rw [List.mem_singleton] at hc
        subst hc
        constructor
        · rintro rfl
          exact ho.not_ready_recheck hr
        · rintro rfl
          exact ho.not_ready_expire hr
    · exact ⟨actions, a, [], rfl, hmem, hn, by simp⟩

/-! ## Every order is as good -/

/-- Transactions look at their requests again, one after the other. -/
def rechecks (order : List TransactionId) : List LockAction := order.map .recheck

/-- The transactions of a list have looked at their requests again: those that were ready are
granted, and nothing else has changed. -/
structure Round (s : Locking) (order : List TransactionId) (events : List LockEvent)
    (s' : Locking) : Prop where
  told : ∀ o, o ∈ events ↔
    ∃ p q, s.Ready p q ∧ q.txn ∈ order ∧ o = .granted q.txn p q.access
  ready : ∀ p q, s'.Ready p q ↔ s.Ready p q ∧ q.txn ∉ order
  queue : ∀ p, (s'.table.lockOf p).queue =
    (s.table.lockOf p).queue.filter fun q => ¬ (s.Ready p q ∧ q.txn ∈ order)
  granted : ∀ p q, s.Ready p q → q.txn ∈ order → s'.table.heldMode q.txn p = some q.access
  kept : ∀ u p, (∀ m, s.Ready p ⟨u, m⟩ → u ∉ order) →
    s'.table.heldMode u p = s.table.heldMode u p

namespace Round

variable {s'' : Locking} {order order' : List TransactionId} {events events' : List LockEvent}

/-- Where none of the transactions has a request that is ready, nothing happens. -/
theorem of_same (locks : ∀ p, s'.table.lockOf p = s.table.lockOf p)
    (hnot : ∀ p q, s.Ready p q → q.txn ∉ order) : s.Round order [] s' where
  told o := by
    simp only [List.not_mem_nil, false_iff]
    rintro ⟨p, q, hr, hmem, -⟩
    exact hnot p q hr hmem
  ready p q := by
    rw [ready_congr (locks p)]
    exact ⟨fun hr => ⟨hr, hnot p q hr⟩, And.left⟩
  queue p := by
    rw [locks]
    symm
    rw [List.filter_eq_self]
    intro q _
    exact decide_eq_true fun hr => hnot p q hr.1 hr.2
  granted p q hr hmem := absurd hmem (hnot p q hr)
  kept u p _ := by rw [LockTable.heldMode, LockTable.heldMode, locks]

theorem trans (h₁ : s.Round order events s') (h₂ : s'.Round order' events' s'') :
    s.Round (order ++ order') (events ++ events') s'' where
  told o := by
    rw [List.mem_append, h₁.told, h₂.told]
    constructor
    · rintro (⟨p, q, hr, hmem, rfl⟩ | ⟨p, q, hr, hmem, rfl⟩)
      · exact ⟨p, q, hr, List.mem_append_left _ hmem, rfl⟩
      · exact ⟨p, q, ((h₁.ready p q).1 hr).1, List.mem_append_right _ hmem, rfl⟩
    · rintro ⟨p, q, hr, hmem, rfl⟩
      by_cases hfirst : q.txn ∈ order
      · exact Or.inl ⟨p, q, hr, hfirst, rfl⟩
      · exact Or.inr ⟨p, q, (h₁.ready p q).2 ⟨hr, hfirst⟩,
          (List.mem_append.1 hmem).resolve_left hfirst, rfl⟩
  ready p q := by
    rw [h₂.ready, h₁.ready, List.mem_append, not_or, and_assoc]
  queue p := by
    rw [h₂.queue, h₁.queue, List.filter_filter]
    apply List.filter_congr
    intro q _
    rw [Bool.eq_iff_iff]
    simp only [Bool.and_eq_true, decide_eq_true_eq, h₁.ready, List.mem_append]
    tauto
  granted p q hr hmem := by
    by_cases hfirst : q.txn ∈ order
    · rw [h₂.kept, h₁.granted p q hr hfirst]
      intro m hm
      exact absurd hfirst ((h₁.ready p _).1 hm).2
    · exact h₂.granted p q ((h₁.ready p q).2 ⟨hr, hfirst⟩)
        ((List.mem_append.1 hmem).resolve_left hfirst)
  kept u p hu := by
    rw [h₂.kept, h₁.kept]
    · intro m hm hmem
      exact hu m hm (List.mem_append_left _ hmem)
    · intro m hm hmem
      exact hu m ((h₁.ready p _).1 hm).1 (List.mem_append_right _ hmem)

end Round

/-- One transaction looks at its request again. -/
theorem Orderly.round_recheck (h : s.Orderly) (txn : TransactionId) :
    s.Round [txn] (s.told (.recheck txn)).toList (s.perform (.recheck txn)) := by
  have hlooked : ∀ p q, q.txn = txn → ¬ (s.perform (.recheck txn)).Ready p q := by
    rintro p q rfl
    exact h.not_ready_recheck
  rw [told]
  rw [Locking.perform] at hlooked ⊢
  rcases s.recheck_cases txn with ⟨-, he⟩ | ⟨r, hp, ⟨hg, he⟩ | ⟨-, he⟩⟩
  · rw [he] at hlooked ⊢
    refine .of_same (fun _ => rfl) fun p q hr hmem => ?_
    exact hlooked p q (List.mem_singleton.1 hmem) hr
  · rw [he]
    have hready : s.Ready r.page ⟨txn, r.access⟩ := ⟨h.queued hp, hg⟩
    have hheld := heldMode_grant_of_uncovered hg (h.uncovered txn r hp)
    constructor
    · intro o
      simp only [Option.map_some, Option.toList_some, List.mem_singleton]
      constructor
      · rintro rfl
        exact ⟨r.page, ⟨txn, r.access⟩, hready, rfl, rfl⟩
      · rintro ⟨p, q, hr, hq, rfl⟩
        obtain ⟨rfl, rfl⟩ := h.own_request hp hr.1 hq
        rfl
    · intro p q
      rw [List.mem_singleton]
      exact h.ready_granted (asked_of_pending hp) (h.uncovered txn r hp) hg
        fun _ => LockTable.lockOf_grant
    · intro p
      have hfilter : (s.table.lockOf p).queue.filter (fun q => ¬ (s.Ready p q ∧ q.txn ∈ [txn])) =
          (s.table.lockOf p).queue.filter (·.txn ≠ txn) := by
        apply List.filter_congr
        intro q hq
        rw [decide_eq_decide, not_iff_not, List.mem_singleton, and_iff_right_iff_imp]
        intro hqt
        obtain ⟨rfl, rfl⟩ := h.own_request hp hq hqt
        exact hready
      rw [hfilter, LockTable.lockOf_grant]
      split
      · rename_i hpage
        rw [PageLock.queue_grant, hpage]
      · rename_i hpage
        symm
        rw [List.filter_eq_self]
        simpa using h.not_queued_elsewhere hp hpage
    · intro p q hr hq
      obtain ⟨rfl, rfl⟩ := h.own_request hp hr.1 (List.mem_singleton.1 hq)
      rw [hheld, if_pos ⟨rfl, rfl⟩]
    · intro u p hu
      rw [hheld, if_neg]
      rintro ⟨rfl, rfl⟩
      exact hu _ hready (List.mem_singleton.2 rfl)
  · rw [he] at hlooked ⊢
    refine .of_same (h.lockOf_recheck hp) fun p q hr hmem => ?_
    exact hlooked p q (List.mem_singleton.1 hmem) ((ready_congr (h.lockOf_recheck hp p)).2 hr)

/-- However often and in whatever order transactions look at their requests again, what was ready
is granted. -/
theorem Orderly.round (h : s.Orderly) (order : List TransactionId) :
    s.Round order (s.events (rechecks order)) (s.run (rechecks order)) := by
  induction order generalizing s with
  | nil => exact .of_same (fun _ => rfl) (by simp)
  | cons txn rest ih => exact (h.round_recheck txn).trans (ih (h.recheck txn))

/-! ## The law -/

/-- A step that wakes nobody makes no waiting request ready, so whoever has a request that is
ready was woken since it last looked at it. When one ready request is granted, each other one is
ready or not as before; therefore all of them are granted in whatever order the transactions
that wait look again, and holders and queues are the same after it. -/
theorem wakeups_reach_everyone (h : s.FreelyReachable) :
    (∀ a, s.AdmitsFreely a → s.notifies a = false →
      ∀ p q, (s.perform a).Ready p q → s.Ready p q) ∧
    (∀ actions, empty.AdmitsAllFreely actions → empty.run actions = s → ∀ p q, s.Ready p q →
      ∃ before a after, actions = before ++ a :: after ∧
        q ∈ ((empty.run before).table.lockOf p).queue ∧ (empty.run before).notifies a = true ∧
        ∀ b ∈ after, b ≠ .recheck q.txn ∧ b ≠ .expire q.txn) ∧
    (∀ page r, s.Ready page r →
      s.told (.recheck r.txn) = some (.granted r.txn page r.access) ∧
        ∀ p q, q.txn ≠ r.txn → ((s.perform (.recheck r.txn)).Ready p q ↔ s.Ready p q)) ∧
    ∀ order, (∀ t, s.isWaiting t = true → t ∈ order) →
      (∀ o, o ∈ s.events (rechecks order) ↔
        ∃ p q, s.Ready p q ∧ o = .granted q.txn p q.access) ∧
      (∀ p q, s.Ready p q →
        (s.run (rechecks order)).table.heldMode q.txn p = some q.access) ∧
      (∀ u p, (∀ m, ¬ s.Ready p ⟨u, m⟩) →
        (s.run (rechecks order)).table.heldMode u p = s.table.heldMode u p) ∧
      (∀ p, ((s.run (rechecks order)).table.lockOf p).queue =
        (s.table.lockOf p).queue.filter fun q => ¬ s.Ready p q) ∧
      ∀ p q, ¬ (s.run (rechecks order)).Ready p q := by
  have ho := h.orderly
  refine ⟨?_, ?_, ?_, ?_⟩
  · intro a ha hquiet p q hr
    exact ((ho.effect ha).of_ready ho hr).2 hquiet
  · rintro actions hadm rfl p q hr
    exact exists_wakeup hadm hr
  · intro page r hr
    have hround := ho.round_recheck r.txn
    constructor
    · have hmem := (hround.told _).2 ⟨page, r, hr, List.mem_singleton.2 rfl, rfl⟩
      exact Option.mem_toList.1 hmem
    · intro p q hne
      rw [hround.ready, List.mem_singleton]
      exact ⟨And.left, fun hq => ⟨hq, hne⟩⟩
  · intro order hall
    have hround := ho.round order
    have hmem : ∀ p q, s.Ready p q → q.txn ∈ order := by
      intro p q hr
      obtain ⟨entered, hp⟩ := (ho.mem_queue_iff p q).1 hr.1
      exact hall _ (isWaiting_iff.2 ⟨_, hp⟩)
    refine ⟨fun o => ?_, fun p q hr => hround.granted p q hr (hmem p q hr),
      fun u p hu => hround.kept u p fun m hm => absurd hm (hu m), fun p => ?_, fun p q hr => ?_⟩
    · rw [hround.told]
      constructor
      · rintro ⟨p, q, hr, -, rfl⟩
        exact ⟨p, q, hr, rfl⟩
      · rintro ⟨p, q, hr, rfl⟩
        exact ⟨p, q, hr, hmem p q hr, rfl⟩
    · rw [hround.queue]
      apply List.filter_congr
      intro q _
      rw [decide_eq_decide, not_iff_not]
      exact ⟨And.left, fun hr => ⟨hr, hmem p q hr⟩⟩
    · obtain ⟨hbefore, hnot⟩ := (hround.ready p q).1 hr
      exact hnot (hmem p q hbefore)

/-- The first transaction writes a page. Two ask to read it and one to write it, and wait. Then the
first is at its end. -/
def handedOn : List LockAction :=
  [.acquire ⟨1⟩ ⟨⟨1⟩, 0⟩ .readWrite, .acquire ⟨2⟩ ⟨⟨1⟩, 0⟩ .readOnly,
    .acquire ⟨3⟩ ⟨⟨1⟩, 0⟩ .readOnly, .acquire ⟨4⟩ ⟨⟨1⟩, 0⟩ .readWrite, .releaseAll ⟨1⟩]

/-- Both readers were woken, and both read the page when all have looked again, the last one
first; the writer goes on waiting. It is not ready either when another one asks. -/
theorem wakeups_reach_both_readers :
    (∃ before a after, handedOn = before ++ a :: after ∧
      ⟨⟨3⟩, .readOnly⟩ ∈ ((empty.run before).table.lockOf ⟨⟨1⟩, 0⟩).queue ∧
      (empty.run before).notifies a = true ∧
      ∀ b ∈ after, b ≠ .recheck ⟨3⟩ ∧ b ≠ .expire ⟨3⟩) ∧
    ((empty.run handedOn).run (rechecks [⟨4⟩, ⟨3⟩, ⟨2⟩])).table.heldMode ⟨2⟩ ⟨⟨1⟩, 0⟩ =
      some .readOnly ∧
    ((empty.run handedOn).run (rechecks [⟨4⟩, ⟨3⟩, ⟨2⟩])).table.heldMode ⟨3⟩ ⟨⟨1⟩, 0⟩ =
      some .readOnly ∧
    ¬ ((empty.run handedOn).run (rechecks [⟨4⟩, ⟨3⟩, ⟨2⟩])).Ready ⟨⟨1⟩, 0⟩ ⟨⟨4⟩, .readWrite⟩ ∧
    ¬ ((empty.run handedOn).perform (.acquire ⟨5⟩ ⟨⟨1⟩, 0⟩ .readOnly)).Ready ⟨⟨1⟩, 0⟩
      ⟨⟨4⟩, .readWrite⟩ := by
  have hadm : empty.AdmitsAllFreely handedOn := by decide
  obtain ⟨hquiet, hwoken, -, horder⟩ := wakeups_reach_everyone (FreelyReachable.empty.run hadm)
  have hall : ∀ t, (empty.run handedOn).isWaiting t = true →
      t ∈ [(⟨4⟩ : TransactionId), ⟨3⟩, ⟨2⟩] := by
    intro t ht
    have hkeys : (empty.run handedOn).pending.keys = [⟨2⟩, ⟨3⟩, ⟨4⟩] := by decide
    have hmem := (FinMap.mem_keys_iff _ _).2 (isWaiting_iff.1 ht)
    rw [hkeys] at hmem
    rw [← List.mem_reverse]
    exact hmem
  obtain ⟨-, hgranted, -, -, hdone⟩ := horder [⟨4⟩, ⟨3⟩, ⟨2⟩] hall
  refine ⟨hwoken handedOn hadm rfl ⟨⟨1⟩, 0⟩ ⟨⟨3⟩, .readOnly⟩ (by decide),
    hgranted ⟨⟨1⟩, 0⟩ ⟨⟨2⟩, .readOnly⟩ (by decide),
    hgranted ⟨⟨1⟩, 0⟩ ⟨⟨3⟩, .readOnly⟩ (by decide), hdone _ _, ?_⟩
  intro hr
  have hready := hquiet _ (by decide) (by decide) _ _ hr
  revert hready
  decide

end Locking

end PageCache
