-- What one transaction at work does to the locks. The others hold what they held and wait for what
-- they waited for, and each request changes the holding of one page at most, and never weakens it.
import PageCache.Proofs.Lock.Turns

namespace PageCache

/-- Whatever is held is enough for reading. -/
theorem Access.eq_none_of_uncovered {held : Option Access}
    (h : held.any (·.covers .readOnly) = false) : held = none := by
  rcases held with _ | m
  · rfl
  · cases m <;> cases h

/-- The holdings of a transaction before and after. They differ on one page at most, and what was
held there is covered by what is held now. -/
structure Raised (page : PageId) (held now : PageId → Option Access) : Prop where
  elsewhere : ∀ other, other ≠ page → now other = held other
  covered : ∀ m, held page = some m → ∃ m', now page = some m' ∧ m'.covers m = true

namespace Raised

variable {page : PageId} {held now later : PageId → Option Access} {access : Access}

theorem refl (page : PageId) (held : PageId → Option Access) : Raised page held held :=
  ⟨fun _ _ => rfl, fun m hm => ⟨m, hm, m.covers_self⟩⟩

theorem of_eq (page : PageId) (h : now = held) : Raised page held now := h ▸ refl page held

theorem trans (h₁ : Raised page held now) (h₂ : Raised page now later) :
    Raised page held later where
  elsewhere other hne := (h₂.elsewhere other hne).trans (h₁.elsewhere other hne)
  covered m hm := by
    obtain ⟨m₁, hm₁, hcov₁⟩ := h₁.covered m hm
    obtain ⟨m₂, hm₂, hcov₂⟩ := h₂.covered m₁ hm₁
    exact ⟨m₂, hm₂, Access.covers_trans hcov₂ hcov₁⟩

end Raised

namespace Locking

variable {s s' s'' : Locking} {txn u : TransactionId} {page p : PageId} {access : Access}
  {r : PendingLock}

/-- Only one transaction was at work: the locks are in order, and the others hold what they held
and wait for what they waited for. -/
structure Alone (txn : TransactionId) (s s' : Locking) : Prop where
  orderly : s'.Orderly
  pending : ∀ u, u ≠ txn → s'.pending.get? u = s.pending.get? u
  modes : ∀ u, u ≠ txn → s'.table.heldMode u = s.table.heldMode u

theorem Alone.refl (h : s.Orderly) (txn : TransactionId) : s.Alone txn s :=
  ⟨h, fun _ _ => rfl, fun _ _ => rfl⟩

theorem Alone.trans (h₁ : s.Alone txn s') (h₂ : s'.Alone txn s'') : s.Alone txn s'' where
  orderly := h₂.orderly
  pending u hu := (h₂.pending u hu).trans (h₁.pending u hu)
  modes u hu := (h₂.modes u hu).trans (h₁.modes u hu)

/-- The transaction was granted an access that it did not have; nothing else has changed. -/
structure Grants (txn : TransactionId) (page : PageId) (access : Access) (s s' : Locking) :
    Prop where
  uncovered : (s.table.heldMode txn page).any (·.covers access) = false
  modes : ∀ u p, s'.table.heldMode u p =
    if u = txn ∧ p = page then some access else s.table.heldMode u p

theorem Grants.own (h : s.Grants txn page access s') :
    s'.table.heldMode txn page = some access := by
  rw [h.modes, if_pos ⟨rfl, rfl⟩]

theorem Grants.elsewhere (h : s.Grants txn page access s') (hp : p ≠ page) :
    s'.table.heldMode txn p = s.table.heldMode txn p := by
  rw [h.modes, if_neg fun heq => hp heq.2]

theorem Grants.others (h : s.Grants txn page access s') (hu : u ≠ txn) :
    s'.table.heldMode u = s.table.heldMode u := by
  funext p
  rw [h.modes, if_neg fun heq => hu heq.1]

/-- What is granted is more than what was held. -/
theorem Grants.raised (h : s.Grants txn page access s') :
    Raised page (s.table.heldMode txn) (s'.table.heldMode txn) where
  elsewhere _ hp := h.elsewhere hp
  covered m hm := by
    refine ⟨access, h.own, ?_⟩
    have hnot := h.uncovered
    rw [hm, Option.any_some] at hnot
    exact Access.covers_of_not_covers hnot m.covers_self

/-- The transaction has the access: it was granted, or what was held before is enough. -/
def Gets (txn : TransactionId) (page : PageId) (access : Access) (s s' : Locking) : Prop :=
  s.Grants txn page access s' ∨
    s'.table.heldMode = s.table.heldMode ∧
      (s.table.heldMode txn page).any (·.covers access) = true

theorem Gets.raised (h : s.Gets txn page access s') :
    Raised page (s.table.heldMode txn) (s'.table.heldMode txn) := by
  rcases h with hgrants | ⟨hsame, -⟩
  · exact hgrants.raised
  · exact .of_eq page (by rw [hsame])

theorem Gets.own (h : s.Gets txn page access s') :
    ∃ m, s'.table.heldMode txn page = some m ∧ m.covers access = true := by
  rcases h with hgrants | ⟨hsame, hcov⟩
  · exact ⟨access, hgrants.own, access.covers_self⟩
  · rw [hsame]
    exact (Option.any_eq_true _ _).1 hcov

theorem Gets.kept (h : s.Gets txn page access s') (hholds : s.table.holds txn p = true) :
    s'.table.holds txn p = true := by
  rw [LockTable.holds_iff] at hholds ⊢
  by_cases hp : p = page
  · obtain ⟨m, hm, -⟩ := h.own
    simp [hp, hm]
  · rw [h.raised.elsewhere p hp]
    exact hholds

/-- A page that is held in any way needs no lock for reading. -/
theorem Gets.readOnly (h : s.Gets txn page .readOnly s') :
    (s.Grants txn page .readOnly s' ∧ s.table.heldMode txn page = none) ∨
      (s'.table.heldMode = s.table.heldMode ∧ s.table.heldMode txn page ≠ none) := by
  rcases h with hgrants | ⟨hsame, hcov⟩
  · exact Or.inl ⟨hgrants, Access.eq_none_of_uncovered hgrants.uncovered⟩
  · right
    obtain ⟨m, hm, -⟩ := (Option.any_eq_true _ _).1 hcov
    refine ⟨hsame, ?_⟩
    rw [hm]
    exact Option.some_ne_none m

/-! ## Single actions -/

/-- A request gets what it asks for, or leaves all holdings as they are. -/
theorem holdings_acquire (s : Locking) (txn : TransactionId) (page : PageId) (access : Access) :
    ((s.acquire txn page access).2 = .granted ∧
        s.Gets txn page access (s.acquire txn page access).1) ∨
      ((s.acquire txn page access).2 ≠ .granted ∧
        (s.acquire txn page access).1.table.heldMode = s.table.heldMode) := by
  rcases s.acquire_cases txn page access with ⟨hcov, he⟩ | ⟨hnot, waits, verdict, -, hcase⟩
  · rw [he]
    exact Or.inl ⟨rfl, Or.inr ⟨rfl, hcov⟩⟩
  · rcases hcase with ⟨-, he⟩ | ⟨-, hgrant, he⟩ | ⟨-, -, he⟩ <;> rw [he]
    · exact Or.inr ⟨fun hgranted => (by cases hgranted), rfl⟩
    · exact Or.inl ⟨rfl, Or.inl ⟨hnot, heldMode_grant_of_uncovered
        (s := { s with table := { s.table with waits } }) hgrant hnot⟩⟩
    · refine Or.inr ⟨fun hgranted => (by cases hgranted), ?_⟩
      funext u p
      exact LockTable.heldMode_store (fun _ => PageLock.heldBy_enqueue) u p

/-- A request that is looked at again is granted, or leaves all holdings as they are. -/
theorem Orderly.holdings_recheck (h : s.Orderly) (hr : s.pending.get? txn = some r) :
    ((s.recheck txn).2 = some r ∧ s.Grants txn r.page r.access (s.recheck txn).1) ∨
      ((s.recheck txn).2 = none ∧ (s.recheck txn).1.table.heldMode = s.table.heldMode) := by
  rcases s.recheck_cases txn with ⟨hnone, -⟩ | ⟨q, hq, hcase⟩
  · rw [hr] at hnone
    cases hnone
  · rw [hr, Option.some.injEq] at hq
    subst hq
    rcases hcase with ⟨hgrant, he⟩ | ⟨-, he⟩ <;> rw [he]
    · have hnot := h.uncovered txn r hr
      exact Or.inl ⟨rfl, hnot, heldMode_grant_of_uncovered hgrant hnot⟩
    · refine Or.inr ⟨rfl, ?_⟩
      funext u p
      simp only [LockTable.heldMode, h.lockOf_recheck hr]

/-- A request whose time is over is granted in the last moment, or leaves all holdings as they
are. -/
theorem Orderly.holdings_expire (h : s.Orderly) (hr : s.pending.get? txn = some r) :
    (s.isGrantable txn r = true ∧ (s.expire txn).2 = some (r, true) ∧
        s.Grants txn r.page r.access (s.expire txn).1) ∨
      ((s.expire txn).2 = some (r, false) ∧
        (s.expire txn).1.table.heldMode = s.table.heldMode) := by
  rcases s.expire_cases txn with ⟨hnone, -⟩ | ⟨q, hq, hcase⟩
  · rw [hr] at hnone
    cases hnone
  · rw [hr, Option.some.injEq] at hq
    subst hq
    rcases hcase with ⟨hgrant, he⟩ | ⟨-, he⟩ <;> rw [he]
    · have hnot := h.uncovered txn r hr
      exact Or.inl ⟨hgrant, rfl, hnot, heldMode_grant_of_uncovered hgrant hnot⟩
    · refine Or.inr ⟨rfl, ?_⟩
      funext u p
      exact LockTable.heldMode_store (fun _ => PageLock.heldBy_dequeue) u p

/-! ## One transaction at work -/

theorem Alone.of_same (horderly : s'.Orderly)
    (hpending : ∀ u, u ≠ txn → s'.pending.get? u = s.pending.get? u)
    (hmodes : s'.table.heldMode = s.table.heldMode) : s.Alone txn s' :=
  ⟨horderly, hpending, fun _ _ => by rw [hmodes]⟩

theorem Alone.of_grants (horderly : s'.Orderly)
    (hpending : ∀ u, u ≠ txn → s'.pending.get? u = s.pending.get? u)
    (hgrants : s.Grants txn page access s') : s.Alone txn s' :=
  ⟨horderly, hpending, fun _ hu => hgrants.others hu⟩

theorem Orderly.alone_acquire (h : s.Orderly) (hidle : s.pending.get? txn = none) (page : PageId)
    (access : Access) : s.Alone txn (s.acquire txn page access).1 := by
  have hturn := (h.turn_acquire hidle page access).1
  rcases s.holdings_acquire txn page access with ⟨-, hgrants | ⟨hsame, -⟩⟩ | ⟨-, hsame⟩
  · exact .of_grants hturn.orderly hturn.others hgrants
  · exact .of_same hturn.orderly hturn.others hsame
  · exact .of_same hturn.orderly hturn.others hsame

theorem Orderly.alone_recheck (h : s.Orderly) (hr : s.pending.get? txn = some r) :
    s.Alone txn (s.recheck txn).1 := by
  have hturn := (h.turn_recheck txn).1
  rcases h.holdings_recheck hr with ⟨-, hgrants⟩ | ⟨-, hsame⟩
  · exact .of_grants hturn.orderly hturn.others hgrants
  · exact .of_same hturn.orderly hturn.others hsame

theorem Orderly.alone_expire (h : s.Orderly) (hr : s.pending.get? txn = some r) :
    s.Alone txn (s.expire txn).1 := by
  have hturn := (h.turn_expire hr).1
  rcases h.holdings_expire hr with ⟨-, -, hgrants⟩ | ⟨-, hsame⟩
  · exact .of_grants hturn.orderly hturn.others hgrants
  · exact .of_same hturn.orderly hturn.others hsame

theorem Orderly.alone_release (h : s.Orderly) (txn : TransactionId) (page : PageId) :
    s.Alone txn (s.release txn page) where
  orderly := h.release txn page
  pending _ _ := rfl
  modes u hu := by
    funext p
    rw [Locking.release, LockTable.heldMode_release h.tidy, if_neg fun heq => hu heq.1]

theorem Orderly.alone_releaseAll (h : s.Orderly) (txn : TransactionId) :
    s.Alone txn (s.releaseAll txn) where
  orderly := h.releaseAll txn
  pending _ _ := rfl
  modes u hu := by
    funext p
    rw [Locking.releaseAll, LockTable.heldMode_releaseAll h.tidy, if_neg hu]

/-- A lock that was just granted for reading, on a page that was not held, is given back: all is
held as it was before. -/
theorem Grants.undone (h : s.Grants txn page access s') (hs' : s'.Orderly)
    (hnone : s.table.heldMode txn page = none) :
    (s'.release txn page).table.heldMode txn = s.table.heldMode txn := by
  funext p
  rw [Locking.release, LockTable.heldMode_release hs'.tidy]
  by_cases hp : p = page
  · rw [hp, if_pos ⟨rfl, rfl⟩, hnone]
  · rw [if_neg fun heq => hp heq.2, h.elsewhere hp]

end Locking

end PageCache
