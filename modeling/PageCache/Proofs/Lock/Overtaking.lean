-- First come, first served. A request that waits is granted or given up before any later one
-- that it excludes is granted, whatever happens in between and also while nobody holds the
-- page. A reader that waits to write keeps all other writers away.
import PageCache.Proofs.Lock.Detection
import PageCache.Proofs.Lock.Effects

namespace PageCache

namespace Locking

variable {s s' : Locking} {first second : TransactionId} {page : PageId} {access : Access}
  {a : LockAction} {told : Option LockEvent}

/-- What a request of a transaction does not get past: a waiting request ahead of it, while the
transaction holds nothing that would do. -/
structure HeldBack (s : Locking) (r : LockRequest) (page : PageId) (second : TransactionId)
    (access : Access) : Prop where
  ahead : r ∈ (s.table.lockOf page).ahead second
  uncovered : (s.table.heldMode second page).any (·.covers access) = false

namespace HeldBack

variable {r : LockRequest}

/-- Who asks while a request waits is held back by it. -/
theorem of_pending (h : s.Orderly) {r : PendingLock} (hp : s.pending.get? first = some r)
    (hw : s.pending.get? second = none)
    (hu : (s.table.heldMode second r.page).any (·.covers access) = false) :
    s.HeldBack ⟨first, r.access⟩ r.page second access where
  ahead := by
    rw [PageLock.ahead_eq_queue (h.not_queued hw r.page)]
    exact h.queued hp
  uncovered := hu

/-- The access is not granted, nor one that covers it. -/
theorem not_granted (h : s.HeldBack r page second access)
    (hx : r.access.compatible access = false) {m : Access} (hm : m.covers access = true) :
    (s.table.lockOf page).canGrant second m = false := by
  apply PageLock.not_canGrant_of_ahead h.ahead
  rw [Access.compatible_comm] at hx ⊢
  exact Access.excludes_of_covers hm hx

theorem not_told (h : s.HeldBack r page second access) (hx : r.access.compatible access = false)
    (e : s.LockEffect a s' told) : told ≠ some (.granted second page access) := by
  rintro rfl
  cases e with
  | covered hold _ _ =>
    rw [h.uncovered] at hold
    cases hold
  | granted _ _ allowed _ _ =>
    rw [h.not_granted hx access.covers_self] at allowed
    cases allowed

/-- A step keeps the transaction back, or the request ahead of it is over. -/
theorem step (h : s.HeldBack r page second access) (hx : r.access.compatible access = false)
    (ho : s.Orderly) (e : s.LockEffect a s' told) :
    s'.HeldBack r page second access ∨ ∃ o, told = some o ∧ o.Ends r.txn page r.access := by
  rcases e.ahead_cases ho h.ahead with hahead | hover
  · left
    refine ⟨hahead, ?_⟩
    rcases e.heldMode_cases ho second page with hsame | ⟨m, hg, -, hnew⟩ | ⟨-, hnone⟩
    · rw [hsame]
      exact h.uncovered
    · rw [hnew, Option.any_some, ← Bool.not_eq_true]
      intro hm
      rw [h.not_granted hx hm] at hg
      cases hg
    · rw [hnone]
      rfl
  · exact Or.inr hover

end HeldBack

/-- A reader waits to write the page that it reads. -/
structure Upgrades (s : Locking) (first : TransactionId) (page : PageId) : Prop where
  waits : ∃ r, s.pending.get? first = some r ∧ r.page = page ∧ r.access = .readWrite
  reads : s.table.heldMode first page = some .readOnly

namespace Upgrades

theorem not_told (h : s.Upgrades first page) (ho : s.Orderly) (hne : second ≠ first)
    (e : s.LockEffect a s' told) : told ≠ some (.granted second page .readWrite) := by
  rintro rfl
  cases e with
  | covered hold _ _ =>
    obtain ⟨m, hm, hcov⟩ := (Option.any_eq_true _ _).1 hold
    have hcomp := PageLock.compatible_of_heldBy (ho.tidy.exclusive page) hne h.reads hm
    rw [((Access.compatible_iff _ _).1 hcomp).2] at hcov
    cases hcov
  | granted _ _ allowed _ _ =>
    rw [PageLock.not_canGrant_of_held h.reads hne.symm rfl] at allowed
    cases allowed

/-- The upgrade goes on waiting, if its transaction does not release the page, or is over. -/
theorem step (h : s.Upgrades first page) (ho : s.Orderly) (e : s.LockEffect a s' told)
    (hkeeps : a.frees first page = false) :
    s'.Upgrades first page ∨ ∃ o, told = some o ∧ o.Ends first page .readWrite := by
  obtain ⟨r, hp, rfl, hr⟩ := h.waits
  rcases e.pending_cases hp with hstays | hover
  · rcases e.heldMode_cases ho first r.page with hsame | ⟨-, -, hidle, -⟩ | ⟨hfrees, -⟩
    · exact Or.inl ⟨⟨r, hstays, rfl, hr⟩, hsame.trans h.reads⟩
    · rw [hstays] at hidle
      cases hidle
    · rw [hkeeps] at hfrees
      cases hfrees
  · rw [hr] at hover
    exact Or.inr hover

end Upgrades

/-! ## Runs -/

/-- What each step keeps until something is over, a run keeps until then. -/
theorem run_until (Holds : Locking → Prop) (Done : LockEvent → Prop)
    (hkeep : ∀ s a, s.Orderly → Holds s → s.AdmitsFreely a →
      Holds (s.perform a) ∨ ∃ o, s.told a = some o ∧ Done o)
    (h : s.Orderly) (hs : Holds s) {steps : List LockAction} (hadm : s.AdmitsAllFreely steps) :
    Holds (s.run steps) ∨ ∃ o ∈ s.events steps, Done o := by
  induction steps generalizing s with
  | nil => exact Or.inl hs
  | cons a rest ih =>
    rcases hkeep s a h hs hadm.1 with hholds | ⟨o, ho, hover⟩
    · rcases ih (h.perform_freely hadm.1) hholds hadm.2 with hholds | ⟨o, ho, hover⟩
      · exact Or.inl hholds
      · exact Or.inr ⟨o, List.mem_append_right _ ho, hover⟩
    · exact Or.inr ⟨o, List.mem_append_left _ (by simp [ho]), hover⟩

theorem pending_run (h : s.Orderly) {r : PendingLock} (hp : s.pending.get? first = some r)
    {steps : List LockAction} (hadm : s.AdmitsAllFreely steps) :
    (s.run steps).pending.get? first = some r ∨
      ∃ o ∈ s.events steps, o.Ends first r.page r.access :=
  run_until (fun s => s.pending.get? first = some r) _
    (fun _ _ ho hp ha => (ho.effect ha).pending_cases hp) h hp hadm

theorem heldBack_run (h : s.Orderly) {r : LockRequest} (hx : r.access.compatible access = false)
    (hb : s.HeldBack r page second access) {steps : List LockAction}
    (hadm : s.AdmitsAllFreely steps) :
    (s.run steps).HeldBack r page second access ∨
      ∃ o ∈ s.events steps, o.Ends r.txn page r.access :=
  run_until (fun s => s.HeldBack r page second access) _
    (fun _ _ ho hb ha => hb.step hx ho (ho.effect ha)) h hb hadm

/-- Until the transaction is told that its request is over, no step takes the page from it. -/
def KeepsWhileWaiting (txn : TransactionId) (page : PageId) (access : Access) (s : Locking) :
    List LockAction → Prop
  | [] => True
  | a :: rest => a.frees txn page = false ∧
      ((∃ o, s.told a = some o ∧ o.Ends txn page access) ∨
        KeepsWhileWaiting txn page access (s.perform a) rest)

theorem upgrades_run (h : s.Orderly) (hup : s.Upgrades first page) {steps : List LockAction}
    (hadm : s.AdmitsAllFreely steps) (hkeeps : s.KeepsWhileWaiting first page .readWrite steps) :
    (s.run steps).Upgrades first page ∨
      ∃ o ∈ s.events steps, o.Ends first page .readWrite := by
  induction steps generalizing s with
  | nil => exact Or.inl hup
  | cons a rest ih =>
    have hover : (∃ o, s.told a = some o ∧ o.Ends first page .readWrite) →
        ∃ o ∈ s.events (a :: rest), o.Ends first page .readWrite :=
      fun ⟨o, ho, hends⟩ => ⟨o, List.mem_append_left _ (by simp [ho]), hends⟩
    rcases hup.step h (h.effect hadm.1) hkeeps.1 with hstill | hnow
    · rcases hkeeps.2 with hnow | hrest
      · exact Or.inr (hover hnow)
      · rcases ih (h.perform_freely hadm.1) hstill hadm.2 hrest with hstill | ⟨o, ho, hends⟩
        · exact Or.inl hstill
        · exact Or.inr ⟨o, List.mem_append_right _ ho, hends⟩
    · exact Or.inr (hover hnow)

/-! ## The law -/

/-- From a state where a request of a transaction waits: if another transaction asks for the
page later, in a way that the request excludes, while it holds nothing there that would do, it
is granted that only after the request was granted or given up. If the request is one to write
a page that its transaction reads, and it does not release the page while it waits, nobody else
is granted to write it before, whoever asked first. -/
theorem not_overtaken (h : s.FreelyReachable) {r : PendingLock}
    (hp : s.pending.get? first = some r) :
    (∀ second access, second ≠ first → r.access.compatible access = false →
      ∀ steps last earlier later,
        steps ++ [last] = earlier ++ .acquire second r.page access :: later →
        s.AdmitsAllFreely (steps ++ [last]) →
        ((s.run earlier).table.heldMode second r.page).any (·.covers access) = false →
        (s.run steps).told last = some (.granted second r.page access) →
        ∃ o ∈ s.events steps, o.Ends first r.page r.access) ∧
    (r.access = .readWrite → s.table.heldMode first r.page = some .readOnly →
      ∀ other, other ≠ first → ∀ steps last, s.AdmitsAllFreely (steps ++ [last]) →
        s.KeepsWhileWaiting first r.page .readWrite steps →
        (s.run steps).told last = some (.granted other r.page .readWrite) →
        ∃ o ∈ s.events steps, o.Ends first r.page .readWrite) := by
  constructor
  · intro second access hne hx steps last earlier later hsplit hadm hu ht
    -- the steps from the later request on; the last of them is the grant
    obtain ⟨rest, rfl, hrest⟩ : ∃ rest, steps = earlier ++ rest ∧
        rest ++ [last] = .acquire second r.page access :: later := by
      rcases split_before_last hsplit with ⟨middle, rfl, rfl⟩ | ⟨rfl, hlast, rfl⟩
      · exact ⟨.acquire second r.page access :: middle, rfl, rfl⟩
      · exact ⟨[], (List.append_nil _).symm, by rw [hlast]; rfl⟩
    rw [hsplit, admitsAllFreely_append] at hadm
    obtain ⟨hbefore, hafter⟩ := hadm
    have hidle := isWaiting_eq_false_iff.1 hafter.1
    rw [events_append]
    rcases pending_run h.orderly hp hbefore with hwaits | ⟨o, ho, hover⟩
    · have ho := (h.run hbefore).orderly
      rw [← hrest, admitsAllFreely_append] at hafter
      rcases heldBack_run ho hx (HeldBack.of_pending ho hwaits hidle hu) hafter.1 with
        hback | ⟨o, ho, hover⟩
      · rw [run_append] at ht
        have hlast := ((h.run hbefore).run hafter.1).orderly.effect hafter.2.1
        exact absurd ht (hback.not_told hx hlast)
      · exact ⟨o, List.mem_append_right _ ho, hover⟩
    · exact ⟨o, List.mem_append_left _ ho, hover⟩
  · intro hwrites hreads other hne steps last hadm hkeeps ht
    rw [admitsAllFreely_append] at hadm
    have hstart : s.Upgrades first r.page := ⟨⟨r, hp, rfl, hwrites⟩, hreads⟩
    rcases upgrades_run h.orderly hstart hadm.1 hkeeps with hup | hover
    · have ho := (h.run hadm.1).orderly
      exact absurd ht (hup.not_told ho hne (ho.effect hadm.2.1))
    · exact hover

/-- In `upgrading` a third transaction asks for the page. It is looked at while only the first
one reads the page, and once more when that has written it and is at its end. -/
def behindUpgrade (access : Access) : List LockAction :=
  [.acquire ⟨3⟩ ⟨⟨1⟩, 0⟩ access, .release ⟨2⟩ ⟨⟨1⟩, 0⟩, .recheck ⟨3⟩, .recheck ⟨1⟩,
    .releaseAll ⟨1⟩]

/-- Whether it asks to read or to write, it is granted that after the upgrade. -/
theorem not_overtaken_by_third :
    ((upgrading.run (behindUpgrade .readOnly)).told (.recheck ⟨3⟩) =
        some (.granted ⟨3⟩ ⟨⟨1⟩, 0⟩ .readOnly) ∧
      ∃ o ∈ upgrading.events (behindUpgrade .readOnly), o.Ends ⟨1⟩ ⟨⟨1⟩, 0⟩ .readWrite) ∧
    ((upgrading.run (behindUpgrade .readWrite)).told (.recheck ⟨3⟩) =
        some (.granted ⟨3⟩ ⟨⟨1⟩, 0⟩ .readWrite) ∧
      ∃ o ∈ upgrading.events (behindUpgrade .readWrite), o.Ends ⟨1⟩ ⟨⟨1⟩, 0⟩ .readWrite) := by
  have hwaits : upgrading.pending.get? ⟨1⟩ = some ⟨⟨⟨1⟩, 0⟩, .readWrite, true⟩ := by decide
  obtain ⟨hlater, hupgrade⟩ := not_overtaken upgrading_reachable.freely hwaits
  constructor
  · have hgranted : (upgrading.run (behindUpgrade .readOnly)).told (.recheck ⟨3⟩) =
        some (.granted ⟨3⟩ ⟨⟨1⟩, 0⟩ .readOnly) := by decide
    exact ⟨hgranted, hlater ⟨3⟩ .readOnly (by decide) rfl _ _ [] _ rfl (by decide) (by decide)
      hgranted⟩
  · have hgranted : (upgrading.run (behindUpgrade .readWrite)).told (.recheck ⟨3⟩) =
        some (.granted ⟨3⟩ ⟨⟨1⟩, 0⟩ .readWrite) := by decide
    -- the upgrade is granted in the fourth step; only after that the first releases the page
    have hkeeps : upgrading.KeepsWhileWaiting ⟨1⟩ ⟨⟨1⟩, 0⟩ .readWrite (behindUpgrade .readWrite) :=
      ⟨rfl, Or.inr ⟨rfl, Or.inr ⟨rfl, Or.inr ⟨rfl, Or.inl ⟨_, by decide, Or.inl rfl⟩⟩⟩⟩⟩
    exact ⟨hgranted, hupgrade rfl (by decide) ⟨3⟩ (by decide) _ (.recheck ⟨3⟩) (by decide) hkeeps
      hgranted⟩

end Locking

end PageCache
