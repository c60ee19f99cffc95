-- The graph of waits on its own: requests that arrive, are taken back, released or forgotten
-- in any order, whatever the locks say. No cycle ever stands in it. A request that nothing
-- covers is refused exactly when the graph with it would have a cycle; every such cycle goes
-- through the transaction of the request, and the refusal leaves the graph as it was.
import PageCache.Proofs.Lock.Arrivals
import PageCache.Proofs.Lock.Bookkeeping
import Mathlib.Data.List.Chain

namespace PageCache

open Relation

/-- What can happen to the graph of waits in one step. -/
inductive WaitAction where
  | request (txn : TransactionId) (page : PageId) (access : Access)
  | withdraw (txn : TransactionId) (page : PageId)
  | release (txn : TransactionId) (page : PageId)
  | forget (txn : TransactionId)
deriving DecidableEq

namespace WaitGraph

/-- The graph after an action. -/
def perform (g : WaitGraph) : WaitAction → WaitGraph
  | .request txn page access => (g.request txn page access).1
  | .withdraw txn page => g.withdraw txn page
  | .release txn page => g.release txn page
  | .forget txn => g.forget txn

/-- The graphs that actions can lead to. -/
inductive Reachable : WaitGraph → Prop where
  | empty : Reachable empty
  | step {g : WaitGraph} (a : WaitAction) : Reachable g → Reachable (g.perform a)

end WaitGraph

/-! ## Cycles of requests -/

/-- In the lists of requests for the pages one of `a` comes before one of another transaction
`b` for the same page, and not both only read. -/
def Precedes (on : PageId → List LockRequest) (a b : TransactionId) : Prop :=
  a ≠ b ∧ ∃ page x y, [⟨a, x⟩, ⟨b, y⟩].Sublist (on page) ∧ (x = .readWrite ∨ y = .readWrite)

/-- Transactions that precede each other in a ring: each the next one, and the last the
first. -/
def IsCycle (on : PageId → List LockRequest) : List TransactionId → Prop
  | [] => False
  | t :: rest => List.IsChain (Precedes on) (t :: rest ++ [t])

/-- The lists with one more request for a page. -/
def appended (on : PageId → List LockRequest) (page : PageId) (r : LockRequest)
    (p : PageId) : List LockRequest :=
  if p = page then on page ++ [r] else on p

section

variable {on : PageId → List LockRequest} {page : PageId} {r : LockRequest}

theorem isChain_of_transGen {α : Type} {R : α → α → Prop} {a b : α} (h : TransGen R a b) :
    ∃ between, List.IsChain R (a :: between ++ [b]) := by
  induction h with
  | single hab => exact ⟨[], by simpa using hab⟩
  | @tail b c _ hbc ih =>
    obtain ⟨between, hchain⟩ := ih
    refine ⟨between ++ [b], ?_⟩
    rw [← List.cons_append, List.isChain_append]
    refine ⟨hchain, List.isChain_singleton c, ?_⟩
    rw [List.getLast?_concat]
    simpa using hbc

theorem transGen_of_isChain {α : Type} {R : α → α → Prop} {a b : α} {between : List α}
    (h : List.IsChain R (a :: between ++ [b])) : TransGen R a b := by
  induction between generalizing a with
  | nil => exact TransGen.single (by simpa using h)
  | cons c rest ih =>
    rw [List.cons_append, List.cons_append, List.isChain_cons_cons] at h
    exact TransGen.head h.1 (ih h.2)

/-- Some transactions stand in a ring exactly when one precedes itself over others. -/
theorem exists_isCycle_iff : (∃ ts, IsCycle on ts) ↔ ∃ t, TransGen (Precedes on) t t := by
  constructor
  · rintro ⟨ts, hts⟩
    cases ts with
    | nil => cases hts
    | cons t rest => exact ⟨t, transGen_of_isChain hts⟩
  · rintro ⟨t, ht⟩
    obtain ⟨rest, hchain⟩ := isChain_of_transGen ht
    exact ⟨t :: rest, hchain⟩

/-- A new request precedes nothing: what it adds leads to its own transaction. -/
theorem precedes_of_appended {a b : TransactionId} (h : Precedes (appended on page r) a b)
    (hb : b ≠ r.txn) : Precedes on a b := by
  obtain ⟨hne, p, x, y, hsub, hw⟩ := h
  refine ⟨hne, p, x, y, ?_, hw⟩
  unfold appended at hsub
  split at hsub
  · rename_i hp
    obtain ⟨s₁, s₂, hs, h₁, h₂⟩ := List.sublist_append_iff.1 hsub
    rcases List.sublist_singleton.1 h₂ with rfl | rfl
    · rw [List.append_nil] at hs
      rw [hp, hs]
      exact h₁
    · have hlast : s₁ ++ [r] = [⟨a, x⟩] ++ [⟨b, y⟩] := hs.symm
      obtain ⟨-, hr⟩ := List.append_inj' hlast rfl
      exact absurd (congrArg LockRequest.txn (List.cons.inj hr).1).symm hb
  · exact hsub

/-- A ring that is closed by a new request goes through its transaction. -/
theorem mem_of_isCycle_appended (hno : ∀ ts, ¬ IsCycle on ts) {ts : List TransactionId}
    (h : IsCycle (appended on page r) ts) : r.txn ∈ ts := by
  by_contra hmem
  cases ts with
  | nil => cases h
  | cons t rest =>
    apply hno (t :: rest)
    apply List.IsChain.imp_of_mem_imp _ h
    intro a b _ hb hab
    apply precedes_of_appended hab
    rintro rfl
    rw [List.mem_append, List.mem_singleton] at hb
    rcases hb with hb | rfl
    · exact hmem hb
    · exact hmem List.mem_cons_self

end

/-! ## Steps of the graph -/

namespace WaitGraph

variable {g : WaitGraph} {txn : TransactionId} {page : PageId} {access : Access}

theorem behind_iff_precedes (a b : TransactionId) : g.Behind a b ↔ Precedes g.on a b := by
  unfold Behind Precedes
  simp only [mem_waits_iff]
  constructor
  · rintro ⟨p, ⟨_, x⟩, ⟨_, y⟩, hsub, hc, rfl, rfl⟩
    simp only [LockRequest.conflicts, Bool.and_eq_true, decide_eq_true_eq,
      Bool.not_eq_true'] at hc
    refine ⟨hc.1, p, x, y, hsub, ?_⟩
    revert hc
    cases x <;> cases y <;> simp [Access.compatible]
  · rintro ⟨hne, p, x, y, hsub, hw⟩
    refine ⟨p, ⟨a, x⟩, ⟨b, y⟩, hsub, ?_, rfl, rfl⟩
    rcases hw with rfl | rfl <;> simp [LockRequest.conflicts, Access.compatible, hne]

theorem isAcyclic_iff : g.IsAcyclic ↔ ∀ ts, ¬ IsCycle g.on ts := by
  have hsame : g.Behind = Precedes g.on := by
    funext a b
    exact propext (behind_iff_precedes a b)
  rw [← not_exists, exists_isCycle_iff, not_exists]
  unfold IsAcyclic
  rw [hsame]

theorem on_list_append : (g.list page (g.on page ++ [⟨txn, access⟩])).on =
    appended g.on page ⟨txn, access⟩ := by
  funext p
  exact on_list _

/-- A page without requests is not listed. -/
theorem get?_of_on_nil (h : g.arrivals.Lacks []) (hnil : g.on page = []) :
    g.arrivals.get? page = none := by
  unfold on at hnil
  rcases hp : g.arrivals.get? page with _ | requests
  · rfl
  · rw [hp, Option.getD_some] at hnil
    exact absurd (hnil ▸ hp) (h page)

/-- A request that is taken back at once leaves the graph as it was. -/
theorem withdraw_list_append (h : g.arrivals.Lacks []) :
    (g.list page (g.on page ++ [⟨txn, access⟩])).withdraw txn page = g := by
  unfold withdraw
  rw [on_list, if_pos rfl, dropLast_append_self]
  unfold list
  have hnew : (g.on page ++ [(⟨txn, access⟩ : LockRequest)]).isEmpty = false := by simp
  simp only [hnew, Bool.false_eq_true, if_false]
  split
  · rename_i hnil
    have hnone := get?_of_on_nil h (List.isEmpty_iff.1 hnil)
    rw [FinMap.erase_insert_of_get? hnone]
  · rename_i hne
    have hsome : g.arrivals.get? page = some (g.on page) := by
      unfold on at hne ⊢
      rcases hp : g.arrivals.get? page with _ | requests
      · simp [hp] at hne
      · rfl
    rw [FinMap.insert_insert_of_get? hsome]

theorem request_of_covered
    (h : ∃ r ∈ g.on page, r.txn = txn ∧ r.access.covers access = true) :
    g.request txn page access = (g, .covered) := by
  unfold request
  rw [if_pos (by simpa using h)]

theorem request_of_uncovered
    (h : ¬ ∃ r ∈ g.on page, r.txn = txn ∧ r.access.covers access = true) :
    g.request txn page access =
      if hasCycle (g.list page (g.on page ++ [⟨txn, access⟩])).arrivals.values then
        ((g.list page (g.on page ++ [⟨txn, access⟩])).withdraw txn page, .refused)
      else (g.list page (g.on page ++ [⟨txn, access⟩]), .added) := by
  unfold request
  rw [if_neg (by simpa using h)]

theorem hasCycle_list_append_iff :
    hasCycle (g.list page (g.on page ++ [⟨txn, access⟩])).arrivals.values = true ↔
      ∃ ts, IsCycle (appended g.on page ⟨txn, access⟩) ts := by
  rw [← Bool.not_eq_false, hasCycle_eq_false_iff, isAcyclic_iff, on_list_append]
  push Not
  rfl

theorem get?_list_append (p : PageId) :
    (g.list page (g.on page ++ [⟨txn, access⟩])).arrivals.get? p =
      if p = page then some (g.on page ++ [⟨txn, access⟩]) else g.arrivals.get? p := by
  unfold list
  rw [if_neg (by simp), FinMap.get?_insert]

theorem isAcyclic_request (h : g.IsAcyclic) : (g.request txn page access).1.IsAcyclic := by
  rcases g.request_cases txn page access with ⟨-, he⟩ | ⟨-, g', he, hon⟩ | ⟨-, g', he, hacyc, -⟩
  · rw [he]
    exact h
  · rw [he]
    apply isAcyclic_of_sublist h
    intro p
    rw [hon p]
  · rw [he]
    exact hacyc

theorem isAcyclic_perform (h : g.IsAcyclic) (a : WaitAction) : (g.perform a).IsAcyclic := by
  cases a with
  | request txn page access => exact isAcyclic_request h
  | withdraw txn page => exact isAcyclic_of_sublist h on_withdraw_sublist
  | release txn page => exact isAcyclic_of_sublist h on_release_sublist
  | forget txn => exact isAcyclic_of_sublist h on_forget_sublist

theorem lacks_perform (h : g.arrivals.Lacks []) (a : WaitAction) :
    (g.perform a).arrivals.Lacks [] := by
  cases a with
  | request txn page access => exact lacks_request h txn page access
  | withdraw txn page => exact lacks_list h page _
  | release txn page => exact lacks_list h page _
  | forget txn => exact lacks_forget

theorem Reachable.isAcyclic (h : g.Reachable) : g.IsAcyclic := by
  induction h with
  | empty => exact isAcyclic_empty
  | step a _ ih => exact isAcyclic_perform ih a

theorem Reachable.lacks (h : g.Reachable) : g.arrivals.Lacks [] := by
  induction h with
  | empty => exact FinMap.lacks_empty
  | step a _ ih => exact lacks_perform ih a

/-! ## The law -/

/-- No cycle ever stands in the graph. A request that an earlier one of its transaction covers
changes nothing. Any other one is refused exactly when the lists with it have a cycle, and then
every cycle goes through its transaction; refused, it leaves the graph as it was, and accepted,
it is the new last request for its page while all other lists stay. -/
theorem refused_exactly_when_closing (h : g.Reachable) :
    (∀ ts, ¬ IsCycle g.on ts) ∧
    ∀ txn page access,
      ((∃ r ∈ g.on page, r.txn = txn ∧ r.access.covers access = true) →
        g.request txn page access = (g, .covered)) ∧
      ((¬ ∃ r ∈ g.on page, r.txn = txn ∧ r.access.covers access = true) →
        ((g.request txn page access).2 = .refused ↔
          ∃ ts, IsCycle (appended g.on page ⟨txn, access⟩) ts) ∧
        (∀ ts, IsCycle (appended g.on page ⟨txn, access⟩) ts → txn ∈ ts) ∧
        ((g.request txn page access).2 = .refused → (g.request txn page access).1 = g) ∧
        ((g.request txn page access).2 ≠ .refused →
          (g.request txn page access).2 = .added ∧
            ∀ p, (g.request txn page access).1.arrivals.get? p =
              if p = page then some (g.on page ++ [⟨txn, access⟩]) else g.arrivals.get? p)) := by
  have hno := isAcyclic_iff.1 h.isAcyclic
  refine ⟨hno, fun txn page access => ⟨request_of_covered, fun hnot => ?_⟩⟩
  have hthrough : ∀ ts, IsCycle (appended g.on page ⟨txn, access⟩) ts → txn ∈ ts :=
    fun ts hts => mem_of_isCycle_appended hno hts
  have he := request_of_uncovered hnot
  by_cases hcyc : ∃ ts, IsCycle (appended g.on page ⟨txn, access⟩) ts
  · rw [if_pos (hasCycle_list_append_iff.2 hcyc), withdraw_list_append h.lacks] at he
    rw [he]
    exact ⟨iff_of_true rfl hcyc, hthrough, fun _ => rfl, fun hne => absurd rfl hne⟩
  · rw [if_neg (mt hasCycle_list_append_iff.1 hcyc)] at he
    rw [he]
    refine ⟨iff_of_false (by simp) hcyc, hthrough, by simp, fun _ => ⟨rfl, fun p => ?_⟩⟩
    exact get?_list_append p

/-- Three transactions write a page each; the first two ask for the page of the next one. -/
def openRing : WaitGraph :=
  ((((empty.perform (.request ⟨1⟩ ⟨⟨1⟩, 0⟩ .readWrite)).perform
    (.request ⟨2⟩ ⟨⟨1⟩, 1⟩ .readWrite)).perform (.request ⟨3⟩ ⟨⟨2⟩, 0⟩ .readWrite)).perform
    (.request ⟨1⟩ ⟨⟨1⟩, 1⟩ .readOnly)).perform (.request ⟨2⟩ ⟨⟨2⟩, 0⟩ .readWrite)

theorem openRing_reachable : openRing.Reachable :=
  .step _ (.step _ (.step _ (.step _ (.step _ .empty))))

/-- The third one may not close the ring, not even to read. -/
theorem refused_exactly_when_closing_openRing :
    openRing.Reachable ∧
      (¬ ∃ r ∈ openRing.on ⟨⟨1⟩, 0⟩, r.txn = ⟨3⟩ ∧ r.access.covers .readOnly = true) ∧
      (openRing.request ⟨3⟩ ⟨⟨1⟩, 0⟩ .readOnly).2 = .refused ∧
      (∃ ts, IsCycle (appended openRing.on ⟨⟨1⟩, 0⟩ ⟨⟨3⟩, .readOnly⟩) ts) ∧
      (openRing.request ⟨3⟩ ⟨⟨1⟩, 0⟩ .readOnly).1 = openRing := by
  have hnot : ¬ ∃ r ∈ openRing.on ⟨⟨1⟩, 0⟩, r.txn = ⟨3⟩ ∧ r.access.covers .readOnly = true := by
    decide
  have hrefused : (openRing.request ⟨3⟩ ⟨⟨1⟩, 0⟩ .readOnly).2 = .refused := by decide
  obtain ⟨hiff, -, hsame, -⟩ :=
    ((refused_exactly_when_closing openRing_reachable).2 ⟨3⟩ ⟨⟨1⟩, 0⟩ .readOnly).2 hnot
  exact ⟨openRing_reachable, hnot, hrefused, hiff.1 hrefused, hsame hrefused⟩

end WaitGraph

end PageCache
