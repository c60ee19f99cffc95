-- The elimination of transactions without waits is exact: it takes out all transactions
-- if the waits have no cycle, and gets stuck if they have one. Along the way the number
-- kept for a transaction is the number of its waits for transactions that are left.
import PageCache.Lock.WaitGraph
import Mathlib.Algebra.Order.Ring.Int
import Mathlib.Data.Nat.Cast.Order.Basic
import Mathlib.Data.Set.Finite.List
import Mathlib.Logic.Relation
import Mathlib.Order.WellFounded
import Mathlib.Order.Preorder.Finite

namespace PageCache

open Relation

/-- The waits lead from no transaction back to itself. -/
def Acyclic (edges : List (TransactionId × TransactionId)) : Prop :=
  ∀ t, ¬ TransGen (fun a b => (a, b) ∈ edges) t t

/-! ## Cycles in finite relations -/

/-- Where each member of a nonempty list has a predecessor in the list, there is a cycle. -/
theorem exists_cycle_of_predecessors {α : Type} {r : α → α → Prop} (l : List α) (hl : l ≠ [])
    (h : ∀ t ∈ l, ∃ a ∈ l, r a t) : ∃ t ∈ l, TransGen r t t := by
  by_contra hno
  push Not at hno
  let below : {t // t ∈ l} → {t // t ∈ l} → Prop := fun a b => TransGen r a.1 b.1
  have : Finite {t // t ∈ l} := l.finite_toSet
  have : IsTrans _ below := ⟨fun _ _ _ hab hbc => hab.trans hbc⟩
  have : Std.Irrefl below := ⟨fun a ha => hno a.1 a.2 ha⟩
  have wf : WellFounded below := Finite.wellFounded_of_trans_of_irrefl below
  obtain ⟨x, hx⟩ := List.exists_mem_of_ne_nil l hl
  obtain ⟨m, -, hm⟩ := wf.has_min Set.univ ⟨⟨x, hx⟩, trivial⟩
  obtain ⟨a, ha, hr⟩ := h m.1 m.2
  exact hm ⟨a, ha⟩ trivial (TransGen.single hr)

/-- A member of a cycle has a predecessor on a cycle. -/
theorem exists_predecessor_of_cycle {α : Type} {r : α → α → Prop} {t : α} (h : TransGen r t t) :
    ∃ a, TransGen r a a ∧ r a t := by
  obtain ⟨a, hta, hat⟩ := TransGen.tail'_iff.1 h
  exact ⟨a, TransGen.head' hat hta, hat⟩

/-! ## The numbers of waits -/

namespace Elimination

variable {edges : List (TransactionId × TransactionId)} {e : Elimination}

/-- Each number counts the edges that come from a transaction that is left. -/
def Counts (edges : List (TransactionId × TransactionId)) (e : Elimination) : Prop :=
  ∀ t, e.inDegree t = (edges.countP fun x => x.2 = t ∧ x.1 ∈ e.left : Nat)

theorem foldl_degree (es : List (TransactionId × TransactionId)) (d : TransactionId → Int)
    (t : TransactionId) :
    es.foldl (fun degree edge t => if t = edge.2 then degree t - 1 else degree t) d t =
      d t - (es.countP (·.2 = t) : Nat) := by
  induction es generalizing d with
  | nil => simp
  | cons x rest ih =>
    rw [List.foldl_cons, ih, List.countP_cons]
    by_cases h : t = x.2
    · simp only [h, if_true, decide_true, Nat.cast_add, Nat.cast_one]
      omega
    · simp [h, Ne.symm h]

theorem countP_left_split (edges : List (TransactionId × TransactionId))
    {left : List TransactionId} {node : TransactionId} (hn : node ∈ left) (t : TransactionId) :
    edges.countP (fun x => x.2 = t ∧ x.1 ∈ left) =
      edges.countP (fun x => x.2 = t ∧ x.1 ∈ left.filter (· ≠ node)) +
        (edges.filter (·.1 = node)).countP (·.2 = t) := by
  induction edges with
  | nil => rfl
  | cons x rest ih =>
    by_cases hx : x.1 = node
    · have hleft : x.1 ∈ left := hx ▸ hn
      by_cases ht : x.2 = t <;> simp_all
      omega
    · by_cases ht : x.2 = t <;> by_cases hl : x.1 ∈ left <;> simp_all
      omega

theorem counts_start {nodes : List TransactionId} (h : ∀ x ∈ edges, x.1 ∈ nodes) :
    Counts edges (start nodes edges) := by
  intro t
  simp only [start, Nat.cast_inj]
  apply List.countP_congr
  intro x hx
  simp [h x hx]

theorem counts_remove (h : Counts edges e) {node : TransactionId} (hn : node ∈ e.left) :
    Counts edges (e.remove edges node) := by
  intro t
  change (edges.filter (·.1 = node)).foldl _ e.inDegree t =
    (edges.countP fun x => x.2 = t ∧ x.1 ∈ e.left.filter (· ≠ node) : Nat)
  rw [foldl_degree, h t, countP_left_split edges hn t]
  omega

/-! ## A run of the elimination -/

/-- A step takes out a transaction without waits, or every one that is left has some. -/
theorem step_cases (edges : List (TransactionId × TransactionId)) (e : Elimination) :
    (∃ node ∈ e.left, e.inDegree node = 0 ∧ e.step edges = e.remove edges node) ∨
      ((∀ t ∈ e.left, e.inDegree t ≠ 0) ∧ e.step edges = e) := by
  unfold step
  split
  · rename_i node hf
    exact Or.inl ⟨node, List.mem_of_find?_eq_some hf, by simpa using List.find?_some hf, rfl⟩
  · rename_i hf
    exact Or.inr ⟨by simpa using hf, rfl⟩

theorem steps_of_stuck (h : e.step edges = e) (n : Nat) : e.steps edges n = e := by
  induction n with
  | zero => rfl
  | succ n ih => rw [steps, h, ih]

theorem length_left_remove {node : TransactionId} (hn : node ∈ e.left) :
    (e.remove edges node).left.length < e.left.length := by
  simp only [remove]
  exact List.length_filter_lt_length_iff_exists.2 ⟨node, hn, by simp⟩

/-- After as many steps as there are transactions, each one that is left has a wait. -/
theorem counts_steps (n : Nat) (h : Counts edges e) (hn : e.left.length ≤ n) :
    Counts edges (e.steps edges n) ∧
      ∀ t ∈ (e.steps edges n).left, (e.steps edges n).inDegree t ≠ 0 := by
  induction n generalizing e with
  | zero =>
    have hnil : e.left = [] := List.length_eq_zero_iff.1 (by omega)
    exact ⟨h, by simp [steps, hnil]⟩
  | succ n ih =>
    rcases step_cases edges e with ⟨node, hmem, -, hstep⟩ | ⟨hall, hstep⟩
    · rw [steps, hstep]
      have hless : (e.remove edges node).left.length < e.left.length := length_left_remove hmem
      exact ih (counts_remove h hmem) (by omega)
    · rw [steps_of_stuck hstep]
      exact ⟨h, hall⟩

/-- Transactions that all have a wait for another one of them are never taken out. -/
theorem subset_left_steps {c : TransactionId → Prop} (n : Nat) (h : Counts edges e)
    (hc : ∀ t, c t → ∃ a, c a ∧ (a, t) ∈ edges) (hleft : ∀ t, c t → t ∈ e.left) :
    ∀ t, c t → t ∈ (e.steps edges n).left := by
  induction n generalizing e with
  | zero => exact hleft
  | succ n ih =>
    rcases step_cases edges e with ⟨node, hmem, hzero, hstep⟩ | ⟨-, hstep⟩
    · rw [steps, hstep]
      apply ih (counts_remove h hmem)
      intro t ht
      simp only [remove, List.mem_filter, decide_eq_true_eq]
      refine ⟨hleft t ht, ?_⟩
      rintro rfl
      obtain ⟨a, ha, hedge⟩ := hc t ht
      rw [h t, Nat.cast_eq_zero, List.countP_eq_zero] at hzero
      exact hzero _ hedge (by simpa using hleft a ha)
    · rw [steps_of_stuck hstep]
      exact hleft

end Elimination

/-! ## The verdict -/

namespace WaitGraph

theorem mem_nodes_iff (lists : List (List LockRequest)) (t : TransactionId) :
    t ∈ nodes lists ↔ ∃ l ∈ lists, ∃ r ∈ l, r.txn = t := by
  simp only [nodes, List.mem_eraseDups, List.mem_map, List.mem_flatten]
  constructor
  · rintro ⟨r, ⟨l, hl, hr⟩, rfl⟩
    exact ⟨l, hl, r, hr, rfl⟩
  · rintro ⟨l, hl, r, hr, rfl⟩
    exact ⟨r, ⟨l, hl, hr⟩, rfl⟩

end WaitGraph

/-- The waits of a list: from each request to each later one that it excludes. -/
theorem mem_waits_iff (l : List LockRequest) (a b : TransactionId) :
    (a, b) ∈ LockRequest.waits l ↔
      ∃ r s, [r, s].Sublist l ∧ r.conflicts s = true ∧ r.txn = a ∧ s.txn = b := by
  induction l with
  | nil => simp [LockRequest.waits]
  | cons x later ih =>
    simp only [LockRequest.waits, List.mem_append, List.mem_map, List.mem_filter, ih,
      Prod.mk.injEq, List.sublist_cons_iff, List.cons.injEq]
    constructor
    · rintro (⟨s, ⟨hs, hc⟩, rfl, rfl⟩ | ⟨r, s, hsub, hc, rfl, rfl⟩)
      · exact ⟨x, s, Or.inr ⟨[s], ⟨rfl, rfl⟩, List.singleton_sublist.2 hs⟩, hc, rfl, rfl⟩
      · exact ⟨r, s, Or.inl hsub, hc, rfl, rfl⟩
    · rintro ⟨r, s, hsub | ⟨tail, ⟨rfl, rfl⟩, hsub⟩, hc, rfl, rfl⟩
      · exact Or.inr ⟨r, s, hsub, hc, rfl, rfl⟩
      · exact Or.inl ⟨s, ⟨List.singleton_sublist.1 hsub, hc⟩, rfl, rfl⟩

namespace WaitGraph

theorem source_mem_nodes {lists : List (List LockRequest)} {x : TransactionId × TransactionId}
    (h : x ∈ edges lists) : x.1 ∈ nodes lists := by
  obtain ⟨l, hl, hx⟩ := List.mem_flatMap.1 h
  obtain ⟨r, s, hsub, -, hr, -⟩ := (mem_waits_iff l x.1 x.2).1 hx
  exact (mem_nodes_iff lists x.1).2 ⟨l, hl, r, hsub.subset (by simp), hr⟩

/-- The elimination reports a cycle exactly when the waits have one. -/
theorem hasCycle_iff (lists : List (List LockRequest)) :
    hasCycle lists = true ↔ ¬ Acyclic (edges lists) := by
  have hcounts : Elimination.Counts (edges lists) (Elimination.start (nodes lists) (edges lists)) :=
    Elimination.counts_start fun _ hx => source_mem_nodes hx
  obtain ⟨hend, hstuck⟩ := Elimination.counts_steps (nodes lists).length hcounts (le_refl _)
  have key : hasCycle lists = true ↔
      ((Elimination.start (nodes lists) (edges lists)).steps (edges lists)
        (nodes lists).length).left ≠ [] := by
    simp [hasCycle]
  rw [key]
  unfold Acyclic
  push Not
  constructor
  · intro hne
    obtain ⟨t, -, ht⟩ := exists_cycle_of_predecessors (r := fun a b => (a, b) ∈ edges lists) _ hne
      fun t ht => by
      have hpos := hstuck t ht
      rw [hend t, Nat.cast_ne_zero, ← Nat.pos_iff_ne_zero, List.countP_pos_iff] at hpos
      obtain ⟨x, hx, hp⟩ := hpos
      simp only [decide_eq_true_eq] at hp
      obtain ⟨rfl, hleft⟩ := hp
      exact ⟨x.1, hleft, hx⟩
    exact ⟨t, ht⟩
  · rintro ⟨t, ht⟩ hnil
    have hmem := Elimination.subset_left_steps (nodes lists).length hcounts
      (c := fun t => TransGen (fun a b => (a, b) ∈ edges lists) t t)
      (fun t ht => exists_predecessor_of_cycle ht)
      (fun t ht => by
        obtain ⟨b, hb, -⟩ := TransGen.head'_iff.1 ht
        exact source_mem_nodes hb) t ht
    rw [hnil] at hmem
    simp at hmem

end WaitGraph

end PageCache
