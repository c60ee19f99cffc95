-- The search for cycles with a queue of ready transactions. The transactions get numbers, each
-- wait raises the in-degree of its end, and a transaction whose last wait is gone joins the
-- queue. The search always comes to an end, no in-degree falls below zero on the way, and some
-- transaction is never taken exactly when the requests have a cycle, however the pages are
-- ordered. So it gives the same verdict as the elimination one by one.
import PageCache.Proofs.Lock.Refusals

namespace PageCache

open Relation

/-- A search under way on nodes with numbers: the nodes that are ready, in the order in which
they became so; for each node the number of edges into it from nodes that were not taken; and
how many nodes were taken. -/
structure Countdown where
  ready : List Nat
  inDegree : List Nat
  visited : Nat
deriving DecidableEq, Repr

namespace Countdown

/-- One edge into a node is gone; with its last one the node is ready. There is no result for a
node without edges left. -/
def lower (s : Countdown) (node : Nat) : Option Countdown :=
  match s.inDegree[node]? with
  | some (degree + 1) =>
    some { s with
      inDegree := s.inDegree.set node degree
      ready := if degree = 0 then s.ready ++ [node] else s.ready }
  | some 0 | none => none

/-- Takes a node out of the queue, of which `rest` is left: all its edges are gone. -/
def take (next : List (List Nat)) (s : Countdown) (node : Nat) (rest : List Nat) :
    Option Countdown := do
  let targets ← next[node]?
  targets.foldlM lower { s with ready := rest, visited := s.visited + 1 }

/-- What is left to do: edges to lower and nodes to take. -/
def work (s : Countdown) : Nat := s.inDegree.sum + s.ready.length

theorem sum_set_add_one {l : List Nat} {i degree : Nat} (h : l[i]? = some (degree + 1)) :
    (l.set i degree).sum + 1 = l.sum := by
  induction l generalizing i with
  | nil => cases h
  | cons x rest ih =>
    cases i with
    | zero =>
      rw [List.getElem?_cons_zero, Option.some.injEq] at h
      rw [List.set_cons_zero, List.sum_cons, List.sum_cons, h]
      omega
    | succ i =>
      rw [List.getElem?_cons_succ] at h
      have hrest := ih h
      rw [List.set_cons_succ, List.sum_cons, List.sum_cons]
      omega

theorem work_lower {s s' : Countdown} {node : Nat} (h : s.lower node = some s') :
    s'.work ≤ s.work := by
  unfold lower at h
  split at h
  · rename_i degree hdegree
    cases h
    have hsum := sum_set_add_one hdegree
    simp only [work]
    split
    · rw [List.length_append, List.length_singleton]
      omega
    · omega
  · cases h
  · cases h

theorem work_foldlM_lower {targets : List Nat} {s s' : Countdown}
    (h : targets.foldlM lower s = some s') : s'.work ≤ s.work := by
  induction targets generalizing s with
  | nil =>
    cases h
    exact le_refl _
  | cons node rest ih =>
    rw [List.foldlM_cons] at h
    obtain ⟨s₁, hlower, hrest⟩ := Option.bind_eq_some_iff.1 h
    exact (ih hrest).trans (work_lower hlower)

theorem work_take {next : List (List Nat)} {s s' : Countdown} {node : Nat} {rest : List Nat}
    (hready : s.ready = node :: rest) (h : s.take next node rest = some s') :
    s'.work < s.work := by
  obtain ⟨targets, -, hlower⟩ := Option.bind_eq_some_iff.1 h
  have hle := work_foldlM_lower hlower
  simp only [work, hready, List.length_cons] at hle ⊢
  omega

/-- Takes the nodes that are ready, the oldest first, until the queue is empty. -/
def drain (next : List (List Nat)) (s : Countdown) : Option Countdown :=
  match _ : s.ready with
  | [] => some s
  | node :: rest =>
    match _ : s.take next node rest with
    | none => none
    | some s' => drain next s'
termination_by s.work
decreasing_by exact work_take ‹_› ‹_›

/-- For each node the other ends of the edges out of it. -/
def adjacency (n : Nat) (es : List (Nat × Nat)) : List (List Nat) :=
  es.foldl (fun next e => next.modify e.1 (· ++ [e.2])) (List.replicate n [])

/-- For each node the number of edges into it. -/
def inDegrees (n : Nat) (es : List (Nat × Nat)) : List Nat :=
  es.foldl (fun degree e => degree.modify e.2 (· + 1)) (List.replicate n 0)

/-- The start: the nodes without edges into them are ready. -/
def start (n : Nat) (es : List (Nat × Nat)) : Countdown where
  ready := (List.range n).filter fun i => (inDegrees n es)[i]? = some 0
  inDegree := inDegrees n es
  visited := 0

end Countdown

namespace LockRequest

/-- The waits of a list as its requests arrive: each one waits for the earlier ones that exclude
it. -/
def waitsBehind (earlier : List LockRequest) :
    List LockRequest → List (TransactionId × TransactionId)
  | [] => []
  | r :: later => (earlier.filter (·.conflicts r)).map (fun e => (e.txn, r.txn)) ++
      waitsBehind (earlier ++ [r]) later

end LockRequest

namespace WaitGraph

/-- The number of a transaction among those that are named. -/
def numberOf (names : List TransactionId) (txn : TransactionId) : Option Nat :=
  if txn ∈ names then some (names.idxOf txn) else none

/-- A wait as an edge between numbers. -/
def numbered (names : List TransactionId) (wait : TransactionId × TransactionId) :
    Option (Nat × Nat) := do
  return (← numberOf names wait.1, ← numberOf names wait.2)

/-- The search on the lists of requests for the pages, in any order of the pages: some
transaction was not taken. -/
def search (lists : List (List LockRequest)) : Option Bool := do
  let names := nodes lists
  let es ← (lists.flatMap (LockRequest.waitsBehind [])).mapM (numbered names)
  let s ← (Countdown.start names.length es).drain (Countdown.adjacency names.length es)
  return s.visited < names.length

end WaitGraph

/-! ## The in-degrees -/

namespace Countdown

variable {n node : Nat} {es : List (Nat × Nat)} {done pending : List Nat} {s : Countdown}

/-- The number of edges into a node from nodes that were not taken. -/
def edgesLeft (es : List (Nat × Nat)) (done : List Nat) (node : Nat) : Nat :=
  es.countP fun e => e.2 = node ∧ e.1 ∉ done

/-- The other ends of the edges out of a node. -/
def targets (es : List (Nat × Nat)) (node : Nat) : List Nat :=
  (es.filter (·.1 = node)).map (·.2)

theorem edgesLeft_nil (es : List (Nat × Nat)) (node : Nat) :
    edgesLeft es [] node = es.countP (·.2 = node) := by
  simp [edgesLeft]

theorem exists_edge_of_edgesLeft_ne_zero (h : edgesLeft es done node ≠ 0) :
    ∃ a, a ∉ done ∧ (a, node) ∈ es := by
  obtain ⟨⟨a, b⟩, he, hp⟩ := List.countP_pos_iff.1 (Nat.pos_of_ne_zero h)
  simp only [decide_eq_true_eq] at hp
  exact ⟨a, hp.2, hp.1 ▸ he⟩

theorem mem_done_of_edgesLeft_eq_zero {a : Nat} (h : edgesLeft es done node = 0)
    (he : (a, node) ∈ es) : a ∈ done := by
  by_contra ha
  exact List.countP_eq_zero.1 h _ he (by simpa using ha)

/-- The edges into a node are those that taking another one lowers, and those that stay. -/
theorem edgesLeft_append (h : node ∉ done) (i : Nat) :
    edgesLeft es (done ++ [node]) i + (targets es node).count i = edgesLeft es done i := by
  unfold edgesLeft targets
  induction es with
  | nil => rfl
  | cons e rest ih =>
    by_cases hfrom : e.1 = node
    · by_cases hto : e.2 = i <;> simp_all
      omega
    · by_cases hto : e.2 = i <;> by_cases hdone : e.1 ∈ done <;> simp_all
      omega

theorem getElem?_foldl_push (next : List (List Nat)) (i : Nat) :
    (es.foldl (fun next e => next.modify e.1 (· ++ [e.2])) next)[i]? =
      next[i]?.map (· ++ targets es i) := by
  induction es generalizing next with
  | nil => simp [targets]
  | cons e rest ih =>
    rw [List.foldl_cons, ih, List.getElem?_modify]
    by_cases hfrom : e.1 = i <;> simp [targets, hfrom, Function.comp_def]

theorem getElem?_foldl_raise (degree : List Nat) (i : Nat) :
    (es.foldl (fun degree e => degree.modify e.2 (· + 1)) degree)[i]? =
      degree[i]?.map (· + es.countP (·.2 = i)) := by
  induction es generalizing degree with
  | nil => simp
  | cons e rest ih =>
    rw [List.foldl_cons, ih, List.getElem?_modify]
    by_cases hto : e.2 = i <;> simp [hto, Function.comp_def, Nat.add_assoc, Nat.add_comm 1]

theorem getElem?_adjacency {i : Nat} (hi : i < n) :
    (adjacency n es)[i]? = some (targets es i) := by
  rw [adjacency, getElem?_foldl_push, List.getElem?_replicate_of_lt hi]
  rfl

theorem getElem?_inDegrees (n : Nat) (es : List (Nat × Nat)) (i : Nat) :
    (inDegrees n es)[i]? = if i < n then some (edgesLeft es [] i) else none := by
  rw [inDegrees, getElem?_foldl_raise, List.getElem?_replicate, edgesLeft_nil]
  split <;> simp

/-! ## One node taken -/

/-- The numbers are right: `done` are the nodes that were taken, in their order, and `pending`
are the ends of edges that are still to be lowered for the last one of them. -/
structure Sound (n : Nat) (es : List (Nat × Nat)) (done pending : List Nat) (s : Countdown) :
    Prop where
  degree : ∀ i, s.inDegree[i]? =
    if i < n then some (edgesLeft es done i + pending.count i) else none
  nodup : (done ++ s.ready).Nodup
  mem_iff : ∀ i, i ∈ done ++ s.ready ↔ s.inDegree[i]? = some 0
  visited_eq : s.visited = done.length
  off_cycle : ∀ i ∈ done, ¬ TransGen (fun a b => (a, b) ∈ es) i i

theorem sound_start (n : Nat) (es : List (Nat × Nat)) : Sound n es [] [] (start n es) where
  degree := getElem?_inDegrees n es
  nodup := List.nodup_range.filter _
  mem_iff i := by
    rw [List.nil_append, start, List.mem_filter, List.mem_range, decide_eq_true_eq]
    refine ⟨fun h => h.2, fun h => ⟨?_, h⟩⟩
    by_contra hi
    rw [getElem?_inDegrees, if_neg hi] at h
    cases h
  visited_eq := rfl
  off_cycle := by simp

theorem Sound.lt_of_mem (h : Sound n es done pending s) {i : Nat} (hi : i ∈ done ++ s.ready) :
    i < n := by
  by_contra hn
  rw [h.mem_iff, h.degree, if_neg hn] at hi
  cases hi

/-- An edge that is still to be lowered can be. -/
theorem Sound.lower (h : Sound n es done (node :: pending) s) (hnode : node < n) :
    ∃ s', s.lower node = some s' ∧ Sound n es done pending s' := by
  have hdegree := h.degree node
  rw [if_pos hnode, List.count_cons_self, ← Nat.add_assoc] at hdegree
  have hfresh : node ∉ done ++ s.ready := by
    rw [h.mem_iff, hdegree]
    simp
  have hlength : node < s.inDegree.length := (List.getElem?_eq_some_iff.1 hdegree).1
  unfold Countdown.lower
  rw [hdegree]
  refine ⟨_, rfl, ?_, ?_, ?_, h.visited_eq, h.off_cycle⟩
  · intro i
    rw [List.getElem?_set, if_pos hlength]
    by_cases hi : node = i
    · rw [if_pos hi, ← hi, if_pos hnode]
    · rw [if_neg hi, h.degree, List.count_cons_of_ne hi]
  · simp only
    split
    · rw [← List.append_assoc]
      exact h.nodup.append (List.nodup_singleton node) (by simpa using hfresh)
    · exact h.nodup
  · intro i
    rw [List.getElem?_set, if_pos hlength]
    by_cases hi : node = i
    · subst hi
      simp only [if_true, Option.some.injEq]
      split
      · rename_i hzero
        simp [hzero]
      · rename_i hpos
        exact iff_of_false hfresh hpos
    · rw [if_neg hi, ← h.mem_iff]
      simp only
      split
      · simp [Ne.symm hi]
      · rfl

theorem Sound.lowerAll (h : Sound n es done pending s) (hpending : ∀ i ∈ pending, i < n) :
    ∃ s', pending.foldlM Countdown.lower s = some s' ∧ Sound n es done [] s' := by
  induction pending generalizing s with
  | nil => exact ⟨s, rfl, h⟩
  | cons node rest ih =>
    obtain ⟨s₁, hlower, h₁⟩ := h.lower (hpending node List.mem_cons_self)
    obtain ⟨s', hrest, h'⟩ := ih h₁ fun i hi => hpending i (List.mem_cons_of_mem node hi)
    refine ⟨s', ?_, h'⟩
    rw [List.foldlM_cons, hlower]
    exact hrest

/-- A ready node lies on no cycle: whatever leads to it was taken before. -/
theorem Sound.not_cycle_of_ready (h : Sound n es done [] s) (hnode : node ∈ s.ready) :
    ¬ TransGen (fun a b => (a, b) ∈ es) node node := by
  intro hcycle
  obtain ⟨a, ha, he⟩ := exists_predecessor_of_cycle hcycle
  have hmem : node ∈ done ++ s.ready := List.mem_append_right _ hnode
  have hzero := (h.mem_iff node).1 hmem
  rw [h.degree, if_pos (h.lt_of_mem hmem), List.count_nil, Option.some.injEq] at hzero
  exact h.off_cycle a (mem_done_of_edgesLeft_eq_zero hzero he) ha

/-- The oldest ready node can be taken. -/
theorem Sound.take (h : Sound n es done [] s) (hes : ∀ e ∈ es, e.2 < n) {rest : List Nat}
    (hready : s.ready = node :: rest) :
    ∃ s', s.take (adjacency n es) node rest = some s' ∧ Sound n es (done ++ [node]) [] s' := by
  have hmem : node ∈ done ++ s.ready := by simp [hready]
  have happ : done ++ [node] ++ rest = done ++ s.ready := by
    rw [hready, List.append_assoc, List.singleton_append]
  have hfresh : node ∉ done := by
    have hnodup := h.nodup
    rw [hready] at hnodup
    exact fun hdone => List.disjoint_of_nodup_append hnodup hdone List.mem_cons_self
  have hpopped : Sound n es (done ++ [node]) (targets es node)
      { s with ready := rest, visited := s.visited + 1 } := by
    refine ⟨?_, ?_, ?_, ?_, ?_⟩
    · intro i
      rw [h.degree, edgesLeft_append hfresh, List.count_nil, Nat.add_zero]
    · rw [happ]
      exact h.nodup
    · intro i
      rw [happ]
      exact h.mem_iff i
    · rw [List.length_append, List.length_singleton, h.visited_eq]
    · intro i hi
      rcases List.mem_append.1 hi with hi | hi
      · exact h.off_cycle i hi
      · rw [List.mem_singleton.1 hi]
        exact h.not_cycle_of_ready (hready ▸ List.mem_cons_self)
  have htargets : ∀ i ∈ targets es node, i < n := by
    intro i hi
    obtain ⟨e, he, rfl⟩ := List.mem_map.1 hi
    exact hes e (List.mem_filter.1 he).1
  obtain ⟨s', hlower, h'⟩ := hpopped.lowerAll htargets
  refine ⟨s', ?_, h'⟩
  unfold Countdown.take
  rw [getElem?_adjacency (h.lt_of_mem hmem)]
  exact hlower

/-! ## The whole search -/

theorem drain_of_empty {next : List (List Nat)} (h : s.ready = []) : s.drain next = some s := by
  rw [drain]
  split
  · rfl
  · rename_i hready
    rw [h] at hready
    cases hready

theorem drain_of_take {next : List (List Nat)} {rest : List Nat} {s' : Countdown}
    (hready : s.ready = node :: rest) (htake : s.take next node rest = some s') :
    s.drain next = s'.drain next := by
  rw [drain]
  split
  · rename_i h
    rw [hready] at h
    cases h
  · rename_i h
    obtain ⟨rfl, rfl⟩ := List.cons.inj (hready.symm.trans h)
    split
    · rename_i hnone
      rw [htake] at hnone
      cases hnone
    · rename_i hsome
      rw [htake] at hsome
      cases hsome
      rfl

/-- The search comes to its end, where no node is ready. -/
theorem Sound.drain (h : Sound n es done [] s) (hes : ∀ e ∈ es, e.2 < n) :
    ∃ s' done', s.drain (adjacency n es) = some s' ∧ Sound n es done' [] s' ∧ s'.ready = [] := by
  -- on what is left to do, as the search itself
  induction hwork : s.work using Nat.strong_induction_on generalizing s done with
  | _ w ih =>
    cases hready : s.ready with
    | nil => exact ⟨s, done, drain_of_empty hready, h, hready⟩
    | cons node rest =>
      obtain ⟨s₁, htake, h₁⟩ := h.take hes hready
      rw [drain_of_take hready htake]
      exact ih s₁.work (hwork ▸ work_take hready htake) h₁ rfl

/-- Fewer nodes were taken than there are exactly when one of them was not. -/
theorem Sound.visited_lt_iff (h : Sound n es done [] s) :
    s.visited < n ↔ ∃ i < n, i ∉ done := by
  have hdone : done.Nodup := h.nodup.of_append_left
  have hsub : done ⊆ List.range n := fun i hi =>
    List.mem_range.2 (h.lt_of_mem (List.mem_append_left _ hi))
  rw [h.visited_eq]
  constructor
  · intro hless
    by_contra hall
    push Not at hall
    have hle := (List.subperm_of_subset List.nodup_range
      fun i hi => hall i (List.mem_range.1 hi)).length_le
    rw [List.length_range] at hle
    omega
  · rintro ⟨i, hi, hnot⟩
    have hle := (List.subperm_of_subset (List.nodup_cons.2 ⟨hnot, hdone⟩)
      (List.cons_subset.2 ⟨List.mem_range.2 hi, hsub⟩)).length_le
    rw [List.length_cons, List.length_range] at hle
    omega

/-- When nothing is ready any more, each node that was not taken has an edge from another one
of them. -/
theorem Sound.exists_edge_of_not_done (h : Sound n es done [] s) (hready : s.ready = [])
    {i : Nat} (hi : i < n) (hnot : i ∉ done) : ∃ a, a ∉ done ∧ (a, i) ∈ es := by
  apply exists_edge_of_edgesLeft_ne_zero
  intro hzero
  have hmem : i ∈ done ++ s.ready := by
    rw [h.mem_iff, h.degree, if_pos hi, hzero, List.count_nil]
  rw [hready, List.append_nil] at hmem
  exact hnot hmem

/-- From its start the search ends, with nodes left exactly when the edges have a cycle. -/
theorem drain_start (hes : ∀ e ∈ es, e.1 < n ∧ e.2 < n) :
    ∃ s, (start n es).drain (adjacency n es) = some s ∧
      (s.visited < n ↔ ∃ i, TransGen (fun a b => (a, b) ∈ es) i i) := by
  obtain ⟨s, done, hdrain, h, hready⟩ := (sound_start n es).drain fun e he => (hes e he).2
  refine ⟨s, hdrain, ?_⟩
  rw [h.visited_lt_iff]
  constructor
  · rintro ⟨i, hi, hnot⟩
    obtain ⟨t, -, ht⟩ := exists_cycle_of_predecessors (r := fun a b => (a, b) ∈ es)
      ((List.range n).filter (· ∉ done))
      (List.ne_nil_of_mem (a := i) (by simpa using ⟨hi, hnot⟩)) fun t ht => by
        simp only [List.mem_filter, List.mem_range, decide_eq_true_eq] at ht
        obtain ⟨a, ha, he⟩ := h.exists_edge_of_not_done hready ht.1 ht.2
        exact ⟨a, by simpa using ⟨(hes _ he).1, ha⟩, he⟩
    exact ⟨t, ht⟩
  · rintro ⟨i, hi⟩
    obtain ⟨b, he, -⟩ := TransGen.head'_iff.1 hi
    exact ⟨i, (hes _ he).1, fun hdone => h.off_cycle i hdone hi⟩

end Countdown

/-! ## The transactions behind the numbers -/

/-- As they arrive the requests give the same waits. -/
theorem mem_waitsBehind_iff (earlier l : List LockRequest) (a b : TransactionId) :
    (a, b) ∈ LockRequest.waitsBehind earlier l ↔
      (∃ r ∈ earlier, ∃ s ∈ l, r.conflicts s = true ∧ r.txn = a ∧ s.txn = b) ∨
        (a, b) ∈ LockRequest.waits l := by
  induction l generalizing earlier with
  | nil => simp [LockRequest.waitsBehind, LockRequest.waits]
  | cons x later ih =>
    simp only [LockRequest.waitsBehind, LockRequest.waits, List.mem_append, List.mem_map,
      List.mem_filter, ih, Prod.mk.injEq, List.mem_cons, List.not_mem_nil, or_false]
    constructor
    · rintro (⟨r, ⟨hr, hc⟩, rfl, rfl⟩ | ⟨r, hr | rfl, s, hs, hc, rfl, rfl⟩ | hw)
      · exact Or.inl ⟨r, hr, x, Or.inl rfl, hc, rfl, rfl⟩
      · exact Or.inl ⟨r, hr, s, Or.inr hs, hc, rfl, rfl⟩
      · exact Or.inr (Or.inl ⟨s, ⟨hs, hc⟩, rfl, rfl⟩)
      · exact Or.inr (Or.inr hw)
    · rintro (⟨r, hr, s, rfl | hs, hc, rfl, rfl⟩ | ⟨s, ⟨hs, hc⟩, rfl, rfl⟩ | hw)
      · exact Or.inl ⟨r, ⟨hr, hc⟩, rfl, rfl⟩
      · exact Or.inr (Or.inl ⟨r, Or.inl hr, s, hs, hc, rfl, rfl⟩)
      · exact Or.inr (Or.inl ⟨x, Or.inr rfl, s, hs, hc, rfl, rfl⟩)
      · exact Or.inr (Or.inr hw)

namespace WaitGraph

variable {g : WaitGraph} {lists : List (List LockRequest)} {names : List TransactionId}
  {waits : List (TransactionId × TransactionId)}

theorem mem_flatMap_waitsBehind_iff (a b : TransactionId) :
    (a, b) ∈ lists.flatMap (LockRequest.waitsBehind []) ↔ (a, b) ∈ edges lists := by
  simp only [edges, List.mem_flatMap, mem_waitsBehind_iff, List.not_mem_nil, false_and,
    exists_false, false_or]

theorem target_mem_nodes {a b : TransactionId} (h : (a, b) ∈ edges lists) : b ∈ nodes lists := by
  obtain ⟨l, hl, hx⟩ := List.mem_flatMap.1 h
  obtain ⟨r, s, hsub, -, -, hs⟩ := (mem_waits_iff l a b).1 hx
  exact (mem_nodes_iff lists b).2 ⟨l, hl, s, hsub.subset (by simp), hs⟩

/-- A wait with its transactions replaced by their numbers. -/
def inNumbers (names : List TransactionId) (wait : TransactionId × TransactionId) : Nat × Nat :=
  (names.idxOf wait.1, names.idxOf wait.2)

theorem mapM_numbered (h : ∀ w ∈ waits, w.1 ∈ names ∧ w.2 ∈ names) :
    waits.mapM (numbered names) = some (waits.map (inNumbers names)) := by
  induction waits with
  | nil => rfl
  | cons w rest ih =>
    obtain ⟨hfrom, hto⟩ := h w List.mem_cons_self
    have hw : numbered names w = some (inNumbers names w) := by
      unfold numbered numberOf
      rw [if_pos hfrom, if_pos hto]
      rfl
    rw [List.mapM_cons, hw, ih fun x hx => h x (List.mem_cons_of_mem w hx)]
    rfl

/-- Numbering keeps the cycles. -/
theorem exists_cycle_inNumbers_iff (h : ∀ w ∈ waits, w.1 ∈ names ∧ w.2 ∈ names) :
    (∃ i, TransGen (fun i j => (i, j) ∈ waits.map (inNumbers names)) i i) ↔
      ∃ t, TransGen (fun a b => (a, b) ∈ waits) t t := by
  constructor
  · rintro ⟨i, hi⟩
    refine ⟨names.getD i default, hi.lift (names.getD · default) ?_⟩
    intro i j hij
    obtain ⟨⟨a, b⟩, hw, he⟩ := List.mem_map.1 hij
    obtain ⟨rfl, rfl⟩ := Prod.mk.inj he
    obtain ⟨ha, hb⟩ := h _ hw
    simpa [Function.onFun, List.getElem?_idxOf ha, List.getElem?_idxOf hb] using hw
  · rintro ⟨t, ht⟩
    exact ⟨names.idxOf t, ht.lift names.idxOf fun a b hw => List.mem_map_of_mem hw⟩

/-- The search gives a verdict on any lists, and it is that of the elimination. -/
theorem search_eq (lists : List (List LockRequest)) : search lists = some (hasCycle lists) := by
  have hnames : ∀ w ∈ lists.flatMap (LockRequest.waitsBehind []),
      w.1 ∈ nodes lists ∧ w.2 ∈ nodes lists := by
    rintro ⟨a, b⟩ hw
    rw [mem_flatMap_waitsBehind_iff] at hw
    exact ⟨source_mem_nodes hw, target_mem_nodes hw⟩
  have hes : ∀ e ∈ (lists.flatMap (LockRequest.waitsBehind [])).map (inNumbers (nodes lists)),
      e.1 < (nodes lists).length ∧ e.2 < (nodes lists).length := by
    intro e he
    obtain ⟨w, hw, rfl⟩ := List.mem_map.1 he
    obtain ⟨hfrom, hto⟩ := hnames w hw
    exact ⟨List.idxOf_lt_length_iff.2 hfrom, List.idxOf_lt_length_iff.2 hto⟩
  obtain ⟨s, hdrain, hvisited⟩ := Countdown.drain_start hes
  have hverdict : decide (s.visited < (nodes lists).length) = hasCycle lists := by
    rw [Bool.eq_iff_iff, decide_eq_true_eq, hvisited, exists_cycle_inNumbers_iff hnames,
      hasCycle_iff]
    simp only [mem_flatMap_waitsBehind_iff, Acyclic, not_forall, not_not]
  unfold search
  simp only [mapM_numbered hnames, Option.bind_eq_bind, Option.bind_some, hdrain]
  rw [← hverdict]
  rfl

theorem mem_edges_perm_iff (h : lists.Perm g.arrivals.values) (a b : TransactionId) :
    (a, b) ∈ edges lists ↔ Precedes g.on a b := by
  rw [← behind_iff_precedes, ← mem_edges_iff]
  exact (h.flatMap_right LockRequest.waits).mem_iff

/-- On any graph of waits, in whichever order its pages are visited: the search ends, without an
in-degree below zero, with the verdict of the elimination; and that is a cycle exactly when some
transactions precede each other in a ring. -/
theorem search_reports_rings (h : lists.Perm g.arrivals.values) :
    search lists = some (hasCycle lists) ∧
      (hasCycle lists = true ↔ ∃ ts, IsCycle g.on ts) := by
  refine ⟨search_eq lists, ?_⟩
  rw [hasCycle_iff, exists_isCycle_iff]
  simp only [Acyclic, mem_edges_perm_iff h, not_forall, not_not]

/-- Two readers of a page, both of them waiting to write it, and a page that others only read. -/
def crossedUpgrades : WaitGraph :=
  (empty.list ⟨⟨1⟩, 0⟩
    [⟨⟨1⟩, .readOnly⟩, ⟨⟨2⟩, .readOnly⟩, ⟨⟨1⟩, .readWrite⟩, ⟨⟨2⟩, .readWrite⟩]).list ⟨⟨2⟩, 0⟩
      [⟨⟨3⟩, .readOnly⟩, ⟨⟨1⟩, .readOnly⟩]

/-- Visited from the last page on, the search finds the two readers in each other's way. -/
theorem search_reports_crossedUpgrades :
    crossedUpgrades.arrivals.values.reverse.Perm crossedUpgrades.arrivals.values ∧
      search crossedUpgrades.arrivals.values.reverse = some true ∧
      ∃ ts, IsCycle crossedUpgrades.on ts := by
  have horder := List.reverse_perm crossedUpgrades.arrivals.values
  have hverdict : hasCycle crossedUpgrades.arrivals.values.reverse = true := by decide
  obtain ⟨hsearch, hring⟩ := search_reports_rings horder
  exact ⟨horder, hsearch.trans (congrArg some hverdict), hring.1 hverdict⟩

end WaitGraph

end PageCache
