-- The choice of the page that goes. Each use has a time of its own, so of any two tracked pages
-- one is to go rather than the other, and the scan through the candidates ends with the one that
-- is to go rather than all others.
import PageCache.Eviction.LruK
import PageCache.Proofs.Lookup
import Mathlib.Data.List.MinMax

namespace PageCache

/-! ## Comparing candidates -/

namespace Standing

variable {a b c : Standing}

theorem not_goesBefore_self (a : Standing) : ¬ a.goesBefore a = true := by
  unfold goesBefore
  rcases a.distance with _ | x
  · rcases a.oldest with _ | y <;> simp
  · simp

theorem goesBefore_trans (hab : a.goesBefore b = true) (hbc : b.goesBefore c = true) :
    a.goesBefore c = true := by
  obtain ⟨pa, da, oa⟩ := a
  obtain ⟨pb, db, ob⟩ := b
  obtain ⟨pc, dc, oc⟩ := c
  rcases da with _ | x <;> rcases db with _ | y <;> rcases dc with _ | z <;>
    simp only [goesBefore, gt_iff_lt, decide_eq_true_eq, reduceCtorEq] at hab hbc ⊢
  · -- all three have too few uses
    rcases oa with _ | x <;> rcases ob with _ | y <;> rcases oc with _ | z <;>
      simp only [decide_eq_true_eq, reduceCtorEq] at hab hbc ⊢
    omega
  · omega

end Standing

namespace LruK

variable {r : LruK} {a b page other : PageId} {candidate : PageId → Bool} {times : List Nat}

/-- The page is tracked. -/
def tracks (r : LruK) (page : PageId) : Bool := r.history.contains page

/-- The times of the uses of a page that are known, the oldest first. -/
def usesOf (r : LruK) (page : PageId) : List Nat := (r.history.get? page).getD []

/-- The time of the k-th last use, if there are k uses. -/
def kthLast (r : LruK) (page : PageId) : Option Nat :=
  if (r.usesOf page).length < r.k then none else (r.usesOf page)[(r.usesOf page).length - r.k]?

/-- The first page is to go rather than the second: its k-th last use lies farther back. Fewer
than k uses count as a use infinitely long ago, and of two pages like this the one with the
older known use goes. -/
def Outranks (r : LruK) (a b : PageId) : Prop :=
  match r.kthLast a, r.kthLast b with
  | none, none => ∃ x y, (r.usesOf a).head? = some x ∧ (r.usesOf b).head? = some y ∧ x < y
  | none, some _ => True
  | some _, none => False
  | some x, some y => x < y

/-! ## Times of uses -/

/-- At least one use counts; of each tracked page one use or more is known, but not more than
count; and no two pages were used at one time. -/
structure Dated (r : LruK) : Prop where
  one_le : 1 ≤ r.k
  known : ∀ page, r.tracks page = true → r.usesOf page ≠ []
  length_le : ∀ page, (r.usesOf page).length ≤ r.k
  past : ∀ page, ∀ t ∈ r.usesOf page, t < r.clock
  apart : ∀ a b, ∀ t ∈ r.usesOf a, t ∈ r.usesOf b → a = b

theorem dated_new (k : Nat) : (new k).Dated where
  one_le := Nat.le_max_right k 1
  known _ h := by cases h
  length_le _ := Nat.zero_le _
  past _ _ h := by cases h
  apart _ _ _ h := by cases h

theorem tracks_access (r : LruK) (a page : PageId) :
    (r.access a).tracks page = (decide (page = a) || r.tracks page) :=
  FinMap.contains_insert _ _ _ _

theorem tracks_remove (r : LruK) (a page : PageId) :
    (r.remove a).tracks page = (!decide (page = a) && r.tracks page) :=
  FinMap.contains_erase _ _ _

theorem usesOf_access (r : LruK) (a page : PageId) : (r.access a).usesOf page =
    if page = a then recent r.k (r.usesOf a ++ [r.clock]) else r.usesOf page := by
  unfold usesOf access
  rw [FinMap.get?_insert]
  split <;> rfl

theorem usesOf_remove (r : LruK) (a page : PageId) :
    (r.remove a).usesOf page = if page = a then [] else r.usesOf page := by
  unfold usesOf remove
  rw [FinMap.get?_erase]
  split <;> rfl

theorem mem_of_mem_recent {k t : Nat} {times : List Nat} (h : t ∈ recent k times) : t ∈ times :=
  List.mem_of_mem_drop h

theorem length_recent (k : Nat) (times : List Nat) :
    (recent k times).length = min times.length k := by
  rw [recent, List.length_drop]
  omega

theorem mem_usesOf_access {t : Nat} (h : t ∈ (r.access a).usesOf page) :
    t ∈ r.usesOf page ∨ (page = a ∧ t = r.clock) := by
  rw [usesOf_access] at h
  split at h
  · rename_i heq
    rcases List.mem_append.1 (mem_of_mem_recent h) with hold | hnew
    · exact Or.inl (heq ▸ hold)
    · exact Or.inr ⟨heq, List.mem_singleton.1 hnew⟩
  · exact Or.inl h

/-- The time of a new use is later than all times before. -/
theorem Dated.access (h : r.Dated) (a : PageId) : (r.access a).Dated where
  one_le := h.one_le
  known page htracks := by
    rw [usesOf_access]
    split
    · intro hnil
      have hlen := length_recent r.k (r.usesOf a ++ [r.clock])
      rw [hnil, List.length_append, List.length_singleton, List.length_nil] at hlen
      have := h.one_le
      omega
    · rename_i hne
      rw [tracks_access] at htracks
      exact h.known page (by simpa [hne] using htracks)
  length_le page := by
    rw [usesOf_access]
    split
    · rw [length_recent]
      exact Nat.min_le_right _ _
    · exact h.length_le page
  past page t ht := by
    rcases mem_usesOf_access ht with hold | ⟨-, rfl⟩
    · exact Nat.lt_succ_of_lt (h.past page t hold)
    · exact Nat.lt_succ_self _
  apart a b t ha hb := by
    rcases mem_usesOf_access ha with hold | ⟨rfl, rfl⟩
    · rcases mem_usesOf_access hb with hold' | ⟨-, rfl⟩
      · exact h.apart a b t hold hold'
      · exact absurd (h.past a _ hold) (Nat.lt_irrefl _)
    · rcases mem_usesOf_access hb with hold' | ⟨rfl, -⟩
      · exact absurd (h.past b _ hold') (Nat.lt_irrefl _)
      · rfl

theorem Dated.remove (h : r.Dated) (a : PageId) : (r.remove a).Dated := by
  have hsub : ∀ page t, t ∈ (r.remove a).usesOf page → t ∈ r.usesOf page := by
    intro page t ht
    rw [usesOf_remove] at ht
    split at ht
    · cases ht
    · exact ht
  refine ⟨h.one_le, ?_, ?_, fun page t ht => h.past page t (hsub page t ht),
    fun a b t ha hb => h.apart a b t (hsub a t ha) (hsub b t hb)⟩
  · intro page htracks
    simp only [tracks_remove, Bool.and_eq_true, Bool.not_eq_true', decide_eq_false_iff_not]
      at htracks
    rw [usesOf_remove, if_neg htracks.1]
    exact h.known page htracks.2
  · intro page
    rw [usesOf_remove]
    split
    · exact Nat.zero_le _
    · exact h.length_le page

/-! ## The scan through the candidates -/

theorem tracks_iff : r.tracks page = true ↔ ∃ times, (page, times) ∈ r.history.entries := by
  rw [tracks, FinMap.contains_iff]
  simp only [FinMap.get?_eq_some_iff]

theorem usesOf_of_mem (h : (page, times) ∈ r.history.entries) : r.usesOf page = times := by
  rw [usesOf, (FinMap.get?_eq_some_iff _ _ _).2 h, Option.getD_some]

/-- How a page stands. -/
def standingOf (r : LruK) (page : PageId) : Standing := r.standing (page, r.usesOf page)

theorem distance_usesOf (r : LruK) (page : PageId) :
    r.distance (r.usesOf page) = (r.kthLast page).map (r.clock - ·) := by
  unfold distance kthLast
  split <;> rfl

theorem mem_of_kthLast {t : Nat} (h : r.kthLast page = some t) : t ∈ r.usesOf page := by
  unfold kthLast at h
  split at h
  · cases h
  · exact List.mem_of_getElem? h

/-- The scan compares pages as they outrank each other. -/
theorem Dated.goesBefore_iff (h : r.Dated) (ha : r.tracks a = true) (hb : r.tracks b = true) :
    (r.standingOf a).goesBefore (r.standingOf b) = true ↔ r.Outranks a b := by
  obtain ⟨x, xs, hx⟩ := List.exists_cons_of_ne_nil (h.known a ha)
  obtain ⟨y, ys, hy⟩ := List.exists_cons_of_ne_nil (h.known b hb)
  simp only [standingOf, standing, Standing.goesBefore, distance_usesOf, Outranks]
  rcases hka : r.kthLast a with _ | u <;> rcases hkb : r.kthLast b with _ | v
  · simp [hx, hy]
  · simp
  · simp
  · have hu := h.past a u (mem_of_kthLast hka)
    have hv := h.past b v (mem_of_kthLast hkb)
    simp only [Option.map_some, gt_iff_lt, decide_eq_true_eq]
    omega

/-- Of two tracked pages one is to go rather than the other. -/
theorem Dated.outranks_total (h : r.Dated) (ha : r.tracks a = true) (hb : r.tracks b = true)
    (hne : a ≠ b) : r.Outranks a b ∨ r.Outranks b a := by
  obtain ⟨x, xs, hx⟩ := List.exists_cons_of_ne_nil (h.known a ha)
  obtain ⟨y, ys, hy⟩ := List.exists_cons_of_ne_nil (h.known b hb)
  unfold Outranks
  rcases hka : r.kthLast a with _ | u <;> rcases hkb : r.kthLast b with _ | v
  · have hxy : x ≠ y := by
      rintro rfl
      exact hne (h.apart a b x (by simp [hx]) (by simp [hy]))
    simp only [hx, hy, List.head?_cons]
    rcases Nat.lt_or_gt_of_ne hxy with hlt | hlt
    · exact Or.inl ⟨x, y, rfl, rfl, hlt⟩
    · exact Or.inr ⟨y, x, rfl, rfl, hlt⟩
  · exact Or.inl trivial
  · exact Or.inr trivial
  · have huv : u ≠ v := by
      rintro rfl
      exact hne (h.apart a b u (mem_of_kthLast hka) (mem_of_kthLast hkb))
    exact Nat.lt_or_gt_of_ne huv

/-- No two pages are to go the one rather than the other. -/
theorem Outranks.asymm (hab : r.Outranks a b) : ¬ r.Outranks b a := by
  intro hba
  unfold Outranks at hab hba
  rcases hka : r.kthLast a with _ | u <;> rcases hkb : r.kthLast b with _ | v <;>
    simp only [hka, hkb] at hab hba
  · obtain ⟨x, y, hx, hy, hxy⟩ := hab
    obtain ⟨y', x', hy', hx', hyx⟩ := hba
    rw [hx, Option.some.injEq] at hx'
    rw [hy, Option.some.injEq] at hy'
    omega
  · omega

theorem foldl_worse_mem (l : List Standing) (best : Option Standing) {s : Standing}
    (h : l.foldl worse best = some s) : best = some s ∨ s ∈ l := by
  induction l generalizing best with
  | nil => exact Or.inl h
  | cons x rest ih =>
    rcases ih _ h with hbest | hmem
    · unfold worse at hbest
      split at hbest
      · cases hbest
        exact Or.inr List.mem_cons_self
      · split at hbest
        · cases hbest
          exact Or.inr List.mem_cons_self
        · exact Or.inl hbest
    · exact Or.inr (List.mem_cons_of_mem _ hmem)

/-- Only a candidate goes. -/
theorem candidate_of_evict {r : LruK} {candidate : PageId → Bool} {page : PageId}
    (h : (r.evict candidate).2 = some page) : candidate page = true := by
  unfold evict at h
  split at h
  · cases h
  · rename_i hvictim
    cases h
    obtain ⟨s, hs, rfl⟩ := Option.map_eq_some_iff.1 hvictim
    rcases foldl_worse_mem _ _ hs with hnone | hmem
    · cases hnone
    · obtain ⟨e, he, rfl⟩ := List.mem_map.1 hmem
      exact (List.mem_filter.1 he).2

/-- The scan is a search for the least element. -/
theorem worse_eq_argAux : worse = List.argAux fun a b => a.goesBefore b = true := by
  funext best s
  cases best <;> rfl

theorem mem_standings {entries : List (PageId × List Nat)}
    (hperm : entries.Perm r.history.entries) {s : Standing} :
    s ∈ (entries.filter fun e => candidate e.1).map r.standing ↔
      ∃ page, r.tracks page = true ∧ candidate page = true ∧ s = r.standingOf page := by
  rw [List.mem_map]
  constructor
  · rintro ⟨⟨page, times⟩, he, rfl⟩
    obtain ⟨hmem, hcand⟩ := List.mem_filter.1 he
    have hlisted := hperm.mem_iff.1 hmem
    exact ⟨page, tracks_iff.2 ⟨times, hlisted⟩, hcand, by rw [standingOf, usesOf_of_mem hlisted]⟩
  · rintro ⟨page, htracks, hcand, rfl⟩
    obtain ⟨times, hlisted⟩ := tracks_iff.1 htracks
    exact ⟨(page, times), List.mem_filter.2 ⟨hperm.mem_iff.2 hlisted, hcand⟩,
      by rw [standingOf, usesOf_of_mem hlisted]⟩

/-- The page is a tracked candidate that is to go rather than any other one. -/
structure IsVictim (r : LruK) (candidate : PageId → Bool) (page : PageId) : Prop where
  tracked : r.tracks page = true
  allowed : candidate page = true
  outranks : ∀ other, r.tracks other = true → candidate other = true → other ≠ page →
    r.Outranks page other

/-- In whatever order the entries are, the scan finds the candidate that is to go, if there is a
candidate. -/
theorem Dated.victim_cases (h : r.Dated) {entries : List (PageId × List Nat)}
    (hperm : entries.Perm r.history.entries) (candidate : PageId → Bool) :
    (r.victim entries candidate = none ∧ ∀ page, r.tracks page = true → candidate page = false) ∨
    ∃ page, r.victim entries candidate = some page ∧ r.IsVictim candidate page := by
  have hirrefl : Std.Irrefl fun a b : Standing => a.goesBefore b = true :=
    ⟨Standing.not_goesBefore_self⟩
  have htrans : IsTrans Standing fun a b => a.goesBefore b = true :=
    ⟨fun _ _ _ => Standing.goesBefore_trans⟩
  unfold victim
  rcases hscan : ((entries.filter fun e => candidate e.1).map r.standing).foldl worse none with
    _ | s
  · refine Or.inl ⟨by rw [hscan]; rfl, ?_⟩
    intro page htracks
    rw [worse_eq_argAux, List.foldl_argAux_eq_none] at hscan
    by_contra hcand
    have hmem := (mem_standings hperm).2 ⟨page, htracks, Bool.not_eq_false _ ▸ hcand, rfl⟩
    rw [hscan.1] at hmem
    cases hmem
  · rcases foldl_worse_mem _ _ hscan with hnone | hmem
    · cases hnone
    · obtain ⟨page, htracks, hcand, rfl⟩ := (mem_standings hperm).1 hmem
      refine Or.inr ⟨page, by rw [hscan]; rfl, htracks, hcand, ?_⟩
      intro other hother hocand hne
      rw [worse_eq_argAux] at hscan
      have hnot := List.not_of_mem_foldl_argAux _ hirrefl htrans
        ((mem_standings hperm).2 ⟨other, hother, hocand, rfl⟩) hscan
      rw [h.goesBefore_iff hother htracks] at hnot
      exact (h.outranks_total htracks hother (Ne.symm hne)).resolve_right hnot

/-- Whoever is to go is not tracked any more. -/
theorem Dated.evict_cases (h : r.Dated) (candidate : PageId → Bool) :
    (r.evict candidate = (r, none) ∧ ∀ page, r.tracks page = true → candidate page = false) ∨
    ∃ page, r.evict candidate = (r.remove page, some page) ∧ r.IsVictim candidate page := by
  unfold evict
  rcases h.victim_cases (List.Perm.refl _) candidate with ⟨he, hnone⟩ | ⟨page, he, hvictim⟩ <;>
    rw [he]
  · exact Or.inl ⟨rfl, hnone⟩
  · exact Or.inr ⟨page, rfl, hvictim⟩

end LruK

end PageCache
