-- The choice of the page that goes, against the whole past. The replacer keeps the last k times
-- of each page only, and looks through its pages once, in whatever order they are listed. What
-- it picks is what the full list of all uses says: every use of a page counts since the page was
-- last dropped.
import PageCache.Proofs.Eviction.Choice

namespace PageCache

/-- What can be asked of the replacer. -/
inductive LruAction where
  | access (page : PageId)
  | remove (page : PageId)
  | evict (candidate : PageId → Bool)

/-- What has happened to a page. -/
inductive LruEvent where
  | used (page : PageId)
  | dropped (page : PageId)
deriving DecidableEq

/-! ## The past -/

namespace LruEvent

/-- The number of uses in the past. The latest event comes first. -/
def uses : List LruEvent → Nat
  | [] => 0
  | .used _ :: past => uses past + 1
  | .dropped _ :: past => uses past

/-- All uses of a page since it was last dropped, the oldest first. The time of a use is the
number of uses before it. -/
def usesSince (page : PageId) : List LruEvent → List Nat
  | [] => []
  | .used p :: past => if p = page then usesSince page past ++ [uses past] else usesSince page past
  | .dropped p :: past => if p = page then [] else usesSince page past

end LruEvent

open LruEvent

/-- The first time is known and comes before the second one. -/
def Older (a b : Option Nat) : Prop := ∃ x y, a = some x ∧ b = some y ∧ x < y

/-- The page is tracked, and a candidate. -/
def Eligible (past : List LruEvent) (candidate : PageId → Bool) (page : PageId) : Prop :=
  usesSince page past ≠ [] ∧ candidate page = true

/-- The page that has to go by the past. If candidates have fewer than `k` uses it is one of them,
and its first use is older than that of all others. If all have `k` uses or more, its `k`-th use
from the end is older than that of all others. -/
structure HasToGo (k : Nat) (past : List LruEvent) (candidate : PageId → Bool) (page : PageId) :
    Prop where
  eligible : Eligible past candidate page
  few : (∃ other, Eligible past candidate other ∧ (usesSince other past).length < k) →
    (usesSince page past).length < k ∧
    ∀ other, Eligible past candidate other → (usesSince other past).length < k → other ≠ page →
      Older (usesSince page past).head? (usesSince other past).head?
  enough : (∀ other, Eligible past candidate other → k ≤ (usesSince other past).length) →
    ∀ other, Eligible past candidate other → other ≠ page →
      Older (usesSince page past).reverse[k - 1]? (usesSince other past).reverse[k - 1]?

namespace LruK

variable {r r' : LruK} {k : Nat} {past : List LruEvent} {candidate : PageId → Bool}
  {page other : PageId} {a : LruAction}

/-- The replacer after an action. -/
def perform (r : LruK) : LruAction → LruK
  | .access page => r.access page
  | .remove page => r.remove page
  | .evict candidate => (r.evict candidate).1

/-- What an action does to a page. -/
def event (r : LruK) : LruAction → Option LruEvent
  | .access page => some (.used page)
  | .remove page => some (.dropped page)
  | .evict candidate => (r.evict candidate).2.map .dropped

/-- A replacer and its past after an action. -/
def note (s : LruK × List LruEvent) (a : LruAction) : LruK × List LruEvent :=
  (s.1.perform a, (s.1.event a).toList ++ s.2)

/-- A new replacer after some actions, with its past. -/
def run (k : Nat) (actions : List LruAction) : LruK × List LruEvent :=
  actions.foldl note (new k, [])

/-! ## One look through the pages -/

/-- The look through the entries: only an entry that would take the place of the best one so far
is asked whether it is a candidate. -/
def scan (r : LruK) (candidate : PageId → Bool) :
    Option Standing → List (PageId × List Nat) → Option Standing
  | best, [] => best
  | best, e :: rest =>
    if best.all (r.standing e).goesBefore && candidate e.1 then
      scan r candidate (some (r.standing e)) rest
    else scan r candidate best rest

/-- Asking late makes no difference. -/
theorem scan_eq_foldl (entries : List (PageId × List Nat)) (best : Option Standing) :
    r.scan candidate best entries =
      ((entries.filter fun e => candidate e.1).map r.standing).foldl worse best := by
  induction entries generalizing best with
  | nil => rfl
  | cons e rest ih =>
    unfold scan
    by_cases hcand : candidate e.1 = true
    · rw [List.filter_cons_of_pos (by simpa using hcand), List.map_cons, List.foldl_cons]
      cases best with
      | none =>
        rw [if_pos (by simp [hcand]), ih]
        rfl
      | some b =>
        have hw : worse (some b) (r.standing e) =
            if (r.standing e).goesBefore b then some (r.standing e) else some b := rfl
        by_cases hb : (r.standing e).goesBefore b = true
        · rw [if_pos (by simp [hcand, hb]), ih, hw, if_pos hb]
        · rw [if_neg (by simp [hb]), ih, hw, if_neg hb]
    · rw [List.filter_cons_of_neg (by simpa using hcand), if_neg (by simp [hcand]), ih]

/-- Two pages are not both to go. -/
theorem IsVictim.unique (h : r.IsVictim candidate page) (h' : r.IsVictim candidate other) :
    page = other := by
  by_contra hne
  exact (h.outranks other h'.tracked h'.allowed (Ne.symm hne)).asymm
    (h'.outranks page h.tracked h.allowed hne)

/-- In whatever order the pages are listed, the look through them ends with the one that goes. -/
theorem Dated.scan_of_perm (h : r.Dated) {entries : List (PageId × List Nat)}
    (hperm : entries.Perm r.history.entries) :
    (r.scan candidate none entries).map Standing.page = (r.evict candidate).2 := by
  rw [scan_eq_foldl]
  change r.victim entries candidate = _
  rcases h.victim_cases hperm candidate with ⟨he, hnone⟩ | ⟨page, he, hvictim⟩ <;>
    rcases h.evict_cases candidate with ⟨he', hnone'⟩ | ⟨page', he', hvictim'⟩ <;> rw [he, he']
  · have hcand := hnone page' hvictim'.tracked
    rw [hvictim'.allowed] at hcand
    cases hcand
  · have hcand := hnone' page hvictim.tracked
    rw [hvictim.allowed] at hcand
    cases hcand
  · rw [hvictim.unique hvictim']

theorem Dated.evict_eq_some_iff (h : r.Dated) :
    (r.evict candidate).2 = some page ↔ r.IsVictim candidate page := by
  rcases h.evict_cases candidate with ⟨he, hnone⟩ | ⟨victim, he, hvictim⟩ <;> rw [he]
  · refine iff_of_false (by simp) fun hv => ?_
    have hcand := hnone page hv.tracked
    rw [hv.allowed] at hcand
    cases hcand
  · rw [Option.some.injEq]
    exact ⟨fun heq => heq ▸ hvictim, fun hv => hvictim.unique hv⟩

/-! ## The replacer and the past -/

/-- The replacer knows the last uses in the past. -/
structure Follows (r : LruK) (k : Nat) (past : List LruEvent) : Prop where
  dated : r.Dated
  k_eq : r.k = max k 1
  clock : r.clock = uses past
  usesOf : ∀ page, r.usesOf page = recent r.k (usesSince page past)

theorem recent_nil (k : Nat) : recent k ([] : List Nat) = [] := List.drop_nil

theorem recent_of_length_le {times : List Nat} (h : times.length ≤ k) : recent k times = times := by
  rw [recent, Nat.sub_eq_zero_of_le h, List.drop_zero]

/-- Times that are not known any more are forgotten for good. -/
theorem recent_append (k t : Nat) (times : List Nat) :
    recent k (recent k times ++ [t]) = recent k (times ++ [t]) := by
  unfold recent
  rw [← List.drop_append_of_le_length (Nat.sub_le _ _), List.drop_drop]
  congr 1
  simp only [List.length_drop, List.length_append, List.length_singleton]
  omega

theorem follows_new (k : Nat) : (new k).Follows k [] where
  dated := dated_new k
  k_eq := rfl
  clock := rfl
  usesOf _ := (recent_nil _).symm

namespace Follows

theorem access (h : r.Follows k past) (a : PageId) :
    (r.access a).Follows k (.used a :: past) where
  dated := h.dated.access a
  k_eq := h.k_eq
  clock := congrArg (· + 1) h.clock
  usesOf page := by
    rw [usesOf_access, usesSince]
    by_cases hp : page = a
    · rw [if_pos hp, if_pos hp.symm, h.usesOf, h.clock, recent_append, hp]
      rfl
    · rw [if_neg hp, if_neg (Ne.symm hp), h.usesOf]
      rfl

theorem remove (h : r.Follows k past) (a : PageId) :
    (r.remove a).Follows k (.dropped a :: past) where
  dated := h.dated.remove a
  k_eq := h.k_eq
  clock := h.clock
  usesOf page := by
    rw [usesOf_remove, usesSince]
    by_cases hp : page = a
    · rw [if_pos hp, if_pos hp.symm, recent_nil]
    · rw [if_neg hp, if_neg (Ne.symm hp), h.usesOf]
      rfl

/-- An action goes into the past as what it did. -/
theorem note (h : r.Follows k past) (a : LruAction) :
    (r.perform a).Follows k ((r.event a).toList ++ past) := by
  cases a with
  | access page => exact h.access page
  | remove page => exact h.remove page
  | evict candidate =>
    rw [perform, event]
    rcases h.dated.evict_cases candidate with ⟨he, -⟩ | ⟨page, he, -⟩ <;> rw [he]
    · exact h
    · exact h.remove page

theorem run (k : Nat) (actions : List LruAction) :
    (LruK.run k actions).1.Follows k (LruK.run k actions).2 := by
  have hfold : ∀ s : LruK × List LruEvent, s.1.Follows k s.2 →
      (actions.foldl LruK.note s).1.Follows k (actions.foldl LruK.note s).2 := by
    induction actions with
    | nil => exact fun _ hs => hs
    | cons a rest ih => exact fun s hs => ih _ (hs.note a)
  exact hfold _ (follows_new k)

theorem length_usesOf (h : r.Follows k past) (page : PageId) :
    (r.usesOf page).length = min (usesSince page past).length r.k := by
  rw [h.usesOf, length_recent]

theorem tracks_iff (h : r.Follows k past) :
    r.tracks page = true ↔ usesSince page past ≠ [] := by
  constructor
  · intro htracks hnil
    apply h.dated.known page htracks
    rw [h.usesOf, hnil, recent_nil]
  · intro hne
    have hlen := h.length_usesOf page
    have hpos := List.length_pos_iff.2 hne
    have hone := h.dated.one_le
    rw [tracks, FinMap.contains]
    rcases hget : r.history.get? page with _ | times
    · rw [LruK.usesOf, hget, Option.getD_none, List.length_nil] at hlen
      omega
    · rfl

/-- The `k`-th last of the times that are known is the `k`-th from the end of all times. -/
theorem kthLast_eq (h : r.Follows k past) :
    r.kthLast page = (usesSince page past).reverse[r.k - 1]? := by
  have hone := h.dated.one_le
  unfold kthLast
  rw [h.usesOf, length_recent]
  split
  · rw [List.getElem?_eq_none]
    rw [List.length_reverse]
    omega
  · rw [recent, List.getElem?_drop, List.getElem?_reverse (by omega)]
    congr 1
    omega

/-- As long as a page has fewer than `k` uses, all of them are known. -/
theorem usesOf_of_lt (h : r.Follows k past) (hlt : (usesSince page past).length < r.k) :
    r.usesOf page = usesSince page past := by
  rw [h.usesOf, recent_of_length_le (Nat.le_of_lt hlt)]

theorem kthLast_eq_none_iff (h : r.Follows k past) (page : PageId) :
    r.kthLast page = none ↔ (usesSince page past).length < r.k := by
  have hone := h.dated.one_le
  rw [h.kthLast_eq, List.getElem?_eq_none_iff, List.length_reverse]
  omega

theorem eligible_iff (h : r.Follows k past) :
    Eligible past candidate page ↔ r.tracks page = true ∧ candidate page = true := by
  rw [Eligible, h.tracks_iff]

/-- Of two pages, the first is to go rather than the second by what the replacer knows, said of
all uses in the past. -/
theorem outranks_iff (h : r.Follows k past) (page other : PageId) :
    r.Outranks page other ↔
      if (usesSince page past).length < r.k then
        (usesSince other past).length < r.k →
          Older (usesSince page past).head? (usesSince other past).head?
      else r.k ≤ (usesSince other past).length ∧
        Older (usesSince page past).reverse[r.k - 1]? (usesSince other past).reverse[r.k - 1]? := by
  have hpage := h.kthLast_eq_none_iff page
  have hother := h.kthLast_eq_none_iff other
  unfold Outranks
  by_cases hfew : (usesSince page past).length < r.k
  · rw [if_pos hfew, hpage.2 hfew]
    rcases ho : r.kthLast other with _ | y
    · have hfew' := hother.1 ho
      dsimp only
      rw [h.usesOf_of_lt hfew, h.usesOf_of_lt hfew']
      exact ⟨fun hold _ => hold, fun hold => hold hfew'⟩
    · refine iff_of_true trivial fun hfew' => ?_
      rw [hother.2 hfew'] at ho
      cases ho
  · obtain ⟨x, hx⟩ := Option.ne_none_iff_exists'.1 (mt hpage.1 hfew)
    rw [if_neg hfew, ← h.kthLast_eq, ← h.kthLast_eq, hx]
    rcases ho : r.kthLast other with _ | y
    · have hfew' := hother.1 ho
      exact iff_of_false not_false fun hc => absurd hc.1 (Nat.not_le.2 hfew')
    · have hall : r.k ≤ (usesSince other past).length := by
        by_contra hlt
        rw [hother.2 (Nat.not_le.1 hlt)] at ho
        cases ho
      simp [Older, hall]

/-- The page that is to go by what the replacer knows is the one that has to go by the past. -/
theorem isVictim_iff (h : r.Follows k past) :
    r.IsVictim candidate page ↔ HasToGo (max k 1) past candidate page := by
  rw [← h.k_eq]
  constructor
  · intro hv
    have houtranks : ∀ other, Eligible past candidate other → other ≠ page → _ :=
      fun other hel hne => (h.outranks_iff page other).1
        (hv.outranks other (h.eligible_iff.1 hel).1 hel.2 hne)
    refine ⟨h.eligible_iff.2 ⟨hv.tracked, hv.allowed⟩, ?_, ?_⟩
    · rintro ⟨first, hel, hfirst⟩
      have hfew : (usesSince page past).length < r.k := by
        by_cases heq : first = page
        · exact heq ▸ hfirst
        · by_contra henough
          have hrank := houtranks first hel heq
          rw [if_neg henough] at hrank
          omega
      refine ⟨hfew, fun other hel hlt hne => ?_⟩
      have hrank := houtranks other hel hne
      rw [if_pos hfew] at hrank
      exact hrank hlt
    · intro hall other hel hne
      have hrank := houtranks other hel hne
      rw [if_neg (Nat.not_lt.2 (hall page (h.eligible_iff.2 ⟨hv.tracked, hv.allowed⟩)))] at hrank
      exact hrank.2
  · intro hgo
    refine ⟨h.tracks_iff.2 hgo.eligible.1, hgo.eligible.2, fun other htracks hcand hne => ?_⟩
    have hel : Eligible past candidate other := h.eligible_iff.2 ⟨htracks, hcand⟩
    rw [h.outranks_iff]
    split
    · rename_i hfew
      exact fun hlt => (hgo.few ⟨page, hgo.eligible, hfew⟩).2 other hel hlt hne
    · rename_i henough
      have hall : ∀ other, Eligible past candidate other →
          r.k ≤ (usesSince other past).length := by
        intro other hel
        by_contra hlt
        exact henough (hgo.few ⟨other, hel, Nat.not_le.1 hlt⟩).1
      exact ⟨hall other hel, hgo.enough hall other hel hne⟩

end Follows

/-! ## The law -/

/-- What goes is what the past says, for every number of uses that count, every run and every
choice of candidates. Nothing goes exactly when no tracked page is a candidate. Otherwise it is
the one page that has to go, and the look through the pages finds it in whatever order they are
listed. That page is tracked no more, and what is known of the others stays. No time that is known
is later than the clock. -/
theorem evicts_what_has_to_go (k : Nat) (actions : List LruAction) (candidate : PageId → Bool) :
    let r := (run k actions).1
    let past := (run k actions).2
    (∀ page, r.tracks page = true ↔ usesSince page past ≠ []) ∧
    ((r.evict candidate).2 = none ↔ ∀ page, ¬ Eligible past candidate page) ∧
    (∀ page, (r.evict candidate).2 = some page ↔ HasToGo (max k 1) past candidate page) ∧
    (∀ page other, HasToGo (max k 1) past candidate page →
      HasToGo (max k 1) past candidate other → page = other) ∧
    (∀ entries : List (PageId × List Nat), entries.Perm r.history.entries →
      (r.scan candidate none entries).map Standing.page = (r.evict candidate).2) ∧
    (∀ page, ((r.evict candidate).1.tracks page = true ↔
        r.tracks page = true ∧ (r.evict candidate).2 ≠ some page) ∧
      ((r.evict candidate).2 ≠ some page →
        (r.evict candidate).1.history.get? page = r.history.get? page)) ∧
    r.clock = uses past ∧ ∀ e ∈ r.history.entries, ∀ t ∈ e.2, t < r.clock := by
  intro r past
  have h : r.Follows k past := Follows.run k actions
  have hsome : ∀ page, (r.evict candidate).2 = some page ↔ HasToGo (max k 1) past candidate page :=
    fun page => h.dated.evict_eq_some_iff.trans h.isVictim_iff
  refine ⟨fun page => h.tracks_iff, ?_, hsome, ?_, fun _ hperm => h.dated.scan_of_perm hperm, ?_,
    h.clock, ?_⟩
  · rcases h.dated.evict_cases candidate with ⟨he, hnone⟩ | ⟨page, he, hvictim⟩ <;> rw [he]
    · refine iff_of_true rfl fun page hel => ?_
      have hcand := hnone page (h.eligible_iff.1 hel).1
      rw [hel.2] at hcand
      cases hcand
    · refine iff_of_false (by simp) fun hnone => ?_
      exact hnone page (h.eligible_iff.2 ⟨hvictim.tracked, hvictim.allowed⟩)
  · intro page other hpage hother
    exact (h.isVictim_iff.2 hpage).unique (h.isVictim_iff.2 hother)
  · intro page
    rcases h.dated.evict_cases candidate with ⟨he, -⟩ | ⟨victim, he, -⟩ <;> rw [he]
    · simp
    · rw [tracks_remove, remove, FinMap.get?_erase]
      by_cases hp : page = victim
      · simp [hp]
      · simp [hp, Ne.symm hp]
  · rintro ⟨page, times⟩ hmem t ht
    exact h.dated.past page t (usesOf_of_mem hmem ▸ ht)

/-- The page with the latest use goes, since its last use but one is the oldest. -/
example : ((run 2 [.access ⟨⟨1⟩, 0⟩, .access ⟨⟨1⟩, 1⟩, .access ⟨⟨1⟩, 1⟩, .access ⟨⟨1⟩, 0⟩]).1.evict
    fun _ => true).2 = some ⟨⟨1⟩, 0⟩ := by decide

end LruK

end PageCache
