-- The clock of the replacer as a word. As long as it has not gone round, its times are the numbers
-- of uses before, and the pages that go are those that go by a clock without an end. It goes round
-- when 2 ^ 64 uses were noted.
import PageCache.Eviction.WordLruK
import PageCache.Proofs.Eviction.Trace

namespace PageCache

/-- The action notes a use. -/
def LruAction.isAccess : LruAction → Bool
  | .access _ => true
  | _ => false

open LruEvent

namespace WordLruK

variable {w : WordLruK} {r : LruK} {k : Nat} {past : List LruEvent} {page : PageId}
  {actions : List LruAction}

/-- The replacer after an action. -/
def perform (w : WordLruK) : LruAction → WordLruK
  | .access page => w.access page
  | .remove page => w.remove page
  | .evict candidate => (w.evict candidate).1

/-- A new replacer after some actions. -/
def after (k : Nat) (actions : List LruAction) : WordLruK := actions.foldl perform (new k)

/-- The words stand for the times. -/
structure Tells (w : WordLruK) (r : LruK) : Prop where
  k_eq : r.k = w.k
  clock_eq : r.clock = w.clock.toNat
  entries_eq : r.history.entries =
    w.history.entries.map (Prod.map id (List.map UInt64.toNat))

theorem tells_new (k : Nat) : (new k).Tells (.new k) := ⟨rfl, rfl, rfl⟩

namespace Tells

theorem getD_get? (h : w.Tells r) (page : PageId) :
    (r.history.get? page).getD [] = ((w.history.get? page).getD []).map UInt64.toNat := by
  rw [FinMap.get?, h.entries_eq, FinMap.find_map, ← FinMap.get?]
  rcases w.history.get? page with _ | times <;> rfl

/-- A use is noted under the number that the clock stands for. -/
theorem access (h : w.Tells r) (hroom : r.clock + 1 < UInt64.size) (page : PageId) :
    (w.access page).Tells (r.access page) where
  k_eq := h.k_eq
  clock_eq := by
    rw [h.clock_eq] at hroom
    change r.clock + 1 = (w.clock + 1).toNat
    rw [h.clock_eq, UInt64.toNat_add]
    exact (Nat.mod_eq_of_lt hroom).symm
  entries_eq := by
    change FinMap.place page _ r.history.entries = (FinMap.place page _ w.history.entries).map _
    rw [← FinMap.place_map, ← h.entries_eq, h.getD_get?, h.clock_eq, h.k_eq]
    congr 1
    simp [LruK.recent]

theorem remove (h : w.Tells r) (page : PageId) : (w.remove page).Tells (r.remove page) where
  k_eq := h.k_eq
  clock_eq := h.clock_eq
  entries_eq := by
    change r.history.entries.filter _ = (w.history.entries.filter _).map _
    rw [h.entries_eq, List.filter_map]
    rfl

/-- How far back a use lies is the same for both: no known use is later than the clock. -/
theorem distance_eq (h : w.Tells r) {times : List UInt64} (hpast : ∀ t ∈ times, t ≤ w.clock) :
    r.distance (times.map UInt64.toNat) = (w.distance times).map UInt64.toNat := by
  unfold LruK.distance distance
  rw [List.length_map, h.k_eq]
  split
  · rfl
  · rw [List.getElem?_map]
    rcases hkth : times[times.length - w.k]? with _ | t
    · rfl
    · have hle := hpast t (List.mem_of_getElem? hkth)
      simp only [Option.map_some, h.clock_eq, UInt64.toNat_sub_of_le _ _ hle]

/-- Both replacers compare the same things. -/
theorem standings_eq (h : w.Tells r) (hdated : r.Dated) (candidate : PageId → Bool) :
    (r.history.entries.filter fun e => candidate e.1).map r.standing =
      (w.history.entries.filter fun e => candidate e.1).map w.standing := by
  rw [h.entries_eq, List.filter_map, List.map_map]
  apply List.map_congr_left
  rintro ⟨page, times⟩ he
  have hlisted : (page, times.map UInt64.toNat) ∈ r.history.entries := by
    rw [h.entries_eq]
    exact List.mem_map_of_mem (List.mem_filter.1 he).1
  have hpast : ∀ t ∈ times, t ≤ w.clock := by
    intro t ht
    have hlt := hdated.past page t.toNat
      (by rw [LruK.usesOf_of_mem hlisted]; exact List.mem_map_of_mem ht)
    rw [h.clock_eq] at hlt
    exact UInt64.le_iff_toNat_le.2 (Nat.le_of_lt hlt)
  simp only [Function.comp_apply, Prod.map_apply, id, LruK.standing, standing, h.distance_eq hpast,
    List.head?_map]

theorem evict (h : w.Tells r) (hdated : r.Dated) (candidate : PageId → Bool) :
    (w.evict candidate).2 = (r.evict candidate).2 ∧
      (w.evict candidate).1.Tells (r.evict candidate).1 := by
  have hvictim : w.victim candidate = r.victim r.history.entries candidate := by
    rw [victim, LruK.victim, h.standings_eq hdated]
  unfold WordLruK.evict LruK.evict
  rw [hvictim]
  rcases r.victim r.history.entries candidate with _ | page
  · exact ⟨rfl, h⟩
  · exact ⟨rfl, h.remove page⟩

/-- An action keeps the two together as long as the clock has a next word. -/
theorem perform (h : w.Tells r) (hdated : r.Dated) {a : LruAction}
    (hroom : a.isAccess = true → r.clock + 1 < UInt64.size) :
    (w.perform a).Tells (r.perform a) := by
  cases a with
  | access page => exact h.access (hroom rfl) page
  | remove page => exact h.remove page
  | evict candidate => exact (h.evict hdated candidate).2

end Tells

/-- The clock counts the uses that are noted. -/
theorem clock_perform (r : LruK) (a : LruAction) :
    (r.perform a).clock = r.clock + [a].countP LruAction.isAccess := by
  cases a with
  | access page => rfl
  | remove page => rfl
  | evict candidate =>
    change (r.evict candidate).1.clock = r.clock
    unfold LruK.evict
    split <;> rfl

/-- **As long as fewer than 2 ^ 64 uses were noted, the words stand for the times**, in every run:
the replacers agree on all that they know of the pages. -/
theorem words_tell_times (k : Nat) (actions : List LruAction)
    (hroom : actions.countP LruAction.isAccess < UInt64.size) :
    (after k actions).Tells (LruK.run k actions).1 := by
  -- the uses that are still to come have to find words, too
  have hfold : ∀ (w : WordLruK) (s : LruK × List LruEvent), w.Tells s.1 → s.1.Follows k s.2 →
      s.1.clock + actions.countP LruAction.isAccess < UInt64.size →
      (actions.foldl WordLruK.perform w).Tells (actions.foldl LruK.note s).1 := by
    clear hroom
    induction actions with
    | nil => exact fun _ _ h _ _ => h
    | cons a rest ih =>
      intro w s h hfollows hlt
      have hclock := clock_perform s.1 a
      rw [← List.singleton_append, List.countP_append] at hlt
      refine ih _ _ (h.perform hfollows.dated fun ha => ?_) (hfollows.note a) ?_
      · rw [List.countP_singleton, if_pos ha] at hlt
        omega
      · change (s.1.perform a).clock + _ < _
        omega
  exact hfold _ _ (tells_new k) (LruK.follows_new k) (by simpa [LruK.new] using hroom)

/-- Up to then the page that goes is the one that has to go by the past. -/
theorem words_pick_what_has_to_go (k : Nat) (actions : List LruAction)
    (hroom : actions.countP LruAction.isAccess < UInt64.size) (candidate : PageId → Bool) :
    ((after k actions).evict candidate).2 = some page ↔
      HasToGo (max k 1) (LruK.run k actions).2 candidate page := by
  have hfollows := LruK.Follows.run k actions
  rw [((words_tell_times k actions hroom).evict hfollows.dated candidate).1]
  exact hfollows.dated.evict_eq_some_iff.trans hfollows.isVictim_iff

/-- When the clock has gone round, a page that was used last of all goes first: its only use has the
time zero. -/
example : ((WordLruK.access ⟨2, 0, FinMap.empty.insert ⟨⟨1⟩, 0⟩ [0xFFFFFFFFFFFFFFFF]⟩ ⟨⟨1⟩, 1⟩).evict
    fun _ => true).2 = some ⟨⟨1⟩, 1⟩ := by decide +kernel

end WordLruK

end PageCache
