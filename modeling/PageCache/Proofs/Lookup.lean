-- Looking things up in finite maps: an entry stands in a map exactly when the look-up of
-- its key finds it, and what each operation does to every look-up.
import PageCache.FinMap
import Mathlib.Data.List.Nodup

namespace PageCache

namespace FinMap

variable {κ α : Type} [DecidableEq κ]

/-! ## Entries and look-ups -/

theorem find_eq_some_iff {l : List (κ × α)} (h : (l.map Prod.fst).Nodup) (k : κ) (a : α) :
    find k l = some a ↔ (k, a) ∈ l := by
  induction l with
  | nil => simp [find]
  | cons e rest ih =>
    obtain ⟨j, b⟩ := e
    simp only [List.map_cons, List.nodup_cons] at h
    by_cases hj : j = k
    · subst hj
      have hnot : (j, a) ∉ rest := fun hm => h.1 (List.mem_map_of_mem hm)
      simp [find, hnot, eq_comm]
    · simp [find, hj, ih h.2, Ne.symm hj]

theorem get?_eq_some_iff (m : FinMap κ α) (k : κ) (a : α) :
    m.get? k = some a ↔ (k, a) ∈ m.entries := find_eq_some_iff m.nodup k a

theorem mem_values_iff (m : FinMap κ α) (a : α) : a ∈ m.values ↔ ∃ k, m.get? k = some a := by
  simp only [values, List.mem_map, get?_eq_some_iff]
  constructor
  · rintro ⟨⟨k, b⟩, hm, rfl⟩
    exact ⟨k, hm⟩
  · rintro ⟨k, hm⟩
    exact ⟨(k, a), hm, rfl⟩

theorem mem_keys_iff (m : FinMap κ α) (k : κ) : k ∈ m.keys ↔ ∃ a, m.get? k = some a := by
  simp only [keys, List.mem_map, get?_eq_some_iff]
  constructor
  · rintro ⟨⟨j, a⟩, hm, rfl⟩
    exact ⟨a, hm⟩
  · rintro ⟨a, hm⟩
    exact ⟨(k, a), hm, rfl⟩

theorem contains_iff (m : FinMap κ α) (k : κ) : m.contains k = true ↔ ∃ a, m.get? k = some a := by
  rw [contains, Option.isSome_iff_exists]

theorem contains_eq_false_iff (m : FinMap κ α) (k : κ) :
    m.contains k = false ↔ m.get? k = none := by
  rw [contains, Option.isSome_eq_false_iff, Option.isNone_iff_eq_none]

/-! ## Look-ups after an operation -/

theorem get?_filterMap (m : FinMap κ α) (f : κ → α → Option α) (k : κ) :
    (m.filterMap f).get? k = (m.get? k).bind (f k) := by
  apply Option.ext
  intro b
  rw [get?_eq_some_iff, Option.bind_eq_some_iff]
  simp only [filterMap, List.mem_filterMap, Option.map_eq_some_iff, Prod.mk.injEq]
  constructor
  · rintro ⟨⟨j, a⟩, hm, c, hc, rfl, rfl⟩
    exact ⟨a, (get?_eq_some_iff m j a).2 hm, hc⟩
  · rintro ⟨a, ha, hb⟩
    exact ⟨(k, a), (get?_eq_some_iff m k a).1 ha, b, hb, rfl, rfl⟩

theorem get?_insert_self (m : FinMap κ α) (k : κ) (a : α) : (m.insert k a).get? k = some a := by
  simp

theorem get?_insert_of_ne (m : FinMap κ α) {k j : κ} (a : α) (h : j ≠ k) :
    (m.insert k a).get? j = m.get? j := by simp [h]

theorem contains_insert (m : FinMap κ α) (k j : κ) (a : α) :
    (m.insert k a).contains j = (decide (j = k) || m.contains j) := by
  unfold contains
  rw [get?_insert]
  by_cases h : j = k <;> simp [h]

theorem contains_erase (m : FinMap κ α) (k j : κ) :
    (m.erase k).contains j = (!decide (j = k) && m.contains j) := by
  unfold contains
  rw [get?_erase]
  by_cases h : j = k <;> simp [h]

/-! ## Values in another form -/

theorem find_map {β : Type} (f : α → β) (k : κ) (l : List (κ × α)) :
    find k (l.map (Prod.map id f)) = (find k l).map f := by
  induction l with
  | nil => rfl
  | cons e rest ih =>
    obtain ⟨j, a⟩ := e
    by_cases hj : j = k
    · simp [find, hj]
    · simp [find, hj, ih]

theorem place_map {β : Type} (f : α → β) (k : κ) (a : α) (l : List (κ × α)) :
    place k (f a) (l.map (Prod.map id f)) = (place k a l).map (Prod.map id f) := by
  induction l with
  | nil => rfl
  | cons e rest ih =>
    obtain ⟨j, b⟩ := e
    by_cases hj : j = k
    · simp [place, hj]
    · simp [place, hj, ih]

/-! ## Entries put back -/

theorem place_find {k : κ} {a : α} {l : List (κ × α)} (h : find k l = some a) : place k a l = l := by
  induction l with
  | nil => cases h
  | cons e rest ih =>
    obtain ⟨j, b⟩ := e
    unfold find at h
    unfold place
    split at h
    · rename_i hj
      rw [if_pos hj, hj, Option.some.inj h]
    · rename_i hj
      rw [if_neg hj, ih h]

theorem place_place (k : κ) (a b : α) (l : List (κ × α)) :
    place k b (place k a l) = place k b l := by
  induction l with
  | nil => simp [place]
  | cons e rest ih =>
    obtain ⟨j, c⟩ := e
    by_cases hj : j = k
    · simp [place, hj]
    · simp [place, hj, ih]

theorem filter_place {k : κ} {l : List (κ × α)} (h : find k l = none) (a : α) :
    (place k a l).filter (fun e => e.1 ≠ k) = l := by
  induction l with
  | nil => simp [place]
  | cons e rest ih =>
    obtain ⟨j, b⟩ := e
    unfold find at h
    split at h
    · cases h
    · rename_i hj
      simpa [place, hj] using ih h

/-- A value that is replaced and put back leaves the map as it was. -/
theorem insert_insert_of_get? {m : FinMap κ α} {k : κ} {a : α} (h : m.get? k = some a) (b : α) :
    (m.insert k b).insert k a = m := by
  apply ext
  exact (place_place k b a m.entries).trans (place_find h)

/-- A new key that is erased again leaves the map as it was. -/
theorem erase_insert_of_get? {m : FinMap κ α} {k : κ} (h : m.get? k = none) (a : α) :
    (m.insert k a).erase k = m := by
  apply ext
  exact filter_place h a

/-- A new key gets the last entry. -/
theorem entries_insert_of_get? {m : FinMap κ α} {k : κ} (h : m.get? k = none) (a : α) :
    (m.insert k a).entries = m.entries ++ [(k, a)] := by
  have hlist : ∀ l : List (κ × α), find k l = none → place k a l = l ++ [(k, a)] := by
    intro l
    induction l with
    | nil => exact fun _ => rfl
    | cons e rest ih =>
      intro hnone
      unfold find at hnone
      unfold place
      split at hnone
      · cases hnone
      · rename_i hne
        rw [if_neg hne, ih hnone, List.cons_append]
  exact hlist _ h

theorem entries_erase_of_get? [DecidableEq α] {m : FinMap κ α} {k : κ} {a : α}
    (h : m.get? k = some a) : (m.erase k).entries = m.entries.erase (k, a) := by
  have hnd : m.entries.Nodup := List.Nodup.of_map Prod.fst m.nodup
  rw [hnd.erase_eq_filter]
  apply List.filter_congr
  rintro ⟨j, b⟩ hmem
  by_cases hj : j = k
  · have hb := (get?_eq_some_iff m j b).2 hmem
    rw [hj, h, Option.some.injEq] at hb
    simp [hj, hb]
  · simp [hj]

/-! ## Keys and numbers of entries -/

theorem keys_place {k : κ} {l : List (κ × α)} (h : k ∈ l.map Prod.fst) (a : α) :
    (place k a l).map Prod.fst = l.map Prod.fst := by
  induction l with
  | nil => cases h
  | cons e rest ih =>
    obtain ⟨j, b⟩ := e
    by_cases hj : j = k
    · simp [place, hj]
    · have hrest : k ∈ rest.map Prod.fst := by simpa [Ne.symm hj] using h
      simp [place, hj, ih hrest]

/-- A key that is there keeps its place. -/
theorem keys_insert {m : FinMap κ α} {k : κ} (h : m.contains k = true) (a : α) :
    (m.insert k a).keys = m.keys :=
  keys_place ((mem_keys_iff m k).2 ((contains_iff m k).1 h)) a

theorem length_place (k : κ) (a : α) (l : List (κ × α)) :
    (place k a l).length = if (find k l).isSome then l.length else l.length + 1 := by
  induction l with
  | nil => rfl
  | cons e rest ih =>
    obtain ⟨j, b⟩ := e
    by_cases hj : j = k
    · simp [place, find, hj]
    · simp only [place, find, hj, if_false, List.length_cons, ih]
      split <;> rfl

theorem size_insert (m : FinMap κ α) (k : κ) (a : α) :
    (m.insert k a).size = if m.contains k then m.size else m.size + 1 :=
  length_place k a m.entries

theorem size_erase_le (m : FinMap κ α) (k : κ) : (m.erase k).size ≤ m.size :=
  List.length_filter_le _ _

theorem size_erase_lt {m : FinMap κ α} {k : κ} (h : m.contains k = true) :
    (m.erase k).size < m.size := by
  obtain ⟨a, ha⟩ := (contains_iff m k).1 h
  exact List.length_filter_lt_length_iff_exists.2
    ⟨(k, a), (get?_eq_some_iff m k a).1 ha, by simp⟩

end FinMap

end PageCache
