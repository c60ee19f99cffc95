-- Finite maps with the keys in the order of their first entry. Each key stands once,
-- so two maps built by the same steps are equal as values, and the number of entries
-- is the number of keys.

namespace PageCache

/-- A finite map from `κ` to `α`: a list of entries with distinct keys. -/
structure FinMap (κ α : Type) where
  entries : List (κ × α)
  nodup : (entries.map Prod.fst).Nodup

namespace FinMap

variable {κ α : Type}

/-- The map without entries. -/
def empty : FinMap κ α := ⟨[], List.nodup_nil⟩

instance : Inhabited (FinMap κ α) := ⟨empty⟩

theorem ext {m n : FinMap κ α} (h : m.entries = n.entries) : m = n := by
  cases m; cases n; cases h; rfl

instance [DecidableEq κ] [DecidableEq α] : DecidableEq (FinMap κ α) := fun m n =>
  decidable_of_iff (m.entries = n.entries) ⟨ext, fun h => h ▸ rfl⟩

/-- The keys, in order. -/
def keys (m : FinMap κ α) : List κ := m.entries.map Prod.fst

/-- The values, in the order of their keys. -/
def values (m : FinMap κ α) : List α := m.entries.map Prod.snd

/-- The number of entries. -/
def size (m : FinMap κ α) : Nat := m.entries.length

/-- No entry at all. -/
def isEmpty (m : FinMap κ α) : Bool := m.entries.isEmpty

variable [DecidableEq κ]

/-- The value that a list of entries gives a key. -/
def find (k : κ) : List (κ × α) → Option α
  | [] => none
  | (j, a) :: rest => if j = k then some a else find k rest

/-- A list of entries with the value of `k` replaced, or with a new last entry. -/
def place (k : κ) (a : α) : List (κ × α) → List (κ × α)
  | [] => [(k, a)]
  | (j, b) :: rest => if j = k then (k, a) :: rest else (j, b) :: place k a rest

/-- The value of a key, if there is one. -/
def get? (m : FinMap κ α) (k : κ) : Option α := find k m.entries

/-- The map has an entry for the key. -/
def contains (m : FinMap κ α) (k : κ) : Bool := (m.get? k).isSome

theorem mem_keys_place (k j : κ) (a : α) (l : List (κ × α)) :
    j ∈ (place k a l).map Prod.fst ↔ j = k ∨ j ∈ l.map Prod.fst := by
  induction l with
  | nil => simp [place]
  | cons e rest ih =>
    obtain ⟨i, b⟩ := e
    by_cases h : i = k
    · subst h
      simp [place]
    · simp only [place, h, if_false, List.map_cons, List.mem_cons, ih]
      constructor
      · rintro (h | h | h) <;> simp [h]
      · rintro (h | h | h) <;> simp [h]

theorem nodup_place (k : κ) (a : α) (l : List (κ × α)) (h : (l.map Prod.fst).Nodup) :
    ((place k a l).map Prod.fst).Nodup := by
  induction l with
  | nil => simp [place]
  | cons e rest ih =>
    obtain ⟨i, b⟩ := e
    simp only [List.map_cons, List.nodup_cons] at h
    by_cases hi : i = k
    · subst hi
      simpa [place] using h
    · simp only [place, hi, if_false, List.map_cons, List.nodup_cons, mem_keys_place]
      exact ⟨by rintro (h' | h') <;> simp_all, ih h.2⟩

/-- Gives `k` the value `a`: in its place if `k` has an entry, else as the last entry. -/
def insert (m : FinMap κ α) (k : κ) (a : α) : FinMap κ α :=
  ⟨place k a m.entries, nodup_place k a m.entries m.nodup⟩

/-- Drops the entries that fail the test. -/
def filter (m : FinMap κ α) (p : κ → α → Bool) : FinMap κ α :=
  ⟨m.entries.filter (fun e => p e.1 e.2),
    m.nodup.sublist ((List.filter_sublist).map Prod.fst)⟩

/-- Drops the entry of `k`. -/
def erase (m : FinMap κ α) (k : κ) : FinMap κ α := m.filter fun j _ => j ≠ k

/-- Applies `f` to each value and keeps what it returns; keys without a result go. -/
def filterMap (m : FinMap κ α) (f : κ → α → Option α) : FinMap κ α :=
  ⟨m.entries.filterMap (fun e => (f e.1 e.2).map (e.1, ·)), by
    refine m.nodup.sublist ?_
    generalize m.entries = l
    induction l with
    | nil => simp
    | cons e rest ih =>
      cases h : f e.1 e.2 with
      | none => simpa [h] using ih.cons e.1
      | some b => simpa [h] using ih.cons_cons e.1⟩

theorem find_place (k j : κ) (a : α) (l : List (κ × α)) :
    find j (place k a l) = if j = k then some a else find j l := by
  induction l with
  | nil => simp [place, find, eq_comm]
  | cons e rest ih =>
    obtain ⟨i, b⟩ := e
    by_cases hi : i = k
    · subst hi
      by_cases hj : j = i
      · subst hj; simp [place, find]
      · simp [place, find, hj, Ne.symm hj]
    · by_cases hj : i = j
      · subst hj
        simp [place, find, hi]
      · simp [place, find, hi, hj, ih]

/-- Looking up after an insertion: the new value at the key, the old ones elsewhere. -/
@[simp] theorem get?_insert (m : FinMap κ α) (k j : κ) (a : α) :
    (m.insert k a).get? j = if j = k then some a else m.get? j :=
  find_place k j a m.entries

theorem find_filter_ne (k j : κ) (l : List (κ × α)) :
    find j (l.filter fun e => e.1 ≠ k) = if j = k then none else find j l := by
  induction l with
  | nil => simp [find]
  | cons e rest ih =>
    obtain ⟨i, b⟩ := e
    by_cases hi : i = k
    · subst hi
      by_cases hj : j = i
      · subst hj; simpa [find] using ih
      · simpa [find, hj, Ne.symm hj] using ih
    · by_cases hj : i = j
      · subst hj
        simp [find, hi]
      · simpa [find, hi, hj] using ih

/-- Looking up after an erasure: nothing at the key, the old values elsewhere. -/
@[simp] theorem get?_erase (m : FinMap κ α) (k j : κ) :
    (m.erase k).get? j = if j = k then none else m.get? j := by
  simpa [erase, filter, get?] using find_filter_ne k j m.entries

@[simp] theorem get?_empty (k : κ) : (empty : FinMap κ α).get? k = none := rfl

end FinMap

end PageCache
