-- A page in memory after any number of edits. Edits that are refused leave it as it was; the
-- others keep its id, its schema and its size, and keep it proper.
import PageCache.Proofs.Page.Changes

namespace PageCache

/-- What can be done to a page in memory. A record that is made has one value for each column. -/
inductive PageEdit where
  | insert (r : Record) (whole : r.IsWhole)
  | delete (location : Option RecordId)
  | markDirty (txn : TransactionId)
  | markClean
  | snapshot

namespace HeapPage

variable {p q : HeapPage} {id : PageId} {schema : Schema} {size : Nat} {data : Bytes}

/-- The page after an edit. A refused one changes nothing. -/
def edit (p : HeapPage) : PageEdit → HeapPage
  | .insert r _ =>
    match p.insert r with
    | .ok (q, _) => q
    | .error _ => p
  | .delete location =>
    match p.delete location with
    | .ok q => q
    | .error _ => p
  | .markDirty txn => p.markDirty txn
  | .markClean => p.markClean
  | .snapshot => p.snapshot

/-- The page after some edits, one after the other. -/
def edited (p : HeapPage) (edits : List PageEdit) : HeapPage := edits.foldl edit p

/-- An insertion changes the slots of a page. -/
theorem slots_changed_of_insert {r : Record} {place : RecordId}
    (hi : p.insert r = .ok (q, place)) : ∃ slots, q = { p with slots := slots } := by
  unfold insert at hi
  split at hi
  · cases hi
  · split at hi
    · cases hi
    · cases hi
      exact ⟨_, rfl⟩

/-- An edit changes the slots, the mark or the snapshot of a page. -/
theorem edit_cases (p : HeapPage) (e : PageEdit) :
    (∃ slots, p.edit e = { p with slots := slots }) ∨
      (∃ mark, p.edit e = { p with dirty := mark }) ∨ (e = .snapshot ∧ p.edit e = p.snapshot) := by
  cases e with
  | insert r whole =>
    simp only [edit]
    split
    · rename_i q place hi
      exact .inl (slots_changed_of_insert hi)
    · exact .inl ⟨p.slots, rfl⟩
  | delete location =>
    simp only [edit]
    split
    · rename_i q hd
      obtain ⟨place, -, rfl, -⟩ := delete_ok hd
      exact .inl ⟨_, rfl⟩
    · exact .inl ⟨p.slots, rfl⟩
  | markDirty txn => exact .inr (.inl ⟨some txn, rfl⟩)
  | markClean => exact .inr (.inl ⟨none, rfl⟩)
  | snapshot => exact .inr (.inr ⟨rfl, rfl⟩)

/-- A proper page with the given id, schema and size. -/
structure ProperAt (id : PageId) (schema : Schema) (size : Nat) (p : HeapPage) : Prop where
  proper : p.Proper
  id_eq : p.id = id
  schema_eq : p.schema = schema
  size_eq : p.size = size

theorem properAt_ofImage (h : ofImage id schema size data = .ok p) :
    p.ProperAt id schema size := by
  obtain ⟨hproper, hid, hschema, hsize, -, -⟩ := ofImage_ok h
  exact ⟨hproper, hid, hschema, hsize⟩

namespace ProperAt

theorem change (h : p.ProperAt id schema size) (ch : Change)
    (hrow : ∀ row, ch.row = some row → Record.RowFits p.schema.types row) :
    (p.change ch).ProperAt id schema size :=
  ⟨h.proper.change ch hrow, h.id_eq, h.schema_eq, h.size_eq⟩

/-- Only records that fit are stored, so each edit keeps a page proper. -/
theorem edit (h : p.ProperAt id schema size) (e : PageEdit) :
    (p.edit e).ProperAt id schema size := by
  cases e with
  | insert r whole =>
    simp only [HeapPage.edit]
    split
    · rename_i q place hi
      obtain ⟨rfl, -, hschema, hfits⟩ := insert_ok h.proper hi
      apply h.change
      intro row hrow
      rw [← Option.some.inj hrow, ← hschema]
      exact (Record.rowFits_iff r).2 ⟨whole, hfits⟩
    · exact h
  | delete location =>
    simp only [HeapPage.edit]
    split
    · rename_i q hd
      obtain ⟨place, -, rfl, -⟩ := delete_ok hd
      exact h.change _ nofun
    · exact h
  | markDirty txn => exact ⟨h.proper.markDirty txn, h.id_eq, h.schema_eq, h.size_eq⟩
  | markClean =>
    obtain ⟨hcount, hbits, hrows⟩ := h.proper
    exact ⟨⟨hcount, hbits, hrows⟩, h.id_eq, h.schema_eq, h.size_eq⟩
  | snapshot =>
    obtain ⟨hcount, hbits, hrows⟩ := h.proper
    exact ⟨⟨hcount, hbits, hrows⟩, h.id_eq, h.schema_eq, h.size_eq⟩

theorem edited (h : p.ProperAt id schema size) (edits : List PageEdit) :
    (p.edited edits).ProperAt id schema size := by
  induction edits generalizing p with
  | nil => exact h
  | cons e rest ih => exact ih (h.edit e)

end ProperAt

end HeapPage

end PageCache
