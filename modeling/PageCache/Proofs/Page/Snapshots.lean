-- A page keeps the bytes of its last snapshot only. They give back the page of that moment,
-- whatever has been done to it since, and the page that comes back is its own snapshot.
import PageCache.Proofs.Page.RoundTrip

namespace PageCache

namespace HeapPage

variable {p : HeapPage} {id : PageId} {schema : Schema} {size : Nat} {data : Bytes}
  {e : PageEdit} {edits early late : List PageEdit}

/-- The page `q` is a page like `p`, with the same records in the same slots. -/
structure Repeats (p q : HeapPage) : Prop where
  id_eq : q.id = p.id
  schema_eq : q.schema = p.schema
  size_eq : q.size = p.size
  slotCount_eq : q.slotCount = p.slotCount
  used_eq : ∀ slot, q.isUsed slot = p.isUsed slot
  record_eq : ∀ slot, q.recordAt slot = p.recordAt slot

/-! ## Edits since the last snapshot -/

theorem edited_append (p : HeapPage) (early late : List PageEdit) :
    p.edited (early ++ late) = (p.edited early).edited late := by
  simp [edited, List.foldl_append]

/-- Only a snapshot changes what is kept. -/
theorem before_edit (he : e ≠ .snapshot) : (p.edit e).before = p.before := by
  rcases edit_cases p e with ⟨slots, hedit⟩ | ⟨mark, hedit⟩ | ⟨hsnap, -⟩
  · rw [hedit]
  · rw [hedit]
  · exact absurd hsnap he

theorem before_edited (hlate : .snapshot ∉ late) : (p.edited late).before = p.before := by
  induction late generalizing p with
  | nil => rfl
  | cons e late ih =>
    rw [List.mem_cons, not_or] at hlate
    exact (ih hlate.2).trans (before_edit (Ne.symm hlate.1))

theorem beforeImage_edited (h : p.ProperAt id schema size) (hlate : .snapshot ∉ late) :
    (p.edited late).beforeImage = p.beforeImage := by
  have hedited := h.edited late
  unfold beforeImage
  rw [hedited.id_eq, hedited.schema_eq, hedited.size_eq, h.id_eq, h.schema_eq, h.size_eq,
    before_edited hlate]

/-- There is no snapshot among some edits, or a last one. -/
theorem exists_last_snapshot (edits : List PageEdit) : .snapshot ∉ edits ∨
    ∃ early late, edits = early ++ .snapshot :: late ∧ .snapshot ∉ late := by
  induction edits with
  | nil => exact .inl List.not_mem_nil
  | cons e edits ih =>
    rcases ih with hnone | ⟨early, late, rfl, hlate⟩
    · by_cases he : .snapshot = e
      · exact .inr ⟨[], edits, by rw [he]; rfl, hnone⟩
      · exact .inl (by simp [he, hnone])
    · exact .inr ⟨e :: early, late, rfl, hlate⟩

/-! ## What comes back -/

/-- A page that was read comes back as it is until there is a snapshot. -/
theorem beforeImage_of_ofImage (h : ofImage id schema size data = .ok p) :
    p.beforeImage = .ok p := by
  obtain ⟨-, hid, hschema, hsize, -, hbefore⟩ := ofImage_ok h
  unfold beforeImage
  rw [hid, hschema, hsize, hbefore, h]

/-- A page comes back from a snapshot as it was then, but for the mark. -/
theorem beforeImage_snapshot (h : p.Proper) :
    p.snapshot.beforeImage = .ok p.markClean.snapshot := by
  have hback := ofImage_image h
  exact hback

theorem beforeImage_after_snapshot (h : p.ProperAt id schema size) (hlate : .snapshot ∉ late) :
    (p.edited (early ++ .snapshot :: late)).beforeImage =
      .ok (p.edited early).markClean.snapshot := by
  have hearly := h.edited early
  rw [edited_append]
  exact (beforeImage_edited (hearly.edit .snapshot) hlate).trans
    (beforeImage_snapshot hearly.proper)

/-! ## The law -/

/-- However a page that was read has been edited, the page of its last snapshot comes back, or the
page that was read if there was no snapshot: clean, with the same records in the same slots. What
comes back is its own snapshot. -/
theorem before_image_is_last_snapshot (h : ofImage id schema size data = .ok p)
    (edits : List PageEdit) :
    ∃ q, (p.edited edits).beforeImage = .ok q ∧ q.dirty = none ∧ q.beforeImage = .ok q ∧
      (.snapshot ∉ edits → p.Repeats q) ∧
      (∀ early late, edits = early ++ .snapshot :: late → .snapshot ∉ late →
        (p.edited early).Repeats q) := by
  have hread := properAt_ofImage h
  rcases exists_last_snapshot edits with hnone | ⟨early, late, rfl, hlate⟩
  · obtain ⟨-, -, -, -, hclean, -⟩ := ofImage_ok h
    have hback := beforeImage_of_ofImage h
    refine ⟨p, (beforeImage_edited hread hnone).trans hback, hclean, hback, ?_, ?_⟩
    · intro _
      exact ⟨rfl, rfl, rfl, rfl, fun _ => rfl, fun _ => rfl⟩
    · rintro early late rfl
      simp at hnone
  · have hback : (p.edited (early ++ .snapshot :: late)).beforeImage = _ :=
      beforeImage_after_snapshot hread hlate
    have hcleaned := (hread.edited early).edit .markClean
    refine ⟨_, hback, rfl, beforeImage_snapshot hcleaned.proper, ?_, ?_⟩
    · intro hnone
      simp at hnone
    · intro early' late' heq hlate'
      rw [heq, beforeImage_after_snapshot hread hlate', Except.ok.injEq] at hback
      rw [← hback]
      exact ⟨rfl, rfl, rfl, rfl, fun _ => rfl, fun _ => rfl⟩

/-- The page of three truth values: a second record is stored and a snapshot taken, then the first
record is taken out, and one is refused. What comes back has both records. -/
theorem before_image_of_threeFlags :
    ofImage threeFlags.id threeFlags.schema 4 [0xf1, 7, 9, 9] = .ok threeFlags ∧
      (threeFlags.edited (flagEdits ++ [.markDirty ⟨5⟩, .delete none])).isUsed 0 = false ∧
      ∃ q, (threeFlags.edited (flagEdits ++ [.markDirty ⟨5⟩, .delete none])).beforeImage = .ok q ∧
        q.dirty = none ∧ q.beforeImage = .ok q ∧
        q.recordAt 0 = some ⟨threeFlags.schema, [.boolean true], some ⟨threeFlags.id, 0⟩⟩ ∧
        q.recordAt 1 = some ⟨threeFlags.schema, [.boolean true], some ⟨threeFlags.id, 1⟩⟩ ∧
        q.isUsed 2 = false := by
  have hread : ofImage threeFlags.id threeFlags.schema 4 [0xf1, 7, 9, 9] = .ok threeFlags := by
    decide +kernel
  obtain ⟨q, hq, hclean, hself, -, hlast⟩ :=
    before_image_is_last_snapshot hread (flagEdits ++ [.markDirty ⟨5⟩, .delete none])
  have hrepeats := hlast [.insert ⟨threeFlags.schema, [.boolean true], none⟩ rfl]
    [.delete (some ⟨threeFlags.id, 0⟩), .markDirty ⟨5⟩, .delete none] rfl (by simp)
  refine ⟨hread, by decide +kernel, q, hq, hclean, hself, ?_, ?_, ?_⟩
  · exact (hrepeats.record_eq 0).trans (by decide +kernel)
  · exact (hrepeats.record_eq 1).trans (by decide +kernel)
  · exact (hrepeats.used_eq 2).trans (by decide +kernel)

end HeapPage

end PageCache
