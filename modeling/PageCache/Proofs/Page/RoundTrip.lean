-- The format of pages. Any bytes that can be read give a page, and however it is edited, the
-- page is read back from its bytes as it is. So reading and writing back brings bytes into a
-- normal form: only bytes that no record needs change, and a second time nothing does.
import PageCache.Proofs.Page.Edits
import PageCache.Proofs.Row.Normal

namespace PageCache

namespace HeapPage

variable {p : HeapPage} {id : PageId} {schema : Schema} {size : Nat} {data body : Bytes}
  {bits : List Bool} {slots read : Array (Option Row)}

/-! ## What writing back changes -/

/-- What writing slots back puts over their bytes: zeros over the slots that are not used, over
the others what writing their records back does. -/
def slotsMask (schema : Schema) : List Bool → Bytes → Bytes.Mask
  | [], _ => []
  | used :: bits, body =>
    (if used then Record.mask schema.types (body.take schema.width)
      else Bytes.blanked schema.width) ++ slotsMask schema bits (body.drop schema.width)

/-- What writing a page back puts over its bytes: nothing over the header, then what writing
the slots back does, then zeros. -/
def mask (schema : Schema) (size : Nat) (data : Bytes) : Bytes.Mask :=
  let header := Geometry.header size schema.width
  let bits := (Bytes.unpackBits (data.take header)).take (Geometry.slots size schema.width)
  let used := Bytes.kept header ++ slotsMask schema bits (data.drop header)
  used ++ Bytes.blanked (size - used.length)

/-- A slot that was read is written as it stood, but for the bytes of the mask. -/
theorem slotBytes_eq_overwrite {row : Row}
    (h : readRow p.schema (body.take p.schema.width) = some row) :
    (Record.mask p.schema.types (body.take p.schema.width)).length = p.schema.width ∧
      p.slotBytes (some row) =
        Bytes.overwrite (Record.mask p.schema.types (body.take p.schema.width)) body := by
  have hlen := Record.length_mask h
  rw [← Schema.width_eq] at hlen
  refine ⟨hlen, ?_⟩
  rw [slotBytes_some (Record.rowFits_of_decodeFields h), Record.fieldBytes_eq_overwrite h,
    Bytes.overwrite_take hlen.le]

/-- The slots that were read are used where their bits are set, and are written as they stood,
but for the bytes of the mask. -/
theorem readSlots_go_inv (hlen : bits.length * p.schema.width ≤ body.length)
    (h : readSlots.go p.schema bits body read = .ok slots) :
    ∃ new : List (Option Row), slots = read ++ new.toArray ∧ new.map Option.isSome = bits ∧
      new.flatMap p.slotBytes = Bytes.overwrite (slotsMask p.schema bits body) body ∧
      (slotsMask p.schema bits body).length = bits.length * p.schema.width := by
  induction bits generalizing body read with
  | nil =>
    cases h
    exact ⟨[], by simp, rfl, rfl, by simp [slotsMask]⟩
  | cons used bits ih =>
    rw [List.length_cons, Nat.succ_mul] at hlen
    have hrest : bits.length * p.schema.width ≤ (body.drop p.schema.width).length := by
      rw [List.length_drop]
      omega
    cases used with
    | false =>
      obtain ⟨new, hslots, hbits, hbytes, hmask⟩ := ih hrest h
      refine ⟨none :: new, by simpa using hslots, by simp [hbits], ?_, ?_⟩
      · rw [slotsMask, if_neg Bool.false_ne_true, Bytes.overwrite_append, Bytes.length_blanked,
          Bytes.overwrite_blanked (by omega), List.flatMap_cons, hbytes]
        rfl
      · rw [slotsMask, if_neg Bool.false_ne_true, List.length_append, Bytes.length_blanked, hmask,
          List.length_cons, Nat.succ_mul, Nat.add_comm]
    | true =>
      unfold readSlots.go at h
      split at h
      · rename_i row hrow
        obtain ⟨new, hslots, hbits, hbytes, hmask⟩ := ih hrest h
        obtain ⟨hfirst, hwritten⟩ := slotBytes_eq_overwrite hrow
        refine ⟨some row :: new, by simpa using hslots, by simp [hbits], ?_, ?_⟩
        · rw [slotsMask, if_pos rfl, Bytes.overwrite_append, hfirst, List.flatMap_cons, hbytes,
            hwritten]
        · rw [slotsMask, if_pos rfl, List.length_append, hfirst, hmask, List.length_cons,
            Nat.succ_mul, Nat.add_comm]
      · cases h

/-- The header of a page gives the bits of its slots, and the bytes behind it the slots. -/
theorem ofImage_parts (h : ofImage id schema size data = .ok p) :
    data.length = size ∧
      p.spare = (Bytes.unpackBits (data.take (Geometry.header size schema.width))).drop
        (Geometry.slots size schema.width) ∧
      readSlots.go schema ((Bytes.unpackBits (data.take (Geometry.header size schema.width))).take
        (Geometry.slots size schema.width)) (data.drop (Geometry.header size schema.width)) #[] =
          .ok p.slots := by
  unfold ofImage at h
  split at h
  · cases h
  · rename_i hlen
    dsimp only at h
    split at h
    · cases h
    · rename_i slots hread
      cases h
      exact ⟨Decidable.not_not.1 hlen, rfl, hread⟩

/-- A page that was read is written as it stood, but for the bytes of the mask. -/
theorem image_eq_overwrite (h : ofImage id schema size data = .ok p) :
    p.image = Bytes.overwrite (mask schema size data) data := by
  obtain ⟨-, -, rfl, rfl⟩ := properAt_ofImage h
  obtain ⟨hlen, hspare, hread⟩ := ofImage_parts h
  have hfit := @Geometry.header_add_slots_le p.size p.schema.width
  have hheader := @length_header p.schema p.size data hlen
  have hcount := @length_slotBits p.schema p.size data hlen
  unfold mask image headerBits
  dsimp only
  generalize Geometry.header p.size p.schema.width = header at *
  generalize Geometry.slots p.size p.schema.width = count at *
  have hroom : count * p.schema.width ≤ (data.drop header).length := by
    rw [List.length_drop, hlen]
    omega
  obtain ⟨new, hslots, hbits, hbytes, hmask⟩ := readSlots_go_inv (by rwa [hcount]) hread
  rw [hcount] at hmask
  rw [Array.empty_append] at hslots
  have hpacked : Bytes.packBits (p.slots.toList.map Option.isSome ++ p.spare) =
      data.take header := by
    rw [hslots, hbits, hspare, List.take_append_drop, Bytes.packBits_unpackBits]
  rw [hpacked, hslots, hbytes]
  simp only [Bytes.overwrite_append, Bytes.overwrite_kept, Bytes.length_kept, List.length_append,
    hmask, hheader]
  rw [Bytes.length_overwrite (hmask.trans_le hroom), hmask, Bytes.overwrite_blanked]
  rw [List.length_drop, hlen]

/-! ## The law -/

/-- A page is what its bytes say: they have its size, they are read back as the page with the same
records in the same slots, and this page has the same bytes. Of the bytes that a page was read
from, writing it back changes those of the mask. -/
theorem page_round_trip (h : ofImage id schema size data = .ok p) (edits : List PageEdit) :
    (p.edited edits).image.length = size ∧
      (∃ q, ofImage id schema size (p.edited edits).image = .ok q ∧
        q.slotCount = (p.edited edits).slotCount ∧
        (∀ slot, q.isUsed slot = (p.edited edits).isUsed slot) ∧
        (∀ slot, q.recordAt slot = (p.edited edits).recordAt slot) ∧
        q.spare = (p.edited edits).spare ∧ q.image = (p.edited edits).image) ∧
      p.image = Bytes.overwrite (mask schema size data) data := by
  have hedited := (properAt_ofImage h).edited edits
  have hback := ofImage_image hedited.proper
  rw [hedited.id_eq, hedited.schema_eq, hedited.size_eq] at hback
  refine ⟨(length_image hedited.proper).trans hedited.size_eq,
    ⟨_, hback, rfl, fun _ => rfl, fun _ => rfl, rfl, ?_⟩, image_eq_overwrite h⟩
  exact image_congr rfl rfl rfl rfl

/-- A page of three truth values: one slot is used, the other two and the spare bits have
something in them. -/
def threeFlags : HeapPage :=
  ⟨⟨⟨1⟩, 0⟩, ⟨[⟨"flag", .boolean⟩]⟩, 4, #[some [.boolean true], none, none],
    [false, true, true, true, true], none, [0xf1, 7, 9, 9]⟩

/-- A second record is stored, and the first one is taken out. -/
def flagEdits : List PageEdit :=
  [.insert ⟨threeFlags.schema, [.boolean true], none⟩ rfl, .snapshot,
    .delete (some ⟨threeFlags.id, 0⟩)]

theorem page_round_trip_of_threeFlags :
    ofImage threeFlags.id threeFlags.schema 4 [0xf1, 7, 9, 9] = .ok threeFlags ∧
      (threeFlags.edited flagEdits).image = [0xf2, 0, 1, 0] ∧
      (∃ q, ofImage threeFlags.id threeFlags.schema 4 [0xf2, 0, 1, 0] = .ok q ∧
        q.isUsed 0 = false ∧ q.isUsed 1 = true) ∧
      threeFlags.image = [0xf1, 1, 0, 0] ∧
      mask threeFlags.schema 4 [0xf1, 7, 9, 9] = [none, some 1, some 0, some 0] := by
  have hread : ofImage threeFlags.id threeFlags.schema 4 [0xf1, 7, 9, 9] = .ok threeFlags := by
    decide +kernel
  have hwritten : (threeFlags.edited flagEdits).image = [0xf2, 0, 1, 0] := by decide +kernel
  have hmask : mask threeFlags.schema 4 [0xf1, 7, 9, 9] = [none, some 1, some 0, some 0] := by
    decide +kernel
  obtain ⟨-, ⟨q, hq, -, hused, -⟩, himage⟩ := page_round_trip hread flagEdits
  rw [hwritten] at hq
  rw [hmask] at himage
  exact ⟨hread, hwritten,
    ⟨q, hq, (hused 0).trans (by decide +kernel), (hused 1).trans (by decide +kernel)⟩,
    himage, hmask⟩

end HeapPage

end PageCache
