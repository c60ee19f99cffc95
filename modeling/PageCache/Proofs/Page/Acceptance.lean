-- Which bytes are the image of a page: those of the right number in which the texts of the used
-- slots are within their limits and well-formed. Nothing else counts, and where bytes are refused
-- the first slot that is wrong is named.
import PageCache.Proofs.Page.Bounds
import PageCache.Proofs.Row.Reading

namespace PageCache

namespace HeapPage

variable {id : PageId} {schema : Schema} {size i : Nat} {data other body : Bytes}
  {bits : List Bool}

/-! ## Images -/

/-- Where the bytes of a slot begin. -/
def slotStart (schema : Schema) (size i : Nat) : Nat :=
  Geometry.header size schema.width + i * schema.width

/-- The bytes of a slot. -/
def slotField (schema : Schema) (size : Nat) (data : Bytes) (i : Nat) : Bytes :=
  (data.drop (slotStart schema size i)).take schema.width

/-- If a slot is used, its texts are within their limits and well-formed. -/
def SlotLegible (schema : Schema) (size : Nat) (data : Bytes) (i : Nat) : Prop :=
  data.bit i = true → ∀ c t, schema.types[c]? = some t →
    Value.IsLegible t ((slotField schema size data i).drop (Record.offset schema.types c))

/-- Some bytes are the image of a page. -/
structure IsImage (schema : Schema) (size : Nat) (data : Bytes) : Prop where
  length_eq : data.length = size
  legible : ∀ i < Geometry.slots size schema.width, SlotLegible schema size data i

/-- The byte at `k` is one of the length or of the text in a text field of a used slot. -/
def Matters (schema : Schema) (size : Nat) (data : Bytes) (k : Nat) : Prop :=
  ∃ i < Geometry.slots size schema.width, data.bit i = true ∧
    ∃ c limit, schema.types[c]? = some (.varChar limit) ∧
      let start := slotStart schema size i + Record.offset schema.types c
      let length := Value.number 2
        ((slotField schema size data i).drop (Record.offset schema.types c))
      start ≤ k ∧ k < start + (2 + length)

/-- The slots lie within the page. -/
theorem slotStart_add_width_le (hi : i < Geometry.slots size schema.width) :
    slotStart schema size i + schema.width ≤ size :=
  Geometry.slot_fits hi

/-! ## Reading the slots -/

/-- The slot `i` is used and cannot be read. -/
def SlotFails (schema : Schema) (bits : List Bool) (body : Bytes) (i : Nat) : Prop :=
  bits[i]? = some true ∧
    readRow schema ((body.drop (i * schema.width)).take schema.width) = none

theorem slotFails_succ {used : Bool} : SlotFails schema (used :: bits) body (i + 1) ↔
    SlotFails schema bits (body.drop schema.width) i := by
  have hskip : (i + 1) * schema.width = schema.width + i * schema.width := by
    rw [Nat.succ_mul, Nat.add_comm]
  rw [SlotFails, SlotFails, List.getElem?_cons_succ, List.drop_drop, hskip]

/-- What comes of reading slots that are counted from `start`: all of them can be read, or the
first one that cannot is named. -/
def SlotsEnd (schema : Schema) (bits : List Bool) (body : Bytes) (start : Nat) :
    Except Nat (Array (Option Row)) → Prop
  | .ok _ => ∀ i, ¬ SlotFails schema bits body i
  | .error slot => ∃ i, slot = start + i ∧ SlotFails schema bits body i ∧
    ∀ j < i, ¬ SlotFails schema bits body j

/-- Behind a slot that does not fail it is the others that decide. -/
theorem SlotsEnd.skip {used : Bool} {start : Nat} {outcome : Except Nat (Array (Option Row))}
    (hfirst : ¬ SlotFails schema (used :: bits) body 0)
    (h : SlotsEnd schema bits (body.drop schema.width) (start + 1) outcome) :
    SlotsEnd schema (used :: bits) body start outcome := by
  cases outcome with
  | ok slots =>
    intro i
    cases i with
    | zero => exact hfirst
    | succ i =>
      rw [slotFails_succ]
      exact h i
  | error slot =>
    obtain ⟨i, hslot, hi, hbefore⟩ := h
    refine ⟨i + 1, by omega, slotFails_succ.2 hi, ?_⟩
    intro j hj
    cases j with
    | zero => exact hfirst
    | succ j =>
      rw [slotFails_succ]
      exact hbefore j (by omega)

/-- Slots are read to the last one, or up to the first that cannot be read. -/
theorem slotsEnd_go (schema : Schema) (bits : List Bool) (body : Bytes)
    (read : Array (Option Row)) :
    SlotsEnd schema bits body read.size (readSlots.go schema bits body read) := by
  induction bits generalizing body read with
  | nil =>
    intro i h
    simpa using h.1
  | cons used bits ih =>
    have hothers slot := ih (body.drop schema.width) (read.push slot)
    simp only [Array.size_push] at hothers
    cases used with
    | false =>
      apply (hothers none).skip
      simp [SlotFails]
    | true =>
      unfold readSlots.go
      split
      · rename_i row hrow
        apply (hothers (some row)).skip
        simp [SlotFails, hrow]
      · rename_i hrow
        refine ⟨0, rfl, ?_, nofun⟩
        simpa [SlotFails] using hrow

/-- On bytes of the right number, the slots that cannot be read are those that are not legible. -/
theorem slotFails_iff (hlen : data.length = size) :
    SlotFails schema
        ((Bytes.unpackBits (data.take (Geometry.header size schema.width))).take
          (Geometry.slots size schema.width))
        (data.drop (Geometry.header size schema.width)) i ↔
      i < Geometry.slots size schema.width ∧ ¬ SlotLegible schema size data i := by
  by_cases hi : i < Geometry.slots size schema.width
  · have hfit := slotStart_add_width_le hi
    have hbit := unpackBits_header_getElem? hlen (lt_of_lt_of_le hi Geometry.slots_le_header)
    have hroom : (schema.types.map ColumnType.size).sum ≤
        (slotField schema size data i).length := by
      rw [← Schema.width_eq, slotField, List.length_take, List.length_drop]
      omega
    have hrow := Record.exists_row_iff_legible hroom
    rw [SlotFails, List.getElem?_take_of_lt hi, hbit, List.drop_drop, ← slotStart, ← slotField,
      readRow, Option.eq_none_iff_forall_ne_some, ← not_exists, hrow, SlotLegible,
      Classical.not_imp, Option.some.injEq]
    simp [hi]
  · rw [SlotFails, List.getElem?_take_eq_none (by omega)]
    simp [hi]

/-! ## What is accepted -/

/-- Bytes are read as a page, or they are of the wrong number, or a first slot is not legible. -/
theorem ofImage_cases (id : PageId) (schema : Schema) (size : Nat) (data : Bytes) :
    (IsImage schema size data ∧ ∃ p, ofImage id schema size data = .ok p) ∨
    (data.length ≠ size ∧ ofImage id schema size data =
      .error (.corruptPage id (.wrongLength size data.length))) ∨
    (data.length = size ∧ ∃ i < Geometry.slots size schema.width,
      ¬ SlotLegible schema size data i ∧ (∀ j < i, SlotLegible schema size data j) ∧
        ofImage id schema size data = .error (.corruptPage id (.unreadableSlot i))) := by
  unfold ofImage
  by_cases hlen : data.length = size
  · rw [if_neg (not_not.2 hlen)]
    dsimp only
    rw [readSlots]
    have hend := slotsEnd_go schema
      ((Bytes.unpackBits (data.take (Geometry.header size schema.width))).take
        (Geometry.slots size schema.width))
      (data.drop (Geometry.header size schema.width)) #[]
    split
    · rename_i slot he
      rw [he] at hend
      obtain ⟨i, rfl, hi, hbefore⟩ := hend
      obtain ⟨hlt, hbad⟩ := (slotFails_iff hlen).1 hi
      refine .inr (.inr ⟨hlen, i, hlt, hbad, ?_, ?_⟩)
      · intro j hj
        by_contra hworse
        exact hbefore j hj ((slotFails_iff hlen).2 ⟨by omega, hworse⟩)
      · simp
    · rename_i slots hslots
      rw [hslots] at hend
      refine .inl ⟨⟨hlen, ?_⟩, _, rfl⟩
      intro i hi
      by_contra hbad
      exact hend i ((slotFails_iff hlen).2 ⟨hi, hbad⟩)
  · rw [if_pos hlen]
    exact .inr (.inl ⟨hlen, rfl⟩)

/-- An image stays one when bytes change that do not matter. -/
theorem IsImage.of_agree (h : IsImage schema size data) (hlen : other.length = data.length)
    (hbits : ∀ i < Geometry.slots size schema.width, other.bit i = data.bit i)
    (hbytes : ∀ k, Matters schema size data k → other[k]? = data[k]?) :
    IsImage schema size other := by
  refine ⟨hlen.trans h.length_eq, ?_⟩
  intro i hi hused c t ht
  rw [hbits i hi] at hused
  have hlegible := h.legible i hi hused c t ht
  cases t with
  | varChar limit =>
    refine hlegible.of_take ?_
    apply List.ext_getElem?
    intro k
    rw [List.getElem?_take, List.getElem?_take]
    split
    · rename_i hk
      have hmatter := hbytes (slotStart schema size i + (Record.offset schema.types c + k))
        ⟨i, hi, hused, c, limit, ht, by omega, by omega⟩
      simp only [slotField, List.getElem?_drop, List.getElem?_take, hmatter]
    · rfl
  | _ => exact nofun

/-! ## The law -/

/-- Bytes are read as a page if and only if they are an image of one. Else it is said that their
number is wrong, or which slot is the first one that is not legible. Bytes that do not matter are
never the reason: they may change, and what was an image is read all the same. No byte is looked
up outside of those that are there. -/
theorem read_iff_image (id : PageId) (schema : Schema) (size : Nat) (data : Bytes) :
    ((∃ p, ofImage id schema size data = .ok p) ↔ IsImage schema size data) ∧
    (∀ e, ofImage id schema size data = .error e ↔
      (data.length ≠ size ∧ e = .corruptPage id (.wrongLength size data.length)) ∨
      (data.length = size ∧ ∃ i < Geometry.slots size schema.width,
        ¬ SlotLegible schema size data i ∧ (∀ j < i, SlotLegible schema size data j) ∧
          e = .corruptPage id (.unreadableSlot i))) ∧
    (∀ other : Bytes, IsImage schema size data → other.length = data.length →
      (∀ i < Geometry.slots size schema.width, other.bit i = data.bit i) →
      (∀ k, Matters schema size data k → other[k]? = data[k]?) →
      ∃ p, ofImage id schema size other = .ok p) ∧
    ofImageChecked id schema size data = some (ofImage id schema size data) := by
  have haccepts : ∀ bytes, (∃ p, ofImage id schema size bytes = .ok p) ↔
      IsImage schema size bytes := by
    intro bytes
    rcases ofImage_cases id schema size bytes with
      ⟨himage, hp⟩ | ⟨hlen, he⟩ | ⟨-, i, hi, hbad, -, he⟩
    · exact iff_of_true hp himage
    · rw [he]
      exact iff_of_false (by simp) (fun h => hlen h.length_eq)
    · rw [he]
      exact iff_of_false (by simp) (fun h => hbad (h.legible i hi))
  refine ⟨haccepts data, ?_, ?_, ofImageChecked_eq id schema size data⟩
  · intro e
    rcases ofImage_cases id schema size data with
      ⟨himage, p, hp⟩ | ⟨hlen, he⟩ | ⟨hlen, i, hi, hbad, hbefore, he⟩
    · rw [hp]
      refine iff_of_false (by simp) ?_
      rintro (⟨hlen, -⟩ | ⟨-, i, hi, hbad, -⟩)
      · exact hlen himage.length_eq
      · exact hbad (himage.legible i hi)
    · rw [he]
      simp [hlen, eq_comm]
    · rw [he, Except.error.injEq]
      constructor
      · rintro rfl
        exact .inr ⟨hlen, i, hi, hbad, hbefore, rfl⟩
      · rintro (⟨hne, -⟩ | ⟨-, j, -, hworse, hgood, rfl⟩)
        · exact absurd hlen hne
        · -- There is only one first slot.
          obtain hlt | rfl | hlt := Nat.lt_trichotomy i j
          · exact absurd (hgood i hlt) hbad
          · rfl
          · exact absurd (hbefore j hlt) hworse
  · intro other himage hlen hbits hbytes
    exact (haccepts other).2 (himage.of_agree hlen hbits hbytes)

/-- Short texts, each with a truth value. -/
def labelSchema : Schema := ⟨[⟨"text", .varChar 2⟩, ⟨"done", .boolean⟩]⟩

/-- A page with a text of one byte in the first of its two slots. There is something behind the
text, in the other slot, in the spare bits and at the end. -/
def labels : Bytes := [0xfd, 0, 1, 65, 0xff, 7, 9, 9, 9, 9, 9, 5]

/-- The page is read, also with anything else in the places that do not count. With the other slot
used it is refused, for that slot and not for the first one. -/
theorem labels_read_iff_image :
    IsImage labelSchema 12 labels ∧
      (∃ p, ofImage ⟨⟨3⟩, 0⟩ labelSchema 12 [0x01, 0, 1, 65, 0, 0, 1, 2, 3, 4, 5, 0] = .ok p) ∧
      ¬ SlotLegible labelSchema 12 (0xff :: labels.tail) 1 ∧
      SlotLegible labelSchema 12 (0xff :: labels.tail) 0 := by
  obtain ⟨haccepts, -, hchange, -⟩ := read_iff_image ⟨⟨3⟩, 0⟩ labelSchema 12 labels
  have himage := haccepts.1 ⟨⟨⟨⟨3⟩, 0⟩, labelSchema, 12, #[some [.text "A", .boolean true], none],
    [true, true, true, true, true, true], none, labels⟩, by decide +kernel⟩
  refine ⟨himage, hchange _ himage rfl (by decide +kernel) ?_, ?_⟩
  · rintro k ⟨i, hi, hused, c, limit, hc, hle, hlt⟩
    have hslots : Geometry.slots 12 labelSchema.width = 2 := by decide +kernel
    obtain rfl : i = 0 := by
      obtain rfl | rfl : i = 0 ∨ i = 1 := by omega
      · rfl
      · exact absurd hused (by decide +kernel)
    obtain rfl : c = 0 := by
      rcases c with _ | _ | c
      · rfl
      all_goals simp [labelSchema, Schema.types] at hc
    have hstart : slotStart labelSchema 12 0 + Record.offset labelSchema.types 0 = 1 := by
      decide +kernel
    have hlength : Value.number 2 ((slotField labelSchema 12 labels 0).drop
        (Record.offset labelSchema.types 0)) = 1 := by decide +kernel
    rw [hstart] at hle hlt
    rw [hlength] at hlt
    obtain rfl | rfl | rfl : k = 1 ∨ k = 2 ∨ k = 3 := by omega
    all_goals rfl
  · have hrefusal : ofImage ⟨⟨3⟩, 0⟩ labelSchema 12 (0xff :: labels.tail) =
        .error (.corruptPage ⟨⟨3⟩, 0⟩ (.unreadableSlot 1)) := by decide +kernel
    rcases ((read_iff_image _ _ _ _).2.1 _).1 hrefusal with ⟨hlen, -⟩ | ⟨-, i, -, hbad, hbefore, he⟩
    · exact absurd rfl hlen
    · obtain rfl : i = 1 := by simpa using he.symm
      exact ⟨hbad, hbefore 0 (by omega)⟩

end HeapPage

end PageCache
