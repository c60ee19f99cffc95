-- What reading does with bytes of any kind. A record is read from exactly its width, or reading
-- stops at the first field that is not there, or is a text above its limit or not well-formed.
-- Where it stops tells what is wrong.
import PageCache.Proofs.Row.Normal
import PageCache.Proofs.Row.Writing

namespace PageCache

/-! ## Fields -/

namespace Value

variable {type : ColumnType} {input bs : Bytes}

/-- The bytes are those of a text. -/
def IsUtf8 (bs : Bytes) : Prop := ∃ s, utf8 s = bs

theorem isUtf8_iff : IsUtf8 bs ↔ ∃ s, ofUtf8? bs = some s := by
  constructor
  · rintro ⟨s, rfl⟩
    exact ⟨s, ofUtf8?_utf8 s⟩
  · rintro ⟨s, h⟩
    exact ⟨s, utf8_of_ofUtf8? h⟩

/-- The text in a text field: as many bytes behind the length as the length says. -/
def content (field : Bytes) : Bytes := (field.drop 2).take (number 2 field)

/-- A field can be read if it is there: a text has to be within its limit and well-formed, any
other field is fine. -/
def IsLegible (type : ColumnType) (field : Bytes) : Prop :=
  ∀ limit, type = .varChar limit → number 2 field ≤ limit.toNat ∧ IsUtf8 (content field)

/-- Only the length and the text count. -/
theorem IsLegible.of_take {field field' : Bytes} (h : IsLegible type field)
    (heq : field'.take (2 + number 2 field) = field.take (2 + number 2 field)) :
    IsLegible type field' := by
  have hnumber : number 2 field' = number 2 field := by
    have hpart : ∀ bs : Bytes, bs.take 2 = (bs.take (2 + number 2 field)).take 2 := by
      intro bs
      rw [List.take_take, Nat.min_eq_left (Nat.le_add_right 2 _)]
    rw [number, number, hpart field', heq, ← hpart field]
  have hcontent : content field' = content field := by
    have hpart : ∀ bs : Bytes, (bs.drop 2).take (number 2 field) =
        (bs.take (2 + number 2 field)).drop 2 := by
      intro bs
      rw [List.drop_take, Nat.add_sub_cancel_left]
    rw [content, content, hnumber, hpart field', heq, ← hpart field]
  intro limit htype
  rw [hnumber, hcontent]
  exact h limit htype

/-- What can be wrong with a field. -/
inductive Fault where
  | tooShort
  | overLimit
  | illFormed
deriving DecidableEq

namespace Fault

/-- The field in front of an input has a fault. Only a field that is there can be wrong in
another way than by being too short. -/
def Occurs (type : ColumnType) (input : Bytes) : Fault → Prop
  | .tooShort => input.length < type.size
  | .overLimit => type.size ≤ input.length ∧
    ∃ limit, type = .varChar limit ∧ limit.toNat < number 2 input
  | .illFormed => type.size ≤ input.length ∧
    ∃ limit, type = .varChar limit ∧ number 2 input ≤ limit.toNat ∧ ¬ IsUtf8 (content input)

/-- The bytes that are used up before a fault is seen. -/
def cost (type : ColumnType) : Fault → Nat
  | .tooShort => 0
  | .overLimit => 2
  | .illFormed => type.size

theorem cost_le {f : Fault} (h : f.Occurs type input) : f.cost type ≤ input.length := by
  cases f with
  | tooShort => exact Nat.zero_le _
  | overLimit =>
    obtain ⟨hlen, limit, rfl, -⟩ := h
    simp only [ColumnType.size] at hlen
    simp only [cost]
    omega
  | illFormed => exact h.1

theorem Occurs.not_reads {f : Fault} (h : f.Occurs type input) :
    ¬ (type.size ≤ input.length ∧ IsLegible type input) := by
  rintro ⟨hlen, hlegible⟩
  cases f with
  | tooShort => exact absurd hlen (Nat.not_le.2 h)
  | overLimit =>
    obtain ⟨-, limit, rfl, hlimit⟩ := h
    exact absurd (hlegible limit rfl).1 (Nat.not_le.2 hlimit)
  | illFormed =>
    obtain ⟨-, limit, rfl, -, htext⟩ := h
    exact htext (hlegible limit rfl).2

end Fault

theorem legible_or_fault (type : ColumnType) (input : Bytes) :
    (type.size ≤ input.length ∧ IsLegible type input) ∨ ∃ f : Fault, f.Occurs type input := by
  by_cases hlen : type.size ≤ input.length
  · cases type with
    | varChar limit =>
      by_cases hlimit : number 2 input ≤ limit.toNat
      · by_cases htext : IsUtf8 (content input)
        · refine .inl ⟨hlen, ?_⟩
          rintro _ ⟨⟩
          exact ⟨hlimit, htext⟩
        · exact .inr ⟨.illFormed, hlen, limit, rfl, hlimit, htext⟩
      · exact .inr ⟨.overLimit, hlen, limit, rfl, Nat.not_le.1 hlimit⟩
    | _ => exact .inl ⟨hlen, nofun⟩
  · exact .inr ⟨.tooShort, Nat.not_le.1 hlen⟩

/-- A field that is there and legible is read in its width. -/
theorem decode_of_legible (hlen : type.size ≤ input.length) (h : IsLegible type input) :
    ∃ v, decode type input = (some v, input.drop type.size) := by
  unfold decode
  rw [if_neg (Nat.not_lt.2 hlen)]
  cases type with
  | varChar limit =>
    obtain ⟨hlimit, htext⟩ := h limit rfl
    obtain ⟨s, hs⟩ := isUtf8_iff.1 htext
    refine ⟨.text s, ?_⟩
    simp only [decodeText]
    rw [if_neg (Nat.not_lt.2 hlimit), ← content, hs, List.drop_drop]
    rfl
  | _ => exact ⟨_, rfl⟩

/-- A fault costs what was used up before it was seen. -/
theorem decode_of_fault {f : Fault} (h : f.Occurs type input) :
    decode type input = (none, input.drop (f.cost type)) := by
  unfold decode
  cases f with
  | tooShort =>
    have hlen : input.length < type.size := h
    rw [if_pos hlen]
    rfl
  | overLimit =>
    obtain ⟨hlen, limit, rfl, hlimit⟩ := h
    rw [if_neg (Nat.not_lt.2 hlen)]
    simp only [decodeText]
    rw [if_pos hlimit]
    rfl
  | illFormed =>
    obtain ⟨hlen, limit, rfl, hlimit, htext⟩ := h
    have hnone : ofUtf8? (content input) = none := by
      rw [Option.eq_none_iff_forall_ne_some]
      intro s hs
      exact htext (isUtf8_iff.2 ⟨s, hs⟩)
    rw [if_neg (Nat.not_lt.2 hlen)]
    simp only [decodeText]
    rw [if_neg (Nat.not_lt.2 hlimit), ← content, hnone, List.drop_drop]
    rfl

end Value

/-! ## Records -/

namespace Record

variable {types : List ColumnType} {row : List Value} {input : Bytes} {t u : ColumnType}
  {i : Nat} {f : Value.Fault}

/-- Where the field of a column begins. -/
def offset (types : List ColumnType) (i : Nat) : Nat := ((types.take i).map ColumnType.size).sum

@[simp] theorem offset_zero (types : List ColumnType) : offset types 0 = 0 := by simp [offset]

@[simp] theorem offset_cons (t : ColumnType) (types : List ColumnType) (i : Nat) :
    offset (t :: types) (i + 1) = t.size + offset types i := by simp [offset]

theorem offset_length (types : List ColumnType) :
    offset types types.length = (types.map ColumnType.size).sum := by simp [offset]

/-- A field ends before the record does. -/
theorem offset_add_size_le (h : types[i]? = some t) :
    offset types i + t.size ≤ (types.map ColumnType.size).sum := by
  induction types generalizing i with
  | nil => simp at h
  | cons u types ih =>
    cases i with
    | zero =>
      obtain rfl : u = t := by simpa using h
      simp
    | succ i =>
      have hrest := ih (by simpa using h)
      simp only [offset_cons, List.map_cons, List.sum_cons]
      omega

/-- The fields of all columns before `i` can be read. -/
def ReadsBefore (types : List ColumnType) (input : Bytes) (i : Nat) : Prop :=
  ∀ j < i, ∀ t, types[j]? = some t →
    t.size ≤ (input.drop (offset types j)).length ∧
      Value.IsLegible t (input.drop (offset types j))

/-- The column `i` is the first one whose field cannot be read, for a fault. -/
structure StopsAt (types : List ColumnType) (input : Bytes) (i : Nat) (t : ColumnType)
    (f : Value.Fault) : Prop where
  column : types[i]? = some t
  fault : f.Occurs t (input.drop (offset types i))
  before : ReadsBefore types input i

theorem readsBefore_succ : ReadsBefore (t :: types) input (i + 1) ↔
    (t.size ≤ input.length ∧ Value.IsLegible t input) ∧
      ReadsBefore types (input.drop t.size) i := by
  constructor
  · intro h
    refine ⟨by simpa using h 0 (by omega) t rfl, ?_⟩
    intro j hj u hu
    simpa [List.drop_drop] using h (j + 1) (by omega) u (by simpa using hu)
  · rintro ⟨hfirst, hothers⟩ j hj u hu
    cases j with
    | zero =>
      obtain rfl : t = u := by simpa using hu
      simpa using hfirst
    | succ j => simpa [List.drop_drop] using hothers j (by omega) u (by simpa using hu)

theorem stopsAt_succ : StopsAt (t :: types) input (i + 1) u f ↔
    (t.size ≤ input.length ∧ Value.IsLegible t input) ∧
      StopsAt types (input.drop t.size) i u f := by
  constructor
  · rintro ⟨hcolumn, hfault, hbefore⟩
    obtain ⟨hfirst, hothers⟩ := readsBefore_succ.1 hbefore
    exact ⟨hfirst, by simpa using hcolumn, by simpa [List.drop_drop] using hfault, hothers⟩
  · rintro ⟨hfirst, hcolumn, hfault, hbefore⟩
    exact ⟨by simpa using hcolumn, by simpa [List.drop_drop] using hfault,
      readsBefore_succ.2 ⟨hfirst, hbefore⟩⟩

theorem reads_or_stops (types : List ColumnType) (input : Bytes) :
    ReadsBefore types input types.length ∨ ∃ i t f, StopsAt types input i t f := by
  induction types generalizing input with
  | nil => exact .inl nofun
  | cons t types ih =>
    rcases Value.legible_or_fault t input with hfirst | ⟨f, hf⟩
    · rcases ih (input.drop t.size) with hothers | ⟨i, u, f, hstop⟩
      · exact .inl (readsBefore_succ.2 ⟨hfirst, hothers⟩)
      · exact .inr ⟨i + 1, u, f, stopsAt_succ.2 ⟨hfirst, hstop⟩⟩
    · exact .inr ⟨0, t, f, rfl, by simpa using hf, nofun⟩

/-- The fields that can be read are there. -/
theorem ReadsBefore.offset_le (h : ReadsBefore types input i) (hi : i ≤ types.length) :
    offset types i ≤ input.length := by
  induction types generalizing input i with
  | nil =>
    obtain rfl : i = 0 := by simpa using hi
    simp
  | cons t types ih =>
    cases i with
    | zero => simp
    | succ i =>
      obtain ⟨⟨hlen, -⟩, hothers⟩ := readsBefore_succ.1 h
      have hrest := ih hothers (by simpa using hi)
      rw [List.length_drop] at hrest
      rw [offset_cons]
      omega

/-- Where all fields can be read, they are. -/
theorem decodeFields_of_reads (h : ReadsBefore types input types.length) :
    ∃ row, decodeFields types input = (some row, input.drop (offset types types.length)) := by
  induction types generalizing input with
  | nil => exact ⟨[], rfl⟩
  | cons t types ih =>
    obtain ⟨⟨hlen, hlegible⟩, hothers⟩ := readsBefore_succ.1 h
    obtain ⟨v, hv⟩ := Value.decode_of_legible hlen hlegible
    obtain ⟨vs, hvs⟩ := ih hothers
    exact ⟨v :: vs, by simp [decodeFields, hv, hvs]⟩

/-- Reading stops at the first field that cannot be read, and after what its fault costs. -/
theorem decodeFields_of_stopsAt (h : StopsAt types input i t f) :
    decodeFields types input = (none, input.drop (offset types i + f.cost t)) := by
  induction types generalizing input i with
  | nil => simpa using h.column
  | cons u types ih =>
    cases i with
    | zero =>
      obtain ⟨hcolumn, hfault, -⟩ := h
      obtain rfl : u = t := by simpa using hcolumn
      simp [decodeFields, Value.decode_of_fault (by simpa using hfault)]
    | succ i =>
      obtain ⟨⟨hlen, hlegible⟩, hstop⟩ := stopsAt_succ.1 h
      obtain ⟨v, hv⟩ := Value.decode_of_legible hlen hlegible
      simp [decodeFields, hv, ih hstop, Nat.add_assoc]

/-- Whatever was used up was there. -/
theorem StopsAt.cost_le (h : StopsAt types input i t f) :
    offset types i + f.cost t ≤ input.length := by
  have hi := (List.getElem?_eq_some_iff.1 h.column).1
  have hbefore := h.before.offset_le (Nat.le_of_lt hi)
  have hcost := Value.Fault.cost_le h.fault
  rw [List.length_drop] at hcost
  omega

theorem decodeFields_eq_none_iff {rest : Bytes} : decodeFields types input = (none, rest) ↔
    ∃ i t f, StopsAt types input i t f ∧ rest = input.drop (offset types i + f.cost t) := by
  constructor
  · intro h
    rcases reads_or_stops types input with hreads | ⟨i, t, f, hstop⟩
    · obtain ⟨row, hrow⟩ := decodeFields_of_reads hreads
      simp [hrow] at h
    · rw [decodeFields_of_stopsAt hstop] at h
      exact ⟨i, t, f, hstop, by simpa using h.symm⟩
  · rintro ⟨i, t, f, hstop, rfl⟩
    exact decodeFields_of_stopsAt hstop

theorem exists_row_iff : (∃ row, (decodeFields types input).1 = some row) ↔
    ReadsBefore types input types.length := by
  rcases reads_or_stops types input with hreads | ⟨i, t, f, hstop⟩
  · obtain ⟨row, hrow⟩ := decodeFields_of_reads hreads
    simp [hrow, hreads]
  · rw [decodeFields_of_stopsAt hstop]
    simp only [reduceCtorEq, exists_false, false_iff]
    intro hreads
    have hi := (List.getElem?_eq_some_iff.1 hstop.column).1
    exact hstop.fault.not_reads (hreads i hi t hstop.column)

/-- In an input that is long enough, only texts can keep a record from being read. -/
theorem exists_row_iff_legible (hlen : (types.map ColumnType.size).sum ≤ input.length) :
    (∃ row, (decodeFields types input).1 = some row) ↔
      ∀ c t, types[c]? = some t → Value.IsLegible t (input.drop (offset types c)) := by
  rw [exists_row_iff]
  constructor
  · intro h c t ht
    exact (h c (List.getElem?_eq_some_iff.1 ht).1 t ht).2
  · intro h c _ t ht
    have hfit := offset_add_size_le ht
    refine ⟨?_, h c t ht⟩
    rw [List.length_drop]
    omega

/-- Fields that were read have used up their widths. -/
theorem rest_of_decodeFields {rest : Bytes} (h : decodeFields types input = (some row, rest)) :
    (types.map ColumnType.size).sum ≤ input.length ∧
      rest = input.drop (types.map ColumnType.size).sum := by
  rw [← offset_length]
  rcases reads_or_stops types input with hreads | ⟨i, t, f, hstop⟩
  · obtain ⟨row', hrow'⟩ := decodeFields_of_reads hreads
    rw [h] at hrow'
    exact ⟨hreads.offset_le le_rfl, congrArg Prod.snd hrow'⟩
  · rw [decodeFields_of_stopsAt hstop] at h
    cases h

/-! ## The law -/

/-- Reading any bytes by a schema. A record that was read has used up exactly the width of the
schema, its values belong into their columns, and written back it has the bytes it was read from,
but for those that the mask writes over: truth values that are not zero become one, bytes behind
a text zero. Reading fails if and only if there is a first field that cannot be read, and then the
fields before it are used up, and of this field what its fault costs. -/
theorem read_or_stopped (schema : Schema) (input : Bytes) :
    (∀ r rest, decode schema input = (some r, rest) →
      r.schema = schema ∧ r.IsWhole ∧ r.IsFitting ∧
        ∃ field, input = field ++ rest ∧ field.length = schema.width ∧
          r.encode = some (Bytes.overwrite (mask schema.types input) field)) ∧
    (∀ rest, decode schema input = (none, rest) ↔
      ∃ i t f, StopsAt schema.types input i t f ∧
        ∃ used, input = used ++ rest ∧ used.length = offset schema.types i + f.cost t) := by
  constructor
  · intro r rest h
    unfold decode at h
    rcases hread : decodeFields schema.types input with ⟨_ | row, last⟩
    · simp [hread] at h
    · simp only [hread, Option.map_some, Prod.mk.injEq, Option.some.injEq] at h
      obtain ⟨rfl, rfl⟩ := h
      have hrow : (decodeFields schema.types input).1 = some row := by rw [hread]
      obtain ⟨whole, hfits⟩ := (rowFits_iff ⟨schema, row, none⟩).1 (rowFits_of_decodeFields hrow)
      obtain ⟨hlen, hrest⟩ := rest_of_decodeFields hread
      have hmask := length_mask hrow
      rw [← Schema.width_eq] at hlen hrest hmask
      refine ⟨rfl, whole, fits_iff.1 hfits, input.take schema.width, ?_, ?_, ?_⟩
      · rw [hrest, List.take_append_drop]
      · simp [hlen]
      · rw [encode_of_fits hfits, Bytes.overwrite_take (Nat.le_of_eq hmask)]
        exact congrArg some (fieldBytes_eq_overwrite hrow)
  · intro rest
    have hdecode : decode schema input = (none, rest) ↔
        decodeFields schema.types input = (none, rest) := by
      unfold decode
      rcases decodeFields schema.types input with ⟨_ | row, last⟩ <;> simp
    rw [hdecode, decodeFields_eq_none_iff]
    constructor
    · rintro ⟨i, t, f, hstop, rfl⟩
      refine ⟨i, t, f, hstop, _, (List.take_append_drop _ _).symm, ?_⟩
      rw [List.length_take, Nat.min_eq_left hstop.cost_le]
    · rintro ⟨i, t, f, hstop, used, rfl, hused⟩
      exact ⟨i, t, f, hstop, by rw [← hused, List.drop_left]⟩

/-- Rows of a truth value, a text and a number. -/
def noteSchema : Schema := ⟨[⟨"done", .boolean⟩, ⟨"text", .varChar 3⟩, ⟨"rank", .smallInt⟩]⟩

/-- A note with a truth value of seven and something behind its text is read and put right; one
with a text above its limit is given up after the length of the text. -/
theorem notes_read_or_stopped :
    (∃ r, decode noteSchema [7, 0, 1, 104, 9, 9, 1, 2, 42] = (some r, [42]) ∧ r.IsFitting ∧
      r.encode = some [1, 0, 1, 104, 0, 0, 1, 2]) ∧
    StopsAt noteSchema.types [7, 0, 4, 104, 9, 9, 1, 2, 42] 1 (.varChar 3) .overLimit ∧
    decode noteSchema [7, 0, 4, 104, 9, 9, 1, 2, 42] = (none, [104, 9, 9, 1, 2, 42]) := by
  have hread : decode noteSchema [7, 0, 1, 104, 9, 9, 1, 2, 42] =
      (some ⟨noteSchema, [.boolean true, .text "h", .smallInt 258], none⟩, [42]) := by
    decide +kernel
  obtain ⟨-, -, hfitting, field, hfield, -, hwritten⟩ := (read_or_stopped _ _).1 _ _ hread
  obtain rfl : [7, 0, 1, 104, 9, 9, 1, 2] = field := List.append_cancel_right hfield
  have hstop : StopsAt noteSchema.types [7, 0, 4, 104, 9, 9, 1, 2, 42] 1 (.varChar 3)
      .overLimit := by
    refine ⟨rfl, ⟨by decide, 3, rfl, by decide⟩, ?_⟩
    intro j hj t ht
    obtain rfl : j = 0 := by omega
    obtain rfl : ColumnType.boolean = t := by simpa [noteSchema, Schema.types] using ht
    refine ⟨by decide, ?_⟩
    rintro limit ⟨⟩
  refine ⟨⟨_, hread, hfitting, hwritten.trans (by decide +kernel)⟩, hstop, ?_⟩
  exact ((read_or_stopped _ _).2 _).2 ⟨1, _, _, hstop, [7, 0, 4], rfl, rfl⟩

end Record

end PageCache
