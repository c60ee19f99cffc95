-- The bytes of values and records. What fits its columns is read back from its bytes, and
-- whatever can be read fits.
import PageCache.Proofs.Bytes.Packing
import PageCache.Row.Record
import Mathlib.Data.List.Forall2

namespace PageCache

/-! ## Values -/

namespace Value

variable {v : Value} {type : ColumnType} {rest : Bytes}

@[simp] theorem length_bytes (h : v.fits type = true) : (v.bytes type).length = type.size := by
  cases v <;> cases type <;> simp_all [fits, bytes, ColumnType.size]

/-- A number in front of an input is read from its bytes. -/
theorem number_ofNat {width n : Nat} (h : n < 256 ^ width) :
    number width (Bytes.ofNat width n ++ rest) = n := by
  rw [number, List.take_left' (Bytes.length_ofNat width n), Bytes.bigEndian_ofNat_of_lt h]

theorem ofUtf8?_utf8 (s : String) : ofUtf8? (utf8 s) = some s := by
  have hdata : (⟨(utf8 s).toArray⟩ : ByteArray) = s.toByteArray := by simp [utf8]
  rw [ofUtf8?, hdata, String.fromUTF8?, dif_pos s.isValidUTF8]
  rfl

/-- A text in front of an input is read from its field. -/
theorem decodeText_field {s : String} {limit : Nat} (h : (utf8 s).length ≤ limit)
    (hlimit : limit < 2 ^ 16) :
    decodeText limit (Bytes.ofNat 2 (utf8 s).length ++ utf8 s ++
      Bytes.zeros (limit - (utf8 s).length) ++ rest) = (some (.text s), rest) := by
  have hnumber : number 2 (Bytes.ofNat 2 (utf8 s).length ++ (utf8 s ++
      (Bytes.zeros (limit - (utf8 s).length) ++ rest))) = (utf8 s).length :=
    number_ofNat (by omega)
  simp only [List.append_assoc]
  unfold decodeText
  rw [hnumber, List.drop_left' (Bytes.length_ofNat 2 _), if_neg (by omega),
    List.take_left' rfl, ofUtf8?_utf8, ← List.append_assoc, List.drop_left' (by simp; omega)]
  rfl

/-- A value that fits is read back from its bytes. -/
theorem decode_bytes (h : v.fits type = true) :
    decode type (v.bytes type ++ rest) = (some v, rest) := by
  have hlen := length_bytes h
  unfold decode
  rw [if_neg (by rw [List.length_append, hlen]; omega)]
  cases v <;> cases type <;> simp only [fits, Bool.false_eq_true] at h
  case boolean.boolean b => cases b <;> simp [bytes, number, Bytes.bigEndian]
  case smallInt.smallInt n =>
    simp only [bytes]
    rw [number_ofNat (n.toUInt16.toNat_lt), List.drop_left' (by simp)]
    simp
  case integer.integer n =>
    simp only [bytes]
    rw [number_ofNat (n.toUInt32.toNat_lt), List.drop_left' (by simp)]
    simp
  case bigInt.bigInt n =>
    simp only [bytes]
    rw [number_ofNat (n.toUInt64.toNat_lt), List.drop_left' (by simp)]
    simp
  case double.double d =>
    simp only [bytes]
    rw [number_ofNat (d.bits.toNat_lt), List.drop_left' (by simp)]
    simp
  case text.varChar s n =>
    have hsize : ColumnType.size (.varChar n) - 2 = n.toNat := by simp [ColumnType.size]
    simp only [bytes, hsize]
    exact decodeText_field (by simpa using h) n.toNat_lt

/-- The bytes of a text that was read from some bytes are these bytes. -/
theorem utf8_of_ofUtf8? {bs : Bytes} {s : String} (h : ofUtf8? bs = some s) : utf8 s = bs := by
  unfold ofUtf8? String.fromUTF8? at h
  split at h
  · cases h
    simp [utf8, String.fromUTF8]
  · cases h

/-- A value that was read fits. -/
theorem fits_of_decode {input : Bytes} (h : (decode type input).1 = some v) :
    v.fits type = true := by
  unfold decode at h
  split at h
  · cases h
  · cases type <;> simp only [Option.some.injEq] at h
    case varChar limit =>
      simp only [decodeText] at h
      split at h
      · cases h
      · obtain ⟨s, hs, rfl⟩ := Option.map_eq_some_iff.1 h
        rename_i hlimit
        simp only [fits, utf8_of_ofUtf8? hs, List.length_take, decide_eq_true_eq]
        omega
    all_goals
      subst h
      rfl

end Value

/-! ## Records -/

theorem Schema.width_eq (s : Schema) : s.width = (s.types.map ColumnType.size).sum := by
  rw [width, types, List.map_map, List.sum, List.foldr_map]
  rfl

namespace Record

variable {types : List ColumnType} {row : List Value} {rest : Bytes}

/-- A record has one value for each column, as every record that is made has. -/
def IsWhole (r : Record) : Prop := r.values.length = r.schema.columns.length

instance (r : Record) : Decidable r.IsWhole :=
  inferInstanceAs (Decidable (r.values.length = r.schema.columns.length))

/-- A row has one value for each column, and each value fits its column. -/
def RowFits (types : List ColumnType) (row : List Value) : Prop :=
  List.Forall₂ (fun t v => v.fits t = true) types row

theorem rowFits_iff (r : Record) :
    RowFits r.schema.types r.values ↔
      r.values.length = r.schema.columns.length ∧ r.fits = true := by
  have hlen : r.schema.types.length = r.schema.columns.length := by simp [Schema.types]
  rw [RowFits, List.forall₂_iff_zip, hlen, eq_comm, fits, List.all_eq_true]
  exact and_congr_right fun _ => ⟨fun h x hx => h hx, fun h a b hab => h (a, b) hab⟩

theorem length_fieldBytes (h : RowFits types row) :
    (fieldBytes types row).length = (types.map ColumnType.size).sum := by
  induction h with
  | nil => rfl
  | cons hfit _ ih =>
    simp only [fieldBytes, List.zip_cons_cons, List.flatMap_cons, List.length_append,
      List.map_cons, List.sum_cons] at ih ⊢
    rw [ih, Value.length_bytes hfit]

/-- A row that fits is read back from its bytes. -/
theorem decodeFields_fieldBytes (h : RowFits types row) :
    decodeFields types (fieldBytes types row ++ rest) = (some row, rest) := by
  induction h with
  | nil => rfl
  | cons hfit _ ih =>
    simp only [fieldBytes, List.zip_cons_cons, List.flatMap_cons, List.append_assoc] at ih ⊢
    rw [decodeFields, Value.decode_bytes hfit]
    simp only [ih]

/-- A row that was read fits. -/
theorem rowFits_of_decodeFields {input : Bytes} (h : (decodeFields types input).1 = some row) :
    RowFits types row := by
  induction types generalizing input row with
  | nil =>
    cases h
    exact .nil
  | cons t types ih =>
    unfold decodeFields at h
    rcases hv : Value.decode t input with ⟨_ | v, mid⟩
    · simp [hv] at h
    · rcases hvs : decodeFields types mid with ⟨_ | vs, last⟩
      · simp [hv, hvs] at h
      · simp only [hv, hvs, Option.some.injEq] at h
        subst h
        exact .cons (Value.fits_of_decode (by rw [hv])) (ih (by rw [hvs]))

end Record

end PageCache
