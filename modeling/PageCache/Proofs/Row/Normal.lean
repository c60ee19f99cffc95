-- What writing a record back does to the bytes it was read from. Fields have more bytes than
-- values: a truth value may be any byte but zero, and the room behind a text may hold anything.
-- Written back, these bytes get the value they should have had; no other byte changes.
import PageCache.Proofs.Row.Codec
import Mathlib.Data.List.Induction

namespace PageCache

/-! ## Bytes that are kept or written over -/

namespace Bytes

/-- For each byte what is written over it, if anything. -/
abbrev Mask := List (Option UInt8)

/-- The bytes that the mask covers, each kept or written over. -/
def overwrite (mask : Mask) (bs : Bytes) : Bytes :=
  List.zipWith (fun new old => new.getD old) mask bs

/-- A mask that keeps all of its bytes. -/
def kept (n : Nat) : Mask := List.replicate n none

/-- A mask of zeros. -/
def blanked (n : Nat) : Mask := List.replicate n (some 0)

variable {mask : Mask} {bs : Bytes} {n : Nat}

@[simp] theorem length_kept (n : Nat) : (kept n).length = n := List.length_replicate

@[simp] theorem length_blanked (n : Nat) : (blanked n).length = n := List.length_replicate

theorem length_overwrite (h : mask.length ≤ bs.length) :
    (overwrite mask bs).length = mask.length := by
  rw [overwrite, List.length_zipWith, Nat.min_eq_left h]

theorem overwrite_append (mask mask' : Mask) (bs : Bytes) :
    overwrite (mask ++ mask') bs = overwrite mask bs ++ overwrite mask' (bs.drop mask.length) := by
  induction mask generalizing bs with
  | nil => rfl
  | cons new mask ih =>
    cases bs with
    | nil => simp [overwrite]
    | cons old bs => exact congrArg (new.getD old :: ·) (ih bs)

/-- Bytes behind the mask do not matter. -/
theorem overwrite_take (h : mask.length ≤ n) : overwrite mask (bs.take n) = overwrite mask bs := by
  induction mask generalizing bs n with
  | nil => rfl
  | cons new mask ih =>
    cases n with
    | zero => simp at h
    | succ n =>
      cases bs with
      | nil => rfl
      | cons old bs => exact congrArg (new.getD old :: ·) (ih (by simpa using h))

@[simp] theorem overwrite_kept (n : Nat) (bs : Bytes) : overwrite (kept n) bs = bs.take n := by
  induction n generalizing bs with
  | zero => rfl
  | succ n ih =>
    cases bs with
    | nil => rfl
    | cons b bs => exact congrArg (b :: ·) (ih bs)

theorem overwrite_blanked (h : n ≤ bs.length) : overwrite (blanked n) bs = zeros n := by
  induction n generalizing bs with
  | zero => rfl
  | succ n ih =>
    cases bs with
    | nil => simp at h
    | cons b bs => exact congrArg (0 :: ·) (ih (by simpa using h))

/-- The bytes of the number that some bytes stand for are these bytes. -/
theorem ofNat_bigEndian (bs : Bytes) : ofNat bs.length (bigEndian bs) = bs := by
  induction bs using List.reverseRecOn with
  | nil => rfl
  | append_singleton bs b ih =>
    have hlt : b.toNat < 256 := b.toNat_lt
    have hrest : (bigEndian bs * 256 + b.toNat) / 256 = bigEndian bs := by omega
    have hlast : UInt8.ofNat (bigEndian bs * 256 + b.toNat) = b := by
      apply UInt8.toNat_inj.1
      rw [UInt8.toNat_ofNat']
      omega
    rw [List.length_append, List.length_singleton, ofNat, bigEndian_append_single, hrest, ih, hlast]

theorem bigEndian_lt (bs : Bytes) : bigEndian bs < 256 ^ bs.length := by
  induction bs using List.reverseRecOn with
  | nil => decide
  | append_singleton bs b ih =>
    have hlt : b.toNat < 256 := b.toNat_lt
    rw [bigEndian_append_single, List.length_append, List.length_singleton, Nat.pow_succ]
    omega

end Bytes

/-! ## Fields -/

namespace Value

variable {v : Value} {type : ColumnType} {input : Bytes} {width : Nat}

/-- What writing a field back puts over the bytes it was read from: one for a truth value that
is not zero, zeros behind a text. -/
def mask : ColumnType → Bytes → Bytes.Mask
  | .boolean, input => [if number 1 input = 0 then none else some 1]
  | .varChar limit, input =>
    Bytes.kept (2 + number 2 input) ++ Bytes.blanked (limit.toNat - number 2 input)
  | type, _ => Bytes.kept type.size

/-- The number in front of an input is written as it stands there. -/
theorem ofNat_number (h : width ≤ input.length) :
    Bytes.ofNat width (number width input) = input.take width := by
  have hlen : (input.take width).length = width := by simp [h]
  have hback := Bytes.ofNat_bigEndian (input.take width)
  rwa [hlen] at hback

theorem number_lt (h : width ≤ input.length) : number width input < 256 ^ width := by
  have hlt := Bytes.bigEndian_lt (input.take width)
  rwa [List.length_take, Nat.min_eq_left h] at hlt

/-- Reading a field takes the whole width of its type. -/
theorem decode_eq_some (h : (decode type input).1 = some v) :
    type.size ≤ input.length ∧ decode type input = (some v, input.drop type.size) := by
  unfold decode at h ⊢
  split at h
  · cases h
  · rename_i hlen
    refine ⟨Nat.not_lt.1 hlen, ?_⟩
    rw [if_neg hlen]
    cases type <;> simp only [Option.some.injEq] at h ⊢
    case varChar limit =>
      simp only [decodeText] at h ⊢
      split at h
      · cases h
      · rename_i hlimit
        rw [if_neg hlimit, List.drop_drop]
        exact congrArg (·, _) h
    all_goals
      rw [h]
      rfl

theorem length_mask (h : (decode type input).1 = some v) :
    (mask type input).length = type.size := by
  unfold decode at h
  split at h
  · cases h
  · cases type <;> simp only [mask, Bytes.length_kept]
    case boolean => rfl
    case varChar limit =>
      simp only [decodeText] at h
      split at h
      · cases h
      · simp only [List.length_append, Bytes.length_kept, Bytes.length_blanked, ColumnType.size]
        omega

/-- The text of a field of limit `limit` is written with zeros behind it. -/
theorem text_bytes_eq_overwrite {s : String} {limit : UInt16}
    (hlen : ColumnType.size (.varChar limit) ≤ input.length)
    (hlimit : number 2 input ≤ limit.toNat)
    (hs : ofUtf8? ((input.drop 2).take (number 2 input)) = some s) :
    (Value.text s).bytes (.varChar limit) =
      Bytes.overwrite (mask (.varChar limit) input) input := by
  simp only [ColumnType.size] at hlen
  have hutf := utf8_of_ofUtf8? hs
  have hcontent : (utf8 s).length = number 2 input := by
    rw [hutf, List.length_take, List.length_drop]
    omega
  have hkept : Bytes.ofNat 2 (number 2 input) ++ utf8 s = input.take (2 + number 2 input) := by
    rw [ofNat_number (by omega), hutf, List.take_add]
  have hblank : number 2 input ≤ limit.toNat ∧
      limit.toNat - number 2 input ≤ (input.drop (2 + number 2 input)).length := by
    rw [List.length_drop]
    omega
  have hroom : ColumnType.size (.varChar limit) - 2 = limit.toNat := by simp [ColumnType.size]
  simp only [bytes, hroom, hcontent]
  rw [hkept, mask, Bytes.overwrite_append, Bytes.overwrite_kept, Bytes.length_kept,
    Bytes.overwrite_blanked hblank.2]

/-- A value that was read is written as its field stood, but for the bytes of the mask. -/
theorem bytes_eq_overwrite (h : (decode type input).1 = some v) :
    v.bytes type = Bytes.overwrite (mask type input) input := by
  have hlen := (decode_eq_some h).1
  unfold decode at h
  rw [if_neg (Nat.not_lt.2 hlen)] at h
  cases type <;> simp only [ColumnType.size] at hlen
  case boolean =>
    obtain ⟨b, rest, rfl⟩ := List.exists_cons_of_length_pos hlen
    cases h
    simp only [bytes, mask, Bytes.overwrite, number, Bytes.bigEndian, List.take_succ_cons,
      List.take_zero, List.foldl_cons, List.foldl_nil, List.zipWith_cons_cons,
      List.zipWith_nil_left]
    by_cases hb : b.toNat = 0
    · have hzero : b = 0 := UInt8.toNat_inj.1 hb
      simp [hzero]
    · simp [hb]
  case varChar limit =>
    simp only [decodeText] at h
    split at h
    · cases h
    · rename_i hlimit
      obtain ⟨s, hs, rfl⟩ := Option.map_eq_some_iff.1 h
      exact text_bytes_eq_overwrite hlen (Nat.not_lt.1 hlimit) hs
  -- a number is the number of its bytes
  all_goals
    cases h
    have hnumber := ofNat_number hlen
    have hlt := number_lt hlen
    simp only [bytes, mask, Bytes.overwrite_kept, ColumnType.size]
    rw [← hnumber]
    congr 1
    simp only [UInt16.toInt16, UInt32.toInt32, UInt64.toInt64, UInt16.toNat_ofNat',
      UInt32.toNat_ofNat', UInt64.toNat_ofNat']
    omega

end Value

/-! ## Records -/

namespace Record

variable {types : List ColumnType} {row : List Value} {input : Bytes}

/-- The masks of the fields of a record, one behind the other. -/
def mask : List ColumnType → Bytes → Bytes.Mask
  | [], _ => []
  | t :: types, input => Value.mask t input ++ mask types (input.drop t.size)

/-- Reading fields succeeds when each of them can be read where the one before it ends. -/
theorem decodeFields_cons {t : ColumnType} (h : (decodeFields (t :: types) input).1 = some row) :
    ∃ v vs, row = v :: vs ∧ (Value.decode t input).1 = some v ∧
      (decodeFields types (input.drop t.size)).1 = some vs := by
  unfold decodeFields at h
  rcases hv : Value.decode t input with ⟨_ | v, rest⟩
  · simp [hv] at h
  · have hrest : rest = input.drop t.size := by
      have hsome := (Value.decode_eq_some (by rw [hv] : (Value.decode t input).1 = some v)).2
      rw [hv] at hsome
      exact congrArg Prod.snd hsome
    rcases hvs : decodeFields types rest with ⟨_ | vs, last⟩
    · simp [hv, hvs] at h
    · simp only [hv, hvs, Option.some.injEq] at h
      exact ⟨v, vs, h.symm, rfl, by rw [← hrest, hvs]⟩

theorem length_mask (h : (decodeFields types input).1 = some row) :
    (mask types input).length = (types.map ColumnType.size).sum := by
  induction types generalizing input row with
  | nil => rfl
  | cons t types ih =>
    obtain ⟨v, vs, -, hv, hvs⟩ := decodeFields_cons h
    rw [mask, List.length_append, Value.length_mask hv, ih hvs, List.map_cons, List.sum_cons]

/-- A row that was read is written as its fields stood, but for the bytes of the mask. -/
theorem fieldBytes_eq_overwrite (h : (decodeFields types input).1 = some row) :
    fieldBytes types row = Bytes.overwrite (mask types input) input := by
  induction types generalizing input row with
  | nil => rfl
  | cons t types ih =>
    obtain ⟨v, vs, rfl, hv, hvs⟩ := decodeFields_cons h
    rw [mask, Bytes.overwrite_append, Value.length_mask hv, ← ih hvs, ← Value.bytes_eq_overwrite hv]
    rfl

end Record

end PageCache
