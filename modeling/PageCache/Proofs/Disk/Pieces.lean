-- What a file with holes reads as, byte by byte: at each offset the latest piece over it
-- counts. So what was written is read back, and what lies elsewhere is not touched.
import PageCache.Disk.SparseFile
import Mathlib.Data.List.Basic

namespace PageCache

/-- The piece lies over an offset. -/
def Piece.Covers (p : Piece) (i : Nat) : Prop := p.offset ≤ i ∧ i < p.stop

instance (p : Piece) (i : Nat) : Decidable (p.Covers i) :=
  inferInstanceAs (Decidable (p.offset ≤ i ∧ i < p.stop))

theorem Piece.covers_iff (p : Piece) (i : Nat) :
    p.Covers i ↔ p.offset ≤ i ∧ i < p.offset + p.content.length := Iff.rfl

namespace SparseFile

variable {f : SparseFile} {p : Piece} {under content : Bytes} {offset count i k : Nat}

/-- The byte at an offset: that of the first piece over it, or zero. -/
def byteIn : List Piece → Nat → UInt8
  | [], _ => 0
  | p :: rest, i => if p.Covers i then p.content.getD (i - p.offset) 0 else byteIn rest i

/-! ## Reading -/

theorem length_overlay (hstart : p.offset < offset + under.length) (hstop : offset < p.stop) :
    (overlay offset p under).length = under.length := by
  unfold Piece.stop at hstop
  simp only [overlay, Piece.stop, List.length_append, List.length_take, List.length_drop]
  omega

/-- A piece counts where it lies, and the bytes under it count elsewhere. -/
theorem getElem?_overlay (hstart : p.offset < offset + under.length) (hstop : offset < p.stop)
    (hk : k < under.length) : (overlay offset p under)[k]? =
      if p.Covers (offset + k) then some (p.content.getD (offset + k - p.offset) 0)
      else under[k]? := by
  unfold Piece.stop at hstop
  have hfront : (under.take (p.offset - offset)).length = p.offset - offset := by
    rw [List.length_take]
    omega
  have hmid : ((p.content.drop (offset - p.offset)).take
      (under.length - (p.offset - offset))).length =
        min (under.length - (p.offset - offset)) (p.content.length - (offset - p.offset)) := by
    rw [List.length_take, List.length_drop]
  simp only [overlay, Piece.stop, List.getElem?_append, List.length_append, hfront, hmid]
  by_cases hc : p.Covers (offset + k)
  · rw [if_pos hc]
    rw [Piece.covers_iff] at hc
    rw [if_pos (by omega), if_neg (by omega), List.getElem?_take_of_lt (by omega),
      List.getElem?_drop, List.getD_eq_getElem?_getD,
      show offset - p.offset + (k - (p.offset - offset)) = offset + k - p.offset by omega,
      List.getElem?_eq_getElem (by omega : offset + k - p.offset < p.content.length)]
    rfl
  · rw [if_neg hc]
    rw [Piece.covers_iff] at hc
    by_cases hfirst : k < p.offset - offset
    · rw [if_pos (by omega), if_pos hfirst, List.getElem?_take_of_lt hfirst]
    · rw [if_neg (by omega), List.getElem?_drop]
      congr 1
      omega

/-- A piece that does not reach into a range does not matter there. -/
theorem byteIn_filter (pieces : List Piece) (hk : k < count) :
    byteIn (pieces.filter fun p => p.offset < offset + count && offset < p.stop) (offset + k) =
      byteIn pieces (offset + k) := by
  induction pieces with
  | nil => rfl
  | cons p rest ih =>
    rw [List.filter_cons]
    split
    · rw [byteIn, byteIn, ih]
    · rename_i hout
      simp only [Bool.and_eq_true, decide_eq_true_eq] at hout
      rw [ih, byteIn, if_neg (by unfold Piece.Covers; omega)]

theorem foldr_overlay {pieces : List Piece}
    (h : ∀ p ∈ pieces, p.offset < offset + count ∧ offset < p.stop) :
    (pieces.foldr (overlay offset) (Bytes.zeros count)).length = count ∧
      ∀ k < count, (pieces.foldr (overlay offset) (Bytes.zeros count))[k]? =
        some (byteIn pieces (offset + k)) := by
  induction pieces with
  | nil =>
    refine ⟨Bytes.length_zeros count, ?_⟩
    intro k hk
    simp [Bytes.zeros, byteIn, hk]
  | cons p rest ih =>
    obtain ⟨hlen, hget⟩ := ih fun q hq => h q (List.mem_cons_of_mem _ hq)
    obtain ⟨hstart, hstop⟩ := h p List.mem_cons_self
    rw [← hlen] at hstart
    rw [List.foldr_cons]
    refine ⟨(length_overlay hstart hstop).trans hlen, ?_⟩
    intro k hk
    rw [getElem?_overlay hstart hstop (by omega), byteIn]
    split
    · rfl
    · exact hget k hk

/-- A file reads as its bytes, one after the other. -/
theorem read_eq_map (f : SparseFile) (offset count : Nat) :
    f.read offset count = (List.range count).map fun k => byteIn f.pieces (offset + k) := by
  have hinside : ∀ p ∈ f.pieces.filter fun p => p.offset < offset + count && offset < p.stop,
      p.offset < offset + count ∧ offset < p.stop := by simp
  obtain ⟨hlen, hget⟩ := foldr_overlay hinside
  apply List.ext_getElem?
  intro k
  rw [List.getElem?_map]
  unfold read
  by_cases hk : k < count
  · rw [hget k hk, List.getElem?_range hk, Option.map_some, byteIn_filter f.pieces hk]
  · rw [List.getElem?_eq_none (by omega), List.getElem?_eq_none (by simp; omega)]
    rfl

/-! ## Writing -/

/-- Where bytes were written they count, and elsewhere the file is as before. -/
theorem byteIn_write (f : SparseFile) (offset : Nat) (content : Bytes) (i : Nat) :
    byteIn (f.write offset content).pieces i =
      if (⟨offset, content⟩ : Piece).Covers i then content.getD (i - offset) 0
      else byteIn f.pieces i := by
  simp only [write, byteIn]
  split
  · rfl
  · rename_i hout
    generalize f.pieces = pieces
    induction pieces with
    | nil => rfl
    | cons p rest ih =>
      rw [List.filter_cons]
      split
      · rw [byteIn, byteIn, ih]
      · rename_i hcovered
        simp only [Bool.or_eq_true, decide_eq_true_eq] at hcovered
        simp only [Piece.stop] at hcovered
        rw [Piece.covers_iff] at hout
        simp only at hout
        rw [ih, byteIn, if_neg (by rw [Piece.covers_iff]; omega)]

/-- What was written is read back. -/
theorem read_write_self (f : SparseFile) (offset : Nat) (content : Bytes) :
    (f.write offset content).read offset content.length = content := by
  rw [read_eq_map]
  apply List.ext_getElem?
  intro k
  rw [List.getElem?_map]
  by_cases hk : k < content.length
  · rw [List.getElem?_range hk, Option.map_some, byteIn_write,
      if_pos ⟨by simp, by simp only [Piece.stop]; omega⟩, Nat.add_sub_cancel_left,
      List.getD_eq_getElem?_getD, List.getElem?_eq_getElem hk]
    rfl
  · rw [List.getElem?_eq_none (by simpa using hk), List.getElem?_eq_none (by omega)]
    rfl

/-- What lies elsewhere is not touched. -/
theorem read_write_of_disjoint {start : Nat}
    (h : offset + count ≤ start ∨ start + content.length ≤ offset) :
    (f.write start content).read offset count = f.read offset count := by
  rw [read_eq_map, read_eq_map, List.map_inj_left]
  intro k hk
  rw [List.mem_range] at hk
  rw [byteIn_write, if_neg (by simp only [Piece.Covers, Piece.stop]; omega)]

end SparseFile

end PageCache
