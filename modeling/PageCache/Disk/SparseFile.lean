-- Files with holes. A file is kept as the pieces that were written, the latest first;
-- where nothing was written it reads as zeros. Of two pieces over one byte the later
-- one counts.
import PageCache.Bytes.BigEndian

namespace PageCache

/-- Bytes written at an offset. -/
structure Piece where
  offset : Nat
  content : Bytes
deriving DecidableEq, Repr

/-- The offset behind a piece. -/
def Piece.stop (p : Piece) : Nat := p.offset + p.content.length

/-- A file: its length, and the pieces written to it, the latest first. -/
structure SparseFile where
  length : Nat
  pieces : List Piece
deriving DecidableEq, Repr, Inhabited

namespace SparseFile

/-- A file with nothing in it. -/
def empty : SparseFile := ⟨0, []⟩

/-- The bytes from `offset` on with a piece laid over them. -/
def overlay (offset : Nat) (p : Piece) (under : Bytes) : Bytes :=
  under.take (p.offset - offset)
    ++ (p.content.drop (offset - p.offset)).take (under.length - (p.offset - offset))
    ++ under.drop (p.stop - offset)

/-- The `count` bytes from `offset` on; behind the end of the file there are zeros. Only the
pieces that reach into this range matter. -/
def read (f : SparseFile) (offset count : Nat) : Bytes :=
  (f.pieces.filter fun p => p.offset < offset + count && offset < p.stop).foldr
    (overlay offset) (Bytes.zeros count)

/-- Writes bytes at an offset. The file grows if they reach behind its end. Older pieces
that are covered by the new one are forgotten. -/
def write (f : SparseFile) (offset : Nat) (content : Bytes) : SparseFile :=
  let piece : Piece := ⟨offset, content⟩
  { length := max f.length piece.stop
    pieces := piece :: f.pieces.filter fun p => p.offset < offset || piece.stop < p.stop }

/-- A file with the given bytes. -/
def ofBytes (content : Bytes) : SparseFile := ⟨content.length, [⟨0, content⟩]⟩

end SparseFile

end PageCache
