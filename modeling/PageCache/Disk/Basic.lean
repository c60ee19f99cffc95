-- A disk is a file seen as an array of pages of one size. It counts its pages, reads and
-- writes in words of 32 bits, which start again at zero when they overflow. A request that
-- is not for one whole page, or that leads out of the words, breaks off: a page too large to
-- be held cannot be read, and the page with the largest number is written but not counted.
import PageCache.Disk.SparseFile
import PageCache.StoreError

namespace PageCache

/-- An open file of pages. -/
structure Disk where
  file : SparseFile
  pageSize : Nat
  pageCount : UInt32
  reads : UInt32
  writes : UInt32
deriving DecidableEq, Repr

namespace Disk

/-- Opens a file with a page size, which must not be zero. The pages are the whole ones in
the file; bytes behind the last whole page belong to none. -/
def open? (file : SparseFile) (pageSize : Nat) : Option Disk :=
  if pageSize = 0 then none
  else some ⟨file, pageSize, UInt32.ofNat (file.length / pageSize), 0, 0⟩

/-- The bytes of one page can be held. -/
def isHoldable (d : Disk) : Bool := d.pageSize ≤ Bytes.maxLength

/-- The offset of a page in the file. -/
def offset (d : Disk) (page : UInt32) : Nat := page.toNat * d.pageSize

/-- The bytes of a page; what lies behind the end of the file is zero. -/
def pageBytes (d : Disk) (page : UInt32) : Bytes := d.file.read (d.offset page) d.pageSize

/-- What the system says about an offset that is no signed word of 64 bits. -/
def unreachable : StoreError := .io "Invalid argument (os error 22)"

/-- Reads a page into a buffer of `count` bytes, which must be one page. -/
def readInto (d : Disk) (page : UInt32) (count : Nat) : Except StoreError (Disk × Bytes) :=
  if count ≠ d.pageSize ∨ !d.isHoldable ∨ d.offset page ≥ UInt64.size then .error .brokenOff
  else if d.offset page ≥ UInt64.size / 2 then .error unreachable
  else .ok ({ d with reads := d.reads + 1 }, d.pageBytes page)

/-- Reads a page. -/
def read (d : Disk) (page : UInt32) : Except StoreError (Disk × Bytes) :=
  d.readInto page d.pageSize

/-- The number of pages can be counted when this one is the last. -/
def isCountable (page : UInt32) : Bool := page.toNat + 1 < UInt32.size

/-- Puts bytes at the place of a page. -/
def put (d : Disk) (page : UInt32) (data : Bytes) : Disk :=
  { d with file := d.file.write (d.offset page) data }

/-- Counts a write. A page behind the last one becomes the last. -/
def count (d : Disk) (page : UInt32) : Disk :=
  { d with pageCount := max d.pageCount (page + 1), writes := d.writes + 1 }

/-- Writes a page. The data must be one page. -/
def write (d : Disk) (page : UInt32) (data : Bytes) : Disk × Except StoreError Unit :=
  if data.length ≠ d.pageSize then (d, .error .brokenOff)
  else if isCountable page then ((d.put page data).count page, .ok ())
  else (d.put page data, .error .brokenOff)

/-- Appends a page of zeros: the number of pages before is the number of the new one. It is
counted before it is written, even if it cannot be written then. -/
def allocate (d : Disk) : Disk × Except StoreError UInt32 :=
  let counted := { d with pageCount := d.pageCount + 1 }
  if d.isHoldable then
    match counted.write d.pageCount (Bytes.zeros d.pageSize) with
    | (disk, .ok ()) => (disk, .ok d.pageCount)
    | (disk, .error e) => (disk, .error e)
  else (counted, .error .brokenOff)

end Disk

/-- Where a file cannot be opened. -/
inductive PathFault where
  | missingDirectory
  | isDirectory
deriving DecidableEq, Repr

/-- What the system says about a path that cannot be opened. -/
def PathFault.reason : PathFault → String
  | .missingDirectory => "No such file or directory (os error 2)"
  | .isDirectory => "Is a directory (os error 21)"

end PageCache
