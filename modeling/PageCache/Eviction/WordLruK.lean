-- The choice of the page that goes, with times that are words of 64 bits. Behind the last word
-- the clock starts again at zero. What is looked up, kept and compared is the same as with times
-- that are numbers of any size.
import PageCache.Eviction.LruK

namespace PageCache

/-- The uses of the tracked pages, as words. `clock` is the time of the next use, and each page has
the times of its last uses, at most `k` of them, the oldest first. -/
structure WordLruK where
  k : Nat
  clock : UInt64
  history : FinMap PageId (List UInt64)
deriving DecidableEq

namespace WordLruK

/-- No page is tracked. At least one use counts. -/
def new (k : Nat) : WordLruK := ⟨max k 1, 0, .empty⟩

/-- Notes a use of a page. -/
def access (r : WordLruK) (page : PageId) : WordLruK :=
  let times := (r.history.get? page).getD [] ++ [r.clock]
  { r with clock := r.clock + 1, history := r.history.insert page (LruK.recent r.k times) }

/-- Stops tracking a page. -/
def remove (r : WordLruK) (page : PageId) : WordLruK :=
  { r with history := r.history.erase page }

/-- How far back the k-th last of some times lies, if there are k. -/
def distance (r : WordLruK) (times : List UInt64) : Option UInt64 :=
  if times.length < r.k then none else times[times.length - r.k]?.map (r.clock - ·)

/-- How a tracked page stands. Words are compared as the numbers that they stand for. -/
def standing (r : WordLruK) (entry : PageId × List UInt64) : Standing :=
  ⟨entry.1, (r.distance entry.2).map UInt64.toNat, entry.2.head?.map UInt64.toNat⟩

/-- The page that is to go, among the tracked ones that are candidates. -/
def victim (r : WordLruK) (candidate : PageId → Bool) : Option PageId :=
  (((r.history.entries.filter fun e => candidate e.1).map r.standing).foldl
    LruK.worse none).map Standing.page

/-- Picks the candidate that is to go and stops tracking it. -/
def evict (r : WordLruK) (candidate : PageId → Bool) : WordLruK × Option PageId :=
  match r.victim candidate with
  | none => (r, none)
  | some page => (r.remove page, some page)

end WordLruK

end PageCache
