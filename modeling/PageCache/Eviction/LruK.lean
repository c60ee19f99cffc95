-- Which page goes when room is needed: the one whose k-th last use lies farthest back. A
-- page with fewer than k uses counts as used infinitely long ago; of several such pages
-- the one with the oldest known use goes.
import PageCache.FinMap
import PageCache.Ids

namespace PageCache

/-- The uses of the tracked pages. `clock` is the time of the next use, and each page has
the times of its last uses, at most `k` of them, the oldest first. -/
structure LruK where
  k : Nat
  clock : Nat
  history : FinMap PageId (List Nat)
deriving DecidableEq

/-- How a page stands among the candidates: how far back its k-th last use lies, if it has
k uses, and its oldest known use. -/
structure Standing where
  page : PageId
  distance : Option Nat
  oldest : Option Nat
deriving DecidableEq, Repr

/-- The first page is to go rather than the second. -/
def Standing.goesBefore (a b : Standing) : Bool :=
  match a.distance, b.distance with
  | some _, none => false
  | none, some _ => true
  | none, none =>
    match a.oldest, b.oldest with
    | some x, some y => x < y
    | some _, none => true
    | none, _ => false
  | some x, some y => x > y

namespace LruK

/-- No page is tracked. At least one use counts. -/
def new (k : Nat) : LruK := ⟨max k 1, 0, .empty⟩

/-- The number of tracked pages. -/
def size (r : LruK) : Nat := r.history.size

/-- The last `k` of some times. -/
def recent {τ : Type} (k : Nat) (times : List τ) : List τ := times.drop (times.length - k)

/-- Notes a use of a page. -/
def access (r : LruK) (page : PageId) : LruK :=
  let times := (r.history.get? page).getD [] ++ [r.clock]
  { r with clock := r.clock + 1, history := r.history.insert page (recent r.k times) }

/-- Stops tracking a page. -/
def remove (r : LruK) (page : PageId) : LruK := { r with history := r.history.erase page }

/-- How far back the k-th last of some times lies, if there are k. -/
def distance (r : LruK) (times : List Nat) : Option Nat :=
  if times.length < r.k then none else times[times.length - r.k]?.map (r.clock - ·)

/-- How a tracked page stands. -/
def standing (r : LruK) (entry : PageId × List Nat) : Standing :=
  ⟨entry.1, r.distance entry.2, entry.2.head?⟩

/-- Of the best one so far and the next one, the one that is to go. -/
def worse (best : Option Standing) (s : Standing) : Option Standing :=
  match best with
  | none => some s
  | some b => if s.goesBefore b then some s else some b

/-- The page that is to go, among the entries that are candidates. -/
def victim (r : LruK) (entries : List (PageId × List Nat)) (candidate : PageId → Bool) :
    Option PageId :=
  (((entries.filter fun e => candidate e.1).map r.standing).foldl worse none).map Standing.page

/-- Picks the candidate that is to go and stops tracking it. -/
def evict (r : LruK) (candidate : PageId → Bool) : LruK × Option PageId :=
  match r.victim r.history.entries candidate with
  | none => (r, none)
  | some page => (r.remove page, some page)

/-- Picks candidates until none is left, at most `limit` of them. -/
def drain (candidate : PageId → Bool) : (limit : Nat) → LruK → LruK × List PageId
  | 0, r => (r, [])
  | limit + 1, r =>
    match r.evict candidate with
    | (r, none) => (r, [])
    | (r, some page) =>
      let (r, pages) := drain candidate limit r
      (r, page :: pages)

end LruK

end PageCache
