-- Who would wait for whom. For each page the requests are kept in the order of their
-- arrival; a later one that is incompatible with an earlier one of another transaction
-- waits for it. A request that would close a cycle of waits is refused.
import PageCache.FinMap
import PageCache.Lock.PageLock

namespace PageCache

namespace LockRequest

/-- Two requests for one page exclude each other. -/
def conflicts (a b : LockRequest) : Bool := a.txn ≠ b.txn && !a.access.compatible b.access

/-- The waits among the requests for one page: from each request to each later one that
waits for it. -/
def waits : List LockRequest → List (TransactionId × TransactionId)
  | [] => []
  | r :: later => (later.filter r.conflicts).map (fun l => (r.txn, l.txn)) ++ waits later

end LockRequest

/-- An elimination under way: the transactions that are left, and how many waits each of
them still has. -/
structure Elimination where
  left : List TransactionId
  inDegree : TransactionId → Int

namespace Elimination

/-- The start: all transactions of the graph, with the number of edges into each. -/
def start (nodes : List TransactionId) (edges : List (TransactionId × TransactionId)) :
    Elimination :=
  ⟨nodes, fun t => (edges.countP (·.2 = t) : Nat)⟩

/-- Takes a transaction out: each of its edges is one wait less at the other end. -/
def remove (e : Elimination) (edges : List (TransactionId × TransactionId))
    (node : TransactionId) : Elimination :=
  { left := e.left.filter (· ≠ node)
    inDegree := (edges.filter (·.1 = node)).foldl
      (fun degree edge t => if t = edge.2 then degree t - 1 else degree t) e.inDegree }

/-- Takes out the first transaction without waits. When there is none, nothing changes. -/
def step (edges : List (TransactionId × TransactionId)) (e : Elimination) : Elimination :=
  match e.left.find? (e.inDegree · = 0) with
  | some node => e.remove edges node
  | none => e

/-- A number of steps. -/
def steps (edges : List (TransactionId × TransactionId)) : Nat → Elimination → Elimination
  | 0, e => e
  | n + 1, e => steps edges n (e.step edges)

end Elimination

/-- The requests for each page, in the order of their arrival. Pages without requests are
not listed. -/
structure WaitGraph where
  arrivals : FinMap PageId (List LockRequest)
deriving DecidableEq

namespace WaitGraph

/-- A graph without requests. -/
def empty : WaitGraph := ⟨.empty⟩

instance : Inhabited WaitGraph := ⟨empty⟩

/-- The transactions that the lists name, each once. -/
def nodes (lists : List (List LockRequest)) : List TransactionId :=
  (lists.flatten.map LockRequest.txn).eraseDups

/-- All waits that the lists stand for. -/
def edges (lists : List (List LockRequest)) : List (TransactionId × TransactionId) :=
  lists.flatMap LockRequest.waits

/-- The waits have a cycle: taking out transactions without waits, one by one, does not
take out all of them. -/
def hasCycle (lists : List (List LockRequest)) : Bool :=
  let nodes := nodes lists
  let edges := edges lists
  !(((Elimination.start nodes edges).steps edges nodes.length).left.isEmpty)

/-- The requests for a page. -/
def on (g : WaitGraph) (page : PageId) : List LockRequest := (g.arrivals.get? page).getD []

/-- Lists the requests for a page; without requests the page is not listed. -/
def list (g : WaitGraph) (page : PageId) (requests : List LockRequest) : WaitGraph :=
  if requests.isEmpty then ⟨g.arrivals.erase page⟩ else ⟨g.arrivals.insert page requests⟩

/-- A list without the last request of a transaction. -/
def dropLast (txn : TransactionId) (requests : List LockRequest) : List LockRequest :=
  (requests.reverse.eraseP (·.txn = txn)).reverse

/-- Takes the last request of a transaction for a page back. -/
def withdraw (g : WaitGraph) (txn : TransactionId) (page : PageId) : WaitGraph :=
  g.list page (dropLast txn (g.on page))

/-- Forgets all requests of a transaction for a page. -/
def release (g : WaitGraph) (txn : TransactionId) (page : PageId) : WaitGraph :=
  g.list page ((g.on page).filter (·.txn ≠ txn))

/-- Forgets all requests of a transaction. -/
def forget (g : WaitGraph) (txn : TransactionId) : WaitGraph :=
  ⟨g.arrivals.filterMap fun _ requests =>
    let rest := requests.filter (·.txn ≠ txn)
    if rest.isEmpty then none else some rest⟩

/-- What became of a request. -/
inductive Verdict where
  | covered
  | added
  | refused
deriving DecidableEq, Repr

/-- Enters a request. One that an earlier request of the transaction covers changes
nothing; one that would close a cycle is refused and changes nothing either. -/
def request (g : WaitGraph) (txn : TransactionId) (page : PageId) (access : Access) :
    WaitGraph × Verdict :=
  let requests := g.on page
  if requests.any (fun r => r.txn = txn && r.access.covers access) then (g, .covered)
  else
    let entered := g.list page (requests ++ [⟨txn, access⟩])
    if hasCycle entered.arrivals.values then (entered.withdraw txn page, .refused)
    else (entered, .added)

/-- The number of requests. -/
def size (g : WaitGraph) : Nat := g.arrivals.values.flatten.length

/-- No page is listed. -/
def isEmpty (g : WaitGraph) : Bool := g.arrivals.isEmpty

/-- The number of requests of a transaction. -/
def countOf (g : WaitGraph) (txn : TransactionId) : Nat :=
  g.arrivals.values.flatten.countP (·.txn = txn)

end WaitGraph

end PageCache
