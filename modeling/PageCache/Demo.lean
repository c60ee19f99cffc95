-- A short tour: committed and aborted insertions, a scan, and a deadlock between two
-- transactions on two pages.
import PageCache.Cache.Session

namespace PageCache

namespace Demo

/-- The columns of the tour's table. -/
def schema : Schema := ⟨[⟨"id", .integer⟩, ⟨"name", .varChar 16⟩]⟩

/-- The tour's table. -/
def table : TableId := ⟨1⟩

/-- The transaction with a number. -/
def txn (n : UInt64) : TransactionId := ⟨n⟩

/-- The tour under way: the session and the lines written so far. A call that fails ends
it. -/
abbrev Tour := StateT (Session × List String) (Except String)

/-- Writes a line. -/
def say (line : String) : Tour Unit := modify fun (s, lines) => (s, lines ++ [line])

/-- Ends the tour if a call that must succeed has failed. -/
def expect {α : Type} (what : String) : Except StoreError α → Tour α
  | .ok a => pure a
  | .error e => throw s!"{what}: {e.message}"

/-- Does something with the session, and lets waiting calls go on: what came of it, and
the calls that finished meanwhile. -/
def withSession {α : Type} (f : Session → Session × α) :
    Tour (α × List (TransactionId × Outcome)) := do
  let (s, lines) ← get
  let (s, a) := f s
  let (s, woken) := s.settleAll
  set (s, lines)
  pure (a, woken)

/-- Runs an action that does not wait. -/
def act {α : Type} (what : String) (f : Cache → Cache × Except StoreError α) : Tour α := do
  expect what (← withSession (·.act f)).1

/-- Runs an operation that finishes at once. -/
def finish (what : String) (txn : TransactionId) (op : Operation) : Tour Reply := do
  match (← withSession (·.submit txn none op)).1 with
  | .finished outcome => expect what outcome
  | _ => throw s!"{what}: still waiting"

/-- Inserts a person into the table: the place of the new record. -/
def insert (txn : TransactionId) (id : Int32) (name : String) : Tour RecordId := do
  let record : Record := ⟨schema, [.integer id, .text name], none⟩
  match ← finish "Failed to insert tuple" txn (.insert ⟨table, record, true⟩) with
  | .location place => pure place
  | _ => throw "Failed to insert tuple"

/-- Fetches a page for writing. -/
def lockPage (txn : TransactionId) (page : PageId) : Tour Unit := do
  let _ ← finish "Failed to lock page" txn (.fetch page .readWrite .view)

/-- Three insertions that are committed. -/
def committedInserts : Tour Unit := do
  let t := txn 1
  for (id, name) in [((1 : Int32), "alice"), (2, "bob"), (3, "carol")] do
    let place ← insert t id name
    say s!"{t.label} inserted ({id.toInt}, {name}) at {place.label}"
  act "Failed to commit" (·.commit t)
  say s!"{t.label} committed"
  say ""

/-- One insertion that is aborted. -/
def abortedInsert : Tour Unit := do
  let t := txn 2
  let _ ← insert t 4 "mallory"
  act "Failed to abort" (·.abort t)
  say s!"{t.label} inserted (4, mallory) and aborted"
  say ""

/-- A scan, which sees only what was committed. -/
def scan : Tour Unit := do
  let t := txn 3
  match ← finish "Failed to scan" t (.scan table) with
  | .rows records =>
    say s!"{t.label} sees {records.length} rows:"
    for r in records do
      say s!"  {r.label}"
  | _ => throw "Failed to scan"
  act "Failed to commit" (·.commit t)
  say ""

/-- Two transactions with a page each want each other's page. The second one is refused
and aborted, and then the first one gets its page. -/
def deadlock : Tour Unit := do
  let first : PageId := ⟨table, 0⟩
  let second ← act "Failed to allocate page" (·.allocate table)
  let (t1, t2) := (txn 4, txn 5)
  lockPage t1 first
  lockPage t2 second
  let _ ← withSession (·.submit t1 none (.fetch second .readWrite .view))
  match (← withSession (·.submit t2 none (.fetch first .readWrite .view))).1 with
  | .finished (.error e) =>
    say s!"{t2.label}: {e.message}"
    act "Failed to abort" (·.abort t2)
  | _ => say s!"{t2.label} unexpectedly got {first.label}"
  let (s, _) ← get
  say s!"{t1.label} now holds {(s.cache.heldPages t1).length} pages"
  act "Failed to commit" (·.commit t1)

/-- The whole tour. -/
def tour : Tour Unit := do
  say "Strata - a transactional page cache in Rust"
  say "==========================================="
  say ""
  say s!"Schema: {schema.label} ({schema.width} bytes per tuple)"
  let (s, lines) ← get
  match s.addTable ⟨table, schema, PageSize.standard⟩ .empty 0 with
  | .ok s => set (s, lines)
  | .error (.store e) => throw s!"Failed to register table: {e.message}"
  | .error _ => throw "Failed to open heap file"
  say s!"Created buffer pool with {s.cache.capacity} pages"
  say ""
  committedInserts
  abortedInsert
  scan
  deadlock
  say ""
  say "Done!"

/-- The lines of the tour, or what went wrong. -/
def lines : Except String (List String) := do
  let (_, (_, lines)) ← tour.run (Session.new { Config.standard with capacity := 10 } none, [])
  pure lines

end Demo

end PageCache
