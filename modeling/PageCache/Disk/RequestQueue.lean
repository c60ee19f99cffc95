-- A queue of disk requests with one worker that serves them in order. A request that
-- breaks off stops the worker for good; from then on every request fails.
import PageCache.Disk.Basic

namespace PageCache

/-- What is asked of the worker. -/
inductive DiskRequest where
  | read (page : UInt32)
  | write (page : UInt32) (data : Bytes)
deriving DecidableEq, Repr

/-- What the worker answers. -/
inductive DiskReply where
  | data (bytes : Bytes)
  | written
deriving DecidableEq, Repr

/-- A disk with a worker in front of it. -/
structure RequestQueue where
  disk : Disk
  serving : Bool
deriving DecidableEq, Repr

namespace RequestQueue

/-- A queue with its worker at work. -/
def start (disk : Disk) : RequestQueue := ⟨disk, true⟩

/-- The failure of a request that no worker serves. -/
def unserved : StoreError := .requestLost "no worker served the request"

/-- How the user of a worker sees a failure on the disk. -/
def seen : StoreError → StoreError
  | .brokenOff => unserved
  | e => e

/-- The queue and the answer after a request that came out as given. -/
def settle (disk : Disk) : Except StoreError DiskReply →
    RequestQueue × Except StoreError DiskReply
  | .ok reply => (⟨disk, true⟩, .ok reply)
  | .error e => (⟨disk, e ≠ .brokenOff⟩, .error (seen e))

/-- Serves one request. -/
def serve (q : RequestQueue) (request : DiskRequest) :
    RequestQueue × Except StoreError DiskReply :=
  if !q.serving then (q, .error unserved)
  else
    match request with
    | .read page =>
      match q.disk.read page with
      | .ok (disk, bytes) => settle disk (.ok (.data bytes))
      | .error e => settle q.disk (.error e)
    | .write page data =>
      let (disk, result) := q.disk.write page data
      settle disk (result.map fun _ => .written)

/-- Serves requests in the order of the queue, with one answer for each. -/
def serveAll (q : RequestQueue) :
    List DiskRequest → RequestQueue × List (Except StoreError DiskReply)
  | [] => (q, [])
  | request :: rest =>
    let (q, reply) := q.serve request
    let (q, replies) := q.serveAll rest
    (q, reply :: replies)

end RequestQueue

end PageCache
