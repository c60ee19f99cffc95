import PageCache.Main
import PageCache.Row.Draft
import PageCache.Proofs.Page.RoundTrip
import PageCache.Proofs.Page.SlotArray
import PageCache.Proofs.Page.Locality
import PageCache.Proofs.Lock.Deadlock
import PageCache.Proofs.Session.Transparency
import PageCache.Proofs.Session.FailedCommit
import PageCache.Proofs.Session.Eviction
import PageCache.Proofs.Lock.Detection
import PageCache.Proofs.Lock.Effects
import PageCache.Proofs.Lock.Bookkeeping
import PageCache.Proofs.Lock.Exclusion
import PageCache.Proofs.Lock.Overtaking
import PageCache.Proofs.Lock.Wakeups
import PageCache.Proofs.Lock.Refusals
import PageCache.Proofs.Disk.PageArray
import PageCache.Proofs.Session.Rescans
import PageCache.Proofs.Session.ExactEnds
import PageCache.Proofs.Session.FailedCalls
import PageCache.Proofs.Session.FirstFit
import PageCache.Proofs.Session.Footprints
import PageCache.Proofs.Lock.Failures
import PageCache.Proofs.Eviction.WordClock
import PageCache.Proofs.Session.FullPages
import PageCache.Proofs.Session.WriteAhead
import PageCache.Proofs.Session.Readings
import PageCache.Proofs.Row.Reading
import PageCache.Proofs.Page.Snapshots
import PageCache.Proofs.Page.Acceptance
import PageCache.Proofs.Page.Room
import PageCache.Proofs.Lock.States
import PageCache.Proofs.Disk.Allocation
import PageCache.Proofs.Lock.ReadyQueue
