-- The books of the lock table agree. Locks, holdings, queues and the graph of waits are kept
-- apart and changed by hand at each grant, release, time-out and refusal; after every step they
-- say the same, nothing empty is listed, and a transaction that has ended is in none of them.
import PageCache.Proofs.Lock.Detection
import PageCache.Proofs.Lock.Effects

namespace PageCache

/-! ## Values that no key has -/

namespace FinMap

variable {κ α : Type} [DecidableEq κ] {m : FinMap κ α} {x : α}

/-- No key has the value. -/
def Lacks (m : FinMap κ α) (x : α) : Prop := ∀ k, m.get? k ≠ some x

theorem lacks_empty : (empty : FinMap κ α).Lacks x := by
  intro k
  rw [get?_empty]
  intro hx
  cases hx

theorem Lacks.erase (h : m.Lacks x) (k : κ) : (m.erase k).Lacks x := by
  intro j
  rw [get?_erase]
  split
  · intro hx
    cases hx
  · exact h j

theorem Lacks.insert (h : m.Lacks x) (k : κ) {a : α} (ha : a ≠ x) : (m.insert k a).Lacks x := by
  intro j
  rw [get?_insert]
  split
  · rwa [Ne, Option.some.injEq]
  · exact h j

theorem lacks_filterMap {f : κ → α → Option α} (h : ∀ k a, f k a ≠ some x) :
    (m.filterMap f).Lacks x := by
  intro k
  rw [get?_filterMap]
  rcases m.get? k with _ | a
  · intro hx
    cases hx
  · exact h k a

end FinMap

/-! ## Nothing empty is listed -/

namespace WaitGraph

variable {g : WaitGraph} {txn : TransactionId}

theorem lacks_list (h : g.arrivals.Lacks []) (page : PageId) (requests : List LockRequest) :
    (g.list page requests).arrivals.Lacks [] := by
  unfold list
  split
  · exact h.erase page
  · rename_i hne
    exact h.insert page (by simpa using hne)

theorem lacks_request (h : g.arrivals.Lacks []) (txn : TransactionId) (page : PageId)
    (access : Access) : (g.request txn page access).1.arrivals.Lacks [] := by
  unfold request
  dsimp only
  split
  · exact h
  · split
    · exact lacks_list (lacks_list h page _) page _
    · exact lacks_list h page _

theorem lacks_forget : (g.forget txn).arrivals.Lacks [] := by
  apply FinMap.lacks_filterMap
  intro page requests
  dsimp only
  split
  · intro hx
    cases hx
  · rename_i hne
    rw [Ne, Option.some.injEq]
    simpa using hne

end WaitGraph

namespace LockTable

variable {t : LockTable} {txn : TransactionId} {page : PageId} {access : Access}

/-- A listed lock is held or waited for, a listed transaction holds a page, and a listed page
has arrivals. -/
structure Pruned (t : LockTable) : Prop where
  locks : t.locks.Lacks .free
  held : t.held.Lacks []
  arrivals : t.waits.arrivals.Lacks []

namespace Pruned

theorem empty : LockTable.empty.Pruned :=
  ⟨FinMap.lacks_empty, FinMap.lacks_empty, FinMap.lacks_empty⟩

theorem store (h : t.Pruned) (page : PageId) (l : PageLock) : (t.store page l).Pruned := by
  refine ⟨?_, h.held, h.arrivals⟩
  unfold LockTable.store
  dsimp only
  split
  · exact h.locks.erase page
  · rename_i hidle
    apply h.locks.insert page
    rintro rfl
    exact hidle rfl

theorem setHeld (h : t.Pruned) (txn : TransactionId) (pages : List PageId) :
    (t.setHeld txn pages).Pruned := by
  refine ⟨h.locks, ?_, h.arrivals⟩
  unfold LockTable.setHeld
  dsimp only
  split
  · exact h.held.erase txn
  · rename_i hne
    exact h.held.insert txn (by simpa using hne)

theorem setWaits (h : t.Pruned) {waits : WaitGraph} (hw : waits.arrivals.Lacks []) :
    Pruned { t with waits } := ⟨h.locks, h.held, hw⟩

theorem grant (h : t.Pruned) : (t.grant txn page access).Pruned :=
  (h.store page _).setHeld txn _

theorem release (h : t.Pruned) : (t.release txn page).Pruned :=
  ((h.store page _).setWaits (WaitGraph.lacks_list h.arrivals page _)).setHeld txn _

theorem releaseAll (h : t.Pruned) : (t.releaseAll txn).Pruned := by
  have hlist : ∀ pages : List PageId,
      (pages.foldl (fun t page => t.release txn page) t).Pruned := by
    intro pages
    induction pages generalizing t with
    | nil => exact h
    | cons page rest ih => exact ih h.release
  exact (hlist _).setWaits WaitGraph.lacks_forget

end Pruned

end LockTable

namespace Locking

variable {s : Locking} {txn u : TransactionId} {page p : PageId} {access : Access}

theorem pruned_acquire (h : s.table.Pruned) : (s.acquire txn page access).1.table.Pruned := by
  rcases s.acquire_cases txn page access with ⟨-, he⟩ | ⟨-, waits, verdict, hreq, hcase⟩
  · rw [he]
    exact h
  · have hwaits : waits.arrivals.Lacks [] := by
      have hlacks := WaitGraph.lacks_request h.arrivals txn page access
      rwa [hreq] at hlacks
    rcases hcase with ⟨-, he⟩ | ⟨-, -, he⟩ | ⟨-, -, he⟩ <;> rw [he]
    · exact h.setWaits hwaits
    · exact (h.setWaits hwaits).grant
    · exact (h.setWaits hwaits).store page _

theorem pruned_recheck (h : s.table.Pruned) : (s.recheck txn).1.table.Pruned := by
  rcases s.recheck_cases txn with ⟨-, he⟩ | ⟨r, -, ⟨-, he⟩ | ⟨-, he⟩⟩ <;> rw [he]
  · exact h
  · exact h.grant
  · exact h.store r.page _

theorem pruned_expire (h : s.table.Pruned) : (s.expire txn).1.table.Pruned := by
  rcases s.expire_cases txn with ⟨-, he⟩ | ⟨r, -, ⟨-, he⟩ | ⟨-, he⟩⟩ <;> rw [he]
  · exact h
  · exact h.grant
  · apply (h.store r.page _).setWaits
    split
    · exact WaitGraph.lacks_list h.arrivals r.page _
    · exact h.arrivals

/-- Whatever a step empties it takes off the books. -/
theorem pruned_perform (h : s.table.Pruned) (a : LockAction) : (s.perform a).table.Pruned := by
  cases a with
  | acquire txn page access => exact pruned_acquire h
  | recheck txn => exact pruned_recheck h
  | expire txn => exact pruned_expire h
  | release txn page => exact h.release
  | releaseAll txn => exact h.releaseAll

theorem Reachable.pruned (h : s.Reachable) : s.table.Pruned := by
  induction h with
  | empty => exact .empty
  | step a _ _ ih => exact pruned_perform ih a

end Locking

/-! ## The arrivals of a transaction -/

/-- The request is listed, and it covers all others of its transaction. -/
def Strongest (entries : List LockRequest) (r : LockRequest) : Prop :=
  r ∈ entries ∧ ∀ e ∈ entries, e.txn = r.txn → r.access.covers e.access = true

namespace InStep

variable {l : PageLock} {entries : List LockRequest} {txn : TransactionId} {access : Access}

/-- A transaction is in the list when it holds the page or waits for it, and only then. -/
theorem listed_iff (h : InStep l entries) (txn : TransactionId) :
    (∃ e ∈ entries, e.txn = txn) ↔ l.heldBy txn ≠ none ∨ ∃ r ∈ l.queue, r.txn = txn := by
  constructor
  · rintro ⟨e, he, rfl⟩
    rcases h.held_or_queued e he with hq | hc
    · exact Or.inr ⟨e, hq, rfl⟩
    · left
      intro hnone
      rw [hnone] at hc
      cases hc
  · rintro (hheld | ⟨r, hr, rfl⟩)
    · obtain ⟨m, hm⟩ := Option.ne_none_iff_exists'.1 hheld
      exact ⟨⟨txn, m⟩, (h.holder_first ⟨txn, m⟩ hm).subset List.mem_cons_self, rfl⟩
    · exact ⟨r, h.queue_sublist.subset hr, rfl⟩

/-- What a transaction holds is its strongest request, as long as it does not wait. -/
theorem strongest_held (h : InStep l entries) (hm : l.heldBy txn = some access)
    (hq : ∀ r ∈ l.queue, r.txn ≠ txn) : Strongest entries ⟨txn, access⟩ := by
  refine ⟨(h.holder_first ⟨txn, access⟩ hm).subset List.mem_cons_self, ?_⟩
  rintro e he rfl
  rcases h.held_or_queued e he with hqueued | hc
  · exact absurd rfl (hq e hqueued)
  · rwa [hm, Option.any_some] at hc

/-- What a transaction waits for is its strongest request. -/
theorem strongest_queued (h : InStep l entries) (hnd : (l.queue.map LockRequest.txn).Nodup)
    {r : LockRequest} (hr : r ∈ l.queue)
    (hu : (l.heldBy r.txn).any (·.covers r.access) = false) : Strongest entries r := by
  refine ⟨h.queue_sublist.subset hr, ?_⟩
  intro e he ht
  rcases h.held_or_queued e he with hqueued | hc
  · rw [List.inj_on_of_nodup_map hnd hqueued hr ht]
    exact Access.covers_self _
  · rw [ht] at hc
    rcases hm : l.heldBy r.txn with _ | m
    · rw [hm] at hc
      cases hc
    · rw [hm, Option.any_some] at hc hu
      exact Access.covers_of_not_covers hu hc

end InStep

/-! ## Books that agree -/

namespace Locking

variable {s s' : Locking} {txn u : TransactionId} {page p : PageId} {access : Access}

/-- The locks, the holdings, the queues and the graph of waits tell one story. -/
structure Booked (s : Locking) : Prop where
  held_iff : ∀ txn page, page ∈ s.table.heldPages txn ↔
    txn ∈ (s.table.lockOf page).readers ∨ (s.table.lockOf page).writer = some txn
  held_listed : ∀ txn, s.table.held.get? txn ≠ some []
  lock_listed : ∀ page, s.table.locks.get? page ≠ some .free
  /-- The queues hold the requests that wait, and nothing else. -/
  queued_iff : ∀ page (r : LockRequest), r ∈ (s.table.lockOf page).queue ↔
    ∃ entered, s.pending.get? r.txn = some ⟨page, r.access, entered⟩
  one_queue : ∀ p q, ∀ r ∈ (s.table.lockOf p).queue, ∀ r' ∈ (s.table.lockOf q).queue,
    r.txn = r'.txn → p = q
  queued_once : ∀ page, ((s.table.lockOf page).queue.map LockRequest.txn).Nodup
  arrived_iff : ∀ txn page, (∃ e ∈ s.table.waits.on page, e.txn = txn) ↔
    s.table.heldMode txn page ≠ none ∨ ∃ r ∈ (s.table.lockOf page).queue, r.txn = txn
  strongest_held : ∀ txn page access, s.table.heldMode txn page = some access →
    (∀ r ∈ (s.table.lockOf page).queue, r.txn ≠ txn) →
    Strongest (s.table.waits.on page) ⟨txn, access⟩
  strongest_queued : ∀ page, ∀ r ∈ (s.table.lockOf page).queue,
    Strongest (s.table.waits.on page) r

/-- `s'` are the locks `s` without the transaction: it is on no book any more, and on every
book the rest stands as it stood. -/
structure Without (s : Locking) (txn : TransactionId) (s' : Locking) : Prop where
  held_gone : s'.table.held.get? txn = none
  held_same : ∀ u, u ≠ txn → s'.table.held.get? u = s.table.held.get? u
  readers : ∀ page, (s'.table.lockOf page).readers =
    (s.table.lockOf page).readers.filter (· ≠ txn)
  writer : ∀ page, (s'.table.lockOf page).writer =
    (s.table.lockOf page).writer.filter (· ≠ txn)
  queue : ∀ page, (s'.table.lockOf page).queue = (s.table.lockOf page).queue
  queue_gone : ∀ page, ∀ r ∈ (s'.table.lockOf page).queue, r.txn ≠ txn
  arrivals : ∀ page, s'.table.waits.on page = (s.table.waits.on page).filter (·.txn ≠ txn)
  pending : s'.pending = s.pending

theorem heldMode_ne_none_iff : s.table.heldMode txn page ≠ none ↔
    txn ∈ (s.table.lockOf page).readers ∨ (s.table.lockOf page).writer = some txn := by
  unfold LockTable.heldMode PageLock.heldBy
  split
  · rename_i hw
    simp [hw]
  · rename_i hw
    split <;> simp_all

theorem Reachable.booked (h : s.Reachable) : s.Booked where
  held_iff txn page := by rw [h.orderly.tidy.mem_heldPages, heldMode_ne_none_iff]
  held_listed := h.pruned.held
  lock_listed := h.pruned.locks
  queued_iff := h.orderly.mem_queue_iff
  one_queue p q r hr r' hr' ht := by
    obtain ⟨entered, hp⟩ := (h.orderly.mem_queue_iff q r').1 hr'
    exact (h.orderly.own_request hp hr ht).1
  queued_once := h.orderly.queue_nodup
  arrived_iff txn page := (h.traced.in_step page).listed_iff txn
  strongest_held _ page _ hm hq := (h.traced.in_step page).strongest_held hm hq
  strongest_queued page r hr := by
    obtain ⟨entered, hp⟩ := (h.orderly.mem_queue_iff page r).1 hr
    exact (h.traced.in_step page).strongest_queued (h.orderly.queue_nodup page) hr
      (h.orderly.uncovered r.txn _ hp)

end Locking

/-! ## After an end -/

namespace PageLock

variable {l : PageLock} {txn : TransactionId}

theorem readers_release (h : l.Exclusive) :
    (l.release txn).1.readers = l.readers.filter (· ≠ txn) := by
  unfold release
  split
  · rename_i hw
    simp [h txn hw]
  · split
    · rfl
    · rename_i hr
      refine (List.filter_eq_self.2 fun r hmem => ?_).symm
      simpa using fun heq : r = txn => hr (heq ▸ hmem)

theorem writer_release : (l.release txn).1.writer = l.writer.filter (· ≠ txn) := by
  unfold release
  split
  · rename_i hw
    rw [hw]
    simp [Option.filter]
  · rename_i hw
    have hkeep : l.writer.filter (· ≠ txn) = l.writer := by
      rcases hl : l.writer with _ | w
      · rfl
      · simpa [hl] using hw
    rw [hkeep]
    split <;> rfl

end PageLock

namespace LockTable

variable {t : LockTable} {txn u : TransactionId} {page p : PageId}

theorem get?_held_release (hu : u ≠ txn) :
    (t.release txn page).held.get? u = t.held.get? u := by
  unfold release setHeld
  dsimp only
  split
  · rw [FinMap.get?_erase, if_neg hu]
    rfl
  · rw [FinMap.get?_insert, if_neg hu]
    rfl

/-- Releasing pages changes the pages listed for the transaction only. -/
theorem get?_held_releaseAll (hu : u ≠ txn) :
    (t.releaseAll txn).held.get? u = t.held.get? u := by
  have hlist : ∀ pages : List PageId,
      (pages.foldl (fun t page => t.release txn page) t).held.get? u = t.held.get? u := by
    intro pages
    induction pages generalizing t with
    | nil => rfl
    | cons page rest ih => rw [List.foldl_cons, ih, get?_held_release hu]
  exact hlist _

theorem on_releaseList (pages : List PageId) :
    ((pages.foldl (fun t page => t.release txn page) t).waits.on p).filter (·.txn ≠ txn) =
      (t.waits.on p).filter (·.txn ≠ txn) := by
  induction pages generalizing t with
  | nil => rfl
  | cons page rest ih =>
    rw [List.foldl_cons, ih, waits_release, WaitGraph.on_release]
    split
    · rename_i hp
      rw [List.filter_filter, hp]
      simp
    · rfl

theorem on_releaseAll :
    (t.releaseAll txn).waits.on p = (t.waits.on p).filter (·.txn ≠ txn) := by
  rw [← on_releaseList (t.heldPages txn)]
  exact WaitGraph.on_forget

end LockTable

namespace Locking

variable {s : Locking} {txn : TransactionId}

theorem Reachable.without_releaseAll (h : s.Reachable) (hw : s.isWaiting txn = false) :
    s.Without txn (s.releaseAll txn) := by
  have htidy := h.orderly.tidy
  have hafter : (s.releaseAll txn).Reachable := .step (.releaseAll txn) h hw
  have hqueue : ∀ page, ((s.releaseAll txn).table.lockOf page).queue =
      (s.table.lockOf page).queue := by
    intro page
    rw [releaseAll, LockTable.lockOf_releaseAll htidy, PageLock.queue_release]
  constructor
  · -- a set of held pages would be listed with a page in it
    rcases hheld : (s.releaseAll txn).table.held.get? txn with _ | pages
    · rfl
    · rcases pages with _ | ⟨page, rest⟩
      · exact absurd hheld (hafter.pruned.held txn)
      · have hmem : page ∈ (s.releaseAll txn).table.heldPages txn := by
          simp [LockTable.heldPages, hheld]
        rw [hafter.orderly.tidy.mem_heldPages, releaseAll, LockTable.heldMode_releaseAll htidy,
          if_pos rfl] at hmem
        exact absurd rfl hmem
  · intro u hu
    exact LockTable.get?_held_releaseAll hu
  · intro page
    rw [releaseAll, LockTable.lockOf_releaseAll htidy,
      PageLock.readers_release (htidy.exclusive page)]
  · intro page
    rw [releaseAll, LockTable.lockOf_releaseAll htidy, PageLock.writer_release]
  · exact hqueue
  · intro page
    rw [hqueue]
    exact h.orderly.not_queued (isWaiting_eq_false_iff.1 hw) page
  · intro page
    exact LockTable.on_releaseAll
  · rfl

/-! ## The law -/

/-- In every run the books agree, and the end of a transaction takes it off all of them. -/
theorem books_agree (h : s.Reachable) :
    s.Booked ∧ ∀ txn, s.isWaiting txn = false → s.Without txn (s.releaseAll txn) :=
  ⟨h.booked, fun _ hw => h.without_releaseAll hw⟩

/-- The reader that does not wait ends: the other one holds the page as before and waits on. -/
theorem books_agree_in_upgrading :
    upgrading.Booked ∧ upgrading.Without ⟨2⟩ (upgrading.releaseAll ⟨2⟩) ∧
      upgrading.table.waits.on ⟨⟨1⟩, 0⟩ =
        [⟨⟨1⟩, .readOnly⟩, ⟨⟨2⟩, .readOnly⟩, ⟨⟨1⟩, .readWrite⟩] ∧
      (upgrading.releaseAll ⟨2⟩).table.waits.on ⟨⟨1⟩, 0⟩ =
        [⟨⟨1⟩, .readOnly⟩, ⟨⟨1⟩, .readWrite⟩] := by
  obtain ⟨hbooked, hwithout⟩ := books_agree upgrading_reachable
  exact ⟨hbooked, hwithout ⟨2⟩ (by decide), by decide, by decide⟩

end Locking

end PageCache
