-- Calls and endings keep track of the pages too, whatever they are interrupted by: each of
-- their stages uses the cache only in the ways that keep to it.
import PageCache.Proofs.Cache.Fetching
import PageCache.Proofs.Cache.Tracking

namespace PageCache

namespace Cache

variable {c c' : Cache} {n : Nat} {page : PageId} {p : HeapPage} {txn : TransactionId}

/-! ## Calls -/

/-- How a call goes on: the pages stay tracked, and if it waits again, it is not for a pin. -/
structure Keeps (n : Nat) (result : Cache × Progress) : Prop where
  tracked : result.1.Tracked n
  no_pin : ∀ page stage, result.2 = .waiting page stage → stage.pins = false

theorem Tracked.keeps_finished (h : c.Tracked n) (outcome : Outcome) :
    Keeps n (c, .finished outcome) := ⟨h, fun _ _ hw => by cases hw⟩

theorem Tracked.keeps_waiting (h : c.Tracked n) (page : PageId) {stage : Stage}
    (hstage : stage.pins = false) : Keeps n (c, .waiting page stage) := by
  refine ⟨h, fun _ _ hw => ?_⟩
  cases hw
  exact hstage

theorem Tracked.fetch (h : c.Tracked n) (txn : TransactionId) (page : PageId) (access : Access) :
    (c.fetch txn page access).1.Tracked n := by
  unfold Cache.fetch
  split
  · exact h
  · rcases c.locks.acquire txn page access with ⟨locks, _ | _ | _⟩
    · have hlocks : ({ c with locks } : Cache).Tracked n := h.of_same rfl rfl rfl
      have hbring := hlocks.bring page
      simp only
      split
      · rename_i d p he
        rw [he] at hbring
        exact hbring
      · rename_i d e he
        rw [he] at hbring
        exact hbring
    · exact h.of_same rfl rfl rfl
    · exact h.of_same rfl rfl rfl

/-- A page that is entered as changed has a place, or is given one. -/
theorem Tracked.enterDirty (h : c.Tracked n) (he : c.enterDirty txn p = .ok c') :
    c'.Tracked n := by
  unfold Cache.enterDirty at he
  simp only at he
  split at he
  · rename_i hres
    cases he
    exact h.enter (p := p.markDirty txn) (Or.inl hres)
  · split at he
    · cases he
    · rename_i d hroom
      cases he
      obtain ⟨hd, hless⟩ := h.makeRoom hroom
      exact hd.enter (p := p.markDirty txn) (Or.inr hless)

theorem Tracked.use (h : c.Tracked n) (txn : TransactionId) (p : HeapPage) {purpose : Purpose}
    (hpins : purpose.pins = false) : (c.use txn p purpose).1.Tracked n := by
  cases purpose with
  | view => exact h
  | viewBefore => exact h
  | pin alone =>
    cases hpins
    exact h
  | insert record mark =>
    unfold Cache.use
    simp only
    split
    · exact h
    · exact h.amend _
  | delete location mark =>
    unfold Cache.use
    simp only
    split
    · exact h
    · exact h.amend _

/-- A page that was changed in its place, and is entered once more if that is to count. -/
theorem Tracked.change (h : c.Tracked n) (txn : TransactionId) (p : HeapPage) (again : Bool)
    (entered changed : Outcome) :
    (if again then
      match (c.amend p).enterDirty txn p with
      | .error e => (c.amend p, .error e)
      | .ok c => (c, entered)
    else (c.amend p, changed)).1.Tracked n := by
  have hamend := h.amend p
  split
  · split
    · exact hamend
    · rename_i d he
      exact hamend.enterDirty he
  · exact hamend

theorem Tracked.fill (h : c.Tracked n) (txn : TransactionId) (job : Insertion) (p : HeapPage) :
    (c.fill txn job p).1.Tracked n := by
  unfold Cache.fill
  rcases p.insert job.record with e | ⟨q, place⟩
  · exact h
  · exact h.change txn (q.markDirty txn) job.tracked _ _

theorem Tracked.removeFrom (h : c.Tracked n) (txn : TransactionId) (job : Deletion)
    (p : HeapPage) : (c.removeFrom txn job p).1.Tracked n := by
  unfold Cache.removeFrom
  rcases p.delete (some job.location) with e | q
  · exact h
  · exact h.change txn (q.markDirty txn) job.tracked _ _

theorem Tracked.fetchAndFill (h : c.Tracked n) (txn : TransactionId) (job : Insertion)
    (page : PageId) : Keeps n (c.fetchAndFill txn job page) := by
  have hfetch := h.fetch txn page .readWrite
  unfold Cache.fetchAndFill
  rcases hf : c.fetch txn page .readWrite with ⟨c', p | e | _⟩ <;> rw [hf] at hfetch
  · exact (hfetch.fill txn job p).keeps_finished _
  · exact hfetch.keeps_finished _
  · exact hfetch.keeps_waiting page rfl

theorem Tracked.allocate (h : c.Tracked n) (id : TableId) : (c.allocate id).1.Tracked n := by
  unfold Cache.allocate
  split
  · exact h
  · exact h.setTable _

theorem Tracked.append (h : c.Tracked n) (txn : TransactionId) (job : Insertion) :
    Keeps n (c.append txn job) := by
  have halloc := h.allocate job.table
  unfold Cache.append
  rcases ha : c.allocate job.table with ⟨c', e | page⟩ <;> rw [ha] at halloc
  · exact halloc.keeps_finished _
  · exact halloc.fetchAndFill txn job page

theorem Tracked.leave (h : c.Tracked n) (txn : TransactionId) (page : PageId) (held : Bool) :
    (c.leave txn page held).Tracked n := by
  unfold Cache.leave
  split
  · exact h
  · exact h.of_same rfl rfl rfl

theorem Tracked.seek (h : c.Tracked n) (txn : TransactionId) (job : Insertion) (left : Nat)
    (number : UInt32) : Keeps n (seek txn job left number c) := by
  induction left generalizing number c with
  | zero => exact h.append txn job
  | succ left ih =>
    have hfetch := h.fetch txn ⟨job.table, number⟩ .readOnly
    unfold Cache.seek
    simp only
    rcases hf : c.fetch txn ⟨job.table, number⟩ .readOnly with ⟨c', p | e | _⟩ <;>
      rw [hf] at hfetch
    · simp only
      split
      · exact ih (hfetch.leave txn _ _) _
      · exact hfetch.fetchAndFill txn job _
    · exact hfetch.keeps_finished _
    · exact hfetch.keeps_waiting _ rfl

theorem Tracked.inspect (h : c.Tracked n) (txn : TransactionId) (job : Deletion) (p : HeapPage) :
    Keeps n (c.inspect txn job p) := by
  unfold Cache.inspect
  simp only
  split
  · exact h.keeps_finished _
  · split
    · exact h.keeps_finished _
    · have hfetch := h.fetch txn job.location.page .readWrite
      rcases hf : c.fetch txn job.location.page .readWrite with ⟨c', q | e | _⟩ <;>
        rw [hf] at hfetch
      · exact (hfetch.removeFrom txn job q).keeps_finished _
      · exact hfetch.keeps_finished _
      · exact hfetch.keeps_waiting _ rfl

theorem Tracked.walk (h : c.Tracked n) (txn : TransactionId) (left : Nat) (draw : Draw) :
    Keeps n (walk txn left draw c) := by
  induction left using Nat.strong_induction_on generalizing draw c with | _ left ih
  rcases walk_cases txn left draw c with ⟨-, he⟩ | ⟨-, -, he⟩ | ⟨-, -, rest, rfl, he⟩ <;> rw [he]
  · exact h.keeps_finished _
  · exact h.keeps_finished _
  · have hfetch := h.fetch txn draw.serve.page .readOnly
    rcases hf : c.fetch txn draw.serve.page .readOnly with ⟨c', p | e | _⟩ <;> rw [hf] at hfetch
    · exact ih rest (Nat.lt_succ_self rest) hfetch _
    · exact hfetch.keeps_finished _
    · exact hfetch.keeps_waiting _ rfl

/-- A call that goes on, with its page or without. -/
theorem Tracked.proceed (h : c.Tracked n) (txn : TransactionId) (page : PageId) {stage : Stage}
    (hstage : stage.pins = false) (result : Except StoreError HeapPage) :
    Keeps n (c.proceed txn page stage result) := by
  cases result with
  | error e => cases stage <;> exact h.keeps_finished _
  | ok p =>
    cases stage with
    | use purpose => exact (h.use txn p hstage).keeps_finished _
    | seek job left next held =>
      unfold Cache.proceed
      simp only
      split
      · exact (h.leave txn page held).seek txn job left next
      · exact h.fetchAndFill txn job page
    | fill job => exact (h.fill txn job p).keeps_finished _
    | inspect job => exact h.inspect txn job p
    | remove job => exact (h.removeFrom txn job p).keeps_finished _
    | walk d => exact h.walk txn _ (d.receive p)

theorem Tracked.ask (h : c.Tracked n) (txn : TransactionId) (page : PageId) (access : Access)
    {stage : Stage} (hstage : stage.pins = false) : Keeps n (c.ask txn page access stage) := by
  have hfetch := h.fetch txn page access
  unfold Cache.ask
  rcases hf : c.fetch txn page access with ⟨c', p | e | _⟩ <;> rw [hf] at hfetch
  · exact hfetch.proceed txn page hstage _
  · exact hfetch.proceed txn page hstage _
  · exact hfetch.keeps_waiting page hstage

theorem Tracked.startInsert (h : c.Tracked n) (txn : TransactionId) (job : Insertion) :
    Keeps n (c.startInsert txn job) := by
  unfold Cache.startInsert
  split
  · exact h.keeps_finished _
  · split
    · exact h.keeps_finished _
    · exact h.seek txn job _ 0

theorem Tracked.startDelete (h : c.Tracked n) (txn : TransactionId) (location : Option RecordId) :
    Keeps n (c.startDelete txn location) := by
  unfold Cache.startDelete
  split
  · exact h.keeps_finished _
  · split
    · exact h.keeps_finished _
    · exact h.ask txn _ .readOnly rfl

theorem Tracked.startDeleteFrom (h : c.Tracked n) (txn : TransactionId) (table : TableId)
    (location : Option RecordId) : Keeps n (c.startDeleteFrom txn table location) := by
  unfold Cache.startDeleteFrom
  split
  · exact h.keeps_finished _
  · exact h.keeps_finished _
  · split
    · exact h.keeps_finished _
    · exact h.ask txn _ .readOnly rfl

theorem Tracked.start (h : c.Tracked n) (txn : TransactionId) {op : Operation}
    (hop : op.pins = false) : Keeps n (c.start txn op) := by
  cases op with
  | fetch page access purpose => exact h.ask txn page access hop
  | insert job => exact h.startInsert txn job
  | delete location => exact h.startDelete txn location
  | deleteFrom table location => exact h.startDeleteFrom txn table location
  | scan table =>
    unfold Cache.start
    simp only
    split
    · exact h.keeps_finished _
    · exact h.walk txn _ _
  | draw cursor count => exact h.walk txn _ _

/-! ## Endings -/

theorem Tracked.tellLog (h : c.Tracked n) (txn : TransactionId) (p : HeapPage) :
    (c.tellLog txn p).1.Tracked n := by
  unfold Cache.tellLog
  split
  · exact h
  · split
    · exact h
    · exact h.of_same rfl rfl rfl

theorem Tracked.writeBack (h : c.Tracked n) (txn : TransactionId) (p : HeapPage) :
    (c.writeBack txn p).1.Tracked n := by
  have htold := h.tellLog txn p
  unfold Cache.writeBack
  split
  · exact h
  · rcases ht : c.tellLog txn p with ⟨c', e | _⟩ <;> rw [ht] at htold
    · exact htold
    · simp only
      split
      · exact htold
      · exact (htold.setTable _).amend _

theorem Tracked.writeBackAll (h : c.Tracked n) (txn : TransactionId) (pages : List PageId) :
    (writeBackAll txn pages c).1.Tracked n := by
  induction pages generalizing c with
  | nil => exact h
  | cons page rest ih =>
    unfold Cache.writeBackAll
    split
    · exact ih h
    · rename_i p hres
      split
      · exact ih h
      · have hwrite := h.writeBack txn p
        rcases hw : c.writeBack txn p with ⟨c', e | _⟩ <;> rw [hw] at hwrite
        · exact hwrite
        · exact ih hwrite

theorem Tracked.releaseAll (h : c.Tracked n) (txn : TransactionId) :
    (c.releaseAll txn).Tracked n := h.of_same rfl rfl rfl

theorem Tracked.commit (h : c.Tracked n) (txn : TransactionId) : (c.commit txn).1.Tracked n := by
  have hwritten := h.writeBackAll txn (c.heldPages txn)
  unfold Cache.commit
  rcases hw : Cache.writeBackAll txn (c.heldPages txn) c with ⟨c', e | _⟩ <;> rw [hw] at hwritten
  · exact hwritten
  · exact hwritten.releaseAll txn

theorem Tracked.reloadAll (h : c.Tracked n) (pages : List PageId) (first : Option StoreError) :
    (reloadAll pages first c).1.Tracked n := by
  induction pages generalizing c first with
  | nil => exact h
  | cons page rest ih =>
    unfold Cache.reloadAll
    split
    · exact ih h first
    · split
      · exact ih h first
      · have hread := h.readPage page.table page
        rcases hr : c.readPage page.table page with ⟨c', e | fresh⟩ <;> rw [hr] at hread
        · exact ih (hread.discard page) _
        · exact ih (hread.amend fresh) first

theorem Tracked.abort (h : c.Tracked n) (txn : TransactionId) : (c.abort txn).1.Tracked n :=
  (h.reloadAll (c.heldPages txn) none).releaseAll txn

theorem Tracked.flush (h : c.Tracked n) (page : PageId) : (c.flush page).1.Tracked n := by
  unfold Cache.flush
  split
  · exact h
  · split
    · exact h
    · exact h.writeBack _ _

theorem Tracked.flushList (h : c.Tracked n) (pages : List PageId) :
    (flushList pages c).1.Tracked n := by
  induction pages generalizing c with
  | nil => exact h
  | cons page rest ih =>
    have hflush := h.flush page
    unfold Cache.flushList
    rcases hf : c.flush page with ⟨c', e | _⟩ <;> rw [hf] at hflush
    · exact hflush
    · exact ih hflush

end Cache

end PageCache
