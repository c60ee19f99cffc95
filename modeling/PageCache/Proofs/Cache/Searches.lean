-- The search for an empty slot and what it does to the files. A page is appended only after all
-- pages of the table were seen to be full. Whoever has to wait then, or fails, leaves the new page
-- behind; all that comes before it leaves the files as they are.
import PageCache.Proofs.Cache.Moves
import PageCache.Proofs.Cache.Sparing
import PageCache.Proofs.Lock.Wakeups

namespace PageCache

namespace Cache

variable {c c' d : Cache} {id : TableId} {page : PageId} {p : HeapPage} {txn : TransactionId}
  {f : TableFile}

/-! ## Full tables -/

/-- Whoever looks at the page sees no empty slot on it. -/
def IsFull (c : Cache) (page : PageId) : Prop := ∃ p, c.view page = some p ∧ p.freeCount = 0

/-- Every page of the table is full. -/
def AllFull (c : Cache) (id : TableId) : Prop :=
  ∀ n < (c.pageCount id).toNat, c.IsFull ⟨id, .ofNat n⟩

instance (c : Cache) (page : PageId) : Decidable (c.IsFull page) :=
  decidable_of_iff ((c.view page).any (·.freeCount = 0) = true) (by
    rw [Option.any_eq_true, IsFull]
    exact exists_congr fun p => and_congr_right fun _ => decide_eq_true_iff)

instance (c : Cache) (id : TableId) : Decidable (c.AllFull id) :=
  inferInstanceAs (Decidable (∀ n < (c.pageCount id).toNat, c.IsFull ⟨id, .ofNat n⟩))

theorem allFull_congr (hview : ∀ page, c'.view page = c.view page) (hfiles : c.SameFiles c')
    (id : TableId) : c'.AllFull id ↔ c.AllFull id := by
  unfold AllFull IsFull
  simp only [hview, hfiles.pageCount_eq]

/-! ## Tables with one more page -/

/-- The table has one more page, which is blank. Its other pages and all other files are as
before. -/
structure Extended (id : TableId) (c c' : Cache) : Prop where
  grown : ∃ f g, c.tables.get? id = some f ∧ c'.tables.get? id = some g ∧
    g.withoutReads = f.grown.withoutReads
  count : (c'.pageCount id).toNat = (c.pageCount id).toNat + 1
  others : ∀ other, other ≠ id → (c'.tables.get? other).map TableFile.withoutReads =
    (c.tables.get? other).map TableFile.withoutReads

theorem SameFiles.extended (h₁ : c.SameFiles c') (h₂ : c'.Extended id d) : c.Extended id d where
  grown := by
    obtain ⟨f, g, hf, hg, hgrown⟩ := h₂.grown
    obtain ⟨e, he, halike⟩ := h₁.symm.exists_alike hf
    exact ⟨e, g, he, hg, hgrown.trans (TableFile.grown_alike halike.symm)⟩
  count := by rw [h₂.count, h₁.pageCount_eq]
  others other hne := (h₂.others other hne).trans (h₁ other)

theorem Extended.sameFiles (h₁ : c.Extended id c') (h₂ : c'.SameFiles d) : c.Extended id d where
  grown := by
    obtain ⟨f, g, hf, hg, hgrown⟩ := h₁.grown
    obtain ⟨k, hk, halike⟩ := h₂.exists_alike hg
    exact ⟨f, k, hf, hk, halike.trans hgrown⟩
  count := by rw [h₂.pageCount_eq, h₁.count]
  others other hne := (h₂ other).trans (h₁.others other hne)

theorem Grounded.extended_allocate (h : c.Grounded) (hroom : c.HasRoom)
    (hf : c.tables.get? id = some f) :
    c.allocate id = (c.setTable f.grown, .ok ⟨id, c.pageCount id⟩) ∧
      c.Extended id (c.setTable f.grown) := by
  have hkey : f.grown.table = id := h.keyed id f hf
  have hget : ∀ other, (c.setTable f.grown).tables.get? other =
      if other = id then some f.grown else c.tables.get? other := by
    intro other
    rw [get?_setTable, hkey]
  have hself := hget id
  rw [if_pos rfl] at hself
  constructor
  · unfold allocate
    rw [table_eq_ok hf]
    simp only [TableFile.allocate_eq (hroom id f hf), TableFile.pageId, pageCount_eq hf]
    rw [show f.table = id from hkey]
  · refine ⟨⟨f, f.grown, hf, hself, rfl⟩, ?_, fun other hne => by rw [hget, if_neg hne]⟩
    rw [pageCount_eq hself, pageCount_eq hf, TableFile.pageCount_grown, UInt32.toNat_add]
    exact Nat.mod_eq_of_lt (hroom id f hf).2

/-- A page that cannot be counted or held is counted all the same, and the count of a table that is
full to the last number starts again at zero. Nothing is stored. -/
theorem append_of_no_room {job : Insertion} (hf : c.tables.get? job.table = some f)
    (hkey : f.table = job.table) (hnoroom : ¬ f.HasRoom) :
    (c.append txn job).2 = .finished (.error .brokenOff) ∧
      (c.append txn job).1.pageCount job.table = c.pageCount job.table + 1 := by
  have hfails : ∃ g, f.allocate = (g, .error .brokenOff) ∧ g.table = f.table ∧
      g.pageCount = f.pageCount + 1 := by
    unfold TableFile.allocate Disk.allocate
    by_cases hhold : f.disk.isHoldable = true
    · have huncounted : ¬ Disk.isCountable f.disk.pageCount = true := fun hcount =>
        hnoroom ⟨hhold, of_decide_eq_true hcount⟩
      have hlength : (Bytes.zeros f.disk.pageSize).length = f.disk.pageSize :=
        List.length_replicate
      simp only [hhold, if_true, Disk.write, hlength, ne_eq, not_true_eq_false, if_false,
        huncounted]
      exact ⟨_, rfl, rfl, rfl⟩
    · simp only [hhold]
      exact ⟨_, rfl, rfl, rfl⟩
  obtain ⟨g, he, htable, hcount⟩ := hfails
  have happend : c.append txn job = (c.setTable g, .finished (.error .brokenOff)) := by
    rw [append, allocate, table_eq_ok hf]
    simp only [he]
  have hget : (c.setTable g).tables.get? job.table = some g := by
    rw [get?_setTable, if_pos (htable.trans hkey).symm]
  rw [happend, pageCount_eq hget, pageCount_eq hf]
  exact ⟨rfl, hcount⟩

/-! ## What a search does to the files -/

/-- The files are as before, or the table, all of whose pages were full, has one more page. -/
def MayExtend (id : TableId) (c c' : Cache) : Prop :=
  c.SameFiles c' ∨ (c.AllFull id ∧ c.Extended id c')

/-- A request of the transaction that waits cannot be granted now. -/
def Blocked (txn : TransactionId) (c : Cache) : Prop :=
  ∀ r, c.locks.pending.get? txn = some r → c.locks.isGrantable txn r = false

/-- How far a call has come that stores a record in a table. One that has stored it has appended
a page if all pages were full, and else none. One that has failed may have appended it before.
One that waits fails if its wait runs out now. -/
def Stores (txn : TransactionId) (id : TableId) (c : Cache) : Cache × Progress → Prop
  | (c', .finished (.ok _)) =>
    (c.AllFull id ∧ c.Extended id c') ∨ (¬ c.AllFull id ∧ c.SameFiles c')
  | (c', .finished (.error _)) => c.MayExtend id c'
  | (c', .waiting page stage) => c.MayExtend id c' ∧ c'.Blocked txn ∧
      ∀ (d : Cache) e, d.proceed txn page stage (.error e) = (d, .finished (.error e))

theorem MayExtend.after (hview : ∀ page, c'.view page = c.view page) (hfiles : c.SameFiles c')
    (h : c'.MayExtend id d) : c.MayExtend id d := by
  rcases h with hsame | ⟨hfull, hextended⟩
  · exact Or.inl (hfiles.trans hsame)
  · exact Or.inr ⟨(allFull_congr hview hfiles id).1 hfull, hfiles.extended hextended⟩

theorem MayExtend.sameFiles (h₁ : c.MayExtend id c') (h₂ : c'.SameFiles d) : c.MayExtend id d := by
  rcases h₁ with hsame | ⟨hfull, hextended⟩
  · exact Or.inl (hsame.trans h₂)
  · exact Or.inr ⟨hfull, hextended.sameFiles h₂⟩

theorem Stores.after {result : Cache × Progress} (hview : ∀ page, c'.view page = c.view page)
    (hfiles : c.SameFiles c') (h : c'.Stores txn id result) : c.Stores txn id result := by
  obtain ⟨d, outcome | ⟨page, stage⟩⟩ := result
  · rcases outcome with e | reply
    · exact MayExtend.after hview hfiles h
    · rcases h with ⟨hfull, hextended⟩ | ⟨hnot, hsame⟩
      · exact Or.inl ⟨(allFull_congr hview hfiles id).1 hfull, hfiles.extended hextended⟩
      · exact Or.inr ⟨fun hfull => hnot ((allFull_congr hview hfiles id).2 hfull),
          hfiles.trans hsame⟩
  · exact ⟨h.1.after hview hfiles, h.2⟩

/-- A request that was just put off cannot be granted. -/
theorem blocked_of_acquire {locks : Locking} {access : Access}
    (h : c.locks.acquire txn page access = (locks, .waiting)) :
    Blocked txn { c with locks } := by
  rcases c.locks.acquire_cases txn page access with
    ⟨-, he⟩ | ⟨-, waits, verdict, -, ⟨-, he⟩ | ⟨-, -, he⟩ | ⟨-, hg, he⟩⟩ <;>
    rw [he] at h <;> cases h
  intro r hr
  rw [FinMap.get?_insert_self, Option.some.injEq] at hr
  subst hr
  simp only [Locking.isGrantable, LockTable.lockOf_store, if_true]
  rw [PageLock.canGrant_enqueue (Or.inl rfl)]
  exact hg

theorem blocked_of_fetch {access : Access} (h : c.fetch txn page access = (c', .blocked)) :
    c'.Blocked txn := by
  unfold fetch at h
  split at h
  · cases h
  · rcases hacq : c.locks.acquire txn page access with ⟨locks, answer⟩
    rw [hacq] at h
    cases answer with
    | refused => cases h
    | waiting =>
      cases h
      exact blocked_of_acquire hacq
    | granted =>
      simp only at h
      split at h <;> cases h

theorem enterDirty_tables (h : c.enterDirty txn p = .ok c') : c'.tables = c.tables := by
  unfold enterDirty at h
  simp only at h
  split at h
  · cases h
    rfl
  · split at h
    · cases h
    · rename_i d hroom
      have htables : d.tables = c.tables := makeRoom_tables hroom
      cases h
      exact htables

/-- A page that is entered in its place, and perhaps a second time, is changed in memory only. -/
theorem amend_enter_tables (c : Cache) (txn : TransactionId) (p : HeapPage) :
    (c.amend p).tables = c.tables ∧
      ∀ c', (c.amend p).enterDirty txn p = .ok c' → c'.tables = c.tables :=
  ⟨(amend_same c p).1, fun _ h => (enterDirty_tables h).trans (amend_same c p).1⟩

theorem fill_tables (c : Cache) (txn : TransactionId) (job : Insertion) (p : HeapPage) :
    (c.fill txn job p).1.tables = c.tables := by
  unfold fill
  split
  · rfl
  · rename_i q place _
    obtain ⟨hamend, henter⟩ := c.amend_enter_tables txn (q.markDirty txn)
    simp only
    split
    · split
      · exact hamend
      · rename_i h
        exact henter _ h
    · exact hamend

/-- To fetch a page for writing and to fill a slot of it leaves the files as they are. -/
theorem Keyed.sameFiles_fetchAndFill (h : c.Keyed) (txn : TransactionId) (job : Insertion)
    (page : PageId) : c.SameFiles (c.fetchAndFill txn job page).1 := by
  have hfetch := h.sameFiles_fetch txn page .readWrite
  unfold fetchAndFill
  rcases hf : c.fetch txn page .readWrite with ⟨c', p | e | _⟩ <;> rw [hf] at hfetch
  · exact hfetch.trans (.of_eq (fill_tables c' txn job p))
  · exact hfetch
  · exact hfetch

theorem blocked_of_fetchAndFill {job : Insertion} {other : PageId} {stage : Stage}
    (h : c.fetchAndFill txn job page = (c', .waiting other stage)) :
    stage = .fill job ∧ c'.Blocked txn := by
  unfold fetchAndFill at h
  rcases hf : c.fetch txn page .readWrite with ⟨d, p | e | _⟩ <;> rw [hf] at h <;> cases h
  exact ⟨rfl, blocked_of_fetch hf⟩

/-- A page with an empty slot was found. -/
theorem Keyed.stores_fetchAndFill (h : c.Keyed) (txn : TransactionId) (job : Insertion)
    (page : PageId) (hnot : ¬ c.AllFull id) : c.Stores txn id (c.fetchAndFill txn job page) := by
  have hfiles := h.sameFiles_fetchAndFill txn job page
  rcases hf : c.fetchAndFill txn job page with ⟨c', outcome | ⟨other, stage⟩⟩ <;> rw [hf] at hfiles
  · rcases outcome with e | reply
    · exact Or.inl hfiles
    · exact Or.inr ⟨hnot, hfiles⟩
  · obtain ⟨rfl, hblocked⟩ := blocked_of_fetchAndFill hf
    exact ⟨Or.inl hfiles, hblocked, fun _ _ => rfl⟩

/-- There is no page with an empty slot. -/
theorem Grounded.stores_append (h : c.Grounded) (hroom : c.HasRoom) (txn : TransactionId)
    (job : Insertion) (hfull : c.AllFull job.table) :
    c.Stores txn job.table (c.append txn job) := by
  unfold append
  rcases hf : c.tables.get? job.table with _ | f
  · have he : c.allocate job.table = (c, .error (.unknownTable job.table)) := by
      unfold allocate Cache.table
      rw [hf]
    rw [he]
    exact Or.inl (.refl c)
  · obtain ⟨he, hextended⟩ := h.extended_allocate hroom hf
    obtain ⟨hquiet, -⟩ := h.quiet_allocate hroom job.table
    rw [he] at hquiet ⊢
    have hfiles := (h.of_quiet hquiet).keyed.sameFiles_fetchAndFill txn job
      ⟨job.table, c.pageCount job.table⟩
    simp only
    rcases hfill : (c.setTable f.grown).fetchAndFill txn job ⟨job.table, c.pageCount job.table⟩
      with ⟨c', outcome | ⟨other, stage⟩⟩ <;> rw [hfill] at hfiles
    · rcases outcome with e | reply
      · exact Or.inr ⟨hfull, hextended.sameFiles hfiles⟩
      · exact Or.inl ⟨hfull, hextended.sameFiles hfiles⟩
    · obtain ⟨rfl, hblocked⟩ := blocked_of_fetchAndFill hfill
      exact ⟨Or.inr ⟨hfull, hextended.sameFiles hfiles⟩, hblocked, fun _ _ => rfl⟩

/-- To leave a page gives a lock back, and nobody who looks at pages sees it. -/
theorem quiet_leave (c : Cache) (txn : TransactionId) (page : PageId) (held : Bool) :
    c.Quiet (c.leave txn page held) := by
  unfold leave
  split
  · exact .refl c
  · exact .of_same rfl fun _ => rfl

/-- The search goes through the pages of the table from the first one on, and goes past full
pages only. -/
theorem Grounded.stores_seek (h : c.Grounded) (hroom : c.HasRoom) (txn : TransactionId)
    {job : Insertion} {left : Nat} {number : UInt32}
    (hleft : number.toNat + left = (c.pageCount job.table).toNat)
    (hpast : ∀ n < number.toNat, c.IsFull ⟨job.table, .ofNat n⟩) :
    c.Stores txn job.table (seek txn job left number c) := by
  induction left generalizing number c with
  | zero =>
    apply h.stores_append hroom txn job
    intro n hn
    exact hpast n (by omega)
  | succ left ih =>
    obtain ⟨hquiet, hpage⟩ := h.fetch txn ⟨job.table, number⟩ .readOnly
    have hfiles := h.keyed.sameFiles_fetch txn ⟨job.table, number⟩ .readOnly
    unfold seek
    simp only
    rcases hf : c.fetch txn ⟨job.table, number⟩ .readOnly with ⟨c', p | e | _⟩ <;>
      rw [hf] at hquiet hfiles hpage
    · have hview := hpage p rfl
      have hself : UInt32.ofNat number.toNat = number := UInt32.ofNat_toNat
      simp only
      split
      · rename_i hfull
        have hquiet' := hquiet.trans (c'.quiet_leave txn ⟨job.table, number⟩
          (c.holds txn ⟨job.table, number⟩))
        have hfiles' := hfiles.trans (.of_eq (leave_tables c' txn ⟨job.table, number⟩
          (c.holds txn ⟨job.table, number⟩)))
        have hnext : (number + 1).toNat = number.toNat + 1 :=
          TableFile.toNat_succ_of_lt (m := c.pageCount job.table)
            (UInt32.lt_iff_toNat_lt.2 (by omega))
        refine .after hquiet'.view_eq hfiles' (ih (h.of_quiet hquiet')
          (hfiles'.hasRoom hroom) ?_ fun n hn => ?_)
        · rw [hnext, hfiles'.pageCount_eq]
          omega
        · rw [hnext] at hn
          rw [IsFull, hquiet'.view_eq]
          by_cases heq : n = number.toNat
          · rw [heq, hself]
            exact ⟨p, hview, hfull⟩
          · exact hpast n (by omega)
      · rename_i hfree
        refine .after hquiet.view_eq hfiles
          ((h.of_quiet hquiet).keyed.stores_fetchAndFill txn job _ ?_)
        rw [allFull_congr hquiet.view_eq hfiles]
        intro hall
        obtain ⟨q, hq, hnone⟩ := hall number.toNat (by omega)
        rw [hself, hview, Option.some.injEq] at hq
        rw [hq] at hfree
        exact hfree hnone
    · exact Or.inl hfiles
    · exact ⟨Or.inl hfiles, blocked_of_fetch hf, fun _ _ => rfl⟩

/-- A call that stores a record starts at the first page. -/
theorem Grounded.stores_start (h : c.Grounded) (hroom : c.HasRoom) (txn : TransactionId)
    (job : Insertion) : c.Stores txn job.table (c.start txn (.insert job)) := by
  simp only [start, startInsert]
  split
  · exact Or.inl (.refl c)
  · rename_i file htable
    split
    · exact Or.inl (.refl c)
    · apply h.stores_seek hroom txn
      · rw [pageCount_eq (get?_of_table htable)]
        exact Nat.zero_add _
      · intro n hn
        exact absurd hn (Nat.not_lt_zero n)

end Cache

end PageCache
