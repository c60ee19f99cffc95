-- Whether a record that suits its table finds a place. Wherever the search sees an empty slot it
-- holds the page from then on, so the slot stays; a new page is blank, but whoever has to wait for
-- its lock finds it as the others have left it. All other failures lie in the circumstances.
import PageCache.Proofs.Cache.Alike
import PageCache.Proofs.Cache.Searches

namespace PageCache

/-- The failure lies in the circumstances: a lock is not to be had, the cache is full, the bytes
of a page are damaged, or the disk fails. -/
def StoreError.isCircumstance : StoreError → Bool
  | .wouldDeadlock .. | .waitTimeout .. | .cacheFull _ | .corruptPage .. | .io _
  | .requestLost _ => true
  | _ => false

/-- The reply tells of the place where a record was stored. -/
def Reply.TellsOf (reply : Reply) (place : RecordId) : Prop :=
  reply = .location place ∨ reply = .stored place [place.page]

namespace HeapPage

/-- All slots of a blank page are empty. -/
theorem freeCount_blank (id : PageId) (schema : Schema) (size : Nat) :
    (blank id schema size).freeCount = (blank id schema size).slotCount := by
  simp [freeCount, slotCount, blank, Array.countP_replicate]

end HeapPage

/-- A page of the table cannot be read because its bytes are damaged, or because of the disk. -/
theorem TableFile.isCircumstance_of_read {f : TableFile} {page : PageId} {e : StoreError}
    (htable : page.table = f.table) (hrange : page.number < f.pageCount)
    (h : (f.read page).2 = .error e) : e.isCircumstance = true := by
  have hcheck : f.check page = .ok () := by
    rw [check, if_neg (by simpa using htable), if_neg (by simpa using hrange)]
  rw [read_eq, hcheck] at h
  simp only at h
  split at h
  · simp only at h
    unfold HeapPage.ofImage at h
    split at h
    · cases h
      rfl
    · simp only at h
      split at h <;> cases h
      rfl
  · cases h
    unfold Disk.readFailure
    split <;> rfl

namespace Cache

variable {c c' d : Cache} {page : PageId} {p : HeapPage} {txn : TransactionId} {f : TableFile}
  {e : StoreError} {access : Access} {job : Insertion}

/-! ## Records that suit their table -/

/-- The record has the schema of its table and fits it, and the pages of the table have slots. -/
def Suits (c : Cache) (job : Insertion) : Prop :=
  ∃ f, c.tables.get? job.table = some f ∧ job.record.schema = f.schema ∧
    job.record.fits = true ∧ 0 < Geometry.slots f.disk.pageSize f.schema.width

instance (c : Cache) (job : Insertion) : Decidable (c.Suits job) :=
  decidable_of_iff ((c.tables.get? job.table).any (fun f => job.record.schema = f.schema ∧
      job.record.fits = true ∧ 0 < Geometry.slots f.disk.pageSize f.schema.width) = true) (by
    rw [Option.any_eq_true, Suits]
    exact exists_congr fun f => and_congr_right fun _ => decide_eq_true_iff)

/-- There is an empty slot on the page, if it has slots at all. -/
def HasSlot (c : Cache) (page : PageId) : Prop :=
  ∃ p, c.view page = some p ∧ (p.freeCount = 0 → p.slotCount = 0)

theorem Suits.of_grows (h : c.Suits job) (hgrows : c.Grows c') : c'.Suits job := by
  obtain ⟨f, hf, hschema, hfits, hslots⟩ := h
  obtain ⟨g, hg, hfg⟩ := hgrows.grows _ f hf
  refine ⟨g, hg, by rw [hschema, hfg.schema_eq], hfits, ?_⟩
  rw [hfg.pageSize_eq, hfg.schema_eq]
  exact hslots

/-- The pages of the table take the record, as far as there is an empty slot. -/
theorem Suits.accepts (h : c.Suits job) (hc : c.Sound) (htable : page.table = job.table)
    (hview : c.view page = some p) : p.accepts job.record = true ∧ p.slotCount ≠ 0 := by
  obtain ⟨f, hf, hschema, hfits, hslots⟩ := h
  obtain ⟨q, hq, hproper, hover⟩ := hc.lies_over page p hview
  rw [onDisk, htable, hf] at hq
  obtain ⟨-, -, hqschema, hqsize, -⟩ := TableFile.stored_proper hq
  have hpschema : p.schema = f.schema := hover.schema_eq.trans hqschema
  constructor
  · simp [HeapPage.accepts, hschema, hpschema, hfits]
  · rw [HeapPage.slotCount, hproper.slot_count, hover.size_eq, hqsize, hpschema]
    exact Nat.ne_of_gt hslots

/-- What comes of filling a slot of a page that is there. -/
theorem Suits.fill_outcome (h : c.Suits job) (hc : c.Sound) (txn : TransactionId)
    (htable : page.table = job.table) (hres : c.residentPage page = some p) :
    (p.freeCount = 0 → c.fill txn job p = (c, .error (.pageFull page))) ∧
      (p.freeCount ≠ 0 → ∃ reply, (c.fill txn job p).2 = .ok reply) := by
  have hview := view_of_resident hres
  have hid := hc.id_eq hview
  obtain ⟨hacc, -⟩ := h.accepts hc htable hview
  unfold fill
  constructor
  · intro hfull
    rw [HeapPage.insert_of_full hacc hfull, hid]
  · intro hfree
    obtain ⟨q, place, hins⟩ := HeapPage.insert_of_free hacc hfree
    have hqid : (q.markDirty txn).id = page := (HeapPage.id_of_insert hins).trans hid
    rw [← hqid] at hres
    rw [hins]
    simp only
    rw [enterDirty_amend hres]
    split
    · exact ⟨_, rfl⟩
    · exact ⟨_, rfl⟩

/-- The place that a call was told for its record is an empty slot of a page of its table. -/
def Finds (c : Cache) (job : Insertion) (reply : Reply) : Prop :=
  ∃ place p, (reply = .location place ∨ reply = .stored place [place.page]) ∧
    place.page.table = job.table ∧ c.view place.page = some p ∧
      p.slots[place.slot.toNat]? = some none

theorem Finds.after {reply : Reply} (hview : ∀ page, c'.view page = c.view page)
    (h : c'.Finds job reply) : c.Finds job reply := by
  obtain ⟨place, p, hreply, htable, hp, hslot⟩ := h
  exact ⟨place, p, hreply, htable, (hview _).symm.trans hp, hslot⟩

theorem Sound.fill_finds (hc : c.Sound) (htable : page.table = job.table)
    (hres : c.residentPage page = some p) {reply : Reply}
    (h : (c.fill txn job p).2 = .ok reply) : c.Finds job reply := by
  have hview := view_of_resident hres
  obtain ⟨-, -, hproper, -⟩ := hc.lies_over page p hview
  have hid := hc.id_eq hview
  unfold fill at h
  rcases hins : p.insert job.record with e | ⟨q, place⟩ <;> rw [hins] at h
  · cases h
  · obtain ⟨rfl, hplace, -⟩ := HeapPage.insert_ok hproper hins
    have hpage : place.page = page := hplace.trans hid
    refine ⟨place, p, ?_, by rw [hpage, htable], by rw [hpage, hview],
      HeapPage.vacant_of_insert hproper hins⟩
    rw [hplace]
    simp only at h
    split at h
    · split at h <;> cases h
      exact Or.inl rfl
    · cases h
      exact Or.inr rfl

/-! ## Pages that are not to be had -/

theorem exists_table_of_lt {id : TableId} {number : UInt32} (h : number < c.pageCount id) :
    ∃ f, c.tables.get? id = some f ∧ number < f.pageCount := by
  unfold pageCount at h
  split at h
  · rename_i f hf
    exact ⟨f, hf, h⟩
  · exact absurd h UInt32.not_lt_zero

/-- A page of a table that cannot be brought in is not there. -/
theorem bring_failed (hkeyed : ∀ id f, c.tables.get? id = some f → f.table = id)
    (hrange : page.number < c.pageCount page.table) (he : (c.bring page).2 = .error e) :
    e.isCircumstance = true ∧ (c.bring page).1.residentPage page = none := by
  obtain ⟨f, hf, hlt⟩ := exists_table_of_lt hrange
  unfold Cache.bring at *
  rcases hres : c.resident.get? page with _ | frame <;> rw [hres] at he
  · have hnone : c.residentPage page = none := by rw [residentPage, hres]; rfl
    rw [table_eq_ok hf] at he ⊢
    simp only at he ⊢
    rcases hread : f.read page with ⟨g, e' | p⟩ <;> rw [hread] at he
    · cases he
      exact ⟨TableFile.isCircumstance_of_read (hkeyed _ f hf).symm hlt (by rw [hread]), hnone⟩
    · simp only at he ⊢
      rcases hmake : (c.setTable g).makeRoom with e' | d <;> rw [hmake] at he <;> cases he
      rw [exhausted_of_makeRoom hmake]
      exact ⟨rfl, hnone⟩
  · cases he

/-- Another transaction holds the lock of the page, or waits for it. -/
def Contested (c : Cache) (txn : TransactionId) (page : PageId) : Prop :=
  ∃ u, u ≠ txn ∧ (c.holds u page = true ∨
    ∃ r, c.locks.pending.get? u = some r ∧ r.page = page)

/-- A request that cannot be granted has others before it. -/
theorem contested_of_not_canGrant (ho : c.locks.Orderly)
    (h : (c.locks.table.lockOf page).canGrant txn access = false) : c.Contested txn page := by
  rw [PageLock.canGrant, Bool.and_eq_false_iff] at h
  rcases h with hheld | hahead
  · obtain ⟨u, m, hne, hm, -⟩ :=
      PageLock.exists_excluding_holder (ho.tidy.exclusive page) hheld
    refine ⟨u, hne, Or.inl (LockTable.holds_iff.2 ?_)⟩
    rw [show c.locks.table.heldMode u page = some m from hm]
    simp
  · obtain ⟨r, hr, -⟩ := List.all_eq_false.1 hahead
    obtain ⟨entered, hp⟩ := (ho.mem_queue_iff page r).1 (PageLock.mem_queue_of_mem_ahead hr)
    exact ⟨r.txn, PageLock.txn_ne_of_mem_ahead hr, Or.inr ⟨_, hp, rfl⟩⟩

/-- A request that is put off changes no holdings, and others are before it. -/
theorem contested_of_acquire {locks : Locking} (ho : c.locks.Orderly)
    (h : c.locks.acquire txn page access = (locks, .waiting)) :
    Contested { c with locks } txn page ∧
      ∀ u other, holds { c with locks } u other = c.holds u other := by
  rcases c.locks.acquire_cases txn page access with
    ⟨-, he⟩ | ⟨-, waits, verdict, -, ⟨-, he⟩ | ⟨-, -, he⟩ | ⟨-, hg, he⟩⟩ <;>
    rw [he] at h <;> cases h
  have hholds : ∀ u other, (LockTable.store { c.locks.table with waits } page
      ((c.locks.table.lockOf page).enqueue txn access)).holds u other =
        c.locks.table.holds u other := by
    intro u other
    exact congrArg Option.isSome
      (LockTable.heldMode_store (fun _ => PageLock.heldBy_enqueue) u other)
  refine ⟨?_, hholds⟩
  obtain ⟨u, hne, hheld | ⟨r, hr, hpage⟩⟩ := contested_of_not_canGrant ho hg
  · exact ⟨u, hne, Or.inl ((hholds u page).trans hheld)⟩
  · refine ⟨u, hne, Or.inr ⟨r, ?_, hpage⟩⟩
    rw [FinMap.get?_insert, if_neg hne]
    exact hr

/-- What comes of the wish for a page of a table when the page is not to be had. -/
theorem Ready.fetch_denied (h : c.Ready txn) (hrange : page.number < c.pageCount page.table) :
    (∀ e, (c.fetch txn page access).2 = .failed e → e.isCircumstance = true) ∧
      ((c.fetch txn page access).2 = .blocked → (c.fetch txn page access).1.Contested txn page ∧
        ∀ u other, (c.fetch txn page access).1.holds u other = c.holds u other) := by
  obtain ⟨f, hf, -⟩ := exists_table_of_lt hrange
  unfold Cache.fetch
  rw [table_eq_ok hf]
  simp only
  rcases hacq : c.locks.acquire txn page access with ⟨locks, answer⟩
  cases answer with
  | refused =>
    refine ⟨fun e he => ?_, fun hb => (by cases hb)⟩
    cases he
    rfl
  | waiting => exact ⟨fun e he => (by cases he), fun _ => contested_of_acquire h.orderly hacq⟩
  | granted =>
    simp only
    rcases hbring : Cache.bring { c with locks } page with ⟨c', e' | p⟩
    · refine ⟨fun e he => ?_, fun hb => (by cases hb)⟩
      cases he
      exact (@bring_failed { c with locks } page e' h.sound.keyed hrange (by rw [hbring])).1
    · exact ⟨fun e he => (by cases he), fun hb => (by cases hb)⟩

/-! ## Calls that wait in their search -/

/-- A call waits for a page that its search has come to, or for one where it is to fill a slot.
In that case there is a slot if the transaction holds the page already. -/
def Aims (c : Cache) (txn : TransactionId) (page : PageId) : Stage → Prop
  | .seek job left next _ => page.table = job.table ∧ page.number < c.pageCount page.table ∧
      next.toNat + left ≤ (c.pageCount page.table).toNat
  | .fill job => page.table = job.table ∧ page.number < c.pageCount page.table ∧
      (c.holds txn page = true → c.HasSlot page)
  | _ => True

/-- A call is to fill a slot on a page that its transaction does not hold yet. -/
def IsLate (c : Cache) (txn : TransactionId) (page : PageId) : Stage → Prop
  | .fill _ => c.holds txn page = false
  | _ => False

/-- Where a call has come to, if it waits. It waits to fill a slot of a page that it does not hold
only if it has just appended that page and others were quicker to ask for its lock. -/
def Lands (txn : TransactionId) (c : Cache) (result : Cache × Progress) : Prop :=
  ∀ page stage, result.2 = .waiting page stage → result.1.Aims txn page stage ∧
    (result.1.IsLate txn page stage → page.number = c.pageCount page.table ∧
      c.Extended page.table result.1 ∧ result.1.Contested txn page)

/-- How far the search for a record's place has come. If it has found one, the record fills an
empty slot. If the record suits its table, the search fails for the circumstances only. -/
structure Places (txn : TransactionId) (job : Insertion) (c : Cache)
    (result : Cache × Progress) : Prop where
  lands : c.Lands txn result
  finds : ∀ reply, result.2 = .finished (.ok reply) → c.Finds job reply
  fails : c.Suits job → ∀ e, result.2 = .finished (.error e) → e.isCircumstance = true

theorem Places.after {result : Cache × Progress} (hview : ∀ page, c'.view page = c.view page)
    (hfiles : c.SameFiles c') (h : c'.Places txn job result) : c.Places txn job result where
  lands page stage hw := by
    refine ⟨(h.lands page stage hw).1, fun hlate => ?_⟩
    obtain ⟨hnumber, hextended, hcontested⟩ := (h.lands page stage hw).2 hlate
    exact ⟨by rw [hnumber, hfiles.pageCount_eq], hfiles.extended hextended, hcontested⟩
  finds reply hdone := (h.finds reply hdone).after hview
  fails hsuits := h.fails (hsuits.of_grows hfiles.grows)

/-- A call that has failed waits for nothing. -/
theorem places_error (hfails : c.Suits job → e.isCircumstance = true) :
    c.Places txn job (c', .finished (.error e)) where
  lands _ _ hw := by cases hw
  finds _ hdone := by cases hdone
  fails hsuits e' he := by
    cases he
    exact hfails hsuits

/-- A page with an empty slot is fetched for writing. -/
theorem Ready.fetchAndFill_cases (h : c.Ready txn) (htable : page.table = job.table)
    (hrange : page.number < c.pageCount page.table) (hslot : c.HasSlot page) :
    (c.Suits job → ∀ e, (c.fetchAndFill txn job page).2 = .finished (.error e) →
      e.isCircumstance = true) ∧
    ∀ other stage, (c.fetchAndFill txn job page).2 = .waiting other stage →
      other = page ∧ stage = .fill job ∧ (c.fetchAndFill txn job page).1.Aims txn page stage ∧
        (c.fetchAndFill txn job page).1.holds txn page = c.holds txn page ∧
        (c.fetchAndFill txn job page).1.Contested txn page := by
  obtain ⟨hcalm, hfiles, hanswer⟩ := h.fetch page .readWrite
  have hdenied := @fetch_denied c page txn .readWrite h hrange
  unfold fetchAndFill
  rcases hf : c.fetch txn page .readWrite with ⟨c', p | e | _⟩ <;>
    rw [hf] at hcalm hfiles hanswer hdenied
  · obtain ⟨hidle, hview, hres, -⟩ := hanswer
    refine ⟨fun hsuits e he => ?_, fun _ _ hw => (by cases hw)⟩
    have hready := hcalm.ready h.sound hidle
    have hsuits' := hsuits.of_grows hcalm.quiet.toGrows
    obtain ⟨-, hcount⟩ := hsuits'.accepts hready.sound htable (view_of_resident hres)
    obtain ⟨q, hq, hslots⟩ := hslot
    rw [hview, Option.some.injEq] at hq
    subst hq
    obtain ⟨reply, hok⟩ := (hsuits'.fill_outcome hready.sound txn htable hres).2
      fun hfull => hcount (hslots hfull)
    simp only [finish, hok] at he
    cases he
  · exact ⟨fun _ e' he => (by cases he; exact hdenied.1 e rfl), fun _ _ hw => (by cases hw)⟩
  · refine ⟨fun _ _ he => (by cases he), fun other stage hw => ?_⟩
    cases hw
    obtain ⟨hcontested, hholds⟩ := hdenied.2 rfl
    refine ⟨rfl, rfl, ⟨htable, ?_, fun _ => ?_⟩, hholds txn page, hcontested⟩
    · rw [hfiles.pageCount_eq]
      exact hrange
    · obtain ⟨p, hp, hslots⟩ := hslot
      exact ⟨p, (hcalm.quiet.view_eq page).trans hp, hslots⟩

theorem Ready.fetchAndFill_finds (h : c.Ready txn) (htable : page.table = job.table)
    {reply : Reply} (hdone : (c.fetchAndFill txn job page).2 = .finished (.ok reply)) :
    c.Finds job reply := by
  obtain ⟨hcalm, -, hanswer⟩ := h.fetch page .readWrite
  unfold fetchAndFill at hdone
  rcases hf : c.fetch txn page .readWrite with ⟨c', p | e | _⟩ <;>
    rw [hf] at hcalm hanswer hdone
  · obtain ⟨hidle, -, hres, -⟩ := hanswer
    simp only [finish, Progress.finished.injEq] at hdone
    exact ((hcalm.ready h.sound hidle).sound.fill_finds htable hres hdone).after hcalm.quiet.view_eq
  · cases hdone
  · cases hdone

/-- The slot was seen on a page that the transaction holds. -/
theorem Ready.places_fetchAndFill (h : c.Ready txn) (htable : page.table = job.table)
    (hrange : page.number < c.pageCount page.table) (hslot : c.HasSlot page)
    (hholds : c.holds txn page = true) : c.Places txn job (c.fetchAndFill txn job page) := by
  obtain ⟨hfails, hwaits⟩ := h.fetchAndFill_cases htable hrange hslot
  refine ⟨fun other stage hw => ?_, fun _ => h.fetchAndFill_finds htable, hfails⟩
  obtain ⟨rfl, rfl, haims, hsame, -⟩ := hwaits other stage hw
  refine ⟨haims, fun hlate => ?_⟩
  rw [IsLate, hsame, hholds] at hlate
  cases hlate

/-- A page that would be the next one of its table is seen as a blank one, before and after it was
appended. -/
theorem Sound.view_appended (h : c.Sound) {id : TableId} (hf : c.tables.get? id = some f) :
    c.view ⟨id, c.pageCount id⟩ =
      some (.blank ⟨id, c.pageCount id⟩ f.schema f.disk.pageSize) := by
  have hcount : c.pageCount id = f.pageCount := pageCount_eq hf
  have hres : c.residentPage ⟨id, c.pageCount id⟩ = none := by
    rcases hres : c.residentPage ⟨id, c.pageCount id⟩ with _ | p
    · rfl
    · obtain ⟨g, hg, hreach⟩ := h.reached _ p hres
      rw [hf, Option.some.injEq] at hg
      subst hg
      exact absurd (hcount ▸ hreach.in_range) (UInt32.lt_irrefl _)
  rw [view_of_not_resident hres, onDisk, hf, Option.bind_some, TableFile.stored, if_neg]
  rw [hcount]
  exact UInt32.lt_irrefl _

theorem Sound.hasSlot_appended (h : c.Sound) {id : TableId} (hf : c.tables.get? id = some f) :
    c.HasSlot ⟨id, c.pageCount id⟩ :=
  ⟨_, h.view_appended hf, fun hfull => by rw [← HeapPage.freeCount_blank, hfull]⟩

theorem Ready.places_append (h : c.Ready txn) (hroom : c.HasRoom) (job : Insertion) :
    c.Places txn job (c.append txn job) := by
  unfold append
  rcases hf : c.tables.get? job.table with _ | f
  · have he : c.allocate job.table = (c, .error (.unknownTable job.table)) := by
      unfold allocate Cache.table
      rw [hf]
    rw [he]
    refine places_error ?_
    rintro ⟨g, hg, -⟩
    rw [hf] at hg
    cases hg
  · obtain ⟨he, hextended⟩ := h.sound.extended_allocate hroom hf
    obtain ⟨hcalm, hlocks⟩ := h.calm_allocate hroom job.table
    rw [he] at hcalm hlocks ⊢
    have hready := hcalm.ready h.sound ((congrArg (·.pending.get? txn) hlocks).trans h.idle)
    have hslot : (c.setTable f.grown).HasSlot ⟨job.table, c.pageCount job.table⟩ := by
      obtain ⟨p, hp, hslots⟩ := h.sound.hasSlot_appended hf
      exact ⟨p, (hcalm.quiet.view_eq _).trans hp, hslots⟩
    have hrange : c.pageCount job.table < (c.setTable f.grown).pageCount job.table := by
      rw [UInt32.lt_iff_toNat_lt, hextended.count]
      exact Nat.lt_succ_self _
    obtain ⟨hfails, hwaits⟩ :=
      hready.fetchAndFill_cases (show _ = job.table from rfl) hrange hslot
    have hfiles := hready.sound.keyed.sameFiles_fetchAndFill txn job
      ⟨job.table, c.pageCount job.table⟩
    refine ⟨fun other stage hw => ?_, fun reply hdone => ?_, fun hsuits => ?_⟩
    · obtain ⟨rfl, rfl, haims, -, hcontested⟩ := hwaits other stage hw
      exact ⟨haims, fun _ => ⟨rfl, hextended.sameFiles hfiles, hcontested⟩⟩
    · exact (hready.fetchAndFill_finds rfl hdone).after hcalm.quiet.view_eq
    · exact hfails (hsuits.of_grows hcalm.quiet.toGrows)

/-- The search goes through the pages from one of them on, as many as there are at the most. -/
theorem Ready.places_seek (h : c.Ready txn) (hroom : c.HasRoom) {left : Nat} {number : UInt32}
    (hleft : number.toNat + left ≤ (c.pageCount job.table).toNat) :
    c.Places txn job (seek txn job left number c) := by
  induction left generalizing number c with
  | zero => exact h.places_append hroom job
  | succ left ih =>
    have hrange : number < c.pageCount job.table := UInt32.lt_iff_toNat_lt.2 (by omega)
    have hnext : (number + 1).toNat = number.toNat + 1 := TableFile.toNat_succ_of_lt hrange
    obtain ⟨hcalm, hfiles, hanswer⟩ := h.fetch ⟨job.table, number⟩ .readOnly
    have hdenied := @fetch_denied c ⟨job.table, number⟩ txn .readOnly h hrange
    unfold seek
    simp only
    rcases hf : c.fetch txn ⟨job.table, number⟩ .readOnly with ⟨c', p | e | _⟩ <;>
      rw [hf] at hcalm hfiles hanswer hdenied
    · obtain ⟨hidle, hview, hres, m, hm, -, hnew⟩ := hanswer
      have hready := hcalm.ready h.sound hidle
      simp only
      split
      · have hnot : c.holds txn ⟨job.table, number⟩ = false →
            c'.locks.table.heldMode txn ⟨job.table, number⟩ ≠ some .readWrite := by
          intro hfalse
          rw [hm, hnew hfalse]
          simp
        obtain ⟨hleave, hidle'⟩ := hready.calm_leave ⟨job.table, number⟩ _ hnot
        have hfiles' := hfiles.trans (.of_eq (leave_tables c' txn ⟨job.table, number⟩
          (c.holds txn ⟨job.table, number⟩)))
        have hview := (hcalm.trans hleave).quiet.view_eq
        refine .after hview hfiles'
          (ih (hleave.ready hready.sound hidle') (hfiles'.hasRoom hroom) ?_)
        rw [hnext, hfiles'.pageCount_eq]
        omega
      · rename_i hfree
        refine .after hcalm.quiet.view_eq hfiles (hready.places_fetchAndFill rfl ?_
          ⟨p, view_of_resident hres, fun hfull => absurd hfull hfree⟩ (LockTable.holds_iff.2 ?_))
        · rw [hfiles.pageCount_eq]
          exact hrange
        · rw [hm]
          simp
    · exact places_error fun _ => hdenied.1 e rfl
    · refine ⟨fun other stage hw => ?_, fun _ hdone => (by cases hdone),
        fun _ e he => (by cases he)⟩
      cases hw
      refine ⟨⟨rfl, ?_, ?_⟩, fun hlate => hlate.elim⟩
      · rw [hfiles.pageCount_eq]
        exact hrange
      · rw [hfiles.pageCount_eq]
        change (number + 1).toNat + left ≤ (c.pageCount job.table).toNat
        omega

theorem Ready.places_start (h : c.Ready txn) (hroom : c.HasRoom) (job : Insertion) :
    c.Places txn job (c.start txn (.insert job)) := by
  simp only [start, startInsert]
  split
  · rename_i e htable
    refine places_error ?_
    rintro ⟨f, hf, -⟩
    rw [table_eq_ok hf] at htable
    cases htable
  · rename_i f htable
    have hf := get?_of_table htable
    split
    · rename_i hdiffers
      refine places_error ?_
      rintro ⟨g, hg, hschema, -⟩
      rw [hf, Option.some.injEq] at hg
      rw [hg] at hdiffers
      exact absurd hschema hdiffers
    · apply h.places_seek hroom
      rw [pageCount_eq hf]
      exact Nat.le_of_eq (Nat.zero_add _)

/-- The search goes on with the page that it has waited for. -/
theorem Ready.places_proceed (h : c.Ready txn) (hroom : c.HasRoom) {left : Nat} {next : UInt32}
    {held : Bool} (haims : c.Aims txn page (.seek job left next held))
    (result : Except StoreError HeapPage)
    (hpage : ∀ p, result = .ok p →
      c.residentPage page = some p ∧ c.locks.table.heldMode txn page = some .readOnly)
    (hfails : ∀ e, result = .error e → e.isCircumstance = true) :
    c.Places txn job (c.proceed txn page (.seek job left next held) result) := by
  obtain ⟨htable, hrange, hleft⟩ := haims
  cases result with
  | error e => exact places_error fun _ => hfails e rfl
  | ok p =>
    obtain ⟨hres, hm⟩ := hpage p rfl
    unfold proceed
    simp only
    split
    · obtain ⟨hleave, hidle⟩ := h.calm_leave page held fun _ => by
        rw [hm]
        simp
      have hfiles := SameFiles.of_eq (leave_tables c txn page held)
      refine .after hleave.quiet.view_eq hfiles
        ((hleave.ready h.sound hidle).places_seek (hfiles.hasRoom hroom) ?_)
      rw [hfiles.pageCount_eq, ← htable]
      exact hleft
    · rename_i hfree
      refine h.places_fetchAndFill htable hrange
        ⟨p, view_of_resident hres, fun hfull => absurd hfull hfree⟩ (LockTable.holds_iff.2 ?_)
      rw [hm]
      simp

end Cache

end PageCache
