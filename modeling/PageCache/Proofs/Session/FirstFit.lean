-- Where an insertion puts its record: into the first empty slot of its table, in the order of the
-- pages and of their slots, or else into the first slot of a new page. What a transaction sees of
-- all other places, and the marks and the snapshots of all other pages, stay as they were.
import PageCache.Proofs.Session.ExactEnds
import PageCache.Proofs.Session.FullPages

namespace PageCache

/-- The one place comes before the other: on an earlier page, or in an earlier slot of its page. -/
def RecordId.Precedes (a b : RecordId) : Prop :=
  a.page.number < b.page.number ∨ (a.page.number = b.page.number ∧ a.slot < b.slot)

theorem RecordId.eq_or_precedes {a b : RecordId} (htable : a.page.table = b.page.table)
    (h : ¬ b.Precedes a) : a = b ∨ a.Precedes b := by
  obtain ⟨⟨t, n⟩, i⟩ := a
  obtain ⟨⟨u, m⟩, j⟩ := b
  cases htable
  simp only [RecordId.Precedes, UInt32.lt_iff_toNat_lt, UInt16.lt_iff_toNat_lt, ← UInt32.toNat_inj,
    RecordId.mk.injEq, PageId.mk.injEq, ← UInt16.toNat_inj, true_and] at *
  omega

theorem PageId.ext {a b : PageId} (htable : a.table = b.table) (hnumber : a.number = b.number) :
    a = b := by
  cases a
  cases htable
  cases hnumber
  rfl

/-- The records on a page where one was stored. -/
theorem HeapPage.recordAt_stored (p : HeapPage) (txn : TransactionId) (row : Row)
    {place : RecordId} (hsize : place.slot.toNat < p.slots.size) (slot : Nat) :
    ((p.change ⟨place, some row⟩).markDirty txn).recordAt slot =
      if place.slot.toNat = slot then some ⟨p.schema, row, some (p.locate slot)⟩
      else p.recordAt slot := by
  change ((p.slots.setIfInBounds place.slot.toNat (some row))[slot]?.join.map
    fun row => Record.mk p.schema row (some (p.locate slot))) = _
  split
  · rename_i heq
    rw [← heq, Array.getElem?_setIfInBounds_self_of_lt hsize]
    rfl
  · rename_i hne
    rw [Array.getElem?_setIfInBounds_ne hne]
    rfl

namespace Cache

variable {c c' d : Cache} {page : PageId} {p q : HeapPage} {txn : TransactionId}
  {place other : RecordId} {job : Insertion} {reply : Reply} {f : TableFile}

/-! ## What a transaction sees -/

/-- What a transaction sees of a page: it is as its file holds it while the changes of another
transaction are on it. -/
def shownTo (c : Cache) (txn : TransactionId) (page : PageId) : Option HeapPage :=
  (c.view page).bind fun p => if p.dirty.all (· = txn) then some p else c.onDisk page

/-- The record that a transaction sees at a place. -/
def recordSeen (c : Cache) (txn : TransactionId) (place : RecordId) : Option Record :=
  (c.shownTo txn place.page).bind (·.recordAt place.slot.toNat)

/-- The place is on a page of the table, and the transaction sees an empty slot there. -/
def Offers (c : Cache) (txn : TransactionId) (table : TableId) (place : RecordId) : Prop :=
  place.page.table = table ∧ place.page.number < c.pageCount table ∧
    ∃ p, c.shownTo txn place.page = some p ∧ p.slots[place.slot.toNat]? = some none

/-- Nobody else has changed the page. -/
def IsOwn (txn : TransactionId) (p : HeapPage) : Prop := ∀ u, p.dirty = some u → u = txn

theorem shownTo_own (hview : c.view page = some p) (hown : IsOwn txn p) :
    c.shownTo txn page = some p := by
  rw [shownTo, hview, Option.bind_some, if_pos]
  rcases hdirty : p.dirty with _ | u
  · rfl
  · simp [hown u hdirty]

/-- Nobody else has changed a page that the transaction holds. -/
theorem Sound.isOwn (h : c.Sound) (horderly : c.locks.Orderly) {m : Access}
    (hm : c.locks.table.heldMode txn page = some m) (hview : c.view page = some p) :
    IsOwn txn p := by
  intro u hu
  refine h.dirty_of_held horderly ?_ hview hu
  rw [heldPages, horderly.tidy.mem_heldPages, hm]
  simp

theorem Ready.isOwn (h : c.Ready txn) {m : Access} (hm : c.locks.table.heldMode txn page = some m)
    (hview : c.view page = some p) : IsOwn txn p :=
  h.sound.isOwn h.orderly hm hview

/-! ## The search -/

/-- The transaction sees no empty slot on the page. -/
def IsPassed (c : Cache) (txn : TransactionId) (page : PageId) : Prop :=
  ∃ p, c.view page = some p ∧ p.freeCount = 0 ∧ IsOwn txn p

/-- The place is the first empty slot of its page, which takes the record of the insertion. -/
def IsFirstOn (c : Cache) (txn : TransactionId) (job : Insertion) (place : RecordId) : Prop :=
  ∃ p, c.view place.page = some p ∧ job.record.schema = p.schema ∧ IsOwn txn p ∧
    p.slots.findIdx? Option.isNone = some place.slot.toNat

/-- The place is the first empty slot of its page, and all pages of the table before that one were
passed. The page may be one that is still to be appended. -/
structure Found (c : Cache) (txn : TransactionId) (job : Insertion) (place : RecordId) : Prop where
  table_eq : place.page.table = job.table
  number_le : place.page.number ≤ c.pageCount job.table
  first : c.IsFirstOn txn job place
  passed : ∀ n < place.page.number.toNat, c.IsPassed txn ⟨job.table, .ofNat n⟩

/-- An insertion that has succeeded tells of such a place. -/
def Fits (c : Cache) (txn : TransactionId) (job : Insertion) (result : Cache × Progress) : Prop :=
  ∀ reply, result.2 = .finished (.ok reply) → ∃ place, reply.TellsOf place ∧ c.Found txn job place

theorem IsFirstOn.congr (hview : ∀ page, c'.view page = c.view page)
    (h : c'.IsFirstOn txn job place) : c.IsFirstOn txn job place := by
  rw [IsFirstOn, ← hview]
  exact h

theorem IsPassed.congr (hview : ∀ page, c'.view page = c.view page)
    (h : c'.IsPassed txn page) : c.IsPassed txn page := by
  rw [IsPassed, ← hview]
  exact h

theorem Fits.after {result : Cache × Progress} (hview : ∀ page, c'.view page = c.view page)
    (hfiles : c.SameFiles c') (h : c'.Fits txn job result) : c.Fits txn job result := by
  intro reply hdone
  obtain ⟨place, htells, htable, hle, hfirst, hpassed⟩ := h reply hdone
  refine ⟨place, htells, htable, ?_, hfirst.congr hview, fun n hn => (hpassed n hn).congr hview⟩
  rw [← hfiles.pageCount_eq]
  exact hle

theorem Sound.first_fill (hc : c.Sound) (hres : c.residentPage page = some p)
    (hown : IsOwn txn p) (hdone : (c.fill txn job p).2 = .ok reply) :
    ∃ place, reply.TellsOf place ∧ place.page = page ∧ c.IsFirstOn txn job place := by
  have hview := view_of_resident hres
  obtain ⟨-, -, hproper, -⟩ := hc.lies_over page p hview
  have hid := hc.id_eq hview
  unfold fill at hdone
  rcases hins : p.insert job.record with e | ⟨q, place⟩ <;> rw [hins] at hdone
  · cases hdone
  · obtain ⟨rfl, hplace, hschema, -⟩ := HeapPage.insert_ok hproper hins
    have hpage : place.page = page := hplace.trans hid
    refine ⟨place, ?_, hpage, p, by rw [hpage, hview], hschema, hown,
      HeapPage.slot_of_insert hproper hins⟩
    rw [Reply.TellsOf, hplace]
    simp only at hdone
    split at hdone
    · split at hdone <;> cases hdone
      exact Or.inl rfl
    · cases hdone
      exact Or.inr rfl

theorem Ready.first_fetchAndFill (h : c.Ready txn)
    (hdone : (c.fetchAndFill txn job page).2 = .finished (.ok reply)) :
    ∃ place, reply.TellsOf place ∧ place.page = page ∧ c.IsFirstOn txn job place := by
  obtain ⟨hcalm, -, hanswer⟩ := h.fetch page .readWrite
  unfold fetchAndFill at hdone
  rcases hf : c.fetch txn page .readWrite with ⟨c', p | e | _⟩ <;>
    rw [hf] at hcalm hanswer hdone
  · obtain ⟨hidle, -, hres, m, hm, -⟩ := hanswer
    have hready := hcalm.ready h.sound hidle
    simp only [finish, Progress.finished.injEq] at hdone
    obtain ⟨place, htells, hpage, hfirst⟩ :=
      hready.sound.first_fill hres (hready.isOwn hm (view_of_resident hres)) hdone
    exact ⟨place, htells, hpage, hfirst.congr hcalm.quiet.view_eq⟩
  · cases hdone
  · cases hdone

theorem Ready.fits_append (h : c.Ready txn) (hroom : c.HasRoom)
    (hpast : ∀ n < (c.pageCount job.table).toNat, c.IsPassed txn ⟨job.table, .ofNat n⟩) :
    c.Fits txn job (c.append txn job) := by
  intro reply hdone
  unfold append at hdone
  rcases hf : c.tables.get? job.table with _ | f
  · have he : c.allocate job.table = (c, .error (.unknownTable job.table)) := by
      unfold allocate Cache.table
      rw [hf]
    rw [he] at hdone
    cases hdone
  · obtain ⟨he, -⟩ := h.sound.extended_allocate hroom hf
    obtain ⟨hcalm, hlocks⟩ := h.calm_allocate hroom job.table
    rw [he] at hcalm hlocks hdone
    have hready := hcalm.ready h.sound ((congrArg (·.pending.get? txn) hlocks).trans h.idle)
    obtain ⟨place, htells, hpage, hfirst⟩ := hready.first_fetchAndFill hdone
    refine ⟨place, htells, by rw [hpage], by rw [hpage]; exact UInt32.le_refl _,
      hfirst.congr hcalm.quiet.view_eq, ?_⟩
    rw [hpage]
    exact hpast

/-- The search passes the pages from the first one on, as long as they are full. -/
theorem Ready.fits_seek (h : c.Ready txn) (hroom : c.HasRoom) {left : Nat} {number : UInt32}
    (hleft : number.toNat + left = (c.pageCount job.table).toNat)
    (hpast : ∀ n < number.toNat, c.IsPassed txn ⟨job.table, .ofNat n⟩) :
    c.Fits txn job (seek txn job left number c) := by
  induction left generalizing number c with
  | zero => exact h.fits_append hroom fun n hn => hpast n (by omega)
  | succ left ih =>
    obtain ⟨hcalm, hfiles, hanswer⟩ := h.fetch ⟨job.table, number⟩ .readOnly
    have hlt : number < c.pageCount job.table := UInt32.lt_iff_toNat_lt.2 (by omega)
    unfold seek
    simp only
    rcases hf : c.fetch txn ⟨job.table, number⟩ .readOnly with ⟨c', p | e | _⟩ <;>
      rw [hf] at hcalm hfiles hanswer
    · obtain ⟨hidle, hview, hres, m, hm, -, hnew⟩ := hanswer
      have hready := hcalm.ready h.sound hidle
      simp only
      split
      · rename_i hfull
        have hnot : c.holds txn ⟨job.table, number⟩ = false →
            c'.locks.table.heldMode txn ⟨job.table, number⟩ ≠ some .readWrite := by
          intro hfalse
          rw [hm, hnew hfalse]
          simp
        obtain ⟨hleave, hidle'⟩ := hready.calm_leave ⟨job.table, number⟩ _ hnot
        have hfiles' := hfiles.trans (.of_eq (leave_tables c' txn ⟨job.table, number⟩
          (c.holds txn ⟨job.table, number⟩)))
        have hviews := (hcalm.trans hleave).quiet.view_eq
        have hnext : (number + 1).toNat = number.toNat + 1 := TableFile.toNat_succ_of_lt hlt
        refine .after hviews hfiles' (ih (hleave.ready hready.sound hidle')
          (hfiles'.hasRoom hroom) ?_ fun n hn => IsPassed.congr (fun page => (hviews page).symm) ?_)
        · rw [hnext, hfiles'.pageCount_eq]
          omega
        · rw [hnext] at hn
          by_cases heq : n = number.toNat
          · rw [heq, UInt32.ofNat_toNat]
            exact ⟨p, hview, hfull, hready.isOwn hm (view_of_resident hres)⟩
          · exact hpast n (by omega)
      · intro reply hdone
        obtain ⟨place, htells, hpage, hfirst⟩ := hready.first_fetchAndFill hdone
        refine ⟨place, htells, by rw [hpage], by rw [hpage]; exact UInt32.le_of_lt hlt,
          hfirst.congr hcalm.quiet.view_eq, ?_⟩
        rw [hpage]
        exact hpast
    · exact fun reply hdone => by cases hdone
    · exact fun reply hdone => by cases hdone

theorem Ready.fits_start (h : c.Ready txn) (hroom : c.HasRoom) (job : Insertion) :
    c.Fits txn job (c.start txn (.insert job)) := by
  simp only [start, startInsert]
  split
  · exact fun reply hdone => by cases hdone
  · rename_i file htable
    split
    · exact fun reply hdone => by cases hdone
    · apply h.fits_seek hroom
      · rw [pageCount_eq (get?_of_table htable)]
        exact Nat.zero_add _
      · intro n hn
        exact absurd hn (Nat.not_lt_zero n)

/-! ## The place of the record -/

/-- What an insertion has done that has put its record at a place. The place is the least empty one
of the table, if there is any, and else the first one of a new page. What is seen at all other
places is the same, and so are the marks and the snapshots of all other pages. -/
structure PutFirst (txn : TransactionId) (job : Insertion) (place : RecordId) (c c' : Cache) :
    Prop where
  least : (∃ other, c.Offers txn job.table other) → c.Offers txn job.table place ∧
    (∀ other, c.Offers txn job.table other → place = other ∨ place.Precedes other) ∧
    c'.pageCount job.table = c.pageCount job.table
  fresh : (∀ other, ¬ c.Offers txn job.table other) →
    place = ⟨⟨job.table, c.pageCount job.table⟩, 0⟩ ∧
    (c'.pageCount job.table).toNat = (c.pageCount job.table).toNat + 1
  put : c'.recordSeen txn place = some ⟨job.record.schema, job.record.values, some place⟩
  kept : ∀ other, other ≠ place → c'.recordSeen txn other = c.recordSeen txn other
  marked : ∃ p q, c.view place.page = some p ∧ c'.view place.page = some q ∧
    q.dirty = some txn ∧ q.before = p.before
  others : ∀ page, page ≠ place.page → c'.view page = c.view page

theorem IsPassed.not_offers {table : TableId} (h : c.IsPassed txn place.page) :
    ¬ c.Offers txn table place := by
  rintro ⟨-, -, q, hq, hslot⟩
  obtain ⟨p, hview, hfull, hown⟩ := h
  rw [shownTo_own hview hown, Option.some.injEq] at hq
  subst hq
  have hnot := Array.countP_eq_zero.1 hfull _ (Array.mem_of_getElem? hslot)
  exact hnot rfl

/-- On the page of the place there is no empty slot before it. -/
theorem IsFirstOn.not_precedes (h : c.IsFirstOn txn job place) (hpage : other.page = place.page)
    (hoffers : c.Offers txn job.table other) : ¬ other.slot < place.slot := by
  intro hlt
  obtain ⟨p, hview, -, hown, hfind⟩ := h
  obtain ⟨-, -, q, hq, hslot⟩ := hoffers
  rw [hpage, shownTo_own hview hown, Option.some.injEq] at hq
  subst hq
  obtain ⟨hsize, -, hbefore⟩ := Array.findIdx?_eq_some_iff_getElem.1 hfind
  rw [UInt16.lt_iff_toNat_lt] at hlt
  have hnot := hbefore other.slot.toNat hlt
  rw [Array.getElem?_eq_getElem (hlt.trans hsize), Option.some.injEq] at hslot
  rw [hslot] at hnot
  exact hnot rfl

theorem IsFirstOn.offers (h : c.IsFirstOn txn job place) (htable : place.page.table = job.table)
    (hlt : place.page.number < c.pageCount job.table) : c.Offers txn job.table place := by
  obtain ⟨p, hview, -, hown, hfind⟩ := h
  obtain ⟨hsize, hnone, -⟩ := Array.findIdx?_eq_some_iff_getElem.1 hfind
  refine ⟨htable, hlt, p, shownTo_own hview hown, ?_⟩
  rw [Array.getElem?_eq_getElem hsize]
  exact congrArg some (Option.isNone_iff_eq_none.1 hnone)

/-- The first empty slot of a page that was just appended is its first slot. -/
theorem IsFirstOn.slot_eq_zero (h : c.IsFirstOn txn job place) (hc : c.Sound)
    (hpage : place.page = ⟨job.table, c.pageCount job.table⟩) : place.slot = 0 := by
  obtain ⟨p, hview, -, -, hfind⟩ := h
  obtain ⟨f, hf⟩ := hc.exists_table hview
  rw [hpage] at hf
  have hblank := hc.view_appended hf
  rw [hpage, hblank, Option.some.injEq] at hview
  subst hview
  obtain ⟨hsize, -, hbefore⟩ := Array.findIdx?_eq_some_iff_getElem.1 hfind
  rw [← UInt16.toNat_inj]
  rcases Nat.eq_zero_or_pos place.slot.toNat with hzero | hpos
  · exact hzero
  · refine absurd ?_ (hbefore 0 hpos)
    simp [HeapPage.blank]

/-- All pages before the place were passed, so no empty slot is seen there. -/
theorem Found.not_offers (h : c.Found txn job place)
    (hlt : other.page.number < place.page.number) : ¬ c.Offers txn job.table other := by
  intro hoffers
  refine IsPassed.not_offers ?_ hoffers
  have hpassed := h.passed other.page.number.toNat (UInt32.lt_iff_toNat_lt.1 hlt)
  rw [UInt32.ofNat_toNat, ← hoffers.1] at hpassed
  exact hpassed

theorem Found.least (h : c.Found txn job place) (hoffers : c.Offers txn job.table other) :
    place = other ∨ place.Precedes other := by
  refine RecordId.eq_or_precedes (h.table_eq.trans hoffers.1.symm) ?_
  rintro (hnumber | ⟨hnumber, hslot⟩)
  · exact h.not_offers hnumber hoffers
  · refine h.first.not_precedes ?_ hoffers hslot
    exact PageId.ext (hoffers.1.trans h.table_eq.symm) hnumber

/-- The place is on a new page only if all pages of the table are full. -/
theorem Found.allFull (h : c.Found txn job place)
    (heq : place.page.number = c.pageCount job.table) : c.AllFull job.table := by
  intro n hn
  obtain ⟨p, hview, hfull, -⟩ := h.passed n (by rw [heq]; exact hn)
  exact ⟨p, hview, hfull⟩

/-- The place is on a page that was there before only if that page is not full. -/
theorem Found.not_allFull (h : c.Found txn job place)
    (hlt : place.page.number < c.pageCount job.table) : ¬ c.AllFull job.table := by
  intro hfull
  obtain ⟨p, hview, -, -, hfind⟩ := h.first
  obtain ⟨q, hq, hnone⟩ := hfull place.page.number.toNat (UInt32.lt_iff_toNat_lt.1 hlt)
  rw [UInt32.ofNat_toNat, ← h.table_eq, hview, Option.some.injEq] at hq
  subst hq
  obtain ⟨hsize, hempty, -⟩ := Array.findIdx?_eq_some_iff_getElem.1 hfind
  exact Array.countP_eq_zero.1 hnone _ (Array.getElem_mem hsize) hempty

/-- What is seen on the page of the place afterwards, and elsewhere. -/
theorem Did.shownTo_eq (h : c.Did txn (some ⟨place, some job.record.values⟩) c')
    (hview : c.view place.page = some p) :
    c'.shownTo txn place.page =
        some ((p.change ⟨place, some job.record.values⟩).markDirty txn) ∧
      ∀ page, page ≠ place.page → c'.view page = c.view page ∧
        c'.shownTo txn page = c.shownTo txn page := by
  constructor
  · refine shownTo_own ?_ fun u hu => ?_
    · rw [h.view_eq, hview, Option.map_some, HeapPage.altered, if_pos rfl]
    · cases hu
      rfl
  · intro page hne
    have hsame : c'.view page = c.view page := by
      rw [h.view_eq]
      rcases c.view page with _ | q
      · rfl
      · rw [Option.map_some, HeapPage.altered, if_neg (Ne.symm hne)]
    refine ⟨hsame, ?_⟩
    rw [shownTo, shownTo, hsame, h.toGrows.onDisk_eq]

theorem IsFirstOn.recordSeen_eq (hfirst : c.IsFirstOn txn job place) (hc : c.Sound)
    (h : c.Did txn (some ⟨place, some job.record.values⟩) c') :
    c'.recordSeen txn place = some ⟨job.record.schema, job.record.values, some place⟩ ∧
      ∀ other, other ≠ place → c'.recordSeen txn other = c.recordSeen txn other := by
  obtain ⟨p, hview, hschema, hown, hfind⟩ := hfirst
  obtain ⟨hsize, -, -⟩ := Array.findIdx?_eq_some_iff_getElem.1 hfind
  obtain ⟨hself, helse⟩ := h.shownTo_eq hview
  have hid := hc.id_eq hview
  constructor
  · rw [recordSeen, hself, Option.bind_some, HeapPage.recordAt_stored p txn _ hsize, if_pos rfl,
      hschema, HeapPage.locate, hid, UInt16.ofNat_toNat]
  · intro other hne
    by_cases hpage : other.page = place.page
    · have hslot : place.slot.toNat ≠ other.slot.toNat := by
        intro heq
        apply hne
        obtain ⟨page, slot⟩ := other
        obtain ⟨page', slot'⟩ := place
        rw [RecordId.mk.injEq]
        exact ⟨hpage, UInt16.toNat_inj.1 heq.symm⟩
      rw [recordSeen, recordSeen, hpage, hself, shownTo_own hview hown, Option.bind_some,
        Option.bind_some, HeapPage.recordAt_stored p txn _ hsize, if_neg hslot]
    · rw [recordSeen, recordSeen, (helse other.page hpage).2]

end Cache

namespace Session

variable {s : Session} {txn : TransactionId} {job : Insertion} {reply : Reply} {config : Config}
  {log : Option WriteLog} {steps : List Step} {name : Option String}

theorem Coherent.putFirst_submit (h : s.Coherent) (hroom : s.cache.HasRoom)
    (hplain : (Operation.insert job).IsPlain)
    (hdone : (s.submit txn name (.insert job)).2 = .finished (.ok reply)) :
    ∃ place, reply.TellsOf place ∧
      s.cache.PutFirst txn job place (s.submit txn name (.insert job)).1.cache := by
  have hcall := call_of_finished hdone
  have hfits : s.cache.Fits txn job (s.cache.start txn (.insert job)) :=
    (h.ready hcall).fits_start hroom job
  have hstart : (s.cache.start txn (.insert job)).2 = .finished (.ok reply) := by
    rcases insertion_cases h.sound.toGrounded hroom hcall name job with
      he | ⟨c, page, stage, locks, -, he⟩ <;> rw [he] at hdone
    · exact enter_finished hdone
    · cases hdone
  have hdid := (h.callStep_insertion hroom hcall name hplain).did
  obtain ⟨hgrew, -⟩ := grew_submit h.sound.toGrounded hroom hdone
  obtain ⟨hextends, hkeeps⟩ := hgrew reply rfl
  rw [hdone] at hdid
  obtain ⟨place, htells, hfound⟩ := hfits reply hstart
  have hdid' : s.cache.Did txn (some ⟨place, some job.record.values⟩)
      (s.submit txn name (.insert job)).1.cache := by
    rcases htells with rfl | rfl <;> exact hdid
  obtain ⟨hput, hkept⟩ := hfound.first.recordSeen_eq h.sound hdid'
  refine ⟨place, htells, fun ⟨other, hother⟩ => ?_, fun hno => ?_, hput, hkept, ?_, ?_⟩
  · have hlt : place.page.number < s.cache.pageCount job.table := by
      refine UInt32.lt_of_le_of_ne hfound.number_le fun heq => ?_
      exact hfound.not_offers (heq ▸ hother.2.1) hother
    exact ⟨hfound.first.offers hfound.table_eq hlt, fun _ => hfound.least,
      (hkeeps (hfound.not_allFull hlt)).pageCount_eq _⟩
  · have heq : place.page.number = s.cache.pageCount job.table := by
      refine (UInt32.lt_or_eq_of_le hfound.number_le).resolve_left fun hlt => ?_
      exact hno place (hfound.first.offers hfound.table_eq hlt)
    have hpage : place.page = ⟨job.table, s.cache.pageCount job.table⟩ :=
      PageId.ext hfound.table_eq heq
    refine ⟨?_, (hextends (hfound.allFull heq)).count⟩
    rw [← hpage, ← hfound.first.slot_eq_zero h.sound hpage]
  · obtain ⟨p, hview, -⟩ := hfound.first
    refine ⟨p, _, hview, by rw [hdid'.view_eq, hview, Option.map_some], ?_⟩
    rw [HeapPage.altered, if_pos rfl]
    exact ⟨rfl, rfl⟩
  · obtain ⟨p, hview, -⟩ := hfound.first
    exact fun page hne => ((hdid'.shownTo_eq hview).2 page hne).1

/-! ## The law -/

/-- **An insertion is first-fit.** After every run, with transactions that end at any time: an
insertion that succeeds at once returns a place. If its transaction sees an empty slot on a page of
the table, the place is the least of them, by page and then by slot; else it is the first slot of a
new page. The record is seen there afterwards, with its place. All other places look as before to
the transaction, and the one mark that is new is its own on the page of the place. -/
theorem insertion_takes_first_empty_slot (hsteps : (new config log).AllowsAll steps)
    (ha : ((new config log).after steps).Allows (.act (.submit txn name (.insert job))))
    (hdone : (((new config log).after steps).submit txn name (.insert job)).2 =
      .finished (.ok reply)) :
    ∃ place, reply.TellsOf place ∧ ((new config log).after steps).cache.PutFirst txn job place
      (((new config log).after steps).submit txn name (.insert job)).1.cache :=
  ((coherent_new config log).after_allowed hsteps).putFirst_submit (hasRoom_of_values ha.1) ha.2
    hdone

/-- Of three flags on pages of their own, the second is taken away again. -/
def secondTakenAway : List Step :=
  threeFlags ++ [.act (.commit ⟨2⟩), .act (.submit ⟨3⟩ none (.delete (some ⟨⟨⟨1⟩, 1⟩, 0⟩)))]

/-- The next flag takes the place of the second one. -/
theorem flag_takes_empty_slot :
    (((new ⟨4, 1, none⟩ none).after secondTakenAway).submit ⟨3⟩ none
        (.insert ⟨⟨1⟩, ⟨flags, [.boolean false], none⟩, true⟩)).2 =
          .finished (.ok (.location ⟨⟨⟨1⟩, 1⟩, 0⟩)) ∧
      ((new ⟨4, 1, none⟩ none).after secondTakenAway).cache.PutFirst ⟨3⟩
        ⟨⟨1⟩, ⟨flags, [.boolean false], none⟩, true⟩ ⟨⟨⟨1⟩, 1⟩, 0⟩
        (((new ⟨4, 1, none⟩ none).after secondTakenAway).submit ⟨3⟩ none
          (.insert ⟨⟨1⟩, ⟨flags, [.boolean false], none⟩, true⟩)).1.cache := by
  have hdone : (((new ⟨4, 1, none⟩ none).after secondTakenAway).submit ⟨3⟩ none
      (.insert ⟨⟨1⟩, ⟨flags, [.boolean false], none⟩, true⟩)).2 =
        .finished (.ok (.location ⟨⟨⟨1⟩, 1⟩, 0⟩)) := by decide +kernel
  obtain ⟨place, htells | htells, hput⟩ :=
    insertion_takes_first_empty_slot (by decide +kernel) (by decide +kernel) hdone
  · cases htells
    exact ⟨hdone, hput⟩
  · cases htells

end Session

end PageCache
