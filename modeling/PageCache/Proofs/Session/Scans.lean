-- A scan that succeeds is complete: it returns what its transaction sees in the table, each record
-- once and in the order of the places, and the transaction holds every page of the table from then
-- on. How many pages the cache has room for makes no difference.
import PageCache.Proofs.Cache.Prefixes
import PageCache.Proofs.Session.Browsing
import PageCache.Proofs.Session.FirstFit

namespace PageCache

/-- The one record stands before the other. -/
def Record.Precedes (a b : Record) : Prop :=
  ∃ x y, a.location = some x ∧ b.location = some y ∧ x.Precedes y

namespace HeapPage

variable {p : HeapPage} {r : Record}

theorem location_of_recordAt {slot : Nat} (h : p.recordAt slot = some r) :
    slot < p.slotCount ∧ r.location = some (p.locate slot) := by
  obtain ⟨row, hrow, rfl⟩ := Option.map_eq_some_iff.1 h
  refine ⟨?_, rfl⟩
  rw [slotCount]
  by_contra hge
  rw [Array.getElem?_eq_none (by omega)] at hrow
  cases hrow

/-- The records of a page are those in its slots. -/
theorem mem_records (h : p.Proper) : r ∈ p.records ↔
    ∃ place, place.page = p.id ∧ r.location = some place ∧
      p.recordAt place.slot.toNat = some r := by
  constructor
  · intro hr
    obtain ⟨slot, -, hslot⟩ := List.mem_filterMap.1 hr
    obtain ⟨hlt, hlocation⟩ := location_of_recordAt hslot
    refine ⟨p.locate slot, rfl, hlocation, ?_⟩
    rw [locate, h.toNat_slot hlt]
    exact hslot
  · rintro ⟨place, -, -, hslot⟩
    exact List.mem_filterMap.2 ⟨_, List.mem_range.2 (location_of_recordAt hslot).1, hslot⟩

/-- They come in the order of the slots. -/
theorem records_ordered (h : p.Proper) : p.records.Pairwise Record.Precedes := by
  rw [records, List.pairwise_filterMap]
  apply List.pairwise_lt_range.imp
  intro i j hlt a ha b hb
  obtain ⟨hi, ha⟩ := location_of_recordAt ha
  obtain ⟨hj, hb⟩ := location_of_recordAt hb
  refine ⟨_, _, ha, hb, .inr ⟨rfl, ?_⟩⟩
  rw [UInt16.lt_iff_toNat_lt, locate, locate, h.toNat_slot hi, h.toNat_slot hj]
  exact hlt

end HeapPage

namespace Cache

variable {c c' : Cache} {txn : TransactionId} {table : TableId} {records : List Record}

/-- The records are what the transaction sees in the table: those in the used slots of all pages,
in the order of their places, so each of them is there once. -/
structure IsListing (c : Cache) (txn : TransactionId) (table : TableId) (records : List Record) :
    Prop where
  ordered : records.Pairwise Record.Precedes
  mem_iff : ∀ r, r ∈ records ↔ ∃ place, place.page.table = table ∧
    place.page.number < c.pageCount table ∧ r.location = some place ∧
    c.recordSeen txn place = some r

theorem IsListing.congr (h : c'.IsListing txn table records)
    (hcount : c'.pageCount table = c.pageCount table)
    (hseen : ∀ place, c'.recordSeen txn place = c.recordSeen txn place) :
    c.IsListing txn table records where
  ordered := h.ordered
  mem_iff r := by
    rw [h.mem_iff, hcount]
    simp only [hseen]

/-- A page that is held is seen as it is, its records included. -/
theorem Sound.shownTo_held (h : c.Sound) (horderly : c.locks.Orderly) {page : PageId} {p : HeapPage}
    (hholds : c.holds txn page = true) (hview : c.view page = some p) :
    c.shownTo txn page = some p := by
  obtain ⟨m, hm⟩ := Option.ne_none_iff_exists'.1 (LockTable.holds_iff.1 hholds)
  exact shownTo_own hview (h.isOwn horderly hm hview)

/-- A page of a table that is held in full is seen, in its own place. -/
theorem Ready.shown_page (h : c.Ready txn)
    (hcovers : c.Covers txn table 0 (c.pageCount table).toNat) {n : Nat}
    (hn : n < (c.pageCount table).toNat) :
    ∃ p, c.view ⟨table, .ofNat n⟩ = some p ∧ p.Proper ∧ p.id = ⟨table, .ofNat n⟩ ∧
      c.shownTo txn ⟨table, .ofNat n⟩ = some p := by
  obtain ⟨-, hholds, p, hview⟩ := hcovers n (Nat.zero_le n) hn
  obtain ⟨-, -, hproper, -⟩ := h.sound.lies_over _ p hview
  exact ⟨p, hview, hproper, h.sound.id_eq hview, h.sound.shownTo_held h.orderly hholds hview⟩

/-- The records of a table come page by page, and on each page in the order of the slots. -/
theorem Ready.stretch_ordered (h : c.Ready txn)
    (hcovers : c.Covers txn table 0 (c.pageCount table).toNat) :
    (c.stretch table 0 (c.pageCount table).toNat).Pairwise Record.Precedes := by
  rw [stretch, List.pairwise_flatMap]
  constructor
  · intro n hn
    rw [List.mem_range'_1, Nat.zero_add, Nat.sub_zero] at hn
    obtain ⟨p, hview, hproper, -⟩ := h.shown_page hcovers hn.2
    rw [recordsOn_eq hview]
    exact HeapPage.records_ordered hproper
  · apply List.Pairwise.imp_of_mem _ List.pairwise_lt_range'
    intro n m hn hm hlt a ha b hb
    rw [List.mem_range'_1, Nat.zero_add, Nat.sub_zero] at hn hm
    obtain ⟨p, hview, hproper, hid, -⟩ := h.shown_page hcovers hn.2
    obtain ⟨q, hview', hproper', hid', -⟩ := h.shown_page hcovers hm.2
    rw [recordsOn_eq hview, HeapPage.mem_records hproper] at ha
    rw [recordsOn_eq hview', HeapPage.mem_records hproper'] at hb
    obtain ⟨x, hx, ha, -⟩ := ha
    obtain ⟨y, hy, hb, -⟩ := hb
    refine ⟨x, y, ha, hb, .inl ?_⟩
    rw [hx, hy, hid, hid', UInt32.lt_iff_toNat_lt, toNat_number hn.2, toNat_number hm.2]
    exact hlt

/-- Whoever holds all pages of a table sees what stands on them, page by page. -/
theorem Ready.isListing (h : c.Ready txn)
    (hcovers : c.Covers txn table 0 (c.pageCount table).toNat) :
    c.IsListing txn table (c.stretch table 0 (c.pageCount table).toNat) := by
  refine ⟨h.stretch_ordered hcovers, fun r => ⟨fun hr => ?_, ?_⟩⟩
  · obtain ⟨n, p, -, hn, hview, hmem⟩ := mem_stretch hr
    obtain ⟨q, hview', hproper, hid, hshown⟩ := h.shown_page hcovers hn
    rw [hview, Option.some.injEq] at hview'
    subst hview'
    obtain ⟨place, hplace, hlocation, hslot⟩ := (HeapPage.mem_records hproper).1 hmem
    rw [hid] at hplace
    refine ⟨place, by rw [hplace], ?_, hlocation, ?_⟩
    · rw [hplace, UInt32.lt_iff_toNat_lt, toNat_number hn]
      exact hn
    · rw [recordSeen, hplace, hshown]
      exact hslot
  · rintro ⟨⟨⟨_, number⟩, slot⟩, rfl, hlt, hlocation, hseen⟩
    have hn := UInt32.lt_iff_toNat_lt.1 hlt
    obtain ⟨p, hview, hproper, hid, hshown⟩ := h.shown_page hcovers hn
    rw [UInt32.ofNat_toNat] at hview hid hshown
    rw [recordSeen, hshown, Option.bind_some] at hseen
    refine List.mem_flatMap.2 ⟨number.toNat, ?_, ?_⟩
    · rw [List.mem_range'_1, Nat.zero_add, Nat.sub_zero]
      exact ⟨Nat.zero_le _, hn⟩
    · rw [UInt32.ofNat_toNat, recordsOn_eq hview, HeapPage.mem_records hproper]
      exact ⟨_, hid.symm, hlocation, hseen⟩

/-- Who only reads changes nothing that is seen. -/
theorem Did.shownTo_of_none (h : c.Did txn none c') (u : TransactionId) (page : PageId) :
    c'.shownTo u page = c.shownTo u page := by
  have hview : c'.view page = c.view page := by
    rw [h.view_eq]
    exact Option.map_id_fun'.symm ▸ rfl
  rw [shownTo, shownTo, hview, h.toGrows.onDisk_eq]

end Cache

namespace Session

variable {s : Session} {txn : TransactionId} {table : TableId} {records : List Record}
  {name : Option String}

/-- A scan has returned all that its transaction sees in the table. The transaction can see every
page of the table, and it holds them all now. -/
structure Scanned (s : Session) (txn : TransactionId) (table : TableId) (records : List Record)
    (s' : Session) : Prop where
  listing : s.cache.IsListing txn table records
  holds : ∀ number < s.cache.pageCount table, s'.cache.holds txn ⟨table, number⟩ = true
  seen : ∀ number < s.cache.pageCount table, ∃ p, s.cache.shownTo txn ⟨table, number⟩ = some p

/-- A scan appends no page. -/
theorem Coherent.sameFiles_scan (h : s.Coherent) (hroom : s.cache.HasRoom)
    (hfree : s.calls.get? txn = none) (name : Option String) (table : TableId) :
    s.cache.SameFiles (s.submit txn name (.scan table)).1.cache := by
  have hready := h.ready hfree
  have hplain : (Operation.scan table).IsPlain := trivial
  have horigin : (Operation.scan table).origin = some (.start table) := rfl
  obtain ⟨hcoh, -⟩ := h.enter name (hready.proceeds_start hroom hplain)
  have hstart : s.cache.SameFiles (s.cache.start txn (.scan table)).1 := by
    simp only [Cache.start]
    split
    · exact .refl _
    · exact Cache.Keyed.sameFiles_walk h.sound.keyed txn _ _
  have hanswers := answers_enter s name (hready.walks_start horigin)
  rw [← cache_enter s txn name] at hstart
  rcases s.submit_cases txn name (.scan table) with ⟨hbusy, -⟩ | ⟨-, s₁, answer, henter, hcase⟩
  · rw [isBusy_eq_false_iff.2 hfree] at hbusy
    cases hbusy
  · rw [henter] at hcoh hstart hanswers
    rcases hcase with he | ⟨rfl, he⟩ <;> rw [he]
    · exact hstart
    · rcases hcall : s₁.calls.get? txn with _ | call
      · rw [Session.expire, hcall]
        exact hstart
      · obtain ⟨c, result, hresumes, he⟩ := hcoh.expire_cases hcall
        obtain ⟨draw, -, hpauses, -⟩ := hanswers.1 call hcall
        rw [he, cache_enter, hpauses.stage_eq]
        apply (hstart.trans hresumes.files).trans
        cases result with
        | error e => exact .refl _
        | ok p => exact Cache.Keyed.sameFiles_walk hresumes.ready.sound.keyed txn _ _

theorem Coherent.scanned (h : s.Coherent) (hroom : s.cache.HasRoom)
    (hdone : (s.submit txn name (.scan table)).2 = .finished (.ok (.rows records))) :
    s.Scanned txn table records (s.submit txn name (.scan table)).1 := by
  have hfree := call_of_finished hdone
  have hplain : (Operation.scan table).IsPlain := trivial
  have horigin : (Operation.scan table).origin = some (.start table) := rfl
  obtain ⟨hcoh, heffect⟩ := @Coherent.submit s txn h hroom name _ hplain
  have hstep := (heffect.resolve_left fun hbusy => by rw [hdone] at hbusy; cases hbusy.1).2
  obtain ⟨next, hhanded, hend⟩ := (h.answers_submit hroom hfree name hplain horigin).2 _ hdone
  have hdid := hstep.did
  rw [hdone] at hdid
  have hcalls : (s.submit txn name (.scan table)).1.calls.get? txn = none := by
    rcases hc : (s.submit txn name (.scan table)).1.calls.get? txn with _ | call
    · rfl
    · have hwaits := (hstep.left call hc).1
      rw [hdone] at hwaits
      cases hwaits
  have hready := hcoh.ready hcalls
  have hcount : (s.submit txn name (.scan table)).1.cache.pageCount table =
      s.cache.pageCount table := (h.sameFiles_scan hroom hfree name table).pageCount_eq table
  obtain ⟨rfl, hcovers⟩ := hhanded.whole hend
  refine ⟨(hready.isListing hcovers).congr hcount fun place => ?_, fun number hlt => ?_,
    fun number hlt => ?_⟩
  · rw [Cache.recordSeen, Cache.recordSeen, hdid.shownTo_of_none]
  · rw [← hcount, UInt32.lt_iff_toNat_lt] at hlt
    have hholds := (hcovers number.toNat (Nat.zero_le _) hlt).2.1
    rwa [UInt32.ofNat_toNat] at hholds
  · rw [← hcount, UInt32.lt_iff_toNat_lt] at hlt
    obtain ⟨-, hholds, p, hview⟩ := hcovers number.toNat (Nat.zero_le _) hlt
    rw [UInt32.ofNat_toNat] at hholds hview
    rw [← hdid.shownTo_of_none]
    exact ⟨p, hready.sound.shownTo_held hready.orderly hholds hview⟩

end Session

end PageCache
