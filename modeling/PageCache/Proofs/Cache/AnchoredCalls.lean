-- Calls and endings keep the pages anchored in their files, whoever has which locks and wherever a
-- call is interrupted. Only the records that are stored have to be whole, for only these are read
-- back from the bytes of a page. The strict sense is kept as long as edits in place leave their
-- page marked; the store marks its own changes.
import PageCache.Proofs.Cache.Anchors

namespace PageCache

/-- The record that a user of a page is to store on it. -/
def Purpose.record? : Purpose → Option Record
  | .insert record _ => some record
  | _ => none

/-- The record that a call at this stage is to store. -/
def Stage.record? : Stage → Option Record
  | .use purpose => purpose.record?
  | .seek job .. => some job.record
  | .fill job => some job.record
  | _ => none

/-- The record that an operation is to store. -/
def Operation.record? : Operation → Option Record
  | .fetch _ _ purpose => purpose.record?
  | .insert job => some job.record
  | _ => none

/-- What the call is to store has one value for each column. -/
def Stage.StoresWhole (stage : Stage) : Prop := ∀ r, stage.record? = some r → r.IsWhole

/-- What the operation is to store has one value for each column. -/
def Operation.StoresWhole (op : Operation) : Prop := ∀ r, op.record? = some r → r.IsWhole

instance (op : Operation) : Decidable op.StoresWhole :=
  match h : op.record? with
  | none => .isTrue fun _ hr => by rw [h] at hr; cases hr
  | some r => decidable_of_iff r.IsWhole ⟨fun hw _ hr => by rw [h] at hr; cases hr; exact hw,
      fun hw => hw r h⟩

/-- The page is changed by this use of it, and has no mark afterwards. -/
def Purpose.spoils (p : HeapPage) : Purpose → Bool
  | .insert record mark => !mark && p.dirty.isNone && (p.insert record).isOk
  | .delete location mark => !mark && p.dirty.isNone && (p.delete location).isOk
  | _ => false

/-- The call goes on with such a use of the page. -/
def Stage.spoils (p : HeapPage) : Stage → Bool
  | .use purpose => purpose.spoils p
  | _ => false

namespace Cache

variable {b c c' : Cache} {strict : Bool} {page : PageId} {p q : HeapPage} {txn : TransactionId}
  {f : TableFile}

/-- A call that goes on at this stage now does not spoil the page. -/
def marksAt (c : Cache) (page : PageId) (stage : Stage) : Bool :=
  (c.view page).all fun p => !stage.spoils p

/-- An operation that is started now does not spoil the page that it uses. -/
def marks (c : Cache) : Operation → Bool
  | .fetch page _ purpose => c.marksAt page (.use purpose)
  | _ => true

theorem marksAt_of_spoils {stage : Stage} (h : ∀ p, stage.spoils p = false) :
    c.marksAt page stage = true := by
  unfold marksAt
  cases c.view page with
  | none => rfl
  | some p => rw [Option.all_some, h p, Bool.not_false]

theorem spoils_of_marksAt {stage : Stage} (h : c.marksAt page stage = true)
    (hview : c.view page = some p) : stage.spoils p = false := by
  rw [marksAt, hview, Option.all_some, Bool.not_eq_true'] at h
  exact h

/-- How far a call has come from a cache: the pages are anchored, and what it is still to store is
whole. If it was to spoil no page, it still is. While it looks for a slot, it has not appended a
page. -/
structure Rests (c : Cache) (strict : Bool) (result : Cache × Progress) : Prop where
  anchored : result.1.Anchored strict
  whole : ∀ page stage, result.2 = .waiting page stage → stage.StoresWhole
  marks : strict = true → ∀ page stage, result.2 = .waiting page stage →
    result.1.marksAt page stage = true
  files : ∀ page stage, result.2 = .waiting page stage → stage.seeks = true → c.SameFiles result.1

theorem Rests.after {result : Cache × Progress} (hfiles : c.SameFiles c')
    (h : c'.Rests strict result) : c.Rests strict result :=
  ⟨h.anchored, h.whole, h.marks, fun page stage hw hs => hfiles.trans (h.files page stage hw hs)⟩

namespace Anchored

theorem rests_finished (h : c.Anchored strict) (outcome : Outcome) :
    b.Rests strict (c, .finished outcome) :=
  ⟨h, fun _ _ hw => (by cases hw), fun _ _ _ hw => (by cases hw), fun _ _ hw => by cases hw⟩

theorem rests_waiting (h : c.Anchored strict) (page : PageId) {stage : Stage}
    (hwhole : stage.StoresWhole) (hmarks : strict = true → c.marksAt page stage = true)
    (hfiles : stage.seeks = true → b.SameFiles c) : b.Rests strict (c, .waiting page stage) := by
  refine ⟨h, fun _ _ hw => ?_, fun hstrict _ _ hw => ?_, fun _ _ hw => ?_⟩
  · cases hw
    exact hwhole
  · cases hw
    exact hmarks hstrict
  · cases hw
    exact hfiles

/-! ## Calls -/

/-- Whatever comes of the wish for a page, the pages stay anchored, the one that was fetched among
them. -/
theorem fetch (h : c.Anchored strict) (txn : TransactionId) (page : PageId) (access : Access) :
    (c.fetch txn page access).1.Anchored strict ∧
      ∀ p, (c.fetch txn page access).2 = .page p →
        (c.fetch txn page access).1.Anchors strict page p := by
  unfold Cache.fetch
  split
  · exact ⟨h, fun p hp => by cases hp⟩
  · rcases c.locks.acquire txn page access with ⟨locks, _ | _ | _⟩
    · have hbring := (h.setLocks locks).bring page
      obtain ⟨-, hres⟩ := fades_bring { c with locks } page
      simp only
      rcases hb : Cache.bring { c with locks } page with ⟨d, e | p⟩ <;> rw [hb] at hbring hres
      · exact ⟨hbring, fun p hp => by cases hp⟩
      · refine ⟨hbring, fun q hq => ?_⟩
        cases hq
        exact hbring.anchors page p (hres p rfl)
    · exact ⟨h.setLocks locks, fun p hp => by cases hp⟩
    · exact ⟨h.setLocks locks, fun p hp => by cases hp⟩

/-- A page that was changed is entered in its place, and once more if that is to count. -/
theorem change (h : c.Anchored strict) (ha : c.Anchors strict page p) (txn : TransactionId)
    (again : Bool) (entered changed : Outcome) :
    (if again then
      match (c.amend p).enterDirty txn p with
      | .error e => (c.amend p, .error e)
      | .ok c => (c, entered)
    else (c.amend p, changed)).1.Anchored strict := by
  have hamend := h.amend ha
  have hsame : c.Grows (c.amend p) := .of_eq (amend_same c p).1
  have hmarked := (ha.of_grows hsame).mark ⟨ha.proper, rfl⟩ txn
  split
  · split
    · exact hamend
    · rename_i d he
      unfold enterDirty at he
      simp only at he
      split at he
      · cases he
        exact (hamend.place hmarked).noteUse _
      · split at he
        · cases he
        · rename_i d' hroom
          cases he
          have hroomed := hmarked.of_grows (.of_eq (makeRoom_tables hroom))
          exact ((hamend.makeRoom hroom).place hroomed).noteUse _
  · exact hamend

theorem fill (h : c.Anchored strict) (ha : c.Anchors strict page p) (txn : TransactionId)
    {job : Insertion} (whole : job.record.IsWhole) : (c.fill txn job p).1.Anchored strict := by
  unfold Cache.fill
  rcases hi : p.insert job.record with e | ⟨q, place⟩
  · exact h
  · exact h.change (ha.mark (ha.proper.of_insert whole hi) txn) txn job.tracked _ _

theorem removeFrom (h : c.Anchored strict) (ha : c.Anchors strict page p) (txn : TransactionId)
    (job : Deletion) : (c.removeFrom txn job p).1.Anchored strict := by
  unfold Cache.removeFrom
  rcases hd : p.delete (some job.location) with e | q
  · exact h
  · exact h.change (ha.mark (ha.proper.of_delete hd) txn) txn job.tracked _ _

/-- A page that was edited in place is marked, or keeps the mark that it has. -/
theorem edited (h : c.Anchored strict) (ha : c.Anchors strict page p)
    (hq : q.Proper ∧ q.anchor = p.anchor) (hkept : q.dirty = p.dirty) (txn : TransactionId)
    {mark : Bool} (hmarks : strict = true → (!mark && p.dirty.isNone) = false) :
    (c.amend (if mark then q.markDirty txn else q)).Anchored strict := by
  cases mark with
  | true => exact h.amend (ha.mark hq txn)
  | false =>
    rw [if_neg Bool.false_ne_true]
    refine h.amend (ha.alter hq fun hstrict => ?_)
    rw [hkept, ← Option.isSome_iff_ne_none]
    simpa using hmarks hstrict

theorem use (h : c.Anchored strict) (ha : c.Anchors strict page p) (txn : TransactionId)
    {purpose : Purpose} (whole : ∀ r, purpose.record? = some r → r.IsWhole)
    (hmarks : strict = true → purpose.spoils p = false) :
    (c.use txn p purpose).1.Anchored strict := by
  cases purpose with
  | view => exact h
  | viewBefore => exact h
  | pin alone =>
    simp only [Cache.use]
    split
    · exact h.setPinned p.id true
    · exact h
  | insert record mark =>
    simp only [Cache.use]
    split
    · exact h
    · rename_i q place hi
      have hq := ha.proper.of_insert (whole record rfl) hi
      have hkept : q.dirty = p.dirty := by
        obtain ⟨rfl, -⟩ := HeapPage.insert_ok ha.proper hi
        rfl
      refine h.edited ha hq hkept txn fun hstrict => ?_
      simpa [Purpose.spoils, hi, Except.isOk, Except.toBool] using hmarks hstrict
  | delete location mark =>
    simp only [Cache.use]
    split
    · exact h
    · rename_i q hd
      have hkept : q.dirty = p.dirty := by
        obtain ⟨_, -, rfl, -⟩ := HeapPage.delete_ok hd
        rfl
      refine h.edited ha (ha.proper.of_delete hd) hkept txn fun hstrict => ?_
      simpa [Purpose.spoils, hd, Except.isOk, Except.toBool] using hmarks hstrict

theorem fetchAndFill (h : c.Anchored strict) (txn : TransactionId) {job : Insertion}
    (whole : job.record.IsWhole) (page : PageId) :
    b.Rests strict (c.fetchAndFill txn job page) := by
  obtain ⟨hfetch, hpage⟩ := h.fetch txn page .readWrite
  unfold Cache.fetchAndFill
  rcases hf : c.fetch txn page .readWrite with ⟨d, p | e | _⟩ <;> rw [hf] at hfetch hpage
  · exact (hfetch.fill (hpage p rfl) txn whole).rests_finished _
  · exact hfetch.rests_finished _
  · refine hfetch.rests_waiting page ?_ (fun _ => marksAt_of_spoils fun _ => rfl) fun hs => by
      cases hs
    rintro r ⟨⟩
    exact whole

theorem append (h : c.Anchored strict) (hroom : c.HasRoom) (txn : TransactionId) {job : Insertion}
    (whole : job.record.IsWhole) : b.Rests strict (c.append txn job) := by
  have halloc := h.allocate hroom job.table
  unfold Cache.append
  rcases ha : c.allocate job.table with ⟨d, e | page⟩ <;> rw [ha] at halloc
  · exact halloc.rests_finished _
  · exact halloc.fetchAndFill txn whole page

theorem leave (h : c.Anchored strict) (txn : TransactionId) (page : PageId) (held : Bool) :
    (c.leave txn page held).Anchored strict := by
  unfold Cache.leave
  split
  · exact h
  · exact h.setLocks _

theorem seek (h : c.Anchored strict) (hroom : c.HasRoom) (txn : TransactionId) {job : Insertion}
    (whole : job.record.IsWhole) (left : Nat) (number : UInt32) :
    c.Rests strict (seek txn job left number c) := by
  induction left generalizing number c with
  | zero => exact h.append hroom txn whole
  | succ left ih =>
    obtain ⟨hfetch, -⟩ := h.fetch txn ⟨job.table, number⟩ .readOnly
    have hfiles := h.keyed.sameFiles_fetch txn ⟨job.table, number⟩ .readOnly
    unfold Cache.seek
    simp only
    rcases hf : c.fetch txn ⟨job.table, number⟩ .readOnly with ⟨d, p | e | _⟩ <;>
      rw [hf] at hfetch hfiles
    · simp only
      split
      · have hleave := hfiles.trans (.of_eq (leave_tables d txn ⟨job.table, number⟩
          (c.holds txn ⟨job.table, number⟩)))
        exact .after hleave (ih (hfetch.leave txn _ _) (hleave.hasRoom hroom) _)
      · exact hfetch.fetchAndFill txn whole _
    · exact hfetch.rests_finished _
    · refine hfetch.rests_waiting _ ?_ (fun _ => marksAt_of_spoils fun _ => rfl) fun _ => hfiles
      rintro r ⟨⟩
      exact whole

theorem inspect (h : c.Anchored strict) (txn : TransactionId) (job : Deletion) (p : HeapPage) :
    b.Rests strict (c.inspect txn job p) := by
  unfold Cache.inspect
  simp only
  split
  · exact h.rests_finished _
  · split
    · exact h.rests_finished _
    · obtain ⟨hfetch, hpage⟩ := h.fetch txn job.location.page .readWrite
      rcases hf : c.fetch txn job.location.page .readWrite with ⟨d, q | e | _⟩ <;>
        rw [hf] at hfetch hpage
      · exact (hfetch.removeFrom (hpage q rfl) txn job).rests_finished _
      · exact hfetch.rests_finished _
      · exact hfetch.rests_waiting _ nofun (fun _ => marksAt_of_spoils fun _ => rfl) nofun

theorem walk (h : c.Anchored strict) (txn : TransactionId) (left : Nat) (draw : Draw) :
    b.Rests strict (walk txn left draw c) := by
  induction left using Nat.strong_induction_on generalizing draw c with | _ left ih
  rcases walk_cases txn left draw c with ⟨-, he⟩ | ⟨-, -, he⟩ | ⟨-, -, rest, rfl, he⟩ <;> rw [he]
  · exact h.rests_finished _
  · exact h.rests_finished _
  · obtain ⟨hfetch, -⟩ := h.fetch txn draw.serve.page .readOnly
    rcases hf : c.fetch txn draw.serve.page .readOnly with ⟨d, p | e | _⟩ <;> rw [hf] at hfetch
    · exact ih rest (Nat.lt_succ_self rest) hfetch _
    · exact hfetch.rests_finished _
    · exact hfetch.rests_waiting _ nofun (fun _ => marksAt_of_spoils fun _ => rfl) nofun

/-- A call goes on from any stage with its page, or with the reason why it has none. -/
theorem proceed (h : c.Anchored strict) (txn : TransactionId) {stage : Stage}
    (hroom : stage.seeks = true → c.HasRoom) (whole : stage.StoresWhole)
    {result : Except StoreError HeapPage} (ha : ∀ p, result = .ok p → c.Anchors strict page p)
    (hmarks : strict = true → ∀ p, result = .ok p → stage.spoils p = false) :
    c.Rests strict (c.proceed txn page stage result) := by
  cases result with
  | error e => cases stage <;> exact h.rests_finished _
  | ok p =>
    have hp := ha p rfl
    cases stage with
    | use purpose => exact (h.use hp txn whole fun hstrict => hmarks hstrict p rfl).rests_finished _
    | seek job left next held =>
      unfold Cache.proceed
      simp only
      split
      · have hleave := SameFiles.of_eq (leave_tables c txn page held)
        exact .after hleave
          ((h.leave txn page held).seek (hleave.hasRoom (hroom rfl)) txn (whole _ rfl) left next)
      · exact h.fetchAndFill txn (whole _ rfl) page
    | fill job => exact (h.fill hp txn (whole _ rfl)).rests_finished _
    | inspect job => exact h.inspect txn job p
    | remove job => exact (h.removeFrom hp txn job).rests_finished _
    | walk d => exact h.walk txn _ (d.receive p)

/-- The page that a call has waited for is brought in, if that is possible. -/
theorem brought (h : c.Anchored strict) (txn : TransactionId) (page : PageId) {stage : Stage}
    (hroom : stage.seeks = true → c.HasRoom) (whole : stage.StoresWhole)
    (hmarks : strict = true → c.marksAt page stage = true) :
    c.Rests strict ((c.bring page).1.proceed txn page stage (c.bring page).2) := by
  have hbring := h.bring page
  obtain ⟨-, hres⟩ := fades_bring c page
  have hfiles := sameFiles_bring h.keyed page
  refine .after hfiles (hbring.proceed txn (fun hs => hfiles.hasRoom (hroom hs)) whole
    (fun p hp => hbring.anchors page p (hres p hp)) ?_)
  rintro rfl p hp
  exact spoils_of_marksAt (hmarks rfl) ((h.grounded.bring page).2.2.2 p hp).1

theorem ask (h : c.Anchored strict) (txn : TransactionId) (page : PageId) (access : Access)
    {stage : Stage} (hseeks : stage.seeks = false) (whole : stage.StoresWhole)
    (hmarks : strict = true → c.marksAt page stage = true) :
    c.Rests strict (c.ask txn page access stage) := by
  obtain ⟨hfetch, hpage⟩ := h.fetch txn page access
  have hfiles := h.keyed.sameFiles_fetch txn page access
  have hnever : ∀ {d : Cache}, stage.seeks = true → d.HasRoom := fun hs => by
    rw [hseeks] at hs
    cases hs
  unfold Cache.ask
  rcases hf : c.fetch txn page access with ⟨d, p | e | _⟩ <;> rw [hf] at hfetch hpage hfiles
  · apply Rests.after hfiles
    apply hfetch.proceed txn hnever whole
    · rintro q ⟨⟩
      exact hpage p rfl
    · rintro rfl q ⟨⟩
      obtain ⟨-, hview⟩ := h.grounded.fetch txn page access
      rw [hf] at hview
      exact spoils_of_marksAt (hmarks rfl) (hview p rfl)
  · exact .after hfiles (hfetch.proceed txn hnever whole nofun fun _ => nofun)
  · refine hfetch.rests_waiting page whole ?_ fun _ => hfiles
    rintro rfl
    obtain ⟨hquiet, -⟩ := h.grounded.fetch txn page access
    rw [hf] at hquiet
    rw [marksAt, hquiet.view_eq]
    exact hmarks rfl

theorem start (h : c.Anchored strict) (hroom : c.HasRoom) (txn : TransactionId) {op : Operation}
    (whole : op.StoresWhole)
    (hmarks : strict = true → c.marks op = true) : c.Rests strict (c.start txn op) := by
  cases op with
  | fetch page access purpose => exact h.ask txn page access rfl whole hmarks
  | insert job =>
    simp only [Cache.start, startInsert]
    split
    · exact h.rests_finished _
    · split
      · exact h.rests_finished _
      · exact h.seek hroom txn (whole _ rfl) _ 0
  | delete location =>
    simp only [Cache.start, startDelete]
    split
    · exact h.rests_finished _
    · split
      · exact h.rests_finished _
      · exact h.ask txn _ .readOnly rfl (fun _ hr => by cases hr) fun _ =>
          marksAt_of_spoils fun _ => rfl
  | deleteFrom table location =>
    simp only [Cache.start, startDeleteFrom]
    split
    · exact h.rests_finished _
    · exact h.rests_finished _
    · split
      · exact h.rests_finished _
      · exact h.ask txn _ .readOnly rfl (fun _ hr => by cases hr) fun _ =>
          marksAt_of_spoils fun _ => rfl
  | scan table =>
    simp only [Cache.start]
    split
    · exact h.rests_finished _
    · exact h.walk txn _ _
  | draw cursor count => exact h.walk txn _ _

/-! ## Endings -/

/-- A changed page can be written to its file. -/
theorem marked (h : c.Anchored strict) (hf : c.tables.get? page.table = some f)
    (hres : c.residentPage page = some p) (hdirty : p.dirty ≠ none) : c.Marked page p f := by
  have ha := h.anchors page p hres
  have hid := ha.id_eq
  obtain ⟨⟨g, hg, hreach⟩, hproper, ⟨q, hq, hanchor⟩, -⟩ := ha
  rw [hf, Option.some.injEq] at hg
  subst hg
  rw [onDisk, hf] at hq
  obtain ⟨-, -, hschema, hsize, -⟩ := TableFile.stored_proper (f := f) hq
  have hschema' := congrArg HeapPage.schema hanchor
  have hsize' := congrArg HeapPage.size hanchor
  exact ⟨hf, hres, hdirty, hid, (h.keyed _ f hf).symm, hproper, hschema'.trans hschema,
    hsize'.trans hsize, hreach.in_range⟩

theorem exists_file (h : c.Anchored strict) (hres : c.residentPage page = some p) :
    ∃ f, c.tables.get? page.table = some f := by
  obtain ⟨f, hf, -⟩ := (h.anchors page p hres).reaches
  exact ⟨f, hf⟩

theorem setLog (h : c.Anchored strict) (log : Option WriteLog) : Anchored { c with log } strict :=
  h.of_same rfl fun _ => rfl

/-- A page that was written is anchored in the file as it is then. -/
theorem wroteBack (h : c.Anchored strict) (hm : c.Marked page p f) :
    (c.wroteBack f p).Anchored strict where
  keyed id g hg := by
    rw [hm.tables_wroteBack] at hg
    split at hg
    · rename_i hid
      cases hg
      rw [hid, hm.table_eq]
      rfl
    · exact h.keyed id g hg
  anchors other r hr := by
    rw [Cache.wroteBack, residentPage_place, show p.markClean.snapshot.id = page from hm.id_eq]
      at hr
    have hdisk := hm.onDisk_wroteBack other
    split at hr
    · rename_i hother
      cases hr
      rw [if_pos hother, HeapPage.saved_of_dirty hm.dirty] at hdisk
      have hreach := (h.anchors page p hm.resident).reaches
      obtain ⟨hcount, hbits, hrows⟩ := hm.proper
      exact ⟨hm.reaches_wroteBack (hother ▸ hreach), ⟨hcount, hbits, hrows⟩, ⟨_, hdisk, rfl⟩,
        fun _ _ => hdisk⟩
    · rename_i hother
      rw [if_neg hother] at hdisk
      obtain ⟨hreach, hproper, ⟨q, hq, hanchor⟩, hclean⟩ := h.anchors other r hr
      exact ⟨hm.reaches_wroteBack hreach, hproper, ⟨q, hdisk.trans hq, hanchor⟩,
        fun hstrict hnone => hdisk.trans (hclean hstrict hnone)⟩

theorem writeBack (h : c.Anchored strict) (hres : c.residentPage page = some p)
    (hdirty : p.dirty ≠ none) (txn : TransactionId) : (c.writeBack txn p).1.Anchored strict := by
  obtain ⟨f, hf⟩ := h.exists_file hres
  obtain ⟨log, result, htell⟩ := tellLog_eq c txn p
  have hset := h.setLog log
  have hm := hset.marked hf hres hdirty
  unfold Cache.writeBack
  rw [hm.id_eq, table_eq_ok hf, htell c rfl]
  cases result with
  | error e => exact hset
  | ok _ =>
    simp only [hm.write_eq]
    rw [hm.amend_eq]
    exact hset.wroteBack hm

theorem writeBackAll (h : c.Anchored strict) (txn : TransactionId) (pages : List PageId) :
    (writeBackAll txn pages c).1.Anchored strict := by
  induction pages generalizing c with
  | nil => exact h
  | cons page rest ih =>
    unfold Cache.writeBackAll
    split
    · exact ih h
    · rename_i p hres
      split
      · exact ih h
      · rename_i hdirty
        have hwrite := h.writeBack hres (by simpa using hdirty) txn
        rcases hw : c.writeBack txn p with ⟨d, e | _⟩ <;> rw [hw] at hwrite
        · exact hwrite
        · exact ih hwrite

theorem commit (h : c.Anchored strict) (txn : TransactionId) :
    (c.commit txn).1.Anchored strict := by
  have hwritten := h.writeBackAll txn (c.heldPages txn)
  unfold Cache.commit
  rcases hw : Cache.writeBackAll txn (c.heldPages txn) c with ⟨d, e | _⟩ <;> rw [hw] at hwritten
  · exact hwritten
  · exact hwritten.setLocks _

theorem reloadAll (h : c.Anchored strict) (pages : List PageId) (first : Option StoreError) :
    (reloadAll pages first c).1.Anchored strict := by
  induction pages generalizing c first with
  | nil => exact h
  | cons page rest ih =>
    unfold Cache.reloadAll
    split
    · exact ih h first
    · split
      · exact ih h first
      · obtain ⟨hread, hpage⟩ := h.readPage page
        rcases hr : c.readPage page.table page with ⟨d, e | fresh⟩ <;> rw [hr] at hread hpage
        · exact ih (hread.discard page) _
        · exact ih (hread.amend (hpage fresh rfl)) first

theorem abort (h : c.Anchored strict) (txn : TransactionId) : (c.abort txn).1.Anchored strict :=
  (h.reloadAll (c.heldPages txn) none).setLocks _

theorem flush (h : c.Anchored strict) (page : PageId) : (c.flush page).1.Anchored strict := by
  unfold Cache.flush
  split
  · exact h
  · rename_i p hres
    split
    · exact h
    · rename_i txn hmark
      exact h.writeBack hres (by simp [hmark]) txn

theorem flushList (h : c.Anchored strict) (pages : List PageId) :
    (flushList pages c).1.Anchored strict := by
  induction pages generalizing c with
  | nil => exact h
  | cons page rest ih =>
    have hflush := h.flush page
    unfold Cache.flushList
    rcases hf : c.flush page with ⟨d, e | _⟩ <;> rw [hf] at hflush
    · exact hflush
    · exact ih hflush

end Anchored

end Cache

end PageCache
