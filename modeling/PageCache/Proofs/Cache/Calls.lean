-- What a call does at each of its stages, from its start to its end. A page is changed in
-- its place, under a lock for writing; all the steps before that are quiet.
import PageCache.Proofs.Cache.Fetching

namespace PageCache

namespace Cache

variable {c c' d : Cache} {page : PageId} {p q : HeapPage} {txn : TransactionId} {ch : Change}

/-! ## Changing a page -/

/-- A page in its place is replaced by a changed one, and nothing else happens. -/
structure Replaced (txn : TransactionId) (ch : Change) (p : HeapPage) (c c' : Cache) : Prop where
  tables_eq : c'.tables = c.tables
  locks_eq : c'.locks = c.locks
  log_eq : c'.log = c.log
  resident_eq : ∀ other, c'.residentPage other =
    if other = ch.place.page then some ((p.change ch).markDirty txn) else c.residentPage other

theorem Replaced.view_eq (h : Replaced txn ch p c c')
    (hres : c.residentPage ch.place.page = some p) (page : PageId) :
    c'.view page = (c.view page).map (·.altered txn (some ch) page) := by
  rw [view, h.resident_eq]
  by_cases heq : page = ch.place.page
  · rw [heq, if_pos rfl, view_of_resident hres, Option.some_or, Option.map_some,
      HeapPage.altered, if_pos rfl]
  · have hsame : (fun r : HeapPage => r.altered txn (some ch) page) = id := by
      funext r
      rw [HeapPage.altered, if_neg (Ne.symm heq), id]
    rw [if_neg heq, hsame, Option.map_id, id, view, onDisk, onDisk, h.tables_eq]

theorem Replaced.sound (h : Replaced txn ch p c c') (hc : c.Sound)
    (hres : c.residentPage ch.place.page = some p)
    (hheld : c.locks.table.heldMode txn ch.place.page = some .readWrite)
    (hrow : ∀ row, ch.row = some row → Record.RowFits p.schema.types row) : c'.Sound := by
  have hgrows : c.Grows c' := .of_eq h.tables_eq
  refine ⟨⟨?_, ?_, ?_⟩, ?_⟩
  · exact hgrows.keyed hc.keyed
  · intro page r hr
    rw [h.resident_eq] at hr
    split at hr
    · rename_i heq
      rw [heq]
      exact hgrows.reaches (hc.reached _ p hres)
    · exact hgrows.reaches (hc.reached page r hr)
  · intro page r hr
    rw [h.view_eq hres] at hr
    obtain ⟨old, hold, rfl⟩ := Option.map_eq_some_iff.1 hr
    obtain ⟨q, hq, hproper, hover⟩ := hc.lies_over page old hold
    rw [hgrows.onDisk_eq]
    refine ⟨q, hq, ?_⟩
    rw [HeapPage.altered]
    split
    · rename_i heq
      rw [← heq, view_of_resident hres, Option.some.injEq] at hold
      subst hold
      exact ⟨(hproper.change ch hrow).markDirty txn, hover.alter ch txn⟩
    · exact ⟨hproper, hover⟩
  · intro page r u hr hdirty
    rw [h.view_eq hres] at hr
    obtain ⟨old, hold, rfl⟩ := Option.map_eq_some_iff.1 hr
    rw [h.locks_eq]
    rw [HeapPage.altered] at hdirty
    split at hdirty
    · rename_i heq
      cases hdirty
      rw [← heq]
      exact hheld
    · exact hc.locked page old u hold hdirty

/-- Whoever writes alone on a page may replace it. -/
theorem Ready.did_alter (h : c.Ready txn) (hres : c.residentPage ch.place.page = some p)
    (hheld : c.locks.table.heldMode txn ch.place.page = some .readWrite)
    (hrow : ∀ row, ch.row = some row → Record.RowFits p.schema.types row)
    (hreplaced : Replaced txn ch p c c') : c.Did txn (some ch) c' := by
  refine ⟨.of_eq hreplaced.tables_eq, hreplaced.view_eq hres,
    hreplaced.sound h.sound hres hheld hrow, ?_, hreplaced.log_eq, ?_⟩
  · rw [hreplaced.locks_eq]
    exact .refl h.orderly
  · intro ch' hch
    cases hch
    rw [hreplaced.locks_eq]
    exact ⟨hheld, p, view_of_resident hres⟩

/-- A page that was changed in its place may be entered once more, as one more use. -/
theorem enterDirty_amend (hres : c.residentPage p.id = some q) :
    (c.amend p).enterDirty txn p =
      .ok (((c.amend p).place (p.markDirty txn)).noteUse p.id) := by
  have hafter := residentPage_amend hres p.id
  rw [if_pos rfl] at hafter
  unfold enterDirty
  exact if_pos (contains_of_resident hafter)

/-- The page is put into its place, and a second time if the change is tracked. -/
theorem Ready.did_enter (h : c.Ready txn) (ch : Change)
    (hres : c.residentPage ch.place.page = some p)
    (hheld : c.locks.table.heldMode txn ch.place.page = some .readWrite)
    (hrow : ∀ row, ch.row = some row → Record.RowFits p.schema.types row)
    (hid : p.id = ch.place.page) :
    (c.Did txn (some ch) (c.amend ((p.change ch).markDirty txn)) ∧
      (c.amend ((p.change ch).markDirty txn)).locks = c.locks) ∧
    ∃ d, (c.amend ((p.change ch).markDirty txn)).enterDirty txn ((p.change ch).markDirty txn) =
      .ok d ∧ c.Did txn (some ch) d ∧ d.locks = c.locks := by
  have hid' : ((p.change ch).markDirty txn).id = ch.place.page := hid
  have hres' : c.residentPage ((p.change ch).markDirty txn).id = some p := by rw [hid', hres]
  have hamend := residentPage_amend hres'
  rw [hid'] at hamend
  obtain ⟨htables, hlocks, hlog⟩ := amend_same c ((p.change ch).markDirty txn)
  refine ⟨⟨h.did_alter hres hheld hrow ⟨htables, hlocks, hlog, hamend⟩, hlocks⟩, _,
    enterDirty_amend hres', ?_, hlocks⟩
  apply h.did_alter hres hheld hrow
  refine ⟨htables, hlocks, hlog, ?_⟩
  intro other
  have hplace := residentPage_place (c.amend ((p.change ch).markDirty txn))
    (((p.change ch).markDirty txn).markDirty txn) other
  refine hplace.trans ?_
  rw [hamend]
  change (if other = p.id then _ else _) = _
  rw [hid]
  split <;> rfl

theorem Ready.proceeds_fill (h : c.Ready txn) {job : Insertion} (hwhole : job.record.IsWhole)
    (hres : c.residentPage page = some p)
    (hheld : c.locks.table.heldMode txn page = some .readWrite) :
    c.Proceeds txn (.store job.record.values) (finish (c.fill txn job p)) := by
  have hview := view_of_resident hres
  obtain ⟨q, -, hproper, -⟩ := h.sound.lies_over page p hview
  have hid := h.sound.id_eq hview
  unfold fill
  rcases hins : p.insert job.record with e | ⟨r, place⟩
  · exact (Calm.refl h).proceeds_error h.sound h.idle e
  · obtain ⟨rfl, hplace, hschema, hfits⟩ := HeapPage.insert_ok hproper hins
    have hpage : place.page = page := hplace.trans hid
    have hrow : ∀ row, some job.record.values = some row → Record.RowFits p.schema.types row := by
      intro row hr
      cases hr
      rw [← hschema]
      exact (Record.rowFits_iff job.record).2 ⟨hwhole, hfits⟩
    obtain ⟨⟨hdid, hlocks⟩, d, henter, hdid', hlocks'⟩ :=
      h.did_enter ⟨place, some job.record.values⟩ (by rw [hpage]; exact hres)
        (by rw [hpage]; exact hheld) hrow hplace.symm
    simp only
    split
    · rw [henter]
      exact ⟨hdid', (congrArg (·.pending.get? txn) hlocks').trans h.idle,
        fun _ _ herrand => by cases herrand⟩
    · exact ⟨hdid, (congrArg (·.pending.get? txn) hlocks).trans h.idle,
        fun _ _ herrand => by cases herrand⟩

theorem Ready.proceeds_removeFrom (h : c.Ready txn) {job : Deletion}
    (hres : c.residentPage page = some p)
    (hheld : c.locks.table.heldMode txn page = some .readWrite) :
    c.Proceeds txn (.clear job.location) (finish (c.removeFrom txn job p)) := by
  have hid := h.sound.id_eq (view_of_resident hres)
  unfold removeFrom
  rcases hdel : p.delete (some job.location) with e | r
  · exact (Calm.refl h).proceeds_error h.sound h.idle e
  · obtain ⟨place, hloc, rfl, hplace⟩ := HeapPage.delete_ok hdel
    cases hloc
    have hpage : job.location.page = page := hplace.trans hid
    obtain ⟨⟨hdid, hlocks⟩, d, henter, hdid', hlocks'⟩ :=
      h.did_enter ⟨job.location, none⟩ (by rw [hpage]; exact hres) (by rw [hpage]; exact hheld)
        (fun row hr => by cases hr) hplace.symm
    simp only
    split
    · rw [henter]
      exact ⟨hdid', (congrArg (·.pending.get? txn) hlocks').trans h.idle,
        fun _ _ herrand => by cases herrand⟩
    · exact ⟨hdid, (congrArg (·.pending.get? txn) hlocks).trans h.idle,
        fun _ _ herrand => by cases herrand⟩

/-! ## Stages -/

/-- A page that was granted for writing is held so. -/
theorem eq_readWrite_of_covers {m : Access} (h : m.covers .readWrite = true) : m = .readWrite := by
  cases m
  · cases h
  · rfl

theorem Ready.proceeds_fetchAndFill (h : c.Ready txn) {job : Insertion}
    (hwhole : job.record.IsWhole) (page : PageId) :
    c.Proceeds txn (.store job.record.values) (c.fetchAndFill txn job page) := by
  obtain ⟨hcalm, hfiles, hanswer⟩ := h.fetch page .readWrite
  unfold fetchAndFill
  rcases hf : c.fetch txn page .readWrite with ⟨c', r | e | _⟩
  · rw [hf] at hcalm hfiles hanswer
    obtain ⟨hidle, -, hres, m, hm, hcov, -⟩ := hanswer
    rw [eq_readWrite_of_covers hcov] at hm
    exact .after hcalm hfiles ((hcalm.ready h.sound hidle).proceeds_fill hwhole hres hm)
  · rw [hf] at hcalm hanswer
    exact hcalm.proceeds_error h.sound hanswer e
  · rw [hf] at hcalm hfiles hanswer
    obtain ⟨entered, hp⟩ := hanswer
    exact ⟨hcalm, fun _ => hfiles, rfl, hwhole, _, hp, rfl, rfl⟩

/-- A call that waits to fill a page looks no further. -/
theorem fetchAndFill_settles (c : Cache) (txn : TransactionId) (job : Insertion) (page : PageId)
    (other : PageId) (stage : Stage) (hw : (c.fetchAndFill txn job page).2 = .waiting other stage) :
    stage.seeks = false := by
  unfold fetchAndFill at hw
  split at hw <;> cases hw
  rfl

theorem Ready.calm_allocate (h : c.Ready txn) (hroom : c.HasRoom) (id : TableId) :
    c.Calm txn (c.allocate id).1 ∧ (c.allocate id).1.locks = c.locks := by
  obtain ⟨hquiet, hlocks, hlog⟩ := h.sound.quiet_allocate hroom id
  exact ⟨⟨hquiet, by rw [hlocks]; exact .refl h.orderly, hlog⟩, hlocks⟩

theorem Ready.proceeds_append (h : c.Ready txn) (hroom : c.HasRoom) {job : Insertion}
    (hwhole : job.record.IsWhole) :
    c.Proceeds txn (.store job.record.values) (c.append txn job) := by
  obtain ⟨hcalm, hlocks⟩ := h.calm_allocate hroom job.table
  unfold append
  rcases ha : c.allocate job.table with ⟨c', e | page⟩
  · rw [ha] at hcalm hlocks
    exact hcalm.proceeds_error h.sound ((congrArg (·.pending.get? txn) hlocks).trans h.idle) e
  · rw [ha] at hcalm hlocks
    have hready := hcalm.ready h.sound ((congrArg (·.pending.get? txn) hlocks).trans h.idle)
    refine .after_growth hcalm (fun other stage hw hseeks => ?_)
      (hready.proceeds_fetchAndFill hwhole page)
    rw [fetchAndFill_settles c' txn job page other stage hw] at hseeks
    cases hseeks

/-- A lock that was taken for reading only is given back quietly. -/
theorem Ready.calm_leave (h : c.Ready txn) (page : PageId) (held : Bool)
    (hnot : held = false → c.locks.table.heldMode txn page ≠ some .readWrite) :
    c.Calm txn (c.leave txn page held) ∧ (c.leave txn page held).locks.pending.get? txn = none := by
  unfold leave
  split
  · exact ⟨.refl h, h.idle⟩
  · rename_i hheld
    exact ⟨⟨.of_same rfl fun _ => rfl, h.orderly.turn_release (hnot (by simpa using hheld)), rfl⟩,
      h.idle⟩

theorem leave_tables (c : Cache) (txn : TransactionId) (page : PageId) (held : Bool) :
    (c.leave txn page held).tables = c.tables := by
  unfold leave
  split <;> rfl

/-- The search for an empty slot goes on quietly, page by page. -/
theorem Ready.proceeds_seek (h : c.Ready txn) (hroom : c.HasRoom) {job : Insertion}
    (hwhole : job.record.IsWhole) (left : Nat) (number : UInt32) :
    c.Proceeds txn (.store job.record.values) (seek txn job left number c) := by
  induction left generalizing number c with
  | zero => exact h.proceeds_append hroom hwhole
  | succ left ih =>
    obtain ⟨hcalm, hfiles, hanswer⟩ := h.fetch ⟨job.table, number⟩ .readOnly
    unfold seek
    simp only
    rcases hf : c.fetch txn ⟨job.table, number⟩ .readOnly with ⟨c', r | e | _⟩
    · rw [hf] at hcalm hfiles hanswer
      obtain ⟨hidle, -, hres, m, hm, -, hnew⟩ := hanswer
      have hready := hcalm.ready h.sound hidle
      simp only
      split
      · have hnot : c.holds txn ⟨job.table, number⟩ = false →
            c'.locks.table.heldMode txn ⟨job.table, number⟩ ≠ some .readWrite := by
          intro hfalse
          rw [hm, hnew hfalse]
          simp
        obtain ⟨hleave, hidle'⟩ := hready.calm_leave ⟨job.table, number⟩ _ hnot
        have hfiles' := hfiles.trans (.of_eq (leave_tables c' txn ⟨job.table, number⟩
          (c.holds txn ⟨job.table, number⟩)))
        exact .after (hcalm.trans hleave) hfiles'
          (ih (hleave.ready hready.sound hidle') (hfiles'.hasRoom hroom) _)
      · exact .after hcalm hfiles (hready.proceeds_fetchAndFill hwhole _)
    · rw [hf] at hcalm hanswer
      exact hcalm.proceeds_error h.sound hanswer e
    · rw [hf] at hcalm hfiles hanswer
      obtain ⟨entered, hp⟩ := hanswer
      exact ⟨hcalm, fun _ => hfiles, rfl, hwhole, _, hp, rfl, rfl⟩

theorem Ready.proceeds_inspect (h : c.Ready txn) (job : Deletion) (p : HeapPage) :
    c.Proceeds txn (.clear job.location) (c.inspect txn job p) := by
  unfold inspect
  simp only
  split
  · exact (Calm.refl h).proceeds_error h.sound h.idle _
  · split
    · exact (Calm.refl h).proceeds_error h.sound h.idle _
    · obtain ⟨hcalm, hfiles, hanswer⟩ := h.fetch job.location.page .readWrite
      rcases hf : c.fetch txn job.location.page .readWrite with ⟨c', r | e | _⟩
      · rw [hf] at hcalm hfiles hanswer
        obtain ⟨hidle, -, hres, m, hm, hcov, -⟩ := hanswer
        rw [eq_readWrite_of_covers hcov] at hm
        exact .after hcalm hfiles ((hcalm.ready h.sound hidle).proceeds_removeFrom hres hm)
      · rw [hf] at hcalm hanswer
        exact hcalm.proceeds_error h.sound hanswer e
      · rw [hf] at hcalm hfiles hanswer
        obtain ⟨entered, hp⟩ := hanswer
        exact ⟨hcalm, fun _ => hfiles, rfl, trivial, _, hp, rfl, rfl⟩

theorem Ready.proceeds_walk (h : c.Ready txn) (left : Nat) {draw : Draw} (hd : draw.IsSmooth) :
    c.Proceeds txn .read (walk txn left draw c) := by
  induction left using Nat.strong_induction_on generalizing draw c with | _ left ih
  rcases walk_cases txn left draw c with ⟨-, he⟩ | ⟨-, -, he⟩ | ⟨-, -, rest, rfl, he⟩ <;> rw [he]
  · exact (Calm.refl h).proceeds_read h.sound h.idle _
  · exact (Calm.refl h).proceeds_read h.sound h.idle _
  · obtain ⟨hcalm, hfiles, hanswer⟩ := h.fetch draw.serve.page .readOnly
    rcases hf : c.fetch txn draw.serve.page .readOnly with ⟨c', r | e | _⟩
    · rw [hf] at hcalm hfiles hanswer
      have hready := hcalm.ready h.sound hanswer.1
      exact .after hcalm hfiles (ih rest (Nat.lt_succ_self rest) hready hd.serve)
    · rw [hf] at hcalm hanswer
      exact hcalm.proceeds_read h.sound hanswer _
    · rw [hf] at hcalm hfiles hanswer
      obtain ⟨entered, hp⟩ := hanswer
      exact ⟨hcalm, fun _ => hfiles, rfl, hd.serve, _, hp, rfl, trivial⟩

/-- A page that is used without an edit is not changed. -/
theorem Ready.proceeds_use (h : c.Ready txn) (hres : c.residentPage page = some p)
    (hholds : c.holds txn page = true) {purpose : Purpose} (hplain : purpose.edits = false) :
    c.Proceeds txn (.visit page purpose) (finish (c.use txn p purpose)) := by
  cases purpose with
  | view =>
    refine ⟨(Calm.refl h).did h.sound, h.idle, ?_⟩
    intro other r herrand hout
    cases herrand
    cases hout
    exact ⟨view_of_resident hres, hholds⟩
  | viewBefore =>
    exact ⟨(Calm.refl h).did h.sound, h.idle, fun _ _ herrand => by cases herrand⟩
  | pin alone =>
    have hcalm : c.Calm txn (if alone then c.setPinned p.id true else c) ∧
        (if alone then c.setPinned p.id true else c).locks = c.locks := by
      split
      · have hsame : (c.setPinned p.id true).locks = c.locks ∧
            (c.setPinned p.id true).log = c.log := by
          unfold setPinned
          split <;> exact ⟨rfl, rfl⟩
        refine ⟨⟨quiet_setPinned c p.id true, ?_, hsame.2⟩, hsame.1⟩
        rw [hsame.1]
        exact .refl h.orderly
      · exact ⟨.refl h, rfl⟩
    exact ⟨hcalm.1.did h.sound, (congrArg (·.pending.get? txn) hcalm.2).trans h.idle,
      fun _ _ herrand => by cases herrand⟩
  | insert record mark => cases hplain
  | delete location mark => cases hplain

/-- A call goes on from any stage once it has its page, locked as it asked for, or none. -/
theorem Ready.proceeds (h : c.Ready txn) {stage : Stage} (hroom : stage.seeks = true → c.HasRoom)
    (hplain : stage.IsPlain) (page : PageId) (result : Except StoreError HeapPage)
    (hpage : ∀ p, result = .ok p → c.residentPage page = some p ∧
      ∃ m, c.locks.table.heldMode txn page = some m ∧ stage.Asks m) :
    c.Proceeds txn (stage.errand page) (c.proceed txn page stage result) := by
  cases result with
  | error e =>
    cases stage with
    | walk d => exact (Calm.refl h).proceeds_read h.sound h.idle _
    | use purpose => exact (Calm.refl h).proceeds_error h.sound h.idle e
    | seek job left next held => exact (Calm.refl h).proceeds_error h.sound h.idle e
    | fill job => exact (Calm.refl h).proceeds_error h.sound h.idle e
    | inspect job => exact (Calm.refl h).proceeds_error h.sound h.idle e
    | remove job => exact (Calm.refl h).proceeds_error h.sound h.idle e
  | ok p =>
    obtain ⟨hres, m, hm, hasks⟩ := hpage p rfl
    cases stage with
    | walk d => exact h.proceeds_walk _ (hplain : (d.receive p).IsSmooth)
    | use purpose =>
      have hholds : c.holds txn page = true := LockTable.holds_iff.2 (by rw [hm]; simp)
      exact h.proceeds_use hres hholds hplain
    | seek job left next held =>
      unfold proceed
      simp only
      split
      · have hnot : held = false → c.locks.table.heldMode txn page ≠ some .readWrite := by
          intro _
          rw [hm, hasks]
          simp
        obtain ⟨hleave, hidle⟩ := h.calm_leave page held hnot
        have hfiles := SameFiles.of_eq (leave_tables c txn page held)
        exact .after hleave hfiles ((hleave.ready h.sound hidle).proceeds_seek
          (hfiles.hasRoom (hroom rfl)) hplain _ _)
      · exact h.proceeds_fetchAndFill hplain page
    | fill job =>
      rw [show m = .readWrite from hasks] at hm
      exact h.proceeds_fill hplain hres hm
    | inspect job => exact h.proceeds_inspect job p
    | remove job =>
      rw [show m = .readWrite from hasks] at hm
      exact h.proceeds_removeFrom hres hm

/-! ## Whole operations -/

theorem Ready.proceeds_ask (h : c.Ready txn) (page : PageId) (access : Access)
    (stage : Stage) (hseeks : stage.seeks = false) (hplain : stage.IsPlain)
    (hasks : ∀ m, stage.Asks m) :
    c.Proceeds txn (stage.errand page) (c.ask txn page access stage) := by
  obtain ⟨hcalm, hfiles, hanswer⟩ := h.fetch page access
  unfold ask
  have hnever : ∀ {d : Cache}, stage.seeks = true → d.HasRoom := by
    intro d h
    rw [hseeks] at h
    cases h
  rcases hf : c.fetch txn page access with ⟨c', r | e | _⟩
  · rw [hf] at hcalm hfiles hanswer
    obtain ⟨hidle, -, hres, m, hm, -, -⟩ := hanswer
    refine .after hcalm hfiles ((hcalm.ready h.sound hidle).proceeds hnever hplain page _ ?_)
    intro p hp
    cases hp
    exact ⟨hres, m, hm, hasks m⟩
  · rw [hf] at hcalm hfiles hanswer
    refine .after hcalm hfiles ((hcalm.ready h.sound hanswer).proceeds hnever hplain page _ ?_)
    intro p hp
    cases hp
  · rw [hf] at hcalm hfiles hanswer
    obtain ⟨entered, hp⟩ := hanswer
    exact ⟨hcalm, fun _ => hfiles, rfl, hplain, _, hp, rfl, hasks access⟩

/-- An operation makes the change that its outcome tells of, or waits and has changed
nothing yet. -/
theorem Ready.proceeds_start (h : c.Ready txn) (hroom : c.HasRoom) {op : Operation}
    (hplain : op.IsPlain) : c.Proceeds txn op.errand (c.start txn op) := by
  cases op with
  | fetch page access purpose =>
    exact h.proceeds_ask page access (.use purpose) rfl hplain fun _ => trivial
  | insert job =>
    simp only [start, startInsert]
    split
    · exact (Calm.refl h).proceeds_error h.sound h.idle _
    · split
      · exact (Calm.refl h).proceeds_error h.sound h.idle _
      · exact h.proceeds_seek hroom hplain _ _
  | delete location =>
    cases location with
    | none => exact (Calm.refl h).proceeds_error h.sound h.idle _
    | some place =>
      simp only [start, startDelete]
      split
      · exact (Calm.refl h).proceeds_error h.sound h.idle _
      · exact h.proceeds_ask place.page .readOnly (.inspect ⟨place, true⟩) rfl trivial
          fun _ => trivial
  | deleteFrom table location =>
    simp only [start, startDeleteFrom]
    cases location with
    | none =>
      rcases c.table table with e | file <;> exact (Calm.refl h).proceeds_error h.sound h.idle _
    | some place =>
      rcases c.table table with e | file
      · exact (Calm.refl h).proceeds_error h.sound h.idle _
      · simp only
        split
        · exact (Calm.refl h).proceeds_error h.sound h.idle _
        · exact h.proceeds_ask place.page .readOnly (.inspect ⟨place, false⟩) rfl trivial
            fun _ => trivial
  | scan table =>
    simp only [start]
    split
    · exact (Calm.refl h).proceeds_read h.sound h.idle _
    · exact h.proceeds_walk _ (Draw.isSmooth_nil _ _)
  | draw cursor count => exact h.proceeds_walk _ (Draw.isSmooth_nil _ _)

end Cache

end PageCache
