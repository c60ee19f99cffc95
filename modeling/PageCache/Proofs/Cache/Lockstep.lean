-- One call on two caches that nobody can tell apart. It does the same on both, step by step,
-- unless one of them is full and says so.
import PageCache.Proofs.Cache.Alike
import PageCache.Proofs.Cache.Calls

namespace PageCache

/-! ## A full cache -/

/-- An item of a cursor, or a result, that tells of a full cache. -/
def Item.isExhausted : Item → Bool
  | .error (.cacheFull _) => true
  | _ => false

/-- The call has failed, or has handed out a failure, because the cache was full. -/
def Outcome.isExhausted : Outcome → Bool
  | .error (.cacheFull _) => true
  | .ok (.drawn _ items _) => items.any Item.isExhausted
  | _ => false

def Progress.isExhausted : Progress → Bool
  | .finished outcome => Outcome.isExhausted outcome
  | .waiting .. => false

theorem mapM_id_append_error {items : List Item} (h : ∀ item ∈ items, ∃ r, item = .ok r)
    (e : StoreError) : (items ++ [Except.error e]).mapM id = .error e := by
  induction items with
  | nil => rfl
  | cons item rest ih =>
    obtain ⟨r, rfl⟩ := h item List.mem_cons_self
    rw [List.cons_append, List.mapM_cons, ih fun i hi => h i (List.mem_cons_of_mem _ hi)]
    rfl

/-- A walk that fails on a full cache says so. -/
theorem Draw.IsSmooth.isExhausted_outcomeOf {d : Draw} (h : d.IsSmooth) (capacity : Nat) :
    Outcome.isExhausted (d.outcomeOf (.cacheFull capacity)) = true := by
  unfold outcomeOf outcome fail
  simp only
  split
  · rw [mapM_id_append_error h]
    rfl
  · simp [Outcome.isExhausted, Item.isExhausted]

namespace Cache

variable {c c' d d' : Cache} {page : PageId} {p q : HeapPage} {txn : TransactionId}
  {errand : Errand}

/-! ## Calls on both caches -/

/-- The calls have come equally far, with the same locks and the same files, or one of the
caches was full. -/
def Abreast (r r' : Cache × Progress) : Prop :=
  r.2.isExhausted = true ∨ r'.2.isExhausted = true ∨
    (r'.2 = r.2 ∧ r'.1.locks = r.1.locks ∧ r.1.SameFiles r'.1)

/-- Nothing was done but to say the same on both sides. -/
theorem Alike.abreast (h : c.Alike d) (progress : Progress) : Abreast (c, progress) (d, progress) :=
  Or.inr (Or.inr ⟨rfl, h.locks_eq, h.files⟩)

/-- What happens to the caches is told by the calls, so the caches stay alike. -/
theorem Alike.of_proceeds {r r' : Cache × Progress} (h : c.Alike d)
    (hc : c.Proceeds txn errand r) (hd : d.Proceeds txn errand r') (hprogress : r'.2 = r.2)
    (hlocks : r'.1.locks = r.1.locks) (hfiles : r.1.SameFiles r'.1) : r.1.Alike r'.1 := by
  obtain ⟨c', outcome | ⟨page, stage⟩⟩ := r
  all_goals
    obtain ⟨d', progress⟩ := r'
    cases hprogress
  · obtain ⟨hcdid, -, -⟩ := hc
    obtain ⟨hddid, -, -⟩ := hd
    refine ⟨hlocks, ?_, hfiles, ?_⟩
    · rw [hddid.log_eq, hcdid.log_eq, h.log_eq]
    · intro page
      rw [hddid.view_eq, hcdid.view_eq, h.view_eq]
  · exact h.of_quiet hc.1.quiet hd.1.quiet hc.1.log_eq hd.1.log_eq hlocks hfiles

/-- A page that was changed is put into its place in both caches. -/
theorem Alike.amend_same (h : c.Alike d) (p : HeapPage) :
    (d.amend p).locks = (c.amend p).locks ∧ (c.amend p).SameFiles (d.amend p) := by
  obtain ⟨hct, hcl, -⟩ := Cache.amend_same c p
  obtain ⟨hdt, hdl, -⟩ := Cache.amend_same d p
  exact ⟨by rw [hcl, hdl, h.locks_eq],
    ((SameFiles.of_eq hct).symm.trans h.files).trans (.of_eq hdt)⟩

theorem Alike.abreast_fill (h : c.Alike d) (hc : c.Ready txn) (job : Insertion)
    (hcres : c.residentPage page = some p) (hdres : d.residentPage page = some p) :
    Abreast (finish (c.fill txn job p)) (finish (d.fill txn job p)) := by
  have hview := view_of_resident hcres
  obtain ⟨q, -, hproper, -⟩ := hc.sound.lies_over page p hview
  have hid := hc.sound.id_eq hview
  unfold fill
  rcases hins : p.insert job.record with e | ⟨r, place⟩
  · exact h.abreast _
  · obtain ⟨rfl, -, -, -⟩ := HeapPage.insert_ok hproper hins
    obtain ⟨hlocks, hfiles⟩ :=
      h.amend_same ((p.change ⟨place, some job.record.values⟩).markDirty txn)
    simp only
    split
    · rw [enterDirty_amend (q := p) (hid ▸ hcres), enterDirty_amend (q := p) (hid ▸ hdres)]
      exact Or.inr (Or.inr ⟨rfl, hlocks, hfiles⟩)
    · exact Or.inr (Or.inr ⟨rfl, hlocks, hfiles⟩)

theorem Alike.abreast_removeFrom (h : c.Alike d) (hc : c.Ready txn) (job : Deletion)
    (hcres : c.residentPage page = some p) (hdres : d.residentPage page = some p) :
    Abreast (finish (c.removeFrom txn job p)) (finish (d.removeFrom txn job p)) := by
  have hid := hc.sound.id_eq (view_of_resident hcres)
  unfold removeFrom
  rcases hdel : p.delete (some job.location) with e | r
  · exact h.abreast _
  · obtain ⟨place, -, rfl, -⟩ := HeapPage.delete_ok hdel
    obtain ⟨hlocks, hfiles⟩ := h.amend_same ((p.change ⟨place, none⟩).markDirty txn)
    simp only
    split
    · rw [enterDirty_amend (q := p) (hid ▸ hcres), enterDirty_amend (q := p) (hid ▸ hdres)]
      exact Or.inr (Or.inr ⟨rfl, hlocks, hfiles⟩)
    · exact Or.inr (Or.inr ⟨rfl, hlocks, hfiles⟩)

/-- A page is fetched from both caches: one of them is full, or what comes of it is the same
and both transactions can go on in the same way. -/
theorem Alike.fetch_cases (h : c.Alike d) (hc : c.Ready txn) (hd : d.Ready txn) (page : PageId)
    (access : Access) :
    (∃ c' capacity, c.fetch txn page access = (c', .failed (.cacheFull capacity))) ∨
    (∃ d' capacity, d.fetch txn page access = (d', .failed (.cacheFull capacity))) ∨
    ∃ c' d' result, c.fetch txn page access = (c', result) ∧
      d.fetch txn page access = (d', result) ∧ c'.Alike d' ∧ c.SameFiles c' ∧
      ∀ p, result = .page p → c'.Ready txn ∧ d'.Ready txn ∧
        c.FetchedAs c' txn page access (.page p) ∧ d.FetchedAs d' txn page access (.page p) := by
  obtain ⟨halike, hresult⟩ := h.fetch hc hd page access
  obtain ⟨hccalm, hfiles, hcans⟩ := hc.fetch page access
  obtain ⟨hdcalm, -, hdans⟩ := hd.fetch page access
  rcases hcf : c.fetch txn page access with ⟨c', result⟩
  rcases hdf : d.fetch txn page access with ⟨d', result'⟩
  rw [hcf] at halike hresult hccalm hfiles hcans
  rw [hdf] at halike hresult hdcalm hdans
  rcases hresult with ⟨capacity, hfull⟩ | ⟨capacity, hfull⟩ | heq
  · exact Or.inl ⟨c', capacity, Prod.ext rfl hfull⟩
  · exact Or.inr (Or.inl ⟨d', capacity, Prod.ext rfl hfull⟩)
  · cases heq
    refine Or.inr (Or.inr ⟨c', d', result, rfl, rfl, halike, hfiles, fun p hp => ?_⟩)
    cases hp
    exact ⟨hccalm.ready hc.sound hcans.1, hdcalm.ready hd.sound hdans.1, hcans, hdans⟩

theorem Alike.abreast_fetchAndFill (h : c.Alike d) (hc : c.Ready txn) (hd : d.Ready txn)
    (job : Insertion) (page : PageId) :
    Abreast (c.fetchAndFill txn job page) (d.fetchAndFill txn job page) := by
  unfold fetchAndFill
  rcases h.fetch_cases hc hd page .readWrite with ⟨c', n, hcf⟩ | ⟨d', n, hdf⟩ |
    ⟨c', d', result, hcf, hdf, halike, -, hpage⟩
  · rw [hcf]
    exact Or.inl rfl
  · rw [hdf]
    exact Or.inr (Or.inl rfl)
  · rw [hcf, hdf]
    cases result with
    | page p =>
      obtain ⟨hc', -, hcans, hdans⟩ := hpage p rfl
      exact halike.abreast_fill hc' job hcans.2.2.1 hdans.2.2.1
    | failed e => exact halike.abreast _
    | blocked => exact halike.abreast _

theorem Alike.abreast_append (h : c.Alike d) (hc : c.Ready txn) (hd : d.Ready txn)
    (hroom : c.HasRoom) (job : Insertion) : Abreast (c.append txn job) (d.append txn job) := by
  have hroom' := h.files.hasRoom hroom
  obtain ⟨hccalm, hclocks⟩ := hc.calm_allocate hroom job.table
  obtain ⟨hdcalm, hdlocks⟩ := hd.calm_allocate hroom' job.table
  have hcidle := (congrArg (·.pending.get? txn) hclocks).trans hc.idle
  have hdidle := (congrArg (·.pending.get? txn) hdlocks).trans hd.idle
  have hcready := hccalm.ready hc.sound hcidle
  have hdready := hdcalm.ready hd.sound hdidle
  obtain ⟨halike, hresult⟩ := h.allocate hc.sound hd.sound hroom job.table
  unfold append
  rcases hca : c.allocate job.table with ⟨c', e | page⟩ <;>
    rcases hda : d.allocate job.table with ⟨d', e' | page'⟩ <;>
    rw [hca, hda] at halike hresult <;> rw [hca] at hcready <;> rw [hda] at hdready <;>
    cases hresult
  · exact halike.abreast _
  · exact halike.abreast_fetchAndFill hcready hdready job page

theorem Alike.leave (h : c.Alike d) (txn : TransactionId) (page : PageId) (held : Bool) :
    (c.leave txn page held).Alike (d.leave txn page held) := by
  unfold Cache.leave
  split
  · exact h
  · rw [release, release, h.locks_eq]
    exact h.setLocks _

theorem Alike.pageCount_eq (h : c.Alike d) (id : TableId) : d.pageCount id = c.pageCount id := by
  unfold pageCount
  rcases h.table_cases id with ⟨e, hce, hde⟩ | ⟨f, g, hf, hg, -, -, halike⟩
  · rcases hf : c.tables.get? id with _ | f
    · rw [h.files.none_of_none hf]
    · rw [table_eq_ok hf] at hce
      cases hce
  · rw [hf, hg]
    exact TableFile.pageCount_eq_of_alike halike

/-- The search for an empty slot takes the same way in both caches. -/
theorem Alike.abreast_seek (h : c.Alike d) (hc : c.Ready txn) (hd : d.Ready txn)
    (hroom : c.HasRoom) (job : Insertion) (left : Nat) (number : UInt32) :
    Abreast (seek txn job left number c) (seek txn job left number d) := by
  induction left generalizing number c d with
  | zero => exact h.abreast_append hc hd hroom job
  | succ left ih =>
    unfold seek
    simp only [h.holds_eq]
    rcases h.fetch_cases hc hd ⟨job.table, number⟩ .readOnly with ⟨c', n, hcf⟩ | ⟨d', n, hdf⟩ |
      ⟨c', d', result, hcf, hdf, halike, hfiles, hpage⟩
    · rw [hcf]
      exact Or.inl rfl
    · rw [hdf]
      exact Or.inr (Or.inl rfl)
    · rw [hcf, hdf]
      cases result with
      | page p =>
        obtain ⟨hc', hd', hcans, hdans⟩ := hpage p rfl
        have hnot : c.holds txn ⟨job.table, number⟩ = false →
            c'.locks.table.heldMode txn ⟨job.table, number⟩ ≠ some .readWrite := by
          obtain ⟨-, -, -, m, hm, -, hnew⟩ := hcans
          intro hfalse
          rw [hm, hnew hfalse]
          simp
        simp only
        split
        · obtain ⟨hcleave, hcidle⟩ := hc'.calm_leave ⟨job.table, number⟩ _ hnot
          obtain ⟨hdleave, hdidle⟩ := hd'.calm_leave ⟨job.table, number⟩ _
            (by rw [halike.locks_eq]; exact hnot)
          have hfiles' := hfiles.trans (.of_eq (leave_tables c' txn ⟨job.table, number⟩
            (c.holds txn ⟨job.table, number⟩)))
          exact ih (halike.leave txn _ _) (hcleave.ready hc'.sound hcidle)
            (hdleave.ready hd'.sound hdidle) (hfiles'.hasRoom hroom) _
        · exact halike.abreast_fetchAndFill hc' hd' job _
      | failed e => exact halike.abreast _
      | blocked => exact halike.abreast _

theorem Alike.abreast_inspect (h : c.Alike d) (hc : c.Ready txn) (hd : d.Ready txn)
    (job : Deletion) (p : HeapPage) : Abreast (c.inspect txn job p) (d.inspect txn job p) := by
  unfold inspect
  simp only
  split
  · exact h.abreast _
  · split
    · exact h.abreast _
    · rcases h.fetch_cases hc hd job.location.page .readWrite with ⟨c', n, hcf⟩ | ⟨d', n, hdf⟩ |
        ⟨c', d', result, hcf, hdf, halike, -, hpage⟩
      · rw [hcf]
        exact Or.inl rfl
      · rw [hdf]
        exact Or.inr (Or.inl rfl)
      · rw [hcf, hdf]
        cases result with
        | page p =>
          obtain ⟨hc', -, hcans, hdans⟩ := hpage p rfl
          exact halike.abreast_removeFrom hc' job hcans.2.2.1 hdans.2.2.1
        | failed e => exact halike.abreast _
        | blocked => exact halike.abreast _

/-- A walk through a table meets the same pages in both caches. -/
theorem Alike.abreast_walk (h : c.Alike d) (hc : c.Ready txn) (hd : d.Ready txn) (left : Nat)
    {draw : Draw} (hdraw : draw.IsSmooth) :
    Abreast (walk txn left draw c) (walk txn left draw d) := by
  induction left generalizing draw c d with
  | zero =>
    unfold walk
    simp only
    split
    · exact h.abreast _
    · split <;> exact h.abreast _
  | succ left ih =>
    have hnext : draw.serve.advance.IsSmooth := hdraw.serve
    unfold walk
    simp only
    split
    · exact h.abreast _
    · split
      · exact h.abreast _
      · rcases h.fetch_cases hc hd draw.serve.page .readOnly with ⟨c', n, hcf⟩ | ⟨d', n, hdf⟩ |
          ⟨c', d', result, hcf, hdf, halike, -, hpage⟩
        · rw [hcf]
          exact Or.inl (hnext.isExhausted_outcomeOf n)
        · rw [hdf]
          exact Or.inr (Or.inl (hnext.isExhausted_outcomeOf n))
        · rw [hcf, hdf]
          cases result with
          | page p =>
            obtain ⟨hc', hd', -, -⟩ := hpage p rfl
            exact ih halike hc' hd' (hnext : (draw.serve.advance.receive p).IsSmooth)
          | failed e => exact halike.abreast _
          | blocked => exact halike.abreast _

theorem Alike.abreast_walkOn (h : c.Alike d) (hc : c.Ready txn) (hd : d.Ready txn) {draw : Draw}
    (hdraw : draw.IsSmooth) : Abreast (c.walkOn txn draw) (d.walkOn txn draw) := by
  unfold walkOn
  rw [h.pageCount_eq]
  exact h.abreast_walk hc hd _ hdraw

/-- A page is pinned in both caches, or in none. -/
theorem Alike.setPinned (h : c.Alike d) (page : PageId) (pinned : Bool) :
    (c.setPinned page pinned).Alike (d.setPinned page pinned) := by
  obtain ⟨hct, hcl, hclog⟩ := setPinned_same c page pinned
  obtain ⟨hdt, hdl, hdlog⟩ := setPinned_same d page pinned
  exact h.of_quiet (quiet_setPinned c page pinned) (quiet_setPinned d page pinned) hclog hdlog
    (by rw [hcl, hdl, h.locks_eq]) (((SameFiles.of_eq hct).symm.trans h.files).trans (.of_eq hdt))

theorem Alike.abreast_use (h : c.Alike d) (p : HeapPage) {purpose : Purpose}
    (hplain : purpose.edits = false) :
    Abreast (finish (c.use txn p purpose)) (finish (d.use txn p purpose)) := by
  cases purpose with
  | view => exact h.abreast _
  | viewBefore => exact h.abreast _
  | pin alone =>
    simp only [use]
    split
    · exact (h.setPinned p.id true).abreast _
    · exact h.abreast _
  | insert record mark => cases hplain
  | delete location mark => cases hplain

/-- A call that does not get its page because the cache is full says so. -/
theorem proceed_exhausted {stage : Stage} (hplain : stage.IsPlain) (capacity : Nat) :
    (c.proceed txn page stage (.error (.cacheFull capacity))).2.isExhausted = true := by
  cases stage with
  | walk draw => exact Draw.IsSmooth.isExhausted_outcomeOf hplain capacity
  | _ => rfl

/-- A call goes on abreast from any stage, with its page or without. -/
theorem Alike.abreast_proceed (h : c.Alike d) (hc : c.Ready txn) (hd : d.Ready txn) {stage : Stage}
    (hroom : stage.seeks = true → c.HasRoom) (hplain : stage.IsPlain) (page : PageId)
    (result : Except StoreError HeapPage)
    (hpage : ∀ p, result = .ok p → c.residentPage page = some p ∧ d.residentPage page = some p ∧
      ∃ m, c.locks.table.heldMode txn page = some m ∧ stage.Asks m) :
    Abreast (c.proceed txn page stage result) (d.proceed txn page stage result) := by
  cases result with
  | error e => cases stage <;> exact h.abreast _
  | ok p =>
    obtain ⟨hcres, hdres, m, hm, hasks⟩ := hpage p rfl
    cases stage with
    | walk draw => exact h.abreast_walkOn hc hd (hplain : (draw.receive p).IsSmooth)
    | use purpose => exact h.abreast_use p hplain
    | seek job left next held =>
      unfold proceed
      simp only
      split
      · have hnot : held = false → c.locks.table.heldMode txn page ≠ some .readWrite := by
          intro _
          rw [hm, hasks]
          simp
        obtain ⟨hcleave, hcidle⟩ := hc.calm_leave page held hnot
        obtain ⟨hdleave, hdidle⟩ := hd.calm_leave page held (by rw [h.locks_eq]; exact hnot)
        have hfiles := SameFiles.of_eq (leave_tables c txn page held)
        exact (h.leave txn page held).abreast_seek (hcleave.ready hc.sound hcidle)
          (hdleave.ready hd.sound hdidle) (hfiles.hasRoom (hroom rfl)) job left next
      · exact h.abreast_fetchAndFill hc hd job page
    | fill job => exact h.abreast_fill hc job hcres hdres
    | inspect job => exact h.abreast_inspect hc hd job p
    | remove job => exact h.abreast_removeFrom hc job hcres hdres

theorem Alike.abreast_ask (h : c.Alike d) (hc : c.Ready txn) (hd : d.Ready txn) (page : PageId)
    (access : Access) (stage : Stage) (hseeks : stage.seeks = false) (hplain : stage.IsPlain)
    (hasks : ∀ m, stage.Asks m) :
    Abreast (c.ask txn page access stage) (d.ask txn page access stage) := by
  unfold ask
  rcases h.fetch_cases hc hd page access with ⟨c', n, hcf⟩ | ⟨d', n, hdf⟩ |
    ⟨c', d', result, hcf, hdf, halike, -, hpage⟩
  · rw [hcf]
    exact Or.inl (proceed_exhausted hplain n)
  · rw [hdf]
    exact Or.inr (Or.inl (proceed_exhausted hplain n))
  · rw [hcf, hdf]
    cases result with
    | page p =>
      obtain ⟨hc', hd', hcans, hdans⟩ := hpage p rfl
      refine halike.abreast_proceed hc' hd' (fun hs => ?_) hplain page _ fun r hr => ?_
      · rw [hseeks] at hs
        cases hs
      · cases hr
        obtain ⟨-, -, hcres, m, hm, -, -⟩ := hcans
        exact ⟨hcres, hdans.2.2.1, m, hm, hasks m⟩
    | failed e => cases stage <;> exact halike.abreast _
    | blocked => exact halike.abreast _

/-- An operation starts alike on both caches. -/
theorem Alike.abreast_start (h : c.Alike d) (hc : c.Ready txn) (hd : d.Ready txn)
    (hroom : c.HasRoom) {op : Operation} (hplain : op.IsPlain) :
    Abreast (c.start txn op) (d.start txn op) := by
  cases op with
  | fetch page access purpose =>
    exact h.abreast_ask hc hd page access (.use purpose) rfl hplain fun _ => trivial
  | insert job =>
    simp only [start, startInsert]
    rcases h.table_cases job.table with ⟨e, hce, hde⟩ | ⟨f, g, -, -, hce, hde, halike⟩
    · rw [hce, hde]
      exact h.abreast _
    · rw [hce, hde]
      simp only [TableFile.schema_eq_of_alike halike, TableFile.pageCount_eq_of_alike halike,
        TableFile.pageId, TableFile.table_eq_of_alike halike]
      split
      · exact h.abreast _
      · exact h.abreast_seek hc hd hroom job _ _
  | delete location =>
    cases location with
    | none => exact h.abreast _
    | some place =>
      simp only [start, startDelete]
      rcases h.table_cases place.page.table with ⟨e, hce, hde⟩ | ⟨f, g, -, -, hce, hde, -⟩
      · rw [hce, hde]
        exact h.abreast _
      · rw [hce, hde]
        exact h.abreast_ask hc hd place.page .readOnly (.inspect ⟨place, true⟩) rfl trivial
          fun _ => trivial
  | deleteFrom table location =>
    simp only [start, startDeleteFrom]
    rcases h.table_cases table with ⟨e, hce, hde⟩ | ⟨f, g, -, -, hce, hde, halike⟩
    · rw [hce, hde]
      exact h.abreast _
    · rw [hce, hde]
      cases location with
      | none => exact h.abreast _
      | some place =>
        simp only [TableFile.pageId, TableFile.table_eq_of_alike halike]
        split
        · exact h.abreast _
        · exact h.abreast_ask hc hd place.page .readOnly (.inspect ⟨place, false⟩) rfl
            trivial fun _ => trivial
  | scan table =>
    simp only [start]
    rcases h.table_cases table with ⟨e, hce, hde⟩ | ⟨f, g, -, -, hce, hde, -⟩
    · rw [hce, hde]
      exact h.abreast _
    · rw [hce, hde]
      exact h.abreast_walkOn hc hd (Draw.isSmooth_nil _ _)
  | draw cursor count => exact h.abreast_walkOn hc hd (Draw.isSmooth_nil _ _)

end Cache

end PageCache
