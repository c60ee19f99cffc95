-- What is left of a commit that failed. The pages before the one that was refused are in
-- their files already, and they have lost their marks; the abort that follows reads only the
-- others again. So the work of the transaction on those pages stays.
import PageCache.Proofs.Session.Ledger

namespace PageCache

/-- How a page was seen before a transaction changed it for the first time, and whether a
commit of the transaction has failed since. -/
structure Origin where
  txn : TransactionId
  page : PageId
  before : HeapPage
  failed : Bool

namespace Session

variable {s s' : Session} {a : Action} {origins : List Origin} {txn : TransactionId}
  {page : PageId} {p : HeapPage}

/-! ## Before the first change -/

/-- The change that a step of a call makes, and its transaction. -/
def changeIn (s : Session) (a : Action) : Option (TransactionId × Change) :=
  match a with
  | .submit txn name op => ((s.submit txn name op).2.change op.errand).map (txn, ·)
  | .resume txn => (s.calls.get? txn).bind fun call =>
    ((s.resume txn).2.change (call.stage.errand call.page)).map (txn, ·)
  | .expire txn => (s.calls.get? txn).bind fun call =>
    ((s.expire txn).2.change (call.stage.errand call.page)).map (txn, ·)
  | _ => none

/-- Keeps how a page was seen, if the transaction changes it for the first time. -/
def keepOrigin (s : Session) (origins : List Origin) (txn : TransactionId) (page : PageId) :
    List Origin :=
  if origins.any fun o => o.txn = txn && o.page = page then origins
  else origins ++ ((s.cache.view page).map fun p => ⟨txn, page, p.bare, false⟩).toList

/-- What is kept after a step. With the end of its transaction it goes. -/
def keep (s : Session) (origins : List Origin) (a : Action) : List Origin :=
  match a with
  | .commit txn =>
    match (s.cache.commit txn).2 with
    | .ok _ => origins.filter (·.txn ≠ txn)
    | .error _ => origins.map fun o => if o.txn = txn then { o with failed := true } else o
  | .abort txn => origins.filter (·.txn ≠ txn)
  | a =>
    match s.changeIn a with
    | some (txn, ch) => s.keepOrigin origins txn ch.place.page
    | none => origins

/-- What is kept after a run. -/
def keepAll (s : Session) (origins : List Origin) : List Action → List Origin
  | [] => origins
  | a :: rest => (s.perform a).1.keepAll (s.keep origins a) rest

/-- Whoever has an origin for a page still has it locked for writing. As long as no commit has
failed, the file holds the page as it was then. All marked pages have origins. -/
structure Keeps (s : Session) (origins : List Origin) : Prop where
  locked : ∀ o ∈ origins, s.cache.locks.table.heldMode o.txn o.page = some .readWrite
  stored : ∀ o ∈ origins, o.failed = false →
    (s.cache.onDisk o.page).map HeapPage.bare = some o.before
  marked : ∀ page p txn, s.cache.view page = some p → p.dirty = some txn →
    ∃ o ∈ origins, o.txn = txn ∧ o.page = page

theorem keeps_new (config : Config) (log : Option WriteLog) : (new config log).Keeps [] where
  locked _ ho := by cases ho
  stored _ ho := by cases ho
  marked _ _ _ hview := by cases hview

/-- On a page with an origin of a transaction, nobody else holds anything. -/
theorem Keeps.eq_of_held (h : s.Keeps origins) (hcoh : s.Coherent) {o : Origin} (ho : o ∈ origins)
    {u : TransactionId} (hheld : s.cache.locks.table.heldMode u o.page ≠ none) : u = o.txn :=
  PageLock.eq_of_heldBy_readWrite (hcoh.orderly.tidy.exclusive o.page) (h.locked o ho) hheld

theorem Keeps.of_unnoticed (h : s.Keeps origins) (hu : s.Unnoticed s') : s'.Keeps origins := by
  obtain ⟨hquiet, hlocks, -, -⟩ := hu
  constructor
  · intro o ho
    rw [hlocks]
    exact h.locked o ho
  · intro o ho hnot
    rw [hquiet.onDisk_eq]
    exact h.stored o ho hnot
  · intro page p txn hview hdirty
    rw [hquiet.view_eq] at hview
    exact h.marked page p txn hview hdirty

theorem Keeps.addTable (h : s.Keeps origins) (hcoh : s.Coherent) {file : TableFile}
    (hnew : s.cache.tables.get? file.table = none) :
    Keeps { s with cache := s.cache.setTable file } origins := by
  refine ⟨h.locked, ?_, ?_⟩
  · intro o ho hnot
    have hstored := h.stored o ho hnot
    obtain ⟨p, hp, -⟩ := Option.map_eq_some_iff.1 hstored
    obtain ⟨f, hf, -⟩ := Option.bind_eq_some_iff.1 hp
    rw [Cache.onDisk_setTable, if_neg]
    · exact hstored
    · intro htable
      rw [htable, hnew] at hf
      cases hf
  · intro page p txn hview hdirty
    rw [hcoh.sound.view_new_table hnew] at hview
    split at hview
    · obtain ⟨-, -, -, -, hclean⟩ := TableFile.stored_proper hview
      rw [hclean] at hdirty
      cases hdirty
    · exact h.marked page p txn hview hdirty

theorem mem_keepOrigin {o : Origin} : o ∈ s.keepOrigin origins txn page ↔
    o ∈ origins ∨ ((∀ o ∈ origins, o.txn = txn → o.page ≠ page) ∧
      ∃ p, s.cache.view page = some p ∧ o = ⟨txn, page, p.bare, false⟩) := by
  unfold keepOrigin
  split
  · rename_i hany
    refine ⟨Or.inl, fun ho => ho.elim id fun ⟨hnone, _⟩ => ?_⟩
    obtain ⟨k, hk, heq⟩ := List.any_eq_true.1 hany
    simp only [Bool.and_eq_true, decide_eq_true_eq] at heq
    exact absurd heq.2 (hnone k hk heq.1)
  · rename_i hnot
    have hnone : ∀ o ∈ origins, o.txn = txn → o.page ≠ page := fun k hk htxn hpage =>
      hnot (List.any_eq_true.2 ⟨k, hk, by simp [htxn, hpage]⟩)
    rw [List.mem_append]
    refine or_congr_right ⟨fun ho => ⟨hnone, ?_⟩, fun ⟨_, p, hp, ho⟩ => ?_⟩
    · obtain ⟨p, hp, rfl⟩ := Option.map_eq_some_iff.1 (Option.mem_toList.1 ho)
      exact ⟨p, hp, rfl⟩
    · rw [hp, ho]
      exact List.mem_singleton.2 rfl

/-- A page that a transaction has locked for its first change has no mark: it would be that of
another transaction, which would have the page locked. -/
theorem Keeps.clean_of_first (h : s.Keeps origins) (hcoh : s.Coherent)
    (hturn : s.cache.locks.Turn txn s'.cache.locks)
    (hmine : s'.cache.locks.table.heldMode txn page = some .readWrite)
    (hfirst : ∀ o ∈ origins, o.txn = txn → o.page ≠ page) (hview : s.cache.view page = some p) :
    p.dirty = none := by
  rcases hmark : p.dirty with _ | u
  · rfl
  · have hwriter := hturn.writers _ _ (hcoh.sound.locked _ p u hview hmark)
    have hheld : (s'.cache.locks.table.lockOf page).heldBy txn ≠ none := by
      rw [show (s'.cache.locks.table.lockOf page).heldBy txn = _ from hmine]
      simp
    have hu := PageLock.eq_of_heldBy_readWrite (hturn.orderly.tidy.exclusive page) hwriter hheld
    obtain ⟨o, ho, htxn, hpage⟩ := h.marked page p u hview hmark
    exact absurd hpage (hfirst o ho (htxn.trans hu.symm))

/-- The first change of a page finds it as its file holds it. -/
theorem Keeps.call (h : s.Keeps origins) (hcoh : s.Coherent) {errand : Errand} {answer : Answer}
    (hstep : s.CallStep txn errand answer s') :
    s'.Keeps (match (answer.change errand).map (txn, ·) with
      | some (txn, ch) => s.keepOrigin origins txn ch.place.page
      | none => origins) := by
  have hlocked : ∀ o ∈ origins, s'.cache.locks.table.heldMode o.txn o.page = some .readWrite :=
    fun o ho => hstep.did.turn.writers _ _ (h.locked o ho)
  have hstored : ∀ o ∈ origins, o.failed = false →
      (s'.cache.onDisk o.page).map HeapPage.bare = some o.before := by
    intro o ho hnot
    rw [hstep.did.onDisk_eq]
    exact h.stored o ho hnot
  rcases hch : answer.change errand with _ | ch
  · refine ⟨hlocked, hstored, ?_⟩
    intro page p u hview hdirty
    rw [hstep.did.view_eq, hch] at hview
    obtain ⟨q, hq, rfl⟩ := Option.map_eq_some_iff.1 hview
    exact h.marked page q u hq hdirty
  · obtain ⟨hmine, p, hp⟩ := hstep.did.writes ch hch
    constructor
    · intro o ho
      rcases mem_keepOrigin.1 ho with hold | ⟨-, q, -, rfl⟩
      · exact hlocked o hold
      · exact hmine
    · intro o ho hnot
      rcases mem_keepOrigin.1 ho with hold | ⟨hnone, q, hq, rfl⟩
      · exact hstored o hold hnot
      · have hclean := h.clean_of_first hcoh hstep.did.turn hmine hnone hq
        rw [hstep.did.onDisk_eq, hcoh.sound.eq_onDisk hq hclean]
        rfl
    · intro page q u hview hdirty
      rw [hstep.did.view_eq, hch] at hview
      obtain ⟨r, hr, rfl⟩ := Option.map_eq_some_iff.1 hview
      rw [HeapPage.altered] at hdirty
      split at hdirty
      · rename_i hpage
        cases hdirty
        subst hpage
        by_cases hany : ∃ o ∈ origins, o.txn = txn ∧ o.page = ch.place.page
        · obtain ⟨o, ho, heq⟩ := hany
          exact ⟨o, mem_keepOrigin.2 (Or.inl ho), heq⟩
        · refine ⟨⟨txn, ch.place.page, r.bare, false⟩, mem_keepOrigin.2 (Or.inr ⟨?_, r, hr, rfl⟩),
            rfl, rfl⟩
          exact fun o ho htxn hpage => hany ⟨o, ho, htxn, hpage⟩
      · obtain ⟨o, ho, heq⟩ := h.marked page r u hr hdirty
        exact ⟨o, mem_keepOrigin.2 (Or.inl ho), heq⟩

/-- With the end of a transaction its origins go, and nobody needs them any more. -/
theorem Keeps.ended (h : s.Keeps origins) (hcoh : s.Coherent) {final : PageId → Option HeapPage}
    (hclean : ∀ page p, final page = some p → p.dirty = none)
    (hended : s.cache.Ended txn final s'.cache) : s'.Keeps (origins.filter (·.txn ≠ txn)) := by
  constructor
  · intro o ho
    obtain ⟨ho, hne⟩ := List.mem_filter.1 ho
    rw [hended.heldMode_of_ne hcoh.orderly (by simpa using hne)]
    exact h.locked o ho
  · intro o ho hnot
    obtain ⟨ho, hne⟩ := List.mem_filter.1 ho
    rw [(hended.unchanged o.page fun p hp hdirty => ?_).2]
    · exact h.stored o ho hnot
    · have hwriter := hcoh.sound.locked _ p txn hp hdirty
      have htxn := h.eq_of_held hcoh ho (u := txn) (by rw [hwriter]; simp)
      simp [htxn] at hne
  · intro page p u hview hdirty
    by_cases hmark : ∃ q, s.cache.view page = some q ∧ q.dirty = some txn
    · obtain ⟨q, hq, hqd⟩ := hmark
      rw [(hended.changed page q hq hqd).1] at hview
      rw [hclean page p hview] at hdirty
      cases hdirty
    · have hnot : ∀ q, s.cache.view page = some q → q.dirty ≠ some txn :=
        fun q hq hqd => hmark ⟨q, hq, hqd⟩
      rw [(hended.unchanged page hnot).1] at hview
      obtain ⟨o, ho, htxn, hpage⟩ := h.marked page p u hview hdirty
      refine ⟨o, List.mem_filter.2 ⟨ho, ?_⟩, htxn, hpage⟩
      have hne : u ≠ txn := by
        rintro rfl
        exact hnot p hview hdirty
      simpa [htxn] using hne

/-- A commit that fails has written pages of its own transaction only. -/
theorem Keeps.failed (h : s.Keeps origins) (hcoh : s.Coherent) {written : List PageId}
    (hwritten : ∀ page ∈ written, page ∈ s.cache.heldPages txn)
    (hsaved : s.cache.Saved written s'.cache) :
    s'.Keeps (origins.map fun o => if o.txn = txn then { o with failed := true } else o) := by
  constructor
  · intro o ho
    obtain ⟨k, hk, rfl⟩ := List.mem_map.1 ho
    rw [hsaved.locks_eq]
    split <;> exact h.locked k hk
  · intro o ho hnot
    obtain ⟨k, hk, rfl⟩ := List.mem_map.1 ho
    split at hnot
    · cases hnot
    · rename_i hne
      rw [if_neg hne, hsaved.onDisk_eq, if_neg]
      · exact h.stored k hk hnot
      · intro hmem
        have hheld := hwritten _ hmem
        rw [Cache.heldPages, hcoh.orderly.tidy.mem_heldPages] at hheld
        exact hne (h.eq_of_held hcoh hk hheld).symm
  · intro page p u hview hdirty
    rw [hsaved.view_eq] at hview
    split at hview
    · obtain ⟨q, -, rfl⟩ := Option.map_eq_some_iff.1 hview
      rw [HeapPage.dirty_saved] at hdirty
      cases hdirty
    · obtain ⟨o, ho, htxn, hpage⟩ := h.marked page p u hview hdirty
      refine ⟨_, List.mem_map.2 ⟨o, ho, rfl⟩, ?_⟩
      split <;> exact ⟨htxn, hpage⟩

/-- The same of a call that waits and is looked at again. -/
theorem Keeps.call_again (h : s.Keeps origins) (hcoh : s.Coherent) {answer : Answer}
    (heffect : (s.calls.get? txn = none ∧ answer = .waiting ∧ s' = s) ∨
      ∃ call, s.calls.get? txn = some call ∧
        s.CallStep txn (call.stage.errand call.page) answer s') :
    s'.Keeps (match (s.calls.get? txn).bind fun call =>
        (answer.change (call.stage.errand call.page)).map (txn, ·) with
      | some (txn, ch) => s.keepOrigin origins txn ch.place.page
      | none => origins) := by
  rcases heffect with ⟨hcall, -, rfl⟩ | ⟨call, hcall, hstep⟩
  · rw [hcall]
    exact h
  · rw [hcall]
    exact h.call hcoh hstep

/-- The origins are kept right by every step. -/
theorem Keeps.perform (h : s.Keeps origins) (hcoh : s.Coherent) (ha : s.Admits a) :
    (s.perform a).1.Keeps (s.keep origins a) := by
  obtain ⟨-, heffect⟩ := hcoh.perform ha
  cases a with
  | addTable file =>
    rcases heffect with ⟨-, hnew, hs⟩ | ⟨e, -, hs⟩
    · rw [hs]
      exact h.addTable hcoh hnew
    · rw [hs]
      exact h
  | submit txn name op =>
    obtain ⟨answer, hreport, ⟨hbusy, hs⟩ | ⟨-, hstep⟩⟩ := heffect
    · have hanswer : (s.submit txn name op).2 = .busy := (Report.answered.inj hreport).trans hbusy
      simp only [hs, keep, changeIn, hanswer]
      exact h
    · have hanswer : (s.submit txn name op).2 = answer := Report.answered.inj hreport
      simp only [keep, changeIn, hanswer]
      exact h.call hcoh hstep
  | resume txn =>
    obtain ⟨answer, hreport, heffect⟩ := heffect
    have hanswer : (s.resume txn).2 = answer := Report.answered.inj hreport
    simp only [keep, changeIn, hanswer]
    exact h.call_again hcoh heffect
  | expire txn =>
    obtain ⟨answer, hreport, heffect⟩ := heffect
    have hanswer : (s.expire txn).2 = answer := Report.answered.inj hreport
    simp only [keep, changeIn, hanswer]
    exact h.call_again hcoh heffect
  | commit txn =>
    obtain ⟨-, ⟨hreport, hended⟩ | ⟨e, written, refused, rest, hreport, hsplit, hsaved, -, -⟩⟩ :=
      heffect
    · have hresult : (s.cache.commit txn).2 = .ok () := Report.ended.inj hreport
      rw [keep, hresult]
      refine h.ended hcoh (fun page p hp => ?_) hended
      obtain ⟨q, -, rfl⟩ := Option.map_eq_some_iff.1 hp
      exact q.dirty_saved
    · have hresult : (s.cache.commit txn).2 = .error e := Report.ended.inj hreport
      rw [keep, hresult]
      refine h.failed hcoh (fun page hpage => ?_) hsaved
      rw [hsplit]
      exact List.mem_append_left _ hpage
  | abort txn =>
    obtain ⟨-, -, hended⟩ := heffect
    exact h.ended hcoh (fun page p hp => (Cache.stored_clean hp).2.2) hended
  | allocate _ | evict | unpin _ | openIterator _ _ _ | rewindIterator _ =>
    exact h.of_unnoticed heffect

theorem Keeps.run (h : s.Keeps origins) (hcoh : s.Coherent) {actions : List Action}
    (hadmits : s.AdmitsAll actions) :
    (s.run actions).1.Keeps (s.keepAll origins actions) ∧ (s.run actions).1.Coherent := by
  induction actions generalizing s origins with
  | nil => exact ⟨h, hcoh⟩
  | cons a rest ih => exact ih (h.perform hcoh hadmits.1) (hcoh.perform hadmits.1).1 hadmits.2

/-! ## An abort after a failed commit -/

/-- The page is seen so, and its file holds it so. -/
def Shows (s : Session) (page : PageId) (p : Option HeapPage) : Prop :=
  (s.cache.view page).map HeapPage.bare = p ∧ (s.cache.onDisk page).map HeapPage.bare = p

instance : Decidable (s.Shows page (some p)) :=
  inferInstanceAs (Decidable (_ ∧ _))

/-- An abort leaves each page of the transaction as its file holds it. -/
theorem Keeps.shows_of_abort (h : s.Keeps origins) (hcoh : s.Coherent)
    (hended : s.cache.Ended txn s.cache.onDisk s'.cache) {o : Origin} (ho : o ∈ origins)
    (htxn : o.txn = txn) : s'.Shows o.page ((s.cache.onDisk o.page).map HeapPage.bare) := by
  by_cases hmark : ∃ p, s.cache.view o.page = some p ∧ p.dirty = some txn
  · obtain ⟨p, hp, hdirty⟩ := hmark
    obtain ⟨hview, hdisk⟩ := hended.changed o.page p hp hdirty
    exact ⟨congrArg _ hview, congrArg _ hdisk⟩
  · have hnot : ∀ p, s.cache.view o.page = some p → p.dirty ≠ some txn :=
      fun p hp hdirty => hmark ⟨p, hp, hdirty⟩
    obtain ⟨hview, hdisk⟩ := hended.unchanged o.page hnot
    refine ⟨?_, congrArg _ hdisk⟩
    rw [hview]
    rcases hp : s.cache.view o.page with _ | p
    · rw [(Option.or_eq_none_iff.1 hp).2]
    · have hclean : p.dirty = none := by
        rcases hdirty : p.dirty with _ | u
        · rfl
        · have hwriter := hcoh.sound.locked _ p u hp hdirty
          have hu := h.eq_of_held hcoh ho (u := u) (by rw [hwriter]; simp)
          rw [hu, htxn] at hdirty
          exact absurd hdirty (hnot p hp)
      rw [hcoh.sound.eq_onDisk hp hclean]

/-- The pages that a commit has come to before one was refused, which is the first one that
still has its mark. -/
def passed (s : Session) (txn : TransactionId) : List PageId :=
  (s.cache.heldPages txn).takeWhile fun page => (s.cache.view page).all (·.dirty.isNone)

theorem passed_of_failure {written rest : List PageId} {refused : PageId}
    (hsplit : s.cache.heldPages txn = written ++ refused :: rest)
    (hsaved : s.cache.Saved written s'.cache)
    (hrefused : ∃ p, s'.cache.view refused = some p ∧ p.dirty ≠ none) :
    s'.passed txn = written := by
  have hheld : s'.cache.heldPages txn = written ++ refused :: rest := by
    rw [← hsplit, Cache.heldPages, Cache.heldPages, hsaved.locks_eq]
  have hclean : ∀ page ∈ written, (s'.cache.view page).all (·.dirty.isNone) = true := by
    intro page hpage
    rw [hsaved.view_eq, if_pos hpage]
    rcases s.cache.view page with _ | p
    · rfl
    · simp
  obtain ⟨p, hp, hdirty⟩ := hrefused
  rw [passed, hheld, List.takeWhile_append_of_pos hclean, List.takeWhile_cons, hp]
  simp [hdirty]

/-- After a failed commit and an abort, the pages that the commit has come to stay as the
transaction has left them, and the others are as their files held them. -/
theorem Keeps.shows_of_failure (h : s.Keeps origins) (hcoh : s.Coherent)
    (hadmits : s.AdmitsAll [.commit txn, .abort txn]) {e : StoreError}
    (hfail : (s.perform (.commit txn)).2 = .ended (.error e)) {o : Origin} (ho : o ∈ origins)
    (htxn : o.txn = txn) : (s.run [.commit txn, .abort txn]).1.Shows o.page
      ((if o.page ∈ (s.perform (.commit txn)).1.passed txn then s.cache.view o.page
        else s.cache.onDisk o.page).map HeapPage.bare) := by
  obtain ⟨hcommit, habort, -⟩ := hadmits
  have hkeeps := h.perform hcoh hcommit
  obtain ⟨hcoh', -, ⟨hreport, -⟩ | ⟨-, written, refused, rest, -, hsplit, hsaved, hmark, -⟩⟩ :=
    hcoh.perform hcommit
  · rw [hfail] at hreport
    cases hreport
  · obtain ⟨-, -, -, hended⟩ := hcoh'.perform habort
    have hresult : (s.cache.commit txn).2 = .error e := Report.ended.inj hfail
    simp only [keep, hresult] at hkeeps
    have hshows := hkeeps.shows_of_abort hcoh' hended (List.mem_map_of_mem ho)
      (by rw [if_pos htxn]; exact htxn)
    rw [if_pos htxn] at hshows
    simp only [hsaved.onDisk_eq] at hshows
    rw [passed_of_failure hsplit hsaved hmark]
    split at hshows
    · rename_i hmem
      rw [HeapPage.map_bare_saved] at hshows
      rw [if_pos hmem]
      exact hshows
    · rename_i hmem
      rw [if_neg hmem]
      exact hshows

/-- The origins of the transactions that are open after a run of a new session. -/
def originsOf (config : Config) (log : Option WriteLog) (actions : List Action) : List Origin :=
  (new config log).keepAll [] actions

variable {config : Config} {log : Option WriteLog} {actions : List Action}

/-- **When a failed commit is rolled back.** In a run of any number of transactions, with a log
that refuses what it likes, the commit of a transaction fails, and the transaction is aborted.
All pages that it has changed are as they were before its first change if and only if it had
changed back by then what the commit has written, and what an earlier failed commit has. -/
theorem rolled_back_iff
    (hadmits : (new config log).AdmitsAll (actions ++ [.commit txn, .abort txn]))
    {e : StoreError}
    (hfail : (((new config log).run actions).1.perform (.commit txn)).2 = .ended (.error e)) :
    (∀ o ∈ originsOf config log actions, o.txn = txn →
      ((new config log).run (actions ++ [.commit txn, .abort txn])).1.Shows o.page
        (some o.before)) ↔
    ∀ o ∈ originsOf config log actions, o.txn = txn →
      if o.page ∈ (((new config log).run actions).1.perform (.commit txn)).1.passed txn then
        (((new config log).run actions).1.cache.view o.page).map HeapPage.bare = some o.before
      else o.failed = true →
        (((new config log).run actions).1.cache.onDisk o.page).map HeapPage.bare =
          some o.before := by
  obtain ⟨hbefore, hends⟩ := admitsAll_append.1 hadmits
  obtain ⟨hkeeps, hcoh⟩ := (keeps_new config log).run (coherent_new config log) hbefore
  rw [run_append]
  refine forall_congr' fun o => forall_congr' fun ho => forall_congr' fun htxn => ?_
  obtain ⟨hview, hdisk⟩ := hkeeps.shows_of_failure hcoh hends hfail ho htxn
  rw [Shows, hview, hdisk, and_self]
  split
  · exact Iff.rfl
  · refine ⟨fun heq _ => heq, ?_⟩
    intro hearlier
    rcases hfailed : o.failed with _ | _
    · exact hkeeps.stored o ho hfailed
    · exact hearlier hfailed

/-! ## A commit refused midway -/

/-- A log that takes the first page it is told of and refuses the others. -/
def refusesSecond : WriteLog :=
  ⟨[], [], fun told _ => if told.isEmpty then none else some (.io "refused")⟩

/-- A log that refuses every page. -/
def refusesAll : WriteLog :=
  ⟨[], [], fun _ _ => some (.io "refused")⟩

/-- A transaction raises two flags, each on a page of its own. -/
def twoFlags : List Action :=
  [.addTable (flagFile .empty 0 0 0),
    .submit ⟨1⟩ none (.insert ⟨⟨1⟩, ⟨flags, [.boolean true], none⟩, true⟩),
    .submit ⟨1⟩ none (.insert ⟨⟨1⟩, ⟨flags, [.boolean true], none⟩, true⟩)]

/-- If the second page is refused, the flag on the first one is there after the abort. -/
theorem flag_outlives_abort :
    (new ⟨4, 1, none⟩ (some refusesSecond)).AdmitsAll (twoFlags ++ [.commit ⟨1⟩, .abort ⟨1⟩]) ∧
      ((new ⟨4, 1, none⟩ (some refusesSecond)).run
          (twoFlags ++ [.commit ⟨1⟩, .abort ⟨1⟩])).2.drop 3 =
        [.ended (.error (.io "refused")), .ended (.ok ())] ∧
      ¬ ∀ o ∈ originsOf ⟨4, 1, none⟩ (some refusesSecond) twoFlags, o.txn = ⟨1⟩ →
        ((new ⟨4, 1, none⟩ (some refusesSecond)).run
          (twoFlags ++ [.commit ⟨1⟩, .abort ⟨1⟩])).1.Shows o.page (some o.before) := by
  decide +kernel

/-- If the first page is refused, no flag is there after the abort. -/
theorem rolled_back_when_first_refused :
    (originsOf ⟨4, 1, none⟩ (some refusesAll) twoFlags).map Origin.page =
        [⟨⟨1⟩, 0⟩, ⟨⟨1⟩, 1⟩] ∧
      ∀ o ∈ originsOf ⟨4, 1, none⟩ (some refusesAll) twoFlags, o.txn = ⟨1⟩ →
        ((new ⟨4, 1, none⟩ (some refusesAll)).run
          (twoFlags ++ [.commit ⟨1⟩, .abort ⟨1⟩])).1.Shows o.page (some o.before) :=
  ⟨by decide +kernel,
    (@rolled_back_iff ⟨1⟩ ⟨4, 1, none⟩ (some refusesAll) twoFlags (by decide +kernel)
      (.io "refused") (by decide +kernel)).2 (by decide +kernel)⟩

end Session

end PageCache
