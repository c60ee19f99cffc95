-- When the file of a table grows. A record that was stored has cost a page exactly if all pages of
-- the table were full. A call that fails may have appended that page before it failed, and nothing
-- takes it back: it stays at the end of the file, blank.
import PageCache.Proofs.Cache.Searches
import PageCache.Proofs.Session.Confined

namespace PageCache

namespace Session

variable {s : Session} {txn : TransactionId} {config : Config} {log : Option WriteLog}
  {steps : List Step}

/-- A call whose request cannot be granted fails if its wait runs out. -/
theorem expire_of_blocked {call : WaitingCall} (hcall : s.calls.get? txn = some call)
    (hblocked : s.cache.Blocked txn) : ∃ locks, s.expire txn = s.enter txn call.iterator
      (Cache.proceed { s.cache with locks } txn call.page call.stage
        (.error (.waitTimeout txn call.page))) := by
  unfold Session.expire
  rw [hcall]
  rcases s.cache.locks.expire_cases txn with ⟨-, he⟩ | ⟨r, hr, ⟨hg, -⟩ | ⟨-, he⟩⟩
  · rw [he]
    exact ⟨_, rfl⟩
  · have hnot := hblocked r hr
    rw [Locking.isGrantable, hg] at hnot
    cases hnot
  · rw [he]
    exact ⟨_, rfl⟩

/-- A call that stores a record is entered as far as it has come, or its wait was over at once. -/
theorem insertion_cases (h : s.cache.Grounded) (hroom : s.cache.HasRoom)
    (hcall : s.calls.get? txn = none) (name : Option String) (job : Insertion) :
    s.submit txn name (.insert job) = s.enter txn name (s.cache.start txn (.insert job)) ∨
      ∃ c page stage locks, s.cache.start txn (.insert job) = (c, .waiting page stage) ∧
        s.submit txn name (.insert job) = ({ s with
          cache := { c with locks }
          calls := (s.calls.insert txn ⟨page, stage, name⟩).erase txn },
          .finished (.error (.waitTimeout txn page))) := by
  have hstores := h.stores_start hroom txn job
  have hfree : s.isBusy txn = false := isBusy_eq_false_iff.2 hcall
  unfold Session.submit
  rw [if_neg (by simp [hfree])]
  rcases hstart : s.cache.start txn (.insert job) with ⟨c, outcome | ⟨page, stage⟩⟩
  · exact Or.inl rfl
  · simp only [Session.enter]
    split
    · exact Or.inl rfl
    · right
      rw [hstart] at hstores
      obtain ⟨-, hblocked, hfails⟩ := hstores
      obtain ⟨locks, he⟩ := @expire_of_blocked
        { s with cache := c, calls := s.calls.insert txn ⟨page, stage, name⟩ } txn _
        (FinMap.get?_insert_self _ _ _) hblocked
      refine ⟨c, page, stage, locks, rfl, ?_⟩
      rw [he]
      simp only [hfails, Session.enter]
      cases name <;> rfl

/-- What a finished insertion has done to the files: a page is appended for a record that was
stored exactly if all pages were full, and it may be appended for one that was not stored, too. -/
def Grew (s : Session) (id : TableId) (outcome : Outcome) (s' : Session) : Prop :=
  (∀ reply, outcome = .ok reply →
    (s.cache.AllFull id → s.cache.Extended id s'.cache) ∧
      (¬ s.cache.AllFull id → s.cache.SameFiles s'.cache)) ∧
  ∀ e, outcome = .error e →
    s.cache.SameFiles s'.cache ∨ (s.cache.AllFull id ∧ s.cache.Extended id s'.cache)

theorem grew_submit (h : s.cache.Grounded) (hroom : s.cache.HasRoom) {name : Option String}
    {job : Insertion} {outcome : Outcome}
    (hdone : (s.submit txn name (.insert job)).2 = .finished outcome) :
    s.Grew job.table outcome (s.submit txn name (.insert job)).1 := by
  have hcall := call_of_finished hdone
  have hstores := h.stores_start hroom txn job
  rcases insertion_cases h hroom hcall name job with
    he | ⟨c, page, stage, locks, hstart, he⟩ <;> rw [he] at hdone ⊢
  · rcases hstart : s.cache.start txn (.insert job) with ⟨c, result | ⟨page, stage⟩⟩ <;>
      rw [hstart] at hstores hdone
    · cases hdone
      rw [Grew, cache_enter]
      rcases outcome with e | reply
      · exact ⟨fun _ hok => (by cases hok), fun _ _ => hstores⟩
      · refine ⟨fun _ _ => ?_, fun _ herror => (by cases herror)⟩
        rcases hstores with ⟨hfull, hextended⟩ | ⟨hnot, hsame⟩
        · exact ⟨fun _ => hextended, fun hnot => absurd hfull hnot⟩
        · exact ⟨fun hfull => absurd hfull hnot, fun _ => hsame⟩
    · cases hdone
  · cases hdone
    rw [hstart] at hstores
    exact ⟨fun _ hok => (by cases hok), fun _ _ => hstores.1.sameFiles (.of_eq rfl)⟩

/-- **A file grows for a record only if there is no empty slot.** After every run, whoever has which
locks and whatever was written, dropped or edited in place with a mark: an insertion that finishes
without waiting for others, into a table of any shape and of a record of any kind, has appended a
page to its table if it has stored the record and all pages were full; it has left all files as
they were if it has stored the record elsewhere. If it has failed, the files are as they were, or
all pages were full and a page was appended nevertheless. -/
theorem insertion_extends_full_table (hsteps : (new config log).AccountsAll steps)
    (hroom : ∀ file ∈ ((new config log).after steps).cache.tables.values, file.HasRoom)
    {name : Option String} {job : Insertion} {outcome : Outcome}
    (hdone : (((new config log).after steps).submit txn name (.insert job)).2 =
      .finished outcome) :
    ((new config log).after steps).Grew job.table outcome
      (((new config log).after steps).submit txn name (.insert job)).1 := by
  have hmoored := hsteps.induction (moored_new config log true) fun _ _ h => h.accounted
  exact grew_submit hmoored.anchored.grounded (hasRoom_of_values hroom) hdone

/-- Flags stand on pages with one slot each. Behind the first flag, which is committed, a second
one needs a page of its own. -/
def firstFlag : List Step :=
  [.act (.addTable (flagFile .empty 0 0 0)),
    .act (.submit ⟨1⟩ none (.insert ⟨⟨1⟩, ⟨flags, [.boolean true], none⟩, true⟩)),
    .act (.commit ⟨1⟩)]

theorem second_flag_extends_table :
    ((new ⟨4, 1, none⟩ none).after firstFlag).cache.AllFull ⟨1⟩ ∧
      ((new ⟨4, 1, none⟩ none).after firstFlag).cache.Extended ⟨1⟩
        (((new ⟨4, 1, none⟩ none).after firstFlag).submit ⟨2⟩ none
          (.insert ⟨⟨1⟩, ⟨flags, [.boolean true], none⟩, true⟩)).1.cache := by
  have hfull : ((new ⟨4, 1, none⟩ none).after firstFlag).cache.AllFull ⟨1⟩ := by decide +kernel
  have hdone : (((new ⟨4, 1, none⟩ none).after firstFlag).submit ⟨2⟩ none
      (.insert ⟨⟨1⟩, ⟨flags, [.boolean true], none⟩, true⟩)).2 =
        .finished (.ok (.location ⟨⟨⟨1⟩, 1⟩, 0⟩)) := by decide +kernel
  obtain ⟨hok, -⟩ := insertion_extends_full_table (by decide +kernel) (by decide +kernel) hdone
  exact ⟨hfull, (hok _ rfl).1 hfull⟩

/-- The cache has one place, and the changed page is in it. A second flag of the same transaction
fails for want of a place, after a page was appended for it. -/
theorem table_grows_for_failed_insertion :
    (new ⟨1, 1, none⟩ none).AccountsAll (firstFlag.take 2) ∧
      ((new ⟨1, 1, none⟩ none).after (firstFlag.take 2)).cache.pageCount ⟨1⟩ = 1 ∧
      (((new ⟨1, 1, none⟩ none).after (firstFlag.take 2)).submit ⟨1⟩ none
        (.insert ⟨⟨1⟩, ⟨flags, [.boolean true], none⟩, true⟩)).2 =
          .finished (.error (.cacheFull 1)) ∧
      (((new ⟨1, 1, none⟩ none).after (firstFlag.take 2)).submit ⟨1⟩ none
        (.insert ⟨⟨1⟩, ⟨flags, [.boolean true], none⟩, true⟩)).1.cache.pageCount ⟨1⟩ = 2 := by
  decide +kernel

/-! ## Where the law ends -/

/-- Behind the first flag stands a page that was appended blank. A second flag was put on it in
place, without a mark, and its transaction has ended. -/
def unmarkedFlag : List Step :=
  firstFlag ++ [.act (.allocate ⟨1⟩),
    .act (.submit ⟨2⟩ none
      (.fetch ⟨⟨1⟩, 1⟩ .readWrite (.insert ⟨flags, [.boolean true], none⟩ false))),
    .act (.commit ⟨2⟩)]

/-- An edit without a mark is lost with the place of its page in the cache. Both pages are seen to
be full, but the search for an empty slot needs the one place for the first page, and then it finds
the second one blank. -/
theorem unmarked_flag_is_overlooked :
    (new ⟨1, 1, none⟩ none).ConfinesAll unmarkedFlag ∧
      ((new ⟨1, 1, none⟩ none).after unmarkedFlag).cache.AllFull ⟨1⟩ ∧
      (((new ⟨1, 1, none⟩ none).after unmarkedFlag).submit ⟨3⟩ none
        (.insert ⟨⟨1⟩, ⟨flags, [.boolean true], none⟩, true⟩)).2 =
          .finished (.ok (.location ⟨⟨⟨1⟩, 1⟩, 0⟩)) ∧
      (((new ⟨1, 1, none⟩ none).after unmarkedFlag).submit ⟨3⟩ none
        (.insert ⟨⟨1⟩, ⟨flags, [.boolean true], none⟩, true⟩)).1.cache.pageCount ⟨1⟩ =
          ((new ⟨1, 1, none⟩ none).after unmarkedFlag).cache.pageCount ⟨1⟩ := by
  decide +kernel

/-- Two flags are committed. Then others take the second one out of the file, whose page is still
resident. -/
def clearedBehind : List Step :=
  firstFlag ++ [.act (.submit ⟨2⟩ none (.insert ⟨⟨1⟩, ⟨flags, [.boolean true], none⟩, true⟩)),
    .act (.commit ⟨2⟩), .overwrite (flagFile ⟨4, [⟨0, [1, 1]⟩]⟩ 2 0 0)]

/-- What others write to the file is seen as soon as the page gives its place up, and again the
search does so itself. -/
theorem cleared_flag_is_replaced :
    ((new ⟨1, 1, none⟩ none).after clearedBehind).cache.AllFull ⟨1⟩ ∧
      (((new ⟨1, 1, none⟩ none).after clearedBehind).submit ⟨3⟩ none
        (.insert ⟨⟨1⟩, ⟨flags, [.boolean true], none⟩, true⟩)).2 =
          .finished (.ok (.location ⟨⟨⟨1⟩, 1⟩, 0⟩)) ∧
      (((new ⟨1, 1, none⟩ none).after clearedBehind).submit ⟨3⟩ none
        (.insert ⟨⟨1⟩, ⟨flags, [.boolean true], none⟩, true⟩)).1.cache.pageCount ⟨1⟩ =
          ((new ⟨1, 1, none⟩ none).after clearedBehind).cache.pageCount ⟨1⟩ := by
  decide +kernel

end Session

end PageCache
