-- Calls that fail, and calls that wait, leave the data alone. They change nothing that anybody sees
-- of a page, and no byte of a page in a file; at most a file has a new page at its end. So a call
-- that has changed a page is one that has succeeded.
import PageCache.Proofs.Cache.Prefixes
import PageCache.Proofs.Session.EarlyEnds
import PageCache.Proofs.Session.Growth

namespace PageCache

/-- Nothing has changed for those who look at pages: the records, the mark and the snapshot of each
page are the same. The files begin with what they held. -/
structure Cache.Untouched (c c' : Cache) : Prop extends c.Begins c' where
  view_eq : ∀ page, c'.view page = c.view page

/-- A call that has not succeeded has made no change. -/
theorem Answer.change_eq_none {answer : Answer} (h : ∀ reply, answer ≠ .finished (.ok reply))
    (errand : Errand) : answer.change errand = none := by
  rcases answer with _ | _ | (e | reply)
  · rfl
  · rfl
  · exact Errand.change_error errand e
  · exact absurd rfl (h reply)

namespace Session

variable {s s' : Session} {txn : TransactionId} {call : WaitingCall} {errand : Errand}
  {answer : Answer} {a : Action} {config : Config} {log : Option WriteLog} {steps : List Step}

/-- The files do not depend on the locks. -/
theorem sameFiles_locks (locks : Locking) : s.cache.SameFiles { s.cache with locks } := .of_eq rfl

/-! ## Steps of calls -/

/-- A call that gets its lock goes on with its page. -/
theorem begins_granted (hkeyed : s.cache.Keyed) (hroom : call.stage.seeks = true → s.cache.HasRoom)
    (locks : Locking) : s.cache.Begins (s.enter txn call.iterator
      ((Cache.bring { s.cache with locks } call.page).1.proceed txn call.page call.stage
        (Cache.bring { s.cache with locks } call.page).2)).1.cache := by
  have hbring : s.cache.SameFiles (Cache.bring { s.cache with locks } call.page).1 :=
    Cache.sameFiles_bring (c := { s.cache with locks }) hkeyed call.page
  rw [cache_enter]
  exact hbring.begins.trans ((hbring.keyed hkeyed).begins_proceed
    (fun hseeks => hbring.hasRoom (hroom hseeks)) txn call.page _)

theorem begins_resume (hkeyed : s.cache.Keyed)
    (hroom : ∀ call, s.calls.get? txn = some call → call.stage.seeks = true → s.cache.HasRoom) :
    s.cache.Begins (s.resume txn).1.cache := by
  unfold Session.resume
  split
  · exact (Cache.SameFiles.refl _).begins
  · rename_i call hcall
    split
    · exact (sameFiles_locks _).begins
    · exact begins_granted hkeyed (hroom call hcall) _

theorem begins_expire (hkeyed : s.cache.Keyed)
    (hroom : ∀ call, s.calls.get? txn = some call → call.stage.seeks = true → s.cache.HasRoom) :
    s.cache.Begins (s.expire txn).1.cache := by
  unfold Session.expire
  split
  · exact (Cache.SameFiles.refl _).begins
  · rename_i call hcall
    split
    · exact begins_granted hkeyed (hroom call hcall) _
    · rename_i locks _ _ _
      rw [cache_enter]
      exact (sameFiles_locks locks).begins.trans
        (((sameFiles_locks locks).keyed hkeyed).begins_proceed (hroom call hcall) txn call.page _)

theorem Coherent.begins_submit (h : s.Coherent) (hroom : s.cache.HasRoom) (name : Option String)
    {op : Operation} (hplain : op.IsPlain) : s.cache.Begins (s.submit txn name op).1.cache := by
  rcases s.submit_cases txn name op with ⟨-, he⟩ | ⟨hcall, s₁, answer, henter, hcase⟩
  · rw [he]
    exact (Cache.SameFiles.refl _).begins
  · have hp := (h.ready hcall).proceeds_start hroom hplain
    have hafter := fun call => @hasRoom_of_waiting _ _ _ hroom name _ hp call
    have hcoh := (h.enter name hp).1
    have hbegins := Cache.Keyed.begins_start h.sound.keyed hroom txn op
    rw [← cache_enter s txn name] at hbegins
    rw [henter] at hafter hcoh hbegins
    rcases hcase with he | ⟨rfl, he⟩ <;> rw [he]
    · exact hbegins
    · exact hbegins.trans (begins_expire hcoh.sound.keyed fun call => hafter call rfl)

/-- Every step that users are answered about leaves the files with what they held. -/
theorem Coherent.begins_perform (h : s.Coherent) (ha : s.Allows (.act a))
    (hanswer : (s.perform a).2 = .answered answer) : s.cache.Begins (s.perform a).1.cache := by
  obtain ⟨hrooms, hplain⟩ := ha
  have hroom := hasRoom_of_values hrooms
  cases a with
  | submit txn name op => exact h.begins_submit hroom name hplain
  | resume txn => exact begins_resume h.sound.keyed fun _ _ _ => hroom
  | expire txn => exact begins_expire h.sound.keyed fun _ _ _ => hroom
  | openIterator txn name table =>
    have hcache := (s.openIterator_same txn name table).1
    exact (Cache.SameFiles.of_eq (congrArg Cache.tables hcache)).begins
  | rewindIterator name =>
    have hcache := (s.rewindIterator_same name).1
    exact (Cache.SameFiles.of_eq (congrArg Cache.tables hcache)).begins
  | addTable file =>
    simp only [Session.perform] at hanswer
    split at hanswer <;> cases hanswer
  | evict =>
    simp only [Session.perform] at hanswer
    split at hanswer <;> cases hanswer
  | _ => cases hanswer

/-- A step that makes no change is one that nobody who looks at pages can notice. -/
theorem Coherent.view_perform (h : s.Coherent) (ha : s.Allows (.act a))
    (hanswer : (s.perform a).2 = .answered answer) (hnot : ∀ reply, answer ≠ .finished (.ok reply))
    (page : PageId) : (s.perform a).1.cache.view page = s.cache.view page := by
  have hcall : ∀ {txn errand s'} {answer' : Answer}, CallStep txn errand s answer' s' →
      Report.answered answer' = .answered answer → s'.cache.view page = s.cache.view page := by
    rintro txn errand s' answer' hstep ⟨⟩
    rw [hstep.did.view_eq, Answer.change_eq_none hnot]
    exact Option.map_id_fun'.symm ▸ rfl
  obtain ⟨-, heffect⟩ := h.perform_allowed ha
  cases a with
  | submit txn name op =>
    obtain ⟨answer', he, ⟨-, hsame⟩ | ⟨-, hstep⟩⟩ := heffect
    · rw [hsame]
    · exact hcall hstep (he.symm.trans hanswer)
  | resume txn | expire txn =>
    obtain ⟨answer', he, ⟨-, -, hsame⟩ | ⟨call, -, hstep⟩⟩ := heffect
    · rw [hsame]
    · exact hcall hstep (he.symm.trans hanswer)
  | openIterator _ _ _ | rewindIterator _ | allocate _ | evict | unpin _ =>
    exact heffect.1.view_eq page
  | addTable file =>
    simp only [Session.perform] at hanswer
    split at hanswer <;> cases hanswer
  | commit txn | abort txn => cases hanswer

/-! ## The law -/

/-- **A call that fails leaves the data as they were.** After every run, with transactions that end
at any time, take any step of any call: the one that starts it, or one by which it goes on after a
wait. If the call fails in this step, for whatever reason and at whatever page, or goes on waiting,
then all pages are seen with the records, the marks and the snapshots that they had, and the files
have the bytes that they had. So if a page has changed, the call has succeeded. -/
theorem failed_calls_leave_data (hsteps : (new config log).AllowsAll steps)
    (ha : ((new config log).after steps).Allows (.act a))
    (hanswer : (((new config log).after steps).perform a).2 = .answered answer) :
    ((∀ reply, answer ≠ .finished (.ok reply)) →
      ((new config log).after steps).cache.Untouched
        (((new config log).after steps).perform a).1.cache) ∧
    ∀ page, (((new config log).after steps).perform a).1.cache.view page ≠
        ((new config log).after steps).cache.view page →
      ∃ reply, answer = .finished (.ok reply) := by
  have hcoh := (coherent_new config log).after_allowed hsteps
  refine ⟨fun hnot => ⟨hcoh.begins_perform ha hanswer, hcoh.view_perform ha hanswer hnot⟩,
    fun page hchanged => ?_⟩
  by_contra hno
  exact hchanged (hcoh.view_perform ha hanswer (fun reply heq => hno ⟨reply, heq⟩) page)

/-- The cache has one place, and the page with the first flag is in it, not written yet. A second
flag fails for want of a place, after a page was appended for it. -/
theorem failed_flag_leaves_data :
    (((new ⟨1, 1, none⟩ none).after (firstFlag.take 2)).perform (.submit ⟨1⟩ none
        (.insert ⟨⟨1⟩, ⟨flags, [.boolean true], none⟩, true⟩))).2 =
          .answered (.finished (.error (.cacheFull 1))) ∧
      ((new ⟨1, 1, none⟩ none).after (firstFlag.take 2)).cache.Untouched
        (((new ⟨1, 1, none⟩ none).after (firstFlag.take 2)).perform (.submit ⟨1⟩ none
          (.insert ⟨⟨1⟩, ⟨flags, [.boolean true], none⟩, true⟩))).1.cache := by
  have hanswer : (((new ⟨1, 1, none⟩ none).after (firstFlag.take 2)).perform (.submit ⟨1⟩ none
      (.insert ⟨⟨1⟩, ⟨flags, [.boolean true], none⟩, true⟩))).2 =
        .answered (.finished (.error (.cacheFull 1))) := by decide +kernel
  exact ⟨hanswer, (failed_calls_leave_data (by decide +kernel) (by decide +kernel) hanswer).1
    fun reply heq => by cases heq⟩

end Session

end PageCache
