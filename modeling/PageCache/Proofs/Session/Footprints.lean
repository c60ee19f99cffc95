-- What an insertion or a deletion does to the holdings of its transaction, from its start to its
-- end, with whatever others do while it waits. One holding changes at most, and none is lost or
-- weakened. A deletion that misses its record has not asked to write, unless it has seen the record
-- and had to wait; and then somebody has broken the rules meanwhile.
import PageCache.Proofs.Cache.Footprints
import PageCache.Proofs.Session.Bystanders

namespace PageCache

/-- The operation stores a record in a table, or takes one out, and counts as a use of the page. -/
def Operation.changes : Operation → Bool
  | .insert _ | .delete _ => true
  | _ => false

namespace Session

variable {s s' : Session} {txn u : TransactionId} {op : Operation} {errand : Errand}
  {late kept : Prop} {held : PageId → Option Access} {call : WaitingCall} {r : PendingLock}
  {answer : Answer}
  {before course : List Step} {st : Step} {config : Config} {log : Option WriteLog}
  {place : RecordId}

/-- What a transaction holds of each page. -/
def modes (s : Session) (txn : TransactionId) : PageId → Option Access :=
  s.cache.locks.table.heldMode txn

/-- The course of an operation: a transaction without an unfinished call asks for it; while it waits
others take steps, and now and then it is looked at again or its time is over. The answer is the one
that the transaction got last. -/
inductive Course (txn : TransactionId) (op : Operation) (s : Session) : List Step → Answer → Prop
  | submitted (name : Option String) : s.isBusy txn = false →
      Course txn op s [.act (.submit txn name op)] (s.submit txn name op).2
  | passed {course : List Step} {st : Step} : Course txn op s course .waiting →
      st.actor ≠ some txn → Course txn op s (course ++ [st]) .waiting
  | resumed {course : List Step} : Course txn op s course .waiting →
      Course txn op s (course ++ [.act (.resume txn)]) ((s.after course).resume txn).2
  | expired {course : List Step} : Course txn op s course .waiting →
      Course txn op s (course ++ [.act (.expire txn)]) ((s.after course).expire txn).2

/-- Before its last step the course was that of a deletion which had seen its record and waited to
take it out, and the record was not there any more. -/
def ComesLate (txn : TransactionId) (s : Session) (course : List Step) : Prop :=
  ∃ before st call, course = before ++ [st] ∧ (s.after before).calls.get? txn = some call ∧
    call.stage.removes = true ∧ ¬ (s.after before).cache.Shows call.stage

/-- The call of a transaction waits, which held `held` when it was asked for. -/
def Stands (txn : TransactionId) (errand : Errand) (held : PageId → Option Access) (s : Session) :
    Prop :=
  ∃ call r, s.calls.get? txn = some call ∧ s.cache.locks.pending.get? txn = some r ∧
    r.page = call.page ∧ call.stage.errand call.page = errand ∧
    call.stage.Stands held (s.modes txn) r

/-- The record that the call of a transaction is to take out is seen on its page. -/
def SeesRecord (txn : TransactionId) (s : Session) : Prop :=
  ∀ call, s.calls.get? txn = some call → s.cache.Shows call.stage

/-- How far a call has come after an answer, of a transaction that held `held` when it was asked
for. If all have `kept` the rules, the record of a deletion that waits is where it was seen. -/
def Treads (txn : TransactionId) (errand : Errand) (late kept : Prop)
    (held : PageId → Option Access) (s : Session) : Answer → Prop
  | .busy => False
  | .waiting => s.Stands txn errand held ∧ (kept → s.SeesRecord txn)
  | .finished outcome => errand.Leaves late held (s.modes txn) outcome

/-! ## Single steps -/

theorem treads_enter (s : Session) (name : Option String) {result : Cache × Progress}
    (h : Cache.Treads txn errand late held result) :
    (s.enter txn name result).1.Treads txn errand late kept held
      (s.enter txn name result).2 := by
  have hcache := s.cache_enter txn name result
  have hown := (s.calls_enter txn name result txn).trans (if_pos rfl)
  obtain ⟨c, outcome | ⟨page, stage⟩⟩ := result
  · change errand.Leaves late held _ outcome
    rw [modes, hcache]
    exact h
  · obtain ⟨herrand, hshows, r, hr, hpage, hstands⟩ := h
    refine ⟨⟨_, r, hown, hr, hpage, herrand, hstands⟩, fun _ call hcall => ?_⟩
    obtain rfl := Option.some.inj (hown.symm.trans hcall)
    exact hshows

theorem Stands.of_bypasses (h : s.Stands txn errand held) (hby : s.Bypasses txn s') :
    s'.Stands txn errand held := by
  obtain ⟨call, r, hcall, hr, hpage, herrand, hstands⟩ := h
  refine ⟨call, r, hby.call.trans hcall, hby.pending.trans hr, hpage, herrand, ?_⟩
  rw [modes, hby.modes]
  exact hstands

theorem Linked.treads_goOn (h : s.Linked) (hpage : r.page = call.page)
    (herrand : call.stage.errand call.page = errand)
    (hstands : call.stage.Stands held (s.modes txn) r)
    (hlate : call.stage.removes = true ∧ ¬ s.cache.Shows call.stage → late) {locks : Locking}
    (halone : s.cache.locks.Alone txn locks) (hidle : locks.pending.get? txn = none)
    (hgrants : s.cache.locks.Grants txn r.page r.access locks) :
    (s.goOn txn call locks).1.Treads txn errand late kept held (s.goOn txn call locks).2 := by
  have hworks : s.cache.Works txn { s.cache with locks } := ⟨halone, h.placed⟩
  have htreads := (hworks.idle hidle).treads_brought hstands hgrants
  rw [hpage, herrand] at htreads
  refine treads_enter s call.iterator (htreads.imp fun hgone => hlate ?_)
  exact hgone

theorem Linked.treads_resume (h : s.Linked) (hstands : s.Stands txn errand held)
    (hshows : kept → s.SeesRecord txn)
    (hlate : ∀ call, s.calls.get? txn = some call →
      call.stage.removes = true ∧ ¬ s.cache.Shows call.stage → late) :
    (s.resume txn).1.Treads txn errand late kept held (s.resume txn).2 := by
  obtain ⟨call, r, hcall, hr, hpage, herrand, hstage⟩ := hstands
  rcases h.resume_cases hcall hr with ⟨locks, halone, hidle, hgrants, he⟩ |
    ⟨locks, -, hpending, hsame, he⟩ <;> rw [he]
  · exact h.treads_goOn hpage herrand hstage (hlate call hcall) halone hidle hgrants
  · refine ⟨⟨call, r, hcall, hpending, hpage, herrand, ?_⟩, hshows⟩
    simp only [modes, hsame]
    exact hstage

theorem Linked.treads_expire (h : s.Linked) (hcall : s.calls.get? txn = some call)
    (hr : s.cache.locks.pending.get? txn = some r) (hpage : r.page = call.page)
    (herrand : call.stage.errand call.page = errand)
    (hstands : call.stage.Stands held (s.modes txn) r)
    (hlate : s.cache.locks.isGrantable txn r = true →
      call.stage.removes = true ∧ ¬ s.cache.Shows call.stage → late) :
    (s.expire txn).1.Treads txn errand late kept held (s.expire txn).2 := by
  rcases h.expire_cases hcall hr with ⟨hgrant, locks, halone, hidle, hgrants, he⟩ |
    ⟨locks, -, -, hsame, he⟩ <;> rw [he]
  · exact h.treads_goOn hpage herrand hstands (hlate hgrant) halone hidle hgrants
  · have hmodes : (Cache.locks { s.cache with locks }).table.heldMode txn = s.modes txn := by
      simp only [modes, hsame]
    have hover : Cache.Treads txn _ late held _ := Cache.treads_over hstands hmodes
    rw [hpage, herrand] at hover
    exact treads_enter s call.iterator hover

/-- An insertion or a deletion is started, and its time may be over at once. What it waits for
cannot be granted then. -/
theorem Linked.treads_submit (h : s.Linked) (hfree : s.isBusy txn = false) (name : Option String)
    (hop : op.changes = true) : (s.submit txn name op).1.Treads txn op.errand late kept
      (s.modes txn) (s.submit txn name op).2 := by
  have hidle := h.idle (isBusy_eq_false_iff.1 hfree)
  have hfares := hidle.fares_start op
  have hturn := h.enter name hfares
  have hstart : Cache.Treads txn op.errand late (s.modes txn) (s.cache.start txn op) := by
    cases op with
    | insert job => exact hidle.treads_insert job
    | delete location => exact hidle.treads_delete location
    | _ => cases hop
  have hentered := @treads_enter txn op.errand late kept (s.modes txn) s name _ hstart
  unfold Session.submit
  rw [if_neg (by simp [hfree])]
  rcases hresult : s.cache.start txn op with ⟨c, outcome | ⟨page, stage⟩⟩ <;>
    rw [hresult] at hfares hturn hentered
  · exact hentered
  · simp only [Session.enter] at hturn hentered ⊢
    split
    · exact hentered
    · obtain ⟨⟨call, r, hcall, hr, hpage, herrand, hstands⟩, -⟩ := hentered
      refine hturn.linked.treads_expire hcall hr hpage herrand hstands fun hgrant => ?_
      have hblocked := hfares.2.2 r hr
      rw [hgrant] at hblocked
      cases hblocked

/-! ## Whole courses -/

/-- A transaction that waits to take out a record reads its page meanwhile. Nobody can change the
page, and what is read again of it is what was there. -/
theorem Coherent.seesRecord_step (h : s.Coherent) (hst : s.Allows st) (hne : st.actor ≠ some txn)
    (hstands : s.Stands txn errand held) (hshows : s.SeesRecord txn) :
    (s.step st).SeesRecord txn := by
  have hby := h.standsBy hst hne
  obtain ⟨call, r, hcall, -, -, -, hstage⟩ := hstands
  intro call' hcall'
  rw [hby.call, hcall, Option.some.injEq] at hcall'
  rw [← hcall']
  have hthere := hshows call hcall
  rcases hwhat : call.stage with _ | _ | _ | _ | job | _ <;> rw [hwhat] at hstage hthere
  case remove =>
    obtain ⟨hpage, -, -, hmode⟩ := hstage
    obtain ⟨p, hview, hp⟩ := hthere
    rw [hpage] at hmode
    obtain ⟨q, hq, hbare⟩ := hby.seen _ p hmode hview
    exact ⟨q, hq, hp.of_bare hbare⟩
  all_goals trivial

theorem Course.treads (h : s.Linked) (hcoh : kept → s.Coherent) (hop : op.changes = true)
    (hcourse : Course txn op s course answer) :
    (s.after course).Treads txn op.errand
      (ComesLate txn s course ∧ ¬ (kept ∧ s.AllowsAll course)) (kept ∧ s.AllowsAll course)
      (s.modes txn) answer := by
  induction hcourse with
  | submitted name hfree => exact h.treads_submit hfree name hop
  | @passed course st _ hne ih =>
    obtain ⟨hstands, hshows⟩ := ih
    rw [after_append]
    refine ⟨hstands.of_bypasses (((h.after course).step st).others txn hne), ?_⟩
    rintro ⟨hkept, hallows⟩
    obtain ⟨hcourse, hst, -⟩ := allowsAll_append.1 hallows
    exact ((hcoh hkept).after_allowed hcourse).seesRecord_step hst hne hstands
      (hshows ⟨hkept, hcourse⟩)
  | @resumed course _ ih =>
    obtain ⟨hstands, hshows⟩ := ih
    have hbefore : kept ∧ s.AllowsAll (course ++ [.act (.resume txn)]) →
        (s.after course).SeesRecord txn :=
      fun hrules => hshows ⟨hrules.1, (allowsAll_append.1 hrules.2).1⟩
    rw [after_append]
    refine (h.after course).treads_resume hstands hbefore fun call hcall hlate => ?_
    exact ⟨⟨course, _, call, rfl, hcall, hlate⟩, fun hrules => hlate.2 (hbefore hrules call hcall)⟩
  | @expired course _ ih =>
    obtain ⟨⟨call, r, hcall, hr, hpage, herrand, hstands⟩, hshows⟩ := ih
    rw [after_append]
    refine (h.after course).treads_expire hcall hr hpage herrand hstands fun _ hlate => ?_
    refine ⟨⟨course, _, call, rfl, hcall, hlate⟩, fun hrules => ?_⟩
    exact hlate.2 (hshows ⟨hrules.1, (allowsAll_append.1 hrules.2).1⟩ call hcall)

/-! ## The law -/

/-- **The footprint of an insertion or a deletion.** After every run, let a transaction ask for an
insertion or a deletion, with whatever others do while it waits. At each answer, the last one and
those before, it holds what it has held when it asked, nothing weaker anywhere, and differently on
one page at most. Once a record is stored, that page is the one of the record, and it is held for
writing. If a deletion misses its record the page of the record is held, and for writing only if it
was held so before; or the record was seen there, the deletion had to wait before it could take it
out, and then the record was gone. That does not happen where pages are changed by insertions and
deletions only, files by the session only, and whoever has changed a page keeps it until he ends. -/
theorem changes_leave_one_footprint (hop : op.changes = true)
    (hcourse : Course txn op ((new config log).after before) course answer) :
    (∃ page, Raised page (((new config log).after before).modes txn)
        ((((new config log).after before).after course).modes txn)) ∧
    (∀ job reply, op = .insert job → answer = .finished (.ok reply) →
      ∃ place, reply.TellsOf place ∧
        (((new config log).after before).after course).modes txn place.page = some .readWrite ∧
        ∀ page, page ≠ place.page → (((new config log).after before).after course).modes txn page =
          ((new config log).after before).modes txn page) ∧
    ∀ place e, op = .delete (some place) → answer = .finished (.error e) → e.isMiss = true →
      ∃ m, (((new config log).after before).after course).modes txn place.page = some m ∧
        (m = .readWrite →
          ((new config log).after before).modes txn place.page = some .readWrite ∨
            (ComesLate txn ((new config log).after before) course ∧
              ¬ (new config log).AllowsAll (before ++ course))) := by
  have hlinked := (linked_new config log).after before
  have htreads := hcourse.treads hlinked ((coherent_new config log).after_allowed) hop
  refine ⟨?_, ?_, ?_⟩
  · cases answer with
    | busy => exact htreads.elim
    | finished outcome => exact htreads.1
    | waiting =>
      obtain ⟨⟨call, r, -, -, -, -, hstands⟩, -⟩ := htreads
      exact hstands.raised
  · rintro job reply rfl rfl
    obtain ⟨place, htells, hraised, hwrite⟩ := htreads.2 reply rfl
    exact ⟨place, htells, hwrite, hraised.elsewhere⟩
  · rintro place e rfl rfl hmiss
    rw [allowsAll_append]
    exact htreads.2 e rfl hmiss

/-- A transaction raises a flag and holds its page. -/
def raisedFlag : List Step :=
  [.act (.addTable (flagFile .empty 0 0 0)),
    .act (.submit ⟨2⟩ none (.insert ⟨⟨1⟩, ⟨flags, [.boolean true], none⟩, true⟩))]

/-- Another one wants to raise a flag. It waits to look at the page, finds it full, gives it back
and raises its flag on a page of its own. -/
def flagBehindIt : List Step :=
  [.act (.submit ⟨1⟩ none (.insert ⟨⟨1⟩, ⟨flags, [.boolean false], none⟩, true⟩)),
    .act (.commit ⟨2⟩),
    .act (.resume ⟨1⟩)]

theorem flag_behind_another_leaves_one_footprint :
    Course ⟨1⟩ (.insert ⟨⟨1⟩, ⟨flags, [.boolean false], none⟩, true⟩)
        ((new ⟨4, 1, none⟩ none).after raisedFlag) flagBehindIt
        (.finished (.ok (.location ⟨⟨⟨1⟩, 1⟩, 0⟩))) ∧
      ∃ place, (Reply.location ⟨⟨⟨1⟩, 1⟩, 0⟩).TellsOf place ∧
        (((new ⟨4, 1, none⟩ none).after raisedFlag).after flagBehindIt).modes ⟨1⟩ place.page =
          some .readWrite ∧
        ∀ page, page ≠ place.page →
          (((new ⟨4, 1, none⟩ none).after raisedFlag).after flagBehindIt).modes ⟨1⟩ page =
            ((new ⟨4, 1, none⟩ none).after raisedFlag).modes ⟨1⟩ page := by
  have hwaits : (((new ⟨4, 1, none⟩ none).after raisedFlag).submit ⟨1⟩ none
      (.insert ⟨⟨1⟩, ⟨flags, [.boolean false], none⟩, true⟩)).2 = .waiting := by decide +kernel
  have hdone : ((((new ⟨4, 1, none⟩ none).after raisedFlag).after (flagBehindIt.take 2)).resume
      ⟨1⟩).2 = .finished (.ok (.location ⟨⟨⟨1⟩, 1⟩, 0⟩)) := by decide +kernel
  have hsubmitted := @Course.submitted ⟨1⟩ (.insert ⟨⟨1⟩, ⟨flags, [.boolean false], none⟩, true⟩)
    ((new ⟨4, 1, none⟩ none).after raisedFlag) none (by decide +kernel)
  have hother : Step.actor (.act (.commit ⟨2⟩)) ≠ some ⟨1⟩ := by decide
  rw [hwaits] at hsubmitted
  have hcourse := hdone ▸ (hsubmitted.passed hother).resumed
  exact ⟨hcourse, (changes_leave_one_footprint rfl hcourse).2.1 _ _ rfl rfl⟩

/-- A transaction raises a flag, gives its page back at once and goes on reading it. -/
def flagInSight : List Step :=
  raisedFlag ++ [.release ⟨2⟩ flagPage, .act (.submit ⟨2⟩ none (.fetch flagPage .readOnly .view))]

/-- Another one sees the flag and waits to take it away. Meanwhile the first one takes it back. -/
def lateDeletion : List Step :=
  [.act (.submit ⟨1⟩ none (.delete (some ⟨flagPage, 0⟩))),
    .act (.abort ⟨2⟩),
    .act (.resume ⟨1⟩)]

/-- A deletion that comes late finds an empty slot and holds the page for writing all the same. -/
theorem late_deletion_writes_in_vain :
    Course ⟨1⟩ (.delete (some ⟨flagPage, 0⟩)) ((new ⟨4, 1, none⟩ none).after flagInSight)
        lateDeletion (.finished (.error (.slotEmpty flagPage 0))) ∧
      ((new ⟨4, 1, none⟩ none).after flagInSight).modes ⟨1⟩ flagPage = none ∧
      (((new ⟨4, 1, none⟩ none).after flagInSight).after lateDeletion).modes ⟨1⟩ flagPage =
        some .readWrite := by
  have hwaits : (((new ⟨4, 1, none⟩ none).after flagInSight).submit ⟨1⟩ none
      (.delete (some ⟨flagPage, 0⟩))).2 = .waiting := by decide +kernel
  have hmissed : ((((new ⟨4, 1, none⟩ none).after flagInSight).after (lateDeletion.take 2)).resume
      ⟨1⟩).2 = .finished (.error (.slotEmpty flagPage 0)) := by decide +kernel
  have hsubmitted := @Course.submitted ⟨1⟩ (.delete (some ⟨flagPage, 0⟩))
    ((new ⟨4, 1, none⟩ none).after flagInSight) none (by decide +kernel)
  have hother : Step.actor (.act (.abort ⟨2⟩)) ≠ some ⟨1⟩ := by decide
  rw [hwaits] at hsubmitted
  exact ⟨hmissed ▸ (hsubmitted.passed hother).resumed, by decide +kernel, by decide +kernel⟩

end Session

end PageCache
