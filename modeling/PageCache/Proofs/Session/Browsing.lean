-- What every step of a session leaves to a transaction that does nothing but read: the pages that
-- it holds are seen as before, and a request that waits stands behind those that it has come
-- through. What it is handed out is what is seen on them. The others may call, commit and abort
-- as they like.
import PageCache.Proofs.Session.Bystanders
import PageCache.Proofs.Session.Resumption

namespace PageCache

/-- What a call has handed out to its transaction: the cursor that it began with, the items, and
the cursor that goes on behind them, if the table has not come to its end. -/
structure Portion where
  txn : TransactionId
  origin : Cursor
  items : List Item
  rest : Option Cursor
deriving DecidableEq

/-- The portion that a step has handed out. -/
def Ledger.portion (l : Ledger) (a : Action) (report : Report) : Option Portion :=
  match l.callOf a, report with
  | some (txn, .scan table), .answered (.finished (.ok (.rows records))) =>
    some ⟨txn, .start table, records.map .ok, none⟩
  | some (txn, .draw cursor _), .answered (.finished (.ok (.drawn next items ended))) =>
    some ⟨txn, cursor, items, if ended then none else some next⟩
  | _, _ => none

theorem Operation.seeks_of_reads {op : Operation} (h : op.errand.reads = true) :
    op.seeks = false := by
  cases op with
  | insert job => cases h
  | _ => rfl

namespace Session

variable {s : Session} {txn u : TransactionId} {l : Ledger} {origin : Cursor} {a : Action}

/-- A step by which a transaction does nothing but read, unless it is told that it has another
call unfinished. The steps of others are not restricted. -/
def Browses (s : Session) (txn : TransactionId) : Action → Prop
  | .submit u _ op => u = txn → s.isBusy txn = true ∨ op.errand.reads = true
  | .commit u | .abort u => u ≠ txn
  | _ => True

instance (s : Session) (txn : TransactionId) : (a : Action) → Decidable (s.Browses txn a)
  | .submit u _ op =>
    inferInstanceAs (Decidable (u = txn → s.isBusy txn = true ∨ op.errand.reads = true))
  | .commit u | .abort u => inferInstanceAs (Decidable (u ≠ txn))
  | .addTable _ | .allocate _ | .resume _ | .expire _ | .evict | .unpin _ | .openIterator .. |
    .rewindIterator _ => instDecidableTrue

/-- Every step of a run is of that kind where it is taken. -/
def BrowsesAll (s : Session) (txn : TransactionId) (actions : List Action) : Prop :=
  Along next (·.Browses txn) s actions

instance (s : Session) (txn : TransactionId) (actions : List Action) :
    Decidable (s.BrowsesAll txn actions) :=
  inferInstanceAs (Decidable (Along next (·.Browses txn) s actions))

/-! ## Requests that wait -/

/-- A request of the transaction has gone on: it waits for a page behind those that it has come
through, or its answer tells of them. -/
def Answers (txn : TransactionId) (origin : Cursor) : Session × Answer → Prop
  | (s, answer) =>
    (∀ call, s.calls.get? txn = some call → s.cache.Awaits txn origin call.page call.stage) ∧
      ∀ outcome, answer = .finished outcome → s.cache.Tells txn origin outcome

theorem answers_enter (s : Session) (name : Option String) {result : Cache × Progress}
    (h : Cache.Walks txn origin result) : Answers txn origin (s.enter txn name result) := by
  have hcache := s.cache_enter txn name result
  have hown := (s.calls_enter txn name result txn).trans (if_pos rfl)
  obtain ⟨c, outcome | ⟨page, stage⟩⟩ := result
  · constructor
    · intro call hcall
      cases hown.symm.trans hcall
    · intro other hother
      cases hother
      exact hcache.symm ▸ h
  · constructor
    · intro call hcall
      obtain rfl := Option.some.inj (hown.symm.trans hcall)
      exact h
    · intro outcome houtcome
      cases houtcome

/-- A request goes on with what has come of its page. -/
theorem Resumes.answers {call : WaitingCall} {c : Cache} {result : Except StoreError HeapPage}
    (h : s.Resumes txn call c result)
    (hawaits : s.cache.Awaits txn origin call.page call.stage) :
    Answers txn origin
      (s.enter txn call.iterator (c.proceed txn call.page call.stage result)) :=
  answers_enter s call.iterator
    (h.ready.walks_proceed (hawaits.of_spares h.spares) result h.page h.denies)

theorem Coherent.answers_resume (h : s.Coherent) {call : WaitingCall}
    (hcall : s.calls.get? txn = some call)
    (hawaits : s.cache.Awaits txn origin call.page call.stage) :
    Answers txn origin (s.resume txn) := by
  rcases h.resume_cases hcall with ⟨c, result, hresumes, he⟩ | ⟨locks, hspares, he⟩ <;> rw [he]
  · exact hresumes.answers hawaits
  · constructor
    · intro other hother
      have hsame : s.calls.get? txn = some other := hother
      rw [hcall, Option.some.injEq] at hsame
      rw [← hsame]
      exact hawaits.of_spares hspares
    · intro outcome houtcome
      cases houtcome

theorem Coherent.answers_expire (h : s.Coherent) {call : WaitingCall}
    (hcall : s.calls.get? txn = some call)
    (hawaits : s.cache.Awaits txn origin call.page call.stage) :
    Answers txn origin (s.expire txn) := by
  obtain ⟨c, result, hresumes, he⟩ := h.expire_cases hcall
  rw [he]
  exact hresumes.answers hawaits

theorem Coherent.answers_submit (h : s.Coherent) (hroom : s.cache.HasRoom)
    (hcall : s.calls.get? txn = none) (name : Option String) {op : Operation}
    (hplain : op.IsPlain) (horigin : op.origin = some origin) :
    Answers txn origin (s.submit txn name op) := by
  have hready := h.ready hcall
  obtain ⟨hcoh, -⟩ := h.enter name (hready.proceeds_start hroom hplain)
  have hanswers := answers_enter s name (hready.walks_start horigin)
  rcases s.submit_cases txn name op with ⟨hbusy, -⟩ | ⟨-, s₁, answer, henter, hcase⟩
  · rw [isBusy_eq_false_iff.2 hcall] at hbusy
    cases hbusy
  · rw [henter] at hcoh hanswers
    rcases hcase with he | ⟨rfl, he⟩ <;> rw [he]
    · exact hanswers
    · rcases hcall₁ : s₁.calls.get? txn with _ | call
      · rw [Session.expire, hcall₁]
        exact hanswers
      · exact hcoh.answers_expire hcall₁ (hanswers.1 call hcall₁)

/-! ## All steps -/

/-- A run in which a transaction only reads: its waiting call was asked for and reads, and if it
is a request, it waits for a page behind those that it has come through. -/
structure Watches (txn : TransactionId) (l : Ledger) (s : Session) : Prop where
  coherent : s.Coherent
  steady : s.Steady
  waiting : ∀ call, s.calls.get? txn = some call → ∃ op, l.asked.get? txn = some op ∧
    op.errand.reads = true ∧ call.stage.errand call.page = op.errand ∧
    ∀ origin, op.origin = some origin → s.cache.Awaits txn origin call.page call.stage

/-- What a step has left to the transaction, and the portion that it has handed out to it. -/
structure Leaves (txn : TransactionId) (l : Ledger) (s : Session) (a : Action) : Prop where
  watches : Watches txn (l.note a (s.perform a).2) (s.perform a).1
  spares : s.cache.Spares txn (s.perform a).1.cache
  handed : ∀ origin records rest,
    l.portion a (s.perform a).2 = some ⟨txn, origin, records.map .ok, rest⟩ →
      ∃ next, (s.perform a).1.cache.Handed txn origin records next ∧
        (rest = none → (s.perform a).1.cache.AtEnd next) ∧
        ∀ cursor, rest = some cursor → next = cursor

/-- A portion is handed out by a call, whose answer tells of it. -/
theorem exists_call_of_portion {report : Report} {records : List Record} {rest : Option Cursor}
    (h : l.portion a report = some ⟨txn, origin, records.map .ok, rest⟩) :
    ∃ op outcome, l.callOf a = some (txn, op) ∧ op.origin = some origin ∧
      report = .answered (.finished outcome) ∧ ∀ c : Cache, c.Tells txn origin outcome →
        ∃ next, c.Handed txn origin records next ∧ (rest = none → c.AtEnd next) ∧
          ∀ cursor, rest = some cursor → next = cursor := by
  unfold Ledger.portion at h
  split at h
  · rename_i u table rows hcall
    simp only [Option.some.injEq, Portion.mk.injEq] at h
    obtain ⟨rfl, rfl, hrows, rfl⟩ := h
    rw [List.map_inj_right fun r r' heq => Except.ok.inj heq] at hrows
    subst hrows
    refine ⟨_, _, hcall, rfl, rfl, fun c htells => ?_⟩
    obtain ⟨next, hhanded, hend⟩ := htells
    exact ⟨next, hhanded, fun _ => hend, fun _ hrest => by cases hrest⟩
  · rename_i u cursor count next items ended hcall
    simp only [Option.some.injEq, Portion.mk.injEq] at h
    obtain ⟨rfl, rfl, hitems, hrest⟩ := h
    refine ⟨_, _, hcall, rfl, rfl, fun c htells => ?_⟩
    obtain ⟨hhanded, hend⟩ := htells records hitems
    refine ⟨next, hhanded, fun hnone => hend ?_, fun cursor hsome => ?_⟩
    · rw [hnone] at hrest
      cases ended with
      | false => cases hrest
      | true => rfl
    · rw [hsome] at hrest
      cases ended with
      | false => exact Option.some.inj hrest
      | true => cases hrest
  · cases h

/-- What a transaction has asked for is written down of its own calls only. -/
theorem asked_note (hcall : ∀ op, l.callOf a ≠ some (txn, op)) (report : Report) :
    (l.note a report).asked.get? txn = l.asked.get? txn := by
  unfold Ledger.note
  split
  · split <;> rfl
  · rename_i answer
    split
    · rename_i u op hop
      have hne : txn ≠ u := by
        rintro rfl
        exact hcall op hop
      cases answer with
      | busy => rfl
      | waiting => exact FinMap.get?_insert_of_ne _ _ hne
      | finished outcome => exact FinMap.get?_insert_of_ne _ _ hne
    · rfl
  · split <;> rfl
  · rfl

/-- A call is a step of its transaction. -/
theorem actor_of_callOf {op : Operation} (h : l.callOf a = some (u, op)) : a.actor = some u := by
  cases a with
  | submit v name op' =>
    cases h
    rfl
  | resume v | expire v =>
    obtain ⟨op', -, heq⟩ := Option.map_eq_some_iff.1 h
    cases heq
    rfl
  | _ => cases h

/-- A step of others. -/
theorem Watches.leaves_other (h : Watches txn l s) (ha : s.Admits a)
    (hne : a.actor ≠ some txn) : Leaves txn l s a := by
  have hcall : ∀ op, l.callOf a ≠ some (txn, op) := fun op hop => hne (actor_of_callOf hop)
  have hallows : s.Allows (.act a) := Respects.allows ha
  have hspares := h.coherent.spares_perform hallows hne
  constructor
  · refine ⟨(h.coherent.perform ha).1, h.steady.perform (tolerates_of_admits ha),
      fun call hc => ?_⟩
    rw [hspares.call] at hc
    obtain ⟨op, hasked, hreads, herrand, hawaits⟩ := h.waiting call hc
    rw [asked_note hcall]
    exact ⟨op, hasked, hreads, herrand,
      fun origin ho => (hawaits origin ho).of_spares hspares.cache⟩
  · exact hspares.cache
  · intro origin records rest hportion
    obtain ⟨op, -, hop, -⟩ := exists_call_of_portion hportion
    exact absurd hop (hcall op)

/-- A call of the transaction that goes on. -/
theorem Watches.leaves_own (h : Watches txn l s) (ha : s.Admits a) {op : Operation}
    {answer : Answer} (hcall : l.callOf a = some (txn, op))
    (hreport : (s.perform a).2 = .answered answer) (hreads : op.errand.reads = true)
    (hstep : s.CallStep txn op.errand answer (s.perform a).1)
    (hkept : ∀ page, s.cache.holds txn page = true → (s.perform a).1.cache.holds txn page = true)
    (hanswers : ∀ origin, op.origin = some origin →
      Answers txn origin ((s.perform a).1, answer)) : Leaves txn l s a where
  watches := {
    coherent := (h.coherent.perform ha).1
    steady := h.steady.perform (tolerates_of_admits ha)
    waiting := fun call hc => by
      obtain ⟨rfl, herrand⟩ := hstep.left call hc
      refine ⟨op, ?_, hreads, herrand, fun origin ho => (hanswers origin ho).1 call hc⟩
      rw [hreport]
      simp only [Ledger.note, hcall, Ledger.hear]
      exact FinMap.get?_insert_self _ _ _ }
  spares := hstep.did.spares hkept fun _ => by
    cases answer with
    | busy => rfl
    | waiting => rfl
    | finished outcome => exact Errand.change_of_reads hreads outcome
  handed origin records rest hportion := by
    obtain ⟨op', outcome, hop, horigin, hfinished, htold⟩ := exists_call_of_portion hportion
    rw [hcall, Option.some.injEq, Prod.mk.injEq] at hop
    rw [← hop.2] at horigin
    rw [hreport, Report.answered.injEq] at hfinished
    exact htold _ ((hanswers origin horigin).2 outcome hfinished)

/-- A step that changes nothing, and hands out nothing. -/
theorem Watches.leaves_idle (h : Watches txn l s) {answer : Answer} (hsame : (s.perform a).1 = s)
    (hreport : (s.perform a).2 = .answered answer) (hnot : ∀ outcome, answer ≠ .finished outcome)
    (hasked : ∀ call, s.calls.get? txn = some call →
      (l.note a (.answered answer)).asked.get? txn = l.asked.get? txn) : Leaves txn l s a where
  watches := by
    rw [hsame, hreport]
    refine ⟨h.coherent, h.steady, fun call hc => ?_⟩
    rw [hasked call hc]
    exact h.waiting call hc
  spares := by
    rw [hsame]
    exact .refl txn s.cache
  handed origin records rest hportion := by
    obtain ⟨op, outcome, -, -, hfinished, -⟩ := exists_call_of_portion hportion
    rw [hreport, Report.answered.injEq] at hfinished
    exact absurd hfinished (hnot outcome)

theorem Watches.leaves_submit (h : Watches txn l s) {name : Option String} {op : Operation}
    (ha : s.Admits (.submit txn name op)) (hb : s.Browses txn (.submit txn name op)) :
    Leaves txn l s (.submit txn name op) := by
  have hroom := hasRoom_of_values ha.1
  have hplain : op.IsPlain := ha.2
  obtain ⟨-, heffect⟩ := @Coherent.submit s txn h.coherent hroom name op hplain
  rcases heffect with ⟨hbusy, hsame⟩ | ⟨hcall, hstep⟩
  · exact h.leaves_idle hsame (congrArg Report.answered hbusy) (fun _ hf => by cases hf)
      fun _ _ => rfl
  · have hfree : s.isBusy txn = false := isBusy_eq_false_iff.2 hcall
    have hreads : op.errand.reads = true := by
      rcases hb rfl with hbusy | hreads
      · rw [hfree] at hbusy
        cases hbusy
      · exact hreads
    have hkept : ∀ page, s.cache.holds txn page = true →
        (s.submit txn name op).1.cache.holds txn page = true := by
      rcases @Steady.submit s txn h.steady name op hplain.edits_eq with ⟨hbusy, -⟩ | hpasses
      · rw [hfree] at hbusy
        cases hbusy
      · exact fun page => hpasses.kept txn page fun _ => Operation.seeks_of_reads hreads
    exact h.leaves_own ha rfl rfl hreads hstep hkept fun origin horigin =>
      h.coherent.answers_submit hroom hcall name hplain horigin

/-- A waiting call that reads takes no lock from its own transaction. -/
theorem Watches.not_seeking (h : Watches txn l s) (call : WaitingCall)
    (hcall : s.calls.get? txn = some call) (hseeks : call.stage.seeks = true) : false = true := by
  obtain ⟨op, -, hreads, herrand, -⟩ := h.waiting call hcall
  rw [← herrand] at hreads
  rw [Stage.seeks_of_reads hreads] at hseeks
  exact hseeks

/-- The waiting call is looked at again, or its time is over. -/
theorem Watches.leaves_again (h : Watches txn l s) (ha : s.Admits a) {result : Session × Answer}
    (hperform : s.perform a = (result.1, .answered result.2))
    (hcallOf : l.callOf a = (l.asked.get? txn).map (txn, ·))
    (hnone : s.calls.get? txn = none → result = (s, .waiting))
    (hstep : ∀ call, s.calls.get? txn = some call →
      s.CallStep txn (call.stage.errand call.page) result.2 result.1)
    (hpasses : s.Passes txn false result.1)
    (hanswers : ∀ call origin, s.calls.get? txn = some call →
      s.cache.Awaits txn origin call.page call.stage → Answers txn origin result) :
    Leaves txn l s a := by
  have hsession : (s.perform a).1 = result.1 := congrArg Prod.fst hperform
  have hreport : (s.perform a).2 = .answered result.2 := congrArg Prod.snd hperform
  rcases hcall : s.calls.get? txn with _ | call
  · have hsame := hnone hcall
    rw [hsame] at hsession hreport
    refine h.leaves_idle hsession hreport (fun _ hf => by cases hf) fun call hc => ?_
    rw [hcall] at hc
    cases hc
  · obtain ⟨op, hasked, hreads, herrand, hawaits⟩ := h.waiting call hcall
    have hown := hstep call hcall
    rw [herrand] at hown
    rw [hasked] at hcallOf
    refine h.leaves_own ha hcallOf hreport hreads ?_ ?_ ?_ <;> rw [hsession]
    · exact hown
    · exact fun page => hpasses.kept txn page fun _ => rfl
    · exact fun origin ho => hanswers call origin hcall (hawaits origin ho)

theorem Watches.perform (h : Watches txn l s) (ha : s.Admits a) (hb : s.Browses txn a) :
    Leaves txn l s a := by
  by_cases hactor : a.actor = some txn
  · have hroom := hasRoom_of_values ha.1
    have hcoh := h.coherent
    cases a with
    | submit u name op =>
      cases hactor
      exact h.leaves_submit ha hb
    | resume u =>
      cases hactor
      have hnone : s.calls.get? txn = none → s.resume txn = (s, .waiting) := fun hcall => by
        rw [Session.resume, hcall]
      exact h.leaves_again ha rfl rfl hnone
        (fun call hcall => (hcoh.resume (fun _ => hroom) hcall).2) (h.steady.resume h.not_seeking)
        fun call origin => hcoh.answers_resume
    | expire u =>
      cases hactor
      have hnone : s.calls.get? txn = none → s.expire txn = (s, .waiting) := fun hcall => by
        rw [Session.expire, hcall]
      exact h.leaves_again ha rfl rfl hnone
        (fun call hcall => (hcoh.expire (fun _ => hroom) hcall).2) (h.steady.expire h.not_seeking)
        fun call origin => hcoh.answers_expire
    | commit u | abort u =>
      cases hactor
      exact absurd rfl hb
    | _ => cases hactor
  · exact h.leaves_other ha hactor

end Session

end PageCache
