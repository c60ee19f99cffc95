-- Insertions that report a full page. A call that has seen an empty slot keeps its lock on the page
-- while it asks to write, and nobody else can fill the slot. A call that has appended a page asks
-- for its lock afterwards: others may have asked before, for the page was not there yet, and may
-- have filled it when the lock comes free. In all other runs an insertion that suits its table
-- stores its record, or fails for the circumstances.
import PageCache.Proofs.Cache.Placing
import PageCache.Proofs.Session.Bystanders
import PageCache.Proofs.Session.Growth

namespace PageCache

/-- The insertion that is to go on at a stage. -/
def Stage.insertion : Stage → Option Insertion
  | .seek job .. | .fill job => some job
  | _ => none

/-- A call that stores nothing waits for no slot. -/
theorem Cache.aims_of_errand {c : Cache} {txn : TransactionId} {page : PageId} {stage : Stage}
    (h : ∀ row, stage.errand page ≠ .store row) :
    c.Aims txn page stage ∧ ¬ c.IsLate txn page stage := by
  cases stage with
  | seek job left next held => exact absurd rfl (h _)
  | fill job => exact absurd rfl (h _)
  | _ => exact ⟨trivial, id⟩

/-- An insertion that is to go on has its record to store, and no other call has. -/
theorem Stage.errand_of_insertion {stage : Stage} {job : Insertion}
    (h : stage.insertion = some job) (page : PageId) :
    stage.errand page = .store job.record.values := by
  cases stage with
  | seek other left next held =>
    cases h
    rfl
  | fill other =>
    cases h
    rfl
  | _ => cases h

theorem Stage.errand_ne_store {stage : Stage} (h : stage.insertion = none) (page : PageId)
    (row : Row) : stage.errand page ≠ .store row := by
  cases stage with
  | seek job left next held => cases h
  | fill job => cases h
  | _ => exact fun heq => by cases heq

/-- A call that stores a record fails if it does not get its page. -/
theorem Cache.proceed_error {c : Cache} {txn : TransactionId} {page : PageId} {stage : Stage}
    {job : Insertion} (h : stage.insertion = some job) (e : StoreError) :
    c.proceed txn page stage (.error e) = (c, .finished (.error e)) := by
  cases stage with
  | seek job left next held => rfl
  | fill job => rfl
  | _ => cases h

/-- To look at a request again changes nothing for its call, as long as nothing is granted. -/
theorem Cache.aims_setLocks {c : Cache} {txn : TransactionId} {page : PageId} {stage : Stage}
    {locks : Locking} (h : Cache.holds { c with locks } txn page = c.holds txn page) :
    (Cache.Aims { c with locks } txn page stage ↔ c.Aims txn page stage) ∧
      (Cache.IsLate { c with locks } txn page stage ↔ c.IsLate txn page stage) := by
  cases stage with
  | fill job =>
    rw [Cache.Aims, Cache.Aims, Cache.IsLate, Cache.IsLate, h]
    exact ⟨Iff.rfl, Iff.rfl⟩
  | _ => exact ⟨Iff.rfl, Iff.rfl⟩

namespace Session

variable {s s' : Session} {txn u : TransactionId} {a : Action} {st : Step} {call : WaitingCall}
  {job : Insertion} {page : PageId} {locks : Locking} {config : Config} {log : Option WriteLog}
  {steps : List Step}

/-! ## A waiting call is looked at again -/

/-- The transaction has got the lock that its call waits for, and waits for nothing else. -/
structure Got (s : Session) (txn : TransactionId) (call : WaitingCall) (locks : Locking) :
    Prop where
  turn : s.cache.locks.Turn txn locks
  idle : locks.pending.get? txn = none
  held : ∃ m, locks.table.heldMode txn call.page = some m ∧ call.stage.Asks m

/-- If its lock can be granted a waiting call goes on, whether its time is over or not. Else it
goes on waiting, or fails. -/
theorem Coherent.again (h : s.Coherent) (hcall : s.calls.get? txn = some call) :
    ∃ r, s.cache.locks.pending.get? txn = some r ∧ r.page = call.page ∧ call.stage.Asks r.access ∧
      (((s.cache.locks.table.lockOf call.page).canGrant txn r.access = true ∧
          ∃ locks, s.Got txn call locks ∧ s.resume txn = s.goOn txn call locks ∧
            s.expire txn = s.goOn txn call locks) ∨
        ((s.cache.locks.table.lockOf call.page).canGrant txn r.access = false ∧
          (∃ locks, (∀ other, locks.table.lockOf other = s.cache.locks.table.lockOf other) ∧
            s.resume txn = ({ s with cache := { s.cache with locks } }, .waiting)) ∧
          ∃ locks, s.expire txn = s.enter txn call.iterator (Cache.proceed
            { s.cache with locks } txn call.page call.stage
            (.error (.waitTimeout txn call.page))))) := by
  obtain ⟨r, hr, hpage, hasks⟩ := h.exists_pending hcall
  refine ⟨r, hr, hpage, hasks, ?_⟩
  obtain ⟨hturn, hgranted⟩ := h.orderly.turn_recheck txn
  unfold Session.resume Session.expire
  rw [hcall, ← hpage]
  rcases s.cache.locks.recheck_cases txn with ⟨hnone, -⟩ | ⟨q, hq, hcase⟩
  · rw [hr] at hnone
    cases hnone
  rcases s.cache.locks.expire_cases txn with ⟨hnone, -⟩ | ⟨q', hq', hcase'⟩
  · rw [hr] at hnone
    cases hnone
  rw [hr, Option.some.injEq] at hq hq'
  subst hq hq'
  rcases hcase with ⟨hg, he⟩ | ⟨hg, he⟩ <;> rcases hcase' with ⟨hg', he'⟩ | ⟨hg', he'⟩
  · rw [he] at hturn hgranted
    left
    refine ⟨hg, _, ⟨hturn, hgranted.2.1, r.access, ?_, hasks⟩, ?_, ?_⟩
    · rw [← hpage]
      exact hgranted.2.2
    · rw [he]
      simp only [goOn, hpage]
    · rw [he']
      simp only [goOn, hpage]
  · rw [hg] at hg'
    cases hg'
  · rw [hg] at hg'
    cases hg'
  · right
    refine ⟨hg, ⟨_, h.orderly.lockOf_recheck hr, by rw [he]⟩, (s.cache.locks.expire txn).1, ?_⟩
    rw [he', hpage]

/-- The search of a call goes on. -/
theorem Coherent.places_goOn (h : s.Coherent) (hroom : s.cache.HasRoom)
    (hgot : s.Got txn call locks) (haims : s.cache.Aims txn call.page call.stage) {left : Nat}
    {next : UInt32} {held : Bool} (hstage : call.stage = .seek job left next held) :
    ∃ result, s.goOn txn call locks = s.enter txn call.iterator result ∧
      s.cache.Places txn job result := by
  obtain ⟨m, hm, hasks⟩ := hgot.held
  obtain ⟨hcalm, hfiles, hready, hlocks, hpage⟩ := h.brought hgot.turn hgot.idle call.page
  have hfails : ∀ e, (Cache.bring { s.cache with locks } call.page).2 = .error e →
      e.isCircumstance = true := by
    rw [hstage] at haims
    exact fun e he => (@Cache.bring_failed { s.cache with locks } call.page e h.sound.keyed
      haims.2.1 he).1
  refine ⟨_, rfl, .after hcalm.quiet.view_eq hfiles ?_⟩
  rw [hstage] at haims hasks ⊢
  refine hready.places_proceed (hfiles.hasRoom hroom) ?_ _ (fun p hp => ⟨hpage p hp, ?_⟩) hfails
  · rw [Cache.Aims, hfiles.pageCount_eq]
    exact haims
  · rw [hlocks, hm, show m = .readOnly from hasks]

/-- A call fills a slot of the page that it has waited for, unless the page is full by now or
cannot be brought in. -/
theorem Coherent.fills_goOn (h : s.Coherent) (hgot : s.Got txn call locks)
    (haims : s.cache.Aims txn call.page call.stage) (hstage : call.stage = .fill job)
    (hsuits : s.cache.Suits job) :
    ∃ c outcome, s.goOn txn call locks = s.enter txn call.iterator (c, .finished outcome) ∧
      (∀ reply, outcome = .ok reply → s.cache.Finds job reply) ∧
      (outcome = .error (.pageFull call.page) ∧ s.cache.IsFull call.page ∧
          c.residentPage call.page ≠ none ∨
        ¬ (s.cache.IsFull call.page ∧ c.residentPage call.page ≠ none) ∧
          ∀ e, outcome = .error e → e.isCircumstance = true) := by
  rw [hstage] at haims
  obtain ⟨htable, hrange, -⟩ := haims
  obtain ⟨hcalm, hfiles, hready, -, hpage⟩ := h.brought hgot.turn hgot.idle call.page
  have hfailed := fun e => @Cache.bring_failed { s.cache with locks } call.page e h.sound.keyed
    hrange
  unfold goOn
  rw [hstage]
  rcases hbring : Cache.bring { s.cache with locks } call.page with ⟨c, e | p⟩ <;>
    rw [hbring] at hcalm hfiles hready hpage hfailed
  · obtain ⟨hcircumstance, hnone⟩ := hfailed e rfl
    refine ⟨c, .error e, rfl, fun _ hok => (by cases hok),
      Or.inr ⟨fun hfull => hfull.2 hnone, ?_⟩⟩
    rintro e' ⟨⟩
    exact hcircumstance
  · have hres := hpage p rfl
    have hview : s.cache.view call.page = some p := by
      rw [← hcalm.quiet.view_eq, Cache.view_of_resident hres]
    obtain ⟨hfull, hfree⟩ :=
      (hsuits.of_grows hfiles.grows).fill_outcome hready.sound txn htable hres
    refine ⟨(c.fill txn job p).1, (c.fill txn job p).2, rfl, fun reply hok => ?_, ?_⟩
    · exact (hready.sound.fill_finds htable hres hok).after hcalm.quiet.view_eq
    by_cases hcount : p.freeCount = 0
    · rw [hfull hcount]
      refine Or.inl ⟨rfl, ⟨p, hview, hcount⟩, ?_⟩
      rw [hres]
      simp
    · obtain ⟨reply, hok⟩ := hfree hcount
      refine Or.inr ⟨?_, fun e he => ?_⟩
      · rintro ⟨⟨q, hq, hnone⟩, -⟩
        rw [hview, Option.some.injEq] at hq
        exact hcount (hq ▸ hnone)
      · rw [hok] at he
        cases he

/-! ## Where a call waits after its own step -/

/-- The call that waits after a step of its transaction has come to a page of its table. It is late
there only if it was so before, or has just appended the page and others came before it. -/
def Lands (txn : TransactionId) (s s' : Session) : Prop :=
  ∀ call, s'.calls.get? txn = some call → s'.cache.Aims txn call.page call.stage ∧
    (s'.cache.IsLate txn call.page call.stage →
      (s.calls.get? txn = some call ∧ s.cache.IsLate txn call.page call.stage) ∨
        (call.page.number = s.cache.pageCount call.page.table ∧
          s.cache.Extended call.page.table s'.cache ∧ s'.cache.Contested txn call.page))

theorem lands_of_none (h : s'.calls.get? txn = none) : s.Lands txn s' := by
  intro call hcall
  rw [h] at hcall
  cases hcall

theorem lands_of_errand {errand : Errand} {answer : Answer} (h : s.CallStep txn errand answer s')
    (hne : ∀ row, errand ≠ .store row) : s.Lands txn s' := by
  intro call hcall
  obtain ⟨haims, hlate⟩ := @Cache.aims_of_errand s'.cache txn call.page call.stage
    ((h.left call hcall).2 ▸ hne)
  exact ⟨haims, fun h => absurd h hlate⟩

theorem lands_enter (s : Session) (name : Option String) {result : Cache × Progress}
    (h : s.cache.Lands txn result) : s.Lands txn (s.enter txn name result).1 := by
  have hown := (s.calls_enter txn name result txn).trans (if_pos rfl)
  obtain ⟨c, outcome | ⟨page, stage⟩⟩ := result
  · exact lands_of_none hown
  · intro call hcall
    obtain rfl := Option.some.inj (hown.symm.trans hcall)
    obtain ⟨haims, hlate⟩ := h page stage rfl
    exact ⟨haims, fun hl => Or.inr (hlate hl)⟩

theorem Coherent.lands_submit (h : s.Coherent) (hroom : s.cache.HasRoom) (name : Option String)
    {op : Operation} (hplain : op.IsPlain)
    (haims : ∀ call, s.calls.get? txn = some call → s.cache.Aims txn call.page call.stage) :
    s.Lands txn (s.submit txn name op).1 := by
  rcases (h.submit hroom name hplain).2 with ⟨-, hsame⟩ | ⟨hcall, hstep⟩
  · rw [hsame]
    exact fun call hcall => ⟨haims call hcall, fun hlate => Or.inl ⟨hcall, hlate⟩⟩
  · cases op with
    | insert job =>
      rcases insertion_cases h.sound.toGrounded hroom hcall name job with
        he | ⟨c, page, stage, locks, -, he⟩
      · rw [he]
        exact lands_enter s name ((h.ready hcall).places_start hroom job).lands
      · rw [he]
        exact lands_of_none (by rw [FinMap.get?_erase, if_pos rfl])
    | delete location =>
      refine lands_of_errand hstep fun row heq => ?_
      cases location <;> cases heq
    | deleteFrom table location =>
      refine lands_of_errand hstep fun row heq => ?_
      cases location <;> cases heq
    | fetch page access purpose => exact lands_of_errand hstep fun row heq => by cases heq
    | scan table => exact lands_of_errand hstep fun row heq => by cases heq
    | draw cursor count => exact lands_of_errand hstep fun row heq => by cases heq

/-- A call that is to fill a slot goes on to its end. -/
theorem lands_goOn_fill (hstage : call.stage = .fill job) :
    s.Lands txn (s.goOn txn call locks).1 := by
  refine lands_enter s _ fun page stage hwaits => ?_
  rcases hpage : (Cache.bring { s.cache with locks } call.page).2 with e | p <;>
    rw [hstage, hpage] at hwaits <;> cases hwaits

/-- A call that was granted nothing waits where it has waited before. -/
theorem lands_waiting (hcall : s.calls.get? txn = some call)
    (haims : s.cache.Aims txn call.page call.stage)
    (hsame : ∀ page, locks.table.lockOf page = s.cache.locks.table.lockOf page) :
    s.Lands txn { s with cache := { s.cache with locks } } := by
  intro call' hcall'
  have heq : s.calls.get? txn = some call' := hcall'
  rw [hcall, Option.some.injEq] at heq
  subst heq
  have hholds : Cache.holds { s.cache with locks } txn call.page = s.cache.holds txn call.page := by
    simp only [Cache.holds, LockTable.holds, LockTable.heldMode, hsame]
  obtain ⟨haims', hlate⟩ := @Cache.aims_setLocks s.cache txn call.page call.stage locks hholds
  exact ⟨haims'.2 haims, fun h => Or.inl ⟨hcall, hlate.1 h⟩⟩

/-- A waiting call that stores a record goes on, goes on waiting, or fails. -/
theorem Coherent.lands_again (h : s.Coherent) (hroom : s.cache.HasRoom)
    (hcall : s.calls.get? txn = some call)
    (haims : s.cache.Aims txn call.page call.stage) :
    s.Lands txn (s.resume txn).1 ∧ s.Lands txn (s.expire txn).1 := by
  rcases hjob : call.stage.insertion with _ | job
  · have hne := fun row => Stage.errand_ne_store hjob call.page row
    exact ⟨lands_of_errand (h.resume (fun _ => hroom) hcall).2 hne,
      lands_of_errand (h.expire (fun _ => hroom) hcall).2 hne⟩
  · obtain ⟨r, -, -, -, ⟨-, locks, hgot, hresume, hexpire⟩ |
      ⟨-, ⟨locks, hsame, hresume⟩, locks', hexpire⟩⟩ := h.again hcall
    · rw [hresume, hexpire, and_self]
      rcases hstage : call.stage with _ | ⟨job', left, next, held⟩ | job' | _ | _ | _ <;>
        rw [hstage] at hjob <;> cases hjob
      · obtain ⟨result, he, hplaces⟩ := h.places_goOn hroom hgot haims hstage
        rw [he]
        exact lands_enter s _ hplaces.lands
      · exact lands_goOn_fill hstage
    · rw [hresume, hexpire, Cache.proceed_error hjob]
      exact ⟨lands_waiting hcall haims hsame, lands_enter s _ fun _ _ hw => by cases hw⟩

/-! ## Waiting calls throughout a run -/

/-- A call that waits while others take a step can go on as before. Its transaction cannot hold the
page for writing yet, so the slot it has seen is there if it holds the page at all. -/
theorem StandsBy.aims (hby : s.StandsBy txn s') (h : s.Coherent)
    (hcall : s.calls.get? txn = some call) (haims : s.cache.Aims txn call.page call.stage) :
    s'.cache.Aims txn call.page call.stage := by
  obtain ⟨r, hr, hpage, hasks⟩ := h.exists_pending hcall
  obtain ⟨page, stage, name⟩ := call
  simp only at haims hpage hasks ⊢
  have hgrown := UInt32.le_iff_toNat_le.1 (hby.grown page.table)
  cases stage with
  | seek job left next held =>
    obtain ⟨htable, hrange, hleft⟩ := haims
    exact ⟨htable, UInt32.lt_of_lt_of_le hrange (hby.grown page.table), hleft.trans hgrown⟩
  | fill job =>
    obtain ⟨htable, hrange, hslot⟩ := haims
    refine ⟨htable, UInt32.lt_of_lt_of_le hrange (hby.grown page.table), fun hholds => ?_⟩
    rw [hby.holds_eq (by rw [hcall]; simp)] at hholds
    obtain ⟨p, hp, hfree⟩ := hslot hholds
    have huncovered := h.orderly.uncovered txn r hr
    rw [hpage, show r.access = .readWrite from hasks] at huncovered
    have hmode : s.cache.locks.table.heldMode txn page = some .readOnly := by
      rcases hm : s.cache.locks.table.heldMode txn page with _ | _ | _
      · exact absurd hm (LockTable.holds_iff.1 hholds)
      · rfl
      · rw [hm] at huncovered
        cases huncovered
    obtain ⟨q, hq, hbare⟩ := hby.seen page p hmode hp
    have hslots : q.bare.slots = p.bare.slots := congrArg HeapPage.slots hbare
    refine ⟨q, hq, ?_⟩
    rw [HeapPage.freeCount, HeapPage.slotCount, show q.slots = p.slots from hslots]
    exact hfree
  | _ => trivial

/-- Every call that waits has come to a page of its table. If it has seen an empty slot there, and
holds the page, the slot is there. -/
structure Aimed (s : Session) : Prop where
  coherent : s.Coherent
  steady : s.Steady
  aims : ∀ txn call, s.calls.get? txn = some call → s.cache.Aims txn call.page call.stage

theorem aimed_new (config : Config) (log : Option WriteLog) : (new config log).Aimed :=
  ⟨coherent_new config log, steady_new config log, fun _ _ hcall => by cases hcall⟩

/-- A transaction that ends, or gives a lock back, has no call that waits. -/
theorem lands_of_free (hfree : s.isBusy txn = false) (hcalls : s'.calls = s.calls) :
    s.Lands txn s' := by
  apply lands_of_none
  rw [hcalls]
  exact isBusy_eq_false_iff.1 hfree

theorem Aimed.lands (h : s.Aimed) (hst : s.Respects st) (hactor : st.actor = some txn) :
    s.Lands txn (s.step st) := by
  cases st with
  | act a =>
    have hroom := hasRoom_of_values hst.1
    have heffect := (h.coherent.perform hst).2
    cases a with
    | submit u name op =>
      cases hactor
      exact h.coherent.lands_submit hroom name hst.2 (h.aims txn)
    | resume u | expire u =>
      cases hactor
      rcases hcall : s.calls.get? txn with _ | call
      · obtain ⟨_, -, ⟨-, -, hsame⟩ | ⟨_, hsome, -⟩⟩ := heffect
        · rw [Session.step, hsame]
          exact lands_of_none hcall
        · rw [hcall] at hsome
          cases hsome
      · obtain ⟨hresume, hexpire⟩ :=
          h.coherent.lands_again hroom hcall (h.aims txn call hcall)
        assumption
    | commit u | abort u =>
      cases hactor
      exact lands_of_free hst.2 heffect.1
    | _ => cases hactor
  | release u page =>
    cases hactor
    exact lands_of_free hst.1 rfl
  | _ => cases hactor

theorem Aimed.step (h : s.Aimed) (hst : s.Respects st) : (s.step st).Aimed := by
  refine ⟨h.coherent.respected hst, h.steady.respected hst, fun txn call hcall => ?_⟩
  by_cases hactor : st.actor = some txn
  · exact (h.lands hst hactor call hcall).1
  · have hby := h.coherent.standsBy hst.allows hactor
    rw [hby.call] at hcall
    exact hby.aims h.coherent hcall (h.aims txn call hcall)

/-! ## What an insertion tells of a full page -/

/-- The insertion that starts or goes on in a step, and its transaction. -/
def insertionOf (s : Session) : Action → Option (TransactionId × Insertion)
  | .submit txn _ (.insert job) => if s.isBusy txn then none else some (txn, job)
  | .resume txn | .expire txn =>
    (s.calls.get? txn).bind fun call => call.stage.insertion.map fun job => (txn, job)
  | _ => none

/-- The insertion waits for a page to fill a slot of it, and holds no lock on the page yet. -/
def AwaitsLate (s : Session) (txn : TransactionId) (job : Insertion) (page : PageId) : Prop :=
  ∃ name, s.calls.get? txn = some ⟨page, .fill job, name⟩ ∧ s.cache.holds txn page = false

/-- The page is full when an insertion that came late gets its lock. -/
def FilledBefore (s : Session) (txn : TransactionId) (job : Insertion) (page : PageId)
    (s' : Session) : Prop :=
  s.AwaitsLate txn job page ∧ s.cache.IsFull page ∧
    (s.cache.locks.table.lockOf page).canGrant txn .readWrite = true ∧
      s'.cache.residentPage page ≠ none

/-- The record fills a slot of a page of its table that was empty, and nothing else has changed for
those who look at pages. The reply tells of its place. -/
def Stored (s : Session) (txn : TransactionId) (job : Insertion) (reply : Reply) (s' : Session) :
    Prop :=
  ∃ place p, (reply = .location place ∨ reply = .stored place [place.page]) ∧
    place.page.table = job.table ∧ s.cache.view place.page = some p ∧
      p.slots[place.slot.toNat]? = some none ∧
        s.cache.Did txn (some ⟨place, some job.record.values⟩) s'.cache

/-- What an insertion of a record that suits its table answers in a step. It has stored the record
if it says so; it reports a full page exactly if it came late and others have filled the page; it
fails otherwise for the circumstances only; and it comes late only where it has appended a page
and others had asked for it before. -/
structure Told (txn : TransactionId) (job : Insertion) (s : Session) (answer : Answer)
    (s' : Session) : Prop where
  stored : ∀ reply, answer = .finished (.ok reply) → s.Stored txn job reply s'
  full : ∀ page, answer = .finished (.error (.pageFull page)) ↔ s.FilledBefore txn job page s'
  fails : ∀ e, answer = .finished (.error e) →
    e.isCircumstance = true ∨ ∃ page, e = .pageFull page
  late : ∀ page, s'.AwaitsLate txn job page → s.AwaitsLate txn job page ∨
    (page = ⟨job.table, s.cache.pageCount job.table⟩ ∧ s.cache.Extended job.table s'.cache ∧
      s'.cache.Contested txn page)

variable {answer : Answer}

theorem Lands.late (h : s.Lands txn s') (hlate : s'.AwaitsLate txn job page) :
    s.AwaitsLate txn job page ∨
      (page = ⟨job.table, s.cache.pageCount job.table⟩ ∧ s.cache.Extended job.table s'.cache ∧
        s'.cache.Contested txn page) := by
  obtain ⟨name, hcall, hholds⟩ := hlate
  obtain ⟨⟨htable, -⟩, hcame⟩ := h _ hcall
  rcases hcame hholds with ⟨hbefore, hsame⟩ | ⟨hnumber, hextended, hcontested⟩
  · exact Or.inl ⟨name, hbefore, hsame⟩
  · obtain ⟨table, number⟩ := page
    simp only at htable hnumber hextended
    subst htable hnumber
    exact Or.inr ⟨rfl, hextended, hcontested⟩

/-- A call that has found a place has stored its record there. -/
theorem stored_of_finds (hstep : s.CallStep txn (.store job.record.values) answer s')
    {reply : Reply} (hdone : answer = .finished (.ok reply)) (hfinds : s.cache.Finds job reply) :
    s.Stored txn job reply s' := by
  obtain ⟨place, p, hreply, htable, hp, hslot⟩ := hfinds
  have hdid := hstep.did
  rw [hdone] at hdid
  refine ⟨place, p, hreply, htable, hp, hslot, ?_⟩
  rcases hreply with rfl | rfl
  · exact hdid
  · exact hdid

/-- No page was filled before, and the insertion has not failed for it. -/
theorem told_of_circumstances (hland : s.Lands txn s')
    (hstep : s.CallStep txn (.store job.record.values) answer s')
    (hfinds : ∀ reply, answer = .finished (.ok reply) → s.cache.Finds job reply)
    (hfails : ∀ e, answer = .finished (.error e) → e.isCircumstance = true)
    (hnot : ∀ page, ¬ s.FilledBefore txn job page s') : s.Told txn job answer s' where
  stored reply hdone := stored_of_finds hstep hdone (hfinds reply hdone)
  full page := by
    refine ⟨fun he => ?_, fun hfilled => absurd hfilled (hnot page)⟩
    cases hfails _ he
  fails e he := Or.inl (hfails e he)
  late _ := hland.late

/-- The outcome of a call is the one that it was entered with. -/
theorem enter_finished {name : Option String} {result : Cache × Progress} {outcome : Outcome}
    (h : (s.enter txn name result).2 = .finished outcome) : result.2 = .finished outcome := by
  obtain ⟨c, done | ⟨other, stage⟩⟩ := result
  · cases h
    rfl
  · cases h

/-- An insertion of a transaction without another call is not turned away. -/
theorem Coherent.callStep_insertion (h : s.Coherent) (hroom : s.cache.HasRoom)
    (hcall : s.calls.get? txn = none) (name : Option String)
    (hplain : (Operation.insert job).IsPlain) :
    s.CallStep txn (.store job.record.values) (s.submit txn name (.insert job)).2
      (s.submit txn name (.insert job)).1 := by
  rcases (h.submit hroom name hplain).2 with ⟨hbusy, -⟩ | ⟨-, hstep⟩
  · rcases insertion_cases h.sound.toGrounded hroom hcall name job with
      hsame | ⟨c, page, stage, locks, -, hsame⟩ <;> rw [hsame] at hbusy
    · rcases hstart : s.cache.start txn (.insert job) with ⟨c, outcome | ⟨page, stage⟩⟩ <;>
        rw [hstart] at hbusy <;> cases hbusy
    · cases hbusy
  · exact hstep

theorem Aimed.told_submit (h : s.Aimed) (hroom : s.cache.HasRoom)
    (hcall : s.calls.get? txn = none) (name : Option String)
    (hplain : (Operation.insert job).IsPlain) (hsuits : s.cache.Suits job) :
    s.Told txn job (s.submit txn name (.insert job)).2 (s.submit txn name (.insert job)).1 := by
  have hplaces := (h.coherent.ready hcall).places_start hroom job
  refine told_of_circumstances (h.coherent.lands_submit hroom name hplain (h.aims txn))
    (h.coherent.callStep_insertion hroom hcall name hplain) ?_ (fun e he => ?_) ?_
  · rcases insertion_cases h.coherent.sound.toGrounded hroom hcall name job with
      hsame | ⟨c, page, stage, locks, -, hsame⟩ <;> rw [hsame]
    · exact fun reply hdone => hplaces.finds reply (enter_finished hdone)
    · exact fun reply hdone => by cases hdone
  · rcases insertion_cases h.coherent.sound.toGrounded hroom hcall name job with
      hsame | ⟨c, page, stage, locks, -, hsame⟩ <;> rw [hsame] at he
    · exact hplaces.fails hsuits e (enter_finished he)
    · cases he
      rfl
  · rintro page ⟨⟨other, hsome, -⟩, -⟩
    rw [hcall] at hsome
    cases hsome

/-- A call that is looked at again goes on from the stage that it has come to. -/
theorem FilledBefore.stage_eq (h : s.FilledBefore txn job page s')
    (hcall : s.calls.get? txn = some call) : call.page = page ∧ call.stage = .fill job := by
  obtain ⟨⟨name, hsome, -⟩, -⟩ := h
  rw [hcall, Option.some.injEq] at hsome
  exact ⟨congrArg WaitingCall.page hsome, congrArg WaitingCall.stage hsome⟩

/-- A call that has its lock and fills a slot. If it has held the page before, the slot is
there. -/
theorem Aimed.told_fill (h : s.Aimed) (hcall : s.calls.get? txn = some call)
    (hgot : s.Got txn call locks)
    (hgrant : (s.cache.locks.table.lockOf call.page).canGrant txn .readWrite = true)
    (hstage : call.stage = .fill job) (hsuits : s.cache.Suits job)
    (hland : s.Lands txn (s.goOn txn call locks).1)
    (hstep : s.CallStep txn (.store job.record.values) (s.goOn txn call locks).2
      (s.goOn txn call locks).1) :
    s.Told txn job (s.goOn txn call locks).2 (s.goOn txn call locks).1 := by
  have haims := h.aims txn call hcall
  obtain ⟨c, outcome, he, hfinds, hcase⟩ := h.coherent.fills_goOn hgot haims hstage hsuits
  rw [he] at hland hstep ⊢
  have hfinds' : ∀ reply, (s.enter txn call.iterator (c, .finished outcome)).2 =
      .finished (.ok reply) → s.cache.Finds job reply := by
    intro reply hdone
    cases enter_finished hdone
    exact hfinds reply rfl
  have hcache := s.cache_enter txn call.iterator (c, .finished outcome)
  rcases hcase with ⟨rfl, hfull, hres⟩ | ⟨hnot, hfails⟩
  · have hlate : s.cache.holds txn call.page = false := by
      rw [hstage] at haims
      obtain ⟨htable, -, hslot⟩ := haims
      by_contra hholds
      obtain ⟨p, hp, hslots⟩ := hslot (Bool.not_eq_false _ ▸ hholds)
      obtain ⟨q, hq, hnone⟩ := hfull
      rw [hp, Option.some.injEq] at hq
      exact (hsuits.accepts h.coherent.sound htable hp).2 (hslots (hq ▸ hnone))
    have hawaits : s.AwaitsLate txn job call.page := by
      refine ⟨call.iterator, ?_, hlate⟩
      rw [hcall, ← hstage]
    refine ⟨fun reply hdone => (by cases hdone), fun page => ⟨fun heq => ?_, fun hfilled => ?_⟩,
      fun e heq => ?_, fun _ => hland.late⟩
    · cases heq
      exact ⟨hawaits, hfull, hgrant, by rw [hcache]; exact hres⟩
    · rw [← (hfilled.stage_eq hcall).1]
      rfl
    · cases heq
      exact Or.inr ⟨_, rfl⟩
  · refine told_of_circumstances hland hstep hfinds' (fun e heq => ?_) fun page hfilled => hnot ?_
    · cases heq
      exact hfails e rfl
    · obtain ⟨rfl, -⟩ := hfilled.stage_eq hcall
      obtain ⟨-, hfull, -, hres⟩ := hfilled
      rw [hcache] at hres
      exact ⟨hfull, hres⟩

theorem Aimed.told_again (h : s.Aimed) (hroom : s.cache.HasRoom)
    (hcall : s.calls.get? txn = some call) (hjob : call.stage.insertion = some job)
    (hsuits : s.cache.Suits job) :
    s.Told txn job (s.resume txn).2 (s.resume txn).1 ∧
      s.Told txn job (s.expire txn).2 (s.expire txn).1 := by
  have haims := h.aims txn call hcall
  obtain ⟨hresumed, hexpired⟩ := h.coherent.lands_again hroom hcall haims
  have hstep := (h.coherent.resume (fun _ => hroom) hcall).2
  have hstep' := (h.coherent.expire (fun _ => hroom) hcall).2
  rw [Stage.errand_of_insertion hjob] at hstep hstep'
  obtain ⟨r, -, -, hasks, ⟨hgrant, locks, hgot, hresume, hexpire⟩ |
    ⟨hgrant, ⟨locks, -, hresume⟩, locks', hexpire⟩⟩ := h.coherent.again hcall
  · rw [hresume] at hresumed hstep
    rw [hresume, hexpire, and_self]
    rcases hstage : call.stage with _ | ⟨job', left, next, held⟩ | job' | _ | _ | _ <;>
      rw [hstage] at hjob <;> cases hjob
    · obtain ⟨result, he, hplaces⟩ := h.coherent.places_goOn hroom hgot haims hstage
      rw [he] at hresumed hstep ⊢
      refine told_of_circumstances hresumed hstep
        (fun reply hdone => hplaces.finds reply (enter_finished hdone))
        (fun e hfail => hplaces.fails hsuits e (enter_finished hfail)) fun page hfilled => ?_
      have hfill := (hfilled.stage_eq hcall).2
      rw [hstage] at hfill
      cases hfill
    · rw [hstage] at hasks
      rw [show r.access = .readWrite from hasks] at hgrant
      exact h.told_fill hcall hgot hgrant hstage hsuits hresumed hstep
  · have hnot : ∀ page s', ¬ s.FilledBefore txn job page s' := by
      intro page s' hfilled
      obtain ⟨rfl, hstage⟩ := hfilled.stage_eq hcall
      obtain ⟨-, -, hgranted, -⟩ := hfilled
      rw [hstage] at hasks
      rw [show r.access = .readWrite from hasks, hgranted] at hgrant
      cases hgrant
    rw [hexpire, Cache.proceed_error hjob] at hexpired hstep' ⊢
    rw [hresume] at hresumed hstep ⊢
    refine ⟨told_of_circumstances hresumed hstep (fun _ hdone => (by cases hdone))
        (fun _ he => (by cases he)) fun page => hnot page _,
      told_of_circumstances hexpired hstep' (fun reply hdone => ?_) (fun e he => ?_)
        fun page => hnot page _⟩
    · cases enter_finished hdone
    · cases enter_finished he
      rfl

theorem Aimed.told (h : s.Aimed) (ha : s.Admits a) (hins : s.insertionOf a = some (txn, job))
    (hsuits : s.cache.Suits job) : ∃ answer, (s.perform a).2 = .answered answer ∧
      s.Told txn job answer (s.perform a).1 := by
  have hroom := hasRoom_of_values ha.1
  cases a with
  | submit u name op =>
    cases op with
    | insert job' =>
      change (if s.isBusy u = true then none else some (u, job')) = some (txn, job) at hins
      split at hins
      · cases hins
      · rename_i hfree
        cases hins
        refine ⟨_, rfl, h.told_submit hroom ?_ name ha.2 hsuits⟩
        exact call_of_free hfree
    | _ => cases hins
  | resume u | expire u =>
    obtain ⟨call, hcall, hsome⟩ := Option.bind_eq_some_iff.1 hins
    obtain ⟨job', hjob, heq⟩ := Option.map_eq_some_iff.1 hsome
    cases heq
    obtain ⟨hresume, hexpire⟩ := h.told_again hroom hcall hjob hsuits
    exact ⟨_, rfl, by assumption⟩
  | _ => cases hins

/-- **Only those who came late are told of a full page.** After every run, with locks that are
given back early and pages that are written or dropped at any time: an insertion of a record that
suits its table, when it starts or goes on, stores the record, waits, or fails for the
circumstances, unless it has appended a page that others had asked for before, and that is full
when its lock comes free. -/
theorem full_page_told (hsteps : (new config log).RespectsAll steps)
    (ha : ((new config log).after steps).Admits a)
    (hins : ((new config log).after steps).insertionOf a = some (txn, job))
    (hsuits : ((new config log).after steps).cache.Suits job) :
    ∃ answer, (((new config log).after steps).perform a).2 = .answered answer ∧
      ((new config log).after steps).Told txn job answer
        (((new config log).after steps).perform a).1 := by
  have haimed := hsteps.induction (aimed_new config log) fun _ _ h => h.step
  exact haimed.told ha hins hsuits

/-- A transaction asks for the first page of a table that has none yet, and keeps its lock. Another
one appends the page for its flag and waits, and the first one raises its own flag there. -/
def overtaken : List Step :=
  [.act (.addTable (flagFile .empty 0 0 0)),
    .act (.submit ⟨2⟩ none (.fetch flagPage .readWrite .view)),
    .act (.submit ⟨1⟩ none (.insert ⟨⟨1⟩, ⟨flags, [.boolean true], none⟩, true⟩)),
    .act (.submit ⟨2⟩ none (.insert ⟨⟨1⟩, ⟨flags, [.boolean true], none⟩, true⟩))]

/-- If the flag that was first is taken back, the other one finds the slot. -/
theorem slot_left_by_abort :
    ((new ⟨4, 1, none⟩ none).after (overtaken ++ [.act (.abort ⟨2⟩)])).isBusy ⟨1⟩ = true ∧
      ∀ page, (((new ⟨4, 1, none⟩ none).after (overtaken ++ [.act (.abort ⟨2⟩)])).perform
        (.resume ⟨1⟩)).2 ≠ .answered (.finished (.error (.pageFull page))) := by
  refine ⟨by decide +kernel, fun page hfailed => ?_⟩
  obtain ⟨answer, hanswer, htold⟩ := @full_page_told ⟨1⟩ (.resume ⟨1⟩)
    ⟨⟨1⟩, ⟨flags, [.boolean true], none⟩, true⟩ ⟨4, 1, none⟩ none (overtaken ++ [.act (.abort ⟨2⟩)])
    (by decide +kernel) (by decide +kernel) (by decide +kernel) (by decide +kernel)
  rw [hfailed] at hanswer
  cases hanswer
  obtain ⟨⟨name, hcall, -⟩, hfull, -⟩ := (htold.full page).1 rfl
  have hwaits : (((new ⟨4, 1, none⟩ none).after (overtaken ++ [.act (.abort ⟨2⟩)])).calls.get?
      ⟨1⟩).map WaitingCall.page = some flagPage := by decide +kernel
  rw [hcall, Option.map_some, Option.some.injEq] at hwaits
  subst hwaits
  exact absurd hfull (by decide +kernel)

/-- If it is committed, the insertion of the other one fails, for the page that it has appended is
full when its lock comes free. -/
theorem full_page_told_to_overtaken :
    (new ⟨4, 1, none⟩ none).RespectsAll (overtaken ++ [.act (.commit ⟨2⟩)]) ∧
      ((new ⟨4, 1, none⟩ none).after (overtaken ++ [.act (.commit ⟨2⟩)])).insertionOf
        (.resume ⟨1⟩) = some (⟨1⟩, ⟨⟨1⟩, ⟨flags, [.boolean true], none⟩, true⟩) ∧
      ((new ⟨4, 1, none⟩ none).after (overtaken ++ [.act (.commit ⟨2⟩)])).cache.Suits
        ⟨⟨1⟩, ⟨flags, [.boolean true], none⟩, true⟩ ∧
      (((new ⟨4, 1, none⟩ none).after (overtaken ++ [.act (.commit ⟨2⟩)])).perform
        (.resume ⟨1⟩)).2 = .answered (.finished (.error (.pageFull flagPage))) := by
  decide +kernel

end Session

end PageCache
