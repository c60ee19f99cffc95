-- Runs of a session: transactions call, wait, go on, give up and end, and tables and pages
-- are added, in any order. Each kind of step is said once; after every step the calls that
-- wait agree with the requests for locks, and the cache is sound.
import PageCache.Cache.Session
import PageCache.Proofs.Along
import PageCache.Proofs.Cache.Calls
import PageCache.Proofs.Cache.Endings

namespace PageCache

/-- What can happen to a session in one step. -/
inductive Action where
  | addTable (file : TableFile)
  | allocate (table : TableId)
  /-- A transaction starts an operation, perhaps for an iterator. -/
  | submit (txn : TransactionId) (iterator : Option String) (op : Operation)
  /-- The waiting call of a transaction is looked at again. -/
  | resume (txn : TransactionId)
  /-- The time of a transaction's waiting call is over. -/
  | expire (txn : TransactionId)
  | commit (txn : TransactionId)
  | abort (txn : TransactionId)
  | evict
  | unpin (page : PageId)
  | openIterator (txn : TransactionId) (name : String) (table : TableId)
  | rewindIterator (name : String)

deriving instance DecidableEq for Purpose, Insertion, Operation, Reply, Answer

/-- What the user of a session is told of a step. -/
inductive Report where
  | answered (answer : Answer)
  | ended (result : Except StoreError Unit)
  | added (result : Except StoreError Unit)
  | allocated (result : Except StoreError PageId)
  | evicted (result : Except StoreError PageId)
  | unpinned
deriving DecidableEq

/-- The change that a call with an errand has made, if it was finished. -/
def Answer.change (errand : Errand) : Answer → Option Change
  | .finished outcome => errand.change outcome
  | _ => none

/-- The call that is left to go on with. -/
def Progress.unfinished (name : Option String) : Progress → Option WaitingCall
  | .finished _ => none
  | .waiting page stage => some ⟨page, stage, name⟩

namespace Session

/-- A step of a session. -/
def perform (s : Session) : Action → Session × Report
  | .addTable file =>
    match s.cache.addTable file with
    | .ok cache => ({ s with cache }, .added (.ok ()))
    | .error e => (s, .added (.error e))
  | .allocate table =>
    let (cache, result) := s.cache.allocate table
    ({ s with cache }, .allocated result)
  | .submit txn name op =>
    let (s, answer) := s.submit txn name op
    (s, .answered answer)
  | .resume txn =>
    let (s, answer) := s.resume txn
    (s, .answered answer)
  | .expire txn =>
    let (s, answer) := s.expire txn
    (s, .answered answer)
  | .commit txn =>
    let (cache, result) := s.cache.commit txn
    ({ s with cache }, .ended result)
  | .abort txn =>
    let (cache, result) := s.cache.abort txn
    ({ s with cache }, .ended result)
  | .evict =>
    match s.cache.evict with
    | .ok (cache, page) => ({ s with cache }, .evicted (.ok page))
    | .error e => (s, .evicted (.error e))
  | .unpin page => ({ s with cache := s.cache.setPinned page false }, .unpinned)
  | .openIterator txn name table =>
    let (s, answer) := s.openIterator txn name table
    (s, .answered answer)
  | .rewindIterator name =>
    let (s, answer) := s.rewindIterator name
    (s, .answered answer)

/-- The steps of a run, one after the other: the session at the end, and the reports. -/
def run (s : Session) : List Action → Session × List Report
  | [] => (s, [])
  | a :: rest =>
    let (s, report) := s.perform a
    let (s, reports) := s.run rest
    (s, report :: reports)

/-- Where a step leads. -/
def next (s : Session) (a : Action) : Session := (s.perform a).1

theorem fst_run (s : Session) (actions : List Action) :
    (s.run actions).1 = actions.foldl next s := by
  induction actions generalizing s with
  | nil => rfl
  | cons a rest ih => exact ih (s.next a)

theorem run_append (s : Session) (before after : List Action) :
    (s.run (before ++ after)).1 = ((s.run before).1.run after).1 := by
  rw [fst_run, fst_run, fst_run, List.foldl_append]

/-- A step that users may take: every table can have one more page, pages are changed by
insertions of whole records and deletions only, and a transaction ends only while it has no
unfinished call. -/
def Admits (s : Session) (a : Action) : Prop :=
  (∀ file ∈ s.cache.tables.values, file.HasRoom) ∧
    match a with
    | .submit _ _ op => op.IsPlain
    | .commit txn => s.isBusy txn = false
    | .abort txn => s.isBusy txn = false
    | _ => True

instance (s : Session) (a : Action) : Decidable (s.Admits a) :=
  match a with
  | .submit _ _ op => inferInstanceAs (Decidable (_ ∧ op.IsPlain))
  | .commit txn | .abort txn => inferInstanceAs (Decidable (_ ∧ s.isBusy txn = false))
  | .addTable _ | .allocate _ | .resume _ | .expire _ | .evict | .unpin _ | .openIterator .. |
    .rewindIterator _ => inferInstanceAs (Decidable (_ ∧ True))

/-- Every step of a run is admitted where it is taken. -/
def AdmitsAll (s : Session) (actions : List Action) : Prop := Along next Admits s actions

instance (s : Session) (actions : List Action) : Decidable (s.AdmitsAll actions) :=
  inferInstanceAs (Decidable (Along next Admits s actions))

/-- A part of a run is admitted if the whole run is. -/
theorem admitsAll_append {s : Session} {before after : List Action} :
    s.AdmitsAll (before ++ after) ↔ s.AdmitsAll before ∧ (s.run before).1.AdmitsAll after := by
  rw [fst_run]
  exact Along.append_iff

/-! ## What a step does -/

/-- The cache is sound, and the calls that wait are those with a request for a lock, for the
page and in the way that they need it. -/
structure Coherent (s : Session) : Prop where
  sound : s.cache.Sound
  orderly : s.cache.locks.Orderly
  idle_iff : ∀ txn, s.calls.get? txn = none ↔ s.cache.locks.pending.get? txn = none
  waits : ∀ txn call r, s.calls.get? txn = some call → s.cache.locks.pending.get? txn = some r →
    r.page = call.page ∧ call.stage.Asks r.access
  plain : ∀ txn call, s.calls.get? txn = some call → call.stage.IsPlain

/-- What a step of a call with an errand does. It waits and has changed nothing, or it is
finished and has made the change that its outcome tells of. -/
structure CallStep (txn : TransactionId) (errand : Errand) (s : Session) (answer : Answer)
    (s' : Session) : Prop where
  did : s.cache.Did txn (answer.change errand) s'.cache
  others : ∀ u, u ≠ txn → s'.calls.get? u = s.calls.get? u
  left : ∀ call, s'.calls.get? txn = some call →
    answer = .waiting ∧ call.stage.errand call.page = errand
  shown : ∀ page p, errand = .visit page .view → answer = .finished (.ok (.page p)) →
    s.cache.view page = some p ∧ s'.cache.holds txn page = true

/-- A step that nobody who looks at pages can notice. -/
def Unnoticed (s s' : Session) : Prop :=
  s.cache.Quiet s'.cache ∧ s'.cache.locks = s.cache.locks ∧ s'.cache.log = s.cache.log ∧
    s'.calls = s.calls

/-- What each kind of step does to a session. -/
def Effect (s : Session) : Action → Report → Session → Prop
  | .addTable file, report, s' =>
    (report = .added (.ok ()) ∧ s.cache.tables.get? file.table = none ∧
      s' = { s with cache := s.cache.setTable file }) ∨
    ∃ e, report = .added (.error e) ∧ s' = s
  | .submit txn _ op, report, s' =>
    ∃ answer, report = .answered answer ∧
      ((answer = .busy ∧ s' = s) ∨ (s.calls.get? txn = none ∧ CallStep txn op.errand s answer s'))
  | .resume txn, report, s' | .expire txn, report, s' =>
    ∃ answer, report = .answered answer ∧
      ((s.calls.get? txn = none ∧ answer = .waiting ∧ s' = s) ∨
        ∃ call, s.calls.get? txn = some call ∧
          CallStep txn (call.stage.errand call.page) s answer s')
  | .commit txn, report, s' =>
    s'.calls = s.calls ∧
    ((report = .ended (.ok ()) ∧
        s.cache.Ended txn (fun page => (s.cache.view page).map HeapPage.saved) s'.cache) ∨
      ∃ e written refused rest, report = .ended (.error e) ∧
        s.cache.heldPages txn = written ++ refused :: rest ∧ s.cache.Saved written s'.cache ∧
        (∃ p, s'.cache.view refused = some p ∧ p.dirty ≠ none) ∧ ¬ s.cache.AcceptsAll)
  | .abort txn, report, s' =>
    s'.calls = s.calls ∧ report = .ended (.ok ()) ∧ s.cache.Ended txn s.cache.onDisk s'.cache
  | _, _, s' => s.Unnoticed s'

variable {s s' s'' : Session} {txn : TransactionId} {errand : Errand} {answer : Answer}

theorem hasRoom_of_values (h : ∀ file ∈ s.cache.tables.values, file.HasRoom) : s.cache.HasRoom :=
  fun id f hf => h f ((FinMap.mem_values_iff _ _).2 ⟨id, hf⟩)

/-! ## Calls -/

/-- A transaction is free as long as it has no unfinished call. -/
theorem isBusy_eq_false_iff : s.isBusy txn = false ↔ s.calls.get? txn = none :=
  FinMap.contains_eq_false_iff _ _

theorem call_of_free (hfree : ¬ s.isBusy txn = true) : s.calls.get? txn = none :=
  isBusy_eq_false_iff.1 (Bool.not_eq_true _ ▸ hfree)

/-- An operation of a free transaction is started, and its call is entered as far as it has come.
If it waits, its time may be over at once. -/
theorem submit_cases (s : Session) (txn : TransactionId) (name : Option String) (op : Operation) :
    (s.isBusy txn = true ∧ s.submit txn name op = (s, .busy)) ∨
      (s.calls.get? txn = none ∧ ∃ s₁ answer,
        s.enter txn name (s.cache.start txn op) = (s₁, answer) ∧
          (s.submit txn name op = (s₁, answer) ∨
            answer = .waiting ∧ s.submit txn name op = s₁.expire txn)) := by
  unfold Session.submit
  split
  · rename_i hbusy
    exact Or.inl ⟨hbusy, rfl⟩
  · rename_i hfree
    refine Or.inr ⟨call_of_free hfree, ?_⟩
    rcases s.enter txn name (s.cache.start txn op) with ⟨s₁, answer⟩
    refine ⟨s₁, answer, rfl, ?_⟩
    cases answer with
    | waiting =>
      dsimp only
      split
      · exact Or.inl rfl
      · exact Or.inr ⟨rfl, rfl⟩
    | _ => exact Or.inl rfl

/-- Only a transaction that was free gets a result. -/
theorem call_of_finished {name : Option String} {op : Operation} {outcome : Outcome}
    (hdone : (s.submit txn name op).2 = .finished outcome) : s.calls.get? txn = none := by
  rcases s.submit_cases txn name op with ⟨-, he⟩ | ⟨hcall, -⟩
  · rw [he] at hdone
    cases hdone
  · exact hcall

theorem Coherent.ready (h : s.Coherent) (hcall : s.calls.get? txn = none) :
    s.cache.Ready txn := ⟨h.sound, h.orderly, (h.idle_iff txn).1 hcall⟩

theorem moveIterator_cache (s : Session) (txn : TransactionId) (name : Option String)
    (outcome : Outcome) : (s.moveIterator txn name outcome).cache = s.cache ∧
      (s.moveIterator txn name outcome).calls = s.calls := by
  unfold moveIterator
  split <;> exact ⟨rfl, rfl⟩

theorem cache_enter (s : Session) (txn : TransactionId) (name : Option String)
    (result : Cache × Progress) : (s.enter txn name result).1.cache = result.1 := by
  obtain ⟨c, outcome | ⟨page, stage⟩⟩ := result
  · exact (moveIterator_cache _ _ _ _).1
  · rfl

theorem calls_enter (s : Session) (txn : TransactionId) (name : Option String)
    (result : Cache × Progress) (u : TransactionId) : (s.enter txn name result).1.calls.get? u =
      if u = txn then result.2.unfinished name else s.calls.get? u := by
  obtain ⟨c, outcome | ⟨page, stage⟩⟩ := result
  · rw [Session.enter, (moveIterator_cache _ _ _ _).2, FinMap.get?_erase]
    rfl
  · exact FinMap.get?_insert _ _ _ _

/-- A step of one transaction keeps the calls and the requests for locks together, if its own
call and its own request still belong together. -/
theorem Coherent.of_turn (h : s.Coherent) (hsound : s'.cache.Sound)
    (hturn : s.cache.locks.Turn txn s'.cache.locks)
    (hothers : ∀ u, u ≠ txn → s'.calls.get? u = s.calls.get? u)
    (hown : (s'.calls.get? txn = none ∧ s'.cache.locks.pending.get? txn = none) ∨
      ∃ call r, s'.calls.get? txn = some call ∧ s'.cache.locks.pending.get? txn = some r ∧
        r.page = call.page ∧ call.stage.Asks r.access ∧ call.stage.IsPlain) : s'.Coherent := by
  refine ⟨hsound, hturn.orderly, ?_, ?_, ?_⟩
  · intro u
    by_cases hu : u = txn
    · subst hu
      rcases hown with ⟨hnone, hidle⟩ | ⟨call, r, hcall, hpend, -⟩
      · exact iff_of_true hnone hidle
      · simp [hcall, hpend]
    · rw [hothers u hu, hturn.others u hu]
      exact h.idle_iff u
  · intro u call r hcall hpend
    by_cases hu : u = txn
    · subst hu
      rcases hown with ⟨hnone, -⟩ | ⟨call', r', hcall', hpend', hpage, hasks, -⟩
      · rw [hnone] at hcall
        cases hcall
      · rw [hcall'] at hcall
        rw [hpend'] at hpend
        cases hcall
        cases hpend
        exact ⟨hpage, hasks⟩
    · rw [hothers u hu] at hcall
      rw [hturn.others u hu] at hpend
      exact h.waits u call r hcall hpend
  · intro u call hcall
    by_cases hu : u = txn
    · subst hu
      rcases hown with ⟨hnone, -⟩ | ⟨call', r', hcall', -, -, -, hplain⟩
      · rw [hnone] at hcall
        cases hcall
      · rw [hcall'] at hcall
        cases hcall
        exact hplain
    · rw [hothers u hu] at hcall
      exact h.plain u call hcall

/-- How far a call has come is entered into the session. -/
theorem Coherent.enter (h : s.Coherent) (name : Option String) {result : Cache × Progress}
    (hp : s.cache.Proceeds txn errand result) :
    (s.enter txn name result).1.Coherent ∧
      CallStep txn errand s (s.enter txn name result).2 (s.enter txn name result).1 := by
  have hcache := s.cache_enter txn name result
  have hcalls := s.calls_enter txn name result
  have hothers : ∀ u, u ≠ txn → (s.enter txn name result).1.calls.get? u = s.calls.get? u :=
    fun u hu => (hcalls u).trans (if_neg hu)
  have hown := (hcalls txn).trans (if_pos rfl)
  obtain ⟨c, outcome | ⟨page, stage⟩⟩ := result
  · obtain ⟨hdid, hidle, hshown⟩ := hp
    constructor
    · refine h.of_turn ?_ ?_ hothers (Or.inl ⟨hown, ?_⟩) <;> rw [hcache]
      · exact hdid.sound
      · exact hdid.turn
      · exact hidle
    · refine ⟨?_, hothers, ?_, ?_⟩
      · rw [hcache]
        exact hdid
      · intro call hcall
        rw [hown] at hcall
        cases hcall
      · intro other p herrand hans
        cases hans
        rw [hcache]
        exact hshown other p herrand rfl
  · obtain ⟨hcalm, -, herrand, hplain, r, hr, hpage, hasks⟩ := hp
    constructor
    · exact h.of_turn (h.sound.of_quiet hcalm.quiet hcalm.turn.writers) hcalm.turn hothers
        (Or.inr ⟨_, r, hown, hr, hpage, hasks, hplain⟩)
    · refine ⟨hcalm.did h.sound, hothers, ?_, fun other p _ hans => by cases hans⟩
      intro call hcall
      obtain rfl := Option.some.inj (hown.symm.trans hcall)
      exact ⟨rfl, herrand⟩

/-- The page of a granted lock is brought in. -/
theorem Coherent.brought (h : s.Coherent) {locks : Locking} (hturn : s.cache.locks.Turn txn locks)
    (hidle : locks.pending.get? txn = none) (page : PageId) :
    s.cache.Calm txn (Cache.bring { s.cache with locks } page).1 ∧
      s.cache.SameFiles (Cache.bring { s.cache with locks } page).1 ∧
      (Cache.bring { s.cache with locks } page).1.Ready txn ∧
      (Cache.bring { s.cache with locks } page).1.locks = locks ∧
      ∀ p, (Cache.bring { s.cache with locks } page).2 = .ok p →
        (Cache.bring { s.cache with locks } page).1.residentPage page = some p := by
  have hlocked : s.cache.Calm txn { s.cache with locks } := ⟨.of_same rfl fun _ => rfl, hturn, rfl⟩
  have hready := hlocked.ready h.sound hidle
  obtain ⟨hquiet, hlocks, hlog, hpage⟩ := hready.sound.bring page
  have hbrought : Cache.Calm txn { s.cache with locks }
      (Cache.bring { s.cache with locks } page).1 :=
    ⟨hquiet, by rw [hlocks]; exact .refl hready.orderly, hlog⟩
  exact ⟨hlocked.trans hbrought, hready.sound.sameFiles_bring page,
    hbrought.ready hready.sound (by rw [hlocks]; exact hidle), hlocks, fun p hp => (hpage p hp).2⟩

/-- A call whose lock was granted goes on with its page. -/
theorem Coherent.proceeds_granted (h : s.Coherent) {call : WaitingCall}
    (hroom : call.stage.seeks = true → s.cache.HasRoom)
    (hcall : s.calls.get? txn = some call) {locks : Locking}
    (hturn : s.cache.locks.Turn txn locks) (hidle : locks.pending.get? txn = none) {m : Access}
    (hm : locks.table.heldMode txn call.page = some m) (hasks : call.stage.Asks m) :
    s.cache.Proceeds txn (call.stage.errand call.page)
      ((Cache.bring { s.cache with locks } call.page).1.proceed txn call.page call.stage
        (Cache.bring { s.cache with locks } call.page).2) := by
  obtain ⟨hcalm, hfiles, hready, hlocks, hpage⟩ := h.brought hturn hidle call.page
  refine .after hcalm hfiles (hready.proceeds (fun hseeks => hfiles.hasRoom (hroom hseeks))
    (h.plain txn call hcall) call.page _ fun p hp => ?_)
  rw [hlocks]
  exact ⟨hpage p hp, m, hm, hasks⟩

/-- A step that leaves the calls and the requests for locks as they are. -/
theorem Coherent.of_same_calls (h : s.Coherent) (hsound : s'.cache.Sound)
    (ho : s'.cache.locks.Orderly) (hcalls : s'.calls = s.calls)
    (hpend : ∀ u, s'.cache.locks.pending.get? u = s.cache.locks.pending.get? u) :
    s'.Coherent where
  sound := hsound
  orderly := ho
  idle_iff u := by
    rw [hcalls, hpend]
    exact h.idle_iff u
  waits u call r := by
    rw [hcalls, hpend]
    exact h.waits u call r
  plain := by
    rw [hcalls]
    exact h.plain

/-- The calls stay as they are while nothing but locks and unseen things change. -/
theorem Coherent.of_calm (h : s.Coherent) {c : Cache} (hcalm : s.cache.Calm txn c)
    (hpend : c.locks.pending.get? txn = s.cache.locks.pending.get? txn) :
    Coherent { s with cache := c } := by
  refine h.of_same_calls (h.sound.of_quiet hcalm.quiet hcalm.turn.writers) hcalm.turn.orderly rfl
    fun u => ?_
  by_cases hu : u = txn
  · rw [hu]
    exact hpend
  · exact hcalm.turn.others u hu

theorem Coherent.exists_pending (h : s.Coherent) {call : WaitingCall}
    (hcall : s.calls.get? txn = some call) :
    ∃ r, s.cache.locks.pending.get? txn = some r ∧ r.page = call.page ∧
      call.stage.Asks r.access := by
  rcases hp : s.cache.locks.pending.get? txn with _ | r
  · rw [(h.idle_iff txn).2 hp] at hcall
    cases hcall
  · exact ⟨r, rfl, h.waits txn call r hcall hp⟩

theorem Coherent.resume (h : s.Coherent) {call : WaitingCall}
    (hroom : call.stage.seeks = true → s.cache.HasRoom) (hcall : s.calls.get? txn = some call) :
    (s.resume txn).1.Coherent ∧
      CallStep txn (call.stage.errand call.page) s (s.resume txn).2 (s.resume txn).1 := by
  obtain ⟨r, hr, hpage, hasks⟩ := h.exists_pending hcall
  obtain ⟨hturn, hafter⟩ := h.orderly.turn_recheck txn
  unfold Session.resume
  rw [hcall]
  rcases hre : s.cache.locks.recheck txn with ⟨locks, _ | q⟩
  · rw [hre] at hturn hafter
    have hcalm : s.cache.Calm txn { s.cache with locks } := ⟨.of_same rfl fun _ => rfl, hturn, rfl⟩
    refine ⟨h.of_calm hcalm hafter, hcalm.did h.sound, fun _ _ => rfl, ?_,
      fun _ _ _ hans => by cases hans⟩
    intro other hother
    have hsame : s.calls.get? txn = some other := hother
    rw [hcall, Option.some.injEq] at hsame
    rw [hsame]
    exact ⟨rfl, rfl⟩
  · rw [hre] at hturn hafter
    obtain ⟨hq, hidle, hheld⟩ := hafter
    rw [hr, Option.some.injEq] at hq
    subst hq
    rw [hpage] at hheld
    exact h.enter call.iterator (h.proceeds_granted hroom hcall hturn hidle hheld hasks)

theorem Coherent.expire (h : s.Coherent) {call : WaitingCall}
    (hroom : call.stage.seeks = true → s.cache.HasRoom) (hcall : s.calls.get? txn = some call) :
    (s.expire txn).1.Coherent ∧
      CallStep txn (call.stage.errand call.page) s (s.expire txn).2 (s.expire txn).1 := by
  obtain ⟨r, hr, hpage, hasks⟩ := h.exists_pending hcall
  obtain ⟨hturn, hidle, granted, hex, hheld⟩ := h.orderly.turn_expire hr
  unfold Session.expire
  rw [hcall]
  rcases hout : s.cache.locks.expire txn with ⟨locks, result⟩
  rw [hout] at hturn hidle hex hheld
  simp only at hex
  subst hex
  cases granted with
  | true =>
    have hm := hheld rfl
    rw [hpage] at hm
    exact h.enter call.iterator (h.proceeds_granted hroom hcall hturn hidle hm hasks)
  | false =>
    have hcalm : s.cache.Calm txn { s.cache with locks } := ⟨.of_same rfl fun _ => rfl, hturn, rfl⟩
    have hready := hcalm.ready h.sound hidle
    apply h.enter call.iterator
    apply Cache.Proceeds.after hcalm (.refl _)
    exact hready.proceeds hroom (h.plain txn call hcall) call.page _ fun p hp => by cases hp

/-- A call that waits in its search for an empty slot has appended no page. -/
theorem hasRoom_of_waiting (hroom : s.cache.HasRoom) (name : Option String)
    {result : Cache × Progress} (hp : s.cache.Proceeds txn errand result) {call : WaitingCall}
    (hwait : (s.enter txn name result).2 = .waiting)
    (hcall : (s.enter txn name result).1.calls.get? txn = some call)
    (hseeks : call.stage.seeks = true) : (s.enter txn name result).1.cache.HasRoom := by
  obtain ⟨c, outcome | ⟨page, stage⟩⟩ := result
  · cases hwait
  · simp only [Session.enter, FinMap.get?_insert, if_true, Option.some.injEq] at hcall
    rw [← hcall] at hseeks
    exact (hp.2.1 hseeks).hasRoom hroom

theorem CallStep.after_waiting (h₁ : CallStep txn errand s .waiting s')
    (h₂ : CallStep txn errand s' answer s'') : CallStep txn errand s answer s'' := by
  have hview : ∀ page, s'.cache.view page = s.cache.view page := by
    intro page
    rw [h₁.did.view_eq]
    exact Option.map_id_fun'.symm ▸ rfl
  refine ⟨⟨h₁.did.toGrows.trans h₂.did.toGrows, fun page => ?_, h₂.did.sound,
      h₁.did.turn.trans h₂.did.turn, h₂.did.log_eq.trans h₁.did.log_eq, fun ch hch => ?_⟩,
    fun u hu => (h₂.others u hu).trans (h₁.others u hu), h₂.left, ?_⟩
  · rw [h₂.did.view_eq, hview]
  · obtain ⟨hheld, p, hp⟩ := h₂.did.writes ch hch
    exact ⟨hheld, p, by rw [← hview, hp]⟩
  · intro page p herrand hans
    obtain ⟨hp, hholds⟩ := h₂.shown page p herrand hans
    exact ⟨by rw [← hview, hp], hholds⟩

theorem Coherent.submit (h : s.Coherent) (hroom : s.cache.HasRoom) (name : Option String)
    {op : Operation} (hplain : op.IsPlain) :
    (s.submit txn name op).1.Coherent ∧
      (((s.submit txn name op).2 = .busy ∧ (s.submit txn name op).1 = s) ∨
        (s.calls.get? txn = none ∧
          CallStep txn op.errand s (s.submit txn name op).2 (s.submit txn name op).1)) := by
  rcases s.submit_cases txn name op with ⟨-, he⟩ | ⟨hcall, s₁, answer, henter, hcase⟩
  · rw [he]
    exact ⟨h, Or.inl ⟨rfl, rfl⟩⟩
  · have hp := (h.ready hcall).proceeds_start hroom hplain
    obtain ⟨hcoh, hstep⟩ := h.enter name hp
    have hafter := fun call => @hasRoom_of_waiting _ _ _ hroom name _ hp call
    rw [henter] at hcoh hstep hafter
    rcases hcase with he | ⟨rfl, he⟩ <;> rw [he]
    · exact ⟨hcoh, Or.inr ⟨hcall, hstep⟩⟩
    · rcases hcall₁ : s₁.calls.get? txn with _ | call
      · have hsame : s₁.expire txn = (s₁, .waiting) := by rw [Session.expire, hcall₁]
        rw [hsame]
        exact ⟨hcoh, Or.inr ⟨hcall, hstep⟩⟩
      · obtain ⟨hcoh', hstep'⟩ := hcoh.expire (hafter call rfl hcall₁) hcall₁
        rw [(hstep.left call hcall₁).2] at hstep'
        exact ⟨hcoh', Or.inr ⟨hcall, hstep.after_waiting hstep'⟩⟩

/-! ## All steps -/

theorem Coherent.of_unnoticed (h : s.Coherent) (hu : s.Unnoticed s') : s'.Coherent := by
  obtain ⟨hquiet, hlocks, -, hcalls⟩ := hu
  refine h.of_same_calls (h.sound.of_quiet hquiet ?_) (hlocks ▸ h.orderly) hcalls fun u => ?_
  · rw [hlocks]
    exact fun _ _ hw => hw
  · rw [hlocks]

/-- The end of a transaction leaves the calls of the others as they are. -/
theorem Coherent.of_ended (h : s.Coherent) {c : Cache} {final : PageId → Option HeapPage}
    (hended : s.cache.Ended txn final c) : Coherent { s with cache := c } := by
  refine h.of_same_calls hended.sound ?_ rfl fun u => ?_
  · simp only [hended.locks_eq]
    exact h.orderly.releaseAll txn
  · simp only [hended.locks_eq]
    rfl

/-- To open an iterator, or to put one back, is nothing to the cache and to the calls. -/
theorem openIterator_same (s : Session) (txn : TransactionId) (name : String) (table : TableId) :
    (s.openIterator txn name table).1.cache = s.cache ∧
      (s.openIterator txn name table).1.calls = s.calls := by
  unfold openIterator
  split
  · exact ⟨rfl, rfl⟩
  · split <;> exact ⟨rfl, rfl⟩

theorem rewindIterator_same (s : Session) (name : String) :
    (s.rewindIterator name).1.cache = s.cache ∧ (s.rewindIterator name).1.calls = s.calls := by
  unfold rewindIterator
  split
  · exact ⟨rfl, rfl⟩
  · split <;> exact ⟨rfl, rfl⟩

theorem unnoticed_of_same (hcache : s'.cache = s.cache) (hcalls : s'.calls = s.calls) :
    s.Unnoticed s' := by
  rw [Unnoticed, hcache]
  exact ⟨.refl _, rfl, rfl, hcalls⟩

/-- A cache with one more table: its pages are seen as their file holds them. -/
theorem sound_new_table {c : Cache} (h : c.Sound) {file : TableFile}
    (hnew : c.tables.get? file.table = none) : (c.setTable file).Sound := by
  have hold : ∀ {id f}, c.tables.get? id = some f → (c.setTable file).tables.get? id = some f := by
    intro id f hf
    rw [Cache.get?_setTable, if_neg]
    · exact hf
    · rintro rfl
      rw [hnew] at hf
      cases hf
  have hresident : ∀ page, (c.setTable file).residentPage page = c.residentPage page := fun _ => rfl
  refine ⟨⟨?_, ?_, ?_⟩, ?_⟩
  · intro id f hf
    rw [Cache.get?_setTable] at hf
    split at hf
    · rename_i hid
      cases hf
      exact hid.symm
    · exact h.keyed id f hf
  · intro page p hp
    obtain ⟨f, hf, hreach⟩ := h.reached page p hp
    exact ⟨f, hold hf, hreach⟩
  · intro page p hp
    rcases hres : c.residentPage page with _ | r
    · rw [Cache.view_of_not_resident ((hresident page).trans hres)] at hp
      obtain ⟨hproper, -, hclean⟩ := Cache.stored_clean hp
      exact ⟨p, hp, hproper, .refl hclean⟩
    · rw [Cache.view_of_resident ((hresident page).trans hres), Option.some.injEq] at hp
      obtain ⟨q, hq, hrest⟩ := h.lies_over page p (by rw [Cache.view_of_resident hres, hp])
      obtain ⟨f, hf, hstored⟩ := Option.bind_eq_some_iff.1 hq
      refine ⟨q, ?_, hrest⟩
      rw [Cache.onDisk, hold hf]
      exact hstored
  · intro page p txn hp hdirty
    have hres := Cache.resident_of_dirty hp (by rw [hdirty]; simp)
    exact h.locked page p txn (Cache.view_of_resident hres) hdirty

/-- A new session has no calls and nothing in its cache. -/
theorem coherent_new (config : Config) (log : Option WriteLog) : (new config log).Coherent where
  sound := {
    keyed := fun _ _ hf => by cases hf
    reached := fun _ _ hp => by cases hp
    lies_over := fun _ _ hp => by cases hp
    locked := fun _ _ _ hp => by cases hp }
  orderly := Locking.Orderly.empty
  idle_iff _ := iff_of_true rfl rfl
  waits _ _ _ hcall := by cases hcall
  plain _ _ hcall := by cases hcall

/-- A log that refuses nothing stays so. -/
theorem Effect.accepts {a : Action} {report : Report} (h : s.Effect a report s')
    (hlog : s.cache.AcceptsAll) : s'.cache.AcceptsAll := by
  have hsame : s'.cache.log = s.cache.log → s'.cache.AcceptsAll := fun hl log hlog' =>
    hlog log (hl ▸ hlog')
  cases a with
  | addTable file =>
    rcases h with ⟨-, -, rfl⟩ | ⟨_, -, rfl⟩ <;> exact hlog
  | submit txn name op =>
    obtain ⟨_, -, ⟨-, rfl⟩ | ⟨-, hstep⟩⟩ := h
    · exact hlog
    · exact hsame hstep.did.log_eq
  | resume txn | expire txn =>
    obtain ⟨_, -, ⟨-, -, rfl⟩ | ⟨_, -, hstep⟩⟩ := h
    · exact hlog
    · exact hsame hstep.did.log_eq
  | commit txn =>
    obtain ⟨-, ⟨-, hended⟩ | ⟨_, _, _, _, -, -, hsaved, -, -⟩⟩ := h
    · exact hended.accepts hlog
    · exact hsaved.accepts hlog
  | abort txn => exact h.2.2.accepts hlog
  | allocate _ | evict | unpin _ | openIterator _ _ _ | rewindIterator _ => exact hsame h.2.2.1

/-- A commit has its effect whether or not a call of the transaction waits. -/
theorem Coherent.commit (h : s.Coherent) (txn : TransactionId) :
    (s.perform (.commit txn)).1.Coherent ∧
      Effect s (.commit txn) (s.perform (.commit txn)).2 (s.perform (.commit txn)).1 := by
  simp only [Session.perform]
  rcases h.sound.commit_cases h.orderly txn with ⟨c, he, hended⟩ |
    ⟨c, e, written, refused, rest, p, he, hsplit, hsaved, hp, hdirty, hnot⟩
  · rw [he]
    exact ⟨h.of_ended hended, rfl, Or.inl ⟨rfl, hended⟩⟩
  · rw [he]
    refine ⟨h.of_same_calls hsaved.sound (hsaved.locks_eq ▸ h.orderly) rfl
      (fun u => congrArg (·.pending.get? u) hsaved.locks_eq), rfl, Or.inr ?_⟩
    exact ⟨e, written, refused, rest, rfl, hsplit, hsaved, ⟨p, hp, hdirty⟩, hnot⟩

theorem Coherent.abort (h : s.Coherent) (txn : TransactionId) :
    (s.perform (.abort txn)).1.Coherent ∧
      Effect s (.abort txn) (s.perform (.abort txn)).2 (s.perform (.abort txn)).1 := by
  simp only [Session.perform]
  obtain ⟨c, he, hended⟩ := h.sound.abort_ended h.orderly txn
  rw [he]
  exact ⟨h.of_ended hended, rfl, rfl, hended⟩

/-- Every step has the effect of its kind, and keeps the session coherent. -/
theorem Coherent.perform (h : s.Coherent) {a : Action} (ha : s.Admits a) :
    (s.perform a).1.Coherent ∧ Effect s a (s.perform a).2 (s.perform a).1 := by
  obtain ⟨hrooms, ha⟩ := ha
  have hroom := hasRoom_of_values hrooms
  have hunnoticed : ∀ {s' : Session}, s.Unnoticed s' → s'.Coherent ∧ s.Unnoticed s' :=
    fun hu => ⟨h.of_unnoticed hu, hu⟩
  cases a with
  | addTable file =>
    simp only [Session.perform, Cache.addTable]
    split
    · rename_i heq
      split at heq
      · cases heq
      · rename_i hnot
        cases heq
        have hnew := (FinMap.contains_eq_false_iff _ _).1 (Bool.not_eq_true _ ▸ hnot)
        exact ⟨h.of_same_calls (sound_new_table h.sound hnew) h.orderly rfl fun _ => rfl,
          Or.inl ⟨rfl, hnew, rfl⟩⟩
    · exact ⟨h, Or.inr ⟨_, rfl, rfl⟩⟩
  | allocate table =>
    obtain ⟨hquiet, hlocks, hlog⟩ := h.sound.quiet_allocate hroom table
    exact hunnoticed ⟨hquiet, hlocks, hlog, rfl⟩
  | submit txn name op =>
    obtain ⟨hcoh, hstep⟩ := h.submit hroom name (ha : op.IsPlain)
    exact ⟨hcoh, _, rfl, hstep⟩
  | resume txn =>
    rcases hcall : s.calls.get? txn with _ | call
    · have hsame : s.resume txn = (s, .waiting) := by rw [Session.resume, hcall]
      simp only [Session.perform, hsame]
      exact ⟨h, _, rfl, Or.inl ⟨hcall, rfl, rfl⟩⟩
    · obtain ⟨hcoh, hstep⟩ := h.resume (fun _ => hroom) hcall
      exact ⟨hcoh, _, rfl, Or.inr ⟨call, hcall, hstep⟩⟩
  | expire txn =>
    rcases hcall : s.calls.get? txn with _ | call
    · have hsame : s.expire txn = (s, .waiting) := by rw [Session.expire, hcall]
      simp only [Session.perform, hsame]
      exact ⟨h, _, rfl, Or.inl ⟨hcall, rfl, rfl⟩⟩
    · obtain ⟨hcoh, hstep⟩ := h.expire (fun _ => hroom) hcall
      exact ⟨hcoh, _, rfl, Or.inr ⟨call, hcall, hstep⟩⟩
  | commit txn => exact h.commit txn
  | abort txn => exact h.abort txn
  | evict =>
    simp only [Session.perform]
    rcases he : s.cache.evict with e | ⟨c, page⟩
    · exact hunnoticed (unnoticed_of_same rfl rfl)
    · obtain ⟨hquiet, hlocks, hlog⟩ := h.sound.quiet_evict he
      exact hunnoticed ⟨hquiet, hlocks, hlog, rfl⟩
  | unpin page =>
    obtain ⟨-, hlocks, hlog⟩ := Cache.setPinned_same s.cache page false
    exact hunnoticed ⟨Cache.quiet_setPinned _ _ _, hlocks, hlog, rfl⟩
  | openIterator txn name table =>
    obtain ⟨hcache, hcalls⟩ := s.openIterator_same txn name table
    exact hunnoticed (unnoticed_of_same hcache hcalls)
  | rewindIterator name =>
    obtain ⟨hcache, hcalls⟩ := s.rewindIterator_same name
    exact hunnoticed (unnoticed_of_same hcache hcalls)

end Session

end PageCache
