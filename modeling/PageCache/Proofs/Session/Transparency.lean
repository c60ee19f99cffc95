-- Nobody notices the cache. A page that is fetched shows what was committed and what the
-- transaction itself has changed, and nothing else. Two runs of the same steps with caches of
-- different sizes tell the same, as long as neither cache is too small for one of them.
import PageCache.Proofs.Cache.Lockstep
import PageCache.Proofs.Session.Ledger

namespace PageCache

def Answer.isExhausted : Answer → Bool
  | .finished outcome => Outcome.isExhausted outcome
  | _ => false

/-- A call has failed because the cache was full. -/
def Report.isExhausted : Report → Bool
  | .answered answer => answer.isExhausted
  | _ => false

namespace Session

variable {s s' t t' : Session} {txn : TransactionId} {errand : Errand} {a : Action}

/-! ## Sessions that nobody can tell apart -/

/-- The sessions differ only in what is resident. -/
structure Alike (s t : Session) : Prop where
  cache : s.cache.Alike t.cache
  calls_eq : t.calls = s.calls
  iterators_eq : t.iterators = s.iterators
  patient_eq : t.patient = s.patient

/-- Both sessions have answered the same and are alike, or one of the caches was full. -/
def Agree (x y : Session × Answer) : Prop :=
  x.2.isExhausted = true ∨ y.2.isExhausted = true ∨ (y.2 = x.2 ∧ x.1.Alike y.1)

theorem Alike.agree (h : s.Alike t) (answer : Answer) : Agree (s, answer) (t, answer) :=
  Or.inr (Or.inr ⟨rfl, h⟩)

theorem Alike.with_cache (h : s.Alike t) {c d : Cache} (hcache : c.Alike d) :
    Alike { s with cache := c } { t with cache := d } :=
  ⟨hcache, h.calls_eq, h.iterators_eq, h.patient_eq⟩

theorem Alike.enter (h : s.Alike t) (name : Option String) {r r' : Cache × Progress}
    (hs : s.cache.Proceeds txn errand r) (ht : t.cache.Proceeds txn errand r')
    (hr : Cache.Abreast r r') : Agree (s.enter txn name r) (t.enter txn name r') := by
  rcases hr with hfull | hfull | ⟨hprogress, hlocks, hfiles⟩
  · obtain ⟨c, outcome | ⟨page, stage⟩⟩ := r
    · exact Or.inl hfull
    · cases hfull
  · obtain ⟨d, outcome | ⟨page, stage⟩⟩ := r'
    · exact Or.inr (Or.inl hfull)
    · cases hfull
  · have hcache := h.cache.of_proceeds hs ht hprogress hlocks hfiles
    obtain ⟨c, progress⟩ := r
    obtain ⟨d, progress'⟩ := r'
    cases hprogress
    rcases s with ⟨sc, calls, iterators, patient⟩
    rcases t with ⟨tc, calls', iterators', patient'⟩
    obtain ⟨-, rfl, rfl, rfl⟩ := h
    right
    right
    cases progress with
    | waiting page stage => exact ⟨rfl, hcache, rfl, rfl, rfl⟩
    | finished outcome =>
      refine ⟨rfl, ?_⟩
      simp only [Session.enter, moveIterator]
      split <;> exact ⟨hcache, rfl, rfl, rfl⟩

/-- A call whose lock was granted goes on in both sessions. -/
theorem Alike.abreast_granted (h : s.Alike t) (hs : s.Coherent) (ht : t.Coherent)
    {call : WaitingCall} (hroom : call.stage.seeks = true → s.cache.HasRoom)
    (hcall : s.calls.get? txn = some call) {locks : Locking} (hturn : s.cache.locks.Turn txn locks)
    (hidle : locks.pending.get? txn = none) {m : Access}
    (hm : locks.table.heldMode txn call.page = some m) (hasks : call.stage.Asks m) :
    Cache.Abreast
      ((Cache.bring { s.cache with locks } call.page).1.proceed txn call.page call.stage
        (Cache.bring { s.cache with locks } call.page).2)
      ((Cache.bring { t.cache with locks } call.page).1.proceed txn call.page call.stage
        (Cache.bring { t.cache with locks } call.page).2) := by
  have hturn' : t.cache.locks.Turn txn locks := h.cache.locks_eq ▸ hturn
  obtain ⟨hcalm, hfiles, hready, hlocks, hpage⟩ := hs.brought hturn hidle call.page
  obtain ⟨-, -, hready', -, hpage'⟩ := ht.brought hturn' hidle call.page
  have hplain := hs.plain txn call hcall
  have hsound : ∀ {x : Session}, x.Coherent → x.cache.locks.Turn txn locks →
      Cache.Sound { x.cache with locks } := fun hx hxturn =>
    hx.sound.of_quiet (.of_same rfl fun _ => rfl) hxturn.writers
  obtain ⟨halike, hresult⟩ :=
    (h.cache.setLocks locks).bring (hsound hs hturn) (hsound ht hturn') call.page
  rcases hresult with ⟨n, hfull⟩ | ⟨n, hfull⟩ | heq
  · rw [hfull]
    exact Or.inl (Cache.proceed_exhausted hplain n)
  · rw [hfull]
    exact Or.inr (Or.inl (Cache.proceed_exhausted hplain n))
  · rw [heq] at hpage' ⊢
    refine halike.abreast_proceed hready hready' (fun hseeks => hfiles.hasRoom (hroom hseeks))
      hplain call.page _ fun p hp => ⟨hpage p hp, hpage' p hp, m, ?_, hasks⟩
    rw [hlocks]
    exact hm

theorem Alike.resume (h : s.Alike t) (hs : s.Coherent) (ht : t.Coherent)
    (hroom : s.cache.HasRoom) (txn : TransactionId) : Agree (s.resume txn) (t.resume txn) := by
  have hcalls : t.calls.get? txn = s.calls.get? txn := by rw [h.calls_eq]
  unfold Session.resume
  rw [hcalls, h.cache.locks_eq]
  rcases hcall : s.calls.get? txn with _ | call
  · exact h.agree .waiting
  · obtain ⟨r, hr, hpage, hasks⟩ := hs.exists_pending hcall
    obtain ⟨hturn, hafter⟩ := hs.orderly.turn_recheck txn
    have hcall' : t.calls.get? txn = some call := hcalls.trans hcall
    rcases hre : s.cache.locks.recheck txn with ⟨locks, _ | q⟩
    · exact (h.with_cache (h.cache.setLocks locks)).agree .waiting
    · rw [hre] at hturn hafter
      obtain ⟨hq, hidle, hheld⟩ := hafter
      rw [hr, Option.some.injEq] at hq
      subst hq
      rw [hpage] at hheld
      have hroom' := h.cache.files.hasRoom hroom
      exact h.enter call.iterator
        (hs.proceeds_granted (fun _ => hroom) hcall hturn hidle hheld hasks)
        (ht.proceeds_granted (fun _ => hroom') hcall' (h.cache.locks_eq ▸ hturn) hidle hheld hasks)
        (h.abreast_granted hs ht (fun _ => hroom) hcall hturn hidle hheld hasks)

theorem Alike.expire (h : s.Alike t) (hs : s.Coherent) (ht : t.Coherent) {call : WaitingCall}
    (hroom : call.stage.seeks = true → s.cache.HasRoom) (hcall : s.calls.get? txn = some call) :
    Agree (s.expire txn) (t.expire txn) := by
  have hcall' : t.calls.get? txn = some call := by rw [h.calls_eq, hcall]
  have hroom' : call.stage.seeks = true → t.cache.HasRoom := fun hseeks =>
    h.cache.files.hasRoom (hroom hseeks)
  obtain ⟨r, hr, hpage, hasks⟩ := hs.exists_pending hcall
  obtain ⟨hturn, hidle, granted, hex, hheld⟩ := hs.orderly.turn_expire hr
  unfold Session.expire
  rw [hcall, hcall', h.cache.locks_eq]
  rcases hout : s.cache.locks.expire txn with ⟨locks, result⟩
  rw [hout] at hturn hidle hex hheld
  simp only at hex
  subst hex
  have hturn' : t.cache.locks.Turn txn locks := h.cache.locks_eq ▸ hturn
  cases granted with
  | true =>
    have hm := hheld rfl
    rw [hpage] at hm
    exact h.enter call.iterator (hs.proceeds_granted hroom hcall hturn hidle hm hasks)
      (ht.proceeds_granted hroom' hcall' hturn' hidle hm hasks)
      (h.abreast_granted hs ht hroom hcall hturn hidle hm hasks)
  | false =>
    have hplain := hs.plain txn call hcall
    have hcalm : ∀ {x : Session}, x.cache.locks.Turn txn locks →
        x.cache.Calm txn { x.cache with locks } := fun hx => ⟨.of_same rfl fun _ => rfl, hx, rfl⟩
    have hready := (hcalm hturn).ready hs.sound hidle
    have hready' := (hcalm hturn').ready ht.sound hidle
    have hp := hready.proceeds hroom hplain call.page (.error (.waitTimeout txn call.page))
      fun p hp => by cases hp
    have hp' := hready'.proceeds hroom' hplain call.page (.error (.waitTimeout txn call.page))
      fun p hp => by cases hp
    exact h.enter call.iterator (.after (hcalm hturn) (.refl _) hp)
      (.after (hcalm hturn') (.refl _) hp')
      ((h.cache.setLocks locks).abreast_proceed hready hready' hroom hplain call.page _
        fun p hp => by cases hp)

theorem Alike.submit (h : s.Alike t) (hs : s.Coherent) (ht : t.Coherent) (hroom : s.cache.HasRoom)
    (txn : TransactionId) (name : Option String) {op : Operation} (hplain : op.IsPlain) :
    Agree (s.submit txn name op) (t.submit txn name op) := by
  have hroom' := h.cache.files.hasRoom hroom
  have hbusy : t.isBusy txn = s.isBusy txn := by rw [isBusy, isBusy, h.calls_eq]
  unfold Session.submit
  rw [hbusy]
  split
  · exact h.agree .busy
  · rename_i hnot
    have hcall := call_of_free hnot
    have hcall' : t.calls.get? txn = none := by rw [h.calls_eq, hcall]
    have hp := (hs.ready hcall).proceeds_start hroom hplain
    have hp' := (ht.ready hcall').proceeds_start hroom' hplain
    have hagree := h.enter name hp hp'
      (h.cache.abreast_start (hs.ready hcall) (ht.ready hcall') hroom hplain)
    obtain ⟨hcoh, -⟩ := hs.enter name hp
    obtain ⟨hcoh', -⟩ := ht.enter name hp'
    have hafter := fun call => @hasRoom_of_waiting _ _ _ hroom name _ hp call
    rcases henter : s.enter txn name (s.cache.start txn op) with ⟨s₁, answer⟩
    rcases henter' : t.enter txn name (t.cache.start txn op) with ⟨t₁, answer'⟩
    rw [henter] at hagree hcoh hafter
    rw [henter'] at hagree hcoh'
    rcases hagree with hfull | hfull | ⟨heq, halike⟩
    · cases answer with
      | finished outcome => exact Or.inl hfull
      | busy => cases hfull
      | waiting => cases hfull
    · cases answer' with
      | finished outcome => exact Or.inr (Or.inl hfull)
      | busy => cases hfull
      | waiting => cases hfull
    · cases heq
      cases answer with
      | finished outcome => exact halike.agree _
      | busy => exact halike.agree _
      | waiting =>
        have hpatient : t₁.patient = s₁.patient := halike.patient_eq
        simp only [hpatient]
        split
        · exact halike.agree .waiting
        · rcases hcall₁ : s₁.calls.get? txn with _ | call
          · have hsame : s₁.expire txn = (s₁, .waiting) := by rw [Session.expire, hcall₁]
            have hsame' : t₁.expire txn = (t₁, .waiting) := by
              rw [Session.expire, halike.calls_eq, hcall₁]
            rw [hsame, hsame']
            exact halike.agree .waiting
          · exact halike.expire hcoh hcoh' (hafter call rfl hcall₁) hcall₁

theorem Alike.isIteratorBusy_eq (h : s.Alike t) (name : String) :
    t.isIteratorBusy name = s.isIteratorBusy name := by
  rw [isIteratorBusy, isIteratorBusy, h.calls_eq]

theorem Alike.openIterator (h : s.Alike t) (txn : TransactionId) (name : String) (table : TableId) :
    Agree (s.openIterator txn name table) (t.openIterator txn name table) := by
  unfold Session.openIterator
  rw [h.isIteratorBusy_eq]
  split
  · exact h.agree .busy
  · rcases h.cache.table_cases table with ⟨e, hce, hde⟩ | ⟨f, g, -, -, hce, hde, -⟩
    · rw [hce, hde]
      exact h.agree _
    · rw [hce, hde]
      refine Or.inr (Or.inr ⟨rfl, h.cache, h.calls_eq, ?_, h.patient_eq⟩)
      exact congrArg (·.insert name ⟨txn, .start table⟩) h.iterators_eq

theorem Alike.rewindIterator (h : s.Alike t) (name : String) :
    Agree (s.rewindIterator name) (t.rewindIterator name) := by
  have hget : t.iterators.get? name = s.iterators.get? name := by rw [h.iterators_eq]
  unfold Session.rewindIterator
  rw [h.isIteratorBusy_eq, hget]
  split
  · exact h.agree .busy
  · split
    · exact h.agree _
    · rename_i i _
      refine Or.inr (Or.inr ⟨rfl, h.cache, h.calls_eq, ?_, h.patient_eq⟩)
      exact congrArg (·.insert name ⟨i.txn, .start i.cursor.table⟩) h.iterators_eq

/-- A step does the same to sessions that are alike, and tells the same, unless it only lets a
page go. -/
theorem Alike.perform (h : s.Alike t) (hs : s.Coherent) (ht : t.Coherent) (ha : s.Admits a) :
    (s.perform a).2.isExhausted = true ∨ (t.perform a).2.isExhausted = true ∨
      ((a ≠ .evict → (t.perform a).2 = (s.perform a).2) ∧
        (s.perform a).1.Alike (t.perform a).1) := by
  obtain ⟨hrooms, ha⟩ := ha
  have hroom := hasRoom_of_values hrooms
  have hanswer : ∀ {x y : Session × Answer}, Agree x y →
      (Report.answered x.2).isExhausted = true ∨ (Report.answered y.2).isExhausted = true ∨
        ((a ≠ .evict → Report.answered y.2 = Report.answered x.2) ∧ x.1.Alike y.1) := by
    rintro x y (hfull | hfull | ⟨heq, halike⟩)
    · exact Or.inl hfull
    · exact Or.inr (Or.inl hfull)
    · exact Or.inr (Or.inr ⟨fun _ => by rw [heq], halike⟩)
  cases a with
  | addTable file =>
    have hcontains : t.cache.tables.contains file.table = s.cache.tables.contains file.table := by
      rcases hf : s.cache.tables.get? file.table with _ | f
      · rw [FinMap.contains, FinMap.contains, hf, h.cache.files.none_of_none hf]
      · obtain ⟨g, hg, -⟩ := h.cache.files.exists_alike hf
        rw [FinMap.contains, FinMap.contains, hf, hg]
        rfl
    right
    right
    simp only [Session.perform, Cache.addTable, hcontains]
    rcases hnew : s.cache.tables.contains file.table with _ | _
    · exact ⟨fun _ => rfl, h.with_cache (h.cache.new_table hs.sound ht.sound
        ((FinMap.contains_eq_false_iff _ _).1 hnew))⟩
    · exact ⟨fun _ => rfl, h⟩
  | allocate table =>
    obtain ⟨halike, hresult⟩ := h.cache.allocate hs.sound ht.sound hroom table
    exact Or.inr (Or.inr ⟨fun _ => congrArg Report.allocated hresult, h.with_cache halike⟩)
  | submit txn name op => exact hanswer (h.submit hs ht hroom txn name ha)
  | resume txn => exact hanswer (h.resume hs ht hroom txn)
  | expire txn =>
    rcases hcall : s.calls.get? txn with _ | call
    · have hsame : s.expire txn = (s, .waiting) := by rw [Session.expire, hcall]
      have hsame' : t.expire txn = (t, .waiting) := by rw [Session.expire, h.calls_eq, hcall]
      have hagree : Agree (s.expire txn) (t.expire txn) := by
        rw [hsame, hsame']
        exact h.agree .waiting
      exact hanswer hagree
    · exact hanswer (h.expire hs ht (fun _ => hroom) hcall)
  | commit txn =>
    obtain ⟨halike, hresult⟩ := h.cache.commit hs.sound ht.sound txn
    exact Or.inr (Or.inr ⟨fun _ => congrArg Report.ended hresult, h.with_cache halike⟩)
  | abort txn =>
    obtain ⟨halike, hresult⟩ := h.cache.abort hs.sound ht.sound txn
    exact Or.inr (Or.inr ⟨fun _ => congrArg Report.ended hresult, h.with_cache halike⟩)
  | evict =>
    refine Or.inr (Or.inr ⟨fun hne => absurd rfl hne, ?_⟩)
    simp only [Session.perform]
    rcases hc : s.cache.evict with e | ⟨c, page⟩ <;> rcases hd : t.cache.evict with e' | ⟨d, page'⟩
    · exact h
    · exact h.with_cache (h.cache.symm.evict_left ht.sound hd).symm
    · exact h.with_cache (h.cache.evict_left hs.sound hc)
    · exact h.with_cache ((h.cache.evict_left hs.sound hc).symm.evict_left ht.sound hd).symm
  | unpin page =>
    exact Or.inr (Or.inr ⟨fun _ => rfl, h.with_cache (h.cache.setPinned page false)⟩)
  | openIterator txn name table =>
    exact hanswer (h.openIterator txn name table)
  | rewindIterator name =>
    exact hanswer (h.rewindIterator name)

/-- So do all steps of a run, if no cache is too small. -/
theorem Alike.run (h : s.Alike t) (hs : s.Coherent) (ht : t.Coherent) {actions : List Action}
    (ha : s.AdmitsAll actions) (ha' : t.AdmitsAll actions)
    (hfull : ∀ r ∈ (s.run actions).2, r.isExhausted = false)
    (hfull' : ∀ r ∈ (t.run actions).2, r.isExhausted = false) {i : Nat}
    (hi : actions[i]? = some a) (hne : a ≠ .evict) :
    (t.run actions).2[i]? = (s.run actions).2[i]? := by
  induction actions generalizing s t i with
  | nil => cases hi
  | cons first rest ih =>
    rcases h.perform hs ht ha.1 with hx | hx | ⟨hsame, halike⟩
    · have hnot : (s.perform first).2.isExhausted = false := hfull _ List.mem_cons_self
      rw [hx] at hnot
      cases hnot
    · have hnot : (t.perform first).2.isExhausted = false := hfull' _ List.mem_cons_self
      rw [hx] at hnot
      cases hnot
    · cases i with
      | zero =>
        cases hi
        exact congrArg some (hsame hne)
      | succ i =>
        exact ih halike (hs.perform ha.1).1 (ht.perform ha'.1).1 ha.2 ha'.2
          (fun r hr => hfull r (List.mem_cons_of_mem _ hr))
          (fun r hr => hfull' r (List.mem_cons_of_mem _ hr)) hi

end Session

/-! ## What a transaction sees -/

namespace Ledger

variable {l : Ledger} {s s' : Session} {txn : TransactionId} {page : PageId} {p : HeapPage}

/-- On a page that a transaction holds, nobody else has open changes. -/
theorem Tells.page_of_shown (h : l.Tells s) (hcoh : s.Coherent) {errand : Errand} {answer : Answer}
    (hstep : s.CallStep txn errand answer s') (herrand : errand = .visit page .view)
    (hanswer : answer = .finished (.ok (.page p))) : l.page (seenBy txn) page = some p.bare := by
  obtain ⟨hview, hholds⟩ := hstep.shown page p herrand hanswer
  have hall := h.seen page
  rw [hview, Option.map_some] at hall
  rw [hall]
  apply page_congr
  intro e he hpage
  rcases hopen : e.committed with _ | _
  · obtain ⟨q, hq, hmark⟩ := h.marked e he hopen
    rw [hpage] at hq
    -- the lock of whoever has made the change is still there, and it is exclusive
    have hwriter := hstep.did.turn.writers _ _ (hcoh.sound.locked page q _ hq hmark)
    have hx := hstep.did.turn.orderly.tidy.exclusive page
    have htxn := PageLock.eq_of_heldBy_readWrite hx hwriter (LockTable.holds_iff.1 hholds)
    simp [seenBy, htxn]
  · simp [seenBy, hopen]

/-- A page that a call has fetched shows what its transaction is to see. -/
theorem Tells.page_of_report (h : l.Tells s) (hcoh : s.Coherent) {a : Action} {report : Report}
    (heffect : s.Effect a report s') {access : Access}
    (hcall : l.callOf a = some (txn, .fetch page access .view))
    (hreport : report = .answered (.finished (.ok (.page p)))) :
    l.page (seenBy txn) page = some p.bare := by
  -- a waiting call keeps the errand of the operation that was asked for
  have hagain : ∀ {answer u}, (l.asked.get? u).map (u, ·) = some (txn, .fetch page access .view) →
      answer = .finished (.ok (.page p)) →
      (s.calls.get? u = none ∧ answer = .waiting ∧ s' = s) ∨
        (∃ call, s.calls.get? u = some call ∧
          s.CallStep u (call.stage.errand call.page) answer s') →
      l.page (seenBy txn) page = some p.bare := by
    intro answer u hasked hanswer heffect
    obtain ⟨op, hop, heq⟩ := Option.map_eq_some_iff.1 hasked
    cases heq
    rcases heffect with ⟨-, hwait, -⟩ | ⟨call, hc, hstep⟩
    · rw [hanswer] at hwait
      cases hwait
    · obtain ⟨asked, hasked', herrand⟩ := h.asked txn call hc
      rw [hop, Option.some.injEq] at hasked'
      subst hasked'
      exact h.page_of_shown hcoh hstep herrand hanswer
  cases a with
  | submit u name op =>
    cases hcall
    obtain ⟨answer, rfl, ⟨rfl, -⟩ | ⟨-, hstep⟩⟩ := heffect
    · cases hreport
    · exact h.page_of_shown hcoh hstep rfl (Report.answered.inj hreport)
  | resume u | expire u =>
    obtain ⟨answer, rfl, heffect⟩ := heffect
    exact hagain hcall (Report.answered.inj hreport) heffect
  | _ => cases hcall

end Ledger

namespace Session

/-- **The cache is transparent, and reads are isolated.** In a run of any number of
transactions, whose log refuses nothing: whenever a page is fetched, it shows what has been
committed with the changes of the transaction itself, and no change of anybody else that is
not committed. And with a cache of any other capacity, that looks at any other number of uses,
the same steps tell the same, if neither cache is too small for one of them. -/
theorem cache_is_transparent (config : Config) (log : Option WriteLog) (actions : List Action)
    (hlog : (new config log).cache.AcceptsAll) (hadmits : (new config log).AdmitsAll actions) :
    (∀ before a after txn page access p, actions = before ++ a :: after →
      (ledger config log before).callOf a = some (txn, .fetch page access .view) →
      (((new config log).run before).1.perform a).2 = .answered (.finished (.ok (.page p))) →
      (ledger config log before).page (Ledger.seenBy txn) page = some p.bare) ∧
    ∀ capacity lruK, (new ⟨capacity, lruK, config.lockWaitMs⟩ log).AdmitsAll actions →
      (∀ r ∈ ((new config log).run actions).2, r.isExhausted = false) →
      (∀ r ∈ ((new ⟨capacity, lruK, config.lockWaitMs⟩ log).run actions).2,
        r.isExhausted = false) →
      ∀ (i : Nat) (a : Action), actions[i]? = some a → a ≠ .evict →
        ((new ⟨capacity, lruK, config.lockWaitMs⟩ log).run actions).2[i]? =
          ((new config log).run actions).2[i]? := by
  constructor
  · rintro before a after txn page access p rfl hcall hreport
    obtain ⟨hbefore, ha, -⟩ := admitsAll_append.1 hadmits
    obtain ⟨htells, hcoh⟩ := tells_ledger hlog hbefore
    exact htells.page_of_report hcoh (hcoh.perform ha).2 hcall hreport
  · intro capacity lruK hadmits' hfull hfull' i a hi hne
    have hempty : (new config log).Alike (new ⟨capacity, lruK, config.lockWaitMs⟩ log) :=
      ⟨⟨rfl, rfl, .refl _, fun _ => rfl⟩, rfl, rfl, rfl⟩
    exact hempty.run (coherent_new _ _) (coherent_new _ _) hadmits hadmits' hfull hfull' hi hne

theorem cache_is_transparent_in_handover :
    (ledger ⟨1, 1, none⟩ none (handover.take 4)).page (Ledger.seenBy ⟨2⟩) flagPage =
        some ⟨flagPage, flags, 2, #[some [.boolean true]], [], none, []⟩ ∧
      ((new ⟨3, 2, none⟩ none).run handover).2[4]? =
        ((new ⟨1, 1, none⟩ none).run handover).2[4]? := by
  obtain ⟨hseen, hsame⟩ := cache_is_transparent ⟨1, 1, none⟩ none handover
    (fun _ hlog => by cases hlog) (by decide +kernel)
  exact ⟨hseen (handover.take 4) (.resume ⟨2⟩) (handover.drop 5) ⟨2⟩ flagPage .readOnly
      ⟨flagPage, flags, 2, #[some [.boolean true]], List.replicate 7 false, none, [1, 1]⟩ rfl
      (by decide +kernel) (by decide +kernel),
    hsame 3 2 (by decide +kernel) (by decide +kernel) (by decide +kernel) 4 (.resume ⟨2⟩) rfl
      (fun h => by cases h)⟩

end Session

end PageCache
