-- What holds of the locks in every run, also where pages are edited in place, locks are given back
-- early, transactions end while they wait, and files are changed by others. A transaction waits
-- exactly while its call does, and a step of others takes nothing from it and gives it nothing.
import PageCache.Proofs.Cache.Working
import PageCache.Proofs.Session.Upkeep

namespace PageCache

/-- The transaction whose call goes on in a step, or that ends. -/
def Action.actor : Action → Option TransactionId
  | .submit txn _ _ | .resume txn | .expire txn | .commit txn | .abort txn => some txn
  | _ => none

/-- The transaction that takes a step. -/
def Step.actor : Step → Option TransactionId
  | .act a => a.actor
  | .release txn _ => some txn
  | _ => none

namespace Session

variable {s s' s'' : Session} {txn u : TransactionId} {actor : Option TransactionId}
  {call : WaitingCall} {r : PendingLock} {c : Cache} {config : Config} {log : Option WriteLog}

/-- A call goes on with the page that it has waited for, under new locks. -/
def goOn (s : Session) (txn : TransactionId) (call : WaitingCall) (locks : Locking) :
    Session × Answer :=
  let brought := Cache.bring { s.cache with locks } call.page
  s.enter txn call.iterator (brought.1.proceed txn call.page call.stage brought.2)

/-- The locks are in order, resident pages stand in their own places, and those who wait for a lock
are those with an unfinished call. -/
structure Linked (s : Session) : Prop where
  orderly : s.cache.locks.Orderly
  placed : s.cache.Placed
  idle_iff : ∀ txn, s.calls.get? txn = none ↔ s.cache.locks.pending.get? txn = none

/-- A transaction was passed by: its call, its request and its holdings are as they were. -/
structure Bypasses (txn : TransactionId) (s s' : Session) : Prop where
  call : s'.calls.get? txn = s.calls.get? txn
  pending : s'.cache.locks.pending.get? txn = s.cache.locks.pending.get? txn
  modes : s'.cache.locks.table.heldMode txn = s.cache.locks.table.heldMode txn

/-- A step after which the session is linked, and which passes all by but its actor. -/
structure Turn (actor : Option TransactionId) (s s' : Session) : Prop where
  linked : s'.Linked
  others : ∀ txn, actor ≠ some txn → s.Bypasses txn s'

theorem linked_new (config : Config) (log : Option WriteLog) : (new config log).Linked where
  orderly := Locking.Orderly.empty
  placed _ _ hres := by cases hres
  idle_iff _ := iff_of_true rfl rfl

theorem Bypasses.refl (txn : TransactionId) (s : Session) : s.Bypasses txn s := ⟨rfl, rfl, rfl⟩

theorem Bypasses.trans (h₁ : s.Bypasses txn s') (h₂ : s'.Bypasses txn s'') : s.Bypasses txn s'' :=
  ⟨h₂.call.trans h₁.call, h₂.pending.trans h₁.pending, h₂.modes.trans h₁.modes⟩

theorem Turn.refl (h : s.Linked) : s.Turn actor s := ⟨h, fun txn _ => .refl txn s⟩

theorem Turn.trans (h₁ : s.Turn actor s') (h₂ : s'.Turn actor s'') : s.Turn actor s'' :=
  ⟨h₂.linked, fun txn hne => (h₁.others txn hne).trans (h₂.others txn hne)⟩

theorem Linked.idle (h : s.Linked) (hcall : s.calls.get? txn = none) : s.cache.Idle txn :=
  ⟨h.orderly, h.placed, (h.idle_iff txn).1 hcall⟩

/-- Sessions whose pages are sound are linked. -/
theorem Coherent.linked (h : s.Coherent) : s.Linked :=
  ⟨h.orderly, fun _ _ hres => h.sound.id_eq (Cache.view_of_resident hres), h.idle_iff⟩

theorem Bypasses.holds_eq (h : s.Bypasses txn s') (page : PageId) :
    s'.cache.holds txn page = s.cache.holds txn page := by
  rw [Cache.holds, Cache.holds, LockTable.holds, LockTable.holds, h.modes]

theorem Linked.exists_pending (h : s.Linked) (hcall : s.calls.get? txn = some call) :
    ∃ r, s.cache.locks.pending.get? txn = some r := by
  rcases hr : s.cache.locks.pending.get? txn with _ | r
  · rw [(h.idle_iff txn).2 hr] at hcall
    cases hcall
  · exact ⟨r, rfl⟩

/-! ## Steps without a call -/

/-- Pages go and come, and locks and calls stay. -/
theorem Linked.shelved (h : s.Linked) (hs : s.cache.Shelves c) :
    s.Turn actor { s with cache := c } := by
  refine ⟨⟨?_, hs.placed h.placed, ?_⟩, fun txn _ => ⟨rfl, ?_, ?_⟩⟩
  all_goals simp only [hs.locks_eq]
  · exact h.orderly
  · exact h.idle_iff

/-- A transaction gives locks back, and its request is as it was. -/
theorem Linked.worked (h : s.Linked) (hworks : s.cache.Works txn c)
    (hown : c.locks.pending.get? txn = s.cache.locks.pending.get? txn) :
    s.Turn (some txn) { s with cache := c } := by
  have hpending : ∀ u, c.locks.pending.get? u = s.cache.locks.pending.get? u := by
    intro u
    by_cases hu : u = txn
    · rw [hu, hown]
    · exact hworks.alone.pending u hu
  refine ⟨⟨hworks.alone.orderly, hworks.placed, fun u => ?_⟩, fun u hne => ⟨rfl, hpending u, ?_⟩⟩
  · simp only [hpending]
    exact h.idle_iff u
  · exact hworks.alone.modes u fun hu => hne (congrArg some hu.symm)

theorem Linked.releaseAll (h : s.Linked) {c : Cache} (hs : s.cache.Shelves c)
    (txn : TransactionId) : s.Turn (some txn) { s with cache := c.releaseAll txn } := by
  refine h.worked ⟨?_, hs.placed h.placed⟩ ?_ <;> simp only [Cache.releaseAll, hs.locks_eq]
  · exact h.orderly.alone_releaseAll txn
  · rfl

theorem Linked.commit (h : s.Linked) (txn : TransactionId) :
    s.Turn (some txn) { s with cache := (s.cache.commit txn).1 } := by
  obtain ⟨hfades, -⟩ := h.placed.writeBackAll txn (s.cache.heldPages txn)
  unfold Cache.commit
  rcases hw : Cache.writeBackAll txn (s.cache.heldPages txn) s.cache with ⟨c, e | _⟩ <;>
    rw [hw] at hfades
  · exact h.shelved (.of_fades hfades)
  · exact h.releaseAll (.of_fades hfades) txn

theorem Linked.abort (h : s.Linked) (txn : TransactionId) :
    s.Turn (some txn) { s with cache := (s.cache.abort txn).1 } :=
  h.releaseAll (.of_fades (h.placed.reloadAll (s.cache.heldPages txn) none).fades) txn

/-! ## Calls -/

/-- How far a call has come is entered into the session. -/
theorem Linked.enter (h : s.Linked) (name : Option String) {result : Cache × Progress}
    (hfares : s.cache.Fares txn result) : s.Turn (some txn) (s.enter txn name result).1 := by
  have hcache := s.cache_enter txn name result
  have hcalls := s.calls_enter txn name result
  have hworks : s.cache.Works txn result.1 := by
    obtain ⟨c, outcome | ⟨page, stage⟩⟩ := result <;> exact hfares.1
  have hown : result.2.unfinished name = none ↔ result.1.locks.pending.get? txn = none := by
    obtain ⟨c, outcome | ⟨page, stage⟩⟩ := result
    · exact iff_of_true rfl hfares.2
    · exact iff_of_false (Option.some_ne_none _) hfares.2.1
  rw [← hcache] at hworks hown
  refine ⟨⟨hworks.alone.orderly, hworks.placed, fun u => ?_⟩, fun u hne => ?_⟩
  · by_cases hu : u = txn
    · rw [hcalls, if_pos hu, hu]
      exact hown
    · rw [hcalls, if_neg hu, hworks.alone.pending u hu]
      exact h.idle_iff u
  · have hu : u ≠ txn := fun heq => hne (congrArg some heq.symm)
    exact ⟨by rw [hcalls, if_neg hu], hworks.alone.pending u hu, hworks.alone.modes u hu⟩

/-- A call goes on with its page under locks that were granted to it. -/
theorem Linked.goOn (h : s.Linked) {locks : Locking} (halone : s.cache.locks.Alone txn locks)
    (hidle : locks.pending.get? txn = none) : s.Turn (some txn) (s.goOn txn call locks).1 := by
  have hworks : s.cache.Works txn { s.cache with locks } := ⟨halone, h.placed⟩
  exact h.enter call.iterator (.after hworks ((hworks.idle hidle).fares_brought _ _))

/-- A waiting call that is looked at again goes on under new locks, or goes on waiting. -/
theorem Linked.resume_cases (h : s.Linked) (hcall : s.calls.get? txn = some call)
    (hr : s.cache.locks.pending.get? txn = some r) :
    (∃ locks, s.cache.locks.Alone txn locks ∧ locks.pending.get? txn = none ∧
        s.cache.locks.Grants txn r.page r.access locks ∧
        s.resume txn = s.goOn txn call locks) ∨
      ∃ locks, s.cache.locks.Alone txn locks ∧ locks.pending.get? txn = some r ∧
        locks.table.heldMode = s.cache.locks.table.heldMode ∧
        s.resume txn = ({ s with cache := { s.cache with locks } }, .waiting) := by
  have halone := h.orderly.alone_recheck hr
  have hafter := (h.orderly.turn_recheck txn).2
  have hmodes := h.orderly.holdings_recheck hr
  unfold Session.resume
  rw [hcall]
  rcases hre : s.cache.locks.recheck txn with ⟨locks, _ | q⟩ <;> rw [hre] at halone hafter hmodes
  · obtain ⟨-, hsame⟩ := hmodes.resolve_left fun hgot => by cases hgot.1
    exact Or.inr ⟨locks, halone, hafter.trans hr, hsame, rfl⟩
  · obtain ⟨-, hgrants⟩ := hmodes.resolve_right fun hnot => by cases hnot.1
    exact Or.inl ⟨locks, halone, hafter.2.1, hgrants, rfl⟩

/-- A waiting call whose time is over goes on, if its lock can be granted, or it fails. -/
theorem Linked.expire_cases (h : s.Linked) (hcall : s.calls.get? txn = some call)
    (hr : s.cache.locks.pending.get? txn = some r) :
    (s.cache.locks.isGrantable txn r = true ∧ ∃ locks, s.cache.locks.Alone txn locks ∧
        locks.pending.get? txn = none ∧ s.cache.locks.Grants txn r.page r.access locks ∧
        s.expire txn = s.goOn txn call locks) ∨
      ∃ locks, s.cache.locks.Alone txn locks ∧ locks.pending.get? txn = none ∧
        locks.table.heldMode = s.cache.locks.table.heldMode ∧
        s.expire txn = s.enter txn call.iterator (Cache.proceed { s.cache with locks } txn
          call.page call.stage (.error (.waitTimeout txn call.page))) := by
  have halone := h.orderly.alone_expire hr
  have hidle := (h.orderly.turn_expire hr).2.1
  have hmodes := h.orderly.holdings_expire hr
  unfold Session.expire
  rw [hcall]
  rcases hex : s.cache.locks.expire txn with ⟨locks, result⟩
  rw [hex] at halone hidle hmodes
  rcases hmodes with ⟨hgrant, rfl, hgrants⟩ | ⟨rfl, hsame⟩
  · exact Or.inl ⟨hgrant, locks, halone, hidle, hgrants, rfl⟩
  · exact Or.inr ⟨locks, halone, hidle, hsame, rfl⟩

theorem Linked.resume (h : s.Linked) (txn : TransactionId) :
    s.Turn (some txn) (s.resume txn).1 := by
  rcases hcall : s.calls.get? txn with _ | call
  · have hsame : s.resume txn = (s, .waiting) := by rw [Session.resume, hcall]
    rw [hsame]
    exact .refl h
  · obtain ⟨r, hr⟩ := h.exists_pending hcall
    rcases h.resume_cases hcall hr with ⟨locks, halone, hidle, -, he⟩ |
      ⟨locks, halone, hpending, -, he⟩ <;> rw [he]
    · exact h.goOn halone hidle
    · exact h.worked ⟨halone, h.placed⟩ (hpending.trans hr.symm)

theorem Linked.expire (h : s.Linked) (txn : TransactionId) :
    s.Turn (some txn) (s.expire txn).1 := by
  rcases hcall : s.calls.get? txn with _ | call
  · have hsame : s.expire txn = (s, .waiting) := by rw [Session.expire, hcall]
    rw [hsame]
    exact .refl h
  · obtain ⟨r, hr⟩ := h.exists_pending hcall
    rcases h.expire_cases hcall hr with ⟨-, locks, halone, hidle, -, he⟩ |
      ⟨locks, halone, hidle, -, he⟩ <;> rw [he]
    · exact h.goOn halone hidle
    · have hworks : s.cache.Works txn { s.cache with locks } := ⟨halone, h.placed⟩
      refine h.enter call.iterator (.after hworks ?_)
      exact (hworks.idle hidle).fares_proceed _ _ _ fun p hp => by cases hp

theorem Linked.submit (h : s.Linked) (txn : TransactionId) (name : Option String)
    (op : Operation) : s.Turn (some txn) (s.submit txn name op).1 := by
  rcases s.submit_cases txn name op with ⟨-, he⟩ | ⟨hcall, s₁, answer, henter, hcase⟩
  · rw [he]
    exact .refl h
  · have hturn := h.enter name ((h.idle hcall).fares_start op)
    rw [henter] at hturn
    rcases hcase with he | ⟨-, he⟩ <;> rw [he]
    · exact hturn
    · exact hturn.trans (hturn.linked.expire txn)

/-! ## All steps -/

/-- To open an iterator or to put it back changes nothing but iterators. -/
theorem Linked.of_same (h : s.Linked) (hcache : s'.cache = s.cache) (hcalls : s'.calls = s.calls) :
    s.Turn actor s' := by
  refine ⟨⟨?_, ?_, ?_⟩, fun txn _ => ⟨by rw [hcalls], by rw [hcache], by rw [hcache]⟩⟩
  all_goals simp only [hcache, hcalls]
  · exact h.orderly
  · exact h.placed
  · exact h.idle_iff

theorem Linked.perform (h : s.Linked) (a : Action) : s.Turn a.actor (s.perform a).1 := by
  cases a with
  | submit txn name op => exact h.submit txn name op
  | resume txn => exact h.resume txn
  | expire txn => exact h.expire txn
  | commit txn => exact h.commit txn
  | abort txn => exact h.abort txn
  | allocate table => exact h.shelved (.of_fades (.allocate _ table))
  | unpin page => exact h.shelved (.of_fades (.setPinned _ page false))
  | addTable file =>
    simp only [Session.perform]
    split
    · rename_i c hadd
      exact h.shelved (.of_fades (.addTable hadd))
    · exact .refl h
  | evict =>
    simp only [Session.perform]
    split
    · rename_i c page hevict
      exact h.shelved (.of_fades (.evict hevict))
    · exact .refl h
  | openIterator txn name table =>
    obtain ⟨hcache, hcalls⟩ := s.openIterator_same txn name table
    exact h.of_same hcache hcalls
  | rewindIterator name =>
    obtain ⟨hcache, hcalls⟩ := s.rewindIterator_same name
    exact h.of_same hcache hcalls

theorem Linked.step (h : s.Linked) (st : Step) : s.Turn st.actor (s.step st) := by
  cases st with
  | act a => exact h.perform a
  | flush page => exact h.shelved (.of_fades (h.placed.flush page))
  | flushAll => exact h.shelved (.of_fades (h.placed.flushList s.cache.resident.keys))
  | discard page => exact h.shelved (.of_fades (.discard s.cache page))
  | overwrite file => exact h.shelved (.of_fades (.setTable s.cache file))
  | release txn page =>
    exact h.worked ⟨h.orderly.alone_release txn page, h.placed⟩ rfl

theorem Linked.after (h : s.Linked) (steps : List Step) : (s.after steps).Linked := by
  induction steps generalizing s with
  | nil => exact h
  | cons st rest ih => exact ih (h.step st).linked

end Session

end PageCache
