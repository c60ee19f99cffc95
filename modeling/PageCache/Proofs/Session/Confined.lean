-- Runs in which locks may be given back at any time, transactions may end while they wait, and pages
-- may also be edited past the store, with or without a mark. As long as only the session writes its
-- files and what is stored is whole, every resident page stays anchored in its file. If no edit
-- leaves its page unmarked, it stays so in the strict sense.
import PageCache.Proofs.Cache.AnchoredCalls
import PageCache.Proofs.Session.Upkeep

namespace PageCache

namespace Session

variable {s : Session} {strict : Bool} {st : Step} {txn : TransactionId} {config : Config}
  {log : Option WriteLog} {steps : List Step}

/-- A step that leaves the files to the session: every table can have one more page, what is
stored is whole, and nobody else writes the files. -/
def Confines (s : Session) : Step → Prop
  | .act a => (∀ file ∈ s.cache.tables.values, file.HasRoom) ∧
    match a with
    | .submit _ _ op => op.StoresWhole
    | _ => True
  | .overwrite _ => False
  | _ => True

instance (s : Session) : (st : Step) → Decidable (s.Confines st)
  | .act (.submit _ _ op) => inferInstanceAs (Decidable (_ ∧ op.StoresWhole))
  | .act (.addTable _) | .act (.allocate _) | .act (.resume _) | .act (.expire _)
  | .act (.commit _) | .act (.abort _) | .act .evict | .act (.unpin _) | .act (.openIterator ..)
  | .act (.rewindIterator _) => inferInstanceAs (Decidable (_ ∧ True))
  | .flush _ | .flushAll | .discard _ | .release .. => instDecidableTrue
  | .overwrite _ => instDecidableFalse

/-- Every step of a run is confined where it is taken. -/
def ConfinesAll (s : Session) (steps : List Step) : Prop := Along step Confines s steps

instance (s : Session) (steps : List Step) : Decidable (s.ConfinesAll steps) :=
  inferInstanceAs (Decidable (Along step Confines s steps))

/-- A page that the step edits in place has a mark afterwards, unless the edit changes nothing. -/
def marks (s : Session) : Step → Bool
  | .act (.submit _ _ op) => s.cache.marks op
  | .act (.resume txn) | .act (.expire txn) =>
    (s.calls.get? txn).all fun call => s.cache.marksAt call.page call.stage
  | _ => true

/-- A confined step that leaves no change unmarked. -/
def Accounts (s : Session) (st : Step) : Prop := s.Confines st ∧ s.marks st = true

instance (s : Session) (st : Step) : Decidable (s.Accounts st) :=
  inferInstanceAs (Decidable (s.Confines st ∧ s.marks st = true))

/-- Every step of a run is of that kind where it is taken. -/
def AccountsAll (s : Session) (steps : List Step) : Prop := Along step Accounts s steps

instance (s : Session) (steps : List Step) : Decidable (s.AccountsAll steps) :=
  inferInstanceAs (Decidable (Along step Accounts s steps))

/-- The pages are anchored, and what the waiting calls are to store is whole. -/
structure Moored (strict : Bool) (s : Session) : Prop where
  anchored : s.cache.Anchored strict
  whole : ∀ txn call, s.calls.get? txn = some call → call.stage.StoresWhole

theorem moored_new (config : Config) (log : Option WriteLog) (strict : Bool) :
    (new config log).Moored strict where
  anchored := Cache.anchored_new config log strict
  whole _ _ hcall := by cases hcall

theorem Moored.of_cache (h : s.Moored strict) {c : Cache} (hc : c.Anchored strict) :
    Moored strict { s with cache := c } := ⟨hc, h.whole⟩

theorem Moored.enter (h : s.Moored strict) (txn : TransactionId) (name : Option String)
    {c : Cache} {result : Cache × Progress} (hr : c.Rests strict result) :
    (s.enter txn name result).1.Moored strict := by
  constructor
  · rw [cache_enter]
    exact hr.anchored
  · intro u call hcall
    rw [calls_enter] at hcall
    split at hcall
    · obtain ⟨d, outcome | ⟨page, stage⟩⟩ := result
      · cases hcall
      · cases hcall
        exact hr.whole page stage rfl
    · exact h.whole u call hcall

theorem Moored.resume (h : s.Moored strict) (hroom : s.cache.HasRoom) (txn : TransactionId)
    (hmarks : strict = true → ∀ call, s.calls.get? txn = some call →
      s.cache.marksAt call.page call.stage = true) : (s.resume txn).1.Moored strict := by
  unfold Session.resume
  split
  · exact h
  · rename_i call hcall
    split
    · exact h.of_cache (h.anchored.setLocks _)
    · rename_i locks r _
      exact h.enter txn call.iterator
        ((h.anchored.setLocks locks).brought txn call.page (fun _ => hroom) (h.whole _ _ hcall)
          fun hstrict => hmarks hstrict call hcall)

theorem Moored.expire (h : s.Moored strict) (txn : TransactionId)
    (hroom : ∀ call, s.calls.get? txn = some call → call.stage.seeks = true → s.cache.HasRoom)
    (hmarks : strict = true → ∀ call, s.calls.get? txn = some call →
      s.cache.marksAt call.page call.stage = true) : (s.expire txn).1.Moored strict := by
  unfold Session.expire
  split
  · exact h
  · rename_i call hcall
    have hwhole := h.whole _ _ hcall
    split
    · rename_i locks r _
      exact h.enter txn call.iterator
        ((h.anchored.setLocks locks).brought txn call.page (hroom call hcall) hwhole
          fun hstrict => hmarks hstrict call hcall)
    · rename_i locks r _ _
      exact h.enter txn call.iterator
        ((h.anchored.setLocks locks).proceed txn (hroom call hcall) hwhole nofun
          fun _ => nofun)

theorem Moored.submit (h : s.Moored strict) (hroom : s.cache.HasRoom) (txn : TransactionId)
    (name : Option String) {op : Operation} (whole : op.StoresWhole)
    (hmarks : strict = true → s.cache.marks op = true) :
    (s.submit txn name op).1.Moored strict := by
  rcases s.submit_cases txn name op with ⟨-, he⟩ | ⟨-, s₁, answer, henter, hcase⟩
  · rw [he]
    exact h
  · have hr := h.anchored.start hroom txn whole hmarks
    have hmoored := h.enter txn name hr
    have hcache := s.cache_enter txn name (s.cache.start txn op)
    have hcalls := s.calls_enter txn name (s.cache.start txn op) txn
    rw [henter] at hmoored hcache hcalls
    rcases hcase with he | ⟨-, he⟩ <;> rw [he]
    · exact hmoored
    · rw [if_pos rfl] at hcalls
      rcases hs : s.cache.start txn op with ⟨d, outcome | ⟨page, stage⟩⟩ <;>
        rw [hs] at hcache hcalls hr
      · apply hmoored.expire txn <;> simp [hcalls, Progress.unfinished]
      · have hcall : ∀ call, s₁.calls.get? txn = some call → call = ⟨page, stage, name⟩ := by
          intro call hcall
          rw [hcalls] at hcall
          exact (Option.some.inj hcall).symm
        apply hmoored.expire txn
        · intro call hsome hseeks
          rw [hcall call hsome] at hseeks
          rw [hcache]
          exact (hr.files page stage rfl hseeks).hasRoom hroom
        · intro hstrict call hsome
          rw [hcall call hsome, hcache]
          exact hr.marks hstrict page stage rfl

theorem Moored.of_same (h : s.Moored strict) {s' : Session} (hcache : s'.cache = s.cache)
    (hcalls : s'.calls = s.calls) : s'.Moored strict := by
  constructor
  · rw [hcache]
    exact h.anchored
  · rw [hcalls]
    exact h.whole

/-- A call that goes on does not spoil its page, if the step spoils none. -/
theorem marksAt_of_marks
    (h : (s.calls.get? txn).all (fun call => s.cache.marksAt call.page call.stage) = true)
    (call : WaitingCall) (hcall : s.calls.get? txn = some call) :
    s.cache.marksAt call.page call.stage = true := by
  rw [hcall, Option.all_some] at h
  exact h

theorem Moored.step (h : s.Moored strict) (hst : s.Confines st)
    (hmarks : strict = true → s.marks st = true) : (s.step st).Moored strict := by
  cases st with
  | act a =>
    have hroom := hasRoom_of_values hst.1
    cases a with
    | submit txn name op => exact h.submit hroom txn name hst.2 hmarks
    | resume txn => exact h.resume hroom txn fun hstrict => marksAt_of_marks (hmarks hstrict)
    | expire txn =>
      exact h.expire txn (fun _ _ _ => hroom) fun hstrict => marksAt_of_marks (hmarks hstrict)
    | commit txn => exact h.of_cache (h.anchored.commit txn)
    | abort txn => exact h.of_cache (h.anchored.abort txn)
    | allocate table => exact h.of_cache (h.anchored.allocate hroom table)
    | unpin page => exact h.of_cache (h.anchored.setPinned page false)
    | addTable file =>
      simp only [Session.step, Session.perform]
      split
      · rename_i c hadd
        exact h.of_cache (h.anchored.addTable hadd)
      · exact h
    | evict =>
      simp only [Session.step, Session.perform]
      split
      · rename_i c page hevict
        exact h.of_cache (h.anchored.evict hevict)
      · exact h
    | openIterator txn name table =>
      obtain ⟨hcache, hcalls⟩ := s.openIterator_same txn name table
      exact h.of_same hcache hcalls
    | rewindIterator name =>
      obtain ⟨hcache, hcalls⟩ := s.rewindIterator_same name
      exact h.of_same hcache hcalls
  | flush page => exact h.of_cache (h.anchored.flush page)
  | flushAll => exact h.of_cache (h.anchored.flushList s.cache.resident.keys)
  | discard page => exact h.of_cache (h.anchored.discard page)
  | release txn page => exact h.of_cache (h.anchored.setLocks _)
  | overwrite file => exact hst.elim

theorem Moored.confined (h : s.Moored false) (hst : s.Confines st) : (s.step st).Moored false :=
  h.step hst fun hstrict => by cases hstrict

theorem Moored.accounted (h : s.Moored true) (hst : s.Accounts st) : (s.step st).Moored true :=
  h.step hst.1 fun _ => hst.2

end Session

end PageCache
