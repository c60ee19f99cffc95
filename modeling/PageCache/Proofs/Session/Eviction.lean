-- Runs in which no page stays pinned. After every one of them the resident pages are those whose
-- uses are known, and the page that goes is the least recently used one of those that may go.
import PageCache.Proofs.Cache.TrackedCalls
import PageCache.Proofs.Session.Upkeep

namespace PageCache

/-- A step of a user who keeps a page pinned. -/
def Step.pins : Step → Bool
  | .act (.submit _ _ op) => op.pins
  | _ => false

namespace Session

variable {s : Session} {n : Nat} {txn : TransactionId} {config : Config} {log : Option WriteLog}
  {steps : List Step}

/-- The pages are tracked, and no call waits for a pin. -/
structure Unpinned (s : Session) (n : Nat) : Prop where
  tracked : s.cache.Tracked n
  no_pin : ∀ txn call, s.calls.get? txn = some call → call.stage.pins = false

theorem unpinned_new (config : Config) (log : Option WriteLog) :
    (new config log).Unpinned config.capacity where
  tracked := Cache.tracked_new config log
  no_pin _ _ hcall := by cases hcall

theorem Unpinned.of_cache (h : s.Unpinned n) {c : Cache} (hc : c.Tracked n) :
    Unpinned { s with cache := c } n := ⟨hc, h.no_pin⟩

/-! ## Calls -/

theorem Unpinned.moveIterator (h : s.Unpinned n) (txn : TransactionId) (name : Option String)
    (outcome : Outcome) : (s.moveIterator txn name outcome).Unpinned n := by
  unfold Session.moveIterator
  split
  · exact ⟨h.tracked, h.no_pin⟩
  · exact h

theorem Unpinned.enter (h : s.Unpinned n) (txn : TransactionId) (name : Option String)
    {result : Cache × Progress} (hresult : Cache.Keeps n result) :
    (s.enter txn name result).1.Unpinned n := by
  obtain ⟨c, outcome | ⟨page, stage⟩⟩ := result
  · refine Unpinned.moveIterator ⟨hresult.tracked, ?_⟩ txn name outcome
    intro u call hcall
    rw [FinMap.get?_erase] at hcall
    split at hcall
    · cases hcall
    · exact h.no_pin u call hcall
  · refine ⟨hresult.tracked, ?_⟩
    intro u call hcall
    simp only [Session.enter, FinMap.get?_insert] at hcall
    split at hcall
    · cases hcall
      exact hresult.no_pin page stage rfl
    · exact h.no_pin u call hcall

theorem Unpinned.resume (h : s.Unpinned n) (txn : TransactionId) :
    (s.resume txn).1.Unpinned n := by
  unfold Session.resume
  split
  · exact h
  · rename_i call hcall
    rcases s.cache.locks.recheck txn with ⟨locks, _ | p⟩
    · exact h.of_cache (h.tracked.of_same rfl rfl rfl)
    · have hlocks : ({ s.cache with locks } : Cache).Tracked n := h.tracked.of_same rfl rfl rfl
      exact h.enter txn _ ((hlocks.bring _).proceed txn _ (h.no_pin txn call hcall) _)

theorem Unpinned.expire (h : s.Unpinned n) (txn : TransactionId) :
    (s.expire txn).1.Unpinned n := by
  unfold Session.expire
  split
  · exact h
  · rename_i call hcall
    have hstage := h.no_pin txn call hcall
    split
    · rename_i locks p _
      have hlocks : ({ s.cache with locks } : Cache).Tracked n := h.tracked.of_same rfl rfl rfl
      exact h.enter txn _ ((hlocks.bring _).proceed txn _ hstage _)
    · rename_i locks _ _ _
      have hlocks : ({ s.cache with locks } : Cache).Tracked n := h.tracked.of_same rfl rfl rfl
      exact h.enter txn _ (hlocks.proceed txn _ hstage _)

theorem Unpinned.submit (h : s.Unpinned n) (txn : TransactionId) (name : Option String)
    {op : Operation} (hop : op.pins = false) : (s.submit txn name op).1.Unpinned n := by
  rcases s.submit_cases txn name op with ⟨-, he⟩ | ⟨-, s₁, answer, henter, hcase⟩
  · rw [he]
    exact h
  · have hentered := h.enter txn name (h.tracked.start txn hop)
    rw [henter] at hentered
    rcases hcase with he | ⟨-, he⟩ <;> rw [he]
    · exact hentered
    · exact hentered.expire txn

theorem Unpinned.of_same (h : s.Unpinned n) {s' : Session} (hcache : s'.cache = s.cache)
    (hcalls : s'.calls = s.calls) : s'.Unpinned n where
  tracked := by
    rw [hcache]
    exact h.tracked
  no_pin := by
    rw [hcalls]
    exact h.no_pin

/-! ## All steps -/

theorem Unpinned.perform (h : s.Unpinned n) {a : Action} (ha : (Step.act a).pins = false) :
    (s.perform a).1.Unpinned n := by
  cases a with
  | addTable file =>
    unfold Session.perform
    simp only
    split
    · rename_i c hadd
      exact h.of_cache (h.tracked.addTable hadd)
    · exact h
  | allocate table => exact h.of_cache (h.tracked.allocate table)
  | submit txn name op => exact h.submit txn name ha
  | resume txn => exact h.resume txn
  | expire txn => exact h.expire txn
  | commit txn => exact h.of_cache (h.tracked.commit txn)
  | abort txn => exact h.of_cache (h.tracked.abort txn)
  | evict =>
    unfold Session.perform
    simp only
    split
    · rename_i c page he
      exact h.of_cache (h.tracked.evict he)
    · exact h
  | unpin page => exact h.of_cache (h.tracked.setPinned_false page)
  | openIterator txn name table =>
    obtain ⟨hcache, hcalls⟩ := s.openIterator_same txn name table
    exact h.of_same hcache hcalls
  | rewindIterator name =>
    obtain ⟨hcache, hcalls⟩ := s.rewindIterator_same name
    exact h.of_same hcache hcalls

theorem Unpinned.step (h : s.Unpinned n) {st : Step} (hst : st.pins = false) :
    (s.step st).Unpinned n := by
  cases st with
  | act a => exact h.perform hst
  | flush page => exact h.of_cache (h.tracked.flush page)
  | flushAll => exact h.of_cache (h.tracked.flushList s.cache.resident.keys)
  | discard page => exact h.of_cache (h.tracked.discard page)
  | release txn page => exact h.of_cache (h.tracked.of_same rfl rfl rfl)
  | overwrite file => exact h.of_cache (h.tracked.setTable file)

theorem Unpinned.after (h : s.Unpinned n) (hsteps : ∀ st ∈ steps, st.pins = false) :
    (s.after steps).Unpinned n := by
  induction steps generalizing s with
  | nil => exact h
  | cons st rest ih =>
    exact ih (h.step (hsteps st List.mem_cons_self))
      fun st' hmem => hsteps st' (List.mem_cons_of_mem _ hmem)

/-! ## The law -/

theorem Unpinned.perform_evict (h : s.Unpinned n) :
    (∀ victim, s.cache.IsVictim victim → s.perform .evict =
      ({ s with cache := s.cache.without victim }, .evicted (.ok victim))) ∧
    ((∀ page, ¬ s.cache.IsSpare page) →
      s.perform .evict = (s, .evicted (.error (.cacheFull n)))) := by
  unfold Session.perform
  constructor
  · intro victim hvictim
    simp only [h.tracked.evict_victim hvictim]
  · intro hnone
    simp only [h.tracked.evict_none hnone]

/-- After every run in which no page stays pinned, the pages with known uses are the resident
ones, no more than the cache has places. As long as there is a resident page that is clean and
that no transaction has locked for writing, one of these is to go rather than all others, and
that page goes, alone; otherwise there is a failure, and all pages and uses stay. It is the same
when a page is let go as such, and when one is brought into the full cache once its lock is
granted, whatever `locks` there are then. A call that comes to several pages comes past the
caches that single fetches would leave. -/
theorem least_recently_used_page_goes (hsteps : ∀ st ∈ steps, st.pins = false) :
    let s := (new config log).after steps
    let n := config.capacity
    (∀ page, s.cache.uses.tracks page = s.cache.resident.contains page) ∧
    s.cache.resident.size ≤ n ∧
    (∀ victim, s.cache.IsVictim victim → s.perform .evict =
      ({ s with cache := s.cache.without victim }, .evicted (.ok victim))) ∧
    ((∀ page, ¬ s.cache.IsSpare page) →
      s.perform .evict = (s, .evicted (.error (.cacheFull n)))) ∧
    ∀ locks, let c : Cache := { s.cache with locks }
      (∀ page, c.IsSpare page → ∃ victim, c.IsVictim victim) ∧
      ∀ page p, c.resident.size = n → c.resident.get? page = none →
        (c.readPage page.table page).2 = .ok p →
        (∀ victim, c.IsVictim victim → (c.bring page).2 = .ok p ∧
          (c.bring page).1.resident = (c.resident.erase victim).insert page ⟨p, false⟩ ∧
          (c.bring page).1.uses = (c.uses.remove victim).access page) ∧
        ((∀ other, ¬ c.IsSpare other) → (c.bring page).2 = .error (.cacheFull n) ∧
          (c.bring page).1.resident = c.resident ∧ (c.bring page).1.uses = c.uses) := by
  have h := (unpinned_new config log).after hsteps
  obtain ⟨hgoes, hstays⟩ := h.perform_evict
  refine ⟨h.tracked.tracks_eq, h.tracked.size_le, hgoes, hstays, fun locks => ?_⟩
  have hc : ({ ((new config log).after steps).cache with locks } : Cache).Tracked config.capacity :=
    h.tracked.of_same rfl rfl rfl
  exact ⟨fun _ hspare => hc.exists_victim hspare,
    fun _ _ hfull hmiss hread => hc.bring_full hfull hmiss hread⟩

/-- Of three pages a transaction looks at the first one twice and at the second one once. -/
def lookedAtTwice : List Step :=
  [.act (.addTable (flagFile .empty 0 0 0)),
    .act (.allocate ⟨1⟩), .act (.allocate ⟨1⟩), .act (.allocate ⟨1⟩),
    .act (.submit ⟨1⟩ none (.fetch flagPage .readOnly .view)),
    .act (.submit ⟨1⟩ none (.fetch flagPage .readOnly .view)),
    .act (.submit ⟨1⟩ none (.fetch ⟨⟨1⟩, 1⟩ .readOnly .view)),
    .act (.commit ⟨1⟩)]

/-- Where two uses count, the second page goes, though it was used last. -/
theorem page_used_once_goes :
    let s := (new ⟨2, 2, none⟩ none).after lookedAtTwice
    s.perform .evict =
        ({ s with cache := s.cache.without ⟨⟨1⟩, 1⟩ }, .evicted (.ok ⟨⟨1⟩, 1⟩)) ∧
      (s.cache.bring ⟨⟨1⟩, 2⟩).1.resident = (s.cache.resident.erase ⟨⟨1⟩, 1⟩).insert ⟨⟨1⟩, 2⟩
        ⟨⟨⟨⟨1⟩, 2⟩, flags, 2, #[none], List.replicate 7 false, none, [0, 0]⟩, false⟩ := by
  intro s
  have hresident : s.cache.resident.keys = [flagPage, ⟨⟨1⟩, 1⟩] := by decide +kernel
  have hunlocked : s.cache.locks = .empty := by decide +kernel
  have hvictim : s.cache.IsVictim ⟨⟨1⟩, 1⟩ := by
    refine ⟨⟨⟨⟨⟨⟨1⟩, 1⟩, flags, 2, #[none], List.replicate 7 false, none, [0, 0]⟩,
      by decide +kernel, rfl⟩, fun txn hheld => ?_⟩, fun other hspare hne => ?_⟩
    · rw [hunlocked] at hheld
      cases hheld
    · have hmem := (FinMap.mem_keys_iff _ _).2 ((FinMap.contains_iff _ _).1 hspare.contains)
      rw [hresident] at hmem
      obtain rfl : other = flagPage := by simpa [hne] using hmem
      have honce : s.cache.uses.kthLast ⟨⟨1⟩, 1⟩ = none := by decide +kernel
      have htwice : s.cache.uses.kthLast flagPage = some 0 := by decide +kernel
      rw [LruK.Outranks, honce, htwice]
      trivial
  obtain ⟨-, -, hgoes, -, hmiss⟩ :=
    @least_recently_used_page_goes ⟨2, 2, none⟩ none lookedAtTwice (by decide)
  refine ⟨hgoes _ hvictim, ?_⟩
  exact (((hmiss s.cache.locks).2 ⟨⟨1⟩, 2⟩ _ (by decide +kernel) (by decide +kernel)
    (by decide +kernel)).1 _ hvictim).2.1

end Session

end PageCache
