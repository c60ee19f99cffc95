-- Nothing is left of a transaction that has ended. In every run in which locks are kept to the end
-- and pages are changed through the store, also where files fail or are written by others, a
-- mark on a resident page is guarded by a lock for writing; so a commit that succeeds, and every
-- abort, finds all of the transaction's marks, and takes its locks and nobody else's.
import PageCache.Proofs.Cache.Moves
import PageCache.Proofs.Session.Upkeep

namespace PageCache

namespace Session

variable {s s' s'' : Session} {txn u : TransactionId} {page : PageId} {gives : Bool}
  {config : Config} {log : Option WriteLog} {steps : List Step}

/-- A step of users who change pages through the store, end a transaction only while it has no
unfinished call, and let it keep its locks until then. The files may be in any state. -/
def Tolerates (s : Session) : Step → Prop
  | .act (.submit _ _ op) => op.edits = false
  | .act (.commit txn) | .act (.abort txn) => s.isBusy txn = false
  | .release .. => False
  | _ => True

instance (s : Session) (st : Step) : Decidable (s.Tolerates st) :=
  match st with
  | .act (.submit _ _ op) => inferInstanceAs (Decidable (op.edits = false))
  | .act (.commit txn) | .act (.abort txn) => inferInstanceAs (Decidable (s.isBusy txn = false))
  | .release .. => instDecidableFalse
  | .act (.addTable _) | .act (.allocate _) | .act (.resume _) | .act (.expire _) | .act .evict |
    .act (.unpin _) | .act (.openIterator ..) | .act (.rewindIterator _) | .flush _ | .flushAll |
    .discard _ | .overwrite _ => instDecidableTrue

/-- Users who only insert and delete do not edit. -/
theorem tolerates_of_admits {a : Action} (ha : s.Admits a) : s.Tolerates (.act a) := by
  obtain ⟨-, ha⟩ := ha
  cases a with
  | submit u name op => exact Operation.IsPlain.edits_eq ha
  | commit u => exact ha
  | abort u => exact ha
  | _ => trivial

/-- Every step of a run is tolerated where it is taken. -/
def ToleratesAll (s : Session) (steps : List Step) : Prop := Along step Tolerates s steps

instance (s : Session) (steps : List Step) : Decidable (s.ToleratesAll steps) :=
  inferInstanceAs (Decidable (Along step Tolerates s steps))

/-- The marks are guarded, and the calls that wait are those with a request for a lock, for the
page and in the way that they need it. -/
structure Steady (s : Session) : Prop where
  guarded : s.cache.Guarded
  idle_iff : ∀ txn, s.calls.get? txn = none ↔ s.cache.locks.pending.get? txn = none
  waits : ∀ txn call r, s.calls.get? txn = some call → s.cache.locks.pending.get? txn = some r →
    r.page = call.page ∧ call.stage.Asks r.access
  unedited : ∀ txn call, s.calls.get? txn = some call → call.stage.edits = false

/-- A call of the transaction has gone on: nobody has lost a lock, but for the transaction
itself, if it gives locks back; the others that wait have got none, and their calls are as they
were. -/
structure Passes (txn : TransactionId) (gives : Bool) (s s' : Session) : Prop where
  steady : s'.Steady
  kept : ∀ u page, (u = txn → gives = false) → s.cache.holds u page = true →
    s'.cache.holds u page = true
  others : ∀ u, u ≠ txn → s'.calls.get? u = s.calls.get? u
  idle : ∀ u page, u ≠ txn → s.calls.get? u ≠ none → s'.cache.holds u page = true →
    s.cache.holds u page = true
  seeks : ∀ call, s'.calls.get? txn = some call → call.stage.seeks = true → gives = true

theorem steady_new (config : Config) (log : Option WriteLog) : (new config log).Steady where
  guarded := Cache.guarded_new config log
  idle_iff _ := iff_of_true rfl rfl
  waits _ _ _ hcall := by cases hcall
  unedited _ _ hcall := by cases hcall

theorem Steady.poised (h : s.Steady) (hcall : s.calls.get? txn = none) : s.cache.Poised txn :=
  ⟨h.guarded, (h.idle_iff txn).1 hcall⟩

/-- The calls and their requests stay as they are. -/
theorem Steady.of_same_calls (h : s.Steady) (hguarded : s'.cache.Guarded)
    (hcalls : s'.calls = s.calls) (hpend : s'.cache.locks.pending = s.cache.locks.pending) :
    s'.Steady where
  guarded := hguarded
  idle_iff u := by
    rw [hcalls, hpend]
    exact h.idle_iff u
  waits u call r := by
    rw [hcalls, hpend]
    exact h.waits u call r
  unedited := by
    rw [hcalls]
    exact h.unedited

theorem Steady.of_same (h : s.Steady) (hcache : s'.cache = s.cache) (hcalls : s'.calls = s.calls) :
    s'.Steady := by
  apply h.of_same_calls _ hcalls
  · rw [hcache]
  · rw [hcache]
    exact h.guarded

theorem Steady.of_fades (h : s.Steady) {c : Cache} (hfades : s.cache.Fades c) :
    Steady { s with cache := c } :=
  h.of_same_calls (h.guarded.of_fades hfades) rfl (congrArg Locking.pending hfades.locks_eq)

/-! ## Calls -/

/-- A call and a request of one transaction change; its own call and its own request still
belong together. -/
theorem Steady.of_moves (h : s.Steady) (hmoves : s.cache.Moves txn gives s'.cache)
    (hothers : ∀ u, u ≠ txn → s'.calls.get? u = s.calls.get? u)
    (hown : (s'.calls.get? txn = none ∧ s'.cache.locks.pending.get? txn = none) ∨
      ∃ call r, s'.calls.get? txn = some call ∧ s'.cache.locks.pending.get? txn = some r ∧
        r.page = call.page ∧ call.stage.Asks r.access ∧ call.stage.edits = false ∧
        (call.stage.seeks = true → gives = true)) : s.Passes txn gives s' := by
  refine ⟨⟨hmoves.guarded, ?_, ?_, ?_⟩, hmoves.kept, hothers, fun u page hu hwaits => ?_, ?_⟩
  · intro u
    by_cases hu : u = txn
    · subst hu
      rcases hown with ⟨hnone, hidle⟩ | ⟨call, r, hcall, hpend, -⟩
      · exact iff_of_true hnone hidle
      · simp [hcall, hpend]
    · rw [hothers u hu, hmoves.others u hu]
      exact h.idle_iff u
  · intro u call r hcall hpend
    by_cases hu : u = txn
    · subst hu
      rcases hown with ⟨hnone, -⟩ | ⟨call', r', hcall', hpend', hpage, hasks, -⟩
      · rw [hnone] at hcall
        cases hcall
      · rw [hcall'] at hcall
        rw [hpend'] at hpend
        cases hcall
        cases hpend
        exact ⟨hpage, hasks⟩
    · rw [hothers u hu] at hcall
      rw [hmoves.others u hu] at hpend
      exact h.waits u call r hcall hpend
  · intro u call hcall
    by_cases hu : u = txn
    · subst hu
      rcases hown with ⟨hnone, -⟩ | ⟨call', r', hcall', -, -, -, hplain, -⟩
      · rw [hnone] at hcall
        cases hcall
      · rw [hcall'] at hcall
        cases hcall
        exact hplain
    · rw [hothers u hu] at hcall
      exact h.unedited u call hcall
  · exact hmoves.idle u page hu fun hnone => hwaits ((h.idle_iff u).2 hnone)
  · intro call hcall hseeks
    rcases hown with ⟨hnone, -⟩ | ⟨call', r', hcall', -, -, -, -, hgives⟩
    · rw [hnone] at hcall
      cases hcall
    · rw [hcall'] at hcall
      cases hcall
      exact hgives hseeks

theorem Steady.enter (h : s.Steady) (name : Option String) {result : Cache × Progress}
    (hgoes : s.cache.Goes txn gives result) : s.Passes txn gives (s.enter txn name result).1 := by
  have hcache := s.cache_enter txn name result
  have hcalls := s.calls_enter txn name result
  have hothers : ∀ u, u ≠ txn → (s.enter txn name result).1.calls.get? u = s.calls.get? u :=
    fun u hu => (hcalls u).trans (if_neg hu)
  have hown := (hcalls txn).trans (if_pos rfl)
  obtain ⟨c, outcome | ⟨page, stage⟩⟩ := result
  · obtain ⟨hmoves, hidle⟩ := hgoes
    refine h.of_moves ?_ hothers (Or.inl ⟨hown, ?_⟩) <;> rw [hcache]
    · exact hmoves
    · exact hidle
  · obtain ⟨hmoves, hplain, hgives, r, hr, hpage, hasks⟩ := hgoes
    exact h.of_moves hmoves hothers (Or.inr ⟨_, r, hown, hr, hpage, hasks, hplain, hgives⟩)

/-- A call whose lock was granted goes on with its page. -/
theorem Steady.goes_granted (h : s.Steady) {call : WaitingCall}
    (hcall : s.calls.get? txn = some call) (hgives : call.stage.seeks = true → gives = true)
    {a : LockAction} (ha : s.cache.locks.Admits a)
    (hturn : s.cache.locks.Turn txn (s.cache.locks.perform a))
    (hfree : ∀ u page, a.frees u page = false)
    (hidle : (s.cache.locks.perform a).pending.get? txn = none) {m : Access}
    (hm : (s.cache.locks.perform a).table.heldMode txn call.page = some m)
    (hasks : call.stage.Asks m) :
    s.cache.Goes txn gives
      ((Cache.bring { s.cache with locks := s.cache.locks.perform a } call.page).1.proceed txn
        call.page call.stage
        (Cache.bring { s.cache with locks := s.cache.locks.perform a } call.page).2) := by
  have hlocked : s.cache.Moves txn gives { s.cache with locks := s.cache.locks.perform a } :=
    h.guarded.moves_locks ha hturn fun u page _ => hfree u page
  obtain ⟨hfades, hpage⟩ :=
    Cache.fades_bring { s.cache with locks := s.cache.locks.perform a } call.page
  have hall := hlocked.trans (hlocked.guarded.moves_of_fades hfades)
  have hpoised := hall.poised (by rw [hfades.locks_eq]; exact hidle)
  refine .after hall (hpoised.goes (h.unedited txn call hcall) hgives call.page _ fun p hp => ?_)
  rw [hfades.locks_eq]
  exact ⟨hpage p hp, m, hm, hasks⟩

theorem Steady.exists_pending (h : s.Steady) {call : WaitingCall}
    (hcall : s.calls.get? txn = some call) :
    ∃ r, s.cache.locks.pending.get? txn = some r ∧ r.page = call.page ∧
      call.stage.Asks r.access := by
  rcases hp : s.cache.locks.pending.get? txn with _ | r
  · rw [(h.idle_iff txn).2 hp] at hcall
    cases hcall
  · exact ⟨r, rfl, h.waits txn call r hcall hp⟩

theorem Passes.refl (h : s.Steady)
    (hgives : ∀ call, s.calls.get? txn = some call → call.stage.seeks = true → gives = true) :
    s.Passes txn gives s :=
  ⟨h, fun _ _ _ hholds => hholds, fun _ _ => rfl, fun _ _ _ _ hholds => hholds, hgives⟩

theorem Passes.trans (h₁ : s.Passes txn gives s') (h₂ : s'.Passes txn gives s'') :
    s.Passes txn gives s'' where
  steady := h₂.steady
  kept u page hu hholds := h₂.kept u page hu (h₁.kept u page hu hholds)
  others u hu := (h₂.others u hu).trans (h₁.others u hu)
  idle u page hu hwaits hholds := by
    apply h₁.idle u page hu hwaits
    exact h₂.idle u page hu (by rw [h₁.others u hu]; exact hwaits) hholds
  seeks := h₂.seeks

theorem Steady.resume (h : s.Steady)
    (hgives : ∀ call, s.calls.get? txn = some call → call.stage.seeks = true → gives = true) :
    s.Passes txn gives (s.resume txn).1 := by
  unfold Session.resume
  split
  · exact .refl h hgives
  · rename_i call hcall
    obtain ⟨r, hr, hpage, hasks⟩ := h.exists_pending hcall
    obtain ⟨hturn, hafter⟩ := h.guarded.reachable.orderly.turn_recheck txn
    have hlocked : s.cache.Moves txn gives
        { s.cache with locks := (s.cache.locks.recheck txn).1 } :=
      h.guarded.moves_locks (a := .recheck txn) trivial hturn fun _ _ _ => rfl
    have hgranted := @Steady.goes_granted s txn gives h call hcall (hgives call hcall)
      (.recheck txn) trivial hturn fun _ _ => rfl
    simp only [Locking.perform] at hgranted
    rcases hre : s.cache.locks.recheck txn with ⟨locks, _ | q⟩ <;>
      rw [hre] at hafter hlocked hgranted
    · refine @Steady.of_moves s { s with cache := { s.cache with locks } } txn gives h hlocked
        (fun _ _ => rfl) (Or.inr ?_)
      exact ⟨call, r, hcall, hafter.trans hr, hpage, hasks, h.unedited txn call hcall,
        hgives call hcall⟩
    · obtain ⟨hq, hidle, hheld⟩ := hafter
      rw [hr, Option.some.injEq] at hq
      subst hq
      rw [hpage] at hheld
      exact h.enter call.iterator (hgranted hidle hheld hasks)

theorem Steady.expire (h : s.Steady)
    (hgives : ∀ call, s.calls.get? txn = some call → call.stage.seeks = true → gives = true) :
    s.Passes txn gives (s.expire txn).1 := by
  unfold Session.expire
  split
  · exact .refl h hgives
  · rename_i call hcall
    obtain ⟨r, hr, hpage, hasks⟩ := h.exists_pending hcall
    obtain ⟨hturn, hidle, granted, hex, hheld⟩ := h.guarded.reachable.orderly.turn_expire hr
    have hlocked : s.cache.Moves txn gives { s.cache with locks := (s.cache.locks.expire txn).1 } :=
      h.guarded.moves_locks (a := .expire txn) trivial hturn fun _ _ _ => rfl
    have hgranted := @Steady.goes_granted s txn gives h call hcall (hgives call hcall)
      (.expire txn) trivial hturn (fun _ _ => rfl) hidle
    simp only [Locking.perform] at hgranted
    rcases hout : s.cache.locks.expire txn with ⟨locks, result⟩
    rw [hout] at hidle hex hheld hlocked hgranted
    simp only at hex
    subst hex
    cases granted with
    | true =>
      have hm := hheld rfl
      rw [hpage] at hm
      exact h.enter call.iterator (hgranted hm hasks)
    | false =>
      have hpoised := hlocked.poised hidle
      apply h.enter call.iterator
      refine .after hlocked (hpoised.goes (h.unedited txn call hcall) (hgives call hcall)
        call.page _ fun p hp => ?_)
      cases hp

theorem Steady.submit (h : s.Steady) (name : Option String) {op : Operation}
    (hplain : op.edits = false) :
    (s.isBusy txn = true ∧ (s.submit txn name op).1 = s) ∨
      s.Passes txn op.seeks (s.submit txn name op).1 := by
  rcases s.submit_cases txn name op with ⟨hbusy, he⟩ | ⟨hcall, s₁, answer, henter, hcase⟩
  · rw [he]
    exact Or.inl ⟨hbusy, rfl⟩
  · right
    have hpasses := h.enter name ((h.poised hcall).goes_start hplain)
    rw [henter] at hpasses
    rcases hcase with he | ⟨-, he⟩ <;> rw [he]
    · exact hpasses
    · exact hpasses.trans (hpasses.steady.expire hpasses.seeks)

/-! ## All steps -/

theorem Steady.idle (h : s.Steady) (hbusy : s.isBusy txn = false) :
    s.cache.locks.pending.get? txn = none :=
  (h.idle_iff txn).1 (isBusy_eq_false_iff.1 hbusy)

/-- An end takes away what its transaction holds, but no request. -/
theorem Steady.of_commit (h : s.Steady) (hbusy : s.isBusy txn = false) :
    Steady { s with cache := (s.cache.commit txn).1 } := by
  refine h.of_same_calls (h.guarded.of_commit (h.idle hbusy)) rfl ?_
  obtain ⟨hfades, -⟩ := Cache.Placed.writeBackAll h.guarded.placed txn (s.cache.heldPages txn)
  have hpend := congrArg Locking.pending hfades.locks_eq
  change (s.cache.commit txn).1.locks.pending = s.cache.locks.pending
  unfold Cache.commit
  rcases hw : Cache.writeBackAll txn (s.cache.heldPages txn) s.cache with ⟨d, e | _⟩ <;>
    rw [hw] at hpend
  · exact hpend
  · exact hpend

theorem Steady.of_abort (h : s.Steady) (hbusy : s.isBusy txn = false) :
    Steady { s with cache := (s.cache.abort txn).1 } := by
  refine h.of_same_calls (h.guarded.of_abort (h.idle hbusy)) rfl ?_
  have hfades := (Cache.Placed.reloadAll h.guarded.placed (s.cache.heldPages txn) none).fades
  have hpend := congrArg Locking.pending hfades.locks_eq
  exact hpend

theorem Steady.perform (h : s.Steady) {a : Action} (ha : s.Tolerates (.act a)) :
    (s.perform a).1.Steady := by
  cases a with
  | addTable file =>
    simp only [Session.perform]
    split
    · rename_i c hadd
      exact h.of_fades (.addTable hadd)
    · exact h
  | allocate table => exact h.of_fades (.allocate _ _)
  | submit txn name op =>
    rcases @Steady.submit s txn h name op ha with ⟨-, hsame⟩ | hpasses
    · simp only [Session.perform]
      rw [hsame]
      exact h
    · exact hpasses.steady
  | resume txn =>
    have hpasses : s.Passes txn true (s.resume txn).1 := h.resume fun _ _ _ => rfl
    exact hpasses.steady
  | expire txn =>
    have hpasses : s.Passes txn true (s.expire txn).1 := h.expire fun _ _ _ => rfl
    exact hpasses.steady
  | commit txn => exact h.of_commit ha
  | abort txn => exact h.of_abort ha
  | evict =>
    simp only [Session.perform]
    split
    · rename_i c page hevict
      exact h.of_fades (.evict hevict)
    · exact h
  | unpin page => exact h.of_fades (.setPinned _ _ _)
  | openIterator txn name table =>
    obtain ⟨hcache, hcalls⟩ := s.openIterator_same txn name table
    exact h.of_same hcache hcalls
  | rewindIterator name =>
    obtain ⟨hcache, hcalls⟩ := s.rewindIterator_same name
    exact h.of_same hcache hcalls

theorem Steady.step (h : s.Steady) {st : Step} (hst : s.Tolerates st) : (s.step st).Steady := by
  cases st with
  | act a => exact h.perform hst
  | flush page => exact h.of_fades (Cache.Placed.flush h.guarded.placed page)
  | flushAll =>
    exact h.of_fades (Cache.Placed.flushList h.guarded.placed s.cache.resident.keys)
  | discard page => exact h.of_fades (.discard s.cache page)
  | release txn page => exact hst.elim
  | overwrite file => exact h.of_fades (.setTable s.cache file)

/-! ## The law -/

/-- **No residue after a transaction ends.** After any run of calls, ends, flushes, drops and
changes of files from outside, in any order: a commit that succeeds and every abort, whether it
can read the pages again or not, rid the cache of the transaction. It holds no lock, waits for
none and has marked no resident page; the locks, the requests and the marks of the others are as
they were. -/
theorem no_residue (hsteps : (new config log).ToleratesAll steps)
    (hidle : ((new config log).after steps).isBusy txn = false) :
    ((((new config log).after steps).perform (.commit txn)).2 = .ended (.ok ()) →
        ((new config log).after steps).cache.Rid txn
          (((new config log).after steps).perform (.commit txn)).1.cache) ∧
      ((new config log).after steps).cache.Rid txn
        (((new config log).after steps).perform (.abort txn)).1.cache := by
  have hsteady : ((new config log).after steps).Steady :=
    hsteps.induction (steady_new config log) fun _ _ h => h.step
  refine ⟨fun hreport => ?_, hsteady.guarded.abort (hsteady.idle hidle)⟩
  apply hsteady.guarded.commit_ok (hsteady.idle hidle)
  exact Report.ended.inj hreport

/-- A table of short notes on pages of four bytes, with one note on a page. -/
def notes : Schema := ⟨[⟨"note", .varChar 1⟩]⟩

def noteFile (table : TableId) (file : SparseFile) (pageCount : UInt32) : TableFile :=
  ⟨table, notes, ⟨file, 4, pageCount, 0, 0⟩⟩

/-- Two transactions write a note each, in tables of their own, and a third one waits to read the
first note. Then the first file is torn: the note that stands there is longer than a note can be. -/
def tornBehind : List Step :=
  [.act (.addTable (noteFile ⟨1⟩ .empty 0)),
    .act (.addTable (noteFile ⟨2⟩ .empty 0)),
    .act (.submit ⟨1⟩ none (.insert ⟨⟨1⟩, ⟨notes, [.text ""], none⟩, true⟩)),
    .act (.submit ⟨2⟩ none (.insert ⟨⟨2⟩, ⟨notes, [.text ""], none⟩, true⟩)),
    .act (.submit ⟨3⟩ none (.scan ⟨1⟩)),
    .overwrite (noteFile ⟨1⟩ ⟨4, [⟨0, [1, 0, 9, 0]⟩]⟩ 1)]

/-- The abort of the first transaction fails, the commit of the second one does not, and neither
leaves anything behind. -/
theorem no_residue_on_torn_page :
    (((new ⟨4, 1, none⟩ none).after tornBehind).perform (.abort ⟨1⟩)).2 =
        .ended (.error (.corruptPage ⟨⟨1⟩, 0⟩ (.unreadableSlot 0))) ∧
      ((new ⟨4, 1, none⟩ none).after tornBehind).cache.Rid ⟨1⟩
        (((new ⟨4, 1, none⟩ none).after tornBehind).perform (.abort ⟨1⟩)).1.cache ∧
      (((new ⟨4, 1, none⟩ none).after tornBehind).perform (.commit ⟨2⟩)).2 = .ended (.ok ()) ∧
      ((new ⟨4, 1, none⟩ none).after tornBehind).cache.Rid ⟨2⟩
        (((new ⟨4, 1, none⟩ none).after tornBehind).perform (.commit ⟨2⟩)).1.cache := by
  have hsteps : (new ⟨4, 1, none⟩ none).ToleratesAll tornBehind := by decide +kernel
  have hcommit : (((new ⟨4, 1, none⟩ none).after tornBehind).perform (.commit ⟨2⟩)).2 =
      .ended (.ok ()) := by decide +kernel
  exact ⟨by decide +kernel, (no_residue hsteps (by decide +kernel)).2, hcommit,
    (no_residue hsteps (by decide +kernel)).1 hcommit⟩

end Session

end PageCache
