-- What a call of a transaction can do where nothing is known of the files: marks stay guarded,
-- the others keep their locks and their requests, and it keeps its own locks unless it looks for
-- an empty slot. It waits with a request for the page that it goes on with.
import PageCache.Proofs.Cache.Calls
import PageCache.Proofs.Cache.Guards

namespace PageCache

/-- The page itself is changed, past the store's own insertions and deletions. -/
def Stage.edits : Stage → Bool
  | .use purpose => purpose.edits
  | _ => false

/-- The page itself is changed, past the store's own insertions and deletions. -/
def Operation.edits : Operation → Bool
  | .fetch _ _ purpose => purpose.edits
  | _ => false

/-- Who only inserts and deletes does not edit. -/
theorem Operation.IsPlain.edits_eq {op : Operation} (h : op.IsPlain) : op.edits = false := by
  cases op with
  | fetch page access purpose => exact h
  | _ => rfl

/-- The operation looks for an empty slot. -/
def Operation.seeks : Operation → Bool
  | .insert _ => true
  | _ => false

namespace HeapPage

theorem id_of_insert {p q : HeapPage} {r : Record} {place : RecordId}
    (h : p.insert r = .ok (q, place)) : q.id = p.id := by
  unfold insert at h
  split at h
  · cases h
  · split at h
    · cases h
    · cases h
      rfl

theorem id_of_delete {p q : HeapPage} {location : Option RecordId}
    (h : p.delete location = .ok q) : q.id = p.id := by
  obtain ⟨_, -, rfl, -⟩ := delete_ok h
  rfl

end HeapPage

namespace Cache

variable {c c' d : Cache} {page : PageId} {p q : HeapPage} {txn u : TransactionId} {gives : Bool}

/-- The marks are guarded, and the transaction waits for nothing. -/
structure Poised (txn : TransactionId) (c : Cache) : Prop where
  guarded : c.Guarded
  idle : c.locks.pending.get? txn = none

/-- The transaction has done something: the marks are guarded still, and nobody has lost a lock
or a request, but for the transaction itself, if it gives locks back. The others that wait have
got no lock either. -/
structure Moves (txn : TransactionId) (gives : Bool) (c c' : Cache) : Prop where
  guarded : c'.Guarded
  kept : ∀ u page, (u = txn → gives = false) → c.holds u page = true → c'.holds u page = true
  others : ∀ u, u ≠ txn → c'.locks.pending.get? u = c.locks.pending.get? u
  idle : ∀ u page, u ≠ txn → c.locks.pending.get? u ≠ none → c'.holds u page = true →
    c.holds u page = true

/-- How far a call has come: it is finished and waits for nothing, or it has a request for the
page that it waits for. Only a call that gives locks back goes on looking for a slot. -/
def Goes (txn : TransactionId) (gives : Bool) (c : Cache) : Cache × Progress → Prop
  | (c', .finished _) => c.Moves txn gives c' ∧ c'.locks.pending.get? txn = none
  | (c', .waiting page stage) =>
    c.Moves txn gives c' ∧ stage.edits = false ∧ (stage.seeks = true → gives = true) ∧
      ∃ r, c'.locks.pending.get? txn = some r ∧ r.page = page ∧ stage.Asks r.access

/-! ## Single moves -/

theorem Guarded.moves_of_same (h : c'.Guarded) (hlocks : c'.locks = c.locks) :
    c.Moves txn gives c' := by
  have hsame : ∀ u page, c'.holds u page = c.holds u page := fun u page => by
    rw [holds, holds, hlocks]
  refine ⟨h, fun u page _ hholds => ?_, fun u _ => by rw [hlocks], fun u page _ _ hholds => ?_⟩
  · rw [hsame, hholds]
  · rw [← hsame, hholds]

theorem Guarded.moves_of_fades (h : c.Guarded) (hf : c.Fades c') : c.Moves txn gives c' :=
  (h.of_fades hf).moves_of_same hf.locks_eq

theorem Moves.refl (h : c.Guarded) : c.Moves txn gives c := h.moves_of_same rfl

theorem Moves.trans (h₁ : c.Moves txn gives c') (h₂ : c'.Moves txn gives d) :
    c.Moves txn gives d where
  guarded := h₂.guarded
  kept u page hu hholds := h₂.kept u page hu (h₁.kept u page hu hholds)
  others u hu := (h₂.others u hu).trans (h₁.others u hu)
  idle u page hu hwaits hholds := by
    apply h₁.idle u page hu hwaits
    exact h₂.idle u page hu (by rw [h₁.others u hu]; exact hwaits) hholds

theorem Moves.poised (h : c.Moves txn gives c') (hidle : c'.locks.pending.get? txn = none) :
    c'.Poised txn := ⟨h.guarded, hidle⟩

/-- Holdings end where they are given back only. -/
theorem holds_perform {s : Locking} {a : LockAction} (h : s.Reachable) (ha : s.Admits a)
    (hfree : a.frees u page = false) (hholds : s.table.holds u page = true) :
    (s.perform a).table.holds u page = true := by
  have horderly := h.orderly
  rw [LockTable.holds_iff] at hholds ⊢
  rcases (horderly.effect (.of_admits ha)).heldMode_cases horderly u page with
    hsame | ⟨access, -, -, hnew⟩ | ⟨hgone, -⟩
  · rw [hsame]
    exact hholds
  · rw [hnew]
    simp
  · rw [hfree] at hgone
    cases hgone

/-- Nobody gets a lock who waits before and after. -/
theorem holds_of_perform {s : Locking} {a : LockAction} (h : s.Reachable) (ha : s.Admits a)
    (hwaits : (s.perform a).pending.get? u ≠ none)
    (hholds : (s.perform a).table.holds u page = true) : s.table.holds u page = true := by
  have horderly := h.orderly
  rw [LockTable.holds_iff] at hholds ⊢
  rcases (horderly.effect (.of_admits ha)).heldMode_cases horderly u page with
    hsame | ⟨access, -, hidle, -⟩ | ⟨-, hgone⟩
  · rw [← hsame]
    exact hholds
  · exact absurd hidle hwaits
  · exact absurd hgone hholds

theorem Guarded.moves_locks (h : c.Guarded) {a : LockAction} (ha : c.locks.Admits a)
    (hturn : c.locks.Turn txn (c.locks.perform a))
    (hfree : ∀ u page, (u = txn → gives = false) → a.frees u page = false) :
    c.Moves txn gives { c with locks := c.locks.perform a } where
  guarded := {
    reachable := .step a h.reachable ha
    placed := h.placed
    locked := fun page p u hres hmark => hturn.writers u page (h.locked page p u hres hmark) }
  kept u page hu hholds := holds_perform h.reachable ha (hfree u page hu) hholds
  others := hturn.others
  idle u page hu hwaits hholds :=
    holds_of_perform h.reachable ha (by rw [hturn.others u hu]; exact hwaits) hholds

/-- A lock that was taken for reading only is given back. -/
theorem Poised.moves_leave (h : c.Poised txn) (page : PageId) (held : Bool)
    (hnot : held = false → c.locks.table.heldMode txn page ≠ some .readWrite) :
    c.Moves txn true (c.leave txn page held) ∧ (c.leave txn page held).Poised txn := by
  unfold leave
  split
  · exact ⟨.refl h.guarded, h⟩
  · rename_i hheld
    have hturn := h.guarded.reachable.orderly.turn_release (hnot (by simpa using hheld))
    have hmoves : c.Moves txn true (c.release txn page) :=
      h.guarded.moves_locks (a := .release txn page) (Locking.isWaiting_eq_false_iff.2 h.idle)
        hturn fun u p hu => by
          have hne : u ≠ txn := fun heq => by cases hu heq
          simp [LockAction.frees, Ne.symm hne]
    exact ⟨hmoves, hmoves.poised h.idle⟩

/-- Whoever writes alone on a page may mark it. -/
theorem Poised.moves_place (h : c.Poised txn) (hid : p.id = page) (hmark : p.dirty = some txn)
    (hheld : c.locks.table.heldMode txn page = some .readWrite) :
    c.Moves txn gives (c.place p) := by
  have hplaced : ∀ other r, (c.place p).residentPage other = some r →
      (other = page ∧ r = p) ∨ c.residentPage other = some r := by
    intro other r hr
    rw [residentPage_place] at hr
    split at hr
    · rename_i hother
      exact Or.inl ⟨hother.trans hid, (Option.some.inj hr).symm⟩
    · exact Or.inr hr
  refine Guarded.moves_of_same ⟨h.guarded.reachable, ?_, ?_⟩ rfl
  · intro other r hr
    rcases hplaced other r hr with ⟨rfl, rfl⟩ | hold
    · exact hid
    · exact h.guarded.placed other r hold
  · intro other r v hr hv
    rcases hplaced other r hr with ⟨rfl, rfl⟩ | hold
    · rw [hmark, Option.some.injEq] at hv
      rw [← hv]
      exact hheld
    · exact h.guarded.locked other r v hold hv

/-- A page that was changed in its place, and is entered once more if that is to count. -/
theorem Poised.moves_change (h : c.Poised txn) (hres : c.residentPage page = some q)
    (hid : p.id = page) (hheld : c.locks.table.heldMode txn page = some .readWrite) (again : Bool)
    (entered changed : Outcome) :
    c.Goes txn gives (finish (if again then
      match (c.amend (p.markDirty txn)).enterDirty txn (p.markDirty txn) with
      | .error e => (c.amend (p.markDirty txn), .error e)
      | .ok c => (c, entered)
    else (c.amend (p.markDirty txn), changed))) := by
  have hres' : c.residentPage (p.markDirty txn).id = some q := by
    rw [show (p.markDirty txn).id = page from hid, hres]
  have hplace : c.Moves txn gives (c.place (p.markDirty txn)) := h.moves_place hid rfl hheld
  have hpoised : (c.place (p.markDirty txn)).Poised txn := hplace.poised h.idle
  rw [enterDirty_amend hres', amend_eq_place hres']
  split
  · have hagain : (c.place (p.markDirty txn)).Moves txn gives
        ((c.place (p.markDirty txn)).place ((p.markDirty txn).markDirty txn)) :=
      hpoised.moves_place hid rfl hheld
    exact ⟨(hplace.trans hagain).trans (hagain.guarded.moves_of_fades (.noteUse _ _)), h.idle⟩
  · exact ⟨hplace, h.idle⟩

/-! ## Fetching a page -/

/-- What follows from the answer to the wish for a page: it is resident and locked, or the
transaction waits for it. -/
def Got (c c' : Cache) (txn : TransactionId) (page : PageId) (access : Access) : Fetched → Prop
  | .page p => c'.Poised txn ∧ c'.residentPage page = some p ∧
      ∃ m, c'.locks.table.heldMode txn page = some m ∧ m.covers access = true ∧
        (c.holds txn page = false → m = access)
  | .failed _ => c'.Poised txn
  | .blocked => ∃ entered, c'.locks.pending.get? txn = some ⟨page, access, entered⟩

theorem Poised.fetch (h : c.Poised txn) (gives : Bool) (page : PageId) (access : Access) :
    c.Moves txn gives (c.fetch txn page access).1 ∧
      c.Got (c.fetch txn page access).1 txn page access (c.fetch txn page access).2 := by
  unfold Cache.fetch
  split
  · exact ⟨.refl h.guarded, h⟩
  · obtain ⟨hturn, hanswer⟩ := h.guarded.reachable.orderly.turn_acquire h.idle page access
    have hlocked : c.Moves txn gives { c with locks := (c.locks.acquire txn page access).1 } :=
      h.guarded.moves_locks (a := .acquire txn page access)
        (Locking.isWaiting_eq_false_iff.2 h.idle) hturn fun _ _ _ => rfl
    rcases hacq : c.locks.acquire txn page access with ⟨locks, answer⟩
    rw [hacq] at hlocked hanswer
    cases answer with
    | refused => exact ⟨hlocked, hlocked.poised hanswer⟩
    | waiting => exact ⟨hlocked, hanswer⟩
    | granted =>
      obtain ⟨hidle, hheld⟩ := hanswer
      obtain ⟨hfades, hpage⟩ := fades_bring { c with locks } page
      have hall := hlocked.trans (hlocked.guarded.moves_of_fades hfades)
      simp only
      rcases hbring : Cache.bring { c with locks } page with ⟨c', e | p⟩
      · rw [hbring] at hall hfades
        exact ⟨hall, hall.poised (by rw [hfades.locks_eq]; exact hidle)⟩
      · rw [hbring] at hall hfades hpage
        refine ⟨hall, hall.poised (by rw [hfades.locks_eq]; exact hidle), hpage p rfl, ?_⟩
        rw [hfades.locks_eq]
        exact hheld

/-! ## Stages -/

theorem Poised.goes_finished (h : c.Poised txn) (outcome : Outcome) :
    c.Goes txn gives (c, .finished outcome) := ⟨.refl h.guarded, h.idle⟩

theorem Goes.after {result : Cache × Progress} (h₁ : c.Moves txn gives c')
    (h₂ : c'.Goes txn gives result) : c.Goes txn gives result := by
  obtain ⟨d, outcome | ⟨page, stage⟩⟩ := result
  · exact ⟨h₁.trans h₂.1, h₂.2⟩
  · exact ⟨h₁.trans h₂.1, h₂.2⟩

theorem Moves.goes_finished (h : c.Moves txn gives c') (hidle : c'.Poised txn) (outcome : Outcome) :
    c.Goes txn gives (c', .finished outcome) := ⟨h, hidle.idle⟩

theorem Poised.goes_fill (h : c.Poised txn) (hres : c.residentPage page = some p)
    (hheld : c.locks.table.heldMode txn page = some .readWrite) (job : Insertion) :
    c.Goes txn gives (finish (c.fill txn job p)) := by
  unfold fill
  rcases hins : p.insert job.record with e | ⟨q, place⟩
  · exact h.goes_finished _
  · have hid : q.id = page := (HeapPage.id_of_insert hins).trans (h.guarded.placed page p hres)
    exact h.moves_change hres hid hheld job.tracked _ _

theorem Poised.goes_removeFrom (h : c.Poised txn) (hres : c.residentPage page = some p)
    (hheld : c.locks.table.heldMode txn page = some .readWrite) (job : Deletion) :
    c.Goes txn gives (finish (c.removeFrom txn job p)) := by
  unfold removeFrom
  rcases hdel : p.delete (some job.location) with e | q
  · exact h.goes_finished _
  · have hid : q.id = page := (HeapPage.id_of_delete hdel).trans (h.guarded.placed page p hres)
    exact h.moves_change hres hid hheld job.tracked _ _

theorem Poised.goes_fetchAndFill (h : c.Poised txn) (job : Insertion) (page : PageId) :
    c.Goes txn gives (c.fetchAndFill txn job page) := by
  obtain ⟨hmoves, hgot⟩ := h.fetch gives page .readWrite
  unfold fetchAndFill
  rcases hf : c.fetch txn page .readWrite with ⟨c', r | e | _⟩ <;> rw [hf] at hmoves hgot
  · obtain ⟨hpoised, hres, m, hm, hcov, -⟩ := hgot
    rw [eq_readWrite_of_covers hcov] at hm
    exact .after hmoves (hpoised.goes_fill hres hm job)
  · exact hmoves.goes_finished hgot _
  · obtain ⟨entered, hp⟩ := hgot
    exact ⟨hmoves, rfl, fun hs => (by cases hs), _, hp, rfl, rfl⟩

theorem Poised.goes_append (h : c.Poised txn) (job : Insertion) :
    c.Goes txn gives (c.append txn job) := by
  have hfades := Fades.allocate c job.table
  have hmoves : c.Moves txn gives (c.allocate job.table).1 := h.guarded.moves_of_fades hfades
  have hpoised := hmoves.poised (by rw [hfades.locks_eq]; exact h.idle)
  unfold append
  rcases ha : c.allocate job.table with ⟨c', e | page⟩ <;> rw [ha] at hmoves hpoised
  · exact hmoves.goes_finished hpoised _
  · exact .after hmoves (hpoised.goes_fetchAndFill job page)

theorem Poised.goes_seek (h : c.Poised txn) (job : Insertion) (left : Nat) (number : UInt32) :
    c.Goes txn true (seek txn job left number c) := by
  induction left generalizing number c with
  | zero => exact h.goes_append job
  | succ left ih =>
    obtain ⟨hmoves, hgot⟩ := h.fetch true ⟨job.table, number⟩ .readOnly
    unfold seek
    simp only
    rcases hf : c.fetch txn ⟨job.table, number⟩ .readOnly with ⟨c', r | e | _⟩ <;>
      rw [hf] at hmoves hgot
    · obtain ⟨hpoised, hres, m, hm, -, hnew⟩ := hgot
      simp only
      split
      · have hnot : c.holds txn ⟨job.table, number⟩ = false →
            c'.locks.table.heldMode txn ⟨job.table, number⟩ ≠ some .readWrite := by
          intro hfalse
          rw [hm, hnew hfalse]
          simp
        obtain ⟨hleave, hpoised'⟩ := hpoised.moves_leave ⟨job.table, number⟩ _ hnot
        exact .after (hmoves.trans hleave) (ih hpoised' _)
      · exact .after hmoves (hpoised.goes_fetchAndFill job _)
    · exact hmoves.goes_finished hgot _
    · obtain ⟨entered, hp⟩ := hgot
      exact ⟨hmoves, rfl, fun _ => rfl, _, hp, rfl, rfl⟩

theorem Poised.goes_inspect (h : c.Poised txn) (job : Deletion) (p : HeapPage) :
    c.Goes txn gives (c.inspect txn job p) := by
  unfold inspect
  simp only
  split
  · exact h.goes_finished _
  · split
    · exact h.goes_finished _
    · obtain ⟨hmoves, hgot⟩ := h.fetch gives job.location.page .readWrite
      rcases hf : c.fetch txn job.location.page .readWrite with ⟨c', r | e | _⟩ <;>
        rw [hf] at hmoves hgot
      · obtain ⟨hpoised, hres, m, hm, hcov, -⟩ := hgot
        rw [eq_readWrite_of_covers hcov] at hm
        exact .after hmoves (hpoised.goes_removeFrom hres hm job)
      · exact hmoves.goes_finished hgot _
      · obtain ⟨entered, hp⟩ := hgot
        exact ⟨hmoves, rfl, fun hs => (by cases hs), _, hp, rfl, rfl⟩

theorem Poised.goes_walk (h : c.Poised txn) (left : Nat) (draw : Draw) :
    c.Goes txn gives (walk txn left draw c) := by
  induction left using Nat.strong_induction_on generalizing draw c with | _ left ih
  rcases walk_cases txn left draw c with ⟨-, he⟩ | ⟨-, -, he⟩ | ⟨-, -, rest, rfl, he⟩ <;> rw [he]
  · exact h.goes_finished _
  · exact h.goes_finished _
  · obtain ⟨hmoves, hgot⟩ := h.fetch gives draw.serve.page .readOnly
    rcases hf : c.fetch txn draw.serve.page .readOnly with ⟨c', r | e | _⟩ <;>
      rw [hf] at hmoves hgot
    · exact .after hmoves (ih rest (Nat.lt_succ_self rest) hgot.1 _)
    · exact hmoves.goes_finished hgot _
    · obtain ⟨entered, hp⟩ := hgot
      exact ⟨hmoves, rfl, fun hs => (by cases hs), _, hp, rfl, trivial⟩

theorem Poised.goes_use (h : c.Poised txn) (p : HeapPage) {purpose : Purpose}
    (hplain : purpose.edits = false) : c.Goes txn gives (finish (c.use txn p purpose)) := by
  cases purpose with
  | view => exact h.goes_finished _
  | viewBefore => exact h.goes_finished _
  | pin alone =>
    unfold use
    cases alone with
    | false => exact h.goes_finished _
    | true =>
      have hfades := Fades.setPinned c p.id true
      exact ⟨h.guarded.moves_of_fades hfades, hfades.locks_eq ▸ h.idle⟩
  | insert record mark => cases hplain
  | delete location mark => cases hplain

/-- A call goes on from any stage once it has its page, locked as it asked for, or none. -/
theorem Poised.goes (h : c.Poised txn) {stage : Stage} (hplain : stage.edits = false)
    (hgives : stage.seeks = true → gives = true) (page : PageId)
    (result : Except StoreError HeapPage)
    (hpage : ∀ p, result = .ok p → c.residentPage page = some p ∧
      ∃ m, c.locks.table.heldMode txn page = some m ∧ stage.Asks m) :
    c.Goes txn gives (c.proceed txn page stage result) := by
  cases result with
  | error e => cases stage <;> exact h.goes_finished _
  | ok p =>
    obtain ⟨hres, m, hm, hasks⟩ := hpage p rfl
    cases stage with
    | walk d => exact h.goes_walk _ _
    | use purpose => exact h.goes_use p hplain
    | seek job left next held =>
      obtain rfl : gives = true := hgives rfl
      unfold proceed
      simp only
      split
      · have hnot : held = false → c.locks.table.heldMode txn page ≠ some .readWrite := by
          intro _
          rw [hm, hasks]
          simp
        obtain ⟨hleave, hpoised⟩ := h.moves_leave page held hnot
        exact .after hleave (hpoised.goes_seek job left next)
      · exact h.goes_fetchAndFill job page
    | fill job =>
      rw [show m = .readWrite from hasks] at hm
      exact h.goes_fill hres hm job
    | inspect job => exact h.goes_inspect job p
    | remove job =>
      rw [show m = .readWrite from hasks] at hm
      exact h.goes_removeFrom hres hm job

/-! ## Whole operations -/

theorem Poised.goes_ask (h : c.Poised txn) (page : PageId) (access : Access) {stage : Stage}
    (hplain : stage.edits = false) (hseeks : stage.seeks = false) (hasks : ∀ m, stage.Asks m) :
    c.Goes txn gives (c.ask txn page access stage) := by
  have hgives : stage.seeks = true → gives = true := by
    rw [hseeks]
    intro hs
    cases hs
  obtain ⟨hmoves, hgot⟩ := h.fetch gives page access
  unfold ask
  rcases hf : c.fetch txn page access with ⟨c', r | e | _⟩ <;> rw [hf] at hmoves hgot
  · obtain ⟨hpoised, hres, m, hm, -, -⟩ := hgot
    refine .after hmoves (hpoised.goes hplain hgives page _ fun p hp => ?_)
    cases hp
    exact ⟨hres, m, hm, hasks m⟩
  · refine .after hmoves (Poised.goes hgot hplain hgives page _ fun p hp => ?_)
    cases hp
  · obtain ⟨entered, hp⟩ := hgot
    exact ⟨hmoves, hplain, hgives, _, hp, rfl, hasks access⟩

theorem Poised.goes_start (h : c.Poised txn) {op : Operation} (hplain : op.edits = false) :
    c.Goes txn op.seeks (c.start txn op) := by
  cases op with
  | fetch page access purpose => exact h.goes_ask page access hplain rfl fun _ => trivial
  | insert job =>
    simp only [start, startInsert]
    split
    · exact h.goes_finished _
    · split
      · exact h.goes_finished _
      · exact h.goes_seek job _ _
  | delete location =>
    cases location with
    | none => exact h.goes_finished _
    | some place =>
      simp only [start, startDelete]
      split
      · exact h.goes_finished _
      · exact h.goes_ask place.page .readOnly rfl rfl fun _ => trivial
  | deleteFrom table location =>
    simp only [start, startDeleteFrom]
    cases location with
    | none => rcases c.table table with e | file <;> exact h.goes_finished _
    | some place =>
      rcases c.table table with e | file
      · exact h.goes_finished _
      · simp only
        split
        · exact h.goes_finished _
        · exact h.goes_ask place.page .readOnly rfl rfl fun _ => trivial
  | scan table =>
    simp only [start]
    split
    · exact h.goes_finished _
    · exact h.goes_walk _ _
  | draw cursor count => exact h.goes_walk _ _

end Cache

end PageCache
