-- What an insertion or a deletion does to the holdings of its transaction. An insertion leaves the
-- pages that it passes as it has found them, and locks one more page at most. A deletion locks no
-- page but the one of its record, and for writing only when it has seen the record there.
import PageCache.Proofs.Cache.Placing
import PageCache.Proofs.Cache.Working

namespace PageCache

namespace HeapPage

/-- A record is stored on the page itself. -/
theorem page_of_insert {p q : HeapPage} {r : Record} {place : RecordId}
    (h : p.insert r = .ok (q, place)) : place.page = p.id := by
  unfold insert at h
  split at h
  · cases h
  · split at h
    · cases h
    · cases h
      rfl

/-- There is a record in the slot of the place. -/
def Shows (p : HeapPage) (place : RecordId) : Prop :=
  place.slot.toNat < p.slotCount ∧ p.isUsed place.slot.toNat = true

/-- What is on the page can be taken out. -/
theorem Shows.delete {p : HeapPage} {place : RecordId} (h : p.Shows place)
    (hpage : place.page = p.id) : ∃ q, p.delete (some place) = .ok q := by
  have hslot : ¬ p.slotCount ≤ place.slot.toNat := Nat.not_le.2 h.1
  simp [HeapPage.delete, hpage, hslot, h.2]

/-- Marks and snapshots do not matter for that. -/
theorem Shows.of_bare {p q : HeapPage} {place : RecordId} (h : p.Shows place)
    (hbare : q.bare = p.bare) : q.Shows place := by
  have hslots : q.bare.slots = p.bare.slots := by rw [hbare]
  change q.slots = p.slots at hslots
  rw [Shows, slotCount, isUsed, hslots]
  exact h

end HeapPage

/-- The record of a deletion was seen, and is to be taken out. -/
def Stage.removes : Stage → Bool
  | .remove _ => true
  | _ => false

/-- What a transaction holds while its insertion or deletion waits, if it held `held` when that was
asked for. While it looks for an empty slot or for its record, all is held as before. -/
def Stage.Stands (held now : PageId → Option Access) (r : PendingLock) : Stage → Prop
  | .seek _ _ _ before =>
    before = false ∧ r.access = .readOnly ∧ held r.page = none ∧ now = held
  | .fill _ => r.access = .readWrite ∧ Raised r.page held now
  | .inspect job => r.page = job.location.page ∧ r.access = .readOnly ∧ now = held
  | .remove job =>
    r.page = job.location.page ∧ r.access = .readWrite ∧ Raised r.page held now ∧
      now r.page = some .readOnly
  | _ => False

theorem Stage.Stands.raised {held now : PageId → Option Access} {r : PendingLock} {stage : Stage}
    (h : stage.Stands held now r) : ∃ page, Raised page held now := by
  cases stage with
  | use purpose => exact h.elim
  | walk d => exact h.elim
  | seek job left next before => exact ⟨r.page, .of_eq r.page h.2.2.2⟩
  | fill job => exact ⟨r.page, h.2⟩
  | inspect job => exact ⟨r.page, .of_eq r.page h.2.2⟩
  | remove job => exact ⟨r.page, h.2.2.1⟩

/-- What a transaction holds when its insertion or deletion is over. One holding may have changed.
That of the page where a record was stored is one for writing; that of the page where a record was
missed is not, unless the page was held so before, or the record was missed `late`. -/
def Errand.Leaves (late : Prop) (held now : PageId → Option Access) (errand : Errand)
    (outcome : Outcome) : Prop :=
  (∃ page, Raised page held now) ∧
    match errand with
    | .store _ => ∀ reply, outcome = .ok reply → ∃ place, reply.TellsOf place ∧
        Raised place.page held now ∧ now place.page = some .readWrite
    | .clear place => ∀ e, outcome = .error e → e.isMiss = true →
        ∃ m, now place.page = some m ∧
          (m = .readWrite → held place.page = some .readWrite ∨ late)
    | _ => True

theorem Errand.Leaves.imp {errand : Errand} {held now : PageId → Option Access} {outcome : Outcome}
    {late late' : Prop} (h : errand.Leaves late held now outcome) (hlate : late → late') :
    errand.Leaves late' held now outcome := by
  obtain ⟨hraised, hrest⟩ := h
  refine ⟨hraised, ?_⟩
  cases errand with
  | clear place =>
    intro e he hmiss
    obtain ⟨m, hm, hwrite⟩ := hrest e he hmiss
    exact ⟨m, hm, fun heq => (hwrite heq).imp_right hlate⟩
  | store row => exact hrest
  | visit page purpose => trivial
  | read => trivial

namespace Cache

variable {c c' : Cache} {page : PageId} {p : HeapPage} {txn : TransactionId}
  {held : PageId → Option Access} {job : Insertion} {access : Access} {late : Prop}
  {place : RecordId} {s : Locking}

/-- The record that is to be taken out is seen on its page. -/
def Shows (c : Cache) : Stage → Prop
  | .remove job => ∃ p, c.view job.location.page = some p ∧ p.Shows job.location
  | _ => True

/-- How far a call with an errand has come, of a transaction that held `held` when it was asked
for. -/
def Treads (txn : TransactionId) (errand : Errand) (late : Prop) (held : PageId → Option Access) :
    Cache × Progress → Prop
  | (c, .finished outcome) => errand.Leaves late held (c.locks.table.heldMode txn) outcome
  | (c, .waiting page stage) => stage.errand page = errand ∧ c.Shows stage ∧
      ∃ r, c.locks.pending.get? txn = some r ∧ r.page = page ∧
        stage.Stands held (c.locks.table.heldMode txn) r

theorem Treads.imp {errand : Errand} {late' : Prop} {result : Cache × Progress}
    (h : Treads txn errand late held result) (hlate : late → late') :
    Treads txn errand late' held result := by
  obtain ⟨c, outcome | ⟨page, stage⟩⟩ := result
  · exact Errand.Leaves.imp h hlate
  · exact h

theorem Shelves.modes (h : c.Shelves c') (txn : TransactionId) :
    c'.locks.table.heldMode txn = c.locks.table.heldMode txn := by rw [h.locks_eq]

/-! ## Insertions -/

theorem treads_failed (hraised : Raised page held (c.locks.table.heldMode txn)) (row : Row)
    (e : StoreError) : Treads txn (.store row) late held (c, .finished (.error e)) :=
  ⟨⟨page, hraised⟩, fun _ hok => by cases hok⟩

theorem Idle.treads_fill (h : c.Idle txn) (hres : c.residentPage page = some p)
    (hraised : Raised page held (c.locks.table.heldMode txn))
    (hwrite : c.locks.table.heldMode txn page = some .readWrite) (job : Insertion) :
    Treads txn (.store job.record.values) late held (finish (c.fill txn job p)) := by
  have hid := h.placed page p hres
  rcases hins : p.insert job.record with e | ⟨q, place⟩
  · have he : c.fill txn job p = (c, .error e) := by rw [fill, hins]
    rw [he]
    exact treads_failed hraised _ e
  · have hpage : place.page = page := (HeapPage.page_of_insert hins).trans hid
    have hq : q.id = place.page := (HeapPage.id_of_insert hins).trans (hid.trans hpage.symm)
    obtain ⟨c', hshelves, he⟩ := fill_stored hid hres txn hins
    have hmodes := hshelves.modes txn
    rw [he]
    refine ⟨⟨page, hmodes ▸ hraised⟩, fun reply hok => ⟨place, ?_, ?_, ?_⟩⟩
    · rw [hq] at hok
      split at hok <;> cases hok
      · exact Or.inl rfl
      · exact Or.inr rfl
    · rw [hpage]
      exact hmodes ▸ hraised
    · rw [hpage]
      exact hmodes ▸ hwrite

theorem Idle.treads_fetchAndFill (h : c.Idle txn)
    (hraised : Raised page held (c.locks.table.heldMode txn)) (job : Insertion) :
    Treads txn (.store job.record.values) late held (c.fetchAndFill txn job page) := by
  obtain ⟨-, hfetches⟩ := h.fetch page .readWrite
  unfold fetchAndFill
  rcases hf : c.fetch txn page .readWrite with ⟨c', p | e | _⟩ <;> rw [hf] at hfetches
  · obtain ⟨hidle, hres, -, hgets⟩ := hfetches
    obtain ⟨m, hm, hcov⟩ := hgets.own
    rw [eq_readWrite_of_covers hcov] at hm
    exact hidle.treads_fill hres (hraised.trans hgets.raised) hm job
  · obtain ⟨-, -, hsame | hgets⟩ := hfetches
    · exact treads_failed (hsame ▸ hraised) _ e
    · exact treads_failed (hraised.trans hgets.raised) _ e
  · obtain ⟨hsame, -, -, entered, hpending⟩ := hfetches
    exact ⟨rfl, trivial, _, hpending, rfl, rfl, hsame ▸ hraised⟩

theorem Idle.treads_append (h : c.Idle txn) (hsame : c.locks.table.heldMode txn = held)
    (job : Insertion) : Treads txn (.store job.record.values) late held (c.append txn job) := by
  have hshelves := Shelves.of_fades (Fades.allocate c job.table)
  have hmodes := (hshelves.modes txn).trans hsame
  unfold append
  rcases ha : c.allocate job.table with ⟨c', e | page⟩ <;> rw [ha] at hshelves hmodes
  · exact treads_failed (.of_eq ⟨job.table, 0⟩ hmodes) _ e
  · exact (h.of_shelves hshelves).treads_fetchAndFill (.of_eq page hmodes) job

/-- As long as an insertion looks for an empty slot, all is held as before. -/
theorem Idle.treads_seek (h : c.Idle txn) (hsame : c.locks.table.heldMode txn = held)
    (job : Insertion) (left : Nat) (number : UInt32) :
    Treads txn (.store job.record.values) late held (seek txn job left number c) := by
  induction left generalizing number c with
  | zero => exact h.treads_append hsame job
  | succ left ih =>
    obtain ⟨-, hfetches⟩ := h.fetch ⟨job.table, number⟩ .readOnly
    unfold seek
    simp only
    rcases hf : c.fetch txn ⟨job.table, number⟩ .readOnly with ⟨c', p | e | _⟩ <;>
      rw [hf] at hfetches
    · obtain ⟨hidle, -, -, hgets⟩ := hfetches
      simp only
      split
      · obtain ⟨-, hidle', hback⟩ := hidle.leave hgets
        exact ih hidle' (hback.trans hsame) _
      · exact hidle.treads_fetchAndFill (hsame ▸ hgets.raised) job
    · obtain ⟨-, -, hmodes | hgets⟩ := hfetches
      · exact treads_failed (.of_eq ⟨job.table, number⟩ (hmodes ▸ hsame)) _ e
      · exact treads_failed (hsame ▸ hgets.raised) _ e
    · obtain ⟨hmodes, -, huncovered, entered, hpending⟩ := hfetches
      have hnone := Access.eq_none_of_uncovered huncovered
      refine ⟨rfl, trivial, _, hpending, rfl, ?_, rfl, hsame ▸ hnone, hmodes ▸ hsame⟩
      rw [holds, LockTable.holds, hnone]
      rfl

/-! ## Deletions -/

/-- What a deletion holds of the page of its record when it has come there to look for it. -/
structure Looks (txn : TransactionId) (place : RecordId) (held : PageId → Option Access)
    (c : Cache) : Prop where
  raised : Raised place.page held (c.locks.table.heldMode txn)
  own : ∃ m, c.locks.table.heldMode txn place.page = some m ∧
    (m = .readWrite → held place.page = some .readWrite)

theorem looks_of_gets (h : s.Gets txn place.page .readOnly c.locks)
    (hsame : s.table.heldMode txn = held) : c.Looks txn place held := by
  subst hsame
  obtain ⟨m, hm, -⟩ := h.own
  refine ⟨h.raised, m, hm, fun hwrite => ?_⟩
  rcases h.readOnly with ⟨hgrants, -⟩ | ⟨hsame, -⟩
  · rw [hgrants.own] at hm
    cases hm
    cases hwrite
  · rw [← hsame, hm, hwrite]

theorem Looks.treads_failed (h : c.Looks txn place held) (e : StoreError) :
    Treads txn (.clear place) late held (c, .finished (.error e)) := by
  obtain ⟨m, hm, hwrite⟩ := h.own
  exact ⟨⟨place.page, h.raised⟩, fun _ _ _ => ⟨m, hm, fun heq => Or.inl (hwrite heq)⟩⟩

/-- A failure that says nothing of the record. -/
theorem treads_stopped (hraised : Raised page held (c.locks.table.heldMode txn)) {e : StoreError}
    (he : e.isMiss = false) : Treads txn (.clear place) late held (c, .finished (.error e)) := by
  refine ⟨⟨page, hraised⟩, fun e' herr hmiss => ?_⟩
  cases herr
  rw [he] at hmiss
  cases hmiss

/-- The record was seen on the page just now, so it is taken out if the page is to be had. -/
theorem Idle.treads_inspect (h : c.Idle txn) {job : Deletion}
    (hres : c.residentPage job.location.page = some p) (hlooks : c.Looks txn job.location held) :
    Treads txn (.clear job.location) late held (c.inspect txn job p) := by
  unfold inspect
  simp only
  split
  · exact hlooks.treads_failed _
  · rename_i hslot
    split
    · exact hlooks.treads_failed _
    · rename_i hused
      have hshows : p.Shows job.location := ⟨Nat.not_le.1 hslot, by simpa using hused⟩
      obtain ⟨-, hfetches⟩ := h.fetch job.location.page .readWrite
      rcases hf : c.fetch txn job.location.page .readWrite with ⟨c', r | e | _⟩ <;>
        rw [hf] at hfetches
      · obtain ⟨hidle, hres', hhit, hgets⟩ := hfetches
        obtain rfl := hhit p hres
        have hid := hidle.placed _ r hres'
        obtain ⟨q, hdel⟩ := hshows.delete hid.symm
        obtain ⟨d, hshelves, he⟩ := removeFrom_removed hid hres' txn hdel
        simp only [finish, he]
        refine ⟨⟨job.location.page, ?_⟩, fun e herr => ?_⟩
        · rw [hshelves.modes]
          exact hlooks.raised.trans hgets.raised
        · split at herr <;> cases herr
      · obtain ⟨-, hmiss, hsame | hgets⟩ := hfetches
        · exact treads_stopped (hsame ▸ hlooks.raised) hmiss
        · exact treads_stopped (hlooks.raised.trans hgets.raised) hmiss
      · obtain ⟨hsame, hstay, huncovered, entered, hpending⟩ := hfetches
        obtain ⟨m, hm, -⟩ := hlooks.own
        rw [hm, Option.any_some] at huncovered
        have hread : m = .readOnly := by cases m <;> [rfl; cases huncovered]
        have hres' : c'.residentPage job.location.page = some p := by
          rw [residentPage, hstay]
          exact hres
        refine ⟨rfl, ⟨p, view_of_resident hres', hshows⟩, _, hpending, rfl, rfl, rfl, ?_, ?_⟩
        · exact hsame ▸ hlooks.raised
        · rw [hsame, hm, hread]

theorem Idle.treads_removeFrom (h : c.Idle txn) {job : Deletion}
    (hres : c.residentPage job.location.page = some p)
    (hraised : Raised job.location.page held (c.locks.table.heldMode txn))
    (hwrite : c.locks.table.heldMode txn job.location.page = some .readWrite)
    (hlate : ¬ p.Shows job.location → late) :
    Treads txn (.clear job.location) late held (finish (c.removeFrom txn job p)) := by
  have hid := h.placed _ p hres
  rcases hdel : p.delete (some job.location) with e | q
  · have he : c.removeFrom txn job p = (c, .error e) := by rw [removeFrom, hdel]
    have hgone : ¬ p.Shows job.location := by
      intro hshows
      obtain ⟨q, hq⟩ := hshows.delete hid.symm
      rw [hq] at hdel
      cases hdel
    rw [he]
    exact ⟨⟨_, hraised⟩, fun _ _ _ => ⟨_, hwrite, fun _ => Or.inr (hlate hgone)⟩⟩
  · obtain ⟨d, hshelves, he⟩ := removeFrom_removed hid hres txn hdel
    simp only [finish, he]
    refine ⟨⟨job.location.page, hshelves.modes txn ▸ hraised⟩, fun e herr => ?_⟩
    split at herr <;> cases herr

/-! ## Going on, and starting -/

/-- A call goes on when it is granted the lock that it has waited for. -/
theorem Idle.treads_granted (h : c.Idle txn) {stage : Stage} {r : PendingLock}
    (hstands : stage.Stands held (s.table.heldMode txn) r)
    (hgrants : s.Grants txn r.page r.access c.locks) (result : Except StoreError HeapPage)
    (hres : ∀ p, result = .ok p → c.residentPage r.page = some p)
    (hmiss : ∀ e, result = .error e → e.isMiss = false)
    (hlate : ∀ job p, stage = .remove job → result = .ok p → ¬ p.Shows job.location → late) :
    Treads txn (stage.errand r.page) late held (c.proceed txn r.page stage result) := by
  cases stage with
  | use purpose => exact hstands.elim
  | walk d => exact hstands.elim
  | seek job left next before =>
    obtain ⟨rfl, haccess, hnone, hsame⟩ := hstands
    subst hsame
    cases result with
    | error e => exact treads_failed hgrants.raised _ e
    | ok p =>
      rw [haccess] at hgrants
      unfold proceed
      simp only
      split
      · have hleave := h.leave (Or.inl hgrants)
        rw [LockTable.holds, hnone] at hleave
        exact hleave.2.1.treads_seek hleave.2.2 job left next
      · exact h.treads_fetchAndFill hgrants.raised job
  | fill job =>
    obtain ⟨haccess, hraised⟩ := hstands
    have hraised' := hraised.trans hgrants.raised
    cases result with
    | error e => exact treads_failed hraised' _ e
    | ok p => exact h.treads_fill (hres p rfl) hraised' (haccess ▸ hgrants.own) job
  | inspect job =>
    obtain ⟨hpage, haccess, hsame⟩ := hstands
    rw [hpage, haccess] at hgrants
    have hlooks : c.Looks txn job.location held := looks_of_gets (Or.inl hgrants) hsame
    cases result with
    | error e => exact treads_stopped hlooks.raised (hmiss e rfl)
    | ok p => exact h.treads_inspect (hpage ▸ hres p rfl) hlooks
  | remove job =>
    obtain ⟨hpage, haccess, hraised, -⟩ := hstands
    have hraised' := hraised.trans hgrants.raised
    have hwrite := hgrants.own
    rw [haccess] at hwrite
    cases result with
    | error e => exact treads_stopped hraised' (hmiss e rfl)
    | ok p =>
      rw [hpage] at hraised' hwrite hres
      exact h.treads_removeFrom (hres p rfl) hraised' hwrite (hlate job p rfl rfl)

/-- Its page is brought in for that. A record that was seen there may have gone meanwhile. -/
theorem Idle.treads_brought (h : c.Idle txn) {stage : Stage} {r : PendingLock}
    (hstands : stage.Stands held (s.table.heldMode txn) r)
    (hgrants : s.Grants txn r.page r.access c.locks) :
    Treads txn (stage.errand r.page) (stage.removes = true ∧ ¬ c.Shows stage) held
      ((c.bring r.page).1.proceed txn r.page stage (c.bring r.page).2) := by
  obtain ⟨hfades, hpage⟩ := fades_bring c r.page
  have hidle := h.of_shelves (.of_fades hfades)
  rw [← hfades.locks_eq] at hgrants
  refine hidle.treads_granted hstands hgrants _ hpage (fun e => isMiss_of_bring) ?_
  rintro job p rfl hp hgone
  refine ⟨rfl, ?_⟩
  rintro ⟨q, hq, hshows⟩
  rw [← hstands.1, view_of_bring hp, Option.some.injEq] at hq
  exact hgone (hq ▸ hshows)

/-- A call whose time is over fails. -/
theorem treads_over {stage : Stage} {r : PendingLock} {now : PageId → Option Access}
    (hstands : stage.Stands held now r) (hsame : c.locks.table.heldMode txn = now) :
    Treads txn (stage.errand r.page) late held
      (c.proceed txn r.page stage (.error (.waitTimeout txn r.page))) := by
  subst hsame
  cases stage with
  | use purpose => exact hstands.elim
  | walk d => exact hstands.elim
  | seek job left next before => exact treads_failed (.of_eq r.page hstands.2.2.2) _ _
  | fill job => exact treads_failed hstands.2 _ _
  | inspect job => exact treads_stopped (.of_eq r.page hstands.2.2) rfl
  | remove job => exact treads_stopped hstands.2.2.1 rfl

theorem Idle.treads_insert (h : c.Idle txn) (job : Insertion) :
    Treads txn (.store job.record.values) late (c.locks.table.heldMode txn)
      (c.start txn (.insert job)) := by
  simp only [start, startInsert]
  split
  · exact treads_failed (.refl ⟨job.table, 0⟩ _) _ _
  · split
    · exact treads_failed (.refl ⟨job.table, 0⟩ _) _ _
    · exact h.treads_seek rfl job _ _

theorem Idle.treads_delete (h : c.Idle txn) (location : Option RecordId) :
    Treads txn (Operation.delete location).errand late (c.locks.table.heldMode txn)
      (c.start txn (.delete location)) := by
  cases location with
  | none => exact ⟨⟨⟨⟨0⟩, 0⟩, .refl _ _⟩, trivial⟩
  | some place =>
    simp only [start, startDelete]
    split
    · rename_i e he
      exact treads_stopped (.refl place.page _) (isMiss_of_table he)
    · obtain ⟨-, hfetches⟩ := h.fetch place.page .readOnly
      unfold ask
      rcases hf : c.fetch txn place.page .readOnly with ⟨c', p | e | _⟩ <;> rw [hf] at hfetches
      · obtain ⟨hidle, hres, -, hgets⟩ := hfetches
        exact hidle.treads_inspect hres (looks_of_gets hgets rfl)
      · obtain ⟨-, hmiss, hsame | hgets⟩ := hfetches
        · exact treads_stopped (.of_eq place.page (by rw [hsame])) hmiss
        · exact treads_stopped hgets.raised hmiss
      · obtain ⟨hsame, -, -, entered, hpending⟩ := hfetches
        exact ⟨rfl, trivial, _, hpending, rfl, rfl, rfl, by rw [hsame]⟩

end Cache

end PageCache
