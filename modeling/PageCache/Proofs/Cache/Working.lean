-- What a call leaves alone, wherever it has to wait and whatever the pages hold: the locks and the
-- requests of the other transactions. It ends without a request of its own, or it waits with one
-- that cannot be granted now. And pages stand in their own places.
import PageCache.Proofs.Cache.Alike
import PageCache.Proofs.Cache.Searches
import PageCache.Proofs.Lock.Footprints

namespace PageCache

/-- The failure says that the record of a deletion is not there. -/
def StoreError.isMiss : StoreError → Bool
  | .notOnPage .. | .slotEmpty .. => true
  | _ => false

/-- No page is missing a record because it cannot be read. -/
theorem TableFile.isMiss_of_read {f : TableFile} {page : PageId} {e : StoreError}
    (h : (f.read page).2 = .error e) : e.isMiss = false := by
  rw [read_eq] at h
  split at h
  · rename_i hcheck
    cases h
    unfold check at hcheck
    split at hcheck
    · cases hcheck
      rfl
    · split at hcheck <;> cases hcheck
      rfl
  · split at h
    · simp only [HeapPage.ofImage] at h
      split at h
      · cases h
        rfl
      · split at h <;> cases h
        rfl
    · cases h
      unfold Disk.readFailure
      split <;> rfl

namespace Cache

variable {c c' d : Cache} {page : PageId} {p q : HeapPage} {txn : TransactionId}
  {job : Insertion} {e : StoreError}

/-- The locks are in order, resident pages stand in their own places, and the transaction waits for
nothing. -/
structure Idle (txn : TransactionId) (c : Cache) : Prop where
  orderly : c.locks.Orderly
  placed : c.Placed
  idle : c.locks.pending.get? txn = none

/-- Only the transaction was at work. -/
structure Works (txn : TransactionId) (c c' : Cache) : Prop where
  alone : c.locks.Alone txn c'.locks
  placed : c'.Placed

/-- Pages were put into their own places or have gone, and the locks stay. -/
structure Shelves (c c' : Cache) : Prop where
  locks_eq : c'.locks = c.locks
  placed : c.Placed → c'.Placed

/-- How far a call has come: it is finished and waits for nothing, or it waits with a request that
cannot be granted now. -/
def Fares (txn : TransactionId) (c : Cache) : Cache × Progress → Prop
  | (c', .finished _) => c.Works txn c' ∧ c'.locks.pending.get? txn = none
  | (c', .waiting _ _) =>
    c.Works txn c' ∧ c'.locks.pending.get? txn ≠ none ∧ c'.Blocked txn

/-! ## Pages in their places -/

namespace Shelves

theorem refl (c : Cache) : c.Shelves c := ⟨rfl, id⟩

theorem trans (h₁ : c.Shelves c') (h₂ : c'.Shelves d) : c.Shelves d :=
  ⟨h₂.locks_eq.trans h₁.locks_eq, fun h => h₂.placed (h₁.placed h)⟩

theorem of_fades (h : c.Fades c') : c.Shelves c' := ⟨h.locks_eq, fun hc => hc.of_fades h⟩

theorem place (c : Cache) (p : HeapPage) : c.Shelves (c.place p) := by
  refine ⟨rfl, fun hc page q hres => ?_⟩
  rw [residentPage_place] at hres
  split at hres
  · rename_i hpage
    cases hres
    exact hpage.symm
  · exact hc page q hres

theorem amend (c : Cache) (p : HeapPage) : c.Shelves (c.amend p) := by
  unfold Cache.amend
  split
  · exact place c p
  · exact .refl c

theorem use (c : Cache) (txn : TransactionId) (p : HeapPage) (purpose : Purpose) :
    c.Shelves (c.use txn p purpose).1 := by
  cases purpose with
  | view => exact .refl c
  | viewBefore => exact .refl c
  | pin alone =>
    cases alone with
    | false => exact .refl c
    | true => exact .of_fades (.setPinned c p.id true)
  | insert record mark =>
    simp only [Cache.use]
    split
    · exact .refl c
    · exact amend c _
  | delete location mark =>
    simp only [Cache.use]
    split
    · exact .refl c
    · exact amend c _

/-- A page that was changed in its place, and is entered once more if that is to count. -/
theorem change (hres : c.residentPage p.id = some q) (again : Bool) (txn : TransactionId)
    (entered changed : Outcome) :
    ∃ c', c.Shelves c' ∧ (if again then
      match (c.amend (p.markDirty txn)).enterDirty txn (p.markDirty txn) with
      | .error e => (c.amend (p.markDirty txn), .error e)
      | .ok c => (c, entered)
    else (c.amend (p.markDirty txn), changed)) = (c', if again then entered else changed) := by
  have hamend := amend c (p.markDirty txn)
  cases again with
  | false => exact ⟨_, hamend, rfl⟩
  | true =>
    refine ⟨_, (hamend.trans (place _ ((p.markDirty txn).markDirty txn))).trans
      (of_fades (.noteUse _ (p.markDirty txn).id)), ?_⟩
    rw [if_pos rfl, if_pos rfl,
      enterDirty_amend (show c.residentPage (p.markDirty txn).id = _ from hres)]

end Shelves

theorem Works.of_shelves (h : c.Idle txn) (hs : c.Shelves c') : c.Works txn c' :=
  ⟨hs.locks_eq ▸ .refl h.orderly txn, hs.placed h.placed⟩

theorem Works.refl (h : c.Idle txn) : c.Works txn c := .of_shelves h (.refl c)

theorem Works.trans (h₁ : c.Works txn c') (h₂ : c'.Works txn d) : c.Works txn d :=
  ⟨h₁.alone.trans h₂.alone, h₂.placed⟩

theorem Works.idle (h : c.Works txn c') (hidle : c'.locks.pending.get? txn = none) :
    c'.Idle txn := ⟨h.alone.orderly, h.placed, hidle⟩

theorem Idle.of_shelves (h : c.Idle txn) (hs : c.Shelves c') : c'.Idle txn :=
  (Works.of_shelves h hs).idle (hs.locks_eq ▸ h.idle)

theorem Idle.fares_finished (h : c.Idle txn) (outcome : Outcome) :
    c.Fares txn (c, .finished outcome) := ⟨.refl h, h.idle⟩

theorem Idle.fares_shelves (h : c.Idle txn) (hs : c.Shelves c') (outcome : Outcome) :
    c.Fares txn (c', .finished outcome) := ⟨.of_shelves h hs, (h.of_shelves hs).idle⟩

theorem Fares.after {result : Cache × Progress} (h₁ : c.Works txn c')
    (h₂ : c'.Fares txn result) : c.Fares txn result := by
  obtain ⟨d, outcome | ⟨page, stage⟩⟩ := result
  · exact ⟨h₁.trans h₂.1, h₂.2⟩
  · exact ⟨h₁.trans h₂.1, h₂.2⟩

/-! ## Fetching a page -/

theorem isMiss_of_table {id : TableId} (he : c.table id = .error e) : e.isMiss = false := by
  unfold Cache.table at he
  split at he <;> cases he
  rfl

/-- No page is missing a record because it cannot be brought in. -/
theorem isMiss_of_bring (he : (c.bring page).2 = .error e) : e.isMiss = false := by
  unfold bring at he
  split at he
  · cases he
  · split at he
    · rename_i htable
      cases he
      exact isMiss_of_table htable
    · split at he
      · rename_i hread
        cases he
        exact TableFile.isMiss_of_read (congrArg Prod.snd hread)
      · simp only at he
        split at he
        · rename_i hroom
          cases he
          rw [exhausted_of_makeRoom hroom]
          rfl
        · cases he

/-- A page that is brought in is the one that was seen before. -/
theorem view_of_bring (hp : (c.bring page).2 = .ok p) : c.view page = some p := by
  unfold bring at hp
  rcases hget : c.resident.get? page with _ | frame <;> rw [hget] at hp
  · have hmiss : c.residentPage page = none := by
      rw [residentPage, hget]
      rfl
    simp only at hp
    split at hp
    · cases hp
    · rename_i f hf
      split at hp
      · cases hp
      · rename_i g q hread
        split at hp <;> cases hp
        obtain ⟨-, hstored, -⟩ := TableFile.read_ok (congrArg Prod.snd hread)
        rw [view_of_not_resident hmiss, onDisk, get?_of_table hf]
        exact hstored
  · cases hp
    exact view_of_resident (by rw [residentPage, hget]; rfl)

/-- What follows from the answer to the wish for a page. It is there under its lock, as it was if it
was resident before; or it is not to be had, perhaps under its lock; or the transaction waits. -/
def Fetches (txn : TransactionId) (page : PageId) (access : Access) (c c' : Cache) :
    Fetched → Prop
  | .page p => c'.Idle txn ∧ c'.residentPage page = some p ∧
      (∀ q, c.residentPage page = some q → p = q) ∧ c.locks.Gets txn page access c'.locks
  | .failed e => c'.Idle txn ∧ e.isMiss = false ∧
      (c'.locks.table.heldMode = c.locks.table.heldMode ∨
        c.locks.Gets txn page access c'.locks)
  | .blocked => c'.locks.table.heldMode = c.locks.table.heldMode ∧ c'.resident = c.resident ∧
      (c.locks.table.heldMode txn page).any (·.covers access) = false ∧
      ∃ entered, c'.locks.pending.get? txn = some ⟨page, access, entered⟩

theorem Idle.fetch (h : c.Idle txn) (page : PageId) (access : Access) :
    c.Works txn (c.fetch txn page access).1 ∧
      c.Fetches txn page access (c.fetch txn page access).1 (c.fetch txn page access).2 := by
  unfold Cache.fetch
  split
  · rename_i e he
    exact ⟨.refl h, h, isMiss_of_table he, Or.inl rfl⟩
  · have halone := h.orderly.alone_acquire h.idle page access
    have hanswer := (h.orderly.turn_acquire h.idle page access).2
    have hmodes := c.locks.holdings_acquire txn page access
    rcases hacq : c.locks.acquire txn page access with ⟨locks, answer⟩
    rw [hacq] at halone hanswer hmodes
    have hworks : c.Works txn { c with locks } := ⟨halone, h.placed⟩
    cases answer with
    | refused =>
      have hsame := (hmodes.resolve_left fun hgot => by cases hgot.1).2
      exact ⟨hworks, hworks.idle hanswer, rfl, Or.inl hsame⟩
    | waiting =>
      have hsame := (hmodes.resolve_left fun hgot => by cases hgot.1).2
      obtain ⟨entered, hpending⟩ := hanswer
      have huncovered := halone.orderly.uncovered txn _ hpending
      simp only [hsame] at huncovered
      exact ⟨hworks, hsame, rfl, huncovered, entered, hpending⟩
    | granted =>
      have hgets := (hmodes.resolve_right fun hnot => hnot.1 rfl).2
      have hidle := hworks.idle hanswer.1
      obtain ⟨hfades, hpage⟩ := fades_bring { c with locks } page
      have hshelves := Shelves.of_fades hfades
      have hall := hworks.trans (.of_shelves hidle hshelves)
      have hidle' := hidle.of_shelves hshelves
      have hgets' : c.locks.Gets txn page access (Cache.bring { c with locks } page).1.locks := by
        rw [hfades.locks_eq]
        exact hgets
      simp only
      rcases hbring : Cache.bring { c with locks } page with ⟨c', e | p⟩ <;>
        rw [hbring] at hall hpage hidle' hgets'
      · exact ⟨hall, hidle', isMiss_of_bring (congrArg Prod.snd hbring), Or.inr hgets'⟩
      · refine ⟨hall, hidle', hpage p rfl, fun q hq => ?_, hgets'⟩
        obtain ⟨frame, hframe, rfl⟩ := Option.map_eq_some_iff.1 hq
        simp only [bring, hframe] at hbring
        cases hbring
        rfl

/-- A call that waits for its page. -/
theorem Works.fares_blocked {access : Access} {stage : Stage} (h : c.Works txn c')
    (hf : c.fetch txn page access = (c', .blocked))
    (hfetches : c.Fetches txn page access c' .blocked) :
    c.Fares txn (c', .waiting page stage) := by
  obtain ⟨-, -, -, entered, hpending⟩ := hfetches
  refine ⟨h, ?_, blocked_of_fetch hf⟩
  rw [hpending]
  exact Option.some_ne_none _

/-- A page that was locked just now for reading is given back; then all is held as before. -/
theorem Idle.leave (h : c.Idle txn) {s : Locking} (hgets : s.Gets txn page .readOnly c.locks) :
    c.Works txn (c.leave txn page (s.table.holds txn page)) ∧
      (c.leave txn page (s.table.holds txn page)).Idle txn ∧
      (c.leave txn page (s.table.holds txn page)).locks.table.heldMode txn =
        s.table.heldMode txn := by
  have hworks : c.Works txn (c.release txn page) := ⟨h.orderly.alone_release txn page, h.placed⟩
  unfold Cache.leave
  split
  · rename_i hholds
    refine ⟨.refl h, h, ?_⟩
    rcases hgets.readOnly with ⟨-, hnone⟩ | ⟨hsame, -⟩
    · rw [LockTable.holds, hnone] at hholds
      cases hholds
    · rw [hsame]
  · rename_i hholds
    refine ⟨hworks, hworks.idle h.idle, ?_⟩
    rcases hgets.readOnly with ⟨hgrants, hnone⟩ | ⟨-, hsome⟩
    · exact hgrants.undone h.orderly hnone
    · exact absurd (LockTable.holds_iff.2 hsome) hholds

/-! ## Whoever is at work -/

theorem fill_stored (hid : p.id = page) (hres : c.residentPage page = some p)
    (txn : TransactionId) {place : RecordId} (hins : p.insert job.record = .ok (q, place)) :
    ∃ c', c.Shelves c' ∧ c.fill txn job p =
      (c', if job.tracked then .ok (.location place) else .ok (.stored place [q.id])) := by
  have hres' : c.residentPage q.id = some p := by rw [HeapPage.id_of_insert hins, hid, hres]
  obtain ⟨c', hshelves, he⟩ := Shelves.change hres' job.tracked txn (.ok (.location place))
    (.ok (.stored place [q.id]))
  refine ⟨c', hshelves, ?_⟩
  unfold fill
  rw [hins]
  exact he

theorem removeFrom_removed (hid : p.id = page) (hres : c.residentPage page = some p)
    (txn : TransactionId) {job : Deletion} (hdel : p.delete (some job.location) = .ok q) :
    ∃ c', c.Shelves c' ∧ c.removeFrom txn job p =
      (c', if job.tracked then .ok .done else .ok (.removed [q.id])) := by
  have hres' : c.residentPage q.id = some p := by rw [HeapPage.id_of_delete hdel, hid, hres]
  obtain ⟨c', hshelves, he⟩ := Shelves.change hres' job.tracked txn (.ok .done)
    (.ok (.removed [q.id]))
  refine ⟨c', hshelves, ?_⟩
  unfold removeFrom
  rw [hdel]
  exact he

theorem Idle.fares_fill (h : c.Idle txn) (hres : c.residentPage page = some p) (job : Insertion) :
    c.Fares txn (finish (c.fill txn job p)) := by
  rcases hins : p.insert job.record with e | ⟨q, place⟩
  · have he : c.fill txn job p = (c, .error e) := by rw [fill, hins]
    rw [he]
    exact h.fares_finished _
  · obtain ⟨c', hshelves, he⟩ := fill_stored (h.placed page p hres) hres txn hins
    rw [he]
    exact h.fares_shelves hshelves _

theorem Idle.fares_removeFrom (h : c.Idle txn) (hres : c.residentPage page = some p)
    (job : Deletion) : c.Fares txn (finish (c.removeFrom txn job p)) := by
  rcases hdel : p.delete (some job.location) with e | q
  · have he : c.removeFrom txn job p = (c, .error e) := by rw [removeFrom, hdel]
    rw [he]
    exact h.fares_finished _
  · obtain ⟨c', hshelves, he⟩ := removeFrom_removed (h.placed page p hres) hres txn hdel
    rw [he]
    exact h.fares_shelves hshelves _

theorem Idle.fares_fetchAndFill (h : c.Idle txn) (job : Insertion) (page : PageId) :
    c.Fares txn (c.fetchAndFill txn job page) := by
  obtain ⟨hworks, hfetches⟩ := h.fetch page .readWrite
  unfold fetchAndFill
  rcases hf : c.fetch txn page .readWrite with ⟨c', r | e | _⟩ <;> rw [hf] at hworks hfetches
  · exact .after hworks (hfetches.1.fares_fill hfetches.2.1 job)
  · exact ⟨hworks, hfetches.1.idle⟩
  · exact hworks.fares_blocked hf hfetches

theorem Idle.fares_append (h : c.Idle txn) (job : Insertion) :
    c.Fares txn (c.append txn job) := by
  have hshelves := Shelves.of_fades (Fades.allocate c job.table)
  unfold append
  rcases ha : c.allocate job.table with ⟨c', e | page⟩ <;> rw [ha] at hshelves
  · exact h.fares_shelves hshelves _
  · exact .after (.of_shelves h hshelves) ((h.of_shelves hshelves).fares_fetchAndFill job page)

theorem Idle.fares_seek (h : c.Idle txn) (job : Insertion) (left : Nat) (number : UInt32) :
    c.Fares txn (seek txn job left number c) := by
  induction left generalizing number c with
  | zero => exact h.fares_append job
  | succ left ih =>
    obtain ⟨hworks, hfetches⟩ := h.fetch ⟨job.table, number⟩ .readOnly
    unfold seek
    simp only
    rcases hf : c.fetch txn ⟨job.table, number⟩ .readOnly with ⟨c', r | e | _⟩ <;>
      rw [hf] at hworks hfetches
    · obtain ⟨hidle, hres, -, hgets⟩ := hfetches
      simp only
      split
      · obtain ⟨hleave, hidle', -⟩ := hidle.leave hgets
        exact .after (hworks.trans hleave) (ih hidle' _)
      · exact .after hworks (hidle.fares_fetchAndFill job _)
    · exact ⟨hworks, hfetches.1.idle⟩
    · exact hworks.fares_blocked hf hfetches

theorem Idle.fares_inspect (h : c.Idle txn) (job : Deletion) (p : HeapPage) :
    c.Fares txn (c.inspect txn job p) := by
  unfold inspect
  simp only
  split
  · exact h.fares_finished _
  · split
    · exact h.fares_finished _
    · obtain ⟨hworks, hfetches⟩ := h.fetch job.location.page .readWrite
      rcases hf : c.fetch txn job.location.page .readWrite with ⟨c', r | e | _⟩ <;>
        rw [hf] at hworks hfetches
      · exact .after hworks (hfetches.1.fares_removeFrom hfetches.2.1 job)
      · exact ⟨hworks, hfetches.1.idle⟩
      · exact hworks.fares_blocked hf hfetches

theorem Idle.fares_walk (h : c.Idle txn) (left : Nat) (draw : Draw) :
    c.Fares txn (walk txn left draw c) := by
  induction left using Nat.strong_induction_on generalizing draw c with | _ left ih
  rcases walk_cases txn left draw c with ⟨-, he⟩ | ⟨-, -, he⟩ | ⟨-, -, rest, rfl, he⟩ <;> rw [he]
  · exact h.fares_finished _
  · exact h.fares_finished _
  · obtain ⟨hworks, hfetches⟩ := h.fetch draw.serve.page .readOnly
    rcases hf : c.fetch txn draw.serve.page .readOnly with ⟨c', r | e | _⟩ <;>
      rw [hf] at hworks hfetches
    · exact .after hworks (ih rest (Nat.lt_succ_self rest) hfetches.1 _)
    · exact ⟨hworks, hfetches.1.idle⟩
    · exact hworks.fares_blocked hf hfetches

/-- A call goes on from any stage with its page, or with the reason why it has none. -/
theorem Idle.fares_proceed (h : c.Idle txn) (page : PageId) (stage : Stage)
    (result : Except StoreError HeapPage)
    (hres : ∀ p, result = .ok p → c.residentPage page = some p) :
    c.Fares txn (c.proceed txn page stage result) := by
  cases result with
  | error e => cases stage <;> exact h.fares_finished _
  | ok p =>
    have hp := hres p rfl
    cases stage with
    | walk d => exact h.fares_walk _ _
    | use purpose => exact h.fares_shelves (.use c txn p purpose) _
    | seek job left next before =>
      have hworks : c.Works txn (c.leave txn page before) := by
        unfold Cache.leave
        split
        · exact .refl h
        · exact ⟨h.orderly.alone_release txn page, h.placed⟩
      have hidle : (c.leave txn page before).Idle txn := by
        refine hworks.idle ?_
        unfold Cache.leave
        split <;> exact h.idle
      unfold proceed
      simp only
      split
      · exact .after hworks (hidle.fares_seek job left next)
      · exact h.fares_fetchAndFill job page
    | fill job => exact h.fares_fill hp job
    | inspect job => exact h.fares_inspect job p
    | remove job => exact h.fares_removeFrom hp job

/-- The page that a call has waited for is brought in, if that is possible. -/
theorem Idle.fares_brought (h : c.Idle txn) (page : PageId) (stage : Stage) :
    c.Fares txn ((c.bring page).1.proceed txn page stage (c.bring page).2) := by
  obtain ⟨hfades, hpage⟩ := fades_bring c page
  have hshelves := Shelves.of_fades hfades
  exact .after (.of_shelves h hshelves) ((h.of_shelves hshelves).fares_proceed page stage _ hpage)

theorem Idle.fares_ask (h : c.Idle txn) (page : PageId) (access : Access) (stage : Stage) :
    c.Fares txn (c.ask txn page access stage) := by
  obtain ⟨hworks, hfetches⟩ := h.fetch page access
  unfold ask
  rcases hf : c.fetch txn page access with ⟨c', r | e | _⟩ <;> rw [hf] at hworks hfetches
  · refine .after hworks (hfetches.1.fares_proceed page stage _ fun p hp => ?_)
    cases hp
    exact hfetches.2.1
  · exact .after hworks (hfetches.1.fares_proceed page stage _ fun p hp => by cases hp)
  · exact hworks.fares_blocked hf hfetches

theorem Idle.fares_start (h : c.Idle txn) (op : Operation) : c.Fares txn (c.start txn op) := by
  cases op with
  | fetch page access purpose => exact h.fares_ask page access _
  | insert job =>
    simp only [start, startInsert]
    split
    · exact h.fares_finished _
    · split
      · exact h.fares_finished _
      · exact h.fares_seek job _ _
  | delete location =>
    cases location with
    | none => exact h.fares_finished _
    | some place =>
      simp only [start, startDelete]
      split
      · exact h.fares_finished _
      · exact h.fares_ask place.page .readOnly _
  | deleteFrom table location =>
    simp only [start, startDeleteFrom]
    cases location with
    | none => rcases c.table table with e | file <;> exact h.fares_finished _
    | some place =>
      rcases c.table table with e | file
      · exact h.fares_finished _
      · simp only
        split
        · exact h.fares_finished _
        · exact h.fares_ask place.page .readOnly _
  | scan table =>
    simp only [start]
    split
    · exact h.fares_finished _
    · exact h.fares_walk _ _
  | draw cursor count => exact h.fares_walk _ _

end Cache

end PageCache
