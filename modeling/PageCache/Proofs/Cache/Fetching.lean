-- What a call can do. Until it is finished it changes nothing that is seen of a page; when
-- it is finished it has made the one change that its outcome tells of, on a page that its
-- transaction has locked for writing, or none.
import PageCache.Cache.Call
import PageCache.Proofs.Cache.Residency
import PageCache.Proofs.Lock.Turns

namespace PageCache

/-! ## Errands -/

/-- What a call is to do: it stores a row somewhere, takes out the record at a place, uses a
page, or reads the records of a table. -/
inductive Errand where
  | store (row : Row)
  | clear (place : RecordId)
  | visit (page : PageId) (purpose : Purpose)
  | read

/-- The change that a finished call has made. -/
def Errand.change : Errand → Outcome → Option Change
  | .store row, .ok (.location place) => some ⟨place, some row⟩
  | .store row, .ok (.stored place _) => some ⟨place, some row⟩
  | .clear place, .ok _ => some ⟨place, none⟩
  | _, _ => none

@[simp] theorem Errand.change_error (errand : Errand) (e : StoreError) :
    errand.change (.error e) = none := by cases errand <;> rfl

/-- The errand of an operation. A deletion without a place fails at once. -/
def Operation.errand : Operation → Errand
  | .fetch page _ purpose => .visit page purpose
  | .insert job => .store job.record.values
  | .delete (some place) => .clear place
  | .deleteFrom _ (some place) => .clear place
  | _ => .read

/-- The errand of a call that has come to a stage and is to go on with a page. -/
def Stage.errand (page : PageId) : Stage → Errand
  | .use purpose => .visit page purpose
  | .seek job .. => .store job.record.values
  | .fill job => .store job.record.values
  | .inspect job => .clear job.location
  | .remove job => .clear job.location
  | .walk _ => .read

/-- The page itself is changed, past the store's own insertions and deletions. -/
def Purpose.edits : Purpose → Bool
  | .insert .. => true
  | .delete .. => true
  | _ => false

/-- No failure was handed out yet. -/
def Draw.IsSmooth (d : Draw) : Prop := ∀ item ∈ d.items, ∃ r, item = .ok r

theorem Draw.isSmooth_nil (cursor : Cursor) (wanted : Option Nat) :
    Draw.IsSmooth ⟨cursor, wanted, []⟩ := fun _ hitem => by cases hitem

theorem Draw.IsSmooth.serve {d : Draw} (h : d.IsSmooth) : d.serve.IsSmooth := by
  intro item hitem
  rcases List.mem_append.1 hitem with hold | hnew
  · exact h item hold
  · obtain ⟨r, -, rfl⟩ := List.mem_map.1 hnew
    exact ⟨r, rfl⟩

/-- Pages are changed by insertions of whole records and by deletions only. -/
def Operation.IsPlain : Operation → Prop
  | .fetch _ _ purpose => purpose.edits = false
  | .insert job => job.record.IsWhole
  | _ => True

instance (op : Operation) : Decidable op.IsPlain :=
  match op with
  | .fetch _ _ purpose => inferInstanceAs (Decidable (purpose.edits = false))
  | .insert job => inferInstanceAs (Decidable job.record.IsWhole)
  | .delete _ | .deleteFrom _ _ | .scan _ | .draw _ _ => .isTrue trivial

/-- The same of what is left of a call. A walk goes on only while nothing has failed. -/
def Stage.IsPlain : Stage → Prop
  | .use purpose => purpose.edits = false
  | .seek job .. => job.record.IsWhole
  | .fill job => job.record.IsWhole
  | .walk draw => draw.IsSmooth
  | _ => True

/-- The call may still append a page. -/
def Stage.seeks : Stage → Bool
  | .seek .. => true
  | _ => false

/-- How the page is held for which a call at this stage has waited, where that matters. -/
def Stage.Asks : Stage → Access → Prop
  | .seek .., access => access = .readOnly
  | .fill _, access => access = .readWrite
  | .remove _, access => access = .readWrite
  | _, _ => True

/-- The page after a change that a transaction has made somewhere. -/
def HeapPage.altered (p : HeapPage) (txn : TransactionId) (change : Option Change)
    (page : PageId) : HeapPage :=
  match change with
  | some ch => if ch.place.page = page then (p.change ch).markDirty txn else p
  | none => p

theorem HeapPage.bare_altered (p : HeapPage) (txn : TransactionId) (change : Option Change)
    (page : PageId) : (p.altered txn change page).bare =
      (change.toList.filter (·.place.page = page)).foldl HeapPage.change p.bare := by
  cases change with
  | none => rfl
  | some ch =>
    rw [altered, Option.toList_some, List.filter_singleton]
    by_cases h : ch.place.page = page <;> simp [h]

namespace Cache

variable {c c' d : Cache} {page : PageId} {p q : HeapPage} {txn : TransactionId}
  {f : TableFile} {ch : Change} {change : Option Change} {errand : Errand}

/-- The cache is sound, its locks are in order, and the transaction waits for nothing. -/
structure Ready (txn : TransactionId) (c : Cache) : Prop where
  sound : c.Sound
  orderly : c.locks.Orderly
  idle : c.locks.pending.get? txn = none

/-- The transaction has done something that changes nothing that is seen of a page. -/
structure Calm (txn : TransactionId) (c c' : Cache) : Prop where
  quiet : c.Quiet c'
  turn : c.locks.Turn txn c'.locks
  log_eq : c'.log = c.log

/-- The transaction has made a change, or none, and nothing else has changed for those who
look at pages. The changed page is locked for writing by the transaction. -/
structure Did (txn : TransactionId) (c : Cache) (change : Option Change) (c' : Cache) : Prop
    extends c.Grows c' where
  view_eq : ∀ page, c'.view page = (c.view page).map (·.altered txn change page)
  sound : c'.Sound
  turn : c.locks.Turn txn c'.locks
  log_eq : c'.log = c.log
  writes : ∀ ch, change = some ch →
    c'.locks.table.heldMode txn ch.place.page = some .readWrite ∧ ∃ p, c.view ch.place.page = some p

/-- How far a call with an errand has come: it is finished and has made the change that its
outcome tells of, or it waits for a page and has changed nothing. A page that it was to look
at is returned as it was seen before, and is held. A call appends one page at the most. -/
def Proceeds (txn : TransactionId) (errand : Errand) (c : Cache) : Cache × Progress → Prop
  | (c', .finished outcome) =>
    c.Did txn (errand.change outcome) c' ∧ c'.locks.pending.get? txn = none ∧
      ∀ page p, errand = .visit page .view → outcome = .ok (.page p) →
        c.view page = some p ∧ c'.holds txn page = true
  | (c', .waiting page stage) =>
    c.Calm txn c' ∧ (stage.seeks = true → c.SameFiles c') ∧ stage.errand page = errand ∧
      stage.IsPlain ∧ ∃ r, c'.locks.pending.get? txn = some r ∧ r.page = page ∧ stage.Asks r.access

/-! ## Nothing is changed -/

theorem Calm.refl (h : c.Ready txn) : c.Calm txn c := ⟨.refl c, .refl h.orderly, rfl⟩

theorem Calm.trans (h₁ : c.Calm txn c') (h₂ : c'.Calm txn d) : c.Calm txn d :=
  ⟨h₁.quiet.trans h₂.quiet, h₁.turn.trans h₂.turn, h₂.log_eq.trans h₁.log_eq⟩

theorem Calm.ready (h : c.Calm txn c') (hc : c.Sound) (hidle : c'.locks.pending.get? txn = none) :
    c'.Ready txn := ⟨hc.of_quiet h.quiet h.turn.writers, h.turn.orderly, hidle⟩

theorem Calm.did (h : c.Calm txn c') (hc : c.Sound) : c.Did txn none c' where
  toGrows := h.quiet.toGrows
  view_eq page := by
    rw [h.quiet.view_eq]
    exact Option.map_id_fun'.symm ▸ rfl
  sound := hc.of_quiet h.quiet h.turn.writers
  turn := h.turn
  log_eq := h.log_eq
  writes _ hch := by cases hch

theorem Calm.trans_did (h₁ : c.Calm txn c') (h₂ : c'.Did txn change d) : c.Did txn change d where
  toGrows := h₁.quiet.toGrows.trans h₂.toGrows
  view_eq page := by rw [h₂.view_eq, h₁.quiet.view_eq]
  sound := h₂.sound
  turn := h₁.turn.trans h₂.turn
  log_eq := h₂.log_eq.trans h₁.log_eq
  writes ch hch := by
    obtain ⟨hheld, p, hp⟩ := h₂.writes ch hch
    exact ⟨hheld, p, by rw [← h₁.quiet.view_eq, hp]⟩

/-- The marks of others stay where they are: whoever has one has locked the page. -/
theorem Did.mark_stays (h : c.Did txn change c') (hc : c.Sound) {u : TransactionId}
    (hview : c.view page = some p) (hdirty : p.dirty = some u) :
    ∃ q, c'.view page = some q ∧ q.dirty = some u := by
  refine ⟨p.altered txn change page, by rw [h.view_eq, hview, Option.map_some], ?_⟩
  unfold HeapPage.altered
  split
  · rename_i ch
    split
    · rename_i hpage
      have hwriter := h.turn.writers u page (hc.locked page p u hview hdirty)
      have hmine := (h.writes ch rfl).1
      rw [hpage] at hmine
      have hx := h.turn.orderly.tidy.exclusive page
      rw [PageLock.eq_of_heldBy_readWrite hx hwriter (u := txn) (by
        rw [show (c'.locks.table.lockOf page).heldBy txn = some .readWrite from hmine]
        simp)]
      rfl
    · exact hdirty
  · exact hdirty

theorem Proceeds.after_growth {result : Cache × Progress} (h₁ : c.Calm txn c')
    (hseek : ∀ page stage, result.2 = .waiting page stage → stage.seeks = true → c.SameFiles c')
    (h₂ : c'.Proceeds txn errand result) : c.Proceeds txn errand result := by
  obtain ⟨d, outcome | ⟨page, stage⟩⟩ := result
  · obtain ⟨hdid, hidle, hshown⟩ := h₂
    refine ⟨h₁.trans_did hdid, hidle, ?_⟩
    intro page p herrand hout
    obtain ⟨hview, hholds⟩ := hshown page p herrand hout
    exact ⟨by rw [← h₁.quiet.view_eq, hview], hholds⟩
  · obtain ⟨hcalm, hfiles, hrest⟩ := h₂
    exact ⟨h₁.trans hcalm, fun hs => (hseek page stage rfl hs).trans (hfiles hs), hrest⟩

theorem Proceeds.after {result : Cache × Progress} (h₁ : c.Calm txn c') (hfiles : c.SameFiles c')
    (h₂ : c'.Proceeds txn errand result) : c.Proceeds txn errand result :=
  .after_growth h₁ (fun _ _ _ _ => hfiles) h₂

/-- A call that fails has changed nothing. -/
theorem Calm.proceeds_error (h : c.Calm txn c') (hc : c.Sound)
    (hidle : c'.locks.pending.get? txn = none) (e : StoreError) :
    c.Proceeds txn errand (c', .finished (.error e)) := by
  refine ⟨?_, hidle, fun _ _ _ hout => by cases hout⟩
  rw [Errand.change_error]
  exact h.did hc

/-- A call that only reads changes nothing, whatever it returns. -/
theorem Calm.proceeds_read (h : c.Calm txn c') (hc : c.Sound)
    (hidle : c'.locks.pending.get? txn = none) (outcome : Outcome) :
    c.Proceeds txn .read (c', .finished outcome) :=
  ⟨h.did hc, hidle, fun _ _ herrand => by cases herrand⟩

/-! ## Fetching a page -/

/-- What follows from the answer to the wish for a page: the page that was seen before is
resident and locked, or the transaction waits for it. -/
def FetchedAs (c c' : Cache) (txn : TransactionId) (page : PageId) (access : Access) :
    Fetched → Prop
  | .page p => c'.locks.pending.get? txn = none ∧ c.view page = some p ∧
      c'.residentPage page = some p ∧ ∃ m, c'.locks.table.heldMode txn page = some m ∧
        m.covers access = true ∧ (c.holds txn page = false → m = access)
  | .failed _ => c'.locks.pending.get? txn = none
  | .blocked => ∃ entered, c'.locks.pending.get? txn = some ⟨page, access, entered⟩

theorem Ready.fetch (h : c.Ready txn) (page : PageId) (access : Access) :
    c.Calm txn (c.fetch txn page access).1 ∧ c.SameFiles (c.fetch txn page access).1 ∧
      c.FetchedAs (c.fetch txn page access).1 txn page access (c.fetch txn page access).2 := by
  unfold Cache.fetch
  split
  · exact ⟨.refl h, .refl c, h.idle⟩
  · obtain ⟨hturn, hanswer⟩ := h.orderly.turn_acquire h.idle page access
    rcases hacq : c.locks.acquire txn page access with ⟨locks, answer⟩
    rw [hacq] at hturn hanswer
    have hlocked : c.Calm txn { c with locks } := ⟨.of_same rfl fun _ => rfl, hturn, rfl⟩
    cases answer with
    | refused => exact ⟨hlocked, .refl c, hanswer⟩
    | waiting => exact ⟨hlocked, .refl c, hanswer⟩
    | granted =>
      obtain ⟨hidle, m, hm, hcov, hnew⟩ := hanswer
      have hsound := (hlocked.ready h.sound hidle).sound
      obtain ⟨hquiet, hlocks, hlog, hpage⟩ := hsound.bring page
      have hfiles := hsound.sameFiles_bring page
      have hall : c.Calm txn (Cache.bring { c with locks } page).1 :=
        ⟨hlocked.quiet.trans hquiet, by rw [hlocks]; exact hturn, by rw [hlog]⟩
      simp only
      rcases hbring : Cache.bring { c with locks } page with ⟨c', e | p⟩
      · rw [hbring] at hall hfiles hlocks
        refine ⟨hall, hfiles, ?_⟩
        simp only at hlocks
        rw [FetchedAs, hlocks]
        exact hidle
      · rw [hbring] at hall hfiles hlocks hpage
        obtain ⟨hview, hres⟩ := hpage p rfl
        simp only at hlocks hres
        refine ⟨hall, hfiles, ?_⟩
        rw [FetchedAs, hlocks]
        exact ⟨hidle, hview, hres, m, hm, hcov, hnew⟩

/-! ## Walking through a table -/

/-- What a walk makes of the answer to its wish for the next page. -/
def walkThrough (txn : TransactionId) (left : Nat) (draw : Draw) :
    Cache × Fetched → Cache × Progress
  | (c, .failed e) => (c, .finished (draw.advance.outcomeOf e))
  | (c, .blocked) => (c, .waiting draw.page (.walk draw.advance))
  | (c, .page p) => walk txn left (draw.advance.receive p) c

/-- A walk is over if there is as much as was wanted, or if it can go no further. Else it fetches
the next page. -/
theorem walk_cases (txn : TransactionId) (left : Nat) (draw : Draw) (c : Cache) :
    (draw.serve.isFull = true ∧ walk txn left draw c = (c, .finished (draw.serve.outcome false))) ∨
    (draw.serve.isFull = false ∧ (draw.serve.cursor.failed = true ∨ left = 0) ∧
      walk txn left draw c = (c, .finished (draw.serve.outcome true))) ∨
    (draw.serve.isFull = false ∧ draw.serve.cursor.failed = false ∧ ∃ rest, left = rest + 1 ∧
      walk txn left draw c =
        walkThrough txn rest draw.serve (c.fetch txn draw.serve.page .readOnly)) := by
  rcases hfull : draw.serve.isFull with _ | _
  · rcases hfailed : draw.serve.cursor.failed with _ | _
    · cases left with
      | zero =>
        refine .inr (.inl ⟨rfl, .inr rfl, ?_⟩)
        simp [walk, hfull, hfailed]
      | succ rest =>
        refine .inr (.inr ⟨rfl, rfl, rest, rfl, ?_⟩)
        rcases hf : c.fetch txn draw.serve.page .readOnly with ⟨c', p | e | _⟩ <;>
          simp [walk, walkThrough, hfull, hfailed, hf]
    · refine .inr (.inl ⟨rfl, .inl rfl, ?_⟩)
      cases left <;> simp [walk, hfull, hfailed]
  · refine .inl ⟨rfl, ?_⟩
    cases left <;> simp [walk, hfull]

end Cache

end PageCache
