-- The ledger of a run: what can be written down of it from outside. It holds the files as
-- they were added, and the changes that finished calls have told of, each with its
-- transaction and whether that has committed. After every step the files hold what they held
-- at first with the committed changes, and pages are seen with the other changes too.
import PageCache.Proofs.Session.Runs

namespace PageCache

/-- A change that a finished call has told of. -/
structure Entry where
  txn : TransactionId
  change : Change
  committed : Bool

/-- What was written down of a run: the files as they were added, the operation that each
transaction has asked for last, and the changes in their order. -/
structure Ledger where
  files : FinMap TableId TableFile
  asked : FinMap TransactionId Operation
  entries : List Entry

namespace Ledger

def empty : Ledger := ⟨.empty, .empty, []⟩

/-! ## Writing the ledger -/

/-- The transaction of a step that goes on with an operation, and the operation. -/
def callOf (l : Ledger) : Action → Option (TransactionId × Operation)
  | .submit txn _ op => some (txn, op)
  | .resume txn => (l.asked.get? txn).map (txn, ·)
  | .expire txn => (l.asked.get? txn).map (txn, ·)
  | _ => none

/-- Enters the answer to an operation. -/
def hear (l : Ledger) (txn : TransactionId) (op : Operation) : Answer → Ledger
  | .busy => l
  | .waiting => { l with asked := l.asked.insert txn op }
  | .finished outcome =>
    let told := (op.errand.change outcome).toList.map fun ch => ⟨txn, ch, false⟩
    { l with asked := l.asked.insert txn op, entries := l.entries ++ told }

/-- The changes of a transaction are committed. -/
def commit (l : Ledger) (txn : TransactionId) : Ledger :=
  { l with
    entries := l.entries.map fun e => if e.txn = txn then { e with committed := true } else e }

/-- The changes of a transaction that were not committed are struck out. -/
def abort (l : Ledger) (txn : TransactionId) : Ledger :=
  { l with entries := l.entries.filter fun e => e.committed || e.txn ≠ txn }

/-- Enters a step and what was told of it. -/
def note (l : Ledger) (a : Action) : Report → Ledger
  | .added (.ok _) =>
    match a with
    | .addTable file => { l with files := l.files.insert file.table file }
    | _ => l
  | .answered answer =>
    match l.callOf a with
    | some (txn, op) => l.hear txn op answer
    | none => l
  | .ended result =>
    match a, result with
    | .commit txn, .ok _ => l.commit txn
    | .abort txn, _ => l.abort txn
    | _, _ => l
  | _ => l

/-- Enters the steps of a run. -/
def noteAll (l : Ledger) : List Action → List Report → Ledger
  | a :: actions, r :: reports => (l.note a r).noteAll actions reports
  | _, _ => l

/-! ## Reading the ledger -/

/-- The changes of one page, those that are wanted, in their order. -/
def changesOn (wanted : Entry → Bool) (page : PageId) (entries : List Entry) : List Change :=
  (entries.filter fun e => e.change.place.page = page && wanted e).map Entry.change

/-- A page as its file held it at first, with the changes that are wanted. A page that the
file did not have was blank. -/
def page (l : Ledger) (wanted : Entry → Bool) (page : PageId) : Option HeapPage :=
  ((l.files.get? page.table).bind (·.stored page)).map fun p =>
    (changesOn wanted page l.entries).foldl HeapPage.change p.bare

/-- The changes that a transaction is to see: those committed, and its own. -/
def seenBy (txn : TransactionId) (e : Entry) : Bool := e.committed || e.txn = txn

variable {l : Ledger} {s s' : Session} {entries : List Entry} {wanted other : Entry → Bool}
  {page : PageId} {txn : TransactionId} {op : Operation} {answer : Answer}

theorem changesOn_congr (h : ∀ e ∈ entries, e.change.place.page = page → wanted e = other e) :
    changesOn wanted page entries = changesOn other page entries := by
  refine congrArg (List.map Entry.change) (List.filter_congr fun e he => ?_)
  by_cases hpage : e.change.place.page = page
  · rw [h e he hpage]
  · simp only [hpage, decide_false, Bool.false_and]

theorem page_congr (h : ∀ e ∈ l.entries, e.change.place.page = page → wanted e = other e) :
    l.page wanted page = l.page other page := by
  unfold Ledger.page
  rw [changesOn_congr h]

/-- A change that is told of comes after the others. -/
theorem page_hear (l : Ledger) (txn : TransactionId) (op : Operation) (answer : Answer)
    (wanted : Entry → Bool) (page : PageId) : (l.hear txn op answer).page wanted page =
      (l.page wanted page).map fun p => (changesOn wanted page ((answer.change op.errand).toList.map
        fun ch => ⟨txn, ch, false⟩)).foldl HeapPage.change p := by
  cases answer with
  | busy => exact (Option.map_id_fun'.symm ▸ rfl)
  | waiting => exact (Option.map_id_fun'.symm ▸ rfl)
  | finished outcome =>
    simp only [Ledger.page, hear, Answer.change, Option.map_map, Function.comp_def, changesOn,
      List.filter_append, List.map_append, List.foldl_append]

theorem page_commit (l : Ledger) (txn : TransactionId) (wanted : Entry → Bool) (page : PageId) :
    (l.commit txn).page wanted page = l.page
      (fun e => wanted (if e.txn = txn then { e with committed := true } else e)) page := by
  have hsame : ∀ e : Entry, (if e.txn = txn then { e with committed := true } else e).change =
      e.change := fun e => by split <;> rfl
  simp only [Ledger.page, commit, changesOn, List.filter_map, List.map_map, Function.comp_def,
    hsame]

theorem page_abort (l : Ledger) (txn : TransactionId) (wanted : Entry → Bool) (page : PageId) :
    (l.abort txn).page wanted page =
      l.page (fun e => wanted e && (e.committed || e.txn ≠ txn)) page := by
  simp only [Ledger.page, abort, changesOn, List.filter_filter, Bool.and_assoc]

/-! ## What the ledger tells of a session -/

/-- The ledger tells what is seen of each page, and what its file holds. Whoever has a change
that is not committed on a page has left its mark there. -/
structure Tells (l : Ledger) (s : Session) : Prop where
  known : ∀ id, s.cache.tables.get? id = none ↔ l.files.get? id = none
  seen : ∀ page, (s.cache.view page).map HeapPage.bare = l.page (fun _ => true) page
  stored : ∀ page, (s.cache.onDisk page).map HeapPage.bare = l.page Entry.committed page
  asked : ∀ txn call, s.calls.get? txn = some call →
    ∃ op, l.asked.get? txn = some op ∧ call.stage.errand call.page = op.errand
  placed : ∀ e ∈ l.entries, l.files.get? e.change.place.page.table ≠ none
  marked : ∀ e ∈ l.entries, e.committed = false →
    ∃ p, s.cache.view e.change.place.page = some p ∧ p.dirty = some e.txn

theorem tells_new (config : Config) (log : Option WriteLog) :
    Ledger.empty.Tells (.new config log) where
  known _ := Iff.rfl
  seen _ := rfl
  stored _ := rfl
  asked _ _ hcall := by cases hcall
  placed _ he := by cases he
  marked _ he := by cases he

theorem Tells.of_unnoticed (h : l.Tells s) (hu : s.Unnoticed s') : l.Tells s' := by
  obtain ⟨hquiet, -, -, hcalls⟩ := hu
  refine ⟨fun id => (hquiet.none_iff id).trans (h.known id), ?_, ?_, ?_, h.placed, ?_⟩
  · intro page
    rw [hquiet.view_eq, h.seen]
  · intro page
    rw [hquiet.onDisk_eq, h.stored]
  · rw [hcalls]
    exact h.asked
  · intro e he hopen
    rw [hquiet.view_eq]
    exact h.marked e he hopen

/-- An open change of a page was made by whoever has left its mark there. -/
theorem Tells.seenBy_of_dirty (h : l.Tells s) {p : HeapPage} (hview : s.cache.view page = some p)
    (hdirty : p.dirty = some txn) {e : Entry} (he : e ∈ l.entries)
    (hpage : e.change.place.page = page) : seenBy txn e = true := by
  rcases hopen : e.committed with _ | _
  · obtain ⟨q, hq, hmark⟩ := h.marked e he hopen
    rw [hpage, hview, Option.some.injEq] at hq
    rw [← hq, hdirty, Option.some.injEq] at hmark
    simp [seenBy, hmark]
  · simp [seenBy, hopen]

/-- Where a transaction has not left its mark, it has no open changes. -/
theorem Tells.committed_of_not_dirty (h : l.Tells s)
    (hnot : ∀ p, s.cache.view page = some p → p.dirty ≠ some txn) {e : Entry} (he : e ∈ l.entries)
    (hpage : e.change.place.page = page) (htxn : e.txn = txn) : e.committed = true := by
  rcases hopen : e.committed with _ | _
  · obtain ⟨p, hp, hmark⟩ := h.marked e he hopen
    rw [hpage] at hp
    exact absurd (htxn ▸ hmark) (hnot p hp)
  · rfl

/-- A call of a transaction keeps to the pages that nobody else has changed. -/
theorem Tells.hear (h : l.Tells s) (hcoh : s.Coherent)
    (hstep : s.CallStep txn op.errand answer s') : (l.hear txn op answer).Tells s' := by
  have hfiles : (l.hear txn op answer).files = l.files := by cases answer <;> rfl
  have hentries : (l.hear txn op answer).entries =
      l.entries ++ (answer.change op.errand).toList.map fun ch => ⟨txn, ch, false⟩ := by
    cases answer <;> simp [Ledger.hear, Answer.change]
  have hnew : ∀ {e : Entry}, e ∈ (answer.change op.errand).toList.map
      (fun ch => (⟨txn, ch, false⟩ : Entry)) → ∃ ch, answer.change op.errand = some ch ∧
        e = ⟨txn, ch, false⟩ := by
    intro e he
    obtain ⟨ch, hch, rfl⟩ := List.mem_map.1 he
    exact ⟨ch, by simpa using hch, rfl⟩
  have htables := hstep.did.toGrows.none_iff
  constructor
  · intro id
    rw [hfiles, htables, h.known]
  · intro page
    have hchanges : changesOn (fun _ => true) page ((answer.change op.errand).toList.map
        fun ch => (⟨txn, ch, false⟩ : Entry)) =
        (answer.change op.errand).toList.filter (·.place.page = page) := by
      simp [changesOn, List.filter_map, Function.comp_def]
    rw [page_hear, hstep.did.view_eq, ← h.seen, Option.map_map, Option.map_map, hchanges]
    exact congrArg (Option.map · _) (funext fun p => p.bare_altered txn _ page)
  · intro page
    have hnone : changesOn Entry.committed page ((answer.change op.errand).toList.map
        fun ch => (⟨txn, ch, false⟩ : Entry)) = [] := by
      simp [changesOn, List.filter_map, Function.comp_def]
    rw [page_hear, hstep.did.onDisk_eq, h.stored, hnone]
    exact Option.map_id_fun'.symm ▸ rfl
  · intro u call hcall
    by_cases hu : u = txn
    · subst hu
      obtain ⟨rfl, herrand⟩ := hstep.left call hcall
      exact ⟨op, FinMap.get?_insert_self _ _ _, herrand⟩
    · rw [hstep.others u hu] at hcall
      obtain ⟨asked, hasked, herrand⟩ := h.asked u call hcall
      refine ⟨asked, ?_, herrand⟩
      cases answer with
      | busy => exact hasked
      | waiting => exact (FinMap.get?_insert_of_ne _ _ hu).trans hasked
      | finished outcome => exact (FinMap.get?_insert_of_ne _ _ hu).trans hasked
  · intro e he
    rw [hfiles]
    rw [hentries] at he
    rcases List.mem_append.1 he with hold | he
    · exact h.placed e hold
    · obtain ⟨ch, hch, rfl⟩ := hnew he
      obtain ⟨-, p, hp⟩ := hstep.did.writes ch hch
      obtain ⟨f, hf⟩ := hcoh.sound.exists_table hp
      rw [ne_eq, ← h.known, hf]
      simp
  · intro e he hopen
    rw [hentries] at he
    rcases List.mem_append.1 he with hold | he
    · obtain ⟨p, hp, hmark⟩ := h.marked e hold hopen
      exact hstep.did.mark_stays hcoh.sound hp hmark
    · obtain ⟨ch, hch, rfl⟩ := hnew he
      obtain ⟨-, p, hp⟩ := hstep.did.writes ch hch
      refine ⟨(p.change ch).markDirty txn, ?_, rfl⟩
      rw [hstep.did.view_eq, hp, hch, Option.map_some, HeapPage.altered, if_pos rfl]

/-- A table that is added has no entries yet. -/
theorem Tells.addTable (h : l.Tells s) (hcoh : s.Coherent) {file : TableFile}
    (hnew : s.cache.tables.get? file.table = none) :
    Tells { l with files := l.files.insert file.table file }
      { s with cache := s.cache.setTable file } := by
  have hget : ∀ id, (l.files.insert file.table file).get? id =
      if id = file.table then some file else l.files.get? id := fun id => FinMap.get?_insert ..
  have hnone : ∀ wanted page, page.table = file.table → changesOn wanted page l.entries = [] := by
    intro wanted page htable
    have hfalse : changesOn wanted page l.entries = changesOn (fun _ => false) page l.entries :=
      changesOn_congr fun e he hpage => by
        have hplaced := h.placed e he
        rw [hpage, htable, ne_eq, ← h.known, hnew] at hplaced
        exact absurd rfl hplaced
    rw [hfalse]
    simp [changesOn]
  have hdisk := s.cache.onDisk_setTable file
  have hview := hcoh.sound.view_new_table hnew
  have hpage : ∀ wanted page, Ledger.page { l with files := l.files.insert file.table file }
      wanted page = if page.table = file.table then (file.stored page).map HeapPage.bare
        else l.page wanted page := by
    intro wanted page
    simp only [Ledger.page, hget]
    split
    · rename_i htable
      simp only [hnone wanted page htable, Option.bind_some, List.foldl_nil]
    · rfl
  refine ⟨?_, ?_, ?_, h.asked, ?_, ?_⟩
  · intro id
    rw [Cache.get?_setTable, hget]
    split
    · simp
    · exact h.known id
  · intro page
    rw [hview, hpage]
    split
    · rfl
    · exact h.seen page
  · intro page
    rw [hdisk, hpage]
    split
    · rfl
    · exact h.stored page
  · intro e he
    rw [hget]
    split
    · simp
    · exact h.placed e he
  · intro e he hopen
    obtain ⟨p, hp, hmark⟩ := h.marked e he hopen
    refine ⟨p, ?_, hmark⟩
    obtain ⟨f, hf⟩ := hcoh.sound.exists_table hp
    rw [hview, if_neg, hp]
    intro htable
    rw [htable, hnew] at hf
    cases hf

/-- After a commit the files hold the changes of the transaction too. -/
theorem Tells.commit (h : l.Tells s) (hcalls : s'.calls = s.calls)
    (hended : s.cache.Ended txn (fun page => (s.cache.view page).map HeapPage.saved) s'.cache) :
    (l.commit txn).Tells s' := by
  refine ⟨fun id => (hended.tables_iff id).trans (h.known id), ?_, ?_, hcalls ▸ h.asked, ?_, ?_⟩
  · intro page
    rw [page_commit, ← h.seen]
    by_cases hmark : ∃ p, s.cache.view page = some p ∧ p.dirty = some txn
    · obtain ⟨p, hp, hdirty⟩ := hmark
      rw [(hended.changed page p hp hdirty).1, hp]
      simp
    · rw [(hended.unchanged page fun p hp hdirty => hmark ⟨p, hp, hdirty⟩).1]
  · intro page
    rw [page_commit]
    by_cases hmark : ∃ p, s.cache.view page = some p ∧ p.dirty = some txn
    · obtain ⟨p, hp, hdirty⟩ := hmark
      have hall : l.page (fun e => Entry.committed (if e.txn = txn then { e with committed := true }
          else e)) page = l.page (fun _ => true) page := page_congr fun e he hpage => by
        have hseen := h.seenBy_of_dirty hp hdirty he hpage
        split
        · rfl
        · rename_i hne
          simpa [seenBy, hne] using hseen
      rw [(hended.changed page p hp hdirty).2, hall, ← h.seen, hp]
      simp
    · have hnot : ∀ p, s.cache.view page = some p → p.dirty ≠ some txn :=
        fun p hp hdirty => hmark ⟨p, hp, hdirty⟩
      rw [(hended.unchanged page hnot).2, h.stored]
      apply page_congr
      intro e he hpage
      split
      · rename_i htxn
        rw [h.committed_of_not_dirty hnot he hpage htxn]
      · rfl
  · intro e he
    obtain ⟨e', he', rfl⟩ := List.mem_map.1 he
    split <;> exact h.placed e' he'
  · intro e he hopen
    obtain ⟨e', he', rfl⟩ := List.mem_map.1 he
    split at hopen
    · cases hopen
    · rename_i hne
      rw [if_neg hne]
      obtain ⟨p, hp, hmark⟩ := h.marked e' he' hopen
      exact ⟨p, hended.mark_stays hp hmark hne, hmark⟩

/-- After an abort nobody sees the changes of the transaction any more. -/
theorem Tells.abort (h : l.Tells s) (hcalls : s'.calls = s.calls)
    (hended : s.cache.Ended txn s.cache.onDisk s'.cache) : (l.abort txn).Tells s' := by
  have hcommitted : ∀ page, (l.abort txn).page Entry.committed page =
      l.page Entry.committed page := by
    intro page
    rw [page_abort]
    exact page_congr fun e _ _ => by cases e.committed <;> rfl
  refine ⟨fun id => (hended.tables_iff id).trans (h.known id), ?_, ?_, hcalls ▸ h.asked, ?_, ?_⟩
  · intro page
    by_cases hmark : ∃ p, s.cache.view page = some p ∧ p.dirty = some txn
    · obtain ⟨p, hp, hdirty⟩ := hmark
      rw [(hended.changed page p hp hdirty).1, h.stored, page_abort]
      apply page_congr
      intro e he hpage
      have hseen := h.seenBy_of_dirty hp hdirty he hpage
      by_cases htxn : e.txn = txn <;> simp_all [seenBy]
    · have hnot : ∀ p, s.cache.view page = some p → p.dirty ≠ some txn :=
        fun p hp hdirty => hmark ⟨p, hp, hdirty⟩
      rw [(hended.unchanged page hnot).1, h.seen, page_abort]
      apply page_congr
      intro e he hpage
      by_cases htxn : e.txn = txn
      · simp [h.committed_of_not_dirty hnot he hpage htxn]
      · simp [htxn]
  · intro page
    rw [hcommitted, ← h.stored]
    by_cases hmark : ∃ p, s.cache.view page = some p ∧ p.dirty = some txn
    · obtain ⟨p, hp, hdirty⟩ := hmark
      rw [(hended.changed page p hp hdirty).2]
    · rw [(hended.unchanged page fun p hp hdirty => hmark ⟨p, hp, hdirty⟩).2]
  · intro e he
    exact h.placed e (List.mem_of_mem_filter he)
  · intro e he hopen
    obtain ⟨he', hkept⟩ := List.mem_filter.1 he
    have hne : e.txn ≠ txn := by simpa [hopen] using hkept
    obtain ⟨p, hp, hmark⟩ := h.marked e he' hopen
    exact ⟨p, hended.mark_stays hp hmark hne, hmark⟩

/-- A transaction without a call may be taken to have asked for anything. -/
theorem Tells.hear_waiting (h : l.Tells s) (hcall : s.calls.get? txn = none) :
    (l.hear txn op .waiting).Tells s := by
  refine ⟨h.known, h.seen, h.stored, ?_, h.placed, h.marked⟩
  intro u call hu
  have hne : u ≠ txn := by
    rintro rfl
    rw [hcall] at hu
    cases hu
  obtain ⟨asked, hasked, herrand⟩ := h.asked u call hu
  exact ⟨asked, (FinMap.get?_insert_of_ne _ _ hne).trans hasked, herrand⟩

/-- The same of a step that goes on with the call of a transaction. -/
theorem Tells.hear_again (h : l.Tells s) (hcoh : s.Coherent)
    (heffect : (s.calls.get? txn = none ∧ answer = .waiting ∧ s' = s) ∨
      ∃ call, s.calls.get? txn = some call ∧
        s.CallStep txn (call.stage.errand call.page) answer s') :
    Tells (match (l.asked.get? txn).map (txn, ·) with
      | some (txn, op) => l.hear txn op answer
      | none => l) s' := by
  rcases heffect with ⟨hcall, rfl, rfl⟩ | ⟨call, hcall, hstep⟩
  · rcases l.asked.get? txn with _ | op
    · exact h
    · exact h.hear_waiting hcall
  · obtain ⟨op, hop, herrand⟩ := h.asked txn call hcall
    rw [herrand] at hstep
    rw [hop]
    exact h.hear hcoh hstep

/-- Whatever a step does, unless it is an end that has failed, the ledger goes on telling what is
seen and what is stored. -/
theorem Tells.note (h : l.Tells s) (hcoh : s.Coherent) {a : Action} {report : Report}
    (hended : ∀ e, report ≠ .ended (.error e)) (heffect : s.Effect a report s') :
    (l.note a report).Tells s' := by
  cases a with
  | addTable file =>
    rcases heffect with ⟨rfl, hnew, rfl⟩ | ⟨e, rfl, rfl⟩
    · exact h.addTable hcoh hnew
    · exact h
  | submit txn name op =>
    obtain ⟨answer, rfl, ⟨rfl, rfl⟩ | ⟨-, hstep⟩⟩ := heffect
    · exact h
    · exact h.hear hcoh hstep
  | resume txn =>
    obtain ⟨answer, rfl, heffect⟩ := heffect
    exact h.hear_again hcoh heffect
  | expire txn =>
    obtain ⟨answer, rfl, heffect⟩ := heffect
    exact h.hear_again hcoh heffect
  | commit txn =>
    obtain ⟨hcalls, ⟨rfl, hdone⟩ | ⟨e, written, refused, rest, rfl, -⟩⟩ := heffect
    · exact h.commit hcalls hdone
    · exact absurd rfl (hended e)
  | abort txn =>
    obtain ⟨hcalls, rfl, hdone⟩ := heffect
    exact h.abort hcalls hdone
  | allocate _ | evict | unpin _ | openIterator _ _ _ | rewindIterator _ =>
    rcases report with _ | _ | (_ | _) | _ | _ | _ <;> exact h.of_unnoticed heffect

/-- What a ledger tells stays true along a run. -/
theorem Tells.run (h : l.Tells s) (hcoh : s.Coherent) {actions : List Action}
    (hadmits : s.AdmitsAll actions) (hended : ∀ e, .ended (.error e) ∉ (s.run actions).2) :
    (l.noteAll actions (s.run actions).2).Tells (s.run actions).1 ∧ (s.run actions).1.Coherent := by
  induction actions generalizing l s with
  | nil => exact ⟨h, hcoh⟩
  | cons a rest ih =>
    obtain ⟨ha, hrest⟩ := hadmits
    obtain ⟨hcoh', heffect⟩ := hcoh.perform ha
    have hfirst : ∀ e, (s.perform a).2 ≠ .ended (.error e) := fun e heq =>
      hended e (heq ▸ List.mem_cons_self)
    exact ih (h.note hcoh hfirst heffect) hcoh' hrest fun e he =>
      hended e (List.mem_cons_of_mem _ he)

end Ledger

namespace Session

variable {config : Config} {log : Option WriteLog} {actions : List Action}

/-- The ledger of a run of a new session. -/
def ledger (config : Config) (log : Option WriteLog) (actions : List Action) : Ledger :=
  Ledger.empty.noteAll actions ((new config log).run actions).2

/-- No end fails if the log refuses nothing. -/
theorem Coherent.all_ends_done {s : Session} (h : s.Coherent) (hlog : s.cache.AcceptsAll)
    (hadmits : s.AdmitsAll actions) (e : StoreError) : .ended (.error e) ∉ (s.run actions).2 := by
  induction actions generalizing s with
  | nil => exact List.not_mem_nil
  | cons a rest ih =>
    obtain ⟨ha, hrest⟩ := hadmits
    obtain ⟨hcoh, heffect⟩ := h.perform ha
    have hfirst : .ended (.error e) ≠ (s.perform a).2 := by
      cases a with
      | commit txn =>
        obtain ⟨-, ⟨hreport, -⟩ | ⟨_, _, _, _, -, -, -, -, hnot⟩⟩ := heffect
        · rw [hreport]
          intro heq
          cases heq
        · exact absurd hlog hnot
      | abort txn =>
        rw [heffect.2.1]
        intro heq
        cases heq
      | addTable file | evict =>
        simp only [Session.perform]
        split <;> intro heq <;> cases heq
      | _ =>
        intro heq
        cases heq
    intro hmem
    rcases List.mem_cons.1 hmem with heq | hrest'
    · exact hfirst heq
    · exact ih hcoh (heffect.accepts hlog) hrest hrest'

theorem tells_ledger (hlog : (new config log).cache.AcceptsAll)
    (hadmits : (new config log).AdmitsAll actions) :
    (ledger config log actions).Tells ((new config log).run actions).1 ∧
      ((new config log).run actions).1.Coherent :=
  (Ledger.tells_new config log).run (coherent_new config log) hadmits
    ((coherent_new config log).all_ends_done hlog hadmits)

/-- **The files hold what was committed.** In a run of any number of transactions, with calls
that wait and go on in any order, whose log refuses nothing: after every step the bytes of
each page of each table stand for the page that the file held at first (a blank one, where it
had none) with the changes of the transactions that have committed, in their order, and with
no other changes. -/
theorem disk_equals_committed (hlog : (new config log).cache.AcceptsAll)
    (hadmits : (new config log).AdmitsAll actions) {id : TableId} {f : TableFile}
    (hf : ((new config log).run actions).1.cache.tables.get? id = some f) {number : UInt32}
    (hnumber : number < f.pageCount) :
    (HeapPage.ofImage ⟨id, number⟩ f.schema f.disk.pageSize (f.disk.pageBytes number)).toOption.map
        HeapPage.bare = (ledger config log actions).page Entry.committed ⟨id, number⟩ := by
  rw [← (tells_ledger hlog hadmits).1.stored, Cache.onDisk, hf, Option.bind_some, TableFile.stored,
    if_pos hnumber]

/-! ## A run -/

/-- A table of flags on pages of two bytes, with one flag on a page. -/
def flags : Schema := ⟨[⟨"flag", .boolean⟩]⟩

def flagFile (file : SparseFile) (pageCount reads writes : UInt32) : TableFile :=
  ⟨⟨1⟩, flags, ⟨file, 2, pageCount, reads, writes⟩⟩

def flagPage : PageId := ⟨⟨1⟩, 0⟩

/-- The only flag is raised by one transaction. Another one waits to see it, and then takes it
away but does not end. -/
def handover : List Action :=
  [.addTable (flagFile .empty 0 0 0),
    .submit ⟨1⟩ none (.insert ⟨⟨1⟩, ⟨flags, [.boolean true], none⟩, true⟩),
    .submit ⟨2⟩ none (.fetch flagPage .readOnly .view),
    .commit ⟨1⟩,
    .resume ⟨2⟩,
    .submit ⟨2⟩ none (.delete (some ⟨flagPage, 0⟩))]

theorem disk_equals_committed_after_handover :
    (HeapPage.ofImage flagPage flags 2 [1, 1]).toOption.map HeapPage.bare =
        (ledger ⟨1, 1, none⟩ none handover).page Entry.committed flagPage ∧
      (ledger ⟨1, 1, none⟩ none handover).page Entry.committed flagPage =
        some ⟨flagPage, flags, 2, #[some [.boolean true]], [], none, []⟩ :=
  ⟨@disk_equals_committed ⟨1, 1, none⟩ none handover (fun _ hlog => by cases hlog)
      (by decide +kernel) ⟨1⟩ (flagFile ⟨2, [⟨0, [1, 1]⟩]⟩ 1 1 2) (by decide +kernel) 0
      (by decide +kernel),
    by decide +kernel⟩

end Session

end PageCache
