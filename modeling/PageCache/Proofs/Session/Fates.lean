-- What becomes of changes when commits may fail. Beside the ledger of a run stands a list of all
-- changes that are to be seen on a page or in its file, each with its fate. A commit that is
-- refused midway files the changes of the pages that it has come to; if its transaction is
-- aborted then, they are stranded there. The files hold what is filed, committed or stranded.
import PageCache.Proofs.Session.FailedCommit
import PageCache.Proofs.Session.Bystanders

namespace PageCache

/-- What has become of a change. -/
inductive Fate where
  /-- Its page has not been written since. -/
  | pending
  /-- A commit of its transaction has written its page, and failed at another one. -/
  | filed
  /-- Its transaction has committed. -/
  | committed
  /-- It was filed, and its transaction has been aborted since. -/
  | stranded
deriving DecidableEq

/-- A change that a finished call has told of, and what has become of it. -/
structure Note where
  txn : TransactionId
  change : Change
  fate : Fate
deriving DecidableEq

namespace Note

variable {txn : TransactionId} {pages : List PageId} {n m : Note}

/-! ## The fates of changes -/

/-- The file of its page holds the change. -/
def isFiled (n : Note) : Bool := n.fate ≠ .pending

/-- A commit that fails has written some pages. -/
def file (txn : TransactionId) (pages : List PageId) (n : Note) : Note :=
  if n.txn = txn ∧ n.fate = .pending ∧ n.change.place.page ∈ pages then { n with fate := .filed }
  else n

/-- A transaction commits. What was stranded by one with its id before stays so. -/
def commit (txn : TransactionId) (n : Note) : Note :=
  if n.txn = txn ∧ n.fate ≠ .stranded then { n with fate := .committed } else n

/-- A transaction is aborted. What is not in a file goes, and what is there stays. -/
def abort (txn : TransactionId) (n : Note) : Option Note :=
  if n.txn ≠ txn then some n
  else
    match n.fate with
    | .pending => none
    | .filed => some { n with fate := .stranded }
    | .committed | .stranded => some n

/-- How the note stands in the ledger. -/
def entry (n : Note) : Entry := ⟨n.txn, n.change, n.fate = .committed⟩

/-- How it would stand there if whatever is filed was committed. -/
def filing (n : Note) : Entry := ⟨n.txn, n.change, n.isFiled⟩

theorem file_same (txn : TransactionId) (pages : List PageId) (n : Note) :
    (n.file txn pages).txn = n.txn ∧ (n.file txn pages).change = n.change := by
  unfold file
  split <;> exact ⟨rfl, rfl⟩

theorem commit_same (txn : TransactionId) (n : Note) :
    (n.commit txn).txn = n.txn ∧ (n.commit txn).change = n.change := by
  unfold commit
  split <;> exact ⟨rfl, rfl⟩

theorem abort_same (h : n.abort txn = some m) : m.txn = n.txn ∧ m.change = n.change := by
  unfold abort at h
  split at h
  · cases h
    exact ⟨rfl, rfl⟩
  · split at h <;> cases h <;> exact ⟨rfl, rfl⟩

theorem filing_commit (txn : TransactionId) (n : Note) : (n.commit txn).filing =
    if n.filing.txn = txn then { n.filing with committed := true } else n.filing := by
  obtain ⟨u, ch, fate⟩ := n
  by_cases hu : u = txn <;> cases fate <;> simp [commit, filing, isFiled, hu]

theorem filing_abort (txn : TransactionId) (n : Note) : (n.abort txn).map filing =
    if n.filing.committed || n.filing.txn ≠ txn then some n.filing else none := by
  obtain ⟨u, ch, fate⟩ := n
  by_cases hu : u = txn <;> cases fate <;> simp [abort, filing, isFiled, hu]

theorem isStranded_commit (txn : TransactionId) (n : Note) :
    (n.commit txn).fate = .stranded ↔ n.fate = .stranded := by
  obtain ⟨u, ch, fate⟩ := n
  by_cases hu : u = txn <;> cases fate <;> simp [commit, hu]

theorem isStranded_file (txn : TransactionId) (pages : List PageId) (n : Note) :
    (n.file txn pages).fate = .stranded ↔ n.fate = .stranded := by
  unfold file
  split
  · rename_i hfiles
    simp [hfiles.2.1]
  · exact Iff.rfl

theorem entry_commit (h : n.fate ≠ .stranded) : (n.commit txn).entry =
    if n.entry.txn = txn then { n.entry with committed := true } else n.entry := by
  by_cases hu : n.txn = txn <;> simp [commit, entry, hu, h]

theorem entry_file (txn : TransactionId) (pages : List PageId) (n : Note) :
    (n.file txn pages).entry = n.entry := by
  unfold file
  split
  · rename_i hfiles
    simp [entry, hfiles.2.1]
  · rfl

end Note

/-- The changes that a step has told of. -/
def Ledger.heard (l : Ledger) (a : Action) : Report → List Note
  | .answered answer =>
    match l.callOf a with
    | some (txn, op) => (answer.change op.errand).toList.map fun ch => ⟨txn, ch, .pending⟩
    | none => []
  | _ => []

/-- The ledger of the files: a change counts as committed as soon as its file holds it. -/
def Ledger.ofFiles (l : Ledger) (notes : List Note) : Ledger :=
  { l with entries := notes.map Note.filing }

/-- The notes after a step. -/
def Session.recount (s : Session) (l : Ledger) (notes : List Note) (a : Action) : List Note :=
  match a with
  | .commit txn =>
    match (s.cache.commit txn).2 with
    | .ok _ => notes.map (Note.commit txn)
    | .error _ => notes.map (Note.file txn ((s.perform a).1.passed txn))
  | .abort txn => notes.filterMap (Note.abort txn)
  | a => notes ++ l.heard a (s.perform a).2

/-- The notes after a run. -/
def Session.recountAll (s : Session) (l : Ledger) (notes : List Note) : List Action → List Note
  | [] => notes
  | a :: rest =>
    (s.perform a).1.recountAll (l.note a (s.perform a).2) (s.recount l notes a) rest

/-- The notes of a run of a new session. -/
def Session.fates (config : Config) (log : Option WriteLog) (actions : List Action) : List Note :=
  (new config log).recountAll .empty [] actions

/-- The last change at a place that its file holds. -/
def lastFiled (place : RecordId) (notes : List Note) : Option Note :=
  (notes.filter fun n => n.change.place = place && n.isFiled).getLast?

/-- What has become of the change that has put a record into its file. What a file held when it was
added counts as committed. -/
def fateOf (notes : List Note) (r : Record) : Fate :=
  (r.location.bind (lastFiled · notes)).elim .committed Note.fate

/-- The last change at a place, of those in the ledger that are wanted. -/
def Ledger.lastAt (l : Ledger) (wanted : Entry → Bool) (place : RecordId) : Option Change :=
  (l.entries.filter fun e => e.change.place = place && wanted e).getLast?.map Entry.change

/-- By the ledger, the record stands at its place on a page with all committed changes. -/
def Ledger.hasCommitted (l : Ledger) (r : Record) : Bool :=
  (r.location.bind fun place => l.page Entry.committed place.page).any (r ∈ ·.records)

/-! ## The ledger of the files -/

namespace Ledger

variable {l : Ledger} {notes : List Note} {s s' : Session} {a : Action} {txn : TransactionId}
  {page : PageId} {report : Report}

/-- A step that ends no transaction. -/
def NoEnd (a : Action) : Prop := (∀ txn, a ≠ .commit txn) ∧ ∀ txn, a ≠ .abort txn

theorem ofFiles_commit (l : Ledger) (notes : List Note) (txn : TransactionId) :
    (l.ofFiles notes).commit txn = (l.commit txn).ofFiles (notes.map (Note.commit txn)) := by
  simp only [ofFiles, commit, List.map_map, Function.comp_def, Note.filing_commit]

theorem ofFiles_abort (l : Ledger) (notes : List Note) (txn : TransactionId) :
    (l.ofFiles notes).abort txn = (l.abort txn).ofFiles (notes.filterMap (Note.abort txn)) := by
  simp only [ofFiles, abort, List.map_filterMap, Note.filing_abort, List.filter_map]
  rw [← List.filterMap_eq_map, List.filterMap_filter]
  rfl

theorem ofFiles_note (hend : NoEnd a) (l : Ledger) (notes : List Note) (report : Report) :
    (l.ofFiles notes).note a report = (l.note a report).ofFiles (notes ++ l.heard a report) := by
  have hcallOf : (l.ofFiles notes).callOf a = l.callOf a := by cases a <;> rfl
  cases report with
  | answered answer =>
    rw [Ledger.note, Ledger.note, heard, hcallOf]
    rcases l.callOf a with _ | ⟨txn, op⟩
    · simp [ofFiles]
    · cases answer <;>
        simp [ofFiles, hear, Answer.change, Note.filing, Note.isFiled, Function.comp_def]
  | ended result =>
    cases a with
    | commit txn => exact absurd rfl (hend.1 txn)
    | abort txn => exact absurd rfl (hend.2 txn)
    | _ => simp [Ledger.note, heard, ofFiles]
  | added result => cases result <;> cases a <;> simp [Ledger.note, heard, ofFiles]
  | _ => simp [Ledger.note, heard, ofFiles]

theorem entries_note (hend : NoEnd a) (l : Ledger) (report : Report) :
    (l.note a report).entries = l.entries ++ (l.heard a report).map Note.entry := by
  cases report with
  | answered answer =>
    rw [Ledger.note, heard]
    rcases l.callOf a with _ | ⟨txn, op⟩
    · simp
    · cases answer <;> simp [hear, Answer.change, Note.entry, Function.comp_def]
  | ended result =>
    cases a with
    | commit txn => exact absurd rfl (hend.1 txn)
    | abort txn => exact absurd rfl (hend.2 txn)
    | _ => simp [Ledger.note, heard]
  | added result => cases result <;> cases a <;> simp [Ledger.note, heard]
  | _ => simp [Ledger.note, heard]

theorem fate_of_heard {n : Note} (h : n ∈ l.heard a report) : n.fate = .pending := by
  unfold heard at h
  split at h
  · split at h
    · obtain ⟨ch, -, rfl⟩ := List.mem_map.1 h
      rfl
    · cases h
  · cases h

theorem Tells.marked_of_pending (h : (l.ofFiles notes).Tells s) {n : Note} (hn : n ∈ notes)
    (hpending : n.fate = .pending) :
    ∃ p, s.cache.view n.change.place.page = some p ∧ p.dirty = some n.txn :=
  h.marked n.filing (List.mem_map_of_mem hn) (by simp [Note.filing, Note.isFiled, hpending])

/-- A change that is pending is that of the transaction that has the page locked for writing. -/
theorem Tells.held_of_pending (h : (l.ofFiles notes).Tells s) (hcoh : s.Coherent) {n : Note}
    (hn : n ∈ notes) (hpending : n.fate = .pending) :
    s.cache.locks.table.heldMode n.txn n.change.place.page = some .readWrite := by
  obtain ⟨p, hp, hmark⟩ := h.marked_of_pending hn hpending
  exact hcoh.sound.locked _ p n.txn hp hmark

theorem page_ofFiles_map {f : Note → Note} (hf : ∀ n, (f n).change = n.change)
    {wanted other : Entry → Bool} (h : ∀ n ∈ notes, n.change.place.page = page →
      wanted (f n).filing = other n.filing) :
    (l.ofFiles (notes.map f)).page wanted page = (l.ofFiles notes).page other page := by
  have hchanges : changesOn wanted page ((notes.map f).map Note.filing) =
      changesOn other page (notes.map Note.filing) := by
    simp only [changesOn, List.filter_map, List.map_map, Function.comp_def, Note.filing, hf]
    refine congrArg (List.map _) (List.filter_congr fun n hn => ?_)
    by_cases hpage : n.change.place.page = page
    · have hwanted := h n hn hpage
      rw [Note.filing, hf] at hwanted
      rw [hwanted]
      rfl
    · simp [hpage]
  simp only [Ledger.page, ofFiles, hchanges]

/-- A commit that fails files the changes of the pages that it has written. Nobody else has
changed these. -/
theorem Tells.file (h : (l.ofFiles notes).Tells s) (hcoh : s.Coherent) {written : List PageId}
    (hwritten : ∀ page ∈ written, page ∈ s.cache.heldPages txn) (hcalls : s'.calls = s.calls)
    (hsaved : s.cache.Saved written s'.cache) :
    (l.ofFiles (notes.map (Note.file txn written))).Tells s' := by
  have hchange : ∀ n, (Note.file txn written n).change = n.change :=
    fun n => (n.file_same txn written).2
  -- whoever has an open change on a page that was written is the transaction itself
  have hown : ∀ n ∈ notes, n.fate = .pending → n.change.place.page ∈ written → n.txn = txn := by
    intro n hn hpending hmem
    have hheld := hwritten _ hmem
    rw [Cache.heldPages, hcoh.orderly.tidy.mem_heldPages] at hheld
    exact (PageLock.eq_of_heldBy_readWrite (hcoh.orderly.tidy.exclusive _)
      (h.held_of_pending hcoh hn hpending) hheld).symm
  refine ⟨fun id => (hsaved.tables_iff id).trans (h.known id), ?_, ?_, hcalls ▸ h.asked, ?_, ?_⟩
  · intro page
    have hsame : (s'.cache.view page).map HeapPage.bare =
        (s.cache.view page).map HeapPage.bare := by
      rw [hsaved.view_eq]
      split
      · exact HeapPage.map_bare_saved _
      · rfl
    rw [hsame, h.seen]
    exact (page_ofFiles_map hchange fun _ _ _ => rfl).symm
  · intro page
    rw [hsaved.onDisk_eq]
    split
    · rename_i hmem
      rw [HeapPage.map_bare_saved, h.seen]
      refine (page_ofFiles_map hchange fun n hn hpage => ?_).symm
      by_cases hpending : n.fate = .pending
      · simp [Note.file, Note.filing, Note.isFiled, hpending, hpage, hmem,
          hown n hn hpending (hpage ▸ hmem)]
      · simp [Note.file, Note.filing, Note.isFiled, hpending]
    · rename_i hmem
      rw [h.stored]
      refine (page_ofFiles_map hchange fun n _ hpage => ?_).symm
      rw [Note.file, if_neg]
      rintro ⟨-, -, hin⟩
      exact hmem (hpage ▸ hin)
  · intro e he
    obtain ⟨n', hn', rfl⟩ := List.mem_map.1 he
    obtain ⟨n, hn, rfl⟩ := List.mem_map.1 hn'
    rw [show (Note.file txn written n).filing.change = n.change from hchange n]
    exact h.placed n.filing (List.mem_map_of_mem hn)
  · intro e he hopen
    obtain ⟨n', hn', rfl⟩ := List.mem_map.1 he
    obtain ⟨n, hn, rfl⟩ := List.mem_map.1 hn'
    unfold Note.file at hopen ⊢
    split at hopen
    · simp [Note.filing, Note.isFiled] at hopen
    · rename_i hnot
      have hpending : n.fate = .pending := by simpa [Note.filing, Note.isFiled] using hopen
      have hout : n.change.place.page ∉ written := fun hmem =>
        hnot ⟨hown n hn hpending hmem, hpending, hmem⟩
      obtain ⟨p, hp, hmark⟩ := h.marked_of_pending hn hpending
      have hview := hsaved.view_eq n.change.place.page
      rw [if_neg hout] at hview
      rw [if_neg hnot]
      exact ⟨p, hview.trans hp, hmark⟩

/-! ## What the notes tell of a session -/

/-- The notes tell what the files hold and what is seen, and, without those that are stranded, they
are the entries of the ledger. What is filed but neither committed nor stranded is on a page
that its transaction still has locked. -/
structure Recalls (l : Ledger) (notes : List Note) (s : Session) : Prop where
  tells : (l.ofFiles notes).Tells s
  entries_eq : l.entries = (notes.filter (·.fate ≠ .stranded)).map Note.entry
  held : ∀ n ∈ notes, n.fate = .filed →
    s.cache.locks.table.heldMode n.txn n.change.place.page = some .readWrite
  reached : ∀ n ∈ notes, n.change.place.page.number < s.cache.pageCount n.change.place.page.table

theorem recalls_new (config : Config) (log : Option WriteLog) :
    Ledger.empty.Recalls [] (.new config log) where
  tells := tells_new config log
  entries_eq := rfl
  held _ hn := by cases hn
  reached _ hn := by cases hn

/-- What is pending stands on a page with a mark, which is one of its table. -/
theorem Tells.reached_of_pending (h : (l.ofFiles notes).Tells s) (hcoh : s.Coherent) {n : Note}
    (hn : n ∈ notes) (hpending : n.fate = .pending) :
    n.change.place.page.number < s.cache.pageCount n.change.place.page.table := by
  obtain ⟨p, hp, hmark⟩ := h.marked_of_pending hn hpending
  obtain ⟨f, hf, hreach⟩ := hcoh.sound.reached _ p (Cache.resident_of_dirty hp (by simp [hmark]))
  rw [Cache.pageCount_eq hf]
  exact hreach.in_range

/-- A step that ends no transaction leaves all locks for writing to their holders. -/
theorem heldMode_of_noEnd (hend : NoEnd a) (heffect : s.Effect a report s') {u : TransactionId}
    (h : s.cache.locks.table.heldMode u page = some .readWrite) :
    s'.cache.locks.table.heldMode u page = some .readWrite := by
  cases a with
  | addTable file => rcases heffect with ⟨-, -, rfl⟩ | ⟨-, -, rfl⟩ <;> exact h
  | submit v name op =>
    obtain ⟨_, -, ⟨-, rfl⟩ | ⟨-, hstep⟩⟩ := heffect
    · exact h
    · exact hstep.did.turn.writers _ _ h
  | resume v | expire v =>
    obtain ⟨_, -, ⟨-, -, rfl⟩ | ⟨_, -, hstep⟩⟩ := heffect
    · exact h
    · exact hstep.did.turn.writers _ _ h
  | commit v => exact absurd rfl (hend.1 v)
  | abort v => exact absurd rfl (hend.2 v)
  | allocate _ | evict | unpin _ | openIterator _ _ _ | rewindIterator _ =>
    rw [heffect.2.1]
    exact h

/-- A step that ends no transaction adds what is told of it. -/
theorem Recalls.hear (h : l.Recalls notes s) (hcoh : s.Coherent) (ha : s.Admits a)
    (hend : NoEnd a) : (l.note a (s.perform a).2).Recalls (notes ++ l.heard a (s.perform a).2)
      (s.perform a).1 := by
  obtain ⟨hcoh', heffect⟩ := hcoh.perform ha
  have hdone : ∀ e, (s.perform a).2 ≠ .ended (.error e) := by
    intro e
    cases a with
    | commit txn => exact absurd rfl (hend.1 txn)
    | abort txn => exact absurd rfl (hend.2 txn)
    | addTable file | evict =>
      simp only [Session.perform]
      split <;> intro heq <;> cases heq
    | _ =>
      intro heq
      cases heq
  have htells := h.tells.note hcoh hdone heffect
  rw [ofFiles_note hend] at htells
  constructor
  · exact htells
  · have hall : (l.heard a (s.perform a).2).filter (·.fate ≠ .stranded) =
        l.heard a (s.perform a).2 := List.filter_eq_self.2 fun n hn => by simp [fate_of_heard hn]
    rw [entries_note hend, h.entries_eq, List.filter_append, hall, List.map_append]
  · intro n hn hfiled
    rcases List.mem_append.1 hn with hold | hnew
    · exact heldMode_of_noEnd hend heffect (h.held n hold hfiled)
    · rw [fate_of_heard hnew] at hfiled
      cases hfiled
  · intro n hn
    rcases List.mem_append.1 hn with hold | hnew
    · exact UInt32.lt_of_lt_of_le (h.reached n hold)
        (@Session.Coherent.pageCount_le_step s (.act a) hcoh (Session.Respects.allows ha) _)
    · exact htells.reached_of_pending hcoh' hn (fate_of_heard hnew)

theorem entries_commit (txn : TransactionId) (notes : List Note) :
    (((notes.map (Note.commit txn)).filter (·.fate ≠ .stranded)).map Note.entry) =
      ((notes.filter (·.fate ≠ .stranded)).map Note.entry).map fun e =>
        if e.txn = txn then { e with committed := true } else e := by
  simp only [List.filter_map, List.map_map, Function.comp_def, ne_eq, Note.isStranded_commit]
  refine List.map_congr_left fun n hn => Note.entry_commit ?_
  simpa using (List.mem_filter.1 hn).2

theorem entries_abort (txn : TransactionId) (notes : List Note) :
    (((notes.filterMap (Note.abort txn)).filter (·.fate ≠ .stranded)).map Note.entry) =
      ((notes.filter (·.fate ≠ .stranded)).map Note.entry).filter fun e =>
        e.committed || e.txn ≠ txn := by
  induction notes with
  | nil => rfl
  | cons n rest ih =>
    obtain ⟨u, ch, fate⟩ := n
    by_cases hu : u = txn <;> cases fate <;>
      simp_all [Note.abort, Note.entry]

/-- A commit settles what its transaction has changed. -/
theorem Recalls.settle (h : l.Recalls notes s) (hcoh : s.Coherent)
    (hcount : ∀ id, s.cache.pageCount id ≤ s'.cache.pageCount id) (hcalls : s'.calls = s.calls)
    (hended : s.cache.Ended txn (fun page => (s.cache.view page).map HeapPage.saved) s'.cache) :
    (l.commit txn).Recalls (notes.map (Note.commit txn)) s' := by
  constructor
  · rw [← ofFiles_commit]
    exact h.tells.commit hcalls hended
  · rw [entries_commit, ← h.entries_eq, Ledger.commit]
  · intro n hn hfiled
    obtain ⟨m, hm, rfl⟩ := List.mem_map.1 hn
    unfold Note.commit at hfiled ⊢
    split at hfiled
    · cases hfiled
    · rename_i hnot
      have hne : m.txn ≠ txn := fun htxn => hnot ⟨htxn, by simp [hfiled]⟩
      rw [if_neg hnot, hended.heldMode_of_ne hcoh.orderly hne]
      exact h.held m hm hfiled
  · intro n hn
    obtain ⟨m, hm, rfl⟩ := List.mem_map.1 hn
    rw [(m.commit_same txn).2]
    exact UInt32.lt_of_lt_of_le (h.reached m hm) (hcount _)

/-- A commit that fails files what it has written, and keeps the locks. -/
theorem Recalls.file (h : l.Recalls notes s) (hcoh : s.Coherent) {written : List PageId}
    (hcount : ∀ id, s.cache.pageCount id ≤ s'.cache.pageCount id)
    (hwritten : ∀ page ∈ written, page ∈ s.cache.heldPages txn) (hcalls : s'.calls = s.calls)
    (hsaved : s.cache.Saved written s'.cache) :
    l.Recalls (notes.map (Note.file txn written)) s' := by
  constructor
  · exact h.tells.file hcoh hwritten hcalls hsaved
  · rw [h.entries_eq]
    simp only [List.filter_map, List.map_map, Function.comp_def, ne_eq, Note.isStranded_file,
      Note.entry_file]
  · intro n hn hfiled
    obtain ⟨m, hm, rfl⟩ := List.mem_map.1 hn
    rw [(m.file_same txn written).1, (m.file_same txn written).2, hsaved.locks_eq]
    unfold Note.file at hfiled
    split at hfiled
    · rename_i hfiles
      exact h.tells.held_of_pending hcoh hm hfiles.2.1
    · exact h.held m hm hfiled
  · intro n hn
    obtain ⟨m, hm, rfl⟩ := List.mem_map.1 hn
    rw [(m.file_same txn written).2]
    exact UInt32.lt_of_lt_of_le (h.reached m hm) (hcount _)

theorem Recalls.commit (h : l.Recalls notes s) (hcoh : s.Coherent)
    (ha : s.Admits (.commit txn)) :
    (l.note (.commit txn) (s.perform (.commit txn)).2).Recalls (s.recount l notes (.commit txn))
      (s.perform (.commit txn)).1 := by
  have hcount := @Session.Coherent.pageCount_le_step s (.act (.commit txn)) hcoh
    (Session.Respects.allows ha)
  obtain ⟨-, hcalls, ⟨hreport, hended⟩ | ⟨e, written, refused, rest, hreport, hsplit, hsaved,
    hmark, -⟩⟩ := hcoh.perform ha
  · have hresult : (s.cache.commit txn).2 = .ok () := Report.ended.inj hreport
    simp only [hreport, Ledger.note, Session.recount, hresult]
    exact h.settle hcoh hcount hcalls hended
  · have hresult : (s.cache.commit txn).2 = .error e := Report.ended.inj hreport
    have hwritten : ∀ page ∈ written, page ∈ s.cache.heldPages txn := fun page hpage => by
      rw [hsplit]
      exact List.mem_append_left _ hpage
    simp only [hreport, Ledger.note, Session.recount, hresult,
      Session.passed_of_failure hsplit hsaved hmark]
    exact h.file hcoh hcount hwritten hcalls hsaved

/-- An abort strands what a failed commit of its transaction has filed. -/
theorem Recalls.abort (h : l.Recalls notes s) (hcoh : s.Coherent) (ha : s.Admits (.abort txn)) :
    (l.note (.abort txn) (s.perform (.abort txn)).2).Recalls (s.recount l notes (.abort txn))
      (s.perform (.abort txn)).1 := by
  have hgrown := @Session.Coherent.pageCount_le_step s (.act (.abort txn)) hcoh
    (Session.Respects.allows ha)
  obtain ⟨-, hcalls, hreport, hended⟩ := hcoh.perform ha
  simp only [hreport, Ledger.note, Session.recount]
  constructor
  · rw [← ofFiles_abort]
    exact h.tells.abort hcalls hended
  · rw [entries_abort, ← h.entries_eq, Ledger.abort]
  · intro n hn hfiled
    obtain ⟨m, hm, habort⟩ := List.mem_filterMap.1 hn
    unfold Note.abort at habort
    split at habort
    · rename_i hne
      cases habort
      rw [hended.heldMode_of_ne hcoh.orderly hne]
      exact h.held n hm hfiled
    · split at habort <;> cases habort <;> simp_all
  · intro n hn
    obtain ⟨m, hm, habort⟩ := List.mem_filterMap.1 hn
    rw [(Note.abort_same habort).2]
    exact UInt32.lt_of_lt_of_le (h.reached m hm) (hgrown _)

theorem Recalls.perform (h : l.Recalls notes s) (hcoh : s.Coherent) (ha : s.Admits a) :
    (l.note a (s.perform a).2).Recalls (s.recount l notes a) (s.perform a).1 := by
  cases a with
  | commit txn => exact h.commit hcoh ha
  | abort txn => exact h.abort hcoh ha
  | _ => exact h.hear hcoh ha ⟨fun _ => by simp, fun _ => by simp⟩

theorem recountAll_append (l : Ledger) (notes : List Note) (s : Session)
    (before after : List Action) : s.recountAll l notes (before ++ after) =
      (s.run before).1.recountAll (l.noteAll before (s.run before).2) (s.recountAll l notes before)
        after := by
  induction before generalizing l notes s with
  | nil => rfl
  | cons a rest ih => exact ih _ _ _

theorem Recalls.run (h : l.Recalls notes s) (hcoh : s.Coherent) {actions : List Action}
    (hadmits : s.AdmitsAll actions) :
    (l.noteAll actions (s.run actions).2).Recalls (s.recountAll l notes actions)
      (s.run actions).1 := by
  induction actions generalizing l notes s with
  | nil => exact h
  | cons a rest ih =>
    exact ih (h.perform hcoh hadmits.1) (hcoh.perform hadmits.1).1 hadmits.2

/-! ## The last change of a place -/

variable {q : HeapPage} {wanted : Entry → Bool} {r : Record} {n : Note}

/-- Of the changes of a page, those of one slot are those of its place. -/
theorem getLast?_changesOn (l : Ledger) (wanted : Entry → Bool) (place : RecordId) :
    ((changesOn wanted place.page l.entries).filter
      (·.place.slot.toNat = place.slot.toNat)).getLast? = l.lastAt wanted place := by
  rw [changesOn, List.filter_map, List.filter_filter, List.getLast?_map, lastAt]
  refine congrArg (fun entries : List Entry => entries.getLast?.map Entry.change)
    (List.filter_congr fun e _ => ?_)
  have hplace : e.change.place = place ↔
      e.change.place.slot = place.slot ∧ e.change.place.page = place.page := by
    rcases e.change.place with ⟨page, slot⟩
    rcases place with ⟨page', slot'⟩
    simp [and_comm]
  simp [UInt16.toNat_inj, hplace, Bool.and_assoc]

/-- The last change of a place decides what stands there. -/
theorem slot_of_page (hq : l.page wanted page = some q) : ∃ base,
    ((l.files.get? page.table).bind (·.stored page)) = some base ∧ base.Proper ∧ q.id = page ∧
      q.schema = base.schema ∧ q.slotCount = base.slotCount ∧
      ∀ place : RecordId, place.page = page → q.slots[place.slot.toNat]? =
        base.slots[place.slot.toNat]?.map fun old =>
          (l.lastAt wanted place).elim old Change.row := by
  obtain ⟨base, hbase, rfl⟩ := Option.map_eq_some_iff.1 hq
  obtain ⟨f, -, hstored⟩ := Option.bind_eq_some_iff.1 hbase
  obtain ⟨hproper, hid, -⟩ := TableFile.stored_proper hstored
  obtain ⟨hsame, hschema, hcount⟩ :=
    HeapPage.foldl_change_same (changesOn wanted page l.entries) base.bare
  refine ⟨base, hbase, hproper, hsame.trans hid, hschema, hcount, ?_⟩
  rintro place rfl
  rw [HeapPage.slots_foldl_change, getLast?_changesOn]
  rfl

/-- A record on such a page stands in the slot of its place. -/
theorem slot_of_mem (hq : l.page wanted page = some q) (hr : r ∈ q.records) :
    ∃ place, r.location = some place ∧ place.page = page ∧ r.schema = q.schema ∧
      place.slot.toNat < q.slotCount ∧ q.slots[place.slot.toNat]? = some (some r.values) := by
  obtain ⟨base, -, hproper, hid, -, hcount, -⟩ := slot_of_page hq
  obtain ⟨slot, hslot, hrecord⟩ := List.mem_filterMap.1 hr
  obtain ⟨row, hrow, rfl⟩ := Option.map_eq_some_iff.1 hrecord
  have hlt : slot < q.slotCount := List.mem_range.1 hslot
  have hplace : (q.locate slot).slot.toNat = slot := hproper.toNat_slot (hlt.trans_eq hcount)
  refine ⟨q.locate slot, rfl, hid, rfl, ?_, ?_⟩ <;> rw [hplace]
  · exact hlt
  · exact Option.join_eq_some_iff.1 hrow

/-- If a place has been changed, its record is that of the last change. -/
theorem row_of_lastAt (hq : l.page wanted page = some q) (hr : r ∈ q.records) {place : RecordId}
    (hplace : r.location = some place) {ch : Change} (hlast : l.lastAt wanted place = some ch) :
    ch.row = some r.values := by
  obtain ⟨base, -, -, -, -, -, hslots⟩ := slot_of_page hq
  obtain ⟨other, hother, hpage, -, -, hslot⟩ := slot_of_mem hq hr
  rw [hplace, Option.some.injEq] at hother
  subst hother
  rw [hslots place hpage, hlast] at hslot
  obtain ⟨old, -, hrow⟩ := Option.map_eq_some_iff.1 hslot
  exact hrow

/-- A record stands on both of two pages if its place was changed last in the same way. -/
theorem mem_records_of_lastAt_eq {l' : Ledger} {other : Entry → Bool} (hfiles : l'.files = l.files)
    (hq : l.page wanted page = some q) (hr : r ∈ q.records) {place : RecordId}
    (hplace : r.location = some place) (hlast : l'.lastAt other place = l.lastAt wanted place) :
    ∃ q', l'.page other page = some q' ∧ r ∈ q'.records := by
  obtain ⟨base, hbase, -, hid, hschema, hcount, hslots⟩ := slot_of_page hq
  obtain ⟨q', hq'⟩ : ∃ q', l'.page other page = some q' := by
    rw [Ledger.page, hfiles, hbase]
    exact ⟨_, rfl⟩
  obtain ⟨base', hbase', -, hid', hschema', hcount', hslots'⟩ := slot_of_page hq'
  rw [hfiles, hbase, Option.some.injEq] at hbase'
  subst hbase'
  obtain ⟨place', hplace', hpage, hschemar, hlt, hslot⟩ := slot_of_mem hq hr
  rw [hplace, Option.some.injEq] at hplace'
  subst hplace'
  refine ⟨q', hq', List.mem_filterMap.2 ⟨place.slot.toNat, List.mem_range.2 ?_, ?_⟩⟩
  · rwa [hcount', ← hcount]
  · have hlocate : q'.locate place.slot.toNat = place := by
      rw [HeapPage.locate, hid', ← hpage, UInt16.ofNat_toNat]
    have hsame : r.schema = q'.schema := hschemar.trans (hschema.trans hschema'.symm)
    rw [HeapPage.recordAt, hslots' place hpage, hlast, ← hslots place hpage, hslot,
      Option.join_some, Option.map_some, hlocate, ← hplace, ← hsame]

theorem lastAt_ofFiles (l : Ledger) (notes : List Note) (place : RecordId) :
    (l.ofFiles notes).lastAt Entry.committed place = (lastFiled place notes).map Note.change := by
  simp only [lastAt, lastFiled, ofFiles, List.filter_map, List.getLast?_map, Option.map_map,
    Function.comp_def, Note.filing]
  rfl

/-- Unless the last change of a place that is filed is filed or stranded only, it is the last one
that the ledger has as committed. -/
theorem Recalls.lastAt_committed (h : l.Recalls notes s) {place : RecordId}
    (hlast : ∀ n, lastFiled place notes = some n → n.fate = .committed) :
    l.lastAt Entry.committed place = (l.ofFiles notes).lastAt Entry.committed place := by
  have hentries : l.entries.filter (fun e => e.change.place = place && e.committed) =
      ((notes.filter fun m => m.change.place = place && m.isFiled).filter
        (·.fate = .committed)).map Note.entry := by
    rw [h.entries_eq, List.filter_map, List.filter_filter, List.filter_filter]
    refine congrArg (List.map Note.entry) (List.filter_congr fun m _ => ?_)
    obtain ⟨u, ch, fate⟩ := m
    cases fate <;> simp [Note.entry, Note.isFiled]
  rw [lastAt_ofFiles, lastAt, hentries]
  rcases hfiled : lastFiled place notes with _ | n
  · rw [List.getLast?_eq_none_iff.1 hfiled]
    rfl
  · obtain ⟨before, hsplit⟩ := List.getLast?_eq_some_iff.1 hfiled
    rw [hsplit, List.filter_append, List.filter_singleton, hlast n hfiled]
    simp [Note.entry]

/-- **What stands in a file.** Every record of a page, as its file holds it, was put there by the
last change of its place that is filed, if there is one. It is committed by the ledger, unless that
change is filed or stranded only. -/
theorem Recalls.of_onDisk (h : l.Recalls notes s) (hdisk : s.cache.onDisk page = some q)
    (hr : r ∈ q.records) : ∃ place, r.location = some place ∧ place.page = page ∧
      (∀ n, lastFiled place notes = some n → n ∈ notes ∧ n.fate ≠ .pending ∧
        n.change = ⟨place, some r.values⟩) ∧
      (fateOf notes r = .committed → l.hasCommitted r = true) := by
  have hstored := h.tells.stored page
  rw [hdisk, Option.map_some] at hstored
  obtain ⟨place, hplace, hpage, -⟩ := slot_of_mem hstored.symm hr
  refine ⟨place, hplace, hpage, fun n hn => ?_, fun hfate => ?_⟩
  · obtain ⟨hmem, hkept⟩ := List.mem_filter.1 (List.mem_of_getLast? hn)
    obtain ⟨hat, hfiled⟩ : n.change.place = place ∧ n.fate ≠ .pending := by
      simpa [Note.isFiled] using hkept
    have hlast : (l.ofFiles notes).lastAt Entry.committed place = some n.change := by
      rw [lastAt_ofFiles, hn, Option.map_some]
    have hrow := row_of_lastAt hstored.symm hr hplace hlast
    refine ⟨hmem, hfiled, ?_⟩
    rw [← hat, ← hrow]
  · have hcommitted : ∀ n, lastFiled place notes = some n → n.fate = .committed := fun n hn => by
      rwa [fateOf, hplace, Option.bind_some, hn] at hfate
    have hfiles : l.files = (l.ofFiles notes).files := rfl
    obtain ⟨q', hq', hr'⟩ := mem_records_of_lastAt_eq hfiles hstored.symm hr hplace
      (h.lastAt_committed hcommitted)
    rw [hasCommitted, hplace, Option.bind_some, hpage, hq']
    simpa using hr'

/-- As long as no end fails, nothing is filed that is not committed. -/
theorem settled_of_ends_done (hnotes : ∀ n ∈ notes, n.fate = .pending ∨ n.fate = .committed)
    {actions : List Action} (hended : ∀ e, .ended (.error e) ∉ (s.run actions).2) :
    ∀ n ∈ s.recountAll l notes actions, n.fate = .pending ∨ n.fate = .committed := by
  induction actions generalizing l notes s with
  | nil => exact hnotes
  | cons a rest ih =>
    refine ih (fun n hn => ?_) fun e he => hended e (List.mem_cons_of_mem _ he)
    cases a with
    | commit txn =>
      rcases hresult : (s.cache.commit txn).2 with e | _
      · have hreport : (s.perform (.commit txn)).2 = .ended (.error e) := congrArg _ hresult
        exact absurd (hreport ▸ List.mem_cons_self) (hended e)
      · simp only [Session.recount, hresult] at hn
        obtain ⟨m, hm, rfl⟩ := List.mem_map.1 hn
        unfold Note.commit
        split
        · exact .inr rfl
        · exact hnotes m hm
    | abort txn =>
      obtain ⟨m, hm, habort⟩ := List.mem_filterMap.1 hn
      rcases hnotes m hm with hfate | hfate <;> simp only [Note.abort, hfate] at habort <;>
        split at habort <;> cases habort <;> simp [hfate]
    | _ =>
      rcases List.mem_append.1 hn with hold | hnew
      · exact hnotes n hold
      · exact .inl (fate_of_heard hnew)

theorem fateOf_ne_stranded (hnotes : ∀ n ∈ notes, n.fate = .pending ∨ n.fate = .committed)
    (r : Record) : fateOf notes r ≠ .stranded := by
  rw [fateOf]
  rcases hlast : r.location.bind (lastFiled · notes) with _ | n
  · simp
  · obtain ⟨place, -, hn⟩ := Option.bind_eq_some_iff.1 hlast
    have hmem := List.mem_of_mem_filter (List.mem_of_getLast? hn)
    rcases hnotes n hmem with hfate | hfate <;> simp [hfate]

end Ledger

end PageCache
