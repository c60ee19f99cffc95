-- A transaction that reads a table to its end, and reads it to its end again later, finds all
-- that it found the first time, and perhaps more behind it. In between and meanwhile the others
-- may call, commit and abort as they like. A table is read by one scan, or in portions by requests
-- to a cursor.
import PageCache.Proofs.Session.Browsing
import PageCache.Proofs.Session.Fates

namespace PageCache

/-- A transaction reads a table from a cursor on to the end: the steps of a run, of which some
hand out portions, and the records of these. The last step hands out the last portion. -/
inductive Session.Lists (txn : TransactionId) :
    Cursor → Ledger → Session → List Action → List Record → Prop
  | last {cursor l s a records} :
    l.portion a (s.perform a).2 = some ⟨txn, cursor, records.map .ok, none⟩ →
      Lists txn cursor l s [a] records
  | more {cursor next l s a rest records others} :
    l.portion a (s.perform a).2 = some ⟨txn, cursor, records.map .ok, some next⟩ →
      Lists txn next (l.note a (s.perform a).2) (s.perform a).1 rest others →
        Lists txn cursor l s (a :: rest) (records ++ others)
  | skip {cursor l s a rest records} :
    Lists txn cursor (l.note a (s.perform a).2) (s.perform a).1 rest records →
      Lists txn cursor l s (a :: rest) records

/-- A record of a page has its place there. -/
theorem HeapPage.page_of_mem_records {p : HeapPage} {r : Record} (h : r ∈ p.records) :
    r.location.map RecordId.page = some p.id := by
  obtain ⟨slot, -, hslot⟩ := List.mem_filterMap.1 h
  obtain ⟨row, -, rfl⟩ := Option.map_eq_some_iff.1 hslot
  rfl

namespace Session

variable {s s' : Session} {txn : TransactionId} {l l' : Ledger} {a : Action} {actions : List Action}

/-! ## Runs -/

theorem noteAll_append (l : Ledger) (s : Session) (before after : List Action) :
    l.noteAll (before ++ after) (s.run (before ++ after)).2 =
      (l.noteAll before (s.run before).2).noteAll after ((s.run before).1.run after).2 := by
  induction before generalizing l s with
  | nil => rfl
  | cons a rest ih => exact ih (l.note a (s.perform a).2) (s.perform a).1

theorem browsesAll_append {before after : List Action} :
    s.BrowsesAll txn (before ++ after) ↔
      s.BrowsesAll txn before ∧ (s.run before).1.BrowsesAll txn after := by
  rw [fst_run]
  exact Along.append_iff

/-- Before a transaction has called, it waits for nothing. -/
theorem watches_of_idle (hcoh : s.Coherent) (hsteady : s.Steady) (hidle : s.isBusy txn = false)
    (l : Ledger) : Watches txn l s where
  coherent := hcoh
  steady := hsteady
  waiting call hcall := by
    rw [isBusy_eq_false_iff.1 hidle] at hcall
    cases hcall

theorem Watches.run (h : Watches txn l s) (hadmits : s.AdmitsAll actions)
    (hbrowses : s.BrowsesAll txn actions) :
    Watches txn (l.noteAll actions (s.run actions).2) (s.run actions).1 ∧
      s.cache.Spares txn (s.run actions).1.cache := by
  induction actions generalizing l s with
  | nil => exact ⟨h, .refl txn s.cache⟩
  | cons a rest ih =>
    have hleaves := h.perform hadmits.1 hbrowses.1
    obtain ⟨hwatches, hspares⟩ := ih hleaves.watches hadmits.2 hbrowses.2
    exact ⟨hwatches, hleaves.spares.trans hspares⟩

/-- What was handed out in portions is what is seen at the end, for the pages of the first
portions are held until then. -/
theorem Lists.handed {cursor : Cursor} {records : List Record}
    (hlists : Lists txn cursor l s actions records) (h : Watches txn l s)
    (hadmits : s.AdmitsAll actions) (hbrowses : s.BrowsesAll txn actions) :
    ∃ next, (s.run actions).1.cache.Handed txn cursor records next ∧
      (s.run actions).1.cache.AtEnd next := by
  induction hlists with
  | last hportion =>
    obtain ⟨next, hhanded, hend, -⟩ :=
      (h.perform hadmits.1 hbrowses.1).handed _ _ _ hportion
    exact ⟨next, hhanded, hend rfl⟩
  | more hportion _ ih =>
    have hleaves := h.perform hadmits.1 hbrowses.1
    obtain ⟨_, hhanded, -, hnext⟩ := hleaves.handed _ _ _ hportion
    obtain rfl := hnext _ rfl
    obtain ⟨last, hrest, hend⟩ := ih hleaves.watches hadmits.2 hbrowses.2
    have hspares := (hleaves.watches.run hadmits.2 hbrowses.2).2
    -- the pages of this portion are locked until the last one is handed out
    exact ⟨last, (hhanded.of_spares hspares).trans hrest, hend⟩
  | skip _ ih =>
    exact ih (h.perform hadmits.1 hbrowses.1).watches hadmits.2 hbrowses.2

/-- Sessions stay coherent and steady. -/
theorem Coherent.run (h : s.Coherent) (hs : s.Steady) (hadmits : s.AdmitsAll actions) :
    (s.run actions).1.Coherent ∧ (s.run actions).1.Steady := by
  rw [fst_run]
  exact ⟨hadmits.induction h fun _ _ h ha => (h.perform ha).1,
    hadmits.induction hs fun _ _ hs ha => hs.perform (tolerates_of_admits ha)⟩

/-- A page that has come into a table since, and that the transaction holds now, is as its file
holds it: the others do not write there, and the transaction has not. -/
theorem Watches.onDisk_behind (h : Watches txn l s) (h' : Watches txn l' s')
    (hspares : s.cache.Spares txn s'.cache) {page : PageId} {p : HeapPage}
    (hholds : s'.cache.holds txn page = true) (hview : s'.cache.view page = some p)
    (hnew : s.cache.pageCount page.table ≤ page.number) : s'.cache.onDisk page = some p := by
  apply h'.coherent.sound.eq_onDisk hview
  rcases hmark : p.dirty with _ | u
  · rfl
  · exfalso
    -- nobody else can have marked a page that the transaction holds, and it has marked none
    -- since; but before, the page was not in its table
    have hheld := h'.coherent.sound.locked page p u hview hmark
    have hboth := PageLock.eq_of_heldBy_readWrite (h'.coherent.orderly.tidy.exclusive page) hheld
      (LockTable.holds_iff.1 hholds)
    subst hboth
    obtain ⟨q, hq, hdirty⟩ := hspares.unmarked page p hview hmark
    have hres := Cache.resident_of_dirty hq (by rw [hdirty]; simp)
    obtain ⟨f, hf, hreach⟩ := h.coherent.sound.reached page q hres
    rw [Cache.pageCount_eq hf] at hnew
    exact absurd hreach.in_range (UInt32.not_lt.2 hnew)

/-- The second reading hands out what is seen behind the pages of the first one. -/
theorem Watches.rescan {first second : List Action} {table : TableId} {rows again : List Record}
    (h : Watches txn l s) (hadmits : s.AdmitsAll first) (hbrowses : s.BrowsesAll txn first)
    (hadmits' : (s.run first).1.AdmitsAll second)
    (hbrowses' : (s.run first).1.BrowsesAll txn second)
    (hfirst : Lists txn (.start table) l s first rows)
    (hsecond : Lists txn (.start table) (l.noteAll first (s.run first).2) (s.run first).1 second
      again) :
    again = rows ++ ((s.run first).1.run second).1.cache.stretch table
        ((s.run first).1.cache.pageCount table).toNat
        (((s.run first).1.run second).1.cache.pageCount table).toNat ∧
      ((s.run first).1.run second).1.cache.Covers txn table 0
        (((s.run first).1.run second).1.cache.pageCount table).toNat := by
  obtain ⟨hmid, -⟩ := h.run hadmits hbrowses
  obtain ⟨-, hspares⟩ := hmid.run hadmits' hbrowses'
  obtain ⟨next, hhanded, hend⟩ := hfirst.handed h hadmits hbrowses
  obtain ⟨next', hhanded', hend'⟩ := hsecond.handed hmid hadmits' hbrowses'
  obtain ⟨rfl, hcovers⟩ := hhanded.whole hend
  obtain ⟨rfl, hcovers'⟩ := hhanded'.whole hend'
  refine ⟨?_, hcovers'⟩
  rw [← hcovers.stretch_eq hspares]
  exact (Cache.stretch_append _ table (Nat.zero_le _)
    (UInt32.le_iff_toNat_le.1 (hspares.grown table))).symm

/-! ## Changes of the others -/

theorem change_of_reads {op : Operation} (h : op.errand.reads = true) (answer : Answer) :
    answer.change op.errand = none := by
  cases answer with
  | finished outcome => exact Errand.change_of_reads h outcome
  | _ => rfl

/-- What has been asked for by a transaction that only reads changes nothing when it goes on. -/
theorem Watches.change_again (h : Watches txn l s) {op : Operation}
    (hasked : l.asked.get? txn = some op) {answer : Answer}
    (hidle : s.calls.get? txn = none → answer = .waiting) : answer.change op.errand = none := by
  rcases hcall : s.calls.get? txn with _ | call
  · rw [hidle hcall]
    rfl
  · obtain ⟨other, hother, hreads, -⟩ := h.waiting call hcall
    rw [hasked, Option.some.injEq] at hother
    exact change_of_reads (hother ▸ hreads) answer

/-- A transaction that only reads tells of no change. -/
theorem Watches.ne_of_heard (h : Watches txn l s) (hb : s.Browses txn a) {n : Note}
    (hn : n ∈ l.heard a (s.perform a).2) : n.txn ≠ txn := by
  unfold Ledger.heard at hn
  split at hn
  · rename_i answer hreport
    split at hn
    · rename_i u op hcallOf
      obtain ⟨ch, hch, rfl⟩ := List.mem_map.1 hn
      rintro rfl
      suffices hnone : answer.change op.errand = none by simp [hnone] at hch
      cases a with
      | submit v name asked =>
        cases hcallOf
        rcases hb rfl with hbusy | hreads
        · have hanswer : (s.submit u name op).2 = answer := Report.answered.inj hreport
          rw [Session.submit, if_pos hbusy] at hanswer
          rw [← hanswer]
          rfl
        · exact change_of_reads hreads answer
      | resume v =>
        obtain ⟨asked, hasked, heq⟩ := Option.map_eq_some_iff.1 hcallOf
        cases heq
        have hanswer : (s.resume u).2 = answer := Report.answered.inj hreport
        refine h.change_again hasked fun hcall => ?_
        rw [← hanswer, Session.resume, hcall]
      | expire v =>
        obtain ⟨asked, hasked, heq⟩ := Option.map_eq_some_iff.1 hcallOf
        cases heq
        have hanswer : (s.expire u).2 = answer := Report.answered.inj hreport
        refine h.change_again hasked fun hcall => ?_
        rw [← hanswer, Session.expire, hcall]
      | _ => cases hcallOf
    · cases hn
  · cases hn

/-- Only the others add something to the notes. -/
theorem Watches.own_recount (h : Watches txn l s) (hb : s.Browses txn a) (notes : List Note) :
    ∀ n ∈ s.recount l notes a, n.txn = txn → ∃ m ∈ notes, m.txn = txn ∧ m.change = n.change := by
  intro n hn htxn
  cases a with
  | commit u =>
    rw [Session.recount] at hn
    split at hn <;> obtain ⟨m, hm, rfl⟩ := List.mem_map.1 hn
    · exact ⟨m, hm, (m.commit_same u).1.symm.trans htxn, (m.commit_same u).2.symm⟩
    · exact ⟨m, hm, (m.file_same u _).1.symm.trans htxn, (m.file_same u _).2.symm⟩
  | abort u =>
    obtain ⟨m, hm, habort⟩ := List.mem_filterMap.1 hn
    obtain ⟨hsame, hchange⟩ := Note.abort_same habort
    exact ⟨m, hm, hsame.symm.trans htxn, hchange.symm⟩
  | _ =>
    rcases List.mem_append.1 hn with hold | hnew
    · exact ⟨n, hold, htxn, rfl⟩
    · exact absurd htxn (h.ne_of_heard hb hnew)

theorem Watches.own_recountAll (h : Watches txn l s) (hadmits : s.AdmitsAll actions)
    (hbrowses : s.BrowsesAll txn actions) (notes : List Note) :
    ∀ n ∈ s.recountAll l notes actions, n.txn = txn →
      ∃ m ∈ notes, m.txn = txn ∧ m.change = n.change := by
  induction actions generalizing l s notes with
  | nil => exact fun n hn htxn => ⟨n, hn, htxn, rfl⟩
  | cons a rest ih =>
    intro n hn htxn
    obtain ⟨m, hm, hmtxn, hsame⟩ :=
      ih (h.perform hadmits.1 hbrowses.1).watches hadmits.2 hbrowses.2 _ n hn htxn
    obtain ⟨k, hk, hktxn, hchange⟩ := h.own_recount hbrowses.1 notes m hm hmtxn
    exact ⟨k, hk, hktxn, hchange.trans hsame⟩

/-- What a transaction finds on a page that has come into its table since, the others have put
there, and their commits have written it: they have succeeded, or have failed at another page
and been followed by an abort. -/
theorem Watches.settled_behind {notes : List Note} (h : Watches txn l s)
    (hrecalls : l.Recalls notes s) (hadmits : s.AdmitsAll actions)
    (hbrowses : s.BrowsesAll txn actions) {page : PageId} {p : HeapPage} {r : Record}
    (hnew : s.cache.pageCount page.table ≤ page.number)
    (hholds : (s.run actions).1.cache.holds txn page = true)
    (hdisk : (s.run actions).1.cache.onDisk page = some p) (hr : r ∈ p.records) :
    (fateOf (s.recountAll l notes actions) r = .committed ∧
        (l.noteAll actions (s.run actions).2).hasCommitted r = true ∨
      fateOf (s.recountAll l notes actions) r = .stranded) ∧
    ∀ place n, r.location = some place → lastFiled place (s.recountAll l notes actions) = some n →
      n.txn ≠ txn ∧ n.change.row = some r.values := by
  have hlast := (h.run hadmits hbrowses).1
  have hafter := hrecalls.run h.coherent hadmits
  obtain ⟨place, hplace, hpage, hsource, hcommitted⟩ := hafter.of_onDisk hdisk hr
  have hothers : ∀ n, lastFiled place (s.recountAll l notes actions) = some n → n.txn ≠ txn := by
    intro n hn htxn
    obtain ⟨hmem, -, hchange⟩ := hsource n hn
    obtain ⟨m, hm, -, hsame⟩ := h.own_recountAll hadmits hbrowses notes n hmem htxn
    have hreached := hrecalls.reached m hm
    rw [hsame, hchange, hpage] at hreached
    exact absurd hreached (UInt32.not_lt.2 hnew)
  refine ⟨?_, fun place' n hplace' hn => ?_⟩
  · rcases hfiled : lastFiled place (s.recountAll l notes actions) with _ | n
    · have hfate : fateOf (s.recountAll l notes actions) r = .committed := by
        rw [fateOf, hplace, Option.bind_some, hfiled, Option.elim_none]
      exact .inl ⟨hfate, hcommitted hfate⟩
    · obtain ⟨hmem, hnot, hchange⟩ := hsource n hfiled
      have hfate : fateOf (s.recountAll l notes actions) r = n.fate := by
        rw [fateOf, hplace, Option.bind_some, hfiled, Option.elim_some]
      rcases hcase : n.fate with _ | _ | _ | _
      · exact absurd hcase hnot
      · -- the writer of a filed change still has the page, which the reader holds, too
        have hwriter := hafter.held n hmem hcase
        rw [hchange, hpage] at hwriter
        exact absurd (PageLock.eq_of_heldBy_readWrite
          (hlast.coherent.orderly.tidy.exclusive page) hwriter (LockTable.holds_iff.1 hholds)).symm
          (hothers n hfiled)
      · exact .inl ⟨hfate.trans hcase, hcommitted (hfate.trans hcase)⟩
      · exact .inr (hfate.trans hcase)
  · rw [hplace, Option.some.injEq] at hplace'
    subst hplace'
    exact ⟨hothers n hn, by rw [(hsource n hn).2.2]⟩

/-! ## The law -/

variable {config : Config} {log : Option WriteLog} {before first second : List Action}
  {table : TableId} {rows again : List Record}

/-- **Scans are repeatable.** A transaction reads a table to its end, in one scan or in portions,
and reads it to its end again later. From the first reading on it does nothing but read; the
others do what they like, and commits may fail. Then it finds the same records in the same places,
and perhaps others behind them. These stand on pages that the table did not have at the end of the
first reading, and its file holds them. Others have put them there, and they are committed, or
stranded: the commit that has written them has failed at another page, and its transaction was
aborted. -/
theorem rescan_begins_as_scan
    (hadmits : (new config log).AdmitsAll (before ++ first ++ second))
    (hidle : ((new config log).run before).1.isBusy txn = false)
    (hbrowses : ((new config log).run before).1.BrowsesAll txn (first ++ second))
    (hfirst : Lists txn (.start table) (ledger config log before) ((new config log).run before).1
      first rows)
    (hsecond : Lists txn (.start table) (ledger config log (before ++ first))
      ((new config log).run (before ++ first)).1 second again) :
    ∃ added, again = rows ++ added ∧ ∀ r ∈ added, ∃ number p,
      ((new config log).run (before ++ first)).1.cache.pageCount table ≤ number ∧
      r.location.map RecordId.page = some ⟨table, number⟩ ∧
      ((new config log).run (before ++ first ++ second)).1.cache.onDisk ⟨table, number⟩ = some p ∧
      r ∈ p.records ∧
      (fateOf (fates config log (before ++ first ++ second)) r = .committed ∧
          (ledger config log (before ++ first ++ second)).hasCommitted r = true ∨
        fateOf (fates config log (before ++ first ++ second)) r = .stranded) ∧
      ∀ place n, r.location = some place →
        lastFiled place (fates config log (before ++ first ++ second)) = some n →
          n.txn ≠ txn ∧ n.change.row = some r.values := by
  obtain ⟨hbetween, hadmits₂⟩ := admitsAll_append.1 hadmits
  obtain ⟨hadmits₀, hadmits₁⟩ := admitsAll_append.1 hbetween
  obtain ⟨hbrowses₁, hbrowses₂⟩ := browsesAll_append.1 hbrowses
  obtain ⟨hcoh, hsteady⟩ := (coherent_new config log).run (steady_new config log) hadmits₀
  have hrecalls : (ledger config log (before ++ first)).Recalls (fates config log (before ++ first))
      ((new config log).run (before ++ first)).1 :=
    (Ledger.recalls_new config log).run (coherent_new config log) hbetween
  have hnotes : fates config log (before ++ first ++ second) =
      ((new config log).run (before ++ first)).1.recountAll (ledger config log (before ++ first))
        (fates config log (before ++ first)) second :=
    Ledger.recountAll_append .empty [] (new config log) (before ++ first) second
  have hledger' : ledger config log (before ++ first ++ second) =
      (ledger config log (before ++ first)).noteAll second
        (((new config log).run (before ++ first)).1.run second).2 :=
    noteAll_append .empty _ (before ++ first) second
  have hledger : ledger config log (before ++ first) = (ledger config log before).noteAll first
      (((new config log).run before).1.run first).2 := noteAll_append .empty _ before first
  rw [hledger, run_append] at hsecond hledger' hnotes hrecalls
  rw [run_append] at hadmits₂
  have hwatches := watches_of_idle hcoh hsteady hidle (ledger config log before)
  obtain ⟨hmid, -⟩ := hwatches.run hadmits₁ hbrowses₁
  obtain ⟨hlast, hspares⟩ := hmid.run hadmits₂ hbrowses₂
  obtain ⟨hagain, hcovers⟩ :=
    hwatches.rescan hadmits₁ hbrowses₁ hadmits₂ hbrowses₂ hfirst hsecond
  refine ⟨_, hagain, fun r hr => ?_⟩
  obtain ⟨n, p, hlo, hhi, hview, hmem⟩ := Cache.mem_stretch hr
  obtain ⟨-, hholds, -⟩ := hcovers n (Nat.zero_le _) hhi
  have hnew : ((((new config log).run before).1.run first).1.cache).pageCount table ≤ .ofNat n := by
    rw [UInt32.le_iff_toNat_le, Cache.toNat_number hhi]
    exact hlo
  have hdisk := hmid.onDisk_behind hlast hspares hholds hview hnew
  obtain ⟨hfate, hsource⟩ :=
    hmid.settled_behind hrecalls hadmits₂ hbrowses₂ hnew hholds hdisk hmem
  rw [hnotes, hledger', run_append, List.append_assoc, run_append, run_append]
  refine ⟨.ofNat n, p, hnew, ?_, hdisk, hmem, hfate, hsource⟩
  rw [HeapPage.page_of_mem_records hmem, hlast.coherent.sound.id_eq hview]

/-- A table with one page, on which a flag is raised already. -/
def oneFlag : List Action := [.addTable (flagFile ⟨2, [⟨0, [1, 1]⟩]⟩ 1 0 0)]

/-- A raised flag on a page of its own. -/
def flagOn (number : UInt32) : Record := ⟨flags, [.boolean true], some ⟨⟨⟨1⟩, number⟩, 0⟩⟩

/-- The first transaction reads the table by a cursor. -/
def readByCursor : List Action :=
  [.submit ⟨1⟩ (some "flags") (.draw (.start ⟨1⟩) 1),
    .submit ⟨1⟩ (some "flags") (.draw ⟨⟨1⟩, 1, [], false⟩ 1)]

/-- The second transaction raises a flag on a new page. The first one scans the table and waits
there; it goes on after the commit, when the page has left the cache. -/
def readByScan : List Action :=
  [.submit ⟨2⟩ none (.insert ⟨⟨1⟩, ⟨flags, [.boolean true], none⟩, true⟩),
    .submit ⟨1⟩ none (.scan ⟨1⟩),
    .commit ⟨2⟩,
    .evict,
    .resume ⟨1⟩]

/-- The scan finds the flag that was read by the cursor, and behind it one that is committed. -/
theorem rescan_begins_as_scan_of_flags :
    ∃ added, [flagOn 0, flagOn 1] = [flagOn 0] ++ added ∧
      ∀ r ∈ added, ∃ (number : UInt32) (p : HeapPage),
        1 ≤ number ∧ r.location.map RecordId.page = some ⟨⟨1⟩, number⟩ ∧ r ∈ p.records ∧
        (ledger ⟨2, 1, none⟩ none (oneFlag ++ readByCursor ++ readByScan)).hasCommitted r =
          true := by
  have hfirst : Lists ⟨1⟩ (.start ⟨1⟩) (ledger ⟨2, 1, none⟩ none oneFlag)
      ((new ⟨2, 1, none⟩ none).run oneFlag).1 readByCursor ([flagOn 0] ++ []) :=
    @Lists.more ⟨1⟩ _ ⟨⟨1⟩, 1, [], false⟩ _ _ _ _ [flagOn 0] [] (by decide +kernel)
      (.last (by decide +kernel))
  have hsecond : Lists ⟨1⟩ (.start ⟨1⟩) (ledger ⟨2, 1, none⟩ none (oneFlag ++ readByCursor))
      ((new ⟨2, 1, none⟩ none).run (oneFlag ++ readByCursor)).1 readByScan
      [flagOn 0, flagOn 1] :=
    .skip (.skip (.skip (.skip (.last (by decide +kernel)))))
  have hadmits : (new ⟨2, 1, none⟩ none).AdmitsAll (oneFlag ++ readByCursor ++ readByScan) := by
    decide +kernel
  obtain ⟨added, hagain, hadded⟩ := rescan_begins_as_scan hadmits (by decide +kernel)
    (by decide +kernel) hfirst hsecond
  refine ⟨added, hagain, fun r hr => ?_⟩
  obtain ⟨number, p, hnew, hplace, -, hmem, hfate, -⟩ := hadded r hr
  have hcount : ((new ⟨2, 1, none⟩ none).run (oneFlag ++ readByCursor)).1.cache.pageCount ⟨1⟩ =
      1 := by decide +kernel
  rw [hcount] at hnew
  -- there is no log that could refuse, so nothing is stranded
  have hended :=
    (coherent_new ⟨2, 1, none⟩ none).all_ends_done (fun _ hlog => by cases hlog) hadmits
  have hsettled := @Ledger.settled_of_ends_done .empty [] (new ⟨2, 1, none⟩ none)
    (fun n hn => by cases hn) _ hended
  rcases hfate with ⟨-, hcommitted⟩ | hstranded
  · exact ⟨number, p, hnew, hplace, hmem, hcommitted⟩
  · exact absurd hstranded (Ledger.fateOf_ne_stranded hsettled r)

/-- The second transaction raises two flags on new pages. Its commit is refused at the second page
and it is aborted; then the first transaction scans the table. -/
def readAfterRefusal : List Action :=
  [.submit ⟨2⟩ none (.insert ⟨⟨1⟩, ⟨flags, [.boolean true], none⟩, true⟩),
    .submit ⟨2⟩ none (.insert ⟨⟨1⟩, ⟨flags, [.boolean true], none⟩, true⟩),
    .commit ⟨2⟩,
    .abort ⟨2⟩,
    .submit ⟨1⟩ none (.scan ⟨1⟩)]

/-- The scan finds a flag that was never committed. -/
theorem rescan_finds_stranded_flag :
    (new ⟨4, 1, none⟩ (some refusesSecond)).AdmitsAll
        (oneFlag ++ readByCursor ++ readAfterRefusal) ∧
      ((new ⟨4, 1, none⟩ (some refusesSecond)).run oneFlag).1.isBusy ⟨1⟩ = false ∧
      ((new ⟨4, 1, none⟩ (some refusesSecond)).run oneFlag).1.BrowsesAll ⟨1⟩
        (readByCursor ++ readAfterRefusal) ∧
      Lists ⟨1⟩ (.start ⟨1⟩) (ledger ⟨4, 1, none⟩ (some refusesSecond) oneFlag)
        ((new ⟨4, 1, none⟩ (some refusesSecond)).run oneFlag).1 readByCursor [flagOn 0] ∧
      Lists ⟨1⟩ (.start ⟨1⟩) (ledger ⟨4, 1, none⟩ (some refusesSecond) (oneFlag ++ readByCursor))
        ((new ⟨4, 1, none⟩ (some refusesSecond)).run (oneFlag ++ readByCursor)).1
        readAfterRefusal [flagOn 0, flagOn 1] ∧
      fateOf (fates ⟨4, 1, none⟩ (some refusesSecond)
        (oneFlag ++ readByCursor ++ readAfterRefusal)) (flagOn 1) = .stranded ∧
      ¬ ∃ added, [flagOn 0, flagOn 1] = [flagOn 0] ++ added ∧ ∀ r ∈ added,
        (ledger ⟨4, 1, none⟩ (some refusesSecond)
          (oneFlag ++ readByCursor ++ readAfterRefusal)).hasCommitted r = true := by
  refine ⟨by decide +kernel, by decide +kernel, by decide +kernel, ?_, ?_, by decide +kernel, ?_⟩
  · exact @Lists.more ⟨1⟩ _ ⟨⟨1⟩, 1, [], false⟩ _ _ _ _ [flagOn 0] [] (by decide +kernel)
      (.last (by decide +kernel))
  · exact .skip (.skip (.skip (.skip (.last (by decide +kernel)))))
  · rintro ⟨added, hagain, hadded⟩
    obtain rfl : [flagOn 1] = added := (List.cons.inj hagain).2
    exact absurd (hadded _ List.mem_cons_self) (by decide +kernel)

end Session

end PageCache
