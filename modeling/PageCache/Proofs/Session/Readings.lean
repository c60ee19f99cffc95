-- A table is read completely. A scan returns what its transaction sees, all of it. An iterator that
-- is asked again and again, with whatever happens in between, hands out the records of one page
-- after the other, from the first page on; if a page cannot be fetched, its failure is the last
-- item until the iterator is put back.
import PageCache.Proofs.Session.Iterators
import PageCache.Proofs.Session.Rescans
import PageCache.Proofs.Session.Scans

namespace PageCache

/-- The number of pages that were got. The page at which a cursor has failed is not one of them. -/
def Cursor.passed (cursor : Cursor) : Nat :=
  if cursor.failed then cursor.nextPage.toNat - 1 else cursor.nextPage.toNat

theorem Cursor.passed_of_intact {cursor : Cursor} (h : cursor.failed = false) :
    cursor.passed = cursor.nextPage.toNat := by
  simp [passed, h]

namespace Cache

variable {c : Cache} {txn : TransactionId} {table : TableId} {lo hi : Nat}

/-- The pages of a table from one number up to another, which is not included, as a transaction
sees them. -/
def pagesShown (c : Cache) (txn : TransactionId) (table : TableId) (lo hi : Nat) : List HeapPage :=
  (List.range' lo (hi - lo)).filterMap fun n => c.shownTo txn ⟨table, .ofNat n⟩

/-- A transaction that holds pages sees them all, with the records that stand on them. -/
theorem Covers.pagesShown (h : c.Covers txn table lo hi) (hsound : c.Sound)
    (horderly : c.locks.Orderly) :
    (c.pagesShown txn table lo hi).map HeapPage.id =
        (List.range' lo (hi - lo)).map (fun n => ⟨table, .ofNat n⟩) ∧
      (c.pagesShown txn table lo hi).flatMap HeapPage.records = c.stretch table lo hi := by
  have hmem : ∀ n ∈ List.range' lo (hi - lo), lo ≤ n ∧ n < hi := by
    intro n hn
    rw [List.mem_range'_1] at hn
    omega
  unfold Cache.pagesShown stretch
  generalize List.range' lo (hi - lo) = numbers at hmem ⊢
  induction numbers with
  | nil => exact ⟨rfl, rfl⟩
  | cons n rest ih =>
    obtain ⟨hids, hrecords⟩ := ih fun m hm => hmem m (List.mem_cons_of_mem n hm)
    obtain ⟨hlo, hhi⟩ := hmem n List.mem_cons_self
    obtain ⟨-, hholds, p, hview⟩ := h n hlo hhi
    simp only [List.filterMap_cons, hsound.shownTo_held horderly hholds hview, List.map_cons,
      List.flatMap_cons, hids, hrecords, hsound.id_eq hview, recordsOn_eq hview, and_self]

end Cache

/-! ## Readings -/

/-- What was read by an iterator since it was last before the first record: the items that were
handed out, and the pages that it has come through, as its transaction saw them then. -/
structure Reading where
  items : List Item
  pages : List HeapPage

namespace Reading

/-- Nothing was read. -/
def empty : Reading := ⟨[], []⟩

/-- The iterator goes on from one place to another and hands out some items. -/
def goOn (r : Reading) (c : Cache) (a : Whereabouts) (out : List Item) (b : Whereabouts) : Reading :=
  ⟨r.items ++ out,
    r.pages ++ c.pagesShown b.txn b.cursor.table a.cursor.passed b.cursor.passed⟩

end Reading

/-- An iterator has come through the first pages of its table, one after the other. What it has
handed out, what it still keeps and what is in its buffer are the records of these pages in their
order. If it has failed, all of them were handed out, and one failure behind them. -/
structure Whereabouts.Follows (a : Whereabouts) (r : Reading) : Prop where
  numbered : r.pages.map HeapPage.id =
    (List.range a.cursor.passed).map fun n => ⟨a.cursor.table, .ofNat n⟩
  intact : a.cursor.failed = false →
    r.items ++ a.kept ++ a.cursor.buffer.map .ok = (r.pages.flatMap HeapPage.records).map .ok
  broken : a.cursor.failed = true → a.cursor.buffer = [] ∧
    ∃ e, r.items ++ a.kept = (r.pages.flatMap HeapPage.records).map .ok ++ [.error e]

namespace Whereabouts

variable {a b : Whereabouts} {r : Reading} {c : Cache} {out : List Item}

/-- Before the first record nothing was read. -/
theorem follows_empty (h : a.cursor = .start a.cursor.table ∧ a.kept = []) : a.Follows .empty := by
  obtain ⟨txn, cursor, kept⟩ := a
  obtain ⟨hcursor, rfl⟩ := h
  dsimp only at hcursor
  rw [hcursor]
  exact ⟨rfl, fun _ => rfl, fun heq => by cases heq⟩

/-- The pages that an iterator has come through go on where they have ended, and what was handed
out with what is left in its buffer are their records. -/
theorem Follows.pages_goOn (h : a.Follows r) {records : List Record} {last : Cursor}
    (hintact : a.cursor.failed = false) (hhanded : c.Handed a.txn a.cursor records last)
    (htxn : b.txn = a.txn) (htable : b.cursor.table = last.table)
    (hpassed : b.cursor.passed = last.nextPage.toNat) (hsound : c.Sound)
    (horderly : c.locks.Orderly) :
    (r.goOn c a out b).pages.map HeapPage.id =
        (List.range b.cursor.passed).map (fun n => ⟨b.cursor.table, .ofNat n⟩) ∧
      ((r.goOn c a out b).pages.flatMap HeapPage.records).map .ok =
        r.items ++ a.kept ++ (records ++ last.buffer).map .ok := by
  have hsame : b.cursor.table = a.cursor.table := htable.trans hhanded.table_eq
  have hforward := hhanded.forward
  have hcovers := hhanded.covers
  have hrecords := hhanded.records_eq
  rw [← Cursor.passed_of_intact hintact, ← hpassed] at hforward hcovers hrecords
  rw [← htxn, ← hsame] at hcovers
  rw [← hsame] at hrecords
  obtain ⟨hids, hstretch⟩ := hcovers.pagesShown hsound horderly
  constructor
  · have hrange := @List.range'_append_1 0 a.cursor.passed (b.cursor.passed - a.cursor.passed)
    rw [Nat.zero_add, Nat.add_sub_cancel' hforward] at hrange
    rw [Reading.goOn, List.map_append, h.numbered, hids, ← hsame, List.range_eq_range',
      List.range_eq_range', ← hrange, List.map_append]
  · rw [Reading.goOn, List.flatMap_append, hstretch, hrecords, List.map_append, List.map_append,
      ← h.intact hintact]
    simp only [List.append_assoc]

/-- An iterator that has failed gets no further. -/
theorem Follows.goOn_failed (h : a.Follows r) {records : List Record}
    (hfailed : a.cursor.failed = true) (hitems : out ++ b.kept = a.kept ++ records.map .ok)
    (hhanded : c.Handed a.txn a.cursor records b.cursor)
    (hstill : b.cursor.nextPage = a.cursor.nextPage) : b.Follows (r.goOn c a out b) := by
  have hpassed : b.cursor.passed = a.cursor.passed := by
    rw [Cursor.passed, Cursor.passed, hhanded.failed_eq, hstill]
  have hpages : (r.goOn c a out b).pages = r.pages := by
    simp [Reading.goOn, Cache.pagesShown, hpassed]
  obtain ⟨hdrained, e, hall⟩ := h.broken hfailed
  have hnothing := hhanded.records_eq
  rw [hdrained, hstill, Cache.stretch_self, List.append_nil, List.append_eq_nil_iff] at hnothing
  obtain ⟨rfl, hbuffer⟩ := hnothing
  refine ⟨?_, fun hintact => ?_, fun _ => ⟨hbuffer, e, ?_⟩⟩
  · rw [hpages, hpassed, hhanded.table_eq, h.numbered]
  · rw [hhanded.failed_eq, hfailed] at hintact
    cases hintact
  · rw [hpages, ← hall]
    simpa [Reading.goOn] using hitems

/-- What an iterator comes through is added to what it has come through before. -/
theorem Follows.goOn (h : a.Follows r) (hadvances : a.Advances c out b) (hsound : c.Sound)
    (horderly : c.locks.Orderly) : b.Follows (r.goOn c a out b) := by
  obtain ⟨txn, cursor, kept⟩ := b
  obtain ⟨rfl, items, hitems, hyields⟩ := hadvances
  dsimp only at hitems hyields
  cases hyields with
  | records hhanded hstill =>
    rcases hfailed : a.cursor.failed with _ | _
    · have hintact : cursor.failed = false := hhanded.failed_eq.trans hfailed
      obtain ⟨hids, hrecords⟩ := @Follows.pages_goOn a ⟨a.txn, cursor, kept⟩ r c out h _ _ hfailed
        hhanded rfl rfl (Cursor.passed_of_intact hintact) hsound horderly
      refine ⟨hids, fun _ => ?_, fun hbroken => ?_⟩
      · rw [hrecords, List.map_append, ← List.append_assoc, List.append_assoc r.items a.kept,
          ← hitems]
        simp only [Reading.goOn, List.append_assoc]
      · rw [hintact] at hbroken
        cases hbroken
    · exact h.goOn_failed hfailed hitems hhanded (hstill hfailed)
  | @failure records last e hhanded hdrained hintact hahead hdenies =>
    have hpassed : ({ last with nextPage := last.nextPage + 1, failed := true } : Cursor).passed =
        last.nextPage.toNat := by
      rw [Cursor.passed, if_pos rfl]
      exact congrArg (· - 1) (TableFile.toNat_succ_of_lt hahead)
    obtain ⟨hids, hrecords⟩ := @Follows.pages_goOn a
      ⟨a.txn, { last with nextPage := last.nextPage + 1, failed := true }, kept⟩ r c out h _ _
      (hhanded.failed_eq.symm.trans hintact) hhanded rfl rfl hpassed hsound horderly
    refine ⟨hids, (fun heq => by cases heq), fun _ => ⟨hdrained, e, ?_⟩⟩
    rw [hrecords, hdrained, List.append_nil, List.append_assoc, List.append_assoc, ← hitems]
    simp only [Reading.goOn, List.append_assoc]

end Whereabouts

/-! ## What is fetched in vain -/

/-- Where nothing is in the buffer, nothing is served from it. -/
theorem Draw.serve_of_drained {draw : Draw} (h : draw.cursor.buffer = []) : draw.serve = draw := by
  obtain ⟨⟨table, number, buffer, failed⟩, wanted, items⟩ := draw
  obtain rfl : buffer = [] := h
  simp [Draw.serve]

namespace Cache

variable {c c' : Cache} {txn : TransactionId} {cursor : Cursor} {count : Nat}

/-- A cursor that has failed is at its end. -/
theorem walk_of_failed (hfailed : cursor.failed = true) (hdrained : cursor.buffer = [])
    (hcount : 0 < count) (left : Nat) : walk txn left ⟨cursor, some count, []⟩ c =
      (c, .finished (.ok (.drawn cursor [] true))) := by
  have hserve := @Draw.serve_of_drained ⟨cursor, some count, []⟩ hdrained
  rcases walk_cases txn left ⟨cursor, some count, []⟩ c with ⟨hfull, -⟩ | ⟨-, -, he⟩ |
    ⟨-, hintact, -⟩
  · rw [hserve] at hfull
    simp [Draw.isFull] at hfull
    omega
  · rw [he, hserve]
    rfl
  · rw [hserve, hfailed] at hintact
    cases hintact

/-- A page that cannot be fetched makes the cursor fail. -/
theorem walkOn_of_fetch_failed (hintact : cursor.failed = false) (hdrained : cursor.buffer = [])
    (hcount : 0 < count) (hahead : cursor.nextPage < c.pageCount cursor.table) {e : StoreError}
    (hfetch : c.fetch txn ⟨cursor.table, cursor.nextPage⟩ .readOnly = (c', .failed e)) :
    c.walkOn txn ⟨cursor, some count, []⟩ = (c', .finished (.ok (.drawn
      { cursor with nextPage := cursor.nextPage + 1, failed := true } [.error e]
        !decide (count ≤ 1)))) := by
  have hserve := @Draw.serve_of_drained ⟨cursor, some count, []⟩ hdrained
  have hpage : Draw.page ⟨cursor, some count, []⟩ = ⟨cursor.table, cursor.nextPage⟩ := rfl
  unfold walkOn
  rcases walk_cases txn ((c.pageCount cursor.table).toNat - cursor.nextPage.toNat)
    ⟨cursor, some count, []⟩ c with ⟨hfull, -⟩ | ⟨-, hover, -⟩ | ⟨-, -, rest, -, he⟩
  · rw [hserve] at hfull
    simp [Draw.isFull] at hfull
    omega
  · rw [hserve] at hover
    rcases hover with hfailed | hnone
    · rw [hintact] at hfailed
      cases hfailed
    · rw [UInt32.lt_iff_toNat_lt] at hahead
      omega
  · rw [he, hserve, hpage, hfetch]
    rfl

end Cache

namespace Session

variable {s : Session} {txn : TransactionId} {name : String} {st : Step} {steps : List Step}
  {r : Reading} {i : Iterator}

/-! ## Runs -/

/-- What was read by an iterator after one more step. -/
def noteReading (s : Session) (name : String) (r : Reading) (st : Step) : Reading :=
  if s.Restarts name st then .empty
  else
    match s.whereabouts name, (s.step st).whereabouts name with
    | some a, some b => r.goOn (s.step st).cache a (s.handedOut name st) b
    | _, _ => r

/-- What was read after some steps. -/
def readingFrom (name : String) : Session → Reading → List Step → Reading
  | _, r, [] => r
  | s, r, st :: rest => readingFrom name (s.step st) (s.noteReading name r st) rest

/-- What was read since the session began. -/
def reading (s : Session) (name : String) (steps : List Step) : Reading :=
  readingFrom name s .empty steps

/-- An iterator stands behind what was read by it. -/
def Tracks (s : Session) (name : String) (r : Reading) : Prop :=
  ∀ a, s.whereabouts name = some a → a.Follows r

theorem Attends.tracks (h : s.Attends st) (hcoh : (s.step st).Coherent) (htracks : s.Tracks name r) :
    (s.step st).Tracks name (s.noteReading name r st) := by
  intro b hb
  unfold noteReading
  split
  · rename_i hrestarts
    exact Whereabouts.follows_empty (h.restarts name hrestarts b hb)
  · rename_i hno
    rcases ha : s.whereabouts name with _ | a
    · rw [h.nowhere name hno ha] at hb
      cases hb
    · obtain ⟨b', hb', hadvances⟩ := h.advances name a hno ha
      rw [hb, Option.some.injEq] at hb'
      subst hb'
      rw [hb]
      exact (htracks a ha).goOn hadvances hcoh.sound hcoh.orderly

theorem Coherent.tracks_after (h : s.Coherent) (hattended : s.Attended) (htracks : s.Tracks name r)
    (hsteps : s.AllowsAll steps) (hcontinues : s.ContinuesAll steps) :
    (s.after steps).Attended ∧ (s.after steps).Tracks name (readingFrom name s r steps) := by
  induction steps generalizing s r with
  | nil => exact ⟨hattended, htracks⟩
  | cons st rest ih =>
    have hattends := h.attends hattended hsteps.1 hcontinues.1
    have hcoh := h.allowed hsteps.1
    exact ih hcoh hattends.attended (hattends.tracks hcoh htracks) hsteps.2 hcontinues.2

/-! ## Requests -/

theorem submit_of_finished {op : Operation} {outcome : Outcome} (hfree : s.calls.get? txn = none)
    (hstart : (s.cache.start txn op).2 = .finished outcome) (n : Option String) :
    (s.submit txn n op).2 = .finished outcome := by
  rcases hresult : s.cache.start txn op with ⟨c, progress⟩
  obtain rfl : progress = .finished outcome := by rw [← hstart, hresult]
  unfold submit
  rw [if_neg (by simp [isBusy_eq_false_iff.2 hfree]), hresult]
  rfl

/-- How an iterator behaves in a session that has come so far: it stands behind what was read by
it, any step takes it on from there, and it stops at the end of the table, where the user has as
much as was asked for, or at a page that cannot be fetched. -/
structure Iterates (s : Session) (name : String) (r : Reading) : Prop where
  tracks : s.Tracks name r
  advances : ∀ st a, s.Allows st → s.Continues st → ¬ s.Restarts name st →
    s.whereabouts name = some a → ∃ b, (s.step st).whereabouts name = some b ∧
      a.Advances (s.step st).cache (s.handedOut name st) b
  concludes : ∀ act outcome, s.Allows (.act act) → s.Continues (.act act) →
    s.answerTo name (.act act) = some (.finished outcome) →
      Concludes (s.step (.act act)).cache (s.wantedIn act) outcome
  fails : ∀ i count c e, s.iterators.get? name = some i → s.calls.get? i.txn = none → 0 < count →
    i.cursor.failed = false → i.cursor.buffer = [] →
    i.cursor.nextPage < s.cache.pageCount i.cursor.table →
    s.cache.fetch i.txn ⟨i.cursor.table, i.cursor.nextPage⟩ .readOnly = (c, .failed e) →
      (s.submit i.txn (some name) (.draw i.cursor count)).2 = .finished (.ok (.drawn
        { i.cursor with nextPage := i.cursor.nextPage + 1, failed := true } [.error e]
          !decide (count ≤ 1)))
  times_out : ∀ txn call, s.calls.get? txn = some call → call.iterator = some name →
    (∀ request, (s.cache.locks.expire txn).2 ≠ some (request, true)) → ∃ next items ended,
      (s.expire txn).2 = .finished (.ok (.drawn next
        (items ++ [.error (.waitTimeout txn call.page)]) ended)) ∧ next.failed = true
  exhausted : ∀ i count, s.iterators.get? name = some i → s.calls.get? i.txn = none →
    0 < count → i.cursor.failed = true →
      (s.submit i.txn (some name) (.draw i.cursor count)).2 =
        .finished (.ok (.drawn i.cursor [] true))
  rewinds : ∀ i, s.iterators.get? name = some i → s.isIteratorBusy name = false →
    (s.rewindIterator name).2 = .finished (.ok .done) ∧
      (s.rewindIterator name).1.whereabouts name = some ⟨i.txn, .start i.cursor.table, []⟩

theorem Attended.times_out {call : WaitingCall} (h : s.Attended)
    (hcall : s.calls.get? txn = some call) (hname : call.iterator = some name)
    (hnot : ∀ request, (s.cache.locks.expire txn).2 ≠ some (request, true)) :
    ∃ next items ended, (s.expire txn).2 = .finished (.ok (.drawn next
      (items ++ [.error (.waitTimeout txn call.page)]) ended)) ∧ next.failed = true := by
  obtain ⟨i, ⟨cursor, wanted, items⟩, -, -, hpauses, hwanted⟩ := h txn call name hcall hname
  obtain ⟨n, rfl⟩ := Option.ne_none_iff_exists'.1 hwanted
  obtain ⟨page, stage, iterator⟩ := call
  obtain rfl : stage = _ := hpauses.stage_eq
  have he : (s.expire txn).2 = .finished
      (Draw.outcomeOf (Draw.advance ⟨cursor, some n, items⟩) (.waitTimeout txn page)) := by
    unfold Session.expire
    rw [hcall]
    rcases hlocks : s.cache.locks.expire txn with ⟨locks, _ | ⟨request, _ | _⟩⟩
    · rfl
    · rfl
    · rw [hlocks] at hnot
      exact absurd rfl (hnot request)
  exact ⟨_, items, _, he, rfl⟩

theorem Coherent.iterates (h : s.Coherent) (hattended : s.Attended) (htracks : s.Tracks name r) :
    s.Iterates name r where
  tracks := htracks
  advances st a hst hc hno ha := (h.attends hattended hst hc).advances name a hno ha
  concludes act outcome hst hc hanswer :=
    (h.attends hattended hst hc).concludes name act outcome rfl hanswer
  fails i count c e _ hfree hcount hintact hdrained hahead hfetch := by
    refine submit_of_finished hfree ?_ _
    rw [Cache.start, Cache.walkOn_of_fetch_failed hintact hdrained hcount hahead hfetch]
  times_out txn call hcall hname hnot := hattended.times_out hcall hname hnot
  exhausted i count hi hfree hcount hfailed := by
    have hwhere : s.whereabouts name = some ⟨i.txn, i.cursor, []⟩ := by
      apply whereabouts_of_free hi
      intro call hcall
      rw [hfree] at hcall
      cases hcall
    obtain ⟨hdrained, -⟩ := (htracks _ hwhere).broken hfailed
    refine submit_of_finished hfree ?_ _
    rw [Cache.start, Cache.walkOn, Cache.walk_of_failed hfailed hdrained hcount]
  rewinds i hi hbusy := by
    rw [rewindIterator, if_neg (by simp [hbusy]), hi]
    refine ⟨rfl, whereabouts_of_free (i := ⟨i.txn, .start i.cursor.table⟩) ?_ fun call => ?_⟩
    · exact FinMap.get?_insert_self _ _ _
    · exact ne_of_not_busy hbusy

/-! ## The law -/

variable {config : Config} {log : Option WriteLog}

/-- **Nothing is passed over.** After any run of a session, a scan that succeeds at once returns the
record of each used slot of the table, as its transaction sees it, in the order of the places, and
its transaction holds every page. If iterators are asked from where they stand, each of them has
handed out the records of the first pages of its table, and goes on with the pages behind them; a
page that cannot be fetched is reported once, and then there is nothing more until it is put back
before the first page. -/
theorem scans_are_complete (hsteps : (new config log).AllowsAll steps) :
    (∀ txn n table records,
      ((new config log).after steps).Allows (.act (.submit txn n (.scan table))) →
      (((new config log).after steps).submit txn n (.scan table)).2 =
          .finished (.ok (.rows records)) →
        ((new config log).after steps).Scanned txn table records
          (((new config log).after steps).submit txn n (.scan table)).1) ∧
    ((new config log).ContinuesAll steps →
      ∀ name, ((new config log).after steps).Iterates name
        ((new config log).reading name steps)) := by
  have hcoh := (coherent_new config log).after_allowed hsteps
  refine ⟨fun txn n table records hallows hdone => ?_, fun hcontinues name => ?_⟩
  · exact hcoh.scanned (hasRoom_of_values hallows.1) hdone
  · have htracks : (new config log).Tracks name .empty := fun a ha => by cases ha
    obtain ⟨hattended, hreads⟩ := (coherent_new config log).tracks_after
      (attended_new config log) htracks hsteps hcontinues
    exact hcoh.iterates hattended hreads

/-- The cache has one place for two flags. The third transaction takes the first flag from an
iterator, but meanwhile another one takes the second flag away, so that the iterator does not get
that page. Then the second flag is put back. -/
def interruptedReading : List Step :=
  [.act (.addTable (flagFile .empty 0 0 0)),
    .act (.submit ⟨1⟩ none (.insert ⟨⟨1⟩, ⟨flags, [.boolean true], none⟩, true⟩)),
    .act (.commit ⟨1⟩),
    .act (.submit ⟨1⟩ none (.insert ⟨⟨1⟩, ⟨flags, [.boolean true], none⟩, true⟩)),
    .act (.commit ⟨1⟩),
    .act (.openIterator ⟨3⟩ "flags" ⟨1⟩),
    .act (.submit ⟨3⟩ (some "flags") (.draw (.start ⟨1⟩) 1)),
    .act (.submit ⟨2⟩ none (.delete (some ⟨⟨⟨1⟩, 1⟩, 0⟩))),
    .act (.submit ⟨3⟩ (some "flags") (.draw ⟨⟨1⟩, 1, [], false⟩ 1)),
    .act (.abort ⟨2⟩)]

/-- The iterator reports that once, and no flag after it, but a scan returns both flags. -/
theorem scan_is_complete_after_interrupted_reading :
    ((new ⟨1, 1, some 0⟩ none).after interruptedReading).Scanned ⟨3⟩ ⟨1⟩ [flagOn 0, flagOn 1]
        (((new ⟨1, 1, some 0⟩ none).after interruptedReading).submit ⟨3⟩ none (.scan ⟨1⟩)).1 ∧
      ((new ⟨1, 1, some 0⟩ none).after interruptedReading).Iterates "flags"
        ((new ⟨1, 1, some 0⟩ none).reading "flags" interruptedReading) ∧
      ((new ⟨1, 1, some 0⟩ none).reading "flags" interruptedReading).items =
        [.ok (flagOn 0), .error (.waitTimeout ⟨3⟩ ⟨⟨1⟩, 1⟩)] ∧
      (((new ⟨1, 1, some 0⟩ none).after interruptedReading).submit ⟨3⟩ (some "flags")
        (.draw ⟨⟨1⟩, 2, [], true⟩ 1)).2 = .finished (.ok (.drawn ⟨⟨1⟩, 2, [], true⟩ [] true)) := by
  obtain ⟨hscans, hiterates⟩ := scans_are_complete
    (show (new ⟨1, 1, some 0⟩ none).AllowsAll interruptedReading by decide +kernel)
  have hflags := hiterates (by decide +kernel) "flags"
  have hi : ((new ⟨1, 1, some 0⟩ none).after interruptedReading).iterators.get? "flags" =
      some ⟨⟨3⟩, ⟨⟨1⟩, 2, [], true⟩⟩ := by decide +kernel
  have hfree : ((new ⟨1, 1, some 0⟩ none).after interruptedReading).isBusy ⟨3⟩ = false := by
    decide +kernel
  exact ⟨hscans ⟨3⟩ none ⟨1⟩ _ (by decide +kernel) (by decide +kernel), hflags,
    by decide +kernel, hflags.exhausted _ 1 hi (isBusy_eq_false_iff.1 hfree) Nat.one_pos rfl⟩

end Session

end PageCache
