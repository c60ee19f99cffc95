-- What a walk through a table hands out: the records of the pages that lie behind the cursor,
-- page by page, and at the end perhaps the failure of a page that could not be fetched. Its
-- transaction holds these pages from then on, so what the others do in between does not change
-- them, and a walk that waits goes on as if nobody had been there.
import PageCache.Proofs.Cache.Sparing
import PageCache.Proofs.Cache.Working

namespace PageCache

/-- Where a scan of a table, or a request to a cursor, begins. -/
def Operation.origin : Operation → Option Cursor
  | .scan table => some (.start table)
  | .draw cursor _ => some cursor
  | _ => none

namespace Cache

variable {c c' : Cache} {page : PageId} {p : HeapPage} {txn : TransactionId}
  {table : TableId} {lo mid hi : Nat}

/-! ## Pages of a table, one after the other -/

/-- The records that are seen on a page. -/
def recordsOn (c : Cache) (page : PageId) : List Record :=
  match c.view page with
  | some p => p.records
  | none => []

/-- The records on the pages of a table from one number up to another, which is not included. -/
def stretch (c : Cache) (table : TableId) (lo hi : Nat) : List Record :=
  (List.range' lo (hi - lo)).flatMap fun n => c.recordsOn ⟨table, .ofNat n⟩

/-- The transaction holds these pages. They are pages of the table, and can be seen. -/
def Covers (c : Cache) (txn : TransactionId) (table : TableId) (lo hi : Nat) : Prop :=
  ∀ n, lo ≤ n → n < hi → n < (c.pageCount table).toNat ∧
    c.holds txn ⟨table, .ofNat n⟩ = true ∧ ∃ p, c.view ⟨table, .ofNat n⟩ = some p

/-- The number of a page of a table is a number of a page. -/
theorem toNat_number {count : UInt32} {n : Nat} (h : n < count.toNat) :
    (UInt32.ofNat n).toNat = n := by
  apply UInt32.toNat_ofNat_of_lt'
  exact lt_trans h (UInt32.toNat_lt count)

theorem recordsOn_eq (h : c.view page = some p) : c.recordsOn page = p.records := by
  rw [recordsOn, h]

theorem stretch_self (c : Cache) (table : TableId) (n : Nat) : c.stretch table n n = [] := by
  simp [stretch]

theorem stretch_append (c : Cache) (table : TableId) (hlo : lo ≤ mid) (hhi : mid ≤ hi) :
    c.stretch table lo mid ++ c.stretch table mid hi = c.stretch table lo hi := by
  have hrange := @List.range'_append_1 lo (mid - lo) (hi - mid)
  rw [show lo + (mid - lo) = mid by omega, show mid - lo + (hi - mid) = hi - lo by omega] at hrange
  rw [stretch, stretch, stretch, ← List.flatMap_append, hrange]

theorem stretch_succ (c : Cache) (table : TableId) (h : lo ≤ hi) :
    c.stretch table lo (hi + 1) = c.stretch table lo hi ++ c.recordsOn ⟨table, .ofNat hi⟩ := by
  have hlast : c.stretch table hi (hi + 1) = c.recordsOn ⟨table, .ofNat hi⟩ := by
    simp [stretch]
  rw [← hlast, stretch_append c table h (by omega)]

theorem stretch_congr (h : ∀ n, lo ≤ n → n < hi →
    c'.recordsOn ⟨table, .ofNat n⟩ = c.recordsOn ⟨table, .ofNat n⟩) :
    c'.stretch table lo hi = c.stretch table lo hi := by
  apply List.flatMap_congr
  intro n hn
  rw [List.mem_range'_1] at hn
  exact h n hn.1 (by omega)

theorem mem_stretch {r : Record} (h : r ∈ c.stretch table lo hi) :
    ∃ n p, lo ≤ n ∧ n < hi ∧ c.view ⟨table, .ofNat n⟩ = some p ∧ r ∈ p.records := by
  obtain ⟨n, hn, hr⟩ := List.mem_flatMap.1 h
  rw [List.mem_range'_1] at hn
  rcases hview : c.view ⟨table, .ofNat n⟩ with _ | p
  · rw [recordsOn, hview] at hr
    cases hr
  · rw [recordsOn_eq hview] at hr
    exact ⟨n, p, hn.1, by omega, hview, hr⟩

theorem Covers.nil (c : Cache) (txn : TransactionId) (table : TableId) (n : Nat) :
    c.Covers txn table n n := fun m hlo hhi => by omega

theorem Covers.append (h₁ : c.Covers txn table lo mid) (h₂ : c.Covers txn table mid hi) :
    c.Covers txn table lo hi := by
  intro n hlo hhi
  rcases Nat.lt_or_ge n mid with hlt | hge
  · exact h₁ n hlo hlt
  · exact h₂ n hge hhi

theorem Covers.of_spares (h : c.Covers txn table lo hi) (hs : c.Spares txn c') :
    c'.Covers txn table lo hi := by
  intro n hlo hhi
  obtain ⟨hlt, hholds, p, hview⟩ := h n hlo hhi
  obtain ⟨q, hq, -⟩ := hs.seen _ p hholds hview
  have hgrown := UInt32.le_iff_toNat_le.1 (hs.grown table)
  exact ⟨by omega, hs.kept _ hholds, q, hq⟩

theorem Covers.stretch_eq (h : c.Covers txn table lo hi) (hs : c.Spares txn c') :
    c'.stretch table lo hi = c.stretch table lo hi := by
  apply stretch_congr
  intro n hlo hhi
  obtain ⟨-, hholds, p, hview⟩ := h n hlo hhi
  obtain ⟨q, hq, hbare⟩ := hs.seen _ p hholds hview
  rw [recordsOn_eq hq, recordsOn_eq hview, ← q.records_bare, hbare, p.records_bare]

/-! ## What was handed out -/

/-- The records that were handed out between one cursor and a later one of a table: with those
that the later one still keeps, they are those that the first one kept and those of the pages in
between, which the transaction holds. -/
structure Handed (c : Cache) (txn : TransactionId) (origin : Cursor) (records : List Record)
    (next : Cursor) : Prop where
  table_eq : next.table = origin.table
  failed_eq : next.failed = origin.failed
  forward : origin.nextPage.toNat ≤ next.nextPage.toNat
  records_eq : records ++ next.buffer = origin.buffer ++
    c.stretch origin.table origin.nextPage.toNat next.nextPage.toNat
  covers : c.Covers txn origin.table origin.nextPage.toNat next.nextPage.toNat

/-- The cursor has come to the end of its table, or it has failed. -/
structure AtEnd (c : Cache) (cursor : Cursor) : Prop where
  drained : cursor.buffer = []
  behind : cursor.failed = false → c.pageCount cursor.table ≤ cursor.nextPage

variable {origin next : Cursor} {records more : List Record} {draw : Draw}

theorem Handed.refl (c : Cache) (txn : TransactionId) (origin : Cursor) :
    c.Handed txn origin [] origin where
  table_eq := rfl
  failed_eq := rfl
  forward := Nat.le_refl _
  records_eq := by rw [stretch_self, List.nil_append, List.append_nil]
  covers := .nil c txn _ _

theorem Handed.of_spares (h : c.Handed txn origin records next) (hs : c.Spares txn c') :
    c'.Handed txn origin records next where
  table_eq := h.table_eq
  failed_eq := h.failed_eq
  forward := h.forward
  records_eq := by rw [h.covers.stretch_eq hs, h.records_eq]
  covers := h.covers.of_spares hs

/-- One piece is handed out after the other. -/
theorem Handed.trans {last : Cursor} (h₁ : c.Handed txn origin records next)
    (h₂ : c.Handed txn next more last) : c.Handed txn origin (records ++ more) last where
  table_eq := h₂.table_eq.trans h₁.table_eq
  failed_eq := h₂.failed_eq.trans h₁.failed_eq
  forward := Nat.le_trans h₁.forward h₂.forward
  records_eq := by
    have hrest := h₂.records_eq
    rw [h₁.table_eq] at hrest
    rw [List.append_assoc, hrest, ← List.append_assoc, h₁.records_eq, List.append_assoc,
      stretch_append c origin.table h₁.forward h₂.forward]
  covers := by
    have hrest := h₂.covers
    rw [h₁.table_eq] at hrest
    exact h₁.covers.append hrest

/-- Whoever has begun before the first page and has come to the end holds the whole table, and was
handed what is seen there. -/
theorem Handed.whole (h : c.Handed txn (.start table) records next) (hend : c.AtEnd next) :
    records = c.stretch table 0 (c.pageCount table).toNat ∧
      c.Covers txn table 0 (c.pageCount table).toNat := by
  have hbehind : (c.pageCount table).toNat ≤ next.nextPage.toNat := by
    have hle := hend.behind h.failed_eq
    rw [h.table_eq, UInt32.le_iff_toNat_le] at hle
    exact hle
  have hcount : next.nextPage.toNat = (c.pageCount table).toNat := by
    rcases Nat.lt_or_ge (c.pageCount table).toNat next.nextPage.toNat with hlt | hge
    · exact absurd (h.covers _ (Nat.zero_le _) hlt).1 (Nat.lt_irrefl _)
    · exact Nat.le_antisymm hge hbehind
  have hrecords := h.records_eq
  rw [hend.drained, List.append_nil, hcount] at hrecords
  have hcovers := h.covers
  rw [hcount] at hcovers
  exact ⟨hrecords, hcovers⟩

/-- Records from the buffer are handed out, all of them if that is not enough. -/
theorem Handed.serve {kept : List Item} (h : c.Handed txn origin records draw.cursor)
    (hitems : draw.items = kept ++ records.map .ok) :
    ∃ served, draw.serve.items = kept ++ served.map .ok ∧
      c.Handed txn origin served draw.serve.cursor ∧
      (draw.serve.isFull = false → draw.serve.cursor.buffer = []) := by
  rcases draw with ⟨⟨table, number, buffer, failed⟩, wanted, items⟩
  obtain rfl : items = kept ++ records.map .ok := hitems
  -- the first `share` records of the buffer leave it
  obtain ⟨share, hserve, hfull⟩ : ∃ share,
      Draw.serve ⟨⟨table, number, buffer, failed⟩, wanted, kept ++ records.map .ok⟩ =
        ⟨⟨table, number, buffer.drop share, failed⟩, wanted,
          kept ++ records.map .ok ++ (buffer.take share).map .ok⟩ ∧
      (wanted.any (fun n => n ≤ (kept ++ records.map Except.ok).length +
        (buffer.take share).length) = false → buffer.length ≤ share) := by
    cases wanted with
    | none => exact ⟨buffer.length, rfl, fun _ => Nat.le_refl _⟩
    | some n =>
      refine ⟨n - (kept ++ records.map Except.ok).length, rfl, ?_⟩
      simp only [Option.any_some, List.length_take, decide_eq_false_iff_not]
      omega
  rw [hserve]
  refine ⟨records ++ buffer.take share, ?_, ⟨h.table_eq, h.failed_eq, h.forward, ?_, h.covers⟩,
    fun hnot => List.drop_eq_nil_of_le (hfull ?_)⟩
  · rw [List.map_append, List.append_assoc]
  · rw [List.append_assoc, List.take_append_drop]
    exact h.records_eq
  · simpa [Draw.isFull, Nat.add_assoc] using hnot

/-- A page comes in behind a cursor that keeps nothing. -/
theorem Handed.receive (h : c.Handed txn origin records draw.cursor)
    (hempty : draw.cursor.buffer = []) (hlt : draw.cursor.nextPage < c.pageCount draw.cursor.table)
    (hholds : c.holds txn draw.page = true) (hview : c.view draw.page = some p) :
    c.Handed txn origin records (draw.advance.receive p).cursor ∧
      (draw.advance.receive p).cursor.nextPage.toNat = draw.cursor.nextPage.toNat + 1 := by
  rw [h.table_eq] at hlt
  have hsucc : (draw.cursor.nextPage + 1).toNat = draw.cursor.nextPage.toNat + 1 :=
    TableFile.toNat_succ_of_lt hlt
  have hpage : draw.page = ⟨origin.table, .ofNat draw.cursor.nextPage.toNat⟩ := by
    rw [Draw.page, h.table_eq, UInt32.ofNat_toNat]
  have hrecords := h.records_eq
  rw [hempty, List.append_nil] at hrecords
  rw [hpage] at hholds hview
  refine ⟨⟨h.table_eq, h.failed_eq, ?_, ?_, ?_⟩, hsucc⟩
  · change origin.nextPage.toNat ≤ (draw.cursor.nextPage + 1).toNat
    have hforward := h.forward
    omega
  · change records ++ p.records = origin.buffer ++
      c.stretch origin.table origin.nextPage.toNat (draw.cursor.nextPage + 1).toNat
    rw [hsucc, stretch_succ c _ h.forward, ← List.append_assoc, ← hrecords, recordsOn_eq hview]
  · change c.Covers txn origin.table origin.nextPage.toNat (draw.cursor.nextPage + 1).toNat
    rw [hsucc]
    apply h.covers.append
    intro n hlo hhi
    obtain rfl : n = draw.cursor.nextPage.toNat := by omega
    exact ⟨UInt32.lt_iff_toNat_lt.1 hlt, hholds, p, hview⟩

/-! ## Strides -/

/-- The wish of a transaction for a page has come to this failure. -/
inductive Denies (txn : TransactionId) (page : PageId) : Cache → StoreError → Prop
  | fetch {c c' : Cache} {e : StoreError} :
    c.fetch txn page .readOnly = (c', .failed e) → Denies txn page c' e
  | bring {c c' : Cache} {e : StoreError} : c.bring page = (c', .error e) → Denies txn page c' e
  | timeout (c : Cache) : Denies txn page c (.waitTimeout txn page)

/-- What was handed out between a cursor and a later one: the records of the pages in between; or
these and a failure, which is that of the page behind them. Then the later cursor has failed, and
nothing is left in its buffer. A cursor that has failed before comes to no further page. -/
inductive Yields (c : Cache) (txn : TransactionId) (origin : Cursor) : List Item → Cursor → Prop
  | records {records : List Record} {next : Cursor} : c.Handed txn origin records next →
    (origin.failed = true → next.nextPage = origin.nextPage) →
      Yields c txn origin (records.map .ok) next
  | failure {records : List Record} {last : Cursor} {e : StoreError} :
    c.Handed txn origin records last → last.buffer = [] → last.failed = false →
      last.nextPage < c.pageCount last.table → Denies txn ⟨last.table, last.nextPage⟩ c e →
        Yields c txn origin (records.map .ok ++ [.error e])
          { last with nextPage := last.nextPage + 1, failed := true }

/-- A request waits with nothing in its buffer for the next page of its table. -/
structure Pauses (c : Cache) (draw : Draw) (page : PageId) (stage : Stage) : Prop where
  stage_eq : stage = .walk draw.advance
  page_eq : page = draw.page
  drained : draw.cursor.buffer = []
  intact : draw.cursor.failed = false
  ahead : draw.cursor.nextPage < c.pageCount draw.cursor.table

/-- How far a request has come from where it stood. If it is not at the end, it has as much as it
wanted, or it waits. -/
def Strides (txn : TransactionId) (first : Draw) : Cache × Progress → Prop
  | (c, .finished outcome) => ∃ (draw : Draw) (items : List Item) (ended : Bool), outcome = draw.outcome ended ∧
    draw.wanted = first.wanted ∧ draw.items = first.items ++ items ∧
    c.Yields txn first.cursor items draw.cursor ∧ (ended = true → c.AtEnd draw.cursor) ∧
    (ended = false → draw.isFull = true)
  | (c, .waiting page stage) => ∃ (draw : Draw) (records : List Record), c.Pauses draw page stage ∧
    draw.wanted = first.wanted ∧ draw.items = first.items ++ records.map .ok ∧
    c.Handed txn first.cursor records draw.cursor

theorem Ready.toIdle (h : c.Ready txn) : c.Idle txn :=
  ⟨h.orderly, fun _ _ hres => h.sound.id_eq (view_of_resident hres), h.idle⟩

/-- Nothing is taken from a transaction that fetches a page. -/
theorem Ready.spares_fetch (h : c.Ready txn) (page : PageId) (access : Access) :
    c.Spares txn (c.fetch txn page access).1 := by
  apply (h.fetch page access).1.quiet.spares
  intro other hholds
  have hfetches := (h.toIdle.fetch page access).2
  rcases hf : c.fetch txn page access with ⟨c', p | e | _⟩ <;> rw [hf] at hfetches
  · exact hfetches.2.2.2.kept hholds
  · rcases hfetches.2.2 with hsame | hgets
    · rw [holds, LockTable.holds, hsame]
      exact hholds
    · exact hgets.kept hholds
  · rw [holds, LockTable.holds, hfetches.1]
    exact hholds

section Strides

variable {first : Draw}

/-- A request has come to the end, or has as much as it wanted. -/
theorem Handed.strides (h : c.Handed txn first.cursor records draw.cursor)
    (hwanted : draw.wanted = first.wanted) (hitems : draw.items = first.items ++ records.map .ok)
    (hstill : first.cursor.failed = true → draw.cursor.nextPage = first.cursor.nextPage)
    {ended : Bool} (hend : ended = true → c.AtEnd draw.cursor)
    (hfull : ended = false → draw.isFull = true) :
    Strides txn first (c, .finished (draw.outcome ended)) :=
  ⟨draw, _, ended, rfl, hwanted, hitems, .records h hstill, hend, hfull⟩

/-- A request did not get its next page. -/
theorem Handed.strides_failure (h : c.Handed txn first.cursor records draw.cursor)
    (hwanted : draw.wanted = first.wanted) (hitems : draw.items = first.items ++ records.map .ok)
    (hdrained : draw.cursor.buffer = []) (hintact : draw.cursor.failed = false)
    (hahead : draw.cursor.nextPage < c.pageCount draw.cursor.table) {e : StoreError}
    (hdenies : Denies txn draw.page c e) :
    Strides txn first (c, .finished (draw.advance.outcomeOf e)) := by
  refine ⟨draw.advance.fail e, records.map .ok ++ [.error e], !(draw.advance.fail e).isFull, rfl,
    hwanted, ?_, .failure h hdrained hintact hahead hdenies, fun _ => ⟨hdrained, fun heq => by cases heq⟩, ?_⟩
  · change draw.items ++ [.error e] = _
    rw [hitems, List.append_assoc]
  · intro hnot
    simpa using hnot

/-- A walk that has come through some pages goes on through the others. -/
theorem Ready.strides_walk (h : c.Ready txn) (left : Nat) (hwanted : draw.wanted = first.wanted)
    (hitems : draw.items = first.items ++ records.map .ok)
    (hhanded : c.Handed txn first.cursor records draw.cursor)
    (hstill : first.cursor.failed = true → draw.cursor.nextPage = first.cursor.nextPage)
    (hleft : left = (c.pageCount draw.cursor.table).toNat - draw.cursor.nextPage.toNat) :
    Strides txn first (walk txn left draw c) := by
  induction left using Nat.strong_induction_on generalizing draw records c with | _ left ih
  obtain ⟨served, hserved, hhanded', hdrained⟩ := hhanded.serve hitems
  rcases walk_cases txn left draw c with ⟨hfull, he⟩ | ⟨hnot, hover, he⟩ |
    ⟨hnot, hintact, rest, rfl, he⟩ <;> rw [he]
  · exact hhanded'.strides hwanted hserved hstill (fun heq => by cases heq) fun _ => hfull
  · refine hhanded'.strides hwanted hserved hstill (fun _ => ⟨hdrained hnot, fun hintact => ?_⟩)
      fun heq => by cases heq
    rw [UInt32.le_iff_toNat_le]
    change (c.pageCount draw.cursor.table).toNat ≤ draw.cursor.nextPage.toNat
    rcases hover with hfailed | hnone
    · rw [hintact] at hfailed
      cases hfailed
    · omega
  · have hempty := hdrained hnot
    obtain ⟨hcalm, hfiles, hanswer⟩ := h.fetch draw.serve.page .readOnly
    have hspares := h.spares_fetch draw.serve.page .readOnly
    have hlt : draw.serve.cursor.nextPage < c.pageCount draw.serve.cursor.table := by
      rw [UInt32.lt_iff_toNat_lt]
      change draw.cursor.nextPage.toNat < (c.pageCount draw.cursor.table).toNat
      omega
    rcases hf : c.fetch txn draw.serve.page .readOnly with ⟨c', p | e | _⟩ <;>
      rw [hf] at hcalm hfiles hanswer hspares <;>
      rw [← hfiles.pageCount_eq] at hlt
    · obtain ⟨hidle, hview, hres, m, hm, -⟩ := hanswer
      have hholds : c'.holds txn draw.serve.page = true :=
        LockTable.holds_iff.2 (by rw [hm]; simp)
      obtain ⟨hhanded'', hnext⟩ := (hhanded'.of_spares hspares).receive hempty hlt hholds
        (view_of_resident hres)
      refine ih rest (Nat.lt_succ_self rest) (hcalm.ready h.sound hidle) hwanted hserved hhanded''
        (fun hfailed => ?_) ?_
      · rw [← hhanded'.failed_eq, hintact] at hfailed
        cases hfailed
      · rw [hnext, hfiles.pageCount_eq]
        change rest = (c.pageCount draw.cursor.table).toNat - (draw.cursor.nextPage.toNat + 1)
        omega
    · exact (hhanded'.of_spares hspares).strides_failure hwanted hserved hempty hintact hlt
        (.fetch hf)
    · exact ⟨draw.serve, served, ⟨rfl, rfl, hempty, hintact, hlt⟩, hwanted, hserved,
        hhanded'.of_spares hspares⟩

/-- A request that has waited goes on, with the page that it waited for or without. -/
theorem Ready.strides_proceed (h : c.Ready txn) {stage : Stage} (hpauses : c.Pauses draw page stage)
    (hwanted : draw.wanted = first.wanted) (hitems : draw.items = first.items ++ records.map .ok)
    (hhanded : c.Handed txn first.cursor records draw.cursor) (result : Except StoreError HeapPage)
    (hpage : ∀ p, result = .ok p → c.view page = some p ∧ c.holds txn page = true)
    (hdenies : ∀ e, result = .error e → Denies txn page c e) :
    Strides txn first (c.proceed txn page stage result) := by
  obtain ⟨rfl, rfl, hdrained, hintact, hahead⟩ := hpauses
  cases result with
  | error e =>
    exact hhanded.strides_failure hwanted hitems hdrained hintact hahead (hdenies e rfl)
  | ok p =>
    obtain ⟨hview, hholds⟩ := hpage p rfl
    obtain ⟨hhanded', -⟩ := hhanded.receive hdrained hahead hholds hview
    refine h.strides_walk _ hwanted hitems hhanded' (fun hfailed => ?_) rfl
    rw [← hhanded.failed_eq, hintact] at hfailed
    cases hfailed

/-- A request begins where its cursor stands. -/
theorem Ready.strides_walkOn (h : c.Ready txn) (draw : Draw) :
    Strides txn draw (c.walkOn txn draw) :=
  h.strides_walk _ rfl (by simp) (.refl c txn _) (fun _ => rfl) rfl

end Strides

/-! ## Walks -/

/-- The outcome of a request tells of what was handed out since its origin. A scan, and a request
that came to the end, stand at the end. -/
def Tells (c : Cache) (txn : TransactionId) (origin : Cursor) : Outcome → Prop
  | .ok (.rows records) => ∃ next, c.Handed txn origin records next ∧ c.AtEnd next
  | .ok (.drawn next items ended) => ∀ records, items = records.map .ok →
    c.Handed txn origin records next ∧ (ended = true → c.AtEnd next)
  | _ => True

/-- A request waits for the page behind those that it has come through. -/
def Awaits (c : Cache) (txn : TransactionId) (origin : Cursor) (page : PageId) (stage : Stage) :
    Prop :=
  ∃ (draw : Draw) (records : List Record), c.Pauses draw page stage ∧
    draw.items = records.map .ok ∧ c.Handed txn origin records draw.cursor

/-- How far a request has come. -/
def Walks (txn : TransactionId) (origin : Cursor) : Cache × Progress → Prop
  | (c, .finished outcome) => c.Tells txn origin outcome
  | (c, .waiting page stage) => c.Awaits txn origin page stage

theorem Pauses.of_grown {stage : Stage} (h : c.Pauses draw page stage)
    (hgrown : ∀ id, c.pageCount id ≤ c'.pageCount id) : c'.Pauses draw page stage :=
  ⟨h.stage_eq, h.page_eq, h.drained, h.intact, UInt32.lt_of_lt_of_le h.ahead (hgrown _)⟩

theorem Awaits.of_spares {stage : Stage} (h : c.Awaits txn origin page stage)
    (hs : c.Spares txn c') : c'.Awaits txn origin page stage := by
  obtain ⟨draw, records, hpauses, hitems, hhanded⟩ := h
  exact ⟨draw, records, hpauses.of_grown hs.grown, hitems, hhanded.of_spares hs⟩

/-- Records are handed out if no item is a failure, and no others. -/
theorem mapM_items_iff {items : List Item} : items.mapM id = .ok records ↔
    items = records.map .ok := by
  constructor
  · intro h
    induction items generalizing records with
    | nil =>
      cases h
      rfl
    | cons item rest ih =>
      rw [List.mapM_cons] at h
      rcases item with e | r
      · cases h
      · rcases hrest : rest.mapM id with e | more
        · rw [hrest] at h
          cases h
        · rw [hrest] at h
          cases h
          rw [ih hrest]
          rfl
  · rintro rfl
    induction records with
    | nil => rfl
    | cons r rest ih =>
      rw [List.map_cons, List.mapM_cons, ih]
      rfl

theorem items_inj {others : List Record} :
    (records.map .ok : List Item) = others.map .ok ↔ records = others :=
  List.map_inj_right fun _ _ heq => Except.ok.inj heq

theorem items_ne_failure {e : StoreError} :
    (records.map .ok ++ [.error e] : List Item) ≠ more.map .ok := by
  intro heq
  have hmem : (.error e : Item) ∈ (more.map .ok : List Item) := by simp [← heq]
  obtain ⟨r, -, hr⟩ := List.mem_map.1 hmem
  cases hr

/-- What was handed out since the request stood where it began is what it tells of. -/
theorem Strides.walks {first : Draw} {result : Cache × Progress} (h : Strides txn first result)
    (hfresh : first.items = []) : Walks txn first.cursor result := by
  obtain ⟨c, outcome | ⟨page, stage⟩⟩ := result
  · obtain ⟨⟨next, wanted, all⟩, items, ended, rfl, -, hitems, hyields, hend, hfull⟩ := h
    rw [hfresh] at hitems
    obtain rfl : all = items := hitems
    cases wanted with
    | none =>
      change c.Tells txn first.cursor ((all.mapM id).map .rows)
      rcases hm : all.mapM id with e | records
      · trivial
      · rw [mapM_items_iff.1 hm] at hyields
        generalize hall : (records.map .ok : List Item) = all at hyields
        cases hyields with
        | records hhanded =>
          refine ⟨next, items_inj.1 hall ▸ hhanded, hend ?_⟩
          cases ended with
          | true => rfl
          | false => cases hfull rfl
        | failure => exact absurd hall.symm items_ne_failure
    | some n =>
      intro more hmore
      cases hyields with
      | records hhanded =>
        rw [← items_inj.1 hmore]
        exact ⟨hhanded, hend⟩
      | failure => exact absurd hmore items_ne_failure
  · obtain ⟨draw, records, hpauses, -, hitems, hhanded⟩ := h
    rw [hfresh, List.nil_append] at hitems
    exact ⟨draw, records, hpauses, hitems, hhanded⟩

theorem Ready.walks_proceed (h : c.Ready txn) {stage : Stage}
    (hawaits : c.Awaits txn origin page stage) (result : Except StoreError HeapPage)
    (hpage : ∀ p, result = .ok p → c.view page = some p ∧ c.holds txn page = true)
    (hdenies : ∀ e, result = .error e → Denies txn page c e) :
    Walks txn origin (c.proceed txn page stage result) := by
  obtain ⟨draw, records, hpauses, hitems, hhanded⟩ := hawaits
  exact (@Ready.strides_proceed _ _ _ _ _ ⟨origin, draw.wanted, []⟩ h _ hpauses rfl hitems hhanded
    result hpage hdenies).walks rfl

theorem Ready.walks_start (h : c.Ready txn) {op : Operation} (horigin : op.origin = some origin) :
    Walks txn origin (c.start txn op) := by
  cases op with
  | scan table =>
    cases horigin
    unfold start
    simp only
    split
    · trivial
    · exact (h.strides_walkOn _).walks rfl
  | draw cursor count =>
    cases horigin
    exact (h.strides_walkOn _).walks rfl
  | fetch page access purpose => cases horigin
  | insert job => cases horigin
  | delete location => cases horigin
  | deleteFrom table location => cases horigin

end Cache

end PageCache
