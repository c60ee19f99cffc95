-- What a call does to the bytes in the files. It may append a blank page; all pages that were there
-- keep their bytes, whatever comes of the call, and also where these bytes are no page. Nothing has
-- to be known of the cache for that, but that each table is kept under its own number.
import PageCache.Proofs.Cache.Searches

namespace PageCache

/-- The second file begins with the pages of the first one, byte for byte. -/
structure TableFile.Begins (f g : TableFile) : Prop where
  table_eq : g.table = f.table
  schema_eq : g.schema = f.schema
  pageSize_eq : g.disk.pageSize = f.disk.pageSize
  pageCount_le : f.pageCount ≤ g.pageCount
  bytes_eq : ∀ n < f.pageCount, g.disk.pageBytes n = f.disk.pageBytes n

namespace TableFile

variable {f g k : TableFile}

theorem Begins.refl (f : TableFile) : f.Begins f :=
  ⟨rfl, rfl, rfl, UInt32.le_refl _, fun _ _ => rfl⟩

theorem Begins.trans (h₁ : f.Begins g) (h₂ : g.Begins k) : f.Begins k where
  table_eq := h₂.table_eq.trans h₁.table_eq
  schema_eq := h₂.schema_eq.trans h₁.schema_eq
  pageSize_eq := h₂.pageSize_eq.trans h₁.pageSize_eq
  pageCount_le := UInt32.le_trans h₁.pageCount_le h₂.pageCount_le
  bytes_eq n hn :=
    (h₂.bytes_eq n (UInt32.lt_of_lt_of_le hn h₁.pageCount_le)).trans (h₁.bytes_eq n hn)

theorem begins_of_alike (h : g.withoutReads = f.withoutReads) : f.Begins g where
  table_eq := table_eq_of_alike h
  schema_eq := schema_eq_of_alike h
  pageSize_eq := (grows_of_alike h).pageSize_eq
  pageCount_le := (grows_of_alike h).pageCount_le
  bytes_eq n _ := by
    have hbytes := congrArg (fun x => x.disk.pageBytes n) h
    exact hbytes

/-- The page that is appended lies behind all others. -/
theorem begins_grown (h : f.HasRoom) : f.Begins f.grown where
  table_eq := rfl
  schema_eq := rfl
  pageSize_eq := rfl
  pageCount_le := (grows_grown h).pageCount_le
  bytes_eq n hn := Disk.pageBytes_put_of_ne (by simp) (UInt32.ne_of_lt hn)

end TableFile

namespace Cache

variable {c c' d : Cache} {page : PageId} {txn : TransactionId} {job : Insertion}

/-- The tables are still there, each with the bytes that it had, and no others. -/
structure Begins (c c' : Cache) : Prop where
  no_new : ∀ id, c.tables.get? id = none → c'.tables.get? id = none
  begins : ∀ id f, c.tables.get? id = some f → ∃ g, c'.tables.get? id = some g ∧ f.Begins g

theorem Begins.trans (h₁ : c.Begins c') (h₂ : c'.Begins d) : c.Begins d where
  no_new id h := h₂.no_new id (h₁.no_new id h)
  begins id f h := by
    obtain ⟨g, hg, hfg⟩ := h₁.begins id f h
    obtain ⟨k, hk, hgk⟩ := h₂.begins id g hg
    exact ⟨k, hk, hfg.trans hgk⟩

theorem SameFiles.begins (h : c.SameFiles c') : c.Begins c' where
  no_new _ := h.none_of_none
  begins _ _ hf := by
    obtain ⟨g, hg, halike⟩ := h.exists_alike hf
    exact ⟨g, hg, TableFile.begins_of_alike halike⟩

theorem SameFiles.keyed (h : c.SameFiles c') (hkeyed : c.Keyed) : c'.Keyed := by
  intro id g hg
  obtain ⟨f, hf, halike⟩ := h.symm.exists_alike hg
  rw [← hkeyed id f hf]
  exact (TableFile.table_eq_of_alike halike).symm

/-! ## Stages that leave the files as they are -/

theorem removeFrom_tables (c : Cache) (txn : TransactionId) (job : Deletion) (p : HeapPage) :
    (c.removeFrom txn job p).1.tables = c.tables := by
  unfold removeFrom
  split
  · rfl
  · rename_i q _
    obtain ⟨hamend, henter⟩ := c.amend_enter_tables txn (q.markDirty txn)
    simp only
    split
    · split
      · exact hamend
      · rename_i h
        exact henter _ h
    · exact hamend

theorem use_tables (c : Cache) (txn : TransactionId) (p : HeapPage) (purpose : Purpose) :
    (c.use txn p purpose).1.tables = c.tables := by
  cases purpose with
  | view | viewBefore => rfl
  | pin alone =>
    simp only [use]
    split
    · unfold setPinned
      split <;> rfl
    · rfl
  | insert record mark | delete location mark =>
    simp only [use]
    split
    · rfl
    · exact (amend_same _ _).1

theorem Keyed.sameFiles_inspect (h : c.Keyed) (txn : TransactionId) (job : Deletion)
    (p : HeapPage) : c.SameFiles (c.inspect txn job p).1 := by
  unfold inspect
  simp only
  split
  · exact .refl c
  · split
    · exact .refl c
    · have hfetch := h.sameFiles_fetch txn job.location.page .readWrite
      rcases hf : c.fetch txn job.location.page .readWrite with ⟨c', q | e | _⟩ <;>
        rw [hf] at hfetch
      · exact hfetch.trans (.of_eq (removeFrom_tables c' txn job q))
      · exact hfetch
      · exact hfetch

theorem Keyed.sameFiles_walk (h : c.Keyed) (txn : TransactionId) (left : Nat) (draw : Draw) :
    c.SameFiles (walk txn left draw c).1 := by
  induction left using Nat.strong_induction_on generalizing draw c with | _ left ih
  rcases walk_cases txn left draw c with ⟨-, he⟩ | ⟨-, -, he⟩ | ⟨-, -, rest, rfl, he⟩ <;> rw [he]
  · exact .refl c
  · exact .refl c
  · have hfetch := h.sameFiles_fetch txn draw.serve.page .readOnly
    rcases hf : c.fetch txn draw.serve.page .readOnly with ⟨c', p | e | _⟩ <;> rw [hf] at hfetch
    · exact hfetch.trans (ih rest (Nat.lt_succ_self rest) (hfetch.keyed h) _)
    · exact hfetch
    · exact hfetch

/-! ## The search for a slot -/

theorem Keyed.begins_append (h : c.Keyed) (hroom : c.HasRoom) (txn : TransactionId)
    (job : Insertion) : c.Begins (c.append txn job).1 := by
  unfold append allocate
  rcases hf : c.table job.table with e | f
  · exact (SameFiles.refl c).begins
  · have hget := get?_of_table hf
    have hkey : f.grown.table = job.table := h _ f hget
    have hgrown : c.Begins (c.setTable f.grown) := by
      constructor
      · intro id hid
        rw [get?_setTable, hkey, if_neg]
        · exact hid
        · rintro rfl
          rw [hget] at hid
          cases hid
      · intro id k hk
        rw [get?_setTable, hkey]
        split
        · rename_i hid
          rw [hid, hget, Option.some.injEq] at hk
          exact ⟨_, rfl, hk ▸ TableFile.begins_grown (hroom _ f hget)⟩
        · exact ⟨k, hk, .refl k⟩
    have hkeyed : (c.setTable f.grown).Keyed := by
      intro id g hg
      rw [get?_setTable] at hg
      split at hg
      · rename_i hid
        cases hg
        exact hid.symm
      · exact h id g hg
    simp only [TableFile.allocate_eq (hroom _ f hget)]
    exact hgrown.trans (hkeyed.sameFiles_fetchAndFill txn job _).begins

theorem Keyed.begins_seek (h : c.Keyed) (hroom : c.HasRoom) (txn : TransactionId)
    (job : Insertion) (left : Nat) (number : UInt32) :
    c.Begins (seek txn job left number c).1 := by
  induction left generalizing number c with
  | zero => exact h.begins_append hroom txn job
  | succ left ih =>
    have hfetch := h.sameFiles_fetch txn ⟨job.table, number⟩ .readOnly
    unfold seek
    simp only
    rcases hf : c.fetch txn ⟨job.table, number⟩ .readOnly with ⟨c', p | e | _⟩ <;>
      rw [hf] at hfetch
    · simp only
      split
      · have hleave := hfetch.trans (.of_eq (leave_tables c' txn ⟨job.table, number⟩
          (c.holds txn ⟨job.table, number⟩)))
        exact hleave.begins.trans (ih (hleave.keyed h) (hleave.hasRoom hroom) _)
      · exact (hfetch.trans ((hfetch.keyed h).sameFiles_fetchAndFill txn job _)).begins
    · exact hfetch.begins
    · exact hfetch.begins

/-! ## Whole calls -/

theorem Keyed.begins_proceed (h : c.Keyed) {stage : Stage}
    (hroom : stage.seeks = true → c.HasRoom) (txn : TransactionId) (page : PageId)
    (result : Except StoreError HeapPage) : c.Begins (c.proceed txn page stage result).1 := by
  cases result with
  | error e => cases stage <;> exact (SameFiles.refl c).begins
  | ok p =>
    cases stage with
    | use purpose => exact (SameFiles.of_eq (use_tables c txn p purpose)).begins
    | seek job left next held =>
      unfold proceed
      simp only
      split
      · have hleave := SameFiles.of_eq (leave_tables c txn page held)
        exact hleave.begins.trans
          ((hleave.keyed h).begins_seek (hleave.hasRoom (hroom rfl)) txn job left next)
      · exact (h.sameFiles_fetchAndFill txn job page).begins
    | fill job => exact (SameFiles.of_eq (fill_tables c txn job p)).begins
    | inspect job => exact (h.sameFiles_inspect txn job p).begins
    | remove job => exact (SameFiles.of_eq (removeFrom_tables c txn job p)).begins
    | walk d => exact (h.sameFiles_walk txn _ (d.receive p)).begins

theorem Keyed.begins_ask (h : c.Keyed) {stage : Stage} (hseeks : stage.seeks = false)
    (txn : TransactionId) (page : PageId) (access : Access) :
    c.Begins (c.ask txn page access stage).1 := by
  have hfetch := h.sameFiles_fetch txn page access
  have hnever : ∀ {d : Cache}, stage.seeks = true → d.HasRoom := fun hs => by
    rw [hseeks] at hs
    cases hs
  unfold ask
  rcases hf : c.fetch txn page access with ⟨c', p | e | _⟩ <;> rw [hf] at hfetch
  · exact hfetch.begins.trans ((hfetch.keyed h).begins_proceed hnever txn page _)
  · exact hfetch.begins.trans ((hfetch.keyed h).begins_proceed hnever txn page _)
  · exact hfetch.begins

theorem Keyed.begins_start (h : c.Keyed) (hroom : c.HasRoom) (txn : TransactionId)
    (op : Operation) : c.Begins (c.start txn op).1 := by
  have hsame := (SameFiles.refl c).begins
  cases op with
  | fetch page access purpose => exact h.begins_ask rfl txn page access
  | insert job =>
    simp only [start, startInsert]
    split
    · exact hsame
    · split
      · exact hsame
      · exact h.begins_seek hroom txn job _ _
  | delete location =>
    simp only [start, startDelete]
    split
    · exact hsame
    · split
      · exact hsame
      · exact h.begins_ask rfl txn _ .readOnly
  | deleteFrom table location =>
    simp only [start, startDeleteFrom]
    split
    · exact hsame
    · exact hsame
    · split
      · exact hsame
      · exact h.begins_ask rfl txn _ .readOnly
  | scan table =>
    simp only [start]
    split
    · exact hsame
    · exact (h.sameFiles_walk txn _ _).begins
  | draw cursor count => exact (h.sameFiles_walk txn _ _).begins

end Cache

end PageCache
