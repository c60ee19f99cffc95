-- The pages whose uses are known are the resident ones, and there are never more of them than
-- the cache has places. So where a page has to go, the one that goes is the one whose uses say
-- so, among all resident pages that are clean and that nobody writes on.
import PageCache.Cache.Call
import PageCache.Cache.Ending
import PageCache.Proofs.Cache.Residency

namespace PageCache

/-- A user that fetches a page for this keeps others from looking at it until the pin is taken
away. -/
def Purpose.pins : Purpose → Bool
  | .pin alone => alone
  | _ => false

/-- A call at this stage ends with a pinned page. -/
def Stage.pins : Stage → Bool
  | .use purpose => purpose.pins
  | _ => false

/-- An operation that ends with a pinned page. -/
def Operation.pins : Operation → Bool
  | .fetch _ _ purpose => purpose.pins
  | _ => false

namespace Cache

variable {c c' d : Cache} {n : Nat} {page a b : PageId} {p q : HeapPage} {txn : TransactionId}
  {e : StoreError}

/-! ## Pages that may go -/

/-- The page is resident and clean, and no transaction has it locked for writing. -/
structure IsSpare (c : Cache) (page : PageId) : Prop where
  clean : ∃ p, c.residentPage page = some p ∧ p.dirty = none
  unwritten : ∀ txn, c.locks.table.heldMode txn page ≠ some .readWrite

/-- The page may go, and it is to go rather than any other page that may. -/
structure IsVictim (c : Cache) (page : PageId) : Prop where
  spare : c.IsSpare page
  outranks : ∀ other, c.IsSpare other → other ≠ page → c.uses.Outranks page other

/-- The cache without one of its pages. -/
def without (c : Cache) (page : PageId) : Cache :=
  { c with resident := c.resident.erase page, uses := c.uses.remove page }

/-- The pages whose uses are known are the resident ones, no more than the cache has places.
None is pinned. -/
structure Tracked (c : Cache) (n : Nat) : Prop where
  capacity_eq : c.capacity = n
  tracks_eq : ∀ page, c.uses.tracks page = c.resident.contains page
  size_le : c.resident.size ≤ n
  unpinned : ∀ page frame, c.resident.get? page = some frame → frame.pinned = false
  dated : c.uses.Dated

theorem tracked_new (config : Config) (log : Option WriteLog) :
    (Cache.new config log).Tracked config.capacity where
  capacity_eq := rfl
  tracks_eq _ := rfl
  size_le := Nat.zero_le _
  unpinned _ _ h := by cases h
  dated := LruK.dated_new _

/-- Tables, locks and the log have no part in it. -/
theorem Tracked.of_same (h : c.Tracked n) (hcap : c'.capacity = c.capacity)
    (hres : c'.resident = c.resident) (huses : c'.uses = c.uses) : c'.Tracked n where
  capacity_eq := hcap.trans h.capacity_eq
  tracks_eq := by
    rw [hres, huses]
    exact h.tracks_eq
  size_le := hres ▸ h.size_le
  unpinned := hres ▸ h.unpinned
  dated := huses ▸ h.dated

/-! ## Single steps -/

theorem Tracked.noteUse (h : c.Tracked n) (hres : c.resident.contains page = true) :
    (c.noteUse page).Tracked n where
  capacity_eq := h.capacity_eq
  tracks_eq other := by
    change (c.uses.access page).tracks other = c.resident.contains other
    rw [LruK.tracks_access, h.tracks_eq]
    by_cases heq : other = page
    · simp [heq, hres]
    · simp [heq]
  size_le := h.size_le
  unpinned := h.unpinned
  dated := h.dated.access page

theorem Tracked.pinned_eq (h : c.Tracked n) (page : PageId) :
    (c.resident.get? page).any Frame.pinned = false := by
  rcases hget : c.resident.get? page with _ | frame
  · rfl
  · exact h.unpinned page frame hget

theorem Tracked.resident_place (h : c.Tracked n) (p : HeapPage) :
    (c.place p).resident = c.resident.insert p.id ⟨p, false⟩ := by
  rw [place, h.pinned_eq]

theorem Tracked.unpinned_place (h : c.Tracked n) (p : HeapPage) (page : PageId) (frame : Frame)
    (hget : (c.place p).resident.get? page = some frame) : frame.pinned = false := by
  rw [h.resident_place, FinMap.get?_insert] at hget
  split at hget
  · cases hget
    rfl
  · exact h.unpinned page frame hget

/-- A page is put into a place that is there for it, and used. -/
theorem Tracked.enter (h : c.Tracked n)
    (hroom : c.resident.contains p.id = true ∨ c.resident.size < n) :
    ((c.place p).noteUse p.id).Tracked n where
  capacity_eq := h.capacity_eq
  tracks_eq other := by
    change (c.uses.access p.id).tracks other = (c.place p).resident.contains other
    rw [LruK.tracks_access, h.tracks_eq, h.resident_place, FinMap.contains_insert]
  size_le := by
    change (c.place p).resident.size ≤ n
    rw [h.resident_place, FinMap.size_insert]
    have := h.size_le
    split
    · exact this
    · rename_i hnew
      have := hroom.resolve_left hnew
      omega
  unpinned := h.unpinned_place p
  dated := h.dated.access p.id

/-- A resident page is replaced without being used. -/
theorem Tracked.amend (h : c.Tracked n) (p : HeapPage) : (c.amend p).Tracked n := by
  unfold Cache.amend
  split
  · rename_i hres
    refine ⟨h.capacity_eq, ?_, ?_, h.unpinned_place p, h.dated⟩
    · intro other
      change c.uses.tracks other = (c.place p).resident.contains other
      rw [h.tracks_eq, h.resident_place, FinMap.contains_insert]
      by_cases heq : other = p.id
      · simp [heq, hres]
      · simp [heq]
    · rw [h.resident_place, FinMap.size_insert, if_pos hres]
      exact h.size_le
  · exact h

theorem Tracked.without (h : c.Tracked n) (page : PageId) : (c.without page).Tracked n where
  capacity_eq := h.capacity_eq
  tracks_eq other := by
    change (c.uses.remove page).tracks other = (c.resident.erase page).contains other
    rw [LruK.tracks_remove, FinMap.contains_erase, h.tracks_eq]
  size_le := Nat.le_trans (FinMap.size_erase_le _ _) h.size_le
  unpinned other frame hget := by
    change (c.resident.erase page).get? other = some frame at hget
    rw [FinMap.get?_erase] at hget
    split at hget
    · cases hget
    · exact h.unpinned other frame hget
  dated := h.dated.remove page

theorem Tracked.discard (h : c.Tracked n) (page : PageId) : (c.discard page).Tracked n := by
  unfold Cache.discard
  split
  · exact h.without page
  · exact h

/-- There is no pin to be taken away. -/
theorem Tracked.setPinned_false (h : c.Tracked n) (page : PageId) :
    (c.setPinned page false).Tracked n := by
  unfold Cache.setPinned
  split
  · rename_i frame hget
    have hres := (FinMap.contains_iff _ _).2 ⟨frame, hget⟩
    refine ⟨h.capacity_eq, ?_, ?_, ?_, h.dated⟩
    · intro other
      rw [h.tracks_eq, FinMap.contains_insert]
      by_cases heq : other = page
      · simp [heq, hres]
      · simp [heq]
    · rw [FinMap.size_insert, if_pos hres]
      exact h.size_le
    · intro other frame' hget'
      rw [FinMap.get?_insert] at hget'
      split at hget'
      · cases hget'
        rfl
      · exact h.unpinned other frame' hget'
  · exact h

theorem Tracked.setTable (h : c.Tracked n) (f : TableFile) : (c.setTable f).Tracked n :=
  h.of_same rfl rfl rfl

theorem Tracked.addTable {f : TableFile} (h : c.Tracked n) (he : c.addTable f = .ok c') :
    c'.Tracked n := by
  unfold Cache.addTable at he
  split at he
  · cases he
  · cases he
    exact h.setTable f

/-! ## The page that goes -/

/-- The page is locked for writing if a transaction has it locked so. -/
theorem pageMode_eq_readWrite_iff {t : LockTable} :
    t.pageMode page = some .readWrite ↔ ∃ txn, t.heldMode txn page = some .readWrite := by
  simp only [LockTable.pageMode, LockTable.heldMode, PageLock.mode, PageLock.heldBy]
  rcases (t.lockOf page).writer with _ | w
  · simp
  · exact ⟨fun _ => ⟨w, by simp⟩, fun _ => rfl⟩

theorem IsSpare.contains (h : c.IsSpare page) : c.resident.contains page = true := by
  obtain ⟨p, hres, -⟩ := h.clean
  exact contains_of_resident hres

/-- At most one page is to go rather than all others. -/
theorem IsVictim.unique (ha : c.IsVictim a) (hb : c.IsVictim b) : a = b := by
  by_contra hne
  exact (ha.outranks b hb.spare (Ne.symm hne)).asymm (hb.outranks a ha.spare hne)

/-- The pages that the cache lets go are those that may go. -/
theorem Tracked.mayEvict_iff (h : c.Tracked n) : c.mayEvict page = true ↔ c.IsSpare page := by
  rw [Cache.mayEvict_iff, ne_eq, pageMode_eq_readWrite_iff, not_exists]
  constructor
  · rintro ⟨hnot, frame, hget, -, hclean⟩
    exact ⟨⟨frame.page, by rw [residentPage, hget]; rfl, hclean⟩, hnot⟩
  · rintro ⟨⟨p, hres, hclean⟩, hnot⟩
    obtain ⟨frame, hget, rfl⟩ := Option.map_eq_some_iff.1 hres
    exact ⟨hnot, frame, hget, h.unpinned page frame hget, hclean⟩

/-- The page to go leaves, and nothing else changes; without a page that may go nothing at all
does. -/
theorem Tracked.evict_cases (h : c.Tracked n) :
    (c.evict = .error (.cacheFull n) ∧ ∀ page, ¬ c.IsSpare page) ∨
    ∃ page, c.evict = .ok (c.without page, page) ∧ c.IsVictim page := by
  unfold evict
  rcases h.dated.evict_cases c.mayEvict with ⟨he, hnone⟩ | ⟨page, he, hvictim⟩
  · refine Or.inl ⟨by rw [he, ← h.capacity_eq], ?_⟩
    intro page hspare
    have hfalse := hnone page (by rw [h.tracks_eq, hspare.contains])
    rw [h.mayEvict_iff.2 hspare] at hfalse
    cases hfalse
  · refine Or.inr ⟨page, by rw [he]; rfl, h.mayEvict_iff.1 hvictim.allowed, ?_⟩
    intro other hspare hne
    exact hvictim.outranks other (by rw [h.tracks_eq, hspare.contains])
      (h.mayEvict_iff.2 hspare) hne

theorem Tracked.exists_victim (h : c.Tracked n) (hspare : c.IsSpare page) :
    ∃ victim, c.IsVictim victim := by
  rcases h.evict_cases with ⟨-, hnone⟩ | ⟨victim, -, hvictim⟩
  · exact absurd hspare (hnone page)
  · exact ⟨victim, hvictim⟩

theorem Tracked.evict_victim (h : c.Tracked n) (hvictim : c.IsVictim page) :
    c.evict = .ok (c.without page, page) := by
  rcases h.evict_cases with ⟨-, hnone⟩ | ⟨other, he, hother⟩
  · exact absurd hvictim.spare (hnone page)
  · rw [hvictim.unique hother, he]

theorem Tracked.evict_none (h : c.Tracked n) (hnone : ∀ page, ¬ c.IsSpare page) :
    c.evict = .error (.cacheFull n) := by
  rcases h.evict_cases with ⟨he, -⟩ | ⟨page, -, hvictim⟩
  · exact he
  · exact absurd hvictim.spare (hnone page)

theorem Tracked.evict (h : c.Tracked n) (he : c.evict = .ok (c', page)) : c'.Tracked n := by
  rcases h.evict_cases with ⟨herr, -⟩ | ⟨other, hok, -⟩
  · rw [herr] at he
    cases he
  · rw [hok] at he
    cases he
    exact h.without page

theorem Tracked.makeRoom (h : c.Tracked n) (he : c.makeRoom = .ok c') :
    c'.Tracked n ∧ c'.resident.size < n := by
  unfold Cache.makeRoom at he
  rw [h.capacity_eq] at he
  split at he
  · rcases h.evict_cases with ⟨herr, -⟩ | ⟨victim, hok, hvictim⟩
    · rw [herr] at he
      cases he
    · rw [hok] at he
      cases he
      exact ⟨h.without victim,
        Nat.lt_of_lt_of_le (FinMap.size_erase_lt hvictim.spare.contains) h.size_le⟩
  · rename_i hless
    cases he
    exact ⟨h, Nat.lt_of_not_le hless⟩

/-- In a full cache there is room only after a page has gone. -/
theorem Tracked.makeRoom_eq_of_full (h : c.Tracked n) (hfull : c.resident.size = n) :
    c.makeRoom = c.evict.map Prod.fst := if_pos (Nat.le_of_eq (h.capacity_eq.trans hfull.symm))

/-! ## Pages that come -/

/-- Reading a page from its file leaves all but the files alone. -/
theorem readPage_same (c : Cache) (table : TableId) (page : PageId) :
    ∃ tables, (c.readPage table page).1 = { c with tables } := by
  unfold readPage
  split
  · exact ⟨c.tables, rfl⟩
  · exact ⟨_, rfl⟩

theorem Tracked.readPage (h : c.Tracked n) (table : TableId) (page : PageId) :
    (c.readPage table page).1.Tracked n := by
  obtain ⟨tables, he⟩ := readPage_same c table page
  rw [he]
  exact h.of_same rfl rfl rfl

theorem id_of_readPage {table : TableId} (he : (c.readPage table page).2 = .ok p) :
    p.id = page := by
  unfold readPage at he
  split at he
  · cases he
  · obtain ⟨-, hstored, -⟩ := TableFile.read_ok he
    exact (TableFile.stored_proper hstored).2.1

/-- A page that is not resident is read, then room is made for it. -/
theorem bring_eq_of_miss (hmiss : c.resident.get? page = none) : c.bring page =
    match c.readPage page.table page with
    | (c, .error e) => (c, .error e)
    | (c, .ok p) =>
      match c.makeRoom with
      | .error e => (c, .error e)
      | .ok c => ((c.place p).noteUse page, .ok p) := by
  unfold bring readPage
  rw [hmiss]
  simp only
  split
  · rfl
  · rename_i file htable
    rcases file.read page with ⟨g, e | p⟩ <;> rfl

theorem Tracked.bring (h : c.Tracked n) (page : PageId) : (c.bring page).1.Tracked n := by
  rcases hget : c.resident.get? page with _ | frame
  · rw [bring_eq_of_miss hget]
    have hread := h.readPage page.table page
    rcases hp : c.readPage page.table page with ⟨c', e | p⟩
    · rw [hp] at hread
      exact hread
    · rw [hp] at hread
      have hid : p.id = page := id_of_readPage (congrArg Prod.snd hp)
      simp only
      split
      · exact hread
      · rename_i d hroom
        obtain ⟨hd, hless⟩ := hread.makeRoom hroom
        rw [← hid]
        exact hd.enter (Or.inr hless)
  · unfold Cache.bring
    rw [hget]
    exact h.noteUse ((FinMap.contains_iff _ _).2 ⟨frame, hget⟩)

/-- A page that is read into a full cache takes the place of the page that is to go; without
one that may go it does not come in, and all pages stay. -/
theorem Tracked.bring_full (h : c.Tracked n) (hfull : c.resident.size = n)
    (hmiss : c.resident.get? page = none) (hread : (c.readPage page.table page).2 = .ok p) :
    (∀ victim, c.IsVictim victim → (c.bring page).2 = .ok p ∧
      (c.bring page).1.resident = (c.resident.erase victim).insert page ⟨p, false⟩ ∧
      (c.bring page).1.uses = (c.uses.remove victim).access page) ∧
    ((∀ other, ¬ c.IsSpare other) → (c.bring page).2 = .error (.cacheFull n) ∧
      (c.bring page).1.resident = c.resident ∧ (c.bring page).1.uses = c.uses) := by
  have hid := id_of_readPage hread
  obtain ⟨tables, hsame⟩ := readPage_same c page.table page
  have hd : ({ c with tables } : Cache).Tracked n := h.of_same rfl rfl rfl
  have hspare : ∀ other, ({ c with tables } : Cache).IsSpare other ↔ c.IsSpare other :=
    fun _ => ⟨fun ⟨hclean, hnot⟩ => ⟨hclean, hnot⟩, fun ⟨hclean, hnot⟩ => ⟨hclean, hnot⟩⟩
  rw [bring_eq_of_miss hmiss, show c.readPage page.table page = ({ c with tables }, .ok p) from
    Prod.ext hsame hread]
  simp only [hd.makeRoom_eq_of_full hfull]
  constructor
  · intro victim hvictim
    have hvictim' : ({ c with tables } : Cache).IsVictim victim :=
      ⟨(hspare victim).2 hvictim.spare,
        fun other ho => hvictim.outranks other ((hspare other).1 ho)⟩
    rw [hd.evict_victim hvictim']
    refine ⟨rfl, ?_, rfl⟩
    rw [← hid]
    exact (hd.without victim).resident_place p
  · intro hnone
    rw [hd.evict_none fun other ho => hnone other ((hspare other).1 ho)]
    exact ⟨rfl, rfl, rfl⟩

end Cache

end PageCache
