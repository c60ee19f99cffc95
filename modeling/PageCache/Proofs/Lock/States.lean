-- The lock of a page by itself, with nobody in front of it who knows what a transaction holds
-- already. Requests wait and leave, what can be granted is granted, and holdings are released.
-- The lock is then free, shared by readers, or held by one writer alone, and one release takes
-- away all that a transaction holds, but for one thing: the writer can be granted reading. It
-- then reads as well as writes, and the release that takes its writing away leaves it reading.
import PageCache.Proofs.Lock.Exclusion

namespace PageCache

/-- What can be done to the lock of a page. -/
inductive PageLockAction where
  | grant (txn : TransactionId) (access : Access)
  | enqueue (txn : TransactionId) (access : Access)
  | dequeue (txn : TransactionId)
  | release (txn : TransactionId)
deriving DecidableEq

namespace PageLock

variable {l : PageLock} {w txn : TransactionId} {access : Access} {a : PageLockAction}
  {run : List PageLockAction}

/-- The lock after an action. -/
def perform (l : PageLock) : PageLockAction → PageLock
  | .grant txn access => l.grant txn access
  | .enqueue txn access => l.enqueue txn access
  | .dequeue txn => l.dequeue txn
  | .release txn => (l.release txn).1

/-- The lock after some actions, one after the other. -/
def after (l : PageLock) (run : List PageLockAction) : PageLock := run.foldl perform l

/-- Only what can be granted is granted; all else is allowed at any time. -/
def Admits (l : PageLock) : PageLockAction → Prop
  | .grant txn access => l.canGrant txn access = true
  | .enqueue _ _ | .dequeue _ | .release _ => True

/-- Every action of a run is admitted where it is taken. -/
def AdmitsAll (l : PageLock) (run : List PageLockAction) : Prop := Along perform Admits l run

instance (l : PageLock) : (a : PageLockAction) → Decidable (l.Admits a)
  | .grant txn access => inferInstanceAs (Decidable (l.canGrant txn access = true))
  | .enqueue _ _ | .dequeue _ | .release _ => instDecidableTrue

instance (l : PageLock) (run : List PageLockAction) : Decidable (l.AdmitsAll run) :=
  inferInstanceAs (Decidable (Along perform Admits l run))

/-- The lock is free, shared by readers, or held by one writer alone. -/
def InOneState (l : PageLock) : Prop :=
  l.isFree = true ∨ (l.readers ≠ [] ∧ l.writer = none) ∨
    (l.readers = [] ∧ ∃ w, l.writer = some w)

/-- One release takes away all that a transaction holds. -/
def ReleasesAll (l : PageLock) : Prop := ∀ txn, (l.release txn).1.heldBy txn = none

/-- In a run from the free lock, `w` was granted reading when it was the writer, and since then
it was neither released nor granted writing. -/
inductive ReadsBeside (w : TransactionId) : List PageLockAction → Prop
  | granted {run : List PageLockAction} : (free.after run).writer = some w →
      ReadsBeside w (run ++ [.grant w .readOnly])
  | later {run : List PageLockAction} {a : PageLockAction} : ReadsBeside w run →
      a ≠ .release w → a ≠ .grant w .readWrite → ReadsBeside w (run ++ [a])

theorem admitsAll_append :
    l.AdmitsAll (run ++ [a]) ↔ l.AdmitsAll run ∧ (l.after run).Admits a :=
  Along.append_iff.trans (and_congr_right fun _ => and_iff_left trivial)

theorem after_append_singleton : l.after (run ++ [a]) = (l.after run).perform a := by
  rw [after, List.foldl_append]
  rfl

theorem readsBeside_append_iff : ReadsBeside w (run ++ [a]) ↔
    (a = .grant w .readOnly ∧ (free.after run).writer = some w) ∨
      (ReadsBeside w run ∧ a ≠ .release w ∧ a ≠ .grant w .readWrite) := by
  constructor
  · intro h
    generalize hrun : run ++ [a] = whole at h
    cases h with
    | granted hw =>
      obtain ⟨rfl, hlast⟩ := List.append_inj' hrun rfl
      exact Or.inl ⟨(List.cons.inj hlast).1, hw⟩
    | later h hrelease hgrant =>
      obtain ⟨rfl, hlast⟩ := List.append_inj' hrun rfl
      rw [(List.cons.inj hlast).1]
      exact Or.inr ⟨h, hrelease, hgrant⟩
  · rintro (⟨rfl, hw⟩ | ⟨h, hrelease, hgrant⟩)
    · exact .granted hw
    · exact .later h hrelease hgrant

/-! ## What a grant asks for -/

theorem eq_of_writer_of_canGrant (h : l.canGrant txn access = true) (hw : l.writer = some w) :
    txn = w := by
  simp only [canGrant, holdersAllow, Bool.and_eq_true, Option.all_eq_true,
    decide_eq_true_eq] at h
  exact (h.1.1 w hw).symm

theorem eq_of_reader_of_canGrant (h : l.canGrant txn .readWrite = true) :
    ∀ r ∈ l.readers, r = txn := by
  simp only [canGrant, holdersAllow, Bool.and_eq_true, Bool.or_eq_true, decide_eq_true_eq,
    List.all_eq_true] at h
  simpa using h.1.2

/-! ## The readers of a page that is written -/

/-- Readers are listed once each, and a writer shares the page with nobody but itself. -/
structure Unshared (l : PageLock) : Prop where
  nodup : l.readers.Nodup
  own : ∀ w, l.writer = some w → ∀ r ∈ l.readers, r = w

/-- The writer of the page is its only reader, too. -/
def Doubles (l : PageLock) (w : TransactionId) : Prop := l.writer = some w ∧ l.readers = [w]

theorem unshared_free : free.Unshared := ⟨List.nodup_nil, nofun⟩

@[simp] theorem writer_enqueue : (l.enqueue txn access).writer = l.writer := by
  unfold enqueue
  split <;> rfl

theorem grant_readOnly : (l.grant txn .readOnly).writer = l.writer ∧
    (l.grant txn .readOnly).readers =
      if txn ∈ l.readers then l.readers else l.readers ++ [txn] := by
  unfold grant dequeue
  dsimp only
  split <;> exact ⟨rfl, rfl⟩

/-- What a release leaves: the readers where it takes the writing away, and no writer but the one
before. -/
theorem release_parts : ((l.release txn).1.writer = if l.writer = some txn then none else l.writer) ∧
    (l.release txn).1.readers =
      if l.writer = some txn then l.readers else l.readers.filter (· ≠ txn) := by
  unfold release
  split
  · exact ⟨rfl, rfl⟩
  · split
    · exact ⟨rfl, rfl⟩
    · rename_i hmem
      refine ⟨rfl, ?_⟩
      rw [List.filter_eq_self.2]
      intro r hr
      simpa using fun heq : r = txn => hmem (heq ▸ hr)

namespace Unshared

theorem readers_cases (h : l.Unshared) (hw : l.writer = some w) :
    l.readers = [] ∨ l.readers = [w] := by
  have hnodup := h.nodup
  have hown := h.own w hw
  generalize l.readers = readers at hnodup hown
  rcases readers with _ | ⟨r, rest⟩
  · exact Or.inl rfl
  · obtain rfl := hown r List.mem_cons_self
    rcases rest with _ | ⟨s, rest⟩
    · exact Or.inr rfl
    · obtain rfl := hown s (by simp)
      simp at hnodup

/-- An action keeps it so: who is granted something on a page that is written is the writer, and
who is granted writing is the only one who reads. -/
theorem perform (h : l.Unshared) (ha : l.Admits a) : (l.perform a).Unshared := by
  cases a with
  | grant txn access =>
    refine ⟨nodup_readers_grant h.nodup, ?_⟩
    cases access with
    | readOnly =>
      intro v hv r hr
      rw [PageLock.perform, grant_readOnly.1] at hv
      rw [PageLock.perform, grant_readOnly.2] at hr
      split at hr
      · exact h.own v hv r hr
      · rcases List.mem_append.1 hr with hr | hr
        · exact h.own v hv r hr
        · exact (List.mem_singleton.1 hr).trans (eq_of_writer_of_canGrant ha hv)
    | readWrite =>
      intro v _ r hr
      obtain ⟨hr, hne⟩ := List.mem_filter.1 hr
      exact absurd (eq_of_reader_of_canGrant ha r hr) (by simpa using hne)
  | enqueue txn access =>
    refine ⟨?_, ?_⟩ <;> simp only [PageLock.perform, readers_enqueue, writer_enqueue]
    · exact h.nodup
    · exact h.own
  | dequeue txn => exact ⟨h.nodup, h.own⟩
  | release txn =>
    refine ⟨nodup_readers_release h.nodup, ?_⟩
    intro v hv r hr
    rw [PageLock.perform, release_parts.1] at hv
    rw [PageLock.perform, release_parts.2] at hr
    split at hv
    · cases hv
    · rename_i hne
      rw [if_neg hne] at hr
      exact h.own v hv r (List.mem_filter.1 hr).1

/-- A writer comes to read by being granted reading, and goes on until it is released or granted
writing once more. -/
theorem doubles_perform_iff (h : l.Unshared) (ha : l.Admits a) : (l.perform a).Doubles w ↔
    (a = .grant w .readOnly ∧ l.writer = some w) ∨
      (l.Doubles w ∧ a ≠ .release w ∧ a ≠ .grant w .readWrite) := by
  cases a with
  | grant txn access =>
    cases access with
    | readOnly =>
      rw [Doubles, PageLock.perform, grant_readOnly.1, grant_readOnly.2]
      constructor
      · rintro ⟨hw, -⟩
        exact Or.inl ⟨by rw [eq_of_writer_of_canGrant ha hw], hw⟩
      · intro hcase
        have hw : l.writer = some w := hcase.elim (·.2) (·.1.1)
        obtain rfl := eq_of_writer_of_canGrant ha hw
        rcases h.readers_cases hw with hreaders | hreaders <;> simp [hreaders, hw]
    | readWrite =>
      constructor
      · rintro ⟨hw, hreaders⟩
        have hmem : w ∈ (l.perform (.grant txn .readWrite)).readers := by
          rw [hreaders]
          exact List.mem_singleton_self w
        exact absurd (Option.some.inj hw).symm (by simpa using (List.mem_filter.1 hmem).2)
      · rintro (⟨hgrant, -⟩ | ⟨⟨hw, -⟩, -, hgrant⟩)
        · cases hgrant
        · exact absurd (by rw [eq_of_writer_of_canGrant ha hw]) hgrant
  | enqueue txn access => simp [Doubles, PageLock.perform]
  | dequeue txn => simp [Doubles, PageLock.perform, dequeue]
  | release txn =>
    rw [Doubles, PageLock.perform, release_parts.1, release_parts.2]
    by_cases hw : l.writer = some txn
    · rw [if_pos hw]
      constructor
      · rintro ⟨hnone, -⟩
        cases hnone
      · rintro (⟨hgrant, -⟩ | ⟨⟨hv, -⟩, hne, -⟩)
        · cases hgrant
        · rw [hw] at hv
          exact absurd (by rw [Option.some.inj hv]) hne
    · rw [if_neg hw, if_neg hw]
      constructor
      · rintro ⟨hv, hreaders⟩
        have hne : txn ≠ w := fun heq => hw (heq ▸ hv)
        refine Or.inr ⟨⟨hv, ?_⟩, by simpa using hne, by simp⟩
        rcases h.readers_cases hv with hnone | hown
        · simp [hnone] at hreaders
        · exact hown
      · rintro (⟨hgrant, -⟩ | ⟨⟨hv, hreaders⟩, hne, -⟩)
        · cases hgrant
        · have hother : w ≠ txn := fun heq => hne (by rw [heq])
          exact ⟨hv, by simp [hreaders, hother]⟩

/-- A lock is out of its three states exactly when its writer reads as well. -/
theorem inOneState_iff (h : l.Unshared) : l.InOneState ↔ ¬ ∃ w, l.Doubles w := by
  unfold InOneState Doubles isFree mode
  rcases hw : l.writer with _ | w
  · rcases hreaders : l.readers with _ | ⟨r, rest⟩ <;> simp
  · rcases h.readers_cases hw with hreaders | hreaders <;> simp [hreaders]

/-- A release leaves something behind exactly when the writer reads as well. -/
theorem releasesAll_iff (h : l.Unshared) : l.ReleasesAll ↔ ¬ ∃ w, l.Doubles w := by
  constructor
  · rintro hall ⟨w, hw, hreaders⟩
    have hleft := hall w
    rw [heldBy, release_parts.1, release_parts.2, if_pos hw, if_pos hw, hreaders] at hleft
    simp at hleft
  · intro hno txn
    rw [heldBy, release_parts.1, release_parts.2]
    by_cases hw : l.writer = some txn
    · rcases h.readers_cases hw with hreaders | hreaders
      · simp [hw, hreaders]
      · exact absurd ⟨txn, hw, hreaders⟩ hno
    · simp [hw]

end Unshared

/-! ## A run -/

/-- After a run the readers are as they should be, but for writers that were granted reading. -/
theorem unshared_after (h : free.AdmitsAll run) :
    (free.after run).Unshared ∧ ∀ w, (free.after run).Doubles w ↔ ReadsBeside w run := by
  induction run using List.reverseRecOn with
  | nil =>
    refine ⟨unshared_free, fun w => iff_of_false (fun hw => nomatch hw.1) fun hw => ?_⟩
    generalize hnil : [] = whole at hw
    cases hw <;> simp at hnil
  | append_singleton run a ih =>
    obtain ⟨hrun, ha⟩ := admitsAll_append.1 h
    obtain ⟨hunshared, hdoubles⟩ := ih hrun
    rw [after_append_singleton]
    refine ⟨hunshared.perform ha, fun w => ?_⟩
    rw [hunshared.doubles_perform_iff ha, readsBeside_append_iff, hdoubles w]

/-! ## The law -/

/-- After a run the lock is in one of its three states, and one release takes away all that a
transaction holds, exactly if no writer was granted reading and has kept both since. Where one
has, it is the only reader of the page that it writes, a release of it tells of its writing and
leaves it reading, and a second one takes that away, too. -/
theorem three_states_kept_iff (h : free.AdmitsAll run) :
    ((free.after run).InOneState ∧ (free.after run).ReleasesAll ↔ ¬ ∃ w, ReadsBeside w run) ∧
    ∀ w, ReadsBeside w run →
      (free.after run).writer = some w ∧ (free.after run).readers = [w] ∧
      ((free.after run).release w).2 = some .readWrite ∧
      ((free.after run).release w).1.heldBy w = some .readOnly ∧
      (((free.after run).release w).1.release w).1.heldBy w = none := by
  obtain ⟨hunshared, hdoubles⟩ := unshared_after h
  constructor
  · rw [hunshared.inOneState_iff, hunshared.releasesAll_iff, and_self]
    simp only [hdoubles]
  · intro w hw
    obtain ⟨hwriter, hreaders⟩ := (hdoubles w).2 hw
    refine ⟨hwriter, hreaders, ?_, ?_, ?_⟩ <;>
      simp [release, heldBy, hwriter, hreaders]

/-- Two transactions read a page, and the second waits to write it until the first releases it;
then it is granted writing, reading and writing again, and the third one waits. -/
def upgradeRun : List PageLockAction :=
  [.grant ⟨1⟩ .readOnly, .grant ⟨2⟩ .readOnly, .enqueue ⟨2⟩ .readWrite, .release ⟨1⟩,
    .grant ⟨2⟩ .readWrite, .grant ⟨2⟩ .readOnly, .grant ⟨2⟩ .readWrite, .enqueue ⟨3⟩ .readOnly]

/-- The writer is alone then, and one release takes away what it holds. -/
theorem three_states_kept_by_upgrade :
    free.AdmitsAll upgradeRun ∧ (free.after upgradeRun).writer = some ⟨2⟩ ∧
      (free.after upgradeRun).InOneState ∧ (free.after upgradeRun).ReleasesAll := by
  have hadmits : free.AdmitsAll upgradeRun := by decide
  have hwriter : (free.after upgradeRun).writer = some ⟨2⟩ := by decide
  obtain ⟨hiff, hbeside⟩ := three_states_kept_iff hadmits
  have hnobody : ¬ ∃ w, ReadsBeside w upgradeRun := by
    rintro ⟨w, hw⟩
    have hnone : (free.after upgradeRun).readers = [] := by decide
    have hreads := (hbeside w hw).2.1
    rw [hnone] at hreads
    cases hreads
  exact ⟨hadmits, hwriter, hiff.2 hnobody⟩

/-- A transaction is granted writing, and then reading. -/
def selfSharingRun : List PageLockAction := [.grant ⟨1⟩ .readWrite, .grant ⟨1⟩ .readOnly]

/-- It has both then, and still reads after it was released. -/
theorem writer_reads_after_release :
    free.AdmitsAll selfSharingRun ∧ ¬ (free.after selfSharingRun).InOneState ∧
      (free.after selfSharingRun).writer = some ⟨1⟩ ∧
      (free.after selfSharingRun).readers = [⟨1⟩] ∧
      ((free.after selfSharingRun).release ⟨1⟩).1.heldBy ⟨1⟩ = some .readOnly := by
  refine ⟨by decide, ?_, by decide, by decide, by decide⟩
  rintro (hfree | ⟨-, hnone⟩ | ⟨hnone, -⟩)
  · exact absurd hfree (by decide)
  · exact absurd hnone (by decide)
  · exact absurd hnone (by decide)

end PageLock

end PageCache
