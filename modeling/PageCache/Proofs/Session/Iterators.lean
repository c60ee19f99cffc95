-- Where an iterator stands, and what every step of a session does to that. As long as it is asked
-- from where it stands, it goes forward page by page: what it comes through is handed out, or is on
-- its way to be handed out, and a page that cannot be fetched stops it until it is put back.
import PageCache.Proofs.Session.Bystanders
import PageCache.Proofs.Session.Resumption

namespace PageCache

/-- Where an iterator stands. A call that waits has come further than its user knows, and `kept` is
what it will hand out of that. -/
structure Whereabouts where
  txn : TransactionId
  cursor : Cursor
  kept : List Item
deriving DecidableEq

/-- An iterator has gone on: what was kept, and what it has come through since, is handed out or
still kept. -/
def Whereabouts.Advances (c : Cache) (a : Whereabouts) (out : List Item) (b : Whereabouts) : Prop :=
  b.txn = a.txn ∧ ∃ items, out ++ b.kept = a.kept ++ items ∧ c.Yields a.txn a.cursor items b.cursor

theorem Whereabouts.Advances.refl (c : Cache) (a : Whereabouts) : a.Advances c [] a :=
  ⟨rfl, [], by simp, .records (.refl c a.txn a.cursor) fun _ => rfl⟩

/-- The items that an answer hands out. -/
def Answer.items : Answer → List Item
  | .finished (.ok (.drawn _ items _)) => items
  | _ => []

namespace Session

/-- The page that the unfinished call of an iterator waits for, and how far the call has come. -/
def pausedAt (s : Session) (txn : TransactionId) (name : String) : Option (PageId × Draw) :=
  match s.calls.get? txn with
  | some ⟨page, .walk draw, iterator⟩ => if iterator = some name then some (page, draw) else none
  | _ => none

def whereabouts (s : Session) (name : String) : Option Whereabouts :=
  (s.iterators.get? name).map fun i =>
    match s.pausedAt i.txn name with
    | some (page, draw) => ⟨i.txn, { draw.cursor with nextPage := page.number }, draw.items⟩
    | none => ⟨i.txn, i.cursor, []⟩

/-- The iterator whose call goes on in a step. -/
def iteratorOf (s : Session) : Action → Option String
  | .submit _ name _ => name
  | .resume txn | .expire txn => (s.calls.get? txn).bind WaitingCall.iterator
  | _ => none

/-- The answer that the user of an iterator is given in a step. -/
def answerTo (s : Session) (name : String) : Step → Option Answer
  | .act a =>
    match (s.perform a).2 with
    | .answered answer => if s.iteratorOf a = some name then some answer else none
    | _ => none
  | _ => none

/-- How many items the user of an iterator has asked for in the call that goes on in a step. -/
def wantedIn (s : Session) : Action → Option Nat
  | .submit _ _ (.draw _ count) => some count
  | .resume txn | .expire txn =>
    match s.calls.get? txn with
    | some ⟨_, .walk draw, _⟩ => draw.wanted
    | _ => none
  | _ => none

/-- The items that are handed out to the user of an iterator in a step. -/
def handedOut (s : Session) (name : String) (st : Step) : List Item :=
  match s.answerTo name st with
  | some answer => answer.items
  | none => []

/-- The iterator is opened, or put back before the first record. -/
def Restarts (s : Session) (name : String) : Step → Prop
  | .act (.openIterator txn n table) =>
    n = name ∧ (s.openIterator txn n table).2 = .finished (.ok .done)
  | .act (.rewindIterator n) => n = name ∧ (s.rewindIterator n).2 = .finished (.ok .done)
  | _ => False

/-- Whoever asks an iterator, asks its own one, and from where it stands. -/
def Continues (s : Session) : Step → Prop
  | .act (.submit txn (some name) (.draw cursor _)) => s.iterators.get? name = some ⟨txn, cursor⟩
  | .act (.submit _ (some _) _) => False
  | _ => True

/-- Every step of a run is of that kind where it is taken. -/
def ContinuesAll (s : Session) (steps : List Step) : Prop := Along step Continues s steps

instance (s : Session) (name : String) : (st : Step) → Decidable (s.Restarts name st)
  | .act (.openIterator txn n table) =>
    inferInstanceAs (Decidable (n = name ∧ (s.openIterator txn n table).2 = .finished (.ok .done)))
  | .act (.rewindIterator n) =>
    inferInstanceAs (Decidable (n = name ∧ (s.rewindIterator n).2 = .finished (.ok .done)))
  | .act (.addTable _) | .act (.allocate _) | .act (.submit ..) | .act (.resume _)
  | .act (.expire _) | .act (.commit _) | .act (.abort _) | .act .evict | .act (.unpin _)
  | .flush _ | .flushAll | .discard _ | .release .. | .overwrite _ => instDecidableFalse

instance (s : Session) : (st : Step) → Decidable (s.Continues st)
  | .act (.submit txn (some name) (.draw cursor _)) =>
    inferInstanceAs (Decidable (s.iterators.get? name = some ⟨txn, cursor⟩))
  | .act (.submit _ (some _) (.fetch ..)) | .act (.submit _ (some _) (.insert _))
  | .act (.submit _ (some _) (.delete _)) | .act (.submit _ (some _) (.deleteFrom ..))
  | .act (.submit _ (some _) (.scan _)) => instDecidableFalse
  | .act (.submit _ none _) | .act (.addTable _) | .act (.allocate _) | .act (.resume _)
  | .act (.expire _) | .act (.commit _) | .act (.abort _) | .act .evict | .act (.unpin _)
  | .act (.openIterator ..) | .act (.rewindIterator _)
  | .flush _ | .flushAll | .discard _ | .release .. | .overwrite _ => instDecidableTrue

instance (s : Session) (steps : List Step) : Decidable (s.ContinuesAll steps) :=
  inferInstanceAs (Decidable (Along step Continues s steps))

variable {s s' : Session} {txn u : TransactionId} {name : String} {iterator : Option String}
  {i : Iterator} {call : WaitingCall} {first draw : Draw} {result : Cache × Progress} {st : Step}
  {a b : Whereabouts} {c : Cache}

/-- Each call that waits for an iterator is one of the iterator's own transaction, and waits for the
page behind those that it has come through. -/
def Attended (s : Session) : Prop :=
  ∀ txn call name, s.calls.get? txn = some call → call.iterator = some name →
    ∃ i draw, s.iterators.get? name = some i ∧ i.txn = txn ∧
      s.cache.Pauses draw call.page call.stage ∧ draw.wanted ≠ none

theorem attended_new (config : Config) (log : Option WriteLog) : (new config log).Attended :=
  fun _ _ _ hcall => by cases hcall

/-! ## Where an iterator stands -/

theorem pausedAt_of_free (h : ∀ call, s.calls.get? txn = some call → call.iterator ≠ some name) :
    s.pausedAt txn name = none := by
  unfold pausedAt
  split
  · rename_i hcall
    exact if_neg (h _ hcall)
  · rfl

theorem whereabouts_of_free (hi : s.iterators.get? name = some i)
    (h : ∀ call, s.calls.get? i.txn = some call → call.iterator ≠ some name) :
    s.whereabouts name = some ⟨i.txn, i.cursor, []⟩ := by
  rw [whereabouts, hi, Option.map_some, pausedAt_of_free h]

theorem whereabouts_of_waiting (hi : s.iterators.get? name = some i)
    (hcall : s.calls.get? i.txn = some call) (hname : call.iterator = some name)
    (hpauses : c.Pauses draw call.page call.stage) :
    s.whereabouts name = some ⟨i.txn, draw.cursor, draw.items⟩ := by
  obtain ⟨page, stage, iterator⟩ := call
  obtain ⟨rfl, rfl, -, -, -⟩ := hpauses
  obtain rfl : iterator = some name := hname
  rw [whereabouts, hi, Option.map_some, pausedAt, hcall]
  simp only [if_pos]
  rfl

/-- It depends on the iterator and on the call of its transaction. -/
theorem whereabouts_congr (hi : s'.iterators.get? name = s.iterators.get? name)
    (h : ∀ i, s.iterators.get? name = some i → s'.pausedAt i.txn name = s.pausedAt i.txn name) :
    s'.whereabouts name = s.whereabouts name := by
  unfold whereabouts
  rw [hi]
  apply Option.map_congr
  intro i hmem
  rw [h i hmem]

theorem whereabouts_of_same (hiterators : s'.iterators = s.iterators) (hcalls : s'.calls = s.calls) :
    s'.whereabouts name = s.whereabouts name := by
  refine whereabouts_congr (by rw [hiterators]) fun i _ => ?_
  rw [pausedAt, pausedAt, hcalls]

theorem Attended.of_same (h : s.Attended) (hiterators : s'.iterators = s.iterators)
    (hcalls : s'.calls = s.calls)
    (hgrown : ∀ id, s.cache.pageCount id ≤ s'.cache.pageCount id) : s'.Attended := by
  intro txn call name hcall hname
  rw [hcalls] at hcall
  obtain ⟨i, draw, hi, htxn, hpauses, hwanted⟩ := h txn call name hcall hname
  exact ⟨i, draw, by rw [hiterators, hi], htxn, hpauses.of_grown hgrown, hwanted⟩

/-! ## A call is entered -/

/-- A call of a transaction is entered in a session `s₁`, which is as `s` but for that call. If it is
for an iterator, it has come to this result from where the iterator stood in `s`. -/
structure Enters (s : Session) (txn : TransactionId) (iterator : Option String)
    (wanted : Option Nat) (s₁ : Session) (result : Cache × Progress) : Prop where
  iterators_eq : s₁.iterators = s.iterators
  others : ∀ u, u ≠ txn → s₁.calls.get? u = s.calls.get? u
  own : ∀ call, s.calls.get? txn = some call → call.iterator = iterator
  grown : ∀ id, s.cache.pageCount id ≤ result.1.pageCount id
  serves : ∀ name, iterator = some name → ∃ i first, s.iterators.get? name = some i ∧
    i.txn = txn ∧ s.whereabouts name = some ⟨txn, first.cursor, first.items⟩ ∧
    first.wanted = wanted ∧ wanted ≠ none ∧ Cache.Strides txn first result

/-- The outcome of a call of an iterator: its cursor is at the end, or there is as much as the user
wanted. -/
def Concludes (c : Cache) (wanted : Option Nat) (outcome : Outcome) : Prop :=
  ∃ next items ended, outcome = .ok (.drawn next items ended) ∧
    (ended = true ∧ c.AtEnd next ∨ ended = false ∧ ∃ n, wanted = some n ∧ n ≤ items.length)

/-- What a step does to all iterators. -/
structure Attends (s : Session) (st : Step) : Prop where
  attended : (s.step st).Attended
  nowhere : ∀ name, ¬ s.Restarts name st → s.whereabouts name = none →
    (s.step st).whereabouts name = none
  advances : ∀ name a, ¬ s.Restarts name st → s.whereabouts name = some a →
    ∃ b, (s.step st).whereabouts name = some b ∧
      a.Advances (s.step st).cache (s.handedOut name st) b
  concludes : ∀ name act outcome, st = .act act →
    s.answerTo name st = some (.finished outcome) →
      Concludes (s.step st).cache (s.wantedIn act) outcome
  restarts : ∀ name, s.Restarts name st → ∀ b, (s.step st).whereabouts name = some b →
    b.cursor = .start b.cursor.table ∧ b.kept = []

theorem iterators_enter_of_ne (s : Session) (txn : TransactionId) (result : Cache × Progress)
    (hne : iterator ≠ some name) :
    (s.enter txn iterator result).1.iterators.get? name = s.iterators.get? name := by
  obtain ⟨c, outcome | ⟨page, stage⟩⟩ := result
  · simp only [Session.enter, moveIterator]
    split
    · rename_i n _ _ _
      exact FinMap.get?_insert_of_ne _ _ fun heq => hne (congrArg some heq.symm)
    · rfl
  · rfl

/-- The call of an iterator is entered as far as it has come. -/
theorem advances_enter (hi : s.iterators.get? name = some i) (hwanted : first.wanted ≠ none)
    (hstrides : Cache.Strides i.txn first result) :
    ∃ b, (s.enter i.txn (some name) result).1.whereabouts name = some b ∧
      Whereabouts.Advances result.1 ⟨i.txn, first.cursor, first.items⟩
        (s.enter i.txn (some name) result).2.items b ∧
      ∀ outcome, (s.enter i.txn (some name) result).2 = .finished outcome →
        Concludes result.1 first.wanted outcome := by
  have hcalls := s.calls_enter i.txn (some name) result i.txn
  rw [if_pos rfl] at hcalls
  obtain ⟨c, outcome | ⟨page, stage⟩⟩ := result
  -- a call that is finished has put the cursor into the iterator, one that waits has it still
  · obtain ⟨⟨cursor, wanted, items⟩, more, ended, rfl, hsame, hitems, hyields, hend, hfull⟩ :=
      hstrides
    obtain rfl : wanted = first.wanted := hsame
    obtain ⟨n, hn⟩ := Option.ne_none_iff_exists'.1 hwanted
    rw [hn] at hfull hcalls ⊢
    refine ⟨⟨i.txn, cursor, []⟩, ?_, ⟨rfl, more, ?_, hyields⟩, ?_⟩
    · apply whereabouts_of_free (i := ⟨i.txn, cursor⟩)
      · exact FinMap.get?_insert_self _ _ _
      · intro call hcall
        rw [hcalls] at hcall
        cases hcall
    · exact (List.append_nil _).trans hitems
    · rintro outcome ⟨⟩
      refine ⟨cursor, items, ended, rfl, ?_⟩
      cases ended with
      | true => exact .inl ⟨rfl, hend rfl⟩
      | false => exact .inr ⟨rfl, n, rfl, by simpa [Draw.isFull] using hfull rfl⟩
  · obtain ⟨draw, records, hpauses, -, hitems, hhanded⟩ := hstrides
    have hcall : (s.enter i.txn (some name) (c, .waiting page stage)).1.calls.get? i.txn =
        some ⟨page, stage, some name⟩ := hcalls
    refine ⟨⟨i.txn, draw.cursor, draw.items⟩, ?_, ⟨rfl, records.map .ok, hitems, ?_⟩,
      fun _ heq => by cases heq⟩
    · exact whereabouts_of_waiting hi hcall rfl hpauses
    · refine .records hhanded fun hfailed => ?_
      rw [← hhanded.failed_eq, hpauses.intact] at hfailed
      cases hfailed

namespace Enters

variable {s₁ : Session} {wanted : Option Nat}

/-- The other iterators stand where they stood. -/
theorem whereabouts_eq (h : s.Enters txn iterator wanted s₁ result) (hne : iterator ≠ some name) :
    (s₁.enter txn iterator result).1.whereabouts name = s.whereabouts name := by
  have hcalls := s₁.calls_enter txn iterator result
  apply whereabouts_congr
  · rw [iterators_enter_of_ne s₁ txn result hne, h.iterators_eq]
  · intro i _
    by_cases hi : i.txn = txn
    · rw [hi, pausedAt_of_free, pausedAt_of_free]
      · intro call hcall
        rw [h.own call hcall]
        exact hne
      · intro call hcall
        rw [hcalls, if_pos rfl] at hcall
        obtain ⟨c, outcome | ⟨page, stage⟩⟩ := result
        · cases hcall
        · cases hcall
          exact hne
    · rw [pausedAt, pausedAt, hcalls, if_neg hi, h.others _ hi]

theorem attended (h : s.Enters txn iterator wanted s₁ result) (hattended : s.Attended) :
    (s₁.enter txn iterator result).1.Attended := by
  intro u call name hcall hname
  rw [calls_enter] at hcall
  rw [cache_enter]
  split at hcall
  · rename_i hu
    subst hu
    obtain ⟨c, outcome | ⟨page, stage⟩⟩ := result
    · cases hcall
    · cases hcall
      obtain ⟨i, first, hi, htxn, -, rfl, hwanted, draw, records, hpauses, hsame, -⟩ :=
        h.serves name hname
      rw [← h.iterators_eq] at hi
      exact ⟨i, draw, hi, htxn, hpauses, hsame ▸ hwanted⟩
  · rename_i hu
    rw [h.others u hu] at hcall
    obtain ⟨i, draw, hi, htxn, hpauses, hwanted⟩ := hattended u call name hcall hname
    refine ⟨i, draw, ?_, htxn, hpauses.of_grown h.grown, hwanted⟩
    rw [iterators_enter_of_ne, h.iterators_eq, hi]
    -- an iterator has one transaction, so this is the iterator of another one
    intro heq
    obtain ⟨j, -, hj, htxn', -⟩ := h.serves name heq
    rw [hi, Option.some.injEq] at hj
    exact hu (htxn.symm.trans (hj ▸ htxn'))

/-- The iterator of the call goes on from where it stood. -/
theorem advances (h : s.Enters txn (some name) wanted s₁ result) :
    ∃ a b, s.whereabouts name = some a ∧
      (s₁.enter txn (some name) result).1.whereabouts name = some b ∧
      a.Advances result.1 (s₁.enter txn (some name) result).2.items b ∧
      ∀ outcome, (s₁.enter txn (some name) result).2 = .finished outcome →
        Concludes result.1 wanted outcome := by
  obtain ⟨i, first, hi, rfl, hstands, rfl, hsome, hstrides⟩ := h.serves name rfl
  rw [← h.iterators_eq] at hi
  obtain ⟨b, hb, hadvances, hconcludes⟩ := advances_enter hi hsome hstrides
  exact ⟨_, b, hstands, hb, hadvances, hconcludes⟩

theorem attends {act : Action} (h : s.Enters txn iterator wanted s₁ result) (hattended : s.Attended)
    (hperform : s.perform act =
      ((s₁.enter txn iterator result).1, .answered (s₁.enter txn iterator result).2))
    (hiterator : s.iteratorOf act = iterator)
    (hwanted : ∀ name, iterator = some name → s.wantedIn act = wanted)
    (hno : ∀ name, ¬ s.Restarts name (.act act)) : s.Attends (.act act) := by
  have hstep : s.step (.act act) = (s₁.enter txn iterator result).1 := congrArg Prod.fst hperform
  have hanswer : ∀ name, s.answerTo name (.act act) =
      if iterator = some name then some (s₁.enter txn iterator result).2 else none := by
    intro name
    rw [answerTo, hperform, hiterator]
  constructor
  · rw [hstep]
    exact h.attended hattended
  · intro name _ hnone
    rw [hstep]
    by_cases hname : iterator = some name
    · subst hname
      obtain ⟨a, -, ha, -⟩ := h.advances
      rw [hnone] at ha
      cases ha
    · rw [h.whereabouts_eq hname, hnone]
  · intro name a _ ha
    rw [handedOut, hanswer, hstep, cache_enter]
    by_cases hname : iterator = some name
    · subst hname
      obtain ⟨a', b, ha', hb, hadvances, -⟩ := h.advances
      rw [ha, Option.some.injEq] at ha'
      subst ha'
      rw [if_pos rfl]
      exact ⟨b, hb, hadvances⟩
    · rw [if_neg hname, h.whereabouts_eq hname]
      exact ⟨a, ha, .refl _ a⟩
  · rintro name _ outcome ⟨⟩ heq
    rw [hanswer] at heq
    by_cases hname : iterator = some name
    · subst hname
      obtain ⟨a, b, -, -, -, hconcludes⟩ := h.advances
      rw [hstep, cache_enter, hwanted name rfl]
      rw [if_pos rfl, Option.some.injEq] at heq
      exact hconcludes outcome heq
    · rw [if_neg hname] at heq
      cases heq
  · intro name hrestarts
    exact absurd hrestarts (hno name)

end Enters

/-- A step that leaves the calls and the iterators alone. -/
theorem Attended.attends_of_same (h : s.Attended) (hiterators : (s.step st).iterators = s.iterators)
    (hcalls : (s.step st).calls = s.calls)
    (hgrown : ∀ id, s.cache.pageCount id ≤ (s.step st).cache.pageCount id)
    (hanswer : ∀ name answer, s.answerTo name st = some answer → ∀ o, answer ≠ .finished o)
    (hno : ∀ name, s.Restarts name st → s.whereabouts name = none) : s.Attends st where
  attended := h.of_same hiterators hcalls hgrown
  nowhere name _ hnone := by rw [whereabouts_of_same hiterators hcalls, hnone]
  advances name a _ ha := by
    refine ⟨a, by rw [whereabouts_of_same hiterators hcalls, ha], ?_⟩
    have hout : s.handedOut name st = [] := by
      unfold handedOut
      split
      · rename_i answer heq
        have hnot := hanswer name answer heq
        unfold Answer.items
        split
        · exact absurd rfl (hnot _)
        · rfl
      · rfl
    rw [hout]
    exact .refl _ a
  concludes name _ outcome _ heq := absurd rfl (hanswer name _ heq outcome)
  restarts name hrestarts b hb := by
    rw [whereabouts_of_same hiterators hcalls, hno name hrestarts] at hb
    cases hb

/-- A call that was not taken up, or that goes on waiting for the same page. -/
theorem Attended.attends_unfinished {act : Action} {answer : Answer} (h : s.Attended)
    (hperform : s.perform act = (s', .answered answer)) (hnot : ∀ o, answer ≠ .finished o)
    (hiterators : s'.iterators = s.iterators) (hcalls : s'.calls = s.calls)
    (hgrown : ∀ id, s.cache.pageCount id ≤ s'.cache.pageCount id)
    (hno : ∀ name, ¬ s.Restarts name (.act act)) : s.Attends (.act act) := by
  have hstep : s.step (.act act) = s' := congrArg Prod.fst hperform
  apply h.attends_of_same
  · rw [hstep, hiterators]
  · rw [hstep, hcalls]
  · rw [hstep]
    exact hgrown
  · intro name other heq
    rw [answerTo, hperform] at heq
    simp only at heq
    split at heq
    · cases heq
      exact hnot
    · cases heq
  · exact fun name hrestarts => absurd hrestarts (hno name)

/-! ## Calls -/

theorem Resumes.strides {page : Except StoreError HeapPage} (h : s.Resumes txn call c page)
    (hwaits : Cache.Strides txn first (s.cache, .waiting call.page call.stage)) :
    Cache.Strides txn first (c.proceed txn call.page call.stage page) := by
  obtain ⟨draw, records, hpauses, hwanted, hitems, hhanded⟩ := hwaits
  exact h.ready.strides_proceed (hpauses.of_grown h.spares.grown) hwanted hitems
    (hhanded.of_spares h.spares) page h.page h.denies

/-- The waiting call of an iterator goes on from where the iterator stands. -/
theorem Resumes.enters {page : Except StoreError HeapPage} (h : s.Resumes txn call c page)
    (hattended : s.Attended) (hcall : s.calls.get? txn = some call)
    (hgrown : ∀ id, s.cache.pageCount id ≤
      (c.proceed txn call.page call.stage page).1.pageCount id) :
    s.Enters txn call.iterator (s.wantedIn (.resume txn)) s
      (c.proceed txn call.page call.stage page) where
  iterators_eq := rfl
  others _ _ := rfl
  own other hother := by
    rw [hcall, Option.some.injEq] at hother
    rw [hother]
  grown := hgrown
  serves name hname := by
    obtain ⟨i, draw, hi, rfl, hpauses, hwanted⟩ := hattended txn call name hcall hname
    have hwaits : Cache.Strides i.txn draw (s.cache, .waiting call.page call.stage) :=
      ⟨draw, [], hpauses, rfl, by simp, .refl _ _ _⟩
    have hsame : draw.wanted = s.wantedIn (.resume i.txn) := by
      obtain ⟨page, stage, iterator⟩ := call
      obtain ⟨rfl, -, -, -, -⟩ := hpauses
      rw [wantedIn, hcall]
      rfl
    exact ⟨i, draw, hi, rfl, whereabouts_of_waiting hi hcall hname hpauses, hsame, hsame ▸ hwanted,
      h.strides hwaits⟩

theorem Coherent.attends_resume (h : s.Coherent) (hattended : s.Attended)
    (hroom : s.cache.HasRoom) : s.Attends (.act (.resume txn)) := by
  rcases hcall : s.calls.get? txn with _ | call
  · have hperform : s.perform (.resume txn) = (s, .answered .waiting) := by
      rw [Session.perform, Session.resume, hcall]
    exact hattended.attends_unfinished hperform (fun _ heq => by cases heq) rfl rfl
      (fun _ => UInt32.le_refl _) fun _ => id
  · have hgrown := (h.resume (fun _ => hroom) hcall).2.did.toGrows.pageCount_le
    rcases h.resume_cases hcall with ⟨c, page, hresumes, he⟩ | ⟨locks, hspares, he⟩
    · rw [he, cache_enter] at hgrown
      refine (hresumes.enters hattended hcall hgrown).attends hattended ?_ ?_ (fun _ _ => rfl)
        fun _ => id
      · rw [Session.perform, he]
      · rw [iteratorOf, hcall, Option.bind_some]
    · have hperform : s.perform (.resume txn) =
          ({ s with cache := { s.cache with locks } }, .answered .waiting) := by
        rw [Session.perform, he]
      exact hattended.attends_unfinished hperform (fun _ heq => by cases heq) rfl rfl hspares.grown
        fun _ => id

theorem Coherent.attends_expire (h : s.Coherent) (hattended : s.Attended)
    (hroom : s.cache.HasRoom) : s.Attends (.act (.expire txn)) := by
  rcases hcall : s.calls.get? txn with _ | call
  · have hperform : s.perform (.expire txn) = (s, .answered .waiting) := by
      rw [Session.perform, Session.expire, hcall]
    exact hattended.attends_unfinished hperform (fun _ heq => by cases heq) rfl rfl
      (fun _ => UInt32.le_refl _) fun _ => id
  · have hgrown := (h.expire (fun _ => hroom) hcall).2.did.toGrows.pageCount_le
    obtain ⟨c, page, hresumes, he⟩ := h.expire_cases hcall
    rw [he, cache_enter] at hgrown
    refine (hresumes.enters hattended hcall hgrown).attends hattended ?_ ?_ (fun _ _ => rfl)
      fun _ => id
    · rw [Session.perform, he]
    · rw [iteratorOf, hcall, Option.bind_some]

/-- A call that is started for an iterator starts from where the iterator stands. -/
theorem Continues.serves {op : Operation} (hc : s.Continues (.act (.submit txn iterator op)))
    (h : s.Coherent) (hfree : s.calls.get? txn = none) (hname : iterator = some name) :
    ∃ i first, s.iterators.get? name = some i ∧ i.txn = txn ∧
      s.whereabouts name = some ⟨txn, first.cursor, first.items⟩ ∧
      first.wanted = s.wantedIn (.submit txn iterator op) ∧
      s.wantedIn (.submit txn iterator op) ≠ none ∧
      Cache.Strides txn first (s.cache.start txn op) := by
  subst hname
  cases op with
  | draw cursor count =>
    have hi : s.iterators.get? name = some ⟨txn, cursor⟩ := hc
    refine ⟨⟨txn, cursor⟩, ⟨cursor, some count, []⟩, hi, rfl, ?_, rfl, (fun heq => by cases heq), ?_⟩
    · apply whereabouts_of_free hi
      intro call hcall
      rw [hfree] at hcall
      cases hcall
    · exact (h.ready hfree).strides_walkOn _
  | fetch page access purpose => exact hc.elim
  | insert job => exact hc.elim
  | delete location => exact hc.elim
  | deleteFrom table location => exact hc.elim
  | scan table => exact hc.elim

theorem Continues.enters {op : Operation} (hc : s.Continues (.act (.submit txn iterator op)))
    (h : s.Coherent) (hfree : s.calls.get? txn = none)
    (hgrown : ∀ id, s.cache.pageCount id ≤ (s.cache.start txn op).1.pageCount id) :
    s.Enters txn iterator (s.wantedIn (.submit txn iterator op)) s (s.cache.start txn op) where
  iterators_eq := rfl
  others _ _ := rfl
  own call hcall := by
    rw [hfree] at hcall
    cases hcall
  grown := hgrown
  serves name hname := hc.serves h hfree hname

/-- Its wait may be over as soon as it has begun. -/
theorem Continues.enters_late {op : Operation} {page : PageId} {stage : Stage} {d : Cache}
    {got : Except StoreError HeapPage} (hc : s.Continues (.act (.submit txn iterator op)))
    (h : s.Coherent) (hfree : s.calls.get? txn = none)
    (hstart : s.cache.start txn op = (c, .waiting page stage))
    (hresumes : (s.enter txn iterator (c, .waiting page stage)).1.Resumes txn
      ⟨page, stage, iterator⟩ d got)
    (hgrown : ∀ id, s.cache.pageCount id ≤ (d.proceed txn page stage got).1.pageCount id) :
    s.Enters txn iterator (s.wantedIn (.submit txn iterator op))
      (s.enter txn iterator (c, .waiting page stage)).1 (d.proceed txn page stage got) where
  iterators_eq := rfl
  others _ hu := FinMap.get?_insert_of_ne _ _ hu
  own call hcall := by
    rw [hfree] at hcall
    cases hcall
  grown := hgrown
  serves name hname := by
    obtain ⟨i, first, hi, htxn, hstands, hwanted, hsome, hstrides⟩ := hc.serves h hfree hname
    rw [hstart] at hstrides
    exact ⟨i, first, hi, htxn, hstands, hwanted, hsome, hresumes.strides hstrides⟩

theorem Coherent.attends_submit (h : s.Coherent) (hattended : s.Attended)
    (hroom : s.cache.HasRoom) {op : Operation} (hplain : op.IsPlain)
    (hc : s.Continues (.act (.submit txn iterator op))) :
    s.Attends (.act (.submit txn iterator op)) := by
  obtain ⟨-, heffect⟩ := @Coherent.submit s txn h hroom iterator op hplain
  rcases s.submit_cases txn iterator op with ⟨-, he⟩ | ⟨hfree, s₁, answer, henter, hcase⟩
  · have hperform : s.perform (.submit txn iterator op) = (s, .answered .busy) := by
      rw [Session.perform, he]
    exact hattended.attends_unfinished hperform (fun _ heq => by cases heq) rfl rfl
      (fun _ => UInt32.le_refl _) fun _ => id
  · have hgrown : ∀ id, s.cache.pageCount id ≤ (s.submit txn iterator op).1.cache.pageCount id := by
      rcases heffect with ⟨-, hsame⟩ | ⟨-, hstep⟩
      · rw [hsame]
        exact fun _ => UInt32.le_refl _
      · exact hstep.did.toGrows.pageCount_le
    rcases hcase with he | ⟨rfl, he⟩
    · rw [← henter] at he
      rw [he, cache_enter] at hgrown
      refine (hc.enters h hfree hgrown).attends hattended ?_ rfl (fun _ _ => rfl) fun _ => id
      rw [Session.perform, he]
    · -- the session has a limit for waits: the call waits in `s₁`, and its time is over there
      obtain ⟨hcoh, -⟩ := h.enter iterator ((h.ready hfree).proceeds_start hroom hplain)
      rcases hstart : s.cache.start txn op with ⟨c, outcome | ⟨page, stage⟩⟩
      · rw [hstart] at henter
        cases henter
      · rw [hstart] at henter hcoh
        obtain rfl : (s.enter txn iterator (c, .waiting page stage)).1 = s₁ :=
          congrArg Prod.fst henter
        have hcall : (s.enter txn iterator (c, .waiting page stage)).1.calls.get? txn =
            some ⟨page, stage, iterator⟩ := FinMap.get?_insert_self _ _ _
        obtain ⟨d, got, hresumes, hexpire⟩ := hcoh.expire_cases hcall
        rw [hexpire] at he
        rw [he, cache_enter] at hgrown
        have henters := hc.enters_late h hfree hstart hresumes hgrown
        refine henters.attends hattended ?_ rfl (fun _ _ => rfl) fun _ => id
        rw [Session.perform, he]

/-! ## All steps -/

/-- Nobody waits for an iterator that has no unfinished call. -/
theorem ne_of_not_busy (hfree : s.isIteratorBusy name = false)
    (hcall : s.calls.get? txn = some call) : call.iterator ≠ some name := by
  intro heq
  have hmem := (FinMap.mem_values_iff _ _).2 ⟨txn, hcall⟩
  rw [isIteratorBusy, List.any_eq_false] at hfree
  exact hfree call hmem (decide_eq_true heq)

/-- An iterator without an unfinished call is put before the first record of a table. -/
theorem Attended.attends_put {n : String} {table : TableId} (h : s.Attended)
    (hfree : s.isIteratorBusy n = false)
    (hstep : s.step st = { s with iterators := s.iterators.insert n ⟨txn, .start table⟩ })
    (hanswer : ∀ name, s.answerTo name st = none) (hrestarts : ∀ name, s.Restarts name st ↔ n = name) :
    s.Attends st := by
  have hother : ∀ name, name ≠ n →
      (s.step st).iterators.get? name = s.iterators.get? name ∧
        (s.step st).whereabouts name = s.whereabouts name := by
    intro name hne
    rw [hstep]
    have hi : (s.iterators.insert n ⟨txn, .start table⟩).get? name = s.iterators.get? name :=
      FinMap.get?_insert_of_ne _ _ hne
    exact ⟨hi, whereabouts_congr hi fun _ _ => rfl⟩
  have hout : ∀ name, s.handedOut name st = [] := by
    intro name
    rw [handedOut, hanswer]
  constructor
  · intro u call name hcall hname
    rw [hstep] at hcall
    obtain ⟨i, draw, hi, htxn, hpauses, hwanted⟩ := h u call name hcall hname
    have hne : name ≠ n := by
      rintro rfl
      exact ne_of_not_busy hfree hcall hname
    refine ⟨i, draw, by rw [(hother name hne).1, hi], htxn, ?_, hwanted⟩
    rw [hstep]
    exact hpauses
  · intro name hno hnone
    rw [(hother name fun heq => hno ((hrestarts name).2 heq.symm)).2, hnone]
  · intro name a hno ha
    refine ⟨a, by rw [(hother name fun heq => hno ((hrestarts name).2 heq.symm)).2, ha], ?_⟩
    rw [hout]
    exact .refl _ a
  · intro name _ outcome _ heq
    rw [hanswer] at heq
    cases heq
  · intro name hname b hb
    obtain rfl := (hrestarts name).1 hname
    have hstart : (s.step st).whereabouts n = some ⟨txn, .start table, []⟩ := by
      rw [hstep]
      apply whereabouts_of_free (i := ⟨txn, .start table⟩)
      · exact FinMap.get?_insert_self _ _ _
      · exact fun call => ne_of_not_busy hfree
    rw [hstart, Option.some.injEq] at hb
    subst hb
    exact ⟨rfl, rfl⟩

/-- A step after which the session is as before, and which hands out nothing. -/
theorem Attended.attends_nothing (h : s.Attended) (hstep : s.step st = s)
    (hanswer : ∀ name, s.answerTo name st = none)
    (hno : ∀ name, s.Restarts name st → s.whereabouts name = none) : s.Attends st := by
  apply h.attends_of_same
  · rw [hstep]
  · rw [hstep]
  · rw [hstep]
    exact fun _ => UInt32.le_refl _
  · intro name answer heq
    rw [hanswer] at heq
    cases heq
  · exact hno

theorem Attended.attends_open (h : s.Attended) (txn : TransactionId) (n : String)
    (table : TableId) : s.Attends (.act (.openIterator txn n table)) := by
  have hanswer : ∀ name, s.answerTo name (.act (.openIterator txn n table)) = none := fun _ => rfl
  have hsame : ∀ answer, s.openIterator txn n table = (s, answer) → answer ≠ .finished (.ok .done) →
      s.Attends (.act (.openIterator txn n table)) := by
    intro answer he hnot
    refine h.attends_nothing (congrArg Prod.fst he) hanswer fun name hrestarts => ?_
    exact absurd ((congrArg Prod.snd he).symm.trans hrestarts.2) hnot
  by_cases hbusy : s.isIteratorBusy n = true
  · exact hsame .busy (by rw [openIterator, if_pos hbusy]) fun heq => by cases heq
  · rcases htable : s.cache.table table with e | f
    · exact hsame (.finished (.error e)) (by rw [openIterator, if_neg hbusy, htable])
        fun heq => by cases heq
    · have he : s.openIterator txn n table = ({ s with
          iterators := s.iterators.insert n ⟨txn, .start table⟩ }, .finished (.ok .done)) := by
        rw [openIterator, if_neg hbusy, htable]
      refine h.attends_put (by simpa using hbusy) (congrArg Prod.fst he) hanswer fun name => ?_
      exact and_iff_left (congrArg Prod.snd he)

theorem Attended.attends_rewind (h : s.Attended) (n : String) :
    s.Attends (.act (.rewindIterator n)) := by
  have hanswer : ∀ name, s.answerTo name (.act (.rewindIterator n)) = none := fun _ => rfl
  by_cases hbusy : s.isIteratorBusy n = true
  · have he : s.rewindIterator n = (s, .busy) := by rw [rewindIterator, if_pos hbusy]
    refine h.attends_nothing (congrArg Prod.fst he) hanswer fun name hrestarts => ?_
    cases (congrArg Prod.snd he).symm.trans hrestarts.2
  · rcases hi : s.iterators.get? n with _ | i
    · have he : s.rewindIterator n = (s, .finished (.ok .done)) := by
        rw [rewindIterator, if_neg hbusy, hi]
      refine h.attends_nothing (congrArg Prod.fst he) hanswer fun name hrestarts => ?_
      rw [← hrestarts.1, whereabouts, hi]
      rfl
    · have he : s.rewindIterator n = ({ s with
          iterators := s.iterators.insert n ⟨i.txn, .start i.cursor.table⟩ },
          .finished (.ok .done)) := by
        rw [rewindIterator, if_neg hbusy, hi]
      refine h.attends_put (by simpa using hbusy) (congrArg Prod.fst he) hanswer fun name => ?_
      exact and_iff_left (congrArg Prod.snd he)

theorem answerTo_of_none {act : Action} (h : s.iteratorOf act = none) :
    s.answerTo name (.act act) = none := by
  rw [answerTo, h]
  split <;> rfl

theorem Coherent.attends (h : s.Coherent) (hattended : s.Attended) (hst : s.Allows st)
    (hc : s.Continues st) : s.Attends st := by
  have hgrown := h.pageCount_le_step hst
  cases st with
  | act act =>
    have hroom := hasRoom_of_values hst.1
    cases act with
    | submit txn iterator op => exact h.attends_submit hattended hroom hst.2 hc
    | resume txn => exact h.attends_resume hattended hroom
    | expire txn => exact h.attends_expire hattended hroom
    | openIterator txn n table => exact hattended.attends_open txn n table
    | rewindIterator n => exact hattended.attends_rewind n
    | addTable file =>
      have hsame : (s.perform (.addTable file)).1.iterators = s.iterators ∧
          (s.perform (.addTable file)).1.calls = s.calls := by
        simp only [Session.perform]
        split <;> exact ⟨rfl, rfl⟩
      refine hattended.attends_of_same hsame.1 hsame.2 hgrown (fun name answer heq => ?_)
        fun _ h => h.elim
      rw [answerTo_of_none rfl] at heq
      cases heq
    | evict =>
      have hsame : (s.perform .evict).1.iterators = s.iterators ∧
          (s.perform .evict).1.calls = s.calls := by
        simp only [Session.perform]
        split <;> exact ⟨rfl, rfl⟩
      refine hattended.attends_of_same hsame.1 hsame.2 hgrown (fun name answer heq => ?_)
        fun _ h => h.elim
      rw [answerTo_of_none rfl] at heq
      cases heq
    | allocate table | commit txn | abort txn | unpin page =>
      exact hattended.attends_of_same rfl rfl hgrown (fun _ _ heq => by cases heq) fun _ h => h.elim
  | overwrite file => exact hst.elim
  | flush page | flushAll | discard page | release txn page =>
    exact hattended.attends_of_same rfl rfl hgrown (fun _ _ heq => by cases heq) fun _ h => h.elim

end Session

end PageCache
