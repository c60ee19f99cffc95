-- How a waiting call goes on: with its page, which its transaction now holds, or with the failure of
-- the page. Nothing is taken from the transaction by that, whatever the others have done meanwhile.
import PageCache.Proofs.Cache.Walks
import PageCache.Proofs.Session.Linked

namespace PageCache

namespace Session

variable {s : Session} {txn : TransactionId} {call : WaitingCall} {locks : Locking}

/-- A waiting call goes on with what has come of its page. -/
structure Resumes (s : Session) (txn : TransactionId) (call : WaitingCall) (c : Cache)
    (result : Except StoreError HeapPage) : Prop where
  ready : c.Ready txn
  files : s.cache.SameFiles c
  spares : s.cache.Spares txn c
  page : ∀ p, result = .ok p → c.view call.page = some p ∧ c.holds txn call.page = true
  denies : ∀ e, result = .error e → Cache.Denies txn call.page c e

/-- The locks of a transaction have changed, and it has lost none. -/
theorem spares_locks (s : Session)
    (hkept : ∀ page, s.cache.holds txn page = true → locks.table.holds txn page = true) :
    s.cache.Spares txn { s.cache with locks } :=
  Cache.Quiet.spares (.of_same rfl fun _ => rfl) hkept

/-- The page of a granted lock is brought in. -/
theorem Coherent.resumes_granted (h : s.Coherent) (hturn : s.cache.locks.Turn txn locks)
    (hidle : locks.pending.get? txn = none) {r : PendingLock} (hpage : r.page = call.page)
    (hgrants : s.cache.locks.Grants txn r.page r.access locks) :
    s.Resumes txn call (Cache.bring { s.cache with locks } call.page).1
      (Cache.bring { s.cache with locks } call.page).2 := by
  obtain ⟨hcalm, hfiles, hready, hlocks, hres⟩ := h.brought hturn hidle call.page
  have hgets : s.cache.locks.Gets txn r.page r.access locks := .inl hgrants
  refine ⟨hready, hfiles, hcalm.quiet.spares fun page hholds => ?_, fun p hp => ⟨?_, ?_⟩, fun e he =>
    .bring (Prod.ext rfl he)⟩
  · rw [Cache.holds, hlocks]
    exact hgets.kept hholds
  · exact Cache.view_of_resident (hres p hp)
  · rw [Cache.holds, hlocks, LockTable.holds_iff, ← hpage, hgrants.own]
    simp

/-- A waiting call that is looked at again goes on, or goes on waiting. -/
theorem Coherent.resume_cases (h : s.Coherent) (hcall : s.calls.get? txn = some call) :
    (∃ c result, s.Resumes txn call c result ∧
        s.resume txn = s.enter txn call.iterator (c.proceed txn call.page call.stage result)) ∨
      ∃ locks, s.cache.Spares txn { s.cache with locks } ∧
        s.resume txn = ({ s with cache := { s.cache with locks } }, .waiting) := by
  obtain ⟨r, hr, hpage, -⟩ := h.exists_pending hcall
  obtain ⟨hturn, hafter⟩ := h.orderly.turn_recheck txn
  have hmodes := h.orderly.holdings_recheck hr
  unfold Session.resume
  rw [hcall]
  rcases hre : s.cache.locks.recheck txn with ⟨locks, _ | q⟩ <;> rw [hre] at hturn hafter hmodes
  · obtain ⟨-, hsame⟩ := hmodes.resolve_left fun hgot => by cases hgot.1
    refine .inr ⟨locks, s.spares_locks fun page hholds => ?_, rfl⟩
    rw [LockTable.holds, hsame]
    exact hholds
  · obtain ⟨-, hgrants⟩ := hmodes.resolve_right fun hnot => by cases hnot.1
    exact .inl ⟨_, _, h.resumes_granted hturn hafter.2.1 hpage hgrants, rfl⟩

/-- A waiting call whose time is over goes on, with the page if it can be locked after all. -/
theorem Coherent.expire_cases (h : s.Coherent) (hcall : s.calls.get? txn = some call) :
    ∃ c result, s.Resumes txn call c result ∧
      s.expire txn = s.enter txn call.iterator (c.proceed txn call.page call.stage result) := by
  obtain ⟨r, hr, hpage, -⟩ := h.exists_pending hcall
  obtain ⟨hturn, hidle, -⟩ := h.orderly.turn_expire hr
  have hmodes := h.orderly.holdings_expire hr
  unfold Session.expire
  rw [hcall]
  rcases hex : s.cache.locks.expire txn with ⟨locks, result⟩
  rw [hex] at hturn hidle hmodes
  rcases hmodes with ⟨-, rfl, hgrants⟩ | ⟨rfl, hsame⟩
  · exact ⟨_, _, h.resumes_granted hturn hidle hpage hgrants, rfl⟩
  · have hcalm : s.cache.Calm txn { s.cache with locks } := ⟨.of_same rfl fun _ => rfl, hturn, rfl⟩
    refine ⟨_, .error (.waitTimeout txn call.page), ⟨hcalm.ready h.sound hidle, .of_eq rfl,
      s.spares_locks fun page hholds => ?_, (fun _ heq => by cases heq), ?_⟩, rfl⟩
    · rw [LockTable.holds, hsame]
      exact hholds
    · rintro e ⟨⟩
      exact .timeout _

end Session

end PageCache
