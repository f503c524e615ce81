import Anodizer.Retry.Http

/-! # What a status decides

A response that did not succeed is to be retried by its status alone. Its message is read as well,
and the class of a response by itself follows another rule.
-/

namespace Anodizer.Retry

open Template (Text)

/-- The attempts and the deadline allow another attempt after a response. -/
def Call.Permits (c : Call) (attempt : ℕ) (r : Response) : Prop :=
  attempt < max c.policy.maxAttempts 1 ∧
    deadlineExhausted c.clock c.deadline attempt
      ((rateLimitRetryAfter (c.clock.unix attempt) r.status r.header).getD
        (c.policy.delayFor (attempt + 1))) = false

section Split

variable {β : Type*} (successClass : SuccessClass)

/-- In every run, a response that did not succeed is followed by another attempt when its status is
retried and one is allowed. -/
def RetriesByStatus (run : Call → Attempts.Run Unit ℕ β Err) (r : Response) : Prop :=
  ∀ (c : Call) (attempt : ℕ), attempt ∈ (run c).log → c.send attempt = .ok r →
    successClass.succeeded r.status = false →
    (attempt + 1 ∈ (run c).log ↔ statusIsRetriable r.status ∧ c.Permits attempt r)

variable {successClass} {toLowercase : Text → Text} {errorMsg : ℕ → Text → Text}
  {value : Response → β} {errorText : Response → Text} {r : Response} {c : Call} {attempt : ℕ}

/-- A response that did not succeed is followed by another attempt when its error is retried and
one is allowed. -/
theorem succ_mem_log
    (hmem : attempt ∈ (retryHttp toLowercase successClass errorMsg value errorText c).log)
    (hsend : c.send attempt = .ok r) (hfail : successClass.succeeded r.status = false) :
    attempt + 1 ∈ (retryHttp toLowercase successClass errorMsg value errorText c).log ↔
      (statusIsRetriable r.status ∨ isNetworkText toLowercase (errorMsg r.status (errorText r))) ∧
        c.Permits attempt r := by
  have hlast : 1 + (max c.policy.maxAttempts 1 - 1) = max c.policy.maxAttempts 1 := by omega
  rw [retryHttp, retrySteps] at hmem ⊢
  refine (Attempts.succ_mem_log_numbered hmem).trans ?_
  rw [hlast, Call.Permits, hsend, classifyAnswer, hfail, if_neg Bool.false_ne_true, classified,
    isRetriable_statusError, ← Bool.or_eq_true]
  cases statusIsRetriable r.status || isNetworkText toLowercase (errorMsg r.status (errorText r)) with
  | false =>
    rw [if_neg Bool.false_ne_true]
    exact iff_of_false (fun ⟨⟨_, h⟩, _⟩ => nomatch h) fun h => Bool.false_ne_true h.1
  | true =>
    rw [if_pos rfl, controlflowToStep, httpRetryAfter_statusError, RetryStep.decision]
    constructor
    · rintro ⟨⟨_, h⟩, hlt⟩
      obtain ⟨-, h⟩ := Attempts.Step.retry.inj h
      exact ⟨rfl, hlt, h⟩
    · rintro ⟨-, hlt, h⟩
      exact ⟨⟨_, by rw [h]⟩, hlt⟩

/-- Two attempts, each with the same answer. -/
def twice (r : Response) : Call where
  desc := []
  policy := ⟨2, 0, 0⟩
  deadline := none
  clock := ⟨fun _ => 0, fun _ => 0, 0⟩
  send _ := .ok r

theorem one_mem_log {run : ℕ → Attempts.Step β Err} {left : ℕ} :
    1 ∈ (Attempts.run (Attempts.numbered run) left 1 ()).log :=
  Attempts.mem_log_numbered.mpr ⟨le_refl 1, Nat.le_add_right 1 left, by omega⟩

theorem retriesByStatus_iff : RetriesByStatus successClass
      (retryHttp toLowercase successClass errorMsg value errorText) r ↔
    successClass.succeeded r.status ∨ statusIsRetriable r.status ∨
      isNetworkText toLowercase (errorMsg r.status (errorText r)) = false := by
  constructor
  · intro h
    by_cases hfail : successClass.succeeded r.status = false
    · have hone : 1 ∈ (retryHttp toLowercase successClass errorMsg value errorText (twice r)).log :=
        one_mem_log
      have hpermits : (twice r).Permits 1 r := ⟨Nat.one_lt_two, rfl⟩
      have hiff := (succ_mem_log hone rfl hfail).symm.trans (h (twice r) 1 hone rfl hfail)
      simp only [hpermits, and_true] at hiff
      by_cases hstatus : statusIsRetriable r.status
      · exact .inr (.inl hstatus)
      · exact .inr (.inr (Bool.eq_false_of_not_eq_true fun ht => hstatus (hiff.mp (.inr ht))))
    · exact .inl (Bool.eq_true_of_not_eq_false hfail)
  · intro h c attempt hmem hsend hfail
    rw [succ_mem_log hmem hsend hfail]
    rcases h with h | h | h
    · rw [hfail] at h
      cases h
    · simp only [h, true_or]
    · simp only [h, Bool.false_eq_true, or_false]

end Split

variable {toLowercase : Text → Text} {fromUtf8Lossy : List UInt8 → Text}
  {canonicalReason : ℕ → Option Text} {successClass : SuccessClass} {errorMsg : ℕ → Text → Text}
  {r : Response}

/-- The class of a response by itself is that of its status. -/
structure ClassFollows (canonicalReason : ℕ → Option Text) (r : Response) : Prop where
  retried : (∃ e, classifyHttpSync canonicalReason (.ok r) = .error (.continues e)) ↔
    statusIsRetriable r.status
  fails : (∃ e, classifyHttpSync canonicalReason (.ok r) = .error (.breaks e)) ↔
    statusIsRetriable r.status = false ∧ isSuccess r.status = false ∧ isRedirection r.status = false

theorem classFollows_iff :
    ClassFollows canonicalReason r ↔ r.status ≠ 429 ∧ r.status < 600 := by
  have hstatus : statusIsRetriable r.status = true ↔ 500 ≤ r.status ∨ r.status = 429 := by
    simp [statusIsRetriable]
  by_cases hok : isSuccess r.status || isRedirection r.status
  · have hclass : classifyHttpSync canonicalReason (.ok r) = .ok r := if_pos hok
    have hrange : 200 ≤ r.status ∧ r.status < 400 := by
      simp only [isSuccess, isRedirection, Bool.or_eq_true, Bool.and_eq_true, decide_eq_true_eq] at hok
      omega
    refine iff_of_true ⟨?_, ?_⟩ (by omega)
    · rw [hclass]
      exact iff_of_false (fun ⟨_, h⟩ => nomatch h) (by rw [hstatus]; omega)
    · rw [hclass]
      refine iff_of_false (fun ⟨_, h⟩ => nomatch h) fun ⟨_, h, h'⟩ => ?_
      rw [h, h'] at hok
      cases hok
  · obtain ⟨hsuccess, hredirect⟩ := Bool.or_eq_false_iff.mp (Bool.eq_false_of_not_eq_true hok)
    by_cases hserver : isServerError r.status
    · obtain ⟨e, hclass⟩ : ∃ e, classifyHttpSync canonicalReason (.ok r) = .error (.continues e) := by
        rw [classifyHttpSync, if_neg hok, if_pos hserver]
        exact ⟨_, rfl⟩
      have hrange : 500 ≤ r.status ∧ r.status < 600 := by
        simpa [isServerError] using hserver
      have hretried : statusIsRetriable r.status = true := hstatus.mpr (.inl hrange.1)
      refine iff_of_true ⟨?_, ?_⟩ (by omega)
      · exact iff_of_true ⟨e, hclass⟩ hretried
      · rw [hclass, hretried]
        exact iff_of_false (fun ⟨_, h⟩ => nomatch h) fun h => nomatch h.1
    · obtain ⟨e, hclass⟩ : ∃ e, classifyHttpSync canonicalReason (.ok r) = .error (.breaks e) := by
        rw [classifyHttpSync, if_neg hok, if_neg hserver]
        exact ⟨_, rfl⟩
      have hrange : ¬ (500 ≤ r.status ∧ r.status < 600) := by
        simpa [isServerError] using hserver
      constructor
      · rintro ⟨-, hfails⟩
        have hnot := (hfails.mp ⟨e, hclass⟩).1
        rw [Bool.eq_false_iff, ne_eq, hstatus] at hnot
        omega
      · rintro ⟨h429, hlt⟩
        have hnot : statusIsRetriable r.status = false := by
          rw [Bool.eq_false_iff, ne_eq, hstatus]
          omega
        constructor
        · rw [hclass, hnot]
          exact iff_of_false (fun ⟨_, h⟩ => nomatch h) Bool.false_ne_true
        · exact iff_of_true ⟨e, hclass⟩ ⟨hnot, hsuccess, hredirect⟩

/-- A response is retried by its status, whatever the server wrote. -/
structure FollowsStatus (toLowercase : Text → Text) (fromUtf8Lossy : List UInt8 → Text)
    (canonicalReason : ℕ → Option Text) (successClass : SuccessClass) (errorMsg : ℕ → Text → Text)
    (r : Response) : Prop where
  blocking : RetriesByStatus successClass (retryHttpBlocking toLowercase successClass errorMsg) r
  bytes : RetriesByStatus successClass
    (retryHttpBlockingBytes toLowercase successClass errorMsg fromUtf8Lossy) r
  async : RetriesByStatus successClass (retryHttpAsync toLowercase successClass errorMsg) r
  sync : ClassFollows canonicalReason r

/-- It is exactly when no message reads like a failure of the network where the status is not
retried, and the status is neither 429 nor beyond the server errors. -/
theorem followsStatus_iff :
    FollowsStatus toLowercase fromUtf8Lossy canonicalReason successClass errorMsg r ↔
      (successClass.succeeded r.status ∨ statusIsRetriable r.status ∨
        isNetworkText toLowercase (errorMsg r.status r.bodyText) = false ∧
          isNetworkText toLowercase (errorMsg r.status (fromUtf8Lossy r.bodyBytes)) = false) ∧
      r.status ≠ 429 ∧ r.status < 600 := by
  constructor
  · intro h
    refine ⟨?_, classFollows_iff.mp h.sync⟩
    have htext := retriesByStatus_iff.mp h.blocking
    have hbytes := retriesByStatus_iff.mp h.bytes
    tauto
  · rintro ⟨htext, hclass⟩
    have hblocking : successClass.succeeded r.status ∨ statusIsRetriable r.status ∨
        isNetworkText toLowercase (errorMsg r.status r.bodyText) = false := by tauto
    refine ⟨retriesByStatus_iff.mpr hblocking, retriesByStatus_iff.mpr ?_,
      retriesByStatus_iff.mpr hblocking, classFollows_iff.mpr hclass⟩
    tauto

/-! ### A page that is not found -/

/-- Not found, with a body that tells of a connection. -/
def resetPage : Response where
  status := 404
  header _ := none
  text := .ok "upstream: connection reset".toList
  bytes := .ok ("upstream: connection reset".toList.flatMap String.utf8EncodeChar)

/-- The body becomes the message, and the call is made again. -/
theorem resetPage_retried : ¬ FollowsStatus (List.map Char.toLower)
    (List.map fun b => Char.ofNat b.toNat) (fun _ => none) .strict (fun _ body => body)
    resetPage := by
  intro h
  have hiff := h.blocking (twice resetPage) 1 one_mem_log rfl rfl
  have htwo : 2 ∈ (retryHttpBlocking (List.map Char.toLower) .strict (fun _ body => body)
      (twice resetPage)).log := by decide +kernel
  exact Bool.false_ne_true (hiff.mp htwo).1

end Anodizer.Retry
