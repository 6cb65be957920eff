import Rs5cmd.Fastpath.Retry
import Rs5cmd.Theorems.FastRequest

/-!
# What is retried

The loop stops at the first result that is a success or an error not to be retried,
or when its retries are used up. Which errors are not to be retried is decided by
their status alone, and the error that a copy finds in the body of a success is given
the status 500.
-/

namespace Rs5cmd

/-! ## The loop -/

section Loop

variable {α : Type} {maxRetries : Nat} {op : Nat → Except FastError α}

/-- A result that ends the loop. -/
def EndsRetries : Except FastError α → Prop
  | .ok _ => True
  | .error e => e.isRetryable = false

instance (r : Except FastError α) : Decidable (EndsRetries r) :=
  match r with
  | .ok _ => inferInstanceAs (Decidable True)
  | .error e => inferInstanceAs (Decidable (e.isRetryable = false))

/-- The index of the last attempt: the first result that ends the loop, or
`maxRetries`. -/
def lastAttempt (maxRetries : Nat) (op : Nat → Except FastError α) : Nat :=
  ((List.range maxRetries).find? fun i => EndsRetries (op i)).getD maxRetries

/-- The loop of an operation behaves: it is called up to the last attempt, whose
result is returned, with a sleep after each one before. -/
structure Disciplined (maxRetries : Nat) (op : Nat → Except FastError α) (r : Retried α) : Prop where
  calls : r.calls = lastAttempt maxRetries op + 1
  result : r.result = op (lastAttempt maxRetries op)
  sleeps : r.sleeps = (List.range (lastAttempt maxRetries op)).map fun i => min (50 * 2 ^ min i 7) 5000

theorem lastAttempt_le (maxRetries : Nat) (op : Nat → Except FastError α) :
    lastAttempt maxRetries op ≤ maxRetries := by
  unfold lastAttempt
  cases hfind : (List.range maxRetries).find? fun i => decide (EndsRetries (op i)) with
  | none => exact le_rfl
  | some i => exact (List.mem_range.mp (List.mem_of_find?_eq_some hfind)).le

/-- No attempt before the last one ends the loop. -/
theorem not_ends_of_lt_lastAttempt {i : Nat} (hi : i < lastAttempt maxRetries op) :
    ¬ EndsRetries (op i) := by
  unfold lastAttempt at hi
  cases hfind : (List.range maxRetries).find? fun i => decide (EndsRetries (op i)) with
  | none =>
    rw [hfind] at hi
    have hnone := List.find?_range_eq_none.mp hfind i hi
    simpa using hnone
  | some k =>
    rw [hfind] at hi
    have hbefore := (List.find?_range_eq_some.mp hfind).2.2 i hi
    simpa using hbefore

/-- The last attempt ends the loop or uses up the retries. -/
theorem lastAttempt_ends : lastAttempt maxRetries op = maxRetries ∨
    EndsRetries (op (lastAttempt maxRetries op)) := by
  unfold lastAttempt
  cases hfind : (List.range maxRetries).find? fun i => decide (EndsRetries (op i)) with
  | none => exact .inl rfl
  | some k => exact .inr (of_decide_eq_true (List.find?_range_eq_some.mp hfind).1)

theorem withRetryFrom_last {attempt : Nat} (h : attempt = maxRetries ∨ EndsRetries (op attempt)) :
    withRetryFrom maxRetries op attempt = ⟨op attempt, 1, []⟩ := by
  rw [withRetryFrom]
  cases hop : op attempt with
  | ok v => rfl
  | error e =>
    have hstop : maxRetries ≤ attempt ∨ (!e.isRetryable) = true := by
      rcases h with rfl | hends
      · exact .inl le_rfl
      · rw [hop] at hends
        exact .inr ((Bool.not_eq_true' _).mpr hends)
    exact dif_pos hstop

theorem withRetryFrom_next {attempt : Nat} (hlt : attempt < maxRetries)
    (hends : ¬ EndsRetries (op attempt)) :
    withRetryFrom maxRetries op attempt =
      ⟨(withRetryFrom maxRetries op (attempt + 1)).result,
        (withRetryFrom maxRetries op (attempt + 1)).calls + 1,
        backoffMs attempt :: (withRetryFrom maxRetries op (attempt + 1)).sleeps⟩ := by
  rw [withRetryFrom]
  cases hop : op attempt with
  | ok v =>
    rw [hop] at hends
    exact absurd trivial hends
  | error e =>
    rw [hop] at hends
    have hretry : e.isRetryable = true := by simpa [EndsRetries] using hends
    have hnext : ¬ (maxRetries ≤ attempt ∨ (!e.isRetryable) = true) := by
      rw [hretry]
      simp [hlt]
    exact dif_neg hnext

theorem backoffMs_eq (attempt : Nat) : backoffMs attempt = min (50 * 2 ^ min attempt 7) 5000 := by
  rw [backoffMs, Nat.shiftLeft_eq]

/-- The loop from an attempt up to the last one. -/
theorem withRetryFrom_spec {n attempt : Nat} (hlast : lastAttempt maxRetries op = attempt + n) :
    withRetryFrom maxRetries op attempt =
      ⟨op (attempt + n), n + 1,
        (List.range' attempt n).map fun i => min (50 * 2 ^ min i 7) 5000⟩ := by
  induction n generalizing attempt with
  | zero =>
    refine withRetryFrom_last ?_
    rw [← Nat.add_zero attempt, ← hlast]
    exact lastAttempt_ends
  | succ n ih =>
    have hle := lastAttempt_le maxRetries op
    have hnext : lastAttempt maxRetries op = attempt + 1 + n := by omega
    have hends : ¬ EndsRetries (op attempt) :=
      not_ends_of_lt_lastAttempt (show attempt < lastAttempt maxRetries op by omega)
    rw [withRetryFrom_next (by omega) hends, ih hnext, backoffMs_eq, List.range'_succ,
      List.map_cons, Nat.add_right_comm attempt 1 n]
    rfl

/-- **The loop.** Whatever the results would be, the operation is called up to the
last attempt. -/
theorem withRetry_disciplined (maxRetries : Nat) (op : Nat → Except FastError α) :
    Disciplined maxRetries op (withRetry maxRetries op) := by
  have hlast : lastAttempt maxRetries op = 0 + lastAttempt maxRetries op := (Nat.zero_add _).symm
  have hspec := withRetryFrom_spec hlast
  rw [withRetry, hspec, Nat.zero_add]
  exact ⟨rfl, rfl, by rw [List.range_eq_range']⟩

end Loop

/-! ## Responses -/

section Calls

variable (showStatus : Nat → Str) (c : FastClient) (call : FastCall)

/-- A copy answered with status 200 and an error in the body. -/
def LateError (call : FastCall) (resp : Except Str HttpResponse) : Prop :=
  match call, resp with
  | .copy .., .ok resp => resp.status = 200 ∧ memmem resp.body (Utf8.encode "<Error".toList) = true
  | _, _ => False

/-- A failure that is permanent. -/
def PermanentFailure (call : FastCall) (resp : Except Str HttpResponse) : Prop :=
  (∃ answer, resp = .ok answer ∧ (answer.status = 403 ∨ answer.status = 404)) ∨ LateError call resp

/-- The attempts of a call: `sends` answers each of them. -/
def FastClient.attempts (sends : Nat → Request → Except Str HttpResponse) :
    Nat → Except FastError (List UInt8) :=
  fun i => c.exec showStatus (sends i) call

/-- A response with a status that is not to be retried ends the loop, whichever the
call. -/
theorem ends_of_status {send : Request → Except Str HttpResponse} {resp : HttpResponse}
    (hresp : c.respond send call = .ok resp) (hstatus : resp.status = 403 ∨ resp.status = 404) :
    EndsRetries (c.exec showStatus send call) := by
  have hfail : resp.isSuccess = false := by
    rcases hstatus with h | h <;> rw [HttpResponse.isSuccess, h] <;> rfl
  have herror : ∀ what, (FastClient.statusError showStatus what resp).isRetryable = false := by
    intro what
    show isRetryableStatus resp.status = false
    rcases hstatus with h | h <;> rw [h] <;> rfl
  rw [FastClient.exec, hresp]
  cases call with
  | put bucket key body =>
    simp only [FastClient.result, FastClient.putResult, hfail, Bool.not_false, if_true]
    exact herror _
  | get bucket key =>
    simp only [FastClient.result, FastClient.getResult, hfail, Bool.not_false, if_true]
    exact herror _
  | delete bucket key =>
    simp only [FastClient.result, FastClient.deleteResult, hfail, Bool.not_false, Bool.true_and]
    split
    · exact herror _
    · exact trivial
  | copy srcBucket srcKey dstBucket dstKey =>
    simp only [FastClient.result, FastClient.copyResult, hfail, Bool.not_false, if_true]
    exact herror _

/-- A late error is not the end of the loop. -/
theorem not_ends_of_lateError {send : Request → Except Str HttpResponse}
    (h : LateError call (c.respond send call)) : ¬ EndsRetries (c.exec showStatus send call) := by
  rw [FastClient.exec]
  generalize c.respond send call = resp at h
  cases call with
  | put bucket key body => exact h.elim
  | get bucket key => exact h.elim
  | delete bucket key => exact h.elim
  | copy srcBucket srcKey dstBucket dstKey =>
    cases resp with
    | error e => exact h.elim
    | ok resp =>
      obtain ⟨hstatus, hbody⟩ := h
      have hok : resp.isSuccess = true := by
        rw [HttpResponse.isSuccess, hstatus]
        rfl
      simp only [FastClient.result, FastClient.copyResult, hok, hbody, Bool.not_true,
        Bool.false_eq_true, if_false, if_true]
      exact Bool.noConfusion

/-- Each permanent failure is the last attempt. -/
def PermanentOnce (sends : Nat → Request → Except Str HttpResponse)
    (r : Retried (List UInt8)) : Prop :=
  ∀ i, i < r.calls → PermanentFailure call (c.respond (sends i) call) → r.calls = i + 1

/-- **Retry discipline, exactly.** For every operation and number of retries the loop
behaves. A permanent failure of a call is attempted once just when no copy is answered
with a late error while retries are left, unless an attempt before has ended the
loop. -/
theorem retry_discipline_iff {α : Type} (maxRetries : Nat) (op : Nat → Except FastError α)
    (sends : Nat → Request → Except Str HttpResponse) :
    Disciplined maxRetries op (withRetry maxRetries op) ∧
    (PermanentOnce c call sends (withRetry maxRetries (c.attempts showStatus call sends)) ↔
      ∀ i, i < maxRetries → LateError call (c.respond (sends i) call) →
        ∃ j, j < i ∧ EndsRetries (c.exec showStatus (sends j) call)) := by
  refine ⟨withRetry_disciplined maxRetries op, ?_⟩
  have hcalls := (withRetry_disciplined maxRetries (c.attempts showStatus call sends)).calls
  have hbefore : ∀ i, i < lastAttempt maxRetries (c.attempts showStatus call sends) →
      ¬ EndsRetries (c.exec showStatus (sends i) call) := fun i => not_ends_of_lt_lastAttempt
  have hlast : lastAttempt maxRetries (c.attempts showStatus call sends) = maxRetries ∨
      EndsRetries (c.exec showStatus
        (sends (lastAttempt maxRetries (c.attempts showStatus call sends))) call) :=
    lastAttempt_ends
  have hle := lastAttempt_le maxRetries (c.attempts showStatus call sends)
  unfold PermanentOnce
  rw [hcalls]
  generalize lastAttempt maxRetries (c.attempts showStatus call sends) = k at hbefore hlast hle
  constructor
  · intro honce i hi hlate
    by_contra hnone
    -- the late error is reached, and a retry follows it
    have hreached : i < k := by
      by_contra hge
      rcases hlast with rfl | hends
      · exact hge hi
      · by_cases hik : k = i
        · exact not_ends_of_lateError showStatus c call hlate (hik ▸ hends)
        · exact hnone ⟨k, by omega, hends⟩
    have heq := honce i (by omega) (.inr hlate)
    omega
  · intro hcond i hi hpermanent
    by_contra hne
    have hik : i < k := by omega
    rcases hpermanent with ⟨answer, hanswer, hstatus⟩ | hlate
    · exact hbefore i hik (ends_of_status showStatus c call hanswer hstatus)
    · obtain ⟨j, hj, hends⟩ := hcond i (by omega) hlate
      exact hbefore j (by omega) hends

end Calls

/-! ## A copy that fails late -/

namespace RetrySample

/-- The body of a late failure. -/
def lateBody : List UInt8 := Utf8.encode "<Error><Code>InternalError</Code></Error>".toList

/-- The first attempt fails late, the second succeeds. -/
def sends (i : Nat) (_ : Request) : Except Str HttpResponse :=
  .ok ⟨200, if i = 0 then lateBody else []⟩

def copied : FastCall := .copy "b".toList "k".toList "b".toList "l".toList

theorem respond_copied (i : Nat) :
    FastClient.sample.respond (sends i) copied = .ok ⟨200, if i = 0 then lateBody else []⟩ := by
  obtain ⟨req, hreq⟩ : ∃ req, FastClient.sample.request copied = .ok req := ⟨_, rfl⟩
  rw [FastClient.respond, hreq]
  rfl

theorem lateError_first : LateError copied (FastClient.sample.respond (sends 0) copied) := by
  rw [respond_copied]
  exact ⟨rfl, by decide +kernel⟩

/-- The late failure of the first attempt is followed by a second. -/
theorem late_error_retried :
    LateError copied (FastClient.sample.respond (sends 0) copied) ∧
    (withRetry 10 (FastClient.sample.attempts Str.decimal copied sends)).calls = 2 ∧
    ¬ PermanentOnce FastClient.sample copied sends
      (withRetry 10 (FastClient.sample.attempts Str.decimal copied sends)) := by
  have hsecond : EndsRetries (FastClient.sample.attempts Str.decimal copied sends (0 + 1)) := by
    show EndsRetries (FastClient.sample.exec Str.decimal (sends 1) copied)
    rw [FastClient.exec, respond_copied]
    exact trivial
  have hcalls : (withRetry 10 (FastClient.sample.attempts Str.decimal copied sends)).calls = 2 := by
    rw [withRetry, withRetryFrom_next (by decide)
      (not_ends_of_lateError Str.decimal FastClient.sample copied lateError_first),
      withRetryFrom_last (.inr hsecond)]
  refine ⟨lateError_first, hcalls, fun honce => ?_⟩
  have heq := honce 0 (by rw [hcalls]; decide) (.inr lateError_first)
  rw [hcalls] at heq
  exact absurd heq (by decide)

end RetrySample

end Rs5cmd
