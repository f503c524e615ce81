import Anodizer.Lib.Attempts
import Anodizer.Retry.Errors

/-! # Retried calls

A call is made again while its answer asks for it, an attempt is left and the deadline holds the
wait. The answers to a call over HTTP are responses, or errors without one.
-/

namespace Anodizer.Retry

open Template (Text)

/-! ### The driver -/

structure RetryPolicy where
  maxAttempts : ℕ
  baseDelay : Duration
  maxDelay : Duration
  deriving DecidableEq, Repr

def u64Max : ℕ := 2 ^ 64 - 1

/-- The wait before an attempt doubles from the second on. -/
def RetryPolicy.delayFor (policy : RetryPolicy) (nextAttempt : ℕ) : Duration :=
  let exp := nextAttempt - 2
  let mult := if exp < 64 then 2 ^ exp else u64Max
  let ms := min (policy.baseDelay / 10 ^ 6 % 2 ^ 64 * mult) u64Max
  min (ms * 10 ^ 6) policy.maxDelay

/-- What the clocks show after each attempt. -/
structure Clock where
  now : ℕ → ℕ
  unix : ℕ → ℕ
  /-- No later instant can be written. -/
  last : ℕ

inductive ControlFlow
  | continues (e : Err)
  | breaks (e : Err)
  deriving DecidableEq, Repr

inductive RetryStep (β : Type*)
  | done (b : β)
  | fail (e : Err)
  | retry (error : Err) (delay : Duration)

variable {β : Type*}

/-- An error waits as long as the server asked, or as the policy says. -/
def controlflowToStep (policy : RetryPolicy) (attempt : ℕ) :
    Except ControlFlow β → RetryStep β
  | .ok b => .done b
  | .error (.breaks e) => .fail e
  | .error (.continues e) =>
    .retry e ((httpRetryAfter e).getD (policy.delayFor (attempt + 1)))

def deadlineExhausted (clock : Clock) (deadline : Option ℕ) (attempt : ℕ) (delay : Duration) :
    Bool :=
  deadline.any fun d =>
    let projected := clock.now attempt + delay
    clock.last < projected || d < projected

/-- A retry is given up when the deadline does not hold its wait. -/
def RetryStep.decision (clock : Clock) (deadline : Option ℕ) (attempt : ℕ) :
    RetryStep β → Attempts.Step β Err
  | done b => .done b
  | fail e => .fail e
  | retry error delay => .retry error (deadlineExhausted clock deadline attempt delay)

def retrySteps (clock : Clock) (maxAttempts : ℕ) (deadline : Option ℕ) (op : ℕ → RetryStep β) :
    Attempts.Run Unit ℕ β Err :=
  Attempts.run (Attempts.numbered fun n => (op n).decision clock deadline n)
    (max maxAttempts 1 - 1) 1 ()

/-! ### Responses -/

structure Response where
  status : ℕ
  /-- The headers that are plain text. -/
  header : Text → Option Text
  text : Except Text Text
  bytes : Except Text (List UInt8)

def isSuccess (status : ℕ) : Bool := 200 ≤ status && status < 300

def isRedirection (status : ℕ) : Bool := 300 ≤ status && status < 400

def isServerError (status : ℕ) : Bool := 500 ≤ status && status < 600

inductive SuccessClass
  | strict
  | allowRedirects
  deriving DecidableEq, Repr

def SuccessClass.succeeded : SuccessClass → ℕ → Bool
  | strict, status => isSuccess status
  | allowRedirects, status => isSuccess status || isRedirection status

/-- What stands for a body that cannot be read. -/
def failedToRead (e : Text) : Text := "<failed to read body: ".toList ++ e ++ ">".toList

def Response.bodyText (r : Response) : Text :=
  match r.text with
  | .ok text => text
  | .error e => failedToRead e

/-! ### Calls -/

/-- A call, with the answers that its attempts get. -/
structure Call where
  desc : Text
  policy : RetryPolicy
  deadline : Option ℕ
  clock : Clock
  send : ℕ → Except Err Response

section Calls

variable (toLowercase : Text → Text) (successClass : SuccessClass) (errorMsg : ℕ → Text → Text)

def classified (e : Err) : ControlFlow :=
  if isRetriable toLowercase e then .continues e else .breaks e

/-- An answer is the value of a response that succeeded, or an error with its class. -/
def classifyAnswer (desc : Text) (now : ℕ) (value : Response → β) (errorText : Response → Text) :
    Except Err Response → Except ControlFlow β
  | .ok r =>
    if successClass.succeeded r.status then .ok (value r)
    else
      .error (classified toLowercase (statusError (errorMsg r.status (errorText r)) r.status
        (rateLimitRetryAfter now r.status r.header)))
  | .error e =>
    .error (classified toLowercase
      (.caused none (desc ++ ": HTTP transport error".toList) (.httpError e 0 none)))

/-- An error that would be retried says that the attempts are spent. -/
def exhaustedContext (desc : Text) (e : Err) : Err :=
  if !isRetriable toLowercase e then e
  else if (desc ++ ": ".toList).isPrefixOf e.display then
    .caused none "exhausted retry attempts".toList e
  else .caused none (desc ++ ": exhausted retry attempts".toList) e

def retryHttp (value : Response → β) (errorText : Response → Text) (c : Call) :
    Attempts.Run Unit ℕ β Err :=
  let run := retrySteps c.clock c.policy.maxAttempts c.deadline fun attempt =>
    controlflowToStep c.policy attempt
      (classifyAnswer toLowercase successClass errorMsg c.desc (c.clock.unix attempt) value errorText
        (c.send attempt))
  { run with result := run.result.mapError (exhaustedContext toLowercase c.desc) }

/-- The body is read as a text. -/
def retryHttpBlocking (c : Call) : Attempts.Run Unit ℕ (ℕ × Text) Err :=
  retryHttp toLowercase successClass errorMsg (fun r => (r.status, r.bodyText)) Response.bodyText c

section Bytes

variable (fromUtf8Lossy : List UInt8 → Text)

def Response.bodyBytes (r : Response) : List UInt8 :=
  match r.bytes with
  | .ok bytes => bytes
  | .error e => (failedToRead e).flatMap String.utf8EncodeChar

/-- The body is read as bytes, and those of an error as the text they nearly are. -/
def retryHttpBlockingBytes (c : Call) : Attempts.Run Unit ℕ (ℕ × List UInt8) Err :=
  retryHttp toLowercase successClass errorMsg (fun r => (r.status, r.bodyBytes))
    (fun r => fromUtf8Lossy r.bodyBytes) c

end Bytes

/-- The body is left to the caller, but for that of an error. -/
def retryHttpAsync (c : Call) : Attempts.Run Unit ℕ Response Err :=
  retryHttp toLowercase successClass errorMsg id Response.bodyText c

end Calls

/-- The class of an answer, by ranges of its status. -/
def classifyHttpSync (canonicalReason : ℕ → Option Text) :
    Except Err Response → Except ControlFlow Response
  | .ok r =>
    let message := fun reason : String =>
      "HTTP ".toList ++ Nat.toDigits 10 r.status ++ ' ' ::
        (canonicalReason r.status).getD reason.toList
    if isSuccess r.status || isRedirection r.status then .ok r
    else if isServerError r.status then .error (.continues (.plain none (message "server error")))
    else .error (.breaks (.plain none (message "client error")))
  | .error e => .error (.continues e)

end Anodizer.Retry
