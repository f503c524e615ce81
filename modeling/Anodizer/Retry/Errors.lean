import Anodizer.Git.SemVer

/-! # Errors that may be retried

An error is a chain of errors. It is retried when one of them is marked, carries a status that is
retried, or reads like a failure of the network.
-/

namespace Anodizer.Retry

open Template (Text)

/-- In nanoseconds. -/
abbrev Duration := ℕ

inductive ErrorKind
  | unexpectedEof
  | timedOut
  | connectionRefused
  | connectionReset
  | connectionAborted
  | brokenPipe
  | other
  deriving DecidableEq, Repr

/-- An error, with the one it comes from. Those of the input and output system have a kind. -/
inductive Err
  | plain (kind : Option ErrorKind) (text : Text)
  | caused (kind : Option ErrorKind) (text : Text) (source : Err)
  | httpError (inner : Err) (status : ℕ) (retryAfter : Option Duration)
  | retriable (inner : Err)
  deriving DecidableEq, Repr

namespace Err

def display : Err → Text
  | plain _ text => text
  | caused _ text _ => text
  | httpError inner _ _ => inner.display
  | retriable inner => inner.display

def source : Err → Option Err
  | plain _ _ => none
  | caused _ _ source => some source
  | httpError inner _ _ => inner.source
  | retriable inner => inner.source

def transparentInner : Err → Option Err
  | httpError inner _ _ => some inner
  | retriable inner => some inner
  | _ => none

def errorLinks : Err → List Err
  | plain kind text => [plain kind text]
  | caused kind text source => caused kind text source :: source.errorLinks
  | httpError inner status retryAfter => httpError inner status retryAfter :: inner.errorLinks
  | retriable inner => retriable inner :: inner.errorLinks

/-- The chain goes on with the error that a transparent one holds, else with the source. -/
theorem errorLinks_eq (e : Err) :
    e.errorLinks = e :: ((e.transparentInner.or e.source).map errorLinks).getD [] := by
  cases e <;> rfl

end Err

def httpRetryAfter (e : Err) : Option Duration :=
  e.errorLinks.findSome? fun
    | .httpError _ _ retryAfter => retryAfter
    | _ => none

def secs (n : ℕ) : Duration := n * 10 ^ 9

/-- How long the server asks to wait, by the headers of a response. -/
def rateLimitRetryAfter (now status : ℕ) (header : Text → Option Text) : Option Duration :=
  if status ≠ 429 then none
  else
    let headerInt := fun name : String =>
      ((header name.toList).bind fun v => Git.parseU64 (Template.trim v)).filter (0 < ·)
    let retryAfter := (headerInt "Retry-After").map secs
    match headerInt "RateLimit-Reset" with
    | some reset => if now < reset then some (secs (reset - now)) else retryAfter
    | none => retryAfter

/-! ### Classes of errors -/

def ErrorKind.isTransient : ErrorKind → Bool
  | other => false
  | _ => true

def networkErrorNeedles : List String :=
  ["connection reset", "network is unreachable", "connection closed", "connection refused",
    "tls handshake timeout", "i/o timeout", "broken pipe", "timeout awaiting response headers",
    "context deadline exceeded", "operation timed out", "the network connection was aborted",
    "an existing connection was forcibly closed", "dns error", "failed to lookup address",
    "no such host is known"]

def statusIsRetriable (status : ℕ) : Bool := 500 ≤ status || status == 429

section Classes

variable (toLowercase : Text → Text)

def isEof (text : Text) : Bool :=
  toLowercase text = "eof".toList || toLowercase text = "unexpected eof".toList

def hasNeedle (text : Text) : Bool :=
  networkErrorNeedles.any fun n => Template.contains (toLowercase text) n.toList

def isNetworkKind (text : Text) : Option ErrorKind → Bool
  | none => false
  | some kind => kind.isTransient || isEof toLowercase text

def Err.kind : Err → Option ErrorKind
  | plain kind _ => kind
  | caused kind _ _ => kind
  | _ => none

def isNetworkError (e : Err) : Bool :=
  e.errorLinks.any fun e =>
    isNetworkKind toLowercase e.display e.kind || hasNeedle toLowercase e.display

/-- The error is marked, or has a status that is retried. -/
def Err.isMarked : Err → Bool
  | retriable _ => true
  | httpError _ status _ => statusIsRetriable status
  | _ => false

def isRetriable (e : Err) : Bool := e.errorLinks.any Err.isMarked || isNetworkError toLowercase e

/-- The text reads like a failure of the network. -/
def isNetworkText (text : Text) : Bool := isEof toLowercase text || hasNeedle toLowercase text

/-- The error for a status, with a message of the caller. -/
def statusError (message : Text) (status : ℕ) (retryAfter : Option Duration) : Err :=
  .httpError (.plain (some .other) message) status retryAfter

variable {toLowercase}

/-- The message of a status error counts as much as its status. -/
theorem isRetriable_statusError (message : Text) (status : ℕ) (retryAfter : Option Duration) :
    isRetriable toLowercase (statusError message status retryAfter) =
      (statusIsRetriable status || isNetworkText toLowercase message) := by
  simp only [isRetriable, statusError, Err.errorLinks, isNetworkError, List.any_cons, List.any_nil,
    Err.isMarked, Err.display, Err.kind, isNetworkKind, ErrorKind.isTransient, isNetworkText,
    Bool.or_false, Bool.false_or]
  cases statusIsRetriable status <;> cases isEof toLowercase message <;>
    cases hasNeedle toLowercase message <;> rfl

theorem httpRetryAfter_statusError (message : Text) (status : ℕ) (retryAfter : Option Duration) :
    httpRetryAfter (statusError message status retryAfter) = retryAfter := by
  cases retryAfter <;> rfl

end Classes

end Anodizer.Retry
