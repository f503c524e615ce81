import Anodizer.Cargo.PublishRun
import Anodizer.Lib.Attempts
import Mathlib.Data.List.Infix

/-! # Uploading a release asset

One asset is posted until the server holds it. A name the server already holds is looked up:
the same bytes are kept, a partial asset is deleted, and other bytes are replaced only where
the configuration allows it.
-/

namespace Anodizer

namespace AssetUpload

abbrev Bytes := List UInt8

/-- What the server holds under a name. -/
structure Asset where
  size : ℕ
  uploaded : Bool
  digest : Option String
  deriving DecidableEq, Repr

/-! ### Answers -/

/-- An error of a request, with the text it displays. -/
inductive OctocrabError
  | github (statusCode : ℕ) (message : String) (documentationUrl : Option String)
    (errors : Option (List (Option String))) (display : String)
  | transport (display : String)
  | other (display : String)
  deriving DecidableEq, Repr

namespace OctocrabError

def display : OctocrabError → String
  | github _ _ _ _ d => d
  | transport d => d
  | other d => d

def status : OctocrabError → ℕ
  | github code _ _ _ _ => code
  | _ => 0

end OctocrabError

inductive UploadAttemptOutcome
  | success
  | alreadyExists
  | secondaryRateLimited
  | primaryRateLimited
  | notFound
  | transientRetry
  | fatal
  deriving DecidableEq, Repr

def contains (s part : String) : Bool := part.toList <:+: s.toList

/-- Lower case, for the letters the signatures are written in. -/
def toLowercase (s : String) : String := String.ofList (s.toList.map Char.toLower)

def isSecondaryRateLimitSignature (status : ℕ) (message : String)
    (documentationUrl : Option String) : Bool :=
  if status ≠ 403 ∧ status ≠ 429 then false
  else
    contains (toLowercase message) "secondary rate limit" ||
      documentationUrl.any fun u => contains u "secondary-rate-limits"

def isRateLimitSignature (status : ℕ) (message : String) (documentationUrl : Option String) :
    Bool :=
  if status = 429 then true
  else if status ≠ 403 then false
  else
    contains (toLowercase message) "rate limit" ||
      documentationUrl.any fun u => contains u "rate-limit"

def classifyUploadAttempt : Except OctocrabError Unit → UploadAttemptOutcome
  | .ok () => .success
  | .error (.github status message documentationUrl errors _) =>
    if status = 422 && errors.any fun codes => codes.contains (some "already_exists") then
      .alreadyExists
    else if status = 404 then .notFound
    else if isSecondaryRateLimitSignature status message documentationUrl then
      .secondaryRateLimited
    else if isRateLimitSignature status message documentationUrl then .primaryRateLimited
    else if 500 ≤ status ∧ status < 600 ∨ status = 401 then .transientRetry
    else .fatal
  | .error (.transport _) => .transientRetry
  | .error (.other _) => .fatal

/-! ### An asset that already exists -/

inductive AssetConflict
  | identicalSkip
  | replaceDiffering
  | conflictForbidden
  | noConflict
  deriving DecidableEq, Repr

inductive AlreadyExistsAction
  | skipIdempotent
  | bailReplaceForbidden
  | deleteAndRetry
  deriving DecidableEq, Repr

def classifyAssetConflict (replaceExistingArtifacts remotePresent : Bool)
    (remoteSize : Option ℕ) (localSize : ℕ) : AssetConflict :=
  if !remotePresent then .noConflict
  else if remoteSize = some localSize then .identicalSkip
  else if replaceExistingArtifacts then .replaceDiffering
  else .conflictForbidden

def sha256Tag : String := "sha256:"

def stripTag (digest : String) : String :=
  if sha256Tag.toList <+: digest.toList then
    String.ofList (digest.toList.drop sha256Tag.toList.length)
  else digest

def digestsMatch (remoteDigest localHex : String) : Bool :=
  eqIgnoreAsciiCase (stripTag remoteDigest) localHex

def classifyAlreadyExists (replaceExistingArtifacts : Bool) (remote : Option Asset)
    (localSize : ℕ) (localDigest : Option String) : AlreadyExistsAction :=
  if remote.any (!·.uploaded) then .deleteAndRetry
  else
    let remoteSize := remote.map (·.size)
    match remote.bind (·.digest), localDigest with
    | some remoteDigest, some localHex =>
      if remoteSize = some localSize then
        if digestsMatch remoteDigest localHex then .skipIdempotent
        else if replaceExistingArtifacts then .deleteAndRetry
        else .bailReplaceForbidden
      else conflict remoteSize
    | _, _ => conflict remoteSize
where
  conflict (remoteSize : Option ℕ) : AlreadyExistsAction :=
    match classifyAssetConflict replaceExistingArtifacts true remoteSize localSize with
    | .identicalSkip => .skipIdempotent
    | .replaceDiffering => .deleteAndRetry
    | .conflictForbidden | .noConflict => .bailReplaceForbidden

/-! ### One upload -/

/-- The local file and the request it is uploaded by. -/
structure UploadAssetRequest where
  owner : String
  repo : String
  tag : String
  path : String
  fileName : String
  replaceExistingArtifacts : Bool
  maxAttempts : ℕ
  deadline : Option ℕ
  /-- The file, when it can be read. -/
  file : Except String Bytes
  sha256 : Bytes → String

/-- What a post does on the server, when the name is free. -/
inductive Effect
  | stored (exposesDigest : Bool)
  | interrupted (size : ℕ) (digest : Option String)
  | refused
  deriving DecidableEq, Repr

/-- A request that fails may have deleted the asset. -/
inductive DeleteReply
  | deleted
  | failed (message : String) (removed : Bool)
  deriving DecidableEq, Repr

structure PostReply where
  effect : Effect
  answer : Except OctocrabError Unit

/-- How long the engine sleeps before the next attempt. -/
inductive Delay
  | backoff (slot : ℕ)
  | secondaryLimit
  | zero
  deriving DecidableEq, Repr

/-- The replies to the requests of one attempt, and the clock after it: when a sleep would end,
where the clock can hold it. -/
structure Replies where
  first : PostReply
  probe : Except String Unit
  delete : DeleteReply
  second : PostReply
  wakeAt : Delay → Option ℕ

/-- The requests of an attempt, each with what the server held before it. -/
inductive Event
  | post (held : Option Asset) (reply : PostReply)
  | probe (held : Option Asset)
  | delete (held : Option Asset)

inductive UploadOutcome
  | uploaded (fileName : String)
  | skippedIdentical (fileName : String)
  deriving DecidableEq, Repr

inductive UploadFailure
  | fatal (message : String)
  | transient (message : String)
  deriving DecidableEq, Repr

abbrev UploadStep := Attempts.Step UploadOutcome UploadFailure

abbrev Attempted := Option Asset × List Event × UploadStep

section Upload

variable (req : UploadAssetRequest)

def sha256File : Except String String := req.file.map req.sha256

def hashForAlreadyExistsComparison (remoteDigestAvailable : Bool) (remoteSize : Option ℕ)
    (localSize : ℕ) : Except String (Option String) :=
  if !remoteDigestAvailable || remoteSize ≠ some localSize then .ok none
  else (sha256File req).map some

/-- A server takes a post only under a name it does not hold. -/
def PostReply.apply (reply : PostReply) (data : Bytes) : Option Asset → Option Asset
  | some held => some held
  | none =>
    match reply.effect with
    | .stored exposes =>
      some ⟨data.length, true, if exposes then some (sha256Tag ++ req.sha256 data) else none⟩
    | .interrupted size digest => some ⟨size, false, digest⟩
    | .refused => none

def DeleteReply.apply : DeleteReply → Option Asset → Option Asset
  | .deleted, _ => none
  | .failed _ removed, held => if removed then none else held

def deadlineExhausted (wakeAt : Option ℕ) : Bool :=
  req.deadline.any fun d => wakeAt.all fun wake => d < wake

def retry (replies : Replies) (delay : Delay) (message : String) : UploadStep :=
  .retry (.transient message) (deadlineExhausted req (replies.wakeAt delay))

def readArtifact (e : String) : String := s!"release: read artifact {req.path}: {e}"

def lookUpExisting (e : String) : String :=
  s!"release: look up existing asset '{req.fileName}' on release '{req.tag}': {e}"

def hashArtifact (e : String) : String :=
  s!"release: hash artifact {req.path} for already-exists comparison: {e}"

def forbidden (e : String) : String :=
  s!"release: artifact '{req.fileName}' already exists on release '{req.tag}' with different " ++
    "bytes and `replace_existing_artifacts: false` forbids overwriting (set " ++
    s!"`release.replace_existing_artifacts: true` to permit overwrites): {e}"

def deletePartial (e : String) : String :=
  s!"release: delete partial asset '{req.fileName}' on release '{req.tag}' left by an " ++
    s!"interrupted upload: {e}"

def deleteExisting (e : String) : String :=
  s!"release: delete existing asset '{req.fileName}' on release '{req.tag}' before replacing it " ++
    s!"(`replace_existing_artifacts: true`): {e}"

def fatalUpload (e : OctocrabError) : String :=
  s!"release: upload artifact '{req.fileName}' to release '{req.tag}'" ++
    (if e.status = 403 then
      " — GitHub denied the upload (403); verify the token has contents:write on " ++
        s!"{req.owner}/{req.repo}"
    else if 300 ≤ e.status ∧ e.status < 400 then
      s!" — GitHub redirected the upload ({e.status}); the repository {req.owner}/{req.repo} " ++
        "may have been renamed or transferred, update the git remote or release.github to its " ++
        "current location"
    else "") ++ s!": {e.display}"

def exhausted (maxUploadAttempts : ℕ) (e : String) : String :=
  s!"release: upload artifact '{req.fileName}' to release '{req.tag}' failed after " ++
    s!"{maxUploadAttempts} attempts: {e}"

/-- What an attempt does on an answer that needs no recovery. -/
def settle (attempt : ℕ) (replies : Replies) (result : Except OctocrabError Unit) : UploadStep :=
  match result with
  | .ok () => .done (.uploaded req.fileName)
  | .error err =>
    match classifyUploadAttempt (.error err) with
    | .success => .done (.uploaded req.fileName)
    | .alreadyExists =>
      retry req replies (.backoff (attempt + 1))
        s!"asset reappeared after its delete and re-upload: {err.display}"
    | .secondaryRateLimited => retry req replies .secondaryLimit err.display
    | .primaryRateLimited => retry req replies .zero err.display
    | .notFound => retry req replies (.backoff (attempt + 1)) err.display
    | .transientRetry => retry req replies (.backoff (attempt + 1)) err.display
    | .fatal => .fail (.fatal (fatalUpload req err))

/-- The recovery of a name the server says it holds. -/
def recover (attempt : ℕ) (replies : Replies) (localSize : ℕ) (err : OctocrabError)
    (held : Option Asset) : Attempted :=
  match replies.probe with
  | .error e => (held, [], .fail (.fatal (lookUpExisting req e)))
  | .ok () =>
    match hashForAlreadyExistsComparison req (held.bind (·.digest)).isSome (held.map (·.size))
        localSize with
    | .error e => (held, [.probe held], .fail (.fatal (hashArtifact req e)))
    | .ok localDigest =>
      match classifyAlreadyExists req.replaceExistingArtifacts held localSize localDigest with
      | .skipIdempotent => (held, [.probe held], .done (.skippedIdentical req.fileName))
      | .bailReplaceForbidden =>
        (held, [.probe held], .fail (.fatal (forbidden req err.display)))
      | .deleteAndRetry =>
        let left := replies.delete.apply held
        match replies.delete with
        | .failed e _ =>
          (left, [.probe held, .delete held], .fail (.fatal
            (if held.any (!·.uploaded) then deletePartial req e else deleteExisting req e)))
        | .deleted =>
          match req.file with
          | .error e =>
            (left, [.probe held, .delete held], .fail (.fatal (readArtifact req e)))
          | .ok data =>
            let after := replies.second.apply req data left
            (after, [.probe held, .delete held, .post left replies.second],
              settle req attempt replies replies.second.answer)

/-- One attempt: a post, and at most one more after a delete. -/
def uploadAttempt (attempt : ℕ) (replies : Replies) (held : Option Asset) : Attempted :=
  match req.file with
  | .error e => (held, [], .fail (.fatal (readArtifact req e)))
  | .ok data =>
    let after := replies.first.apply req data held
    let post := Event.post held replies.first
    match replies.first.answer with
    | .error err =>
      if classifyUploadAttempt (.error err) = .alreadyExists then
        let recovered := recover req attempt replies data.length err after
        (recovered.1, post :: recovered.2.1, recovered.2.2)
      else (after, [post], settle req attempt replies (.error err))
    | .ok () => (after, [post], settle req attempt replies (.ok ()))

def minUploadTransientAttempts : ℕ := 3

def maxUploadAttempts : ℕ := max req.maxAttempts minUploadTransientAttempts

/-- The attempts of one upload, against the replies of a server that holds `held`. -/
def uploadRun (replies : ℕ → Replies) (held : Option Asset) :
    Attempts.Run (Option Asset) (List Event) UploadOutcome UploadFailure :=
  Attempts.run (fun attempt => uploadAttempt req attempt (replies attempt))
    (max (maxUploadAttempts req) 1 - 1) 1 held

def uploadReleaseAsset (replies : ℕ → Replies) (held : Option Asset) :
    Except String UploadOutcome :=
  match (uploadRun req replies held).result with
  | .ok disposition => .ok disposition
  | .error (.fatal e) => .error e
  | .error (.transient e) => .error (exhausted req (maxUploadAttempts req) e)

end Upload

/-! ### What an attempt preserves -/

section Spec

variable {req : UploadAssetRequest} {held after : Option Asset} {a : Asset} {data : Bytes}

/-- The server holds the local file. -/
def Holds (req : UploadAssetRequest) (held : Option Asset) : Prop :=
  ∃ data, req.file = .ok data ∧ ∃ a, held = some a ∧ a.uploaded ∧ a.size = data.length ∧
    ∀ d ∈ a.digest, digestsMatch d (req.sha256 data)

/-- The asset is not the local file, by its size or by the digest the server exposes. -/
def Differs (req : UploadAssetRequest) (a : Asset) : Prop :=
  ∃ data, req.file = .ok data ∧
    (a.size ≠ data.length ∨ ∃ d ∈ a.digest, digestsMatch d (req.sha256 data) = false)

/-- A post that answers success has taken effect. -/
def Event.Honest : Event → Prop
  | .post held reply =>
    reply.answer = .ok () → held = none ∧ ∃ exposes, reply.effect = .stored exposes
  | _ => True

def Event.isPost : Event → Bool
  | .post .. => true
  | _ => false

/-- What an attempt may do to the server. -/
structure Careful (req : UploadAssetRequest) (events : List Event) : Prop where
  posts : (events.filter Event.isPost).length ≤ 2
  published : ∀ a, .delete (some a) ∈ events → a.uploaded →
    req.replaceExistingArtifacts ∧ Differs req a
  debris : ∀ a, .probe (some a) ∈ events → ¬ a.uploaded → .delete (some a) ∈ events

theorem stripTag_append (h : String) : stripTag (sha256Tag ++ h) = h := by
  rw [stripTag, String.toList_append, if_pos (List.prefix_append ..), List.drop_left,
    String.ofList_toList]

theorem digestsMatch_exposed (h : String) : digestsMatch (sha256Tag ++ h) h := by
  rw [digestsMatch, stripTag_append, eqIgnoreAsciiCase, beq_self_eq_true]

theorem classifyUploadAttempt_error {e : OctocrabError} :
    classifyUploadAttempt (.error e) ≠ .success := by
  cases e <;> simp only [classifyUploadAttempt, ne_eq, reduceCtorEq, not_false_eq_true]
  split_ifs <;> simp

theorem settle_done {attempt : ℕ} {replies : Replies} {result : Except OctocrabError Unit}
    {b : UploadOutcome} (h : settle req attempt replies result = .done b) : result = .ok () := by
  cases result with
  | ok u => rfl
  | error e =>
    have hne := @classifyUploadAttempt_error e
    rw [settle] at h
    cases hc : classifyUploadAttempt (.error e) <;> simp_all [retry]

theorem holds_stored {reply : PostReply} {exposes : Bool} (hfile : req.file = .ok data)
    (heffect : reply.effect = .stored exposes) : Holds req (reply.apply req data none) := by
  refine ⟨data, hfile, _, by rw [PostReply.apply, heffect], rfl, rfl, ?_⟩
  intro d hd
  cases exposes with
  | false => cases hd
  | true =>
    obtain rfl : sha256Tag ++ req.sha256 data = d := Option.some.inj hd
    exact digestsMatch_exposed _

theorem hash_eq (hfile : req.file = .ok data) (held : Option Asset) :
    hashForAlreadyExistsComparison req (held.bind (·.digest)).isSome (held.map (·.size))
      data.length = .ok (if (held.bind (·.digest)).isSome ∧ held.map (·.size) = some data.length
        then some (req.sha256 data) else none) := by
  rw [hashForAlreadyExistsComparison, sha256File, hfile]
  by_cases hdigest : (held.bind (·.digest)).isSome <;>
    by_cases hsize : held.map (·.size) = some data.length <;> simp [hdigest, hsize, Except.map]

/-- The decision on a name that exists, with the digest the comparison needs. -/
theorem classifyAlreadyExists_spec (held : Option Asset) (hfile : req.file = .ok data) :
    match classifyAlreadyExists req.replaceExistingArtifacts held data.length
      (if (held.bind (·.digest)).isSome ∧ held.map (·.size) = some data.length
        then some (req.sha256 data) else none) with
    | .skipIdempotent => Holds req held
    | .bailReplaceForbidden => ∀ a ∈ held, a.uploaded
    | .deleteAndRetry => ∀ a ∈ held, a.uploaded → req.replaceExistingArtifacts ∧ Differs req a := by
  cases held with
  | none =>
    cases hreplace : req.replaceExistingArtifacts <;>
      simp [classifyAlreadyExists, classifyAlreadyExists.conflict, classifyAssetConflict]
  | some a =>
    obtain ⟨size, uploaded, digest⟩ := a
    cases uploaded with
    | false => simp [classifyAlreadyExists]
    | true =>
      by_cases hsize : size = data.length
      · subst hsize
        cases digest with
        | none =>
          simp [classifyAlreadyExists, classifyAlreadyExists.conflict, classifyAssetConflict,
            Holds, hfile]
        | some d =>
          cases hmatch : digestsMatch d (req.sha256 data) <;>
            cases hreplace : req.replaceExistingArtifacts <;>
            simp [classifyAlreadyExists, Holds, Differs, hfile, hmatch]
      · cases hreplace : req.replaceExistingArtifacts <;> cases digest <;>
          simp [classifyAlreadyExists, classifyAlreadyExists.conflict, classifyAssetConflict,
            Differs, hfile, hsize]

/-- A recovery is careful, and succeeds only with the local file held. -/
theorem recover_spec (hfile : req.file = .ok data) (attempt : ℕ) (replies : Replies)
    (err : OctocrabError) (held : Option Asset) :
    let r := recover req attempt replies data.length err held
    (r.2.1.filter Event.isPost).length ≤ 1 ∧
      (∀ a, .delete (some a) ∈ r.2.1 → a.uploaded →
        req.replaceExistingArtifacts ∧ Differs req a) ∧
      (∀ a, .probe (some a) ∈ r.2.1 → ¬ a.uploaded → .delete (some a) ∈ r.2.1) ∧
      ∀ b, r.2.2 = .done b → (∀ e ∈ r.2.1, e.Honest) → Holds req r.1 := by
  have hspec := classifyAlreadyExists_spec held hfile
  rw [recover]
  cases replies.probe with
  | error e => simp
  | ok u =>
    simp only [hash_eq hfile]
    generalize classifyAlreadyExists .. = action at hspec ⊢
    cases action with
    | skipIdempotent =>
      refine ⟨by simp [Event.isPost], by simp, ?_, fun _ _ _ => hspec⟩
      intro a ha hpartial
      obtain ⟨-, -, a', rfl, huploaded, -⟩ := hspec
      obtain rfl : a = a' := by simpa using ha
      exact absurd huploaded hpartial
    | bailReplaceForbidden =>
      refine ⟨by simp [Event.isPost], by simp, ?_, fun b h => by cases h⟩
      intro a ha hpartial
      obtain rfl : some a = held := by simpa using ha
      exact absurd (hspec a rfl) hpartial
    | deleteAndRetry =>
      cases hdelete : replies.delete with
      | failed e removed =>
        refine ⟨by simp [Event.isPost], ?_, ?_, fun b h => by cases h⟩
        · intro a ha
          exact hspec a (by simpa [eq_comm] using ha)
        · intro a ha _
          simpa using ha
      | deleted =>
        simp only [hfile, DeleteReply.apply]
        refine ⟨le_of_eq rfl, ?_, ?_, ?_⟩
        · intro a ha
          exact hspec a (by simpa [eq_comm] using ha)
        · intro a ha _
          simpa using ha
        · intro b hdone honest
          have hpost := honest (.post none replies.second) (by simp) (settle_done hdone)
          obtain ⟨-, exposes, heffect⟩ := hpost
          exact holds_stored hfile heffect

theorem uploadAttempt_spec (req : UploadAssetRequest) (attempt : ℕ) (replies : Replies)
    (held : Option Asset) :
    let r := uploadAttempt req attempt replies held
    Careful req r.2.1 ∧ ∀ b, r.2.2 = .done b → (∀ e ∈ r.2.1, e.Honest) → Holds req r.1 := by
  have hquiet : Careful req [.post held replies.first] :=
    ⟨Nat.le_succ 1, by simp, by simp⟩
  rw [uploadAttempt]
  cases hfile : req.file with
  | error e => exact ⟨⟨by simp, by simp, by simp⟩, fun b h => by cases h⟩
  | ok data =>
    cases hanswer : replies.first.answer with
    | ok u =>
      refine ⟨hquiet, fun b _ honest => ?_⟩
      have hpost := honest (.post held replies.first) (by simp) (by rw [hanswer])
      obtain ⟨rfl, exposes, heffect⟩ := hpost
      exact holds_stored hfile heffect
    | error err =>
      by_cases hexists : classifyUploadAttempt (.error err) = .alreadyExists
      · dsimp only
        rw [if_pos hexists]
        obtain ⟨hposts, hpublished, hdebris, hdone⟩ :=
          recover_spec hfile attempt replies err (replies.first.apply req data held)
        refine ⟨⟨?_, ?_, ?_⟩, fun b h honest => hdone b h fun e he =>
          honest e (List.mem_cons_of_mem _ he)⟩
        · rw [List.filter_cons_of_pos (by rfl), List.length_cons]
          omega
        · intro a ha
          exact hpublished a (by simpa using ha)
        · intro a ha hpartial
          exact List.mem_cons_of_mem _ (hdebris a (by simpa using ha) hpartial)
      · dsimp only
        rw [if_neg hexists]
        refine ⟨hquiet, fun b h => ?_⟩
        have hok : (.error err : Except OctocrabError Unit) = .ok () := settle_done h
        cases hok

end Spec

/-- An upload makes a bounded number of careful attempts, and ends well only with the local file
held, if every post that answers success has taken effect. -/
theorem uploadReleaseAsset_sound (req : UploadAssetRequest) (replies : ℕ → Replies)
    (held : Option Asset) :
    let run := uploadRun req replies held
    run.log.length ≤ max req.maxAttempts 3 ∧ (∀ events ∈ run.log, Careful req events) ∧
      ((∀ events ∈ run.log, ∀ e ∈ events, e.Honest) →
        ∀ outcome, uploadReleaseAsset req replies held = .ok outcome → Holds req run.state) := by
  have hattempt := fun n s => uploadAttempt_spec req n (replies n) s
  refine ⟨?_, ?_, ?_⟩
  · have hlength := Attempts.length_log_le
      (fun attempt => uploadAttempt req attempt (replies attempt))
      (max (maxUploadAttempts req) 1 - 1) 1 held
    rw [uploadRun]
    rw [maxUploadAttempts, minUploadTransientAttempts] at hlength ⊢
    omega
  · exact Attempts.forall_log _ (fun n s => (hattempt n s).1) _ _ _
  · intro honest outcome hok
    rw [uploadReleaseAsset] at hok
    split at hok
    · rename_i disposition hresult
      obtain ⟨n, s, events, hevents, hop⟩ := Attempts.exists_done _ _ _ _ hresult
      have hdone := (hattempt n s).2 disposition
      rw [hop] at hdone
      exact hdone rfl (honest events hevents)
    · cases hok
    · cases hok

/-- A server that answers success without taking the post is believed. -/
theorem not_uploadReleaseAsset_holds : ¬ ∀ (req : UploadAssetRequest) (replies : ℕ → Replies)
    (held : Option Asset) (outcome : UploadOutcome),
      uploadReleaseAsset req replies held = .ok outcome →
        Holds req (uploadRun req replies held).state := by
  intro h
  let req : UploadAssetRequest :=
    ⟨"o", "r", "v1.0.0", "dist/app.tar.gz", "app.tar.gz", false, 1, none, .ok [], fun _ => ""⟩
  let ignored : PostReply := ⟨.refused, .ok ()⟩
  have hholds := h req (fun _ => ⟨ignored, .ok (), .deleted, ignored, fun _ => none⟩) none
    (.uploaded "app.tar.gz") rfl
  obtain ⟨-, -, a, hnone, -⟩ := hholds
  cases hnone

end AssetUpload

end Anodizer
