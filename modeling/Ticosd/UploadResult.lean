import Ticosd.ConfigMerge
import Ticosd.FileUpload
import Ticosd.QueueView

/-! # The result of an upload — three exchanges, two ways to classify an error

    `FileUpload` follows `ticosd_network_file_upload` on replies whose bodies are usable or
    not.  Here the replies are what an HTTP exchange brings, and the two functions that
    take a URL out of a body are the source's; `json_tokener_parse` is a parameter.

    `outcome` says what an exchange amounts to, `decided` that the first one that does not
    succeed gives the result.  The first and the third request follow that.  The second
    one parses its body also after an error and forgets the error when the body is
    unusable: a refused upload is then retried (`decidedByFirst_iff`). -/

namespace UploadResult

open ConfigMerge TxQueue FileUpload QueueModel QueueView

/-- An HTTP exchange: whether `curl_easy_perform` gave `CURLE_OK`, the code, and the text
    in the receive buffer after it. -/
structure Exchange where
  performed : Bool
  httpCode : Int
  body : List UInt8

/-! ## Bodies -/

/-- The string under `field` of a response. -/
def parseUrl (field : String) (tokener : List UInt8 → Option Json) (recvdata : List UInt8) :
    Option String :=
  match tokener recvdata with
  | some (.object payload) =>
      match objectGet payload field with
      | some (.string url) => some url
      | _ => none
  | _ => none

/-- `prv_parse_file_upload_prepare_response`. -/
def prvParseFileUploadPrepareResponse (tokener : List UInt8 → Option Json) :
    List UInt8 → Option String :=
  parseUrl "upload_url" tokener

/-- `prv_parse_file_upload_response`. -/
def prvParseFileUploadResponse (tokener : List UInt8 → Option Json) :
    List UInt8 → Option String :=
  parseUrl "url" tokener

section Upload

variable (tokener : List UInt8 → Option Json)

/-- The three exchanges of an upload, and whether the `unlink` at its end would work. -/
structure Exchanges where
  prepare : Exchange
  upload : Exchange
  commit : Exchange
  unlink : Bool

/-- The upload of a file that is there, without a failing allocation.  Nobody parses the
    body of the last response. -/
def uploadEnv (x : Exchanges) : UploadEnv where
  stat := true
  query := true
  prepareUrl := true
  prepare := ⟨x.prepare.performed, x.prepare.httpCode,
    (prvParseFileUploadPrepareResponse tokener x.prepare.body).isSome⟩
  upload := ⟨x.upload.performed, x.upload.httpCode,
    (prvParseFileUploadResponse tokener x.upload.body).isSome⟩
  commitPayload := true
  commitUrl := true
  commit := ⟨x.commit.performed, x.commit.httpCode, true⟩
  unlink := x.unlink

/-! ## What an upload should result in -/

/-- What an exchange amounts to: no answer and a server error are worth a retry, a client
    error is not, and a success with a body that is needed and unusable is. -/
def outcome (r : Reply) : NetworkResult :=
  if r.performed = false then .errorRetryLater
  else if 400 ≤ r.httpCode ∧ r.httpCode ≤ 499 then .errorNoRetry
  else if 500 ≤ r.httpCode ∧ r.httpCode ≤ 599 then .errorRetryLater
  else if r.parses = false then .errorRetryLater
  else .ok

/-- The first outcome that is no success, if there is one. -/
def decided (outcomes : List NetworkResult) : NetworkResult :=
  (outcomes.find? (fun rc => decide (rc ≠ .ok))).getD .ok

/-- The outcomes of the three exchanges, in order. -/
def outcomes (x : Exchanges) : List NetworkResult :=
  [outcome (uploadEnv tokener x).prepare, outcome (uploadEnv tokener x).upload,
    outcome (uploadEnv tokener x).commit]

/-- The first exchange that does not succeed decides the result, and the file is removed
    exactly with the result `OK`. -/
def DecidedByFirst (x : Exchanges) : Prop :=
  (ticosdNetworkFileUpload (uploadEnv tokener x)).1 = decided (outcomes tokener x) ∧
    ((ticosdNetworkFileUpload (uploadEnv tokener x)).2 = true ↔
      (ticosdNetworkFileUpload (uploadEnv tokener x)).1 = .ok)

/-- The file itself is refused for good, in a response without a usable body. -/
def RefusedWithoutUrl (x : Exchanges) : Prop :=
  outcome (uploadEnv tokener x).prepare = .ok ∧ x.upload.performed = true ∧
    (400 ≤ x.upload.httpCode ∧ x.upload.httpCode ≤ 499) ∧
    prvParseFileUploadResponse tokener x.upload.body = none

instance (x : Exchanges) : Decidable (RefusedWithoutUrl tokener x) :=
  inferInstanceAs (Decidable (_ ∧ _ ∧ _ ∧ _))

/-! ## The three requests -/

variable {tokener}

@[simp] theorem decided_nil : decided [] = .ok := rfl

@[simp] theorem decided_ok (rcs : List NetworkResult) : decided (.ok :: rcs) = decided rcs := rfl

theorem decided_error {rc : NetworkResult} (h : rc ≠ .ok) (rcs : List NetworkResult) :
    decided (rc :: rcs) = rc := by
  rw [decided, List.find?_cons_of_pos (by simpa using h)]
  rfl

/-- An exchange is classified by its code before its body counts. -/
theorem outcome_checked (r : Reply) : outcome r = match prvCheckError r with
    | .ok => if r.parses = false then .errorRetryLater else .ok
    | rc => rc := by
  simp only [outcome, prvCheckError]
  split_ifs <;> rfl

/-- The first request keeps to that order. -/
theorem prepare_outcome (x : Exchanges) :
    prvFileUploadPrepare (uploadEnv tokener x) = outcome (uploadEnv tokener x).prepare := by
  rw [outcome_checked]
  rfl

/-- The last request has no body to look at. -/
theorem commit_outcome (x : Exchanges) :
    prvFileUploadCommit (uploadEnv tokener x) = outcome (uploadEnv tokener x).commit := by
  have hcommit : prvFileUploadCommit (uploadEnv tokener x)
      = prvCheckError (uploadEnv tokener x).commit := rfl
  have hparses : (uploadEnv tokener x).commit.parses = true := rfl
  rw [outcome_checked, hcommit, hparses]
  cases prvCheckError (uploadEnv tokener x).commit <;> rfl

/-- The second request looks at the body whatever the code is. -/
theorem upload_outcome (r : Reply) :
    (if r.parses = false then .errorRetryLater else prvCheckError r) =
      if r.parses = false ∧ prvCheckError r = .errorNoRetry then .errorRetryLater
      else outcome r := by
  rw [outcome_checked]
  cases r.parses with
  | true => cases prvCheckError r <;> simp
  | false => cases prvCheckError r <;> simp

theorem checkError_noRetry {r : Reply} : prvCheckError r = .errorNoRetry ↔
    r.performed = true ∧ 400 ≤ r.httpCode ∧ r.httpCode ≤ 499 := by
  rw [prvCheckError]
  cases r.performed with
  | false => simp
  | true =>
      by_cases h : 400 ≤ r.httpCode ∧ r.httpCode ≤ 499
      · simp [h]
      · simp only [Bool.true_eq_false, if_false, true_and, h, iff_false]
        split <;> simp

/-- The refusal, in terms of the two tests of the second request. -/
theorem refused_iff (x : Exchanges) : RefusedWithoutUrl tokener x ↔
    outcome (uploadEnv tokener x).prepare = .ok ∧ (uploadEnv tokener x).upload.parses = false ∧
      prvCheckError (uploadEnv tokener x).upload = .errorNoRetry := by
  have hparses : (uploadEnv tokener x).upload.parses = false ↔
      prvParseFileUploadResponse tokener x.upload.body = none :=
    Option.isSome_eq_false_iff.trans Option.isNone_iff_eq_none
  rw [checkError_noRetry, hparses]
  exact and_congr_right (fun _ => ⟨fun h => ⟨h.2.2, h.1, h.2.1⟩, fun h => ⟨h.2.1, h.2.2, h.1⟩⟩)

/-! ## The result -/

/-- The result of the upload is that of the first request that does not succeed. -/
theorem upload_first (x : Exchanges) :
    ticosdNetworkFileUpload (uploadEnv tokener x) =
      (decided [prvFileUploadPrepare (uploadEnv tokener x), prvFileUpload (uploadEnv tokener x),
          prvFileUploadCommit (uploadEnv tokener x)],
        decide (decided [prvFileUploadPrepare (uploadEnv tokener x),
          prvFileUpload (uploadEnv tokener x),
          prvFileUploadCommit (uploadEnv tokener x)] = .ok) && x.unlink) := by
  have hstat : (uploadEnv tokener x).stat = true := rfl
  have hquery : (uploadEnv tokener x).query = true := rfl
  have hunlink : (uploadEnv tokener x).unlink = x.unlink := rfl
  rw [ticosdNetworkFileUpload, hstat, hquery, hunlink, if_neg (by simp), if_neg (by simp)]
  cases prvFileUploadPrepare (uploadEnv tokener x) with
  | errorRetryLater => rfl
  | errorNoRetry => rfl
  | ok =>
      cases prvFileUpload (uploadEnv tokener x) with
      | errorRetryLater => rfl
      | errorNoRetry => rfl
      | ok => cases prvFileUploadCommit (uploadEnv tokener x) <;> rfl

/-- Without the refusal that is the first exchange that does not succeed. -/
theorem upload_decided {x : Exchanges} (h : ¬ RefusedWithoutUrl tokener x) :
    ticosdNetworkFileUpload (uploadEnv tokener x) = (decided (outcomes tokener x),
      decide (decided (outcomes tokener x) = .ok) && x.unlink) := by
  have hsame : decided [prvFileUploadPrepare (uploadEnv tokener x),
      prvFileUpload (uploadEnv tokener x), prvFileUploadCommit (uploadEnv tokener x)]
      = decided (outcomes tokener x) := by
    rw [prepare_outcome, commit_outcome, outcomes]
    by_cases hprep : outcome (uploadEnv tokener x).prepare = .ok
    · have hno : ¬ ((uploadEnv tokener x).upload.parses = false ∧
          prvCheckError (uploadEnv tokener x).upload = .errorNoRetry) :=
        fun hr => h ((refused_iff x).mpr ⟨hprep, hr⟩)
      rw [prvFileUpload, upload_outcome, if_neg hno]
    · rw [decided_error hprep, decided_error hprep]
  rw [upload_first, hsame]

/-- After the refusal the upload asks for a retry. -/
theorem upload_refused {x : Exchanges} (h : RefusedWithoutUrl tokener x) :
    ticosdNetworkFileUpload (uploadEnv tokener x) = (.errorRetryLater, false) := by
  obtain ⟨hprep, hparses, -⟩ := (refused_iff x).mp h
  rw [upload_first, prepare_outcome, hprep, prvFileUpload, hparses, if_pos rfl, decided_ok,
    decided_error (by simp)]
  rfl

/-- A refusal is the outcome of the upload exchange. -/
theorem RefusedWithoutUrl.refused {x : Exchanges} (h : RefusedWithoutUrl tokener x) :
    outcome (uploadEnv tokener x).upload = .errorNoRetry := by
  rw [outcome_checked, ((refused_iff x).mp h).2.2]

/-- **The first failing exchange decides, unless the file is refused in a response without
    a usable body.**  The file of a successful upload has to be removable, too. -/
theorem decidedByFirst_iff (tokener : List UInt8 → Option Json) (x : Exchanges) :
    DecidedByFirst tokener x ↔ ¬ RefusedWithoutUrl tokener x ∧
      (decided (outcomes tokener x) = .ok → x.unlink = true) := by
  by_cases h : RefusedWithoutUrl tokener x
  · have hnot : decided (outcomes tokener x) = .errorNoRetry := by
      rw [outcomes, h.1, h.refused, decided_ok, decided_error (by simp)]
    simp [DecidedByFirst, upload_refused h, hnot, h]
  · simp only [DecidedByFirst, upload_decided h, h, not_false_eq_true, true_and,
      Bool.and_eq_true, decide_eq_true_eq]
    constructor
    · intro hiff hok
      exact (hiff.mpr hok).2
    · intro hun
      exact ⟨fun hr => hr.1, fun hok => ⟨hok, hun hok⟩⟩

/-- A server whose bodies are never JSON, and that refuses the file. -/
def refusingServer : Exchanges where
  prepare := ⟨true, 200, [0x7b]⟩
  upload := ⟨true, 413, []⟩
  commit := ⟨true, 200, []⟩
  unlink := true

/-- A tokener that knows the one response to the first request. -/
def sampleTokener : List UInt8 → Option Json
  | [0x7b] => some (.object [("upload_url", .string "http://files/1")])
  | _ => none

/-- **HTTP code 413 to the file itself** with an empty body: the result is a retry. -/
theorem refusal_retried :
    ¬ DecidedByFirst sampleTokener refusingServer ∧
      outcomes sampleTokener refusingServer = [.ok, .errorNoRetry, .ok] ∧
      ticosdNetworkFileUpload (uploadEnv sampleTokener refusingServer)
        = (.errorRetryLater, false) := by
  have hres : ticosdNetworkFileUpload (uploadEnv sampleTokener refusingServer)
      = (.errorRetryLater, false) := by decide +kernel
  have hout : outcomes sampleTokener refusingServer = [.ok, .errorNoRetry, .ok] := by
    decide +kernel
  refine ⟨fun h => ?_, hout, hres⟩
  have := h.1
  rw [hres, hout] at this
  exact nomatch this

/-! ## The transmit loop behind it -/

/-- **A message that is worth a retry stays at the head**: the loop ends there, and neither
    the buffer nor the pointers have changed. -/
theorem retry_stays {env : TxEnv} {q : TicosdQueue} {entry : List UInt8} (fuel count : Nat)
    (hhead : (ticosdQueueReadHead q (env.malloc count)).val.1 = some entry)
    (hsend : sendEntry env count entry = .errorRetryLater) :
    processTxLoop env (fuel + 1) count q
      = some (false, count, { q with canCompleteRead := true }) := by
  rw [readHead_val] at hhead
  rw [processTxLoop]
  simp only [readHead_val]
  split at hhead
  · exact nomatch hhead
  · rename_i hc
    rw [if_neg hc]
    simp only [Option.some.inj hhead, hsend, if_true]

/-- A file that is refused in a response without a usable body is sent again in every
    later round of the loop. -/
theorem refused_stays {env : TxEnv} {q : TicosdQueue} {entry : List UInt8} (fuel count : Nat)
    {x : Exchanges} {request : Request} (hx : RefusedWithoutUrl tokener x)
    (hhead : (ticosdQueueReadHead q (env.malloc count)).val.1 = some entry)
    (hreq : requestOf env entry = some request)
    (hnet : env.network count request = (ticosdNetworkFileUpload (uploadEnv tokener x)).1) :
    processTxLoop env (fuel + 1) count q
      = some (false, count, { q with canCompleteRead := true }) := by
  refine retry_stays fuel count hhead ?_
  rw [sendEntry, hreq]
  simp only [hnet, upload_refused hx, ite_self]

end Upload

end UploadResult
