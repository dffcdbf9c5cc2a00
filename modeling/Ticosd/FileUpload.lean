import Ticosd.TxQueue

/-! # Upload — `ticosd_network_file_upload` of `network.c`

    A file is sent in three requests: one for the address to send it to, the file
    itself, and one to commit it.  Each of them can end the upload with an error
    to be retried, or with one that is not worth a retry; the file is removed at
    the end, and only there.

    The replies of the server, the allocator and the file system are outside:
    `UploadEnv` has their answers. -/

namespace FileUpload

open TxQueue

/-- The reply to a request: whether `curl_easy_perform` gave `CURLE_OK`, the HTTP
    code, and whether the body is JSON with the wanted URL in it. -/
structure Reply where
  performed : Bool
  httpCode : Int
  parses : Bool

/-- What the surroundings of an upload answer. -/
structure UploadEnv where
  stat : Bool
  /-- The allocations: the query, and the URL of the first request. -/
  query : Bool
  prepareUrl : Bool
  prepare : Reply
  upload : Reply
  /-- The allocations: the payload and the URL of the last request. -/
  commitPayload : Bool
  commitUrl : Bool
  commit : Reply
  unlink : Bool

/-- `prv_check_error`. -/
def prvCheckError (r : Reply) : NetworkResult :=
  if r.performed = false then .errorRetryLater
  else if 400 ≤ r.httpCode ∧ r.httpCode ≤ 499 then .errorNoRetry
  else if 500 ≤ r.httpCode ∧ r.httpCode ≤ 599 then .errorRetryLater
  else .ok

/-- `ticosd_network_post`; `url` is the allocation of the URL. -/
def ticosdNetworkPost (url : Bool) (r : Reply) : NetworkResult :=
  if url = false then .errorRetryLater else prvCheckError r

/-- `prv_file_upload_prepare`. -/
def prvFileUploadPrepare (env : UploadEnv) : NetworkResult :=
  match ticosdNetworkPost env.prepareUrl env.prepare with
  | .ok => if env.prepare.parses = false then .errorRetryLater else .ok
  | rc => rc

/-- `prv_file_upload`: the body is parsed whatever the HTTP code is. -/
def prvFileUpload (env : UploadEnv) : NetworkResult :=
  if env.upload.parses = false then .errorRetryLater else prvCheckError env.upload

/-- `prv_file_upload_commit`. -/
def prvFileUploadCommit (env : UploadEnv) : NetworkResult :=
  if env.commitPayload = false then .errorRetryLater
  else ticosdNetworkPost env.commitUrl env.commit

/-- `ticosd_network_file_upload`: the result, and whether the file is removed. -/
def ticosdNetworkFileUpload (env : UploadEnv) : NetworkResult × Bool :=
  if env.stat = false then (.errorNoRetry, false)
  else if env.query = false then (.errorRetryLater, false)
  else match prvFileUploadPrepare env with
    | .ok => match prvFileUpload env with
      | .ok => match prvFileUploadCommit env with
        | .ok => (.ok, env.unlink)
        | rc => (rc, false)
      | rc => (rc, false)
    | rc => (rc, false)

/-- The upload does not end for good with the file in place: the file can be
    examined, no request that is made is answered with a client error, and a file
    that has been committed can be removed. -/
def UploadOk (env : UploadEnv) : Prop :=
  env.stat = true ∧ (env.query = true →
    prvFileUploadPrepare env ≠ .errorNoRetry ∧ (prvFileUploadPrepare env = .ok →
      prvFileUpload env ≠ .errorNoRetry ∧ (prvFileUpload env = .ok →
        prvFileUploadCommit env ≠ .errorNoRetry ∧ (prvFileUploadCommit env = .ok →
          env.unlink = true))))

instance (env : UploadEnv) : Decidable (UploadOk env) :=
  inferInstanceAs (Decidable (_ ∧ (_ → _)))

/-- **The condition is exact**: it says that the upload asks for a retry or removes
    the file. -/
theorem uploadOk_iff (env : UploadEnv) :
    UploadOk env ↔ (ticosdNetworkFileUpload env).1 = .errorRetryLater ∨
      ticosdNetworkFileUpload env = (.ok, true) := by
  rw [UploadOk, ticosdNetworkFileUpload]
  cases env.stat with
  | false => simp
  | true =>
      cases env.query with
      | false => simp
      | true =>
          cases prvFileUploadPrepare env with
          | errorRetryLater => simp
          | errorNoRetry => simp
          | ok =>
              cases prvFileUpload env with
              | errorRetryLater => simp
              | errorNoRetry => simp
              | ok => cases prvFileUploadCommit env <;> simp

end FileUpload
