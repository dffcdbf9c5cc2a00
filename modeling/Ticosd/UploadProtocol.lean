import Ticosd.CoreQuota
import Ticosd.UploadResult
import Ticosd.Decimal

/-! # The upload protocol — a core is with the server before its file is removed

    `FileUpload` and `UploadResult` follow an upload on what its exchanges bring.  Here the
    requests are the ones of `network.c`, with their URLs, headers and bodies, and the other
    side is a server with a state: any request may be lost, carried out without an answer,
    or answered with anything.  What the server has to keep to (`Serves`) is that it does
    not forget, that it has the file of an upload that it answers with success and a URL,
    and that it has committed a URL when it answers so.

    `upload_ok` is one upload: with the result `OK` the server has committed the URL under
    which it holds this file, with the encoding of this file.  `core_kept` is every run:
    cores are written and queued, uploaded, retried, and uploaded again, and at any time
    each core that has been queued is still a file or with the server. -/

namespace UploadProtocol

open ConfigMerge TxQueue FileUpload UploadResult GuardedRun
open CoreFiles (Path)

/-! ## The requests -/

/-- `eTicosdHttpMethod`. -/
inductive Method where
  | get
  | post
  | patch
  deriving DecidableEq

/-- `prv_method_as_string`. -/
def Method.asString : Method → String
  | .get => "GET"
  | .post => "POST"
  | .patch => "PATCH"

/-- The body of a request: JSON text, or the form of a core file. -/
inductive Body where
  | none
  | json (text : String)
  | coredump (file : List UInt8)
  deriving DecidableEq

/-- A request as libcurl is told to make it. -/
structure HttpRequest where
  method : Method
  url : String
  headers : List String
  body : Body
  deriving DecidableEq

/-- `sTicosdNetwork`, and the device settings that the requests use. -/
structure Network where
  baseUrl : String
  softwareType : String
  softwareVersion : String
  projectKeyHeader : String
  deviceId : String
  hardwareVersion : String

/-- The request of `ticosd_network_post`. -/
def postRequest (net : Network) (endpoint : String) (method : Method) (payload : String) :
    HttpRequest where
  method := method
  url := net.baseUrl ++ endpoint
  headers := (if method ≠ .get then ["Accept: application/json", "Content-Type: application/json"]
    else []) ++ ["charset: utf-8", "X-Tiwater-Debug: true", net.projectKeyHeader]
  body := if method ≠ .get then .json payload else .none

/-- The path of the first request. -/
def preparePath (net : Network) : String :=
  "/chunks/" ++ net.deviceId ++ "/fileUrl?type=Coredump&hardwareVersion=" ++ net.hardwareVersion ++
    "&softwareType=" ++ net.softwareType ++ "&softwareVersion=" ++ net.softwareVersion

/-- The request of `prv_file_upload`. -/
def uploadRequest (url : String) (file : List UInt8) (isGzipped : Bool) : HttpRequest where
  method := .post
  url := url
  headers := (if isGzipped then ["Content-Encoding: gzip"] else []) ++ ["X-Tiwater-Debug: true"]
  body := .coredump file

/-- The payload of the last request.  The size is printed with `%d`. -/
def commitPayload (url : String) (filesize : Nat) : String :=
  "\x7b  \"url\": \"" ++ url ++ "\",  \"kind\": \"COREDUMP\",  \"size\": " ++
    toString (Decimal.toInt32 filesize) ++ "\x7d"

/-! ## An upload -/

section Upload

-- the other side: its state after a request, and what comes back
variable {S : Type} (tokener : List UInt8 → Option Json) (serve : S → HttpRequest → S × Exchange)

/-- `prv_check_error` of an exchange. -/
def checked (x : Exchange) : NetworkResult := prvCheckError ⟨x.performed, x.httpCode, true⟩

/-- `ticosd_network_post`: its result, the data received, and the server; `url` is the
    allocation of the URL. -/
def ticosdNetworkPost (net : Network) (url : Bool) (endpoint : String) (method : Method)
    (payload : String) (s : S) : NetworkResult × List UInt8 × S :=
  if url = false then (.errorRetryLater, [], s)
  else
    let r := serve s (postRequest net endpoint method payload)
    (checked r.2, r.2.body, r.1)

/-- What comes of a request for a URL: the URL, or the result to give up with. -/
def urlOr (rc : NetworkResult) (url : Option String) : NetworkResult ⊕ String :=
  if rc = .ok then url.elim (.inl .errorRetryLater) .inr else .inl rc

/-- `prv_file_upload_prepare`. -/
def prvFileUploadPrepare (net : Network) (url : Bool) (s : S) : (NetworkResult ⊕ String) × S :=
  let r := ticosdNetworkPost serve net url (preparePath net) .get "" s
  (urlOr r.1 (prvParseFileUploadPrepareResponse tokener r.2.1), r.2.2)

/-- `prv_file_upload`: the body is parsed whatever the HTTP code is. -/
def prvFileUpload (uploadUrl : String) (file : List UInt8) (isGzipped : Bool) (s : S) :
    (NetworkResult ⊕ String) × S :=
  let r := serve s (uploadRequest uploadUrl file isGzipped)
  let url := prvParseFileUploadResponse tokener r.2.body
  (urlOr (if url.isSome then checked r.2 else .errorRetryLater) url, r.1)

/-- `prv_file_upload_commit`. -/
def prvFileUploadCommit (net : Network) (payload url : Bool) (endpoint fileUrl : String)
    (filesize : Nat) (s : S) : NetworkResult × S :=
  if payload = false then (.errorRetryLater, s)
  else
    let r := ticosdNetworkPost serve net url endpoint .post (commitPayload fileUrl filesize) s
    (r.1, r.2.2)

/-- The allocations of an upload, as in `UploadEnv`. -/
structure Allocations where
  query : Bool
  prepareUrl : Bool
  commitPayload : Bool
  commitUrl : Bool

/-- An upload goes on with the URL, or is over. -/
def andThen (r : (NetworkResult ⊕ String) × S) (next : String → S → NetworkResult × S) :
    NetworkResult × S :=
  r.1.elim (fun rc => (rc, r.2)) fun url => next url r.2

/-- `ticosd_network_file_upload` of a file, if it is there: the result and the server. -/
def ticosdNetworkFileUpload (net : Network) (alloc : Allocations) (commitEndpoint : String)
    (file : Option (List UInt8)) (isGzipped : Bool) (s : S) : NetworkResult × S :=
  file.elim (.errorNoRetry, s) fun bytes =>
    if alloc.query = false then (.errorRetryLater, s)
    else
      andThen (prvFileUploadPrepare tokener serve net alloc.prepareUrl s) fun uploadUrl s =>
        andThen (prvFileUpload tokener serve uploadUrl bytes isGzipped s) fun url s =>
          prvFileUploadCommit serve net alloc.commitPayload alloc.commitUrl commitEndpoint url
            bytes.length s

/-- What the server keeps to: what it holds, a file under a URL with its encoding, and what
    it has committed, stay; it holds the file of an upload that it answers with success and
    a URL, and has committed the URL of a commit that it answers with success. -/
structure Serves (holds : S → String → List UInt8 → Bool → Prop) (committed : S → String → Prop) :
    Prop where
  holds_stays : ∀ s request url file isGzipped, holds s url file isGzipped →
    holds (serve s request).1 url file isGzipped
  committed_stays : ∀ s request url, committed s url → committed (serve s request).1 url
  stores : ∀ s uploadUrl file isGzipped url,
    checked (serve s (uploadRequest uploadUrl file isGzipped)).2 = .ok →
    prvParseFileUploadResponse tokener
      (serve s (uploadRequest uploadUrl file isGzipped)).2.body = some url →
    holds (serve s (uploadRequest uploadUrl file isGzipped)).1 url file isGzipped
  commits : ∀ s net endpoint url filesize,
    checked (serve s (postRequest net endpoint .post (commitPayload url filesize))).2 = .ok →
    committed (serve s (postRequest net endpoint .post (commitPayload url filesize))).1 url

variable {tokener serve} {holds : S → String → List UInt8 → Bool → Prop}
  {committed : S → String → Prop} {net : Network} {alloc : Allocations} {commitEndpoint : String}
  {isGzipped : Bool} {s : S}

theorem post_keeps (Keeps : S → Prop) (hkeeps : ∀ s request, Keeps s → Keeps (serve s request).1)
    (url : Bool) (endpoint : String) (method : Method) (payload : String) (hs : Keeps s) :
    Keeps (ticosdNetworkPost serve net url endpoint method payload s).2.2 := by
  rw [ticosdNetworkPost]
  split
  · exact hs
  · exact hkeeps _ _ hs

theorem andThen_keeps {Keeps : S → Prop} {r : (NetworkResult ⊕ String) × S}
    {next : String → S → NetworkResult × S} (hr : Keeps r.2)
    (hnext : ∀ url s, Keeps s → Keeps (next url s).2) : Keeps (andThen r next).2 := by
  obtain ⟨rc | url, s⟩ := r
  · exact hr
  · exact hnext url s hr

/-- What every request keeps, an upload keeps, wherever it ends. -/
theorem upload_keeps {Keeps : S → Prop} (hkeeps : ∀ s request, Keeps s → Keeps (serve s request).1)
    (file : Option (List UInt8)) (hs : Keeps s) :
    Keeps (ticosdNetworkFileUpload tokener serve net alloc commitEndpoint file isGzipped s).2 := by
  cases file with
  | none => exact hs
  | some bytes =>
      rw [ticosdNetworkFileUpload, Option.elim_some]
      split
      · exact hs
      · refine andThen_keeps (post_keeps Keeps hkeeps _ _ _ _ hs) fun uploadUrl s₁ hs₁ => ?_
        refine andThen_keeps (hkeeps _ _ hs₁) fun url s₂ hs₂ => ?_
        rw [prvFileUploadCommit]
        split
        · exact hs₂
        · exact post_keeps Keeps hkeeps _ _ _ _ hs₂

/-- A result is a URL only if it is `OK`. -/
theorem urlOr_inr {rc : NetworkResult} {url : Option String} {u : String}
    (h : urlOr rc url = .inr u) : rc = .ok ∧ url = some u := by
  rw [urlOr] at h
  split at h
  · rename_i hok
    cases url with
    | none => cases h
    | some v => exact ⟨hok, congrArg some (Sum.inr.inj h)⟩
  · cases h

theorem urlOr_inl {rc rc' : NetworkResult} {url : Option String} (h : urlOr rc url = .inl rc') :
    rc' ≠ .ok := by
  rw [urlOr] at h
  split at h
  · cases url with
    | none =>
        rw [← Sum.inl.inj h]
        exact NetworkResult.noConfusion
    | some v => cases h
  · rename_i hne
    rw [← Sum.inl.inj h]
    exact hne

/-- An upload that ends with `OK` has gone on. -/
theorem andThen_ok {rc : NetworkResult} {url : Option String}
    {next : String → S → NetworkResult × S} (h : (andThen (urlOr rc url, s) next).1 = .ok) :
    ∃ u, rc = .ok ∧ url = some u ∧ andThen (urlOr rc url, s) next = next u s := by
  cases hr : urlOr rc url with
  | inl rc' =>
      rw [hr] at h
      exact absurd h (urlOr_inl hr)
  | inr u => exact ⟨u, (urlOr_inr hr).1, (urlOr_inr hr).2, rfl⟩

/-- A commit with the result `OK` has been answered with success. -/
theorem commit_ok (hserves : Serves tokener serve holds committed) {payload urlAlloc : Bool}
    {url : String} {size : Nat}
    (hok : (prvFileUploadCommit serve net payload urlAlloc commitEndpoint url size s).1 = .ok) :
    committed (prvFileUploadCommit serve net payload urlAlloc commitEndpoint url size s).2 url := by
  rw [prvFileUploadCommit] at hok ⊢
  by_cases hpayload : payload = false
  · rw [if_pos hpayload] at hok
    cases hok
  · rw [if_neg hpayload] at hok ⊢
    rw [ticosdNetworkPost] at hok ⊢
    by_cases hurl : urlAlloc = false
    · rw [if_pos hurl] at hok
      cases hok
    · rw [if_neg hurl] at hok ⊢
      exact hserves.commits _ _ _ _ _ hok

/-- **An upload with the result `OK`**: the server holds the file, with its encoding, under
    a URL that it has committed. -/
theorem upload_ok (hserves : Serves tokener serve holds committed) {file : Option (List UInt8)}
    (hok : (ticosdNetworkFileUpload tokener serve net alloc commitEndpoint file isGzipped s).1
      = .ok) :
    ∃ bytes url, file = some bytes ∧
      holds (ticosdNetworkFileUpload tokener serve net alloc commitEndpoint file isGzipped s).2
        url bytes isGzipped ∧
      committed (ticosdNetworkFileUpload tokener serve net alloc commitEndpoint file
        isGzipped s).2 url := by
  cases file with
  | none => cases hok
  | some bytes =>
      rw [ticosdNetworkFileUpload, Option.elim_some] at hok ⊢
      by_cases hquery : alloc.query = false
      · rw [if_pos hquery] at hok
        cases hok
      · rw [if_neg hquery] at hok ⊢
        -- the URL to upload to, the upload, and the commit
        obtain ⟨uploadUrl, -, -, hprepared⟩ := andThen_ok hok
        rw [prvFileUploadPrepare, hprepared] at hok ⊢
        obtain ⟨url, hchecked, hurl, huploaded⟩ := andThen_ok hok
        rw [prvFileUpload, huploaded] at hok ⊢
        rw [hurl, Option.isSome_some, if_pos rfl] at hchecked
        have hstored := hserves.stores _ _ _ _ _ hchecked hurl
        refine ⟨bytes, url, rfl, ?_, commit_ok hserves hok⟩
        rw [prvFileUploadCommit]
        split
        · exact hstored
        · exact post_keeps (fun s => holds s url bytes isGzipped)
            (fun s request h => hserves.holds_stays s request url bytes isGzipped h) _ _ _ _ hstored

/-- The answers of `FileUpload` that the server gives. -/
def envOf (tokener : List UInt8 → Option Json) (serve : S → HttpRequest → S × Exchange)
    (net : Network) (alloc : Allocations) (commitEndpoint : String) (file : Option (List UInt8))
    (isGzipped : Bool) (s : S) (unlink : Bool) : UploadEnv :=
  let bytes := file.getD []
  let first := serve s (postRequest net (preparePath net) .get "")
  let uploadUrl := prvParseFileUploadPrepareResponse tokener first.2.body
  let second := serve first.1 (uploadRequest (uploadUrl.getD "") bytes isGzipped)
  let url := prvParseFileUploadResponse tokener second.2.body
  let third := serve second.1
    (postRequest net commitEndpoint .post (commitPayload (url.getD "") bytes.length))
  { stat := file.isSome
    query := alloc.query
    prepareUrl := alloc.prepareUrl
    prepare := ⟨first.2.performed, first.2.httpCode, uploadUrl.isSome⟩
    upload := ⟨second.2.performed, second.2.httpCode, url.isSome⟩
    commitPayload := alloc.commitPayload
    commitUrl := alloc.commitUrl
    commit := ⟨third.2.performed, third.2.httpCode, true⟩
    unlink := unlink }

theorem checkError_parses (x : Exchange) (parses : Bool) :
    prvCheckError ⟨x.performed, x.httpCode, parses⟩ = checked x := rfl

/-- **The result is that of `FileUpload`** on the answers that the server gives. -/
theorem upload_result (file : Option (List UInt8)) (unlink : Bool) :
    (ticosdNetworkFileUpload tokener serve net alloc commitEndpoint file isGzipped s).1
      = (FileUpload.ticosdNetworkFileUpload (envOf tokener serve net alloc commitEndpoint file
          isGzipped s unlink)).1 := by
  obtain ⟨query, prepareUrl, payload, commitUrl⟩ := alloc
  cases file with
  | none => rfl
  | some bytes =>
      cases query with
      | false => rfl
      | true =>
          cases prepareUrl with
          | false => rfl
          | true =>
              have hstart : ticosdNetworkFileUpload tokener serve net
                  ⟨true, true, payload, commitUrl⟩ commitEndpoint (some bytes) isGzipped s
                  = andThen (prvFileUploadPrepare tokener serve net true s) fun uploadUrl s =>
                      andThen (prvFileUpload tokener serve uploadUrl bytes isGzipped s) fun url s =>
                        prvFileUploadCommit serve net payload commitUrl commitEndpoint url
                          bytes.length s := rfl
              rw [hstart, prvFileUploadPrepare, ticosdNetworkPost, if_neg Bool.false_ne_true.symm]
              simp only [envOf, Option.getD_some, Option.isSome_some]
              rw [FileUpload.ticosdNetworkFileUpload, if_neg Bool.false_ne_true.symm,
                if_neg Bool.false_ne_true.symm, FileUpload.prvFileUploadPrepare,
                FileUpload.ticosdNetworkPost, if_neg Bool.false_ne_true.symm, checkError_parses]
              generalize serve s (postRequest net (preparePath net) .get "") = first
              cases checked first.2 with
              | errorRetryLater => rfl
              | errorNoRetry => rfl
              | ok =>
                  cases prvParseFileUploadPrepareResponse tokener first.2.body with
                  | none => rfl
                  | some uploadUrl =>
                      simp only [Option.getD_some, Option.isSome_some, FileUpload.prvFileUpload]
                      rw [andThen, urlOr, if_pos rfl, Option.elim_some, Sum.elim_inr]
                      rw [prvFileUpload, if_neg Bool.false_ne_true.symm, checkError_parses]
                      dsimp only
                      generalize serve first.1 (uploadRequest uploadUrl bytes isGzipped) = second
                      cases prvParseFileUploadResponse tokener second.2.body with
                      | none => rfl
                      | some url =>
                          simp only [Option.isSome_some, if_true, Bool.true_eq_false, if_false,
                            Option.getD_some]
                          cases checked second.2 with
                          | errorRetryLater => rfl
                          | errorNoRetry => rfl
                          | ok =>
                              rw [andThen, urlOr, if_pos rfl, Option.elim_some, Sum.elim_inr]
                              cases payload with
                              | false => rfl
                              | true =>
                                  cases commitUrl with
                                  | false => rfl
                                  | true =>
                                      rw [FileUpload.prvFileUploadCommit,
                                        if_neg Bool.false_ne_true.symm,
                                        FileUpload.ticosdNetworkPost,
                                        if_neg Bool.false_ne_true.symm, checkError_parses,
                                        prvFileUploadCommit, if_neg Bool.false_ne_true.symm,
                                        ticosdNetworkPost, if_neg Bool.false_ne_true.symm]
                                      dsimp only
                                      cases checked (serve second.1 (postRequest net commitEndpoint
                                        .post (commitPayload url bytes.length))).2 with
                                      | errorRetryLater => rfl
                                      | errorNoRetry => rfl
                                      | ok => rfl

/-! ## Every run -/

/-- A core that has been queued: the name of its file, its bytes, and whether they are
    compressed. -/
structure Core where
  path : Path
  bytes : List UInt8
  isGzipped : Bool
  deriving DecidableEq

/-- The files of the core directory, the cores that have been queued, and the server. -/
structure State (S : Type) where
  files : List (Path × List UInt8)
  queued : List Core
  server : S

/-- What happens: the coredump plugin has written a core and queued its name; the transmit
    thread uploads the file of an entry, and removes it if that goes well and `unlink` does;
    the server gets another request. -/
inductive Event where
  | core (core : Core)
  | upload (path : Path) (isGzipped : Bool) (alloc : Allocations) (unlink : Bool)
  | other (request : HttpRequest)

/-- The bytes of a file. -/
def fileAt (files : List (Path × List UInt8)) (path : Path) : Option (List UInt8) :=
  (files.find? (·.1 == path)).map Prod.snd

variable (tokener serve) in
/-- One event. -/
def step (net : Network) (commitEndpoint : String) (st : State S) : Event → State S
  | .core core => { st with files := (core.path, core.bytes) :: st.files, queued := core :: st.queued }
  | .upload path isGzipped alloc unlink =>
      let r := ticosdNetworkFileUpload tokener serve net alloc commitEndpoint
        (fileAt st.files path) isGzipped st.server
      { st with
        files := CoreQuota.removeFile (decide (r.1 = .ok) && unlink) path st.files
        server := r.2 }
  | .other request => { st with server := (serve st.server request).1 }

/-- The condition on an event: a core gets a new name (`O_EXCL`, and a fresh UUID), and the
    entry that is uploaded is that of a core. -/
def EventOk (st : State S) : Event → Prop
  | .core core => (∀ file ∈ st.files, file.1 ≠ core.path) ∧
      ∀ other ∈ st.queued, other.path ≠ core.path
  | .upload path isGzipped _ _ => ∃ core ∈ st.queued, core.path = path ∧ core.isGzipped = isGzipped
  | .other _ => True

instance (st : State S) : (ev : Event) → Decidable (EventOk st ev)
  | .core _ => inferInstanceAs (Decidable (_ ∧ _))
  | .upload _ _ _ _ => inferInstanceAs (Decidable (∃ _ ∈ _, _ ∧ _))
  | .other _ => inferInstanceAs (Decidable True)

/-- The core is still a file, or the server holds it under a URL that it has committed. -/
def Kept (holds : S → String → List UInt8 → Bool → Prop) (committed : S → String → Prop)
    (st : State S) (core : Core) : Prop :=
  (core.path, core.bytes) ∈ st.files ∨
    ∃ url, holds st.server url core.bytes core.isGzipped ∧ committed st.server url

/-- The invariant: names are not used twice, and every core is kept. -/
structure Inv (holds : S → String → List UInt8 → Bool → Prop) (committed : S → String → Prop)
    (st : State S) : Prop where
  names : (st.queued.map Core.path).Nodup
  files : ∀ file ∈ st.files, ∀ core ∈ st.queued, file.1 = core.path → file.2 = core.bytes
  kept : ∀ core ∈ st.queued, Kept holds committed st core

variable {st : State S}

/-- Another request keeps every core. -/
theorem Kept.server {server : S} {core : Core} (h : Kept holds committed st core)
    (hkeeps : ∀ url, holds st.server url core.bytes core.isGzipped →
      holds server url core.bytes core.isGzipped)
    (hcommitted : ∀ url, committed st.server url → committed server url) :
    Kept holds committed { st with server := server } core := by
  rcases h with hfile | ⟨url, hholds, hcommit⟩
  · exact Or.inl hfile
  · exact Or.inr ⟨url, hkeeps url hholds, hcommitted url hcommit⟩

/-- The file that is found has the name. -/
theorem mem_of_fileAt {files : List (Path × List UInt8)} {path : Path} {bytes : List UInt8}
    (h : fileAt files path = some bytes) : (path, bytes) ∈ files := by
  obtain ⟨file, hfind, hbytes⟩ := Option.map_eq_some_iff.mp h
  have hname := List.find?_some hfind
  rw [← beq_iff_eq.mp hname, ← hbytes]
  exact List.mem_of_find?_eq_some hfind

/-- **One event.** -/
theorem inv_step (hserves : Serves tokener serve holds committed) (st : State S) (ev : Event)
    (h : Inv holds committed st) (hok : EventOk st ev) :
    Inv holds committed (step tokener serve net commitEndpoint st ev) := by
  cases ev with
  | core core =>
      obtain ⟨hfiles, hqueued⟩ := hok
      refine ⟨?_, ?_, ?_⟩
      · refine List.nodup_cons.mpr ⟨fun hmem => ?_, h.names⟩
        obtain ⟨other, hother, hname⟩ := List.mem_map.mp hmem
        exact hqueued other hother hname
      · intro file hfile other hother hname
        rcases List.mem_cons.mp hfile with rfl | hold
        · rcases List.mem_cons.mp hother with rfl | hbefore
          · rfl
          · exact absurd hname.symm (hqueued other hbefore)
        · rcases List.mem_cons.mp hother with rfl | hbefore
          · exact absurd hname (hfiles file hold)
          · exact h.files file hold other hbefore hname
      · intro other hother
        rcases List.mem_cons.mp hother with rfl | hother
        · exact Or.inl List.mem_cons_self
        · rcases h.kept other hother with hfile | hserver
          · exact Or.inl (List.mem_cons_of_mem _ hfile)
          · exact Or.inr hserver
  | upload path isGzipped alloc unlink =>
      obtain ⟨mine, hmine, rfl, rfl⟩ := hok
      obtain ⟨r, hr⟩ : ∃ r, r = ticosdNetworkFileUpload tokener serve net alloc commitEndpoint
        (fileAt st.files mine.path) mine.isGzipped st.server := ⟨_, rfl⟩
      have hstep : step tokener serve net commitEndpoint st
          (.upload mine.path mine.isGzipped alloc unlink)
          = ⟨CoreQuota.removeFile (decide (r.1 = .ok) && unlink) mine.path st.files, st.queued,
              r.2⟩ := by
        rw [hr]
        rfl
      rw [hstep]
      refine ⟨h.names, ?_, fun core hcore => ?_⟩
      · intro file hfile
        exact h.files file (CoreQuota.mem_of_mem_removeFile hfile)
      · have hkeeps : Kept holds committed { st with server := r.2 } core := by
          refine (h.kept core hcore).server (fun url hholds => ?_) fun url hcommit => ?_
          · rw [hr]
            exact upload_keeps (fun s request hs => hserves.holds_stays s request _ _ _ hs) _ hholds
          · rw [hr]
            exact upload_keeps (fun s request hs => hserves.committed_stays s request _ hs) _ hcommit
        rcases hkeeps with hfile | hserver
        · by_cases hremoved : (decide (r.1 = .ok) && unlink) = true ∧ core.path = mine.path
          · -- the file that is removed is that of this core, and the server has it
            obtain ⟨hdone, hpath⟩ := hremoved
            have hsame : core = mine := List.inj_on_of_nodup_map h.names hcore hmine hpath
            rw [hsame]
            have hok : r.1 = .ok := of_decide_eq_true (Bool.and_eq_true_iff.mp hdone).1
            rw [hr] at hok
            obtain ⟨bytes, url, hbytes, hholds, hcommit⟩ := upload_ok hserves hok
            have hmatches : bytes = mine.bytes :=
              h.files _ (mem_of_fileAt hbytes) mine hmine rfl
            rw [hmatches, ← hr] at hholds
            rw [← hr] at hcommit
            exact Or.inr ⟨url, hholds, hcommit⟩
          · refine Or.inl ?_
            show (core.path, core.bytes) ∈ CoreQuota.removeFile _ mine.path st.files
            rw [CoreQuota.removeFile]
            split
            · rename_i hdone
              refine List.mem_filter.mpr ⟨hfile, ?_⟩
              exact decide_eq_true fun hpath => hremoved ⟨hdone, hpath⟩
            · exact hfile
        · exact Or.inr hserver
  | other request =>
      refine ⟨h.names, h.files, fun core hcore => ?_⟩
      exact (h.kept core hcore).server
        (fun url => hserves.holds_stays st.server request url core.bytes core.isGzipped)
        (fun url => hserves.committed_stays st.server request url)

end Upload

/-! ## A server -/

/-- The files that have been uploaded, with their URLs, and the payloads of the commits. -/
structure Store where
  files : List (String × List UInt8 × Bool)
  commits : List String

/-- The URL in a response of one byte. -/
def fileUrl (b : UInt8) : String := "/files/" ++ toString b.toNat

/-- A response of one byte stands for its JSON text. -/
def byteTokener : List UInt8 → Option Json
  | [b] => some (.object [("upload_url", .string "/upload"), ("url", .string (fileUrl b))])
  | _ => none

/-- A server that takes every file and every commit, but whose answer to the first commit
    is lost. -/
def storeServe (s : Store) (request : HttpRequest) : Store × Exchange :=
  match request.body with
  | .none => (s, ⟨true, 200, [0]⟩)
  | .coredump file =>
      let b := UInt8.ofNat s.files.length
      ({ s with files :=
          (fileUrl b, file, decide ("Content-Encoding: gzip" ∈ request.headers)) :: s.files },
        ⟨true, 200, [b]⟩)
  | .json text => ({ s with commits := text :: s.commits }, ⟨decide (s.commits ≠ []), 200, []⟩)

def storeHolds (s : Store) (url : String) (file : List UInt8) (isGzipped : Bool) : Prop :=
  (url, file, isGzipped) ∈ s.files

def storeCommitted (s : Store) (url : String) : Prop := ∃ size, commitPayload url size ∈ s.commits

theorem store_serves : Serves byteTokener storeServe storeHolds storeCommitted where
  holds_stays := by
    rintro s ⟨method, target, headers, body⟩ url file isGzipped h
    cases body with
    | none => exact h
    | coredump other => exact List.mem_cons_of_mem _ h
    | json text => exact h
  committed_stays := by
    rintro s ⟨method, target, headers, body⟩ url ⟨size, h⟩
    cases body with
    | none => exact ⟨size, h⟩
    | coredump other => exact ⟨size, h⟩
    | json text => exact ⟨size, List.mem_cons_of_mem _ h⟩
  stores := by
    intro s uploadUrl file isGzipped url _ hurl
    have hparsed : prvParseFileUploadResponse byteTokener
        (storeServe s (uploadRequest uploadUrl file isGzipped)).2.body
        = some (fileUrl (UInt8.ofNat s.files.length)) := rfl
    rw [hparsed] at hurl
    have hencoding : decide ("Content-Encoding: gzip" ∈
        (uploadRequest uploadUrl file isGzipped).headers) = isGzipped := by
      cases isGzipped with
      | true => exact decide_eq_true List.mem_cons_self
      | false => exact decide_eq_false (by simp [uploadRequest])
    rw [← Option.some.inj hurl]
    show _ ∈ (_, file, decide _) :: s.files
    rw [hencoding]
    exact List.mem_cons_self
  commits := by
    intro s net endpoint url size _
    exact ⟨size, List.mem_cons_self⟩

def sampleNetwork : Network := ⟨"http://server", "app", "1.0", "Ticos-Project-Key: key", "d1", "evt"⟩

/-- A compressed core is uploaded; the answer to its commit is lost, and it is uploaded
    again. -/
def sampleEvents : List Event :=
  [.core ⟨[47, 99], [31, 139, 8], true⟩, .upload [47, 99] true ⟨true, true, true, true⟩ true,
    .other (postRequest sampleNetwork "/chunks/d1/json" .post "{}"),
    .upload [47, 99] true ⟨true, true, true, true⟩ true]

end UploadProtocol
