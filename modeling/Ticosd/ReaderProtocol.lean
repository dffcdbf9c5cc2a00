import Ticosd.CoreElfReader
import Ticosd.Fuel

/-! # The protocol of the core reader — `core_elf_reader.c` over any IO and any memory

    Here nothing is known about the IO object but what `read(2)` may do: each call
    delivers some of the bytes that are asked for, none, too, or fails; which it is may
    depend on whether the buffer is NULL and on its size.  The table is allocated or not,
    and a message for which there is no memory is NULL.  Asserts are looked
    at and noted, instead of ending the program.

    What a handler then sees is a list of callbacks.  Five actions follow one another,
    and each one leaves the list, the position in the stream and the header in a state
    that the next one may rely on (`Stage`). -/

namespace ReaderProtocol

open CoreElf Fuel
open CoreElfReader (Script Action)

/-! ## The environment -/

/-- `EINTR`. -/
def eintr : Nat := 4

/-- What a call of `io->read` does. -/
inductive Outcome where
  | deliver (n : Nat)
  | fail (errno : Nat)
  deriving DecidableEq

/-- What the calls of `io->read` do, by their number, whether the buffer is NULL, and its
    size; whether so many bytes can be allocated for the table; for which messages there
    is memory, by their number; and the texts of `strerror`. -/
structure Environment where
  read : Nat → Bool → Nat → Outcome
  malloc : Nat → Bool
  text : Nat → Bool
  strerror : Nat → String

/-- `sTicosCoreElfReaderHandler`; a message that is NULL is `none`. -/
structure Handler (σ : Type) where
  handleElfHeader : σ → Ehdr → σ
  handleSegments : σ → List Phdr → Script σ
  handleWarning : σ → Option String → σ
  handleDone : σ → σ

/-- The calls a handler sees and the results of those it makes. -/
inductive Event where
  | elfHeader (header : Ehdr)
  | segments (segments : List Phdr)
  | warning (msg : Option String)
  | segmentData (atPos bufferSize count : Nat) (bytes : List UInt8)
  | done
  deriving DecidableEq

/-- `struct TicosCoreElfReader`, where `segments` says whether the pointer is not NULL; the
    number of calls of `io->read` and of messages so far, what is left of the stream, the
    state of the handler and what it has seen, and whether an assert has failed. -/
structure Reader (σ : Type) where
  action : Option Action
  streamPos : Nat
  elfHeader : Ehdr
  segments : Bool
  calls : Nat
  messages : Nat
  rest : List UInt8
  state : σ
  log : List Event
  assertFailed : Bool

variable {σ : Type}

/-- `ticos_core_elf_reader_init`. -/
def ticosCoreElfReaderInit (stream : List UInt8) (state : σ) : Reader σ where
  action := none
  streamPos := 0
  elfHeader := default
  segments := false
  calls := 0
  messages := 0
  rest := stream
  state := state
  log := []
  assertFailed := false

/-! ## Steps -/

/-- A field of the reader. -/
def get {α : Type} (f : Reader σ → α) : Prog (Reader σ) α := Prog.act (fun r => (f r, r))

def setAction (a : Option Action) : Prog (Reader σ) Unit :=
  Prog.act (fun r => ((), { r with action := a }))

/-- `assert`. -/
def assertThat (cond : Reader σ → Bool) : Prog (Reader σ) Unit :=
  Prog.act (fun r => ((), { r with assertFailed := r.assertFailed || !cond r }))

/-- `io->read`. -/
def ioRead (env : Environment) (null : Bool) (size : Nat) :
    Prog (Reader σ) (Except Nat (List UInt8)) :=
  Prog.act fun r =>
    match env.read r.calls null size with
    | .deliver n =>
        (.ok (r.rest.take (min n size)),
          { r with calls := r.calls + 1, rest := r.rest.drop (min n size) })
    | .fail e => (.error e, { r with calls := r.calls + 1 })

/-- `handle_warning`, with a text from `strdup` or `ticos_asprintf`. -/
def handleWarning (env : Environment) (h : Handler σ) (msg : String) : Prog (Reader σ) Unit :=
  Prog.act fun r =>
    let msg := if env.text r.messages then some msg else none
    ((), { r with
      messages := r.messages + 1
      state := h.handleWarning r.state msg
      log := r.log ++ [.warning msg] })

/-! ## Reading -/

/-- A round of `prv_read_all`, with what remains to be read and what has been. -/
def readAllRound (env : Environment) (h : Handler σ) (null : Bool) (x : Nat × List UInt8) :
    Prog (Reader σ) ((Nat × List UInt8) ⊕ List UInt8) :=
  if x.1 = 0 then pure (.inr x.2)
  else do
    match ← ioRead env null x.1 with
    | .error e =>
        if e = eintr then pure (.inl x)
        else do
          handleWarning env h ("read() failure: " ++ env.strerror e)
          pure (.inr x.2)
    | .ok bytes => do
        Prog.act (fun r : Reader σ => ((), { r with streamPos := r.streamPos + bytes.length }))
        if bytes = [] then pure (.inr x.2)
        else pure (.inl (x.1 - bytes.length, x.2 ++ bytes))

/-- `prv_read_all`: the bytes read, also where the buffer is NULL. -/
def prvReadAll (env : Environment) (h : Handler σ) (null : Bool) (size : Nat) :
    Prog (Reader σ) (List UInt8) :=
  if size = 0 then pure [] else Prog.loop (readAllRound env h null) (size, [])

/-- `ticos_core_elf_reader_read_segment_data`: the bytes copied. -/
def ticosCoreElfReaderReadSegmentData (env : Environment) (h : Handler σ) (atPos : Nat)
    (null : Bool) (bufferSize : Nat) : Prog (Reader σ) (List UInt8) := do
  assertThat (fun r => r.action = some .readSegmentHeaders)
  let streamPos ← get Reader.streamPos
  if atPos < streamPos then pure []
  else do
    let skipSize := atPos - streamPos
    if skipSize > 0 then do
      let skipped ← prvReadAll env h true skipSize
      if skipped.length < skipSize then pure []
      else prvReadAll env h null bufferSize
    else prvReadAll env h null bufferSize

/-- A `handle_segments` callback. -/
def runScript (env : Environment) (h : Handler σ) : Script σ → Prog (Reader σ) Unit
  | .done state => Prog.act (fun r => ((), { r with state := state }))
  | .read state atPos null bufferSize next => do
      Prog.act (fun r : Reader σ => ((), { r with state := state }))
      let data ← ticosCoreElfReaderReadSegmentData env h atPos null bufferSize
      let bytes := if null then [] else data
      Prog.act (fun r : Reader σ =>
        ((), { r with log := r.log ++ [.segmentData atPos bufferSize data.length bytes] }))
      let state ← get Reader.state
      runScript env h (next state data.length bytes)

/-! ## Actions -/

/-- `prv_action_done`. -/
def prvActionDone (h : Handler σ) : Prog (Reader σ) Unit :=
  Prog.act fun r =>
    ((), { r with
      state := h.handleDone r.state, log := r.log ++ [.done], action := none })

/-- `prv_action_read_segment_headers`. -/
def prvActionReadSegmentHeaders (env : Environment) (h : Handler σ) : Prog (Reader σ) Unit := do
  let header ← get Reader.elfHeader
  let segments ← get Reader.segments
  let totalSegmentsSize := header.phnum * phdrSize
  let read ← prvReadAll env h (!segments) totalSegmentsSize
  if read.length = totalSegmentsSize then do
    let table := decodeTable header.phnum read
    Prog.act (fun r : Reader σ => ((), { r with log := r.log ++ [.segments table] }))
    let state ← get Reader.state
    runScript env h (h.handleSegments state table)
    setAction (some .done)
  else do
    handleWarning env h "Unexpected short read while reading segment headers"
    setAction (some .done)

/-- `prv_action_prepare_segment_headers`. -/
def prvActionPrepareSegmentHeaders (env : Environment) (h : Handler σ) :
    Prog (Reader σ) Unit := do
  assertThat (fun r => r.segments = false)
  let header ← get Reader.elfHeader
  let totalSegmentsSize := header.phnum * phdrSize
  if totalSegmentsSize > 0 then do
    if env.malloc totalSegmentsSize = false then do
      handleWarning env h ("Not enough memory for " ++ toString header.phnum ++ " segment headers")
      setAction (some .done)
    else do
      Prog.act (fun r : Reader σ => ((), { r with segments := true }))
      setAction (some .readSegmentHeaders)
  else setAction (some .readSegmentHeaders)

/-- `prv_action_skip_to_segment_headers`. -/
def prvActionSkipToSegmentHeaders (env : Environment) (h : Handler σ) :
    Prog (Reader σ) Unit := do
  assertThat (fun r => r.elfHeader.phoff ≥ r.streamPos)
  let skipSize ← get (fun r => r.elfHeader.phoff - r.streamPos)
  let read ← prvReadAll env h true skipSize
  if read.length < skipSize then do
    handleWarning env h "Unexpected short read while skipping"
    setAction (some .done)
  else setAction (some .prepareSegmentHeaders)

/-- `prv_action_read_elf_header`. -/
def prvActionReadElfHeader (env : Environment) (h : Handler σ) : Prog (Reader σ) Unit := do
  let read ← prvReadAll env h false ehdrSize
  assertThat (fun _ => read.length ≤ ehdrSize)
  if read.length < ehdrSize then do
    handleWarning env h "Unexpected short read while reading ELF header"
    setAction (some .done)
  else do
    let header := Ehdr.decode read
    Prog.act (fun r : Reader σ => ((), { r with elfHeader := header }))
    if ticosCoreElfReaderIsValidCoreElf header = false then do
      handleWarning env h "Not an ELF coredump"
      setAction (some .done)
    else do
      Prog.act (fun r : Reader σ => ((), { r with
        state := h.handleElfHeader r.state header, log := r.log ++ [.elfHeader header] }))
      let streamPos ← get Reader.streamPos
      if header.phoff = streamPos then setAction (some .prepareSegmentHeaders)
      else if header.phoff > streamPos then do
        handleWarning env h "Ignoring data between header and segment table"
        setAction (some .skipToSegmentHeaders)
      else do
        handleWarning env h "Unexpected segment table offset"
        setAction (some .done)

/-- The function an action stands for. -/
def perform (env : Environment) (h : Handler σ) : Action → Prog (Reader σ) Unit
  | .readElfHeader => prvActionReadElfHeader env h
  | .skipToSegmentHeaders => prvActionSkipToSegmentHeaders env h
  | .prepareSegmentHeaders => prvActionPrepareSegmentHeaders env h
  | .readSegmentHeaders => prvActionReadSegmentHeaders env h
  | .done => prvActionDone h

/-- A round of the loop over the actions. -/
def actionRound (env : Environment) (h : Handler σ) (_ : Unit) : Prog (Reader σ) (Unit ⊕ Unit) := do
  match ← get Reader.action with
  | none => pure (.inr ())
  | some a => do
      perform env h a
      pure (.inl ())

/-- `ticos_core_elf_reader_read_all`. -/
def ticosCoreElfReaderReadAll (env : Environment) (h : Handler σ) : Prog (Reader σ) Bool := do
  let action ← get Reader.action
  if action ≠ none then pure false
  else do
    setAction (some .readElfHeader)
    Prog.loop (actionRound env h) ()
    pure true

/-! ## What is said about a reader -/

/-- The reader is in the stream where it says it is, and no assert has failed. -/
structure Sound (stream : List UInt8) (r : Reader σ) : Prop where
  rest : r.rest = stream.drop r.streamPos
  inside : r.streamPos ≤ stream.length
  asserts : r.assertFailed = false

/-- What the other fields are does not matter. -/
theorem Sound.frame {stream : List UInt8} {r r' : Reader σ} (h : Sound stream r)
    (hsame : (r'.rest, r'.streamPos, r'.assertFailed) = (r.rest, r.streamPos, r.assertFailed)) :
    Sound stream r' := by
  obtain ⟨hrest, hpos, hasserts⟩ : r'.rest = r.rest ∧ r'.streamPos = r.streamPos ∧
      r'.assertFailed = r.assertFailed := by
    simpa only [Prod.mk.injEq] using hsame
  constructor
  · rw [hrest, hpos]
    exact h.rest
  · rw [hpos]
    exact h.inside
  · rw [hasserts]
    exact h.asserts

def Event.IsWarning : Event → Prop
  | .warning _ => True
  | _ => False

/-- What may come while segments are handled. -/
def Event.IsRead : Event → Prop
  | .warning _ => True
  | .segmentData _ _ _ _ => True
  | _ => False

/-- The reader later on: it has read, and callbacks of one kind have been made. -/
structure Later (stream : List UInt8) (P : Event → Prop) (r r' : Reader σ) : Prop where
  sound : Sound stream r'
  action : r'.action = r.action
  elfHeader : r'.elfHeader = r.elfHeader
  segments : r'.segments = r.segments
  events : ∃ es, r'.log = r.log ++ es ∧ ∀ e ∈ es, P e

variable {stream : List UInt8} {P Q : Event → Prop} {r r' r'' : Reader σ}

theorem Later.refl (h : Sound stream r) : Later stream P r r :=
  ⟨h, rfl, rfl, rfl, [], (List.append_nil _).symm, nofun⟩

theorem Later.trans (h : Later stream P r r') (h' : Later stream P r' r'') :
    Later stream P r r'' := by
  obtain ⟨es, hlog, hes⟩ := h.events
  obtain ⟨es', hlog', hes'⟩ := h'.events
  refine ⟨h'.sound, h'.action.trans h.action, h'.elfHeader.trans h.elfHeader,
    h'.segments.trans h.segments, es ++ es', ?_, ?_⟩
  · rw [hlog', hlog, List.append_assoc]
  · exact List.forall_mem_append.mpr ⟨hes, hes'⟩

theorem Later.mono (h : Later stream P r r') (hPQ : ∀ e, P e → Q e) : Later stream Q r r' := by
  obtain ⟨es, hlog, hes⟩ := h.events
  exact ⟨h.sound, h.action, h.elfHeader, h.segments, es, hlog, fun e he => hPQ e (hes e he)⟩

theorem Event.IsWarning.isRead {e : Event} (h : e.IsWarning) : e.IsRead := by
  cases e with
  | warning msg => trivial
  | elfHeader _ | segments _ | segmentData _ _ _ _ | done => exact h.elim

/-- An assert that holds changes nothing. -/
theorem assertThat_spec {α : Type} {cond : Reader σ → Bool} {p : Prog (Reader σ) α}
    {R : α → Reader σ → Prop} (hcond : cond r = true) (hp : Finishes p r R) :
    Finishes (assertThat cond >>= fun _ => p) r R := by
  have hsame : { r with assertFailed := r.assertFailed || !cond r } = r := by
    rw [hcond, Bool.not_true, Bool.or_false]
  refine Finishes.step ?_
  dsimp only
  rw [hsame]
  exact hp

/-- A warning more. -/
theorem handleWarning_spec (env : Environment) (h : Handler σ) (msg : String)
    (hr : Sound stream r) : Finishes (handleWarning env h msg) r (fun _ r' =>
      Later stream Event.IsWarning r r' ∧ r'.streamPos = r.streamPos ∧
        ∃ text, r'.log = r.log ++ [.warning text]) := by
  refine Finishes.act ⟨⟨hr.frame rfl, rfl, rfl, rfl, _, rfl, ?_⟩, rfl, _, rfl⟩
  intro e he
  rw [List.mem_singleton.mp he]
  trivial

/-! ## Reading -/

theorem drop_taken (bs : List UInt8) (k : Nat) : bs.drop (bs.take k).length = bs.drop k := by
  rw [List.length_take]
  rcases Nat.le_total k bs.length with hle | hle
  · rw [Nat.min_eq_left hle]
  · rw [Nat.min_eq_right hle, List.drop_length, List.drop_of_length_le hle]

/-- The outcomes of the IO object, from some call on, are not interrupts. -/
def Environment.Calms (env : Environment) : Prop :=
  ∃ N, ∀ i, N ≤ i → ∀ null size, env.read i null size ≠ .fail eintr

/-- Calls with such a buffer deliver something, or are interrupted. -/
def Environment.Delivers (env : Environment) (null : Bool) : Prop :=
  ∀ i size, env.read i null size = .fail eintr ∨ ∃ n, 0 < n ∧ env.read i null size = .deliver n

section Reading

variable {env : Environment} {h : Handler σ}

/-- What `prv_read_all` has read: the next bytes, and no more than it was asked for. -/
structure HasRead (stream : List UInt8) (size : Nat) (r : Reader σ) (got : List UInt8)
    (r' : Reader σ) : Prop where
  later : Later stream Event.IsWarning r r'
  pos : r'.streamPos = r.streamPos + got.length
  size_le : got.length ≤ size
  bytes : got = (stream.drop r.streamPos).take got.length

/-- The bytes of a call behind those of the calls before. -/
theorem HasRead.deliver {size remaining n : Nat} {got : List UInt8}
    (hread : HasRead stream size r got r') (hsize : got.length + remaining = size) :
    let bytes := r'.rest.take (min n remaining)
    HasRead stream size r (got ++ bytes)
      { r' with
        calls := r'.calls + 1
        rest := r'.rest.drop (min n remaining)
        streamPos := r'.streamPos + bytes.length } ∧ bytes.length ≤ remaining := by
  have hlen : (r'.rest.take (min n remaining)).length ≤ remaining := by
    rw [List.length_take]
    omega
  have hrest : (r'.rest.take (min n remaining)).length ≤ r'.rest.length := by
    rw [List.length_take]
    exact Nat.min_le_right _ _
  have hsound := hread.later.sound
  have hstream : r'.rest.length = stream.length - r'.streamPos := by
    rw [hsound.rest, List.length_drop]
  refine ⟨⟨⟨⟨?_, ?_, hsound.asserts⟩, hread.later.action, hread.later.elfHeader,
    hread.later.segments, hread.later.events⟩, ?_, ?_, ?_⟩, hlen⟩
  · show r'.rest.drop (min n remaining) = _
    rw [← drop_taken r'.rest (min n remaining), ← List.drop_drop, ← hsound.rest]
  · have hinside := hsound.inside
    show r'.streamPos + _ ≤ stream.length
    omega
  · show r'.streamPos + _ = _
    rw [hread.pos, List.length_append, Nat.add_assoc]
  · rw [List.length_append]
    omega
  · have htaken : r'.rest.take (min n remaining)
        = ((stream.drop r.streamPos).drop got.length).take
          (r'.rest.take (min n remaining)).length := by
      rw [List.drop_drop, ← hread.pos, ← hsound.rest, List.length_take, ← List.take_eq_take_min]
    rw [List.length_append, List.take_add, ← hread.bytes, ← htaken]

/-- All that was asked for. -/
theorem HasRead.full {size : Nat} {got : List UInt8} (h : HasRead stream size r got r')
    (hlen : got.length = size) : got = (stream.drop r.streamPos).take size := by
  have hbytes := h.bytes
  rw [hlen] at hbytes
  exact hbytes

/-- All that there is. -/
theorem HasRead.ended {size : Nat} {got : List UInt8} (h : HasRead stream size r got r')
    (hnil : r'.rest = []) : got = (stream.drop r.streamPos).take size := by
  have hend : (stream.drop r.streamPos).drop got.length = [] := by
    rw [List.drop_drop, ← h.pos, ← h.later.sound.rest]
    exact hnil
  have hle := List.drop_eq_nil_iff.mp hend
  rw [List.take_of_length_le (Nat.le_trans hle h.size_le)]
  exact h.bytes.trans (List.take_of_length_le hle)

/-- **`prv_read_all` ends, whatever the IO does**: interrupts are still to come, or there
    is less to read.  If the IO delivers, nothing is left out. -/
theorem prvReadAll_full (hcalm : env.Calms) (null : Bool) (size : Nat) (hr : Sound stream r) :
    Finishes (prvReadAll env h null size) r (fun got r' => HasRead stream size r got r' ∧
      (env.Delivers null → got = (stream.drop r.streamPos).take size)) := by
  obtain ⟨N, hcalm⟩ := hcalm
  have hstart : HasRead stream size r [] r :=
    ⟨Later.refl hr, rfl, Nat.zero_le size, rfl⟩
  rw [prvReadAll]
  by_cases hzero : size = 0
  · rw [if_pos hzero]
    exact Finishes.pure ⟨hstart, fun _ => hstart.full hzero.symm⟩
  · rw [if_neg hzero]
    let Inv : Nat × List UInt8 → Reader σ → Prop := fun x t =>
      HasRead stream size r x.2 t ∧ x.2.length + x.1 = size
    have hinv : Inv (size, []) r := ⟨hstart, Nat.zero_add size⟩
    refine Finishes.loop Inv (fun x t => (N - t.calls) + x.1) ?_ hinv
    rintro ⟨remaining, got⟩ t ⟨hread, hsize⟩
    dsimp only at hread hsize
    rw [readAllRound]
    by_cases hdone : remaining = 0
    · rw [if_pos hdone]
      exact Finishes.pure ⟨hread, fun _ => hread.full (by omega)⟩
    · rw [if_neg hdone]
      refine Finishes.step ?_
      dsimp only
      cases hout : env.read t.calls null remaining with
      | fail e =>
          dsimp only
          have hsame : HasRead stream size r got { t with calls := t.calls + 1 } :=
            ⟨⟨hread.later.sound.frame rfl,
              hread.later.action, hread.later.elfHeader, hread.later.segments,
              hread.later.events⟩, hread.pos, hread.size_le, hread.bytes⟩
          by_cases he : e = eintr
          · rw [if_pos he]
            have hcalls : t.calls < N := by
              rcases Nat.lt_or_ge t.calls N with hlt | hge
              · exact hlt
              · exact absurd (he ▸ hout) (hcalm t.calls hge null remaining)
            refine Finishes.pure ⟨⟨hsame, hsize⟩, ?_⟩
            dsimp only
            omega
          · rw [if_neg he]
            refine (handleWarning_spec env h _ hsame.later.sound).bind ?_
            rintro ⟨⟩ t' ⟨hlater, hpos, -⟩
            refine Finishes.pure ⟨⟨hsame.later.trans hlater, hpos.trans hsame.pos, hsame.size_le,
              hsame.bytes⟩, fun hdelivers => ?_⟩
            rcases hdelivers t.calls remaining with heintr | ⟨n, -, hn⟩
            · exact absurd (Outcome.fail.inj (hout.symm.trans heintr)) he
            · exact nomatch hout.symm.trans hn
      | deliver n =>
          dsimp only
          obtain ⟨hread', hlen⟩ := hread.deliver (n := n) hsize
          refine Finishes.step ?_
          dsimp only
          by_cases hnil : t.rest.take (min n remaining) = []
          · rw [if_pos hnil]
            rw [hnil, List.append_nil] at hread'
            rw [hnil]
            refine Finishes.pure ⟨hread', fun hdelivers => hread'.ended ?_⟩
            rcases hdelivers t.calls remaining with heintr | ⟨m, hm, hn⟩
            · exact nomatch hout.symm.trans heintr
            · -- nothing is delivered only at the end of the stream
              obtain rfl : n = m := Outcome.deliver.inj (hout.symm.trans hn)
              have hrest : t.rest = [] := by
                rcases List.take_eq_nil_iff.mp hnil with hmin | hrest
                · omega
                · exact hrest
              show t.rest.drop (min n remaining) = []
              rw [hrest, List.drop_nil]
          · rw [if_neg hnil]
            have hpos := List.length_pos_iff.mpr hnil
            refine Finishes.pure ⟨⟨hread', ?_⟩, ?_⟩
            · rw [List.length_append]
              omega
            · dsimp only
              omega

theorem prvReadAll_spec (hcalm : env.Calms) (null : Bool) (size : Nat) (hr : Sound stream r) :
    Finishes (prvReadAll env h null size) r (HasRead stream size r) :=
  (prvReadAll_full hcalm null size hr).weaken fun _ _ hread => hread.1

theorem readSegmentData_spec (hcalm : env.Calms) (atPos : Nat) (null : Bool) (bufferSize : Nat)
    (hr : Sound stream r) (haction : r.action = some .readSegmentHeaders) :
    Finishes (ticosCoreElfReaderReadSegmentData env h atPos null bufferSize) r
      (fun _ r' => Later stream Event.IsWarning r r') := by
  refine assertThat_spec (decide_eq_true haction) ?_
  refine Finishes.step ?_
  dsimp only
  by_cases hpast : atPos < r.streamPos
  · rw [if_pos hpast]
    exact Finishes.pure (Later.refl hr)
  · rw [if_neg hpast]
    by_cases hskip : atPos - r.streamPos > 0
    · rw [if_pos hskip]
      refine (prvReadAll_spec hcalm true _ hr).bind ?_
      intro skipped t hskipped
      by_cases hshort : skipped.length < atPos - r.streamPos
      · rw [if_pos hshort]
        exact Finishes.pure hskipped.later
      · rw [if_neg hshort]
        exact (prvReadAll_spec hcalm null bufferSize hskipped.later.sound).weaken
          fun _ _ hread => hskipped.later.trans hread.later
    · rw [if_neg hskip]
      exact (prvReadAll_spec hcalm null bufferSize hr).weaken fun _ _ hread => hread.later

/-- **A callback that handles segments** ends, and sees warnings and segment data only. -/
theorem runScript_spec (hcalm : env.Calms) (script : Script σ) (hr : Sound stream r)
    (haction : r.action = some .readSegmentHeaders) :
    Finishes (runScript env h script) r (fun _ r' => Later stream Event.IsRead r r') := by
  induction script generalizing r with
  | done state =>
      exact Finishes.act ⟨hr.frame rfl, rfl, rfl, rfl, [],
        (List.append_nil _).symm, nofun⟩
  | read state atPos null bufferSize next ih =>
      have hstate : Later stream Event.IsRead r { r with state := state } :=
        ⟨hr.frame rfl, rfl, rfl, rfl, [], (List.append_nil _).symm, nofun⟩
      refine Finishes.step ?_
      refine (readSegmentData_spec hcalm atPos null bufferSize hstate.sound haction).bind ?_
      intro data t hdata
      have hlater := hstate.trans (hdata.mono fun _ => Event.IsWarning.isRead)
      refine Finishes.step ?_
      have hnote : Later stream Event.IsRead t { t with log := t.log
          ++ [.segmentData atPos bufferSize data.length (if null then [] else data)] } := by
        refine ⟨hlater.sound.frame rfl, rfl, rfl, rfl, _,
          rfl, ?_⟩
        intro e he
        rw [List.mem_singleton.mp he]
        trivial
      refine Finishes.step ?_
      have hall := hlater.trans hnote
      exact (ih _ _ _ hall.sound (hall.action.trans haction)).weaken fun _ _ h => hall.trans h

end Reading

/-! ## The actions, one after the other -/

/-- There is nothing but warnings. -/
def Quiet (es : List Event) : Prop := ∀ e ∈ es, e.IsWarning

/-- The header of the stream has been accepted and handed over. -/
structure Started (stream : List UInt8) (header : Ehdr) (log : List Event) : Prop where
  whole : ehdrSize ≤ stream.length
  found : header = Ehdr.decode (stream.take ehdrSize)
  valid : ticosCoreElfReaderIsValidCoreElf header = true
  events : ∃ ws ws', log = ws ++ .elfHeader header :: ws' ∧ Quiet ws ∧ Quiet ws'

/-- The segments are given up, with a warning. -/
structure GaveUp (stream : List UInt8) (log : List Event) : Prop where
  before : Quiet log ∨ ∃ header, Started stream header log
  warned : ∃ msg, .warning msg ∈ log

/-- The segments have been handed over, and data has been read. -/
def Delivered (stream : List UInt8) (log : List Event) : Prop :=
  ∃ header pre es, Started stream header pre ∧
    header.phoff + header.phnum * phdrSize ≤ stream.length ∧
    log = pre ++ .segments (decodeTable header.phnum (stream.drop header.phoff)) :: es ∧
    ∀ e ∈ es, e.IsRead

/-- What holds before an action, and at the end. -/
def Stage (stream : List UInt8) (r : Reader σ) : Option Action → Prop
  | some .readElfHeader => r.log = [] ∧ r.streamPos = 0 ∧ r.segments = false
  | some .skipToSegmentHeaders =>
      Started stream r.elfHeader r.log ∧ r.streamPos ≤ r.elfHeader.phoff ∧ r.segments = false
  | some .prepareSegmentHeaders =>
      Started stream r.elfHeader r.log ∧ r.streamPos = r.elfHeader.phoff ∧ r.segments = false
  | some .readSegmentHeaders =>
      Started stream r.elfHeader r.log ∧ r.streamPos = r.elfHeader.phoff
  | some .done => GaveUp stream r.log ∨ Delivered stream r.log
  | none => ∃ cs, r.log = cs ++ [.done] ∧ (GaveUp stream cs ∨ Delivered stream cs)

/-- A reader between two actions. -/
def AtStage (stream : List UInt8) (r : Reader σ) : Prop :=
  Sound stream r ∧ Stage stream r r.action

theorem Started.append {header : Ehdr} {log ws : List Event} (h : Started stream header log)
    (hws : Quiet ws) : Started stream header (log ++ ws) := by
  obtain ⟨before, after, hlog, hbefore, hafter⟩ := h.events
  refine ⟨h.whole, h.found, h.valid, before, after ++ ws, ?_, hbefore, ?_⟩
  · rw [hlog, List.append_assoc, List.cons_append]
  · exact List.forall_mem_append.mpr ⟨hafter, hws⟩

/-- Reading on keeps what has been handed over. -/
theorem Started.later {header : Ehdr} (h : Started stream header r.log)
    (hlater : Later stream Event.IsWarning r r') : Started stream header r'.log := by
  obtain ⟨ws, hlog, hws⟩ := hlater.events
  rw [hlog]
  exact h.append hws

section Actions

variable {env : Environment} {h : Handler σ}

/-- A warning, and the end: a way out of an action. -/
theorem giveUp_spec (msg : String) (hr : Sound stream r)
    (hbefore : Quiet r.log ∨ ∃ header, Started stream header r.log) :
    Finishes (handleWarning env h msg >>= fun _ => setAction (some .done)) r
      (fun _ r' => AtStage stream r' ∧ r'.action = some .done) := by
  refine (handleWarning_spec env h msg hr).bind ?_
  rintro ⟨⟩ t ⟨hlater, -, text, hlog⟩
  have hnow : Quiet t.log ∨ ∃ header, Started stream header t.log := by
    rcases hbefore with hquiet | ⟨header, hstarted⟩
    · obtain ⟨ws, hlog', hws⟩ := hlater.events
      rw [hlog']
      exact Or.inl (List.forall_mem_append.mpr ⟨hquiet, hws⟩)
    · exact Or.inr ⟨header, hstarted.later hlater⟩
  have hwarned : Event.warning text ∈ t.log := by
    rw [hlog]
    exact List.mem_append_right _ (List.mem_singleton_self _)
  exact Finishes.act ⟨⟨hlater.sound.frame rfl,
    Or.inl ⟨hnow, text, hwarned⟩⟩, rfl⟩

/-- Going on to an action. -/
theorem setAction_spec (a : Option Action) (hr : Sound stream r) (hstage : Stage stream r a) :
    Finishes (setAction a) r (fun _ r' => AtStage stream r' ∧ r'.action = a) := by
  refine Finishes.act ⟨⟨hr.frame rfl, ?_⟩, rfl⟩
  rcases a with _ | ⟨⟩ <;> exact hstage

/-- A stage after an action, nearer to the end. -/
def NextStage (stream : List UInt8) (a : Action) (r : Reader σ) : Prop :=
  AtStage stream r ∧ Action.rank r.action < Action.rank (some a)

theorem AtStage.next {a : Action} {b : Option Action} (h : AtStage stream r ∧ r.action = b)
    (hrank : Action.rank b < Action.rank (some a)) : NextStage stream a r :=
  ⟨h.1, h.2.symm ▸ hrank⟩

theorem prvActionDone_spec (hr : AtStage stream r) (haction : r.action = some .done) :
    Finishes (prvActionDone h) r (fun _ r' => NextStage stream .done r') := by
  obtain ⟨hsound, hstage⟩ := hr
  rw [haction] at hstage
  exact Finishes.act ⟨⟨hsound.frame rfl, r.log, rfl, hstage⟩,
    Nat.lt_succ_self 0⟩

/-- The table that has been read is the one in the stream. -/
theorem HasRead.table {size phnum : Nat} {got : List UInt8} (h : HasRead stream size r got r')
    (hlen : got.length = phnum * phdrSize) :
    decodeTable phnum got = decodeTable phnum (stream.drop r.streamPos) := by
  rw [h.bytes, hlen, decodeTable_take]

/-- What has been read was there. -/
theorem HasRead.inside {size : Nat} {got : List UInt8} (h : HasRead stream size r got r') :
    r.streamPos + got.length ≤ stream.length := by
  rw [← h.pos]
  exact h.later.sound.inside

theorem prvActionReadSegmentHeaders_spec (hcalm : env.Calms) (hr : AtStage stream r)
    (haction : r.action = some .readSegmentHeaders) :
    Finishes (prvActionReadSegmentHeaders env h) r
      (fun _ r' => NextStage stream .readSegmentHeaders r') := by
  obtain ⟨hsound, hstage⟩ := hr
  rw [haction] at hstage
  obtain ⟨hstarted, hpos⟩ := hstage
  refine Finishes.step (Finishes.step ?_)
  dsimp only
  refine (prvReadAll_spec hcalm _ _ hsound).bind ?_
  intro got t hgot
  have hstarted' := hstarted.later hgot.later
  by_cases hlen : got.length = r.elfHeader.phnum * phdrSize
  · rw [if_pos hlen]
    have htable := hgot.table hlen
    have hinside := hgot.inside
    rw [hpos] at htable hinside
    rw [hlen] at hinside
    refine Finishes.step (Finishes.step ?_)
    dsimp only
    have hcalled : Sound stream { t with log := t.log
        ++ [.segments (decodeTable r.elfHeader.phnum got)] } :=
      hgot.later.sound.frame rfl
    refine (runScript_spec hcalm _ hcalled (hgot.later.action.trans haction)).bind ?_
    rintro ⟨⟩ t' hlater
    obtain ⟨es, hlog, hes⟩ := hlater.events
    have hdelivered : Delivered stream t'.log := by
      refine ⟨r.elfHeader, t.log, es, hstarted', hinside, ?_, hes⟩
      rw [hlog, ← htable, List.append_assoc]
      rfl
    exact (setAction_spec (some .done) hlater.sound (Or.inr hdelivered)).weaken
      fun _ _ hstage => AtStage.next hstage (Nat.lt_succ_self 1)
  · rw [if_neg hlen]
    exact (giveUp_spec _ hgot.later.sound (Or.inr ⟨_, hstarted'⟩)).weaken
      fun _ _ hstage => AtStage.next hstage (Nat.lt_succ_self 1)

theorem prvActionPrepareSegmentHeaders_spec (hr : AtStage stream r)
    (haction : r.action = some .prepareSegmentHeaders) :
    Finishes (prvActionPrepareSegmentHeaders env h) r
      (fun _ r' => NextStage stream .prepareSegmentHeaders r') := by
  obtain ⟨hsound, hstage⟩ := hr
  rw [haction] at hstage
  obtain ⟨hstarted, hpos, hnull⟩ := hstage
  refine assertThat_spec (decide_eq_true hnull) ?_
  refine Finishes.step ?_
  dsimp only
  by_cases hsome : r.elfHeader.phnum * phdrSize > 0
  · rw [if_pos hsome]
    by_cases halloc : env.malloc (r.elfHeader.phnum * phdrSize) = false
    · rw [if_pos halloc]
      exact (giveUp_spec _ hsound (Or.inr ⟨_, hstarted⟩)).weaken
        fun _ _ hstage => AtStage.next hstage (by decide)
    · rw [if_neg halloc]
      refine Finishes.step ?_
      dsimp only
      have hsound' : Sound stream { r with segments := true } :=
        hsound.frame rfl
      exact (setAction_spec (some .readSegmentHeaders) hsound' ⟨hstarted, hpos⟩).weaken
        fun _ _ hstage => AtStage.next hstage (Nat.lt_succ_self 2)
  · rw [if_neg hsome]
    exact (setAction_spec (some .readSegmentHeaders) hsound ⟨hstarted, hpos⟩).weaken
      fun _ _ hstage => AtStage.next hstage (Nat.lt_succ_self 2)

theorem prvActionSkipToSegmentHeaders_spec (hcalm : env.Calms) (hr : AtStage stream r)
    (haction : r.action = some .skipToSegmentHeaders) :
    Finishes (prvActionSkipToSegmentHeaders env h) r
      (fun _ r' => NextStage stream .skipToSegmentHeaders r') := by
  obtain ⟨hsound, hstage⟩ := hr
  rw [haction] at hstage
  obtain ⟨hstarted, hle, hnull⟩ := hstage
  refine assertThat_spec (decide_eq_true hle) ?_
  refine Finishes.step ?_
  dsimp only
  refine (prvReadAll_spec hcalm true _ hsound).bind ?_
  intro got t hgot
  have hstarted' := hstarted.later hgot.later
  by_cases hshort : got.length < r.elfHeader.phoff - r.streamPos
  · rw [if_pos hshort]
    exact (giveUp_spec _ hgot.later.sound (Or.inr ⟨_, hstarted'⟩)).weaken
      fun _ _ hstage => AtStage.next hstage (by decide)
  · rw [if_neg hshort]
    have hall := hgot.size_le
    have hpos : t.streamPos = t.elfHeader.phoff := by
      rw [hgot.pos, hgot.later.elfHeader]
      omega
    rw [← hgot.later.elfHeader] at hstarted'
    exact (setAction_spec (some .prepareSegmentHeaders) hgot.later.sound
      ⟨hstarted', hpos, hgot.later.segments.trans hnull⟩).weaken
      fun _ _ hstage => AtStage.next hstage (by decide)

theorem prvActionReadElfHeader_spec (hcalm : env.Calms) (hr : AtStage stream r)
    (haction : r.action = some .readElfHeader) :
    Finishes (prvActionReadElfHeader env h) r
      (fun _ r' => NextStage stream .readElfHeader r') := by
  obtain ⟨hsound, hstage⟩ := hr
  rw [haction] at hstage
  obtain ⟨hlog, hpos, hnull⟩ := hstage
  refine (prvReadAll_spec hcalm false ehdrSize hsound).bind ?_
  intro got t hgot
  have hquiet : Quiet t.log := by
    obtain ⟨ws, hlog', hws⟩ := hgot.later.events
    rw [hlog', hlog]
    exact hws
  refine assertThat_spec (decide_eq_true hgot.size_le) ?_
  by_cases hshort : got.length < ehdrSize
  · rw [if_pos hshort]
    exact (giveUp_spec _ hgot.later.sound (Or.inl hquiet)).weaken
      fun _ _ hstage => AtStage.next hstage (by decide)
  · rw [if_neg hshort]
    have hlen : got.length = ehdrSize := Nat.le_antisymm hgot.size_le (Nat.le_of_not_lt hshort)
    have hbytes : got = stream.take ehdrSize := by
      rw [hgot.bytes, hpos, hlen, List.drop_zero]
    have hwhole := hgot.inside
    rw [hpos, hlen, Nat.zero_add] at hwhole
    refine Finishes.step ?_
    dsimp only
    have hsound' : Sound stream { t with elfHeader := Ehdr.decode got } :=
      hgot.later.sound.frame rfl
    by_cases hinvalid : ticosCoreElfReaderIsValidCoreElf (Ehdr.decode got) = false
    · rw [if_pos hinvalid]
      exact (giveUp_spec _ hsound' (Or.inl hquiet)).weaken
        fun _ _ hstage => AtStage.next hstage (by decide)
    · rw [if_neg hinvalid]
      refine Finishes.step (Finishes.step ?_)
      dsimp only
      let t' : Reader σ := { t with
        elfHeader := Ehdr.decode got
        state := h.handleElfHeader t.state (Ehdr.decode got)
        log := t.log ++ [.elfHeader (Ehdr.decode got)] }
      have hsound'' : Sound stream t' :=
        hgot.later.sound.frame rfl
      have hstarted : Started stream t'.elfHeader t'.log :=
        ⟨hwhole, by rw [← hbytes], Bool.of_not_eq_false hinvalid, t.log, [], rfl, hquiet, nofun⟩
      have hnull' : t'.segments = false := hgot.later.segments.trans hnull
      by_cases heq : (Ehdr.decode got).phoff = t.streamPos
      · rw [if_pos heq]
        exact (setAction_spec (some .prepareSegmentHeaders) hsound''
          ⟨hstarted, heq.symm, hnull'⟩).weaken
          fun _ _ hstage => AtStage.next hstage (by decide)
      · rw [if_neg heq]
        by_cases hgt : (Ehdr.decode got).phoff > t.streamPos
        · rw [if_pos hgt]
          refine (handleWarning_spec env h _ hsound'').bind ?_
          rintro ⟨⟩ t₂ ⟨hlater, hpos₂, -⟩
          have hstarted₂ := hstarted.later hlater
          rw [← hlater.elfHeader] at hstarted₂
          refine (setAction_spec (a := some .skipToSegmentHeaders) hlater.sound
            ⟨hstarted₂, ?_, hlater.segments.trans hnull'⟩).weaken
            fun _ _ hstage => AtStage.next hstage (by decide)
          rw [hpos₂, hlater.elfHeader]
          exact Nat.le_of_lt hgt
        · rw [if_neg hgt]
          exact (giveUp_spec _ hsound'' (Or.inr ⟨_, hstarted⟩)).weaken
            fun _ _ hstage => AtStage.next hstage (by decide)

/-- **Every action** leads to a later stage. -/
theorem perform_spec (hcalm : env.Calms) (a : Action) (hr : AtStage stream r)
    (haction : r.action = some a) :
    Finishes (perform env h a) r (fun _ r' => NextStage stream a r') := by
  cases a with
  | readElfHeader => exact prvActionReadElfHeader_spec hcalm hr haction
  | skipToSegmentHeaders => exact prvActionSkipToSegmentHeaders_spec hcalm hr haction
  | prepareSegmentHeaders => exact prvActionPrepareSegmentHeaders_spec hr haction
  | readSegmentHeaders => exact prvActionReadSegmentHeaders_spec hcalm hr haction
  | done => exact prvActionDone_spec hr haction

/-- **The loop over the actions** comes to the end. -/
theorem actionLoop_spec (hcalm : env.Calms) (hr : AtStage stream r) :
    Finishes (Prog.loop (actionRound env h) ()) r
      (fun _ r' => AtStage stream r' ∧ r'.action = none) := by
  refine Finishes.loop (fun _ t => AtStage stream t) (fun _ t => Action.rank t.action) ?_ hr
  rintro ⟨⟩ t ht
  refine Finishes.step ?_
  dsimp only
  cases haction : t.action with
  | none => exact Finishes.pure ⟨ht, haction⟩
  | some a =>
      refine (perform_spec hcalm a ht haction).bind ?_
      rintro ⟨⟩ t' ⟨hstage, hrank⟩
      exact Finishes.pure ⟨hstage, hrank⟩

end Actions

/-! ## The protocol -/

def Event.isElfHeader : Event → Bool
  | .elfHeader _ => true
  | _ => false

def Event.isSegments : Event → Bool
  | .segments _ => true
  | _ => false

/-- What a handler may rely on. -/
structure Protocol (stream : List UInt8) (log : List Event) : Prop where
  done_last : ∃ cs, log = cs ++ [.done] ∧ .done ∉ cs
  elfHeader_once : log.countP Event.isElfHeader ≤ 1
  elfHeader_accepted : ∀ header, .elfHeader header ∈ log →
    header = Ehdr.decode (stream.take ehdrSize) ∧ ticosCoreElfReaderIsValidCoreElf header = true
  segments_once : log.countP Event.isSegments ≤ 1
  segments_table : ∀ before table after, log = before ++ .segments table :: after →
    ∃ header, .elfHeader header ∈ before ∧
      header.phoff + header.phnum * phdrSize ≤ stream.length ∧
      table = decodeTable header.phnum (stream.drop header.phoff)
  warned : (∀ table, .segments table ∉ log) → ∃ msg, .warning msg ∈ log

/-- Callbacks while reading are none of the others. -/
theorem Event.IsRead.plain {e : Event} (h : e.IsRead) :
    e.isElfHeader = false ∧ e.isSegments = false ∧ e ≠ .done := by
  cases e with
  | warning _ | segmentData _ _ _ _ => exact ⟨rfl, rfl, nofun⟩
  | elfHeader _ | segments _ | done => exact h.elim

/-- How many headers and tables there are, and whether it is done. -/
structure Counts (headers tables : Nat) (es : List Event) : Prop where
  headers : es.countP Event.isElfHeader = headers
  tables : es.countP Event.isSegments = tables
  done : .done ∉ es

theorem Counts.append {m n m' n' : Nat} {es es' : List Event} (h : Counts m n es)
    (h' : Counts m' n' es') : Counts (m + m') (n + n') (es ++ es') := by
  refine ⟨?_, ?_, ?_⟩
  · rw [List.countP_append, h.headers, h'.headers]
  · rw [List.countP_append, h.tables, h'.tables]
  · exact fun hmem => (List.mem_append.mp hmem).elim h.done h'.done

theorem counts_read {es : List Event} (h : ∀ e ∈ es, e.IsRead) : Counts 0 0 es := by
  refine ⟨List.countP_eq_zero.mpr ?_, List.countP_eq_zero.mpr ?_, ?_⟩
  · exact fun e he => Bool.eq_false_iff.mp (h e he).plain.1
  · exact fun e he => Bool.eq_false_iff.mp (h e he).plain.2.1
  · exact fun hmem => (h _ hmem).plain.2.2 rfl

theorem Quiet.counts {es : List Event} (h : Quiet es) : Counts 0 0 es :=
  counts_read fun e he => (h e he).isRead

theorem Started.counts {header : Ehdr} {log : List Event} (h : Started stream header log) :
    Counts 1 0 log := by
  obtain ⟨ws, ws', rfl, hws, hws'⟩ := h.events
  have hone : Counts 1 0 [.elfHeader header] := ⟨rfl, rfl, by simp⟩
  exact hws.counts.append (hone.append hws'.counts)

/-- No table is in a list without one. -/
theorem Counts.no_table {m : Nat} {es : List Event} (h : Counts m 0 es) (table : List Phdr) :
    .segments table ∉ es := fun hmem => List.countP_eq_zero.mp h.tables _ hmem rfl

theorem Started.mem {header header' : Ehdr} {log : List Event} (h : Started stream header log)
    (hmem : .elfHeader header' ∈ log) : header' = header := by
  obtain ⟨ws, ws', rfl, hws, hws'⟩ := h.events
  rcases List.mem_append.mp hmem with hleft | hright
  · exact (hws _ hleft).elim
  · rcases List.mem_cons.mp hright with heq | hright
    · injection heq
    · exact (hws' _ hright).elim

/-- All but the last one. -/
theorem mem_of_mem_snoc {log : List Event} {e last : Event} (h : e ∈ log ++ [last])
    (hne : e ≠ last) : e ∈ log := by
  rcases List.mem_append.mp h with hmem | hmem
  · exact hmem
  · exact absurd (List.mem_singleton.mp hmem) hne

theorem GaveUp.protocol {cs : List Event} (h : GaveUp stream cs) :
    Protocol stream (cs ++ [.done]) := by
  obtain ⟨msg, hmsg⟩ := h.warned
  have hcounts : ∃ m, m ≤ 1 ∧ Counts m 0 cs := by
    rcases h.before with hquiet | ⟨header, hstarted⟩
    · exact ⟨0, Nat.zero_le 1, hquiet.counts⟩
    · exact ⟨1, Nat.le_refl 1, hstarted.counts⟩
  obtain ⟨m, hm, hcounts⟩ := hcounts
  have hno : ∀ table, .segments table ∉ cs ++ [.done] := by
    intro table hmem
    exact hcounts.no_table table (mem_of_mem_snoc hmem nofun)
  refine ⟨⟨cs, rfl, hcounts.done⟩, ?_, ?_, ?_, ?_, fun _ => ⟨msg, List.mem_append_left _ hmsg⟩⟩
  · rw [List.countP_append, hcounts.headers]
    exact hm
  · intro header hmem
    have hmem' := mem_of_mem_snoc hmem nofun
    rcases h.before with hquiet | ⟨header', hstarted⟩
    · exact (hquiet _ hmem').elim
    · obtain rfl := hstarted.mem hmem'
      exact ⟨hstarted.found, hstarted.valid⟩
  · rw [List.countP_append, hcounts.tables]
    exact Nat.zero_le 1
  · intro before table after heq
    refine absurd ?_ (hno table)
    rw [heq]
    exact List.mem_append_right _ List.mem_cons_self

theorem Delivered.protocol {cs : List Event} (h : Delivered stream cs) :
    Protocol stream (cs ++ [.done]) := by
  obtain ⟨header, pre, es, hstarted, hinside, rfl, hes⟩ := h
  have hpre := hstarted.counts
  have hcounts := counts_read hes
  have htable : Counts 0 1 [.segments (decodeTable header.phnum (stream.drop header.phoff))] :=
    ⟨rfl, rfl, by simp⟩
  have hall : Counts 1 1 (pre
      ++ .segments (decodeTable header.phnum (stream.drop header.phoff)) :: es) :=
    hpre.append (htable.append hcounts)
  have hmem : .elfHeader header ∈ pre := by
    obtain ⟨ws, ws', rfl, -⟩ := hstarted.events
    exact List.mem_append_right _ List.mem_cons_self
  refine ⟨⟨_, rfl, hall.done⟩, ?_, ?_, ?_, ?_, ?_⟩
  · rw [List.countP_append, hall.headers]
    exact Nat.le_refl 1
  · intro header' hmem'
    have hhere : .elfHeader header' ∈ pre := by
      rcases List.mem_append.mp (mem_of_mem_snoc hmem' nofun) with hleft | hright
      · exact hleft
      · rcases List.mem_cons.mp hright with heq | hright
        · exact nomatch heq
        · exact (hes _ hright).elim
    obtain rfl := hstarted.mem hhere
    exact ⟨hstarted.found, hstarted.valid⟩
  · rw [List.countP_append, hall.tables]
    exact Nat.le_refl 1
  · -- there is only one place for a table
    intro before table after heq
    have hlater : .segments table ∉ es ++ [.done] := by
      intro hmem'
      exact hcounts.no_table table (mem_of_mem_snoc hmem' nofun)
    rw [List.append_assoc, List.cons_append,
      List.append_cons_inj_of_notMem (hpre.no_table table) hlater] at heq
    obtain ⟨rfl, heq, -⟩ := heq
    injection heq with heq
    exact ⟨header, hmem, hinside, heq.symm⟩
  · exact fun hno => absurd (List.mem_append_left _ (List.mem_append_right _ List.mem_cons_self))
      (hno _)

/-- **The protocol of the reader**: for every stream, every IO object that is not
    interrupted for ever, every outcome of every allocation and every handler, a fresh
    reader ends and returns true, its handler sees the callbacks that it may rely on,
    and no assert fails. -/
theorem read_all_protocol {env : Environment} (hcalm : env.Calms) (h : Handler σ)
    (stream : List UInt8) (state : σ) :
    ∃ n r, (ticosCoreElfReaderReadAll env h).run n (ticosCoreElfReaderInit stream state)
        = (some true, r) ∧
      r.action = none ∧ Protocol stream r.log ∧ r.assertFailed = false := by
  have hrun : Finishes (ticosCoreElfReaderReadAll env h) (ticosCoreElfReaderInit stream state)
      (fun ok r => ok = true ∧ AtStage stream r ∧ r.action = none) := by
    refine Finishes.step ?_
    have hstart : AtStage stream
        { ticosCoreElfReaderInit stream state with action := some .readElfHeader } :=
      ⟨⟨rfl, Nat.zero_le _, rfl⟩, rfl, rfl, rfl⟩
    refine Finishes.step ?_
    refine (actionLoop_spec hcalm hstart).bind ?_
    rintro ⟨⟩ r hr
    exact Finishes.pure ⟨rfl, hr⟩
  obtain ⟨n, ok, r, hn, rfl, ⟨hsound, hstage⟩, haction⟩ := finishes_iff.mp hrun
  rw [haction] at hstage
  obtain ⟨cs, hlog, hcs⟩ := hstage
  refine ⟨n, r, hn, haction, ?_, hsound.asserts⟩
  rw [hlog]
  rcases hcs with hgave | hdelivered
  · exact hgave.protocol
  · exact hdelivered.protocol

/-- Short reads, an interrupt, a read error, and no memory for every other message. -/
def flaky : Environment where
  read
    | 0, _, _ => .fail eintr
    | 5, _, _ => .fail 5
    | _, _, _ => .deliver 40
  malloc _ := true
  text i := i % 2 == 0
  strerror _ := "Input/output error"

/-- A handler that keeps nothing and reads the data of every segment. -/
def readEverything : Handler Unit where
  handleElfHeader s _ := s
  handleSegments := CoreElfReader.readEverything.handleSegments
  handleWarning s _ := s
  handleDone s := s

theorem read_all_protocol_flaky :
    ∃ n r, (ticosCoreElfReaderReadAll flaky readEverything).run n
        (ticosCoreElfReaderInit CoreElfReader.smallCore ()) = (some true, r) ∧
      r.action = none ∧ Protocol CoreElfReader.smallCore r.log ∧ r.assertFailed = false := by
  refine read_all_protocol ⟨6, ?_⟩ readEverything _ ()
  intro i hi null size
  have hread : flaky.read i null size = .deliver 40 := by
    match i, hi with
    | _ + 6, _ => rfl
  rw [hread]
  exact nofun

example : ((ticosCoreElfReaderReadAll flaky readEverything).run 9
    (ticosCoreElfReaderInit [0x7f, 69, 76] ())).2.log
      = [.warning (some "Unexpected short read while reading ELF header"), .done] := by
  decide +kernel

end ReaderProtocol
