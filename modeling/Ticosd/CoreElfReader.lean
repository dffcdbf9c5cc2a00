import Ticosd.CoreElf

/-! # Core reader — `core_elf_reader.c` over any read schedule

    The reader takes its bytes from a stream through an IO object that follows
    `read(2)`: it delivers between one and the requested number of bytes, none at
    the end of the stream, and may fail.  A schedule is the list of what the calls
    do; when it is used up, every call delivers all that is asked for.

    The handler is any object with a state.  In `handle_segments` it may ask for
    segment data; what it asks for next depends on what it has received, so its
    body is a tree of requests (`Script`).

    `prv_read_all` makes up for short reads and interrupted calls, so that the
    schedule shows nowhere behind it. -/

namespace CoreElfReader

open CoreElf

/-! ## The IO object -/

/-- What a call of `read` does. -/
inductive Choice where
  | deliver (n : Nat)
  | eintr
  | failure (strerror : String)

/-- The rest of the stream, and what the next calls do. -/
structure ReadIo where
  stream : List UInt8
  schedule : List Choice

/-- The result of a call. -/
inductive ReadResult where
  | bytes (bs : List UInt8)
  | eintr
  | failure (strerror : String)

/-- `io->read`. -/
def ReadIo.read (io : ReadIo) (size : Nat) : ReadResult × ReadIo :=
  match io.schedule with
  | [] => (.bytes (io.stream.take size), ⟨io.stream.drop size, []⟩)
  | .deliver n :: rest =>
      (.bytes (io.stream.take (min (max n 1) size)),
        ⟨io.stream.drop (min (max n 1) size), rest⟩)
  | .eintr :: rest => (.eintr, ⟨io.stream, rest⟩)
  | .failure e :: rest => (.failure e, ⟨io.stream, rest⟩)

/-! ## Handlers -/

/-- The body of a `handle_segments` callback: it ends with a state of the handler,
    or calls `ticos_core_elf_reader_read_segment_data` and goes on with the state,
    the count and the bytes in the buffer (none for a NULL buffer). -/
inductive Script (σ : Type) where
  | done (state : σ)
  | read (state : σ) (atPos : Nat) (nullBuffer : Bool) (bufferSize : Nat)
      (next : σ → Nat → List UInt8 → Script σ)

/-- `sTicosCoreElfReaderHandler`. -/
structure Handler (σ : Type) where
  handleElfHeader : σ → Ehdr → σ
  handleSegments : σ → List Phdr → Script σ
  handleWarning : σ → String → σ
  handleDone : σ → σ

/-- The calls a handler sees and the results of those it makes. -/
inductive Callback where
  | elfHeader (header : Ehdr)
  | segments (segments : List Phdr)
  | warning (msg : String)
  | segmentData (atPos bufferSize count : Nat) (bytes : List UInt8)
  | done
  deriving DecidableEq

/-- The actions of the reader. -/
inductive Action where
  | readElfHeader
  | skipToSegmentHeaders
  | prepareSegmentHeaders
  | readSegmentHeaders
  | done
  deriving DecidableEq

/-- `struct TicosCoreElfReader`, with the state of the handler and a record of the
    callbacks; `malloc` answers whether so many bytes can be allocated. -/
structure Reader (σ : Type) where
  io : ReadIo
  malloc : Nat → Bool
  action : Option Action
  streamPos : Nat
  elfHeader : Ehdr
  state : σ
  log : List Callback

variable {σ : Type}

/-- `ticos_core_elf_reader_init`. -/
def ticosCoreElfReaderInit (io : ReadIo) (malloc : Nat → Bool) (state : σ) : Reader σ where
  io := io
  malloc := malloc
  action := none
  streamPos := 0
  elfHeader := default
  state := state
  log := []

/-- A call of `handle_warning`. -/
def Reader.warn (h : Handler σ) (r : Reader σ) (msg : String) : Reader σ :=
  { r with state := h.handleWarning r.state msg, log := r.log ++ [.warning msg] }

/-! ## Reading -/

/-- A call leaves no more to be done: the schedule gets shorter or the bytes do. -/
theorem ReadIo.read_schedule (io : ReadIo) (size : Nat) :
    (io.read size).2.schedule.length ≤ io.schedule.length := by
  rw [ReadIo.read]
  split
  · exact Nat.zero_le _
  · rename_i heq
    rw [heq]
    exact Nat.le_succ _
  · rename_i heq
    rw [heq]
    exact Nat.le_succ _
  · rename_i heq
    rw [heq]
    exact Nat.le_succ _

theorem ReadIo.read_eintr {io io' : ReadIo} {size : Nat} (h : io.read size = (.eintr, io')) :
    io'.schedule.length < io.schedule.length := by
  rw [ReadIo.read] at h
  split at h
  · exact nomatch (Prod.mk.inj h).1
  · exact nomatch (Prod.mk.inj h).1
  · rename_i heq
    rw [heq, ← (Prod.mk.inj h).2]
    exact Nat.lt_succ_self _
  · exact nomatch (Prod.mk.inj h).1

/-- The loop of `prv_read_all`: the bytes read and the reader afterwards. -/
def prvReadAll (h : Handler σ) (r : Reader σ) (size : Nat) : List UInt8 × Reader σ :=
  if size = 0 then ([], r)
  else match _hread : r.io.read size with
    | (.eintr, io) => prvReadAll h { r with io := io } size
    | (.failure e, io) => ([], Reader.warn h { r with io := io } ("read() failure: " ++ e))
    | (.bytes bs, io) =>
        if bs.length = 0 then ([], { r with io := io })
        else
          let rest := prvReadAll h { r with io := io, streamPos := r.streamPos + bs.length }
            (size - bs.length)
          (bs ++ rest.1, rest.2)
termination_by r.io.schedule.length + size
decreasing_by
  · have := ReadIo.read_eintr _hread
    omega
  · have hle : io.schedule.length ≤ r.io.schedule.length := by
      have := ReadIo.read_schedule r.io size
      rw [_hread] at this
      exact this
    show io.schedule.length + (size - bs.length) < r.io.schedule.length + size
    omega

/-- `ticos_core_elf_reader_read_segment_data`: the bytes copied. -/
def ticosCoreElfReaderReadSegmentData (h : Handler σ) (r : Reader σ) (atPos bufferSize : Nat) :
    List UInt8 × Reader σ :=
  if atPos < r.streamPos then ([], r)
  else
    let skipSize := atPos - r.streamPos
    if skipSize > 0 then
      let skipped := prvReadAll h r skipSize
      if skipped.1.length < skipSize then ([], skipped.2)
      else prvReadAll h skipped.2 bufferSize
    else prvReadAll h r bufferSize

/-- A `handle_segments` callback. -/
def runScript (h : Handler σ) (r : Reader σ) : Script σ → Reader σ
  | .done state => { r with state := state }
  | .read state atPos nullBuffer bufferSize next =>
      let data := ticosCoreElfReaderReadSegmentData h { r with state := state } atPos bufferSize
      let bytes := if nullBuffer then [] else data.1
      runScript h
        { data.2 with log := data.2.log ++ [.segmentData atPos bufferSize data.1.length bytes] }
        (next data.2.state data.1.length bytes)

/-! ## Actions -/

/-- `prv_action_done`. -/
def prvActionDone (h : Handler σ) (r : Reader σ) : Reader σ :=
  { r with state := h.handleDone r.state, log := r.log ++ [.done], action := none }

/-- `prv_action_read_segment_headers`. -/
def prvActionReadSegmentHeaders (h : Handler σ) (r : Reader σ) : Reader σ :=
  let totalSegmentsSize := r.elfHeader.phnum * phdrSize
  let read := prvReadAll h r totalSegmentsSize
  let r' :=
    if read.1.length = totalSegmentsSize then
      let segments := decodeTable r.elfHeader.phnum read.1
      runScript h { read.2 with log := read.2.log ++ [Callback.segments segments] }
        (h.handleSegments read.2.state segments)
    else read.2.warn h "Unexpected short read while reading segment headers"
  { r' with action := some .done }

/-- `prv_action_prepare_segment_headers`. -/
def prvActionPrepareSegmentHeaders (h : Handler σ) (r : Reader σ) : Reader σ :=
  let totalSegmentsSize := r.elfHeader.phnum * phdrSize
  if totalSegmentsSize > 0 ∧ r.malloc totalSegmentsSize = false then
    { r.warn h ("Not enough memory for " ++ toString r.elfHeader.phnum ++ " segment headers") with
      action := some .done }
  else { r with action := some .readSegmentHeaders }

/-- `prv_action_skip_to_segment_headers`. -/
def prvActionSkipToSegmentHeaders (h : Handler σ) (r : Reader σ) : Reader σ :=
  let skipSize := r.elfHeader.phoff - r.streamPos
  let read := prvReadAll h r skipSize
  if read.1.length < skipSize then
    { read.2.warn h "Unexpected short read while skipping" with action := some .done }
  else { read.2 with action := some .prepareSegmentHeaders }

/-- `prv_action_read_elf_header`. -/
def prvActionReadElfHeader (h : Handler σ) (r : Reader σ) : Reader σ :=
  let read := prvReadAll h r ehdrSize
  if read.1.length < ehdrSize then
    { read.2.warn h "Unexpected short read while reading ELF header" with action := some .done }
  else
    let header := Ehdr.decode read.1
    let r := { read.2 with elfHeader := header }
    if ticosCoreElfReaderIsValidCoreElf header = false then
      { r.warn h "Not an ELF coredump" with action := some .done }
    else
      let r := { r with
        state := h.handleElfHeader r.state header
        log := r.log ++ [Callback.elfHeader header] }
      if header.phoff = r.streamPos then { r with action := some .prepareSegmentHeaders }
      else if header.phoff > r.streamPos then
        { r.warn h "Ignoring data between header and segment table" with
          action := some .skipToSegmentHeaders }
      else { r.warn h "Unexpected segment table offset" with action := some .done }

/-- The function an action stands for. -/
def Action.perform (h : Handler σ) (r : Reader σ) : Action → Reader σ
  | .readElfHeader => prvActionReadElfHeader h r
  | .skipToSegmentHeaders => prvActionSkipToSegmentHeaders h r
  | .prepareSegmentHeaders => prvActionPrepareSegmentHeaders h r
  | .readSegmentHeaders => prvActionReadSegmentHeaders h r
  | .done => prvActionDone h r

/-- The loop over the actions, at most `fuel` of them. -/
def actionLoop (h : Handler σ) : Nat → Reader σ → Reader σ
  | 0, r => r
  | fuel + 1, r =>
      match r.action with
      | none => r
      | some a => actionLoop h fuel (a.perform h r)

/-- `ticos_core_elf_reader_read_all`; no run has more than five actions. -/
def ticosCoreElfReaderReadAll (h : Handler σ) (r : Reader σ) : Bool × Reader σ :=
  if r.action ≠ none then (false, r)
  else (true, actionLoop h 5 { r with action := some .readElfHeader })

/-! ## What `prv_read_all` reads -/

/-- No call fails but by an interrupt. -/
def NoFailure (schedule : List Choice) : Prop := ∀ e, Choice.failure e ∉ schedule

/-- A call delivers the next bytes of the stream, at least one of them if there
    are any, or is interrupted. -/
theorem ReadIo.read_cases (io : ReadIo) {size : Nat} (hsize : 0 < size)
    (hs : NoFailure io.schedule) :
    (∃ s, NoFailure s ∧ io.read size = (.eintr, ⟨io.stream, s⟩)) ∨
    ∃ s k, NoFailure s ∧ 0 < k ∧ k ≤ size ∧
      io.read size = (.bytes (io.stream.take k), ⟨io.stream.drop k, s⟩) := by
  obtain ⟨stream, schedule⟩ := io
  cases schedule with
  | nil => exact Or.inr ⟨[], size, fun e he => (nomatch he), hsize, Nat.le_refl _, rfl⟩
  | cons c rest =>
      have hrest : NoFailure rest := fun e he => hs e (List.mem_cons_of_mem c he)
      cases c with
      | deliver n => exact Or.inr ⟨rest, min (max n 1) size, hrest, by omega, by omega, rfl⟩
      | eintr => exact Or.inl ⟨rest, hrest, rfl⟩
      | failure e => exact absurd List.mem_cons_self (hs e)

variable {α : Type}

/-- Two pieces, the second one after what the first one delivered. -/
theorem take_then_take {l : List α} {k n : Nat} (h : k ≤ n) :
    l.take k ++ (l.drop k).take (n - (l.take k).length) = l.take n := by
  by_cases hlong : k ≤ l.length
  · rw [List.length_take, Nat.min_eq_left hlong, ← List.take_add, Nat.add_sub_cancel' h]
  · have hk : l.drop k = [] := List.drop_eq_nil_of_le (by omega)
    rw [hk, List.take_nil, List.append_nil, List.take_of_length_le (by omega),
      List.take_of_length_le (by omega)]

theorem drop_then_drop {l : List α} {k n : Nat} (h : k ≤ n) :
    (l.drop k).drop (n - (l.take k).length) = l.drop n := by
  by_cases hlong : k ≤ l.length
  · rw [List.length_take, Nat.min_eq_left hlong, List.drop_drop, Nat.add_sub_cancel' h]
  · have hk : l.drop k = [] := List.drop_eq_nil_of_le (by omega)
    rw [hk, List.drop_nil, List.drop_eq_nil_of_le (by omega)]

/-- **`prv_read_all` reads as if in one piece**: the next `size` bytes of the stream,
    or what there is of them. -/
theorem prvReadAll_eq (h : Handler σ) (r : Reader σ) (size : Nat)
    (hs : NoFailure r.io.schedule) :
    ∃ s, NoFailure s ∧ prvReadAll h r size =
      (r.io.stream.take size, { r with
        io := ⟨r.io.stream.drop size, s⟩
        streamPos := r.streamPos + (r.io.stream.take size).length }) := by
  fun_induction prvReadAll h r size with
  | case1 r => exact ⟨r.io.schedule, hs, rfl⟩
  | case2 r size hsize io hread ih =>
      rcases r.io.read_cases (Nat.pos_of_ne_zero hsize) hs with ⟨s, hs', heq⟩ | ⟨s, k, -, -, -, heq⟩
      · obtain rfl : io = ⟨r.io.stream, s⟩ := (Prod.mk.inj (hread.symm.trans heq)).2
        exact ih hs'
      · exact nomatch (Prod.mk.inj (hread.symm.trans heq)).1
  | case3 r size hsize e io hread =>
      rcases r.io.read_cases (Nat.pos_of_ne_zero hsize) hs with ⟨s, -, heq⟩ | ⟨s, k, -, -, -, heq⟩
      · exact nomatch (Prod.mk.inj (hread.symm.trans heq)).1
      · exact nomatch (Prod.mk.inj (hread.symm.trans heq)).1
  | case4 r size hsize bs io hread hlen =>
      rcases r.io.read_cases (Nat.pos_of_ne_zero hsize) hs with
        ⟨s, -, heq⟩ | ⟨s, k, hs', hk, -, heq⟩
      · exact nomatch (Prod.mk.inj (hread.symm.trans heq)).1
      · -- nothing is delivered only at the end of the stream
        obtain ⟨hbs, rfl⟩ := Prod.mk.inj (hread.symm.trans heq)
        obtain rfl : bs = r.io.stream.take k := by injection hbs
        have hnil : r.io.stream = [] := by
          rw [List.length_take] at hlen
          exact List.eq_nil_of_length_eq_zero (by omega)
        refine ⟨s, hs', ?_⟩
        rw [hnil, List.take_nil, List.drop_nil, List.drop_nil]
        rfl
  | case5 r size hsize bs io hread hlen rest ih =>
      rcases r.io.read_cases (Nat.pos_of_ne_zero hsize) hs with
        ⟨s, -, heq⟩ | ⟨s, k, hs', hk, hle, heq⟩
      · exact nomatch (Prod.mk.inj (hread.symm.trans heq)).1
      · obtain ⟨hbs, rfl⟩ := Prod.mk.inj (hread.symm.trans heq)
        obtain rfl : bs = r.io.stream.take k := by injection hbs
        obtain ⟨s', hs'', hrest⟩ := ih hs'
        refine ⟨s', hs'', ?_⟩
        show (r.io.stream.take k ++ rest.1, rest.2) = _
        have hrest' : rest = _ := hrest
        rw [hrest']
        simp only [take_then_take hle, drop_then_drop hle, Nat.add_assoc, ← List.length_append]

/-! ## Two schedules -/

/-- Two readers that differ in their schedules only. -/
inductive Like : Reader σ → Reader σ → Prop
  | mk (c : Reader σ) (s s' : List Choice) (hs : NoFailure s) (hs' : NoFailure s') :
      Like { c with io := ⟨c.io.stream, s⟩ } { c with io := ⟨c.io.stream, s'⟩ }

variable {h : Handler σ} {r r' : Reader σ}

/-- Both read the same bytes. -/
theorem Like.readAll (h : Handler σ) (hlike : Like r r') (size : Nat) :
    ∃ bs q q', prvReadAll h r size = (bs, q) ∧ prvReadAll h r' size = (bs, q') ∧ Like q q' := by
  cases hlike with
  | mk c s s' hs hs' =>
      obtain ⟨t, ht, heq⟩ := prvReadAll_eq h { c with io := ⟨c.io.stream, s⟩ } size hs
      obtain ⟨t', ht', heq'⟩ := prvReadAll_eq h { c with io := ⟨c.io.stream, s'⟩ } size hs'
      exact ⟨_, _, _, heq, heq', Like.mk { c with
        io := ⟨c.io.stream.drop size, []⟩
        streamPos := c.streamPos + (c.io.stream.take size).length } t t' ht ht'⟩

theorem Like.warn (hlike : Like r r') (msg : String) : Like (r.warn h msg) (r'.warn h msg) := by
  cases hlike with
  | mk c s s' hs hs' => exact Like.mk (c.warn h msg) s s' hs hs'

theorem Like.setAction (hlike : Like r r') (a : Option Action) :
    Like { r with action := a } { r' with action := a } := by
  cases hlike with
  | mk c s s' hs hs' => exact Like.mk { c with action := a } s s' hs hs'

theorem Like.setState (hlike : Like r r') (state : σ) :
    Like { r with state := state } { r' with state := state } := by
  cases hlike with
  | mk c s s' hs hs' => exact Like.mk { c with state := state } s s' hs hs'

/-- What the handler and the actions look at. -/
theorem Like.fields (hlike : Like r r') :
    r.streamPos = r'.streamPos ∧ r.elfHeader = r'.elfHeader ∧ r.state = r'.state ∧
      r.log = r'.log ∧ r.action = r'.action ∧ r.malloc = r'.malloc := by
  cases hlike with
  | mk c s s' hs hs' => exact ⟨rfl, rfl, rfl, rfl, rfl, rfl⟩

/-- Both get the same segment data. -/
theorem Like.readSegmentData (h : Handler σ) (hlike : Like r r') (atPos bufferSize : Nat) :
    ∃ bs q q', ticosCoreElfReaderReadSegmentData h r atPos bufferSize = (bs, q) ∧
      ticosCoreElfReaderReadSegmentData h r' atPos bufferSize = (bs, q') ∧ Like q q' := by
  obtain ⟨hpos, -⟩ := hlike.fields
  simp only [ticosCoreElfReaderReadSegmentData, hpos]
  by_cases hpast : atPos < r'.streamPos
  · rw [if_pos hpast, if_pos hpast]
    exact ⟨[], r, r', rfl, rfl, hlike⟩
  · rw [if_neg hpast, if_neg hpast]
    by_cases hskip : atPos - r'.streamPos > 0
    · obtain ⟨bs, q, q', heq, heq', hq⟩ := hlike.readAll h (atPos - r'.streamPos)
      rw [if_pos hskip, if_pos hskip, heq, heq']
      by_cases hshort : bs.length < atPos - r'.streamPos
      · simp only [if_pos hshort]
        exact ⟨[], q, q', rfl, rfl, hq⟩
      · simp only [if_neg hshort]
        exact hq.readAll h bufferSize
    · rw [if_neg hskip, if_neg hskip]
      exact hlike.readAll h bufferSize

/-- A callback sees the same with both schedules. -/
theorem Like.runScript (hlike : Like r r') (script : Script σ) :
    Like (runScript h r script) (runScript h r' script) := by
  induction script generalizing r r' with
  | done state => exact hlike.setState state
  | read state atPos nullBuffer bufferSize next ih =>
      obtain ⟨bs, q, q', heq, heq', hq⟩ := (hlike.setState state).readSegmentData h atPos bufferSize
      simp only [CoreElfReader.runScript, heq, heq']
      cases hq with
      | mk c s s' hs hs' =>
          exact ih _ _ _ (Like.mk { c with log := c.log ++ [.segmentData atPos bufferSize bs.length
            (if nullBuffer then [] else bs)] } s s' hs hs')

/-! ## Actions -/

theorem Like.perform (hlike : Like r r') (a : Action) :
    Like (a.perform h r) (a.perform h r') := by
  obtain ⟨hpos, hheader, -, -, -, hmalloc⟩ := hlike.fields
  cases a with
  | done =>
      cases hlike with
      | mk c s s' hs hs' => exact Like.mk (prvActionDone h c) s s' hs hs'
  | prepareSegmentHeaders =>
      simp only [Action.perform, prvActionPrepareSegmentHeaders, hheader, hmalloc]
      split
      · exact (hlike.warn _).setAction _
      · cases hlike with
        | mk c s s' hs hs' =>
            exact Like.mk { c with action := some .readSegmentHeaders } s s' hs hs'
  | skipToSegmentHeaders =>
      obtain ⟨bs, q, q', heq, heq', hq⟩ := hlike.readAll h (r'.elfHeader.phoff - r'.streamPos)
      simp only [Action.perform, prvActionSkipToSegmentHeaders, hheader, hpos, heq, heq']
      split
      · exact (hq.warn _).setAction _
      · exact hq.setAction _
  | readSegmentHeaders =>
      obtain ⟨bs, q, q', heq, heq', hq⟩ := hlike.readAll h (r'.elfHeader.phnum * phdrSize)
      simp only [Action.perform, prvActionReadSegmentHeaders, hheader, heq, heq']
      split
      · cases hq with
        | mk c s s' hs hs' =>
            have hcalled := Like.mk { c with log := c.log
              ++ [.segments (decodeTable r'.elfHeader.phnum bs)] } s s' hs hs'
            exact (hcalled.runScript _).setAction _
      · exact (hq.warn _).setAction _
  | readElfHeader =>
      obtain ⟨bs, q, q', heq, heq', hq⟩ := hlike.readAll h ehdrSize
      simp only [Action.perform, prvActionReadElfHeader, heq, heq']
      cases hq with
      | mk c s s' hs hs' =>
          split
          · exact ((Like.mk c s s' hs hs').warn _).setAction _
          · split
            · exact ((Like.mk { c with elfHeader := Ehdr.decode bs } s s' hs hs').warn _).setAction _
            · have hcalled := Like.mk { c with
                elfHeader := Ehdr.decode bs
                state := h.handleElfHeader c.state (Ehdr.decode bs)
                log := c.log ++ [.elfHeader (Ehdr.decode bs)] } s s' hs hs'
              split
              · exact hcalled.setAction _
              · split
                · exact (hcalled.warn _).setAction _
                · exact (hcalled.warn _).setAction _

theorem Like.actionLoop (hlike : Like r r') (fuel : Nat) :
    Like (actionLoop h fuel r) (actionLoop h fuel r') := by
  induction fuel generalizing r r' with
  | zero => exact hlike
  | succ fuel ih =>
      obtain ⟨-, -, -, -, haction, -⟩ := hlike.fields
      simp only [CoreElfReader.actionLoop, haction]
      cases r'.action with
      | none => exact hlike
      | some a => exact ih (hlike.perform a)

/-- How many actions may follow. -/
def Action.rank : Option Action → Nat
  | some .readElfHeader => 5
  | some .skipToSegmentHeaders => 4
  | some .prepareSegmentHeaders => 3
  | some .readSegmentHeaders => 2
  | some .done => 1
  | none => 0

/-- Every action comes nearer to the end. -/
theorem perform_rank (h : Handler σ) (r : Reader σ) (a : Action) :
    Action.rank (a.perform h r).action < Action.rank (some a) := by
  cases a with
  | done => exact Nat.lt_succ_self 0
  | readSegmentHeaders => exact Nat.lt_succ_self 1
  | prepareSegmentHeaders =>
      simp only [Action.perform, prvActionPrepareSegmentHeaders]
      split
      · exact (by decide : 1 < 3)
      · exact (by decide : 2 < 3)
  | skipToSegmentHeaders =>
      simp only [Action.perform, prvActionSkipToSegmentHeaders]
      split
      · exact (by decide : 1 < 4)
      · exact (by decide : 3 < 4)
  | readElfHeader =>
      simp only [Action.perform, prvActionReadElfHeader]
      split
      · exact (by decide : 1 < 5)
      · split
        · exact (by decide : 1 < 5)
        · split
          · exact (by decide : 3 < 5)
          · split
            · exact (by decide : 4 < 5)
            · exact (by decide : 1 < 5)

/-- The loop comes to its end. -/
theorem actionLoop_ends (h : Handler σ) {fuel : Nat} {r : Reader σ}
    (hfuel : Action.rank r.action ≤ fuel) : (actionLoop h fuel r).action = none := by
  induction fuel generalizing r with
  | zero =>
      cases ha : r.action with
      | none => exact ha
      | some a =>
          rw [ha] at hfuel
          cases a <;> exact absurd hfuel (by decide)
  | succ fuel ih =>
      cases ha : r.action with
      | none =>
          simp only [actionLoop, ha]
      | some a =>
          simp only [actionLoop, ha]
          refine ih ?_
          have := perform_rank h r a
          rw [ha] at hfuel
          omega

/-- **The schedule does not show**: for every stream, every handler and any two
    schedules in which no call fails but by an interrupt, `read_all` finishes with
    the same callbacks, with the same arguments and the same segment data, and the
    same state of the handler. -/
theorem read_all_schedule_independent (h : Handler σ) (malloc : Nat → Bool) (state : σ)
    (stream : List UInt8) (schedule schedule' : List Choice) (hs : NoFailure schedule)
    (hs' : NoFailure schedule') :
    ∃ r r',
      ticosCoreElfReaderReadAll h (ticosCoreElfReaderInit ⟨stream, schedule⟩ malloc state)
        = (true, r) ∧
      ticosCoreElfReaderReadAll h (ticosCoreElfReaderInit ⟨stream, schedule'⟩ malloc state)
        = (true, r') ∧
      r.action = none ∧ r'.action = none ∧ r.log = r'.log ∧ r.state = r'.state := by
  have hstart := Like.mk { ticosCoreElfReaderInit ⟨stream, []⟩ malloc state with
    action := some .readElfHeader } schedule schedule' hs hs'
  obtain ⟨-, -, hstate, hlog, -⟩ := (hstart.actionLoop (h := h) 5).fields
  exact ⟨_, _, rfl, rfl, actionLoop_ends h (Nat.le_refl 5), actionLoop_ends h (Nat.le_refl 5),
    hlog, hstate⟩

/-- A handler that keeps nothing and reads the data of every segment. -/
def readEverything : Handler Unit where
  handleElfHeader := fun s _ => s
  handleSegments := fun s segments => segments.foldr
    (fun p rest => .read s p.offset false p.filesz (fun _ _ _ => rest)) (.done s)
  handleWarning := fun s _ => s
  handleDone := fun s => s

/-- A core of one segment with the data 1, 2, 3 at offset 120. -/
def smallCore : List UInt8 :=
  (Ehdr.encode ⟨elfMag ++ [elfClass64, elfData2Lsb, 1, 0, 0, 0, 0, 0, 0, 0, 0, 0], etCore, 62, 1,
    0, 64, 0, 0, 64, 56, 1, 0, 0, 0⟩) ++ Phdr.encode ⟨ptLoad, 4, 120, 4096, 0, 3, 3, 0⟩ ++ [1, 2, 3]

/-- In one piece, and in pieces of 1, 7 and 2 bytes with an interrupt. -/
theorem read_all_schedule_independent_small : ∃ r r' : Reader Unit,
    ticosCoreElfReaderReadAll readEverything
      (ticosCoreElfReaderInit ⟨smallCore, []⟩ (fun _ => true) ()) = (true, r) ∧
    ticosCoreElfReaderReadAll readEverything
      (ticosCoreElfReaderInit ⟨smallCore, [.deliver 1, .eintr, .deliver 7, .deliver 2]⟩
        (fun _ => true) ()) = (true, r') ∧
    r.action = none ∧ r'.action = none ∧ r.log = r'.log ∧ r.state = r'.state := by
  refine read_all_schedule_independent readEverything (fun _ => true) () smallCore []
    [.deliver 1, .eintr, .deliver 7, .deliver 2] ?_ ?_
  · intro e he
    exact nomatch he
  · intro e he
    simp at he

end CoreElfReader
