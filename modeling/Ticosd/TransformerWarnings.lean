import Ticosd.CoreElfTransformer
import Ticosd.ReaderFollows

/-! # The warnings of the transformer — an array of sixteen

    `prv_add_warning` keeps a message in `warnings[16]`, at `next_warning_idx`, and drops
    it when the index is greater than the size of the array.  `prv_handle_done` frees what
    is below the index.

    `WarningArray` is the array with a record of its stores and of its frees.  The
    transformer is run once more with it (`trackedHandler`), next to every message that it
    hands to `prv_add_warning`; `tracked_run` says that this is the transformer's own run.
    The sixteenth message is the last one with a place, and the seventeenth is stored
    behind the array. -/

namespace TransformerWarnings

open CoreElf CoreElfReader CoreElfNote CoreElfTransformer
open CoreElfWriter hiding Choice NoFailure

/-! ## The array -/

/-- `warnings` and `next_warning_idx`; an index from 16 on is behind the array, and what
    else is there is not followed.  With them the stores and the dropped messages in
    order, and what `prv_free_warnings` frees. -/
structure WarningArray where
  warnings : Nat → Option String
  nextWarningIdx : Nat
  stores : List (Nat × String)
  dropped : List String
  freed : List (Option String)

/-- A new transformer. -/
def emptyArray : WarningArray := ⟨fun _ => none, 0, [], [], []⟩

/-- `prv_add_warning`; the message may be NULL. -/
def WarningArray.add (w : WarningArray) : Option String → WarningArray
  | none => w
  | some warningMsg =>
      if w.nextWarningIdx > warningsSize then { w with dropped := w.dropped ++ [warningMsg] }
      else { w with
        warnings := Function.update w.warnings w.nextWarningIdx (some warningMsg)
        nextWarningIdx := w.nextWarningIdx + 1
        stores := w.stores ++ [(w.nextWarningIdx, warningMsg)] }

/-- `prv_free_warnings`. -/
def WarningArray.free (w : WarningArray) : WarningArray :=
  { w with freed := (List.range w.nextWarningIdx).map w.warnings }

/-- The messages that are not NULL. -/
def messages (provoked : List (Option String)) : List String := provoked.filterMap id

/-- The array after the messages. -/
def arrayAfter (provoked : List (Option String)) : WarningArray :=
  provoked.foldl WarningArray.add emptyArray

/-- **What the array holds after any messages**: the first seventeen, in order. -/
structure Holds (w : WarningArray) (ms : List String) : Prop where
  next : w.nextWarningIdx = min ms.length (warningsSize + 1)
  cells : ∀ i, w.warnings i = (ms.take (warningsSize + 1))[i]?
  stored : w.stores.map Prod.snd = ms.take (warningsSize + 1)
  indices : w.stores.map Prod.fst = List.range w.nextWarningIdx
  dropped : w.dropped = ms.drop (warningsSize + 1)

theorem Holds.add {w : WarningArray} {ms : List String} (h : Holds w ms) (msg : String) :
    Holds (w.add (some msg)) (ms ++ [msg]) := by
  have hnext := h.next
  rw [WarningArray.add]
  by_cases hfull : w.nextWarningIdx > warningsSize
  · -- the array is over-full already: the message is dropped
    have hlen : warningsSize + 1 ≤ ms.length := by omega
    rw [if_pos hfull]
    refine ⟨?_, ?_, ?_, h.indices, ?_⟩
    · rw [List.length_append]
      show w.nextWarningIdx = _
      omega
    · rw [List.take_append_of_le_length hlen]
      exact h.cells
    · rw [List.take_append_of_le_length hlen]
      exact h.stored
    · show w.dropped ++ [msg] = _
      rw [h.dropped, List.drop_append_of_le_length hlen]
  · -- the message is stored, at an index that may be one too great
    have hlen : ms.length ≤ warningsSize := by omega
    have htake : ms.take (warningsSize + 1) = ms := List.take_of_length_le (by omega)
    have hidx : w.nextWarningIdx = ms.length := by omega
    have htake' : (ms ++ [msg]).take (warningsSize + 1) = ms ++ [msg] :=
      List.take_of_length_le (by rw [List.length_append, List.length_singleton]; omega)
    rw [if_neg hfull]
    refine ⟨?_, ?_, ?_, ?_, ?_⟩
    · rw [List.length_append, List.length_singleton]
      show w.nextWarningIdx + 1 = _
      omega
    · intro i
      have hcell := h.cells i
      rw [htake] at hcell
      show Function.update w.warnings w.nextWarningIdx (some msg) i = _
      rw [htake', hidx]
      rcases Nat.lt_trichotomy i ms.length with hi | rfl | hi
      · rw [Function.update_of_ne (by omega), hcell, List.getElem?_append_left hi]
      · rw [Function.update_self, List.getElem?_concat_length]
      · rw [Function.update_of_ne (by omega), hcell, List.getElem?_eq_none (by omega),
          List.getElem?_eq_none (by rw [List.length_append, List.length_singleton]; omega)]
    · rw [List.map_append, h.stored, htake, htake']
      rfl
    · rw [List.map_append, h.indices, List.range_succ]
      rfl
    · show w.dropped = _
      rw [h.dropped, List.drop_of_length_le (by omega), List.drop_of_length_le
        (by rw [List.length_append, List.length_singleton]; omega)]

theorem holds_arrayAfter (provoked : List (Option String)) :
    Holds (arrayAfter provoked) (messages provoked) := by
  induction provoked using List.reverseRecOn with
  | nil => exact ⟨rfl, fun i => rfl, rfl, rfl, rfl⟩
  | append_singleton provoked msg ih =>
      have hfold : arrayAfter (provoked ++ [msg]) = (arrayAfter provoked).add msg := by
        rw [arrayAfter, List.foldl_append]
        rfl
      rw [hfold, messages, List.filterMap_append]
      cases msg with
      | none =>
          simp only [List.filterMap_cons_none, id, List.filterMap_nil, List.append_nil]
          exact ih
      | some msg => exact ih.add msg

/-! ## What is asked of it -/

/-- Every store is inside the array, the index stays within its size, the messages beyond
    that are dropped, and what is freed is what was stored, each message once. -/
structure Contained (w : WarningArray) (provoked : List (Option String)) : Prop where
  stores : ∀ s ∈ w.stores, s.1 < warningsSize
  next : w.nextWarningIdx ≤ warningsSize
  kept : w.stores.map Prod.snd = (messages provoked).take warningsSize
  dropped : w.dropped = (messages provoked).drop warningsSize
  freed : w.freed = w.stores.map (fun s => some s.2)

/-- What `prv_free_warnings` frees is what has been stored. -/
theorem Holds.freed {w : WarningArray} {ms : List String} (h : Holds w ms) :
    w.free.freed = w.stores.map (fun s => some s.2) := by
  have hstored : w.stores.map (fun s => some s.2)
      = (w.stores.map Prod.snd).map some := by rw [List.map_map]; rfl
  rw [hstored, h.stored]
  apply List.ext_getElem?
  intro i
  have hlen : (ms.take (warningsSize + 1)).length = w.nextWarningIdx := by
    rw [List.length_take, h.next, Nat.min_comm]
  rw [WarningArray.free, List.getElem?_map, List.getElem?_map]
  by_cases hi : i < w.nextWarningIdx
  · rw [List.getElem?_range hi, Option.map_some, h.cells,
      List.getElem?_eq_getElem (by omega)]
    rfl
  · rw [List.getElem?_eq_none (by rw [List.length_range]; omega),
      List.getElem?_eq_none (by omega)]
    rfl

/-- **The array contains the warnings exactly when there are at most sixteen.** -/
theorem contained_iff (provoked : List (Option String)) :
    Contained (arrayAfter provoked).free provoked ↔
      (messages provoked).length ≤ warningsSize := by
  have h := holds_arrayAfter provoked
  constructor
  · intro hc
    have hnext : (arrayAfter provoked).nextWarningIdx ≤ warningsSize := hc.next
    have := h.next
    omega
  · intro hlen
    have hnext := h.next
    refine ⟨?_, ?_, ?_, ?_, h.freed⟩
    · intro s hs
      have hmem : s.1 ∈ (arrayAfter provoked).stores.map Prod.fst := List.mem_map_of_mem hs
      rw [h.indices, List.mem_range] at hmem
      omega
    · show (arrayAfter provoked).nextWarningIdx ≤ warningsSize
      omega
    · show (arrayAfter provoked).stores.map Prod.snd = _
      rw [h.stored, List.take_of_length_le hlen, List.take_of_length_le (by omega)]
    · show (arrayAfter provoked).dropped = _
      rw [h.dropped, List.drop_of_length_le hlen, List.drop_of_length_le (by omega)]

/-! ## The transformer with the array -/

/-- The transformer, the array, and every message handed to `prv_add_warning`. -/
structure Tracked where
  transformer : Transformer
  array : WarningArray
  provoked : List (Option String)

/-- `prv_add_warning`. -/
def addWarning (s : Tracked) (warningMsg : Option String) : Tracked where
  transformer := prvAddWarning s.transformer warningMsg
  array := s.array.add warningMsg
  provoked := s.provoked ++ [warningMsg]

/-- `prv_process_note_segment`, with what comes after it. -/
def processNoteSegment (s : Tracked) (segment : Phdr) (next : Tracked → Script Tracked) :
    Script Tracked :=
  if s.transformer.malloc segment.filesz = false then
    next (addWarning s (s.transformer.asprintf
      ("Failed to allocate " ++ toString segment.filesz ++ " bytes for note buffer")))
  else .read s segment.offset false segment.filesz fun s sizeRead noteBuffer =>
    if sizeRead ≠ segment.filesz then
      next (addWarning s (s.transformer.asprintf ("Failed to read note at "
        ++ toString segment.offset ++ " (" ++ toString segment.filesz ++ " bytes)")))
    else
      let added := ticosCoreElfWriterAddSegment
        (s.transformer.realloc s.transformer.writer.segments.length) s.transformer.writer
        segment (.buffer noteBuffer)
      let s := { s with transformer := { s.transformer with writer := added.2 } }
      if added.1 = false then
        next (addWarning s (s.transformer.asprintf "Failed to add note to writer"))
      else next s

/-- The loop of `prv_handle_segments`, with its end. -/
def handleSegments : List Phdr → Tracked → Script Tracked
  | [], s => .done { s with transformer := writeOut s.transformer }
  | segment :: rest, s =>
      if segment.type = ptNote then
        processNoteSegment s segment (fun s => handleSegments rest s)
      else if segment.type = ptLoad then
        handleSegments rest { s with transformer := prvProcessLoadSegment s.transformer segment }
      else handleSegments rest (addWarning s (s.transformer.asprintf
        ("Unexpected segment type: " ++ toString segment.type)))

/-- `read_handler`. -/
def trackedHandler : Handler Tracked where
  handleElfHeader := fun s elfHeader =>
    { s with transformer := prvHandleElfHeader s.transformer elfHeader }
  handleSegments := fun s segments => handleSegments segments s
  handleWarning := fun s warningMsg => addWarning s (some warningMsg)
  handleDone := fun s =>
    { s with transformer := prvHandleDone s.transformer, array := s.array.free }

/-- The tracked transformer keeps up with the transformer. -/
def InStep (s : Tracked) (t : Transformer) : Prop :=
  s.transformer = t ∧ s.array = arrayAfter s.provoked

/-- The same after `prv_handle_done`. -/
def Ended (s : Tracked) (t : Transformer) : Prop :=
  s.transformer = t ∧ s.array = (arrayAfter s.provoked).free

theorem InStep.addWarning {s : Tracked} {t : Transformer} (h : InStep s t)
    (warningMsg : Option String) : InStep (addWarning s warningMsg) (prvAddWarning t warningMsg) := by
  obtain ⟨rfl, harray⟩ := h
  refine ⟨rfl, ?_⟩
  show s.array.add warningMsg = arrayAfter (s.provoked ++ [warningMsg])
  rw [harray, arrayAfter, arrayAfter, List.foldl_append]
  rfl

theorem InStep.update {s : Tracked} {t : Transformer} (h : InStep s t) (t' : Transformer) :
    InStep { s with transformer := t' } t' :=
  ⟨rfl, h.2⟩

theorem InStep.processNoteSegment {s : Tracked} {t : Transformer} (h : InStep s t)
    (segment : Phdr) {next : Tracked → Script Tracked} {next' : Transformer → Script Transformer}
    (hnext : ∀ s t, InStep s t → ScriptFollows InStep (next s) (next' t)) :
    ScriptFollows InStep (processNoteSegment s segment next)
      (prvProcessNoteSegment t segment next') := by
  obtain rfl := h.1
  rw [TransformerWarnings.processNoteSegment, prvProcessNoteSegment]
  split
  · exact hnext _ _ (h.addWarning _)
  · refine .read h ?_
    rintro s' t' sizeRead noteBuffer h'
    obtain rfl := h'.1
    split
    · exact hnext _ _ (h'.addWarning _)
    · dsimp only
      split
      · exact hnext _ _ ((h'.update _).addWarning _)
      · exact hnext _ _ (h'.update _)

/-- The loops ask for the same data. -/
theorem InStep.handleSegments (segments : List Phdr) :
    ∀ {s : Tracked} {t : Transformer}, InStep s t →
      ScriptFollows InStep (handleSegments segments s) (segmentsLoop segments t) := by
  induction segments with
  | nil =>
      rintro s t h
      obtain rfl := h.1
      exact .done (h.update _)
  | cons segment rest ih =>
      rintro s t h
      rw [TransformerWarnings.handleSegments, segmentsLoop]
      split
      · exact h.processNoteSegment segment (fun _ _ h' => ih h')
      · obtain rfl := h.1
        split
        · exact ih (h.update _)
        · exact ih (h.addWarning _)

theorem follows_readHandler : Follows InStep Ended trackedHandler readHandler where
  elfHeader := by
    rintro s t header h
    obtain rfl := h.1
    exact h.update _
  segments := fun s t segments h => InStep.handleSegments segments h
  warning := fun s t msg h => h.addWarning _
  done := by
    rintro s t ⟨rfl, harray⟩
    exact ⟨rfl, congrArg WarningArray.free harray⟩

/-! ## Runs -/

section Runs

variable (readerIo : ReadIo) (writerIo : WriteIo) (metadata : Metadata)
  (transformerHandler : ProcMem) (malloc realloc : Nat → Bool)

/-- The tracked transformer after `ticos_core_elf_transformer_run`. -/
def trackedRun : Tracked :=
  (ticosCoreElfReaderReadAll trackedHandler (ticosCoreElfReaderInit readerIo malloc
    ⟨(ticosCoreElfTransformerInit readerIo writerIo metadata transformerHandler malloc
      realloc).state, emptyArray, []⟩)).2.state

/-- It is the transformer's own run, and the array is that of the messages provoked. -/
theorem tracked_run :
    (trackedRun readerIo writerIo metadata transformerHandler malloc realloc).transformer
      = (ticosCoreElfTransformerRun (ticosCoreElfTransformerInit readerIo writerIo metadata
        transformerHandler malloc realloc)).2 ∧
    (trackedRun readerIo writerIo metadata transformerHandler malloc realloc).array
      = (arrayAfter (trackedRun readerIo writerIo metadata transformerHandler malloc
        realloc).provoked).free :=
  follows_readAll follows_readHandler readerIo malloc
    (t := (ticosCoreElfTransformerInit readerIo writerIo metadata transformerHandler malloc
      realloc).state) ⟨rfl, rfl⟩

end Runs

/-- A core of `n` segments of type 0, which no core of the kernel has. -/
def oddCore (n : Nat) : List UInt8 :=
  Ehdr.encode ⟨elfMag ++ [elfClass64, elfData2Lsb, 1, 0, 0, 0, 0, 0, 0, 0, 0, 0], etCore, 62, 1,
    0, 64, 0, 0, 64, 56, n, 0, 0, 0⟩ ++ List.replicate (n * phdrSize) 0

/-- The run on such a core, with memory for everything. -/
def oddRun (n : Nat) : Tracked :=
  trackedRun ⟨oddCore n, []⟩ ⟨[], [], true⟩ smallMetadata ⟨fun _ => 0, []⟩ (fun _ => true)
    (fun _ => true)

end TransformerWarnings
