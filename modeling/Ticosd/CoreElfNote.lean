import Ticosd.Cbor
import Ticosd.CoreElfWriter

/-! # Metadata note — `core_elf_note.c` and `core_elf_metadata.c`

    The note that the transformer appends: a note header, the owner's name and a
    CBOR dictionary, the last two padded to four bytes.  The size is computed by a
    size-only pass of the encoder before the buffer is allocated; the second pass
    writes into it. -/

namespace CoreElfNote

open Cbor CText LittleEndian CoreElfWriter

/-- `sizeof(Elf_Nhdr)`. -/
def nhdrSize : Nat := 12

/-- `prv_calc_owner_name_size`. -/
def prvCalcOwnerNameSize (ownerName : List UInt8) : Nat :=
  let ownerNameStrlen := (cString ownerName).length
  if ownerNameStrlen > 0 then ownerNameStrlen + 1 else 0

/-- `ticos_core_elf_note_calculate_size`. -/
def ticosCoreElfNoteCalculateSize (ownerName : List UInt8) (descriptionSize : Nat) : Nat :=
  nhdrSize + ticosAlignUp (prvCalcOwnerNameSize ownerName) 4 + ticosAlignUp descriptionSize 4

/-- `ticos_core_elf_note_init`: the bytes in front of the description, and the
    cleared description. -/
def ticosCoreElfNoteInit (ownerName : List UInt8) (descriptionSize nType : Nat) :
    List UInt8 × List UInt8 :=
  let ownerNameSize := prvCalcOwnerNameSize ownerName
  let name := (cString ownerName ++ [0]).take ownerNameSize
  (encodeFields [4, 4, 4] [ownerNameSize % 2 ^ 32, descriptionSize % 2 ^ 32, nType]
      ++ (name ++ List.replicate (ticosAlignUp ownerNameSize 4 - ownerNameSize) 0),
    List.replicate (ticosAlignUp descriptionSize 4) 0)

/-! ## The metadata -/

/-- `sTicosCoreElfMetadata`. -/
structure Metadata where
  linuxSdkVersion : List UInt8
  capturedTimeEpochS : UInt32
  deviceSerial : List UInt8
  hardwareVersion : List UInt8
  softwareType : List UInt8
  softwareVersion : List UInt8

/-- `s_note_name` and `s_metadata_note_type`. -/
def noteName : List UInt8 := ascii "Ticos"
def metadataNoteType : Nat := 0x4154454d

/-- The calls of `prv_add_cbor_metadata`: a dictionary with the keys 1 to 7. -/
def metadataCalls (m : Metadata) : List Call :=
  [.dictionaryBegin 7, .unsignedInteger 1, .unsignedInteger 1,
    .unsignedInteger 2, .string m.linuxSdkVersion,
    .unsignedInteger 3, .unsignedInteger m.capturedTimeEpochS,
    .unsignedInteger 4, .string m.deviceSerial,
    .unsignedInteger 5, .string m.hardwareVersion,
    .unsignedInteger 6, .string m.softwareType,
    .unsignedInteger 7, .string m.softwareVersion]

/-- Calls joined by `&&`. -/
def execWhile (e : Encoder) : List Call → Bool × Encoder
  | [] => (true, e)
  | c :: cs => andThen (c.exec e) (fun e => execWhile e cs)

/-- `prv_add_cbor_metadata`. -/
def prvAddCborMetadata (e : Encoder) (m : Metadata) : Bool × Encoder :=
  execWhile e (metadataCalls m)

/-- `prv_cbor_calculate_size`. -/
def prvCborCalculateSize (m : Metadata) : Nat :=
  ticosCborEncoderDeinit (prvAddCborMetadata ticosCborEncoderSizeOnlyInit m).2

/-- `ticos_core_elf_metadata_note_calculate_size`. -/
def ticosCoreElfMetadataNoteCalculateSize (m : Metadata) : Nat :=
  ticosCoreElfNoteCalculateSize noteName (prvCborCalculateSize m)

/-- `memcpy` into a buffer. -/
def overwrite (buffer : List UInt8) (w : Nat × List UInt8) : List UInt8 :=
  buffer.take w.1 ++ (w.2 ++ buffer.drop (w.1 + w.2.length))

/-- `ticos_core_elf_metadata_note_write`: the result and the note. -/
def ticosCoreElfMetadataNoteWrite (m : Metadata) (noteBufferSize : Nat) : Bool × List UInt8 :=
  let note := ticosCoreElfNoteInit noteName (prvCborCalculateSize m) metadataNoteType
  let t := prvAddCborMetadata (ticosCborEncoderInit (noteBufferSize - note.1.length)) m
  (t.1, note.1 ++ t.2.writes.foldl overwrite note.2)

/-! ## What is written -/

/-- The dictionary. -/
def metadataCbor (m : Metadata) : List UInt8 := (piecesAll (metadataCalls m)).flatten

/-- Joined calls add their pieces. -/
theorem execWhile_eq (e : Encoder) (cs : List Call) :
    execWhile e cs = addAll e (piecesAll cs) := by
  have happend : ∀ (ds ds' : List (List UInt8)) (e : Encoder),
      addAll e (ds ++ ds') = andThen (addAll e ds) (fun e => addAll e ds') := by
    intro ds ds'
    induction ds with
    | nil => intro e; rfl
    | cons d ds ih =>
        intro e
        rw [List.cons_append, addAll, addAll]
        cases prvAddToResultBuffer e d with
        | mk ok e' =>
            cases ok with
            | true => exact ih e'
            | false => rfl
  induction cs generalizing e with
  | nil => rfl
  | cons c cs ih =>
      rw [execWhile, exec_eq_addAll, piecesAll, List.flatMap_cons, happend]
      exact congrArg _ (funext fun e => ih e)

theorem prvCborCalculateSize_eq (m : Metadata) :
    prvCborCalculateSize m = (metadataCbor m).length := by
  rw [prvCborCalculateSize, prvAddCborMetadata, execWhile_eq, ticosCborEncoderDeinit,
    addAll_sizeOnly rfl]
  exact Nat.zero_add _

/-- A copy inside the buffer keeps its length. -/
theorem overwrite_length {buffer : List UInt8} {w : Nat × List UInt8}
    (h : w.1 + w.2.length ≤ buffer.length) : (overwrite buffer w).length = buffer.length := by
  rw [overwrite, List.length_append, List.length_append, List.length_take, List.length_drop]
  omega

/-- A copy over as many bytes. -/
theorem overwrite_middle (front back : List UInt8) {old new : List UInt8}
    (h : old.length = new.length) :
    overwrite (front ++ (old ++ back)) (front.length, new) = front ++ (new ++ back) := by
  have hdrop : (front ++ (old ++ back)).drop (front.length + new.length) = back := by
    rw [← h, ← List.append_assoc, ← List.length_append]
    exact List.drop_left
  rw [overwrite]
  dsimp only
  rw [List.take_left, hdrop]

theorem foldl_overwrite_length {ws : List (Nat × List UInt8)} {buffer : List UInt8}
    (h : ∀ w ∈ ws, w.1 + w.2.length ≤ buffer.length) :
    (ws.foldl overwrite buffer).length = buffer.length := by
  induction ws generalizing buffer with
  | nil => rfl
  | cons w ws ih =>
      have hw := overwrite_length (h w List.mem_cons_self)
      rw [List.foldl_cons, ih, hw]
      intro v hv
      rw [hw]
      exact h v (List.mem_cons_of_mem w hv)

theorem consecutive_le {ws : List (Nat × List UInt8)} {a b : Nat} (h : Consecutive a ws b) :
    a ≤ b := by
  induction ws generalizing a with
  | nil => exact Nat.le_of_eq h
  | cons w ws ih => exact Nat.le_trans (Nat.le_add_right a w.2.length) (ih h.2)

/-- Copies that follow each other replace what stands there. -/
theorem foldl_overwrite_consecutive {ws : List (Nat × List UInt8)} {done : List UInt8}
    (rest : List UInt8) {b : Nat} (h : Consecutive done.length ws b) (hfit : b ≤ done.length + rest.length) :
    ws.foldl overwrite (done ++ rest)
      = done ++ (ws.flatMap Prod.snd ++ rest.drop (b - done.length)) := by
  induction ws generalizing done rest with
  | nil =>
      obtain rfl : done.length = b := h
      rw [Nat.sub_self]
      rfl
  | cons w ws ih =>
      obtain ⟨offset, data⟩ := w
      obtain ⟨rfl, hws⟩ := h
      have hle := consecutive_le hws
      have hstep : overwrite (done ++ rest) (done.length, data)
          = (done ++ data) ++ rest.drop data.length := by
        simp only [overwrite, List.take_left, List.drop_append, Nat.add_sub_cancel_left,
          List.append_assoc]
        rw [List.drop_eq_nil_of_le (by omega), List.nil_append]
      have hlen : (done ++ data).length = done.length + data.length := List.length_append
      rw [List.foldl_cons, hstep, ih _ (by rw [hlen]; exact hws) (by
        rw [hlen, List.length_drop]
        omega), List.drop_drop, List.flatMap_cons, hlen]
      simp only [List.append_assoc]
      rw [show data.length + (b - (done.length + data.length)) = b - done.length from by omega]

/-- Rounding up to four bytes. -/
theorem ticosAlignUp_four {n : Nat} (h : n + 3 < 2 ^ 64) :
    ticosAlignUp n 4 = n + (4 - n % 4) % 4 := by
  rw [ticosAlignUp, Nat.mod_eq_of_lt (show n + (4 - 1) < 2 ^ 64 by omega),
    show 2 ^ 64 - 1 - (4 - 1) = 2 ^ 64 - 1 - (2 ^ 2 - 1) from rfl,
    and_mask (show n + (4 - 1) < 2 ^ 64 by omega) (by omega)]
  exact next_multiple n (by omega)

/-- The note in front of the dictionary. -/
theorem noteInit_length (m : Metadata) :
    (ticosCoreElfNoteInit noteName (prvCborCalculateSize m) metadataNoteType).1.length = 20 := by
  have hfits : Fits [4, 4, 4]
      [prvCalcOwnerNameSize noteName % 2 ^ 32, prvCborCalculateSize m % 2 ^ 32,
        metadataNoteType] := by
    simp only [Fits, List.forall₂_cons]
    exact ⟨Nat.mod_lt _ (by decide), Nat.mod_lt _ (by decide), by decide, List.Forall₂.nil⟩
  have hname : ((cString noteName ++ [0]).take (prvCalcOwnerNameSize noteName)
      ++ List.replicate (ticosAlignUp (prvCalcOwnerNameSize noteName) 4
        - prvCalcOwnerNameSize noteName) (0 : UInt8)).length = 8 := by
    decide
  rw [ticosCoreElfNoteInit]
  dsimp only
  rw [List.length_append, encodeFields_length hfits, hname]
  rfl

/-- The size of the note. -/
theorem calculateSize_eq {m : Metadata} (h : (metadataCbor m).length + 3 < 2 ^ 64) :
    ticosCoreElfMetadataNoteCalculateSize m
      = 20 + ((metadataCbor m).length + (4 - (metadataCbor m).length % 4) % 4) := by
  rw [ticosCoreElfMetadataNoteCalculateSize, ticosCoreElfNoteCalculateSize,
    prvCborCalculateSize_eq, ticosAlignUp_four h]
  rfl

/-- **The buffer is large enough, and filled**: writing the note succeeds, and it has
    the size that was computed for it; a dictionary below 2^32 bytes stands in it
    behind the header and the name, in front of the padding. -/
theorem noteWrite_spec {m : Metadata} (h : (metadataCbor m).length + 3 < 2 ^ 64) :
    (ticosCoreElfMetadataNoteWrite m (ticosCoreElfMetadataNoteCalculateSize m)).1 = true ∧
    (ticosCoreElfMetadataNoteWrite m (ticosCoreElfMetadataNoteCalculateSize m)).2.length
      = ticosCoreElfMetadataNoteCalculateSize m ∧
    ((metadataCbor m).length < 2 ^ 32 →
      (ticosCoreElfMetadataNoteWrite m (ticosCoreElfMetadataNoteCalculateSize m)).2
        = encodeFields [4, 4, 4] [6, (metadataCbor m).length, metadataNoteType]
          ++ (ascii "Ticos" ++ [0, 0, 0]) ++ (metadataCbor m
          ++ List.replicate ((4 - (metadataCbor m).length % 4) % 4) 0)) := by
  have hsize := calculateSize_eq h
  have hfront := noteInit_length m
  obtain ⟨e', hadd, hlen, hgood⟩ := (good_init (ticosCoreElfMetadataNoteCalculateSize m
    - (ticosCoreElfNoteInit noteName (prvCborCalculateSize m) metadataNoteType).1.length)).addAll
    (piecesAll (metadataCalls m)) (by
      show 0 + (metadataCbor m).length ≤ ticosCoreElfMetadataNoteCalculateSize m
        - (ticosCoreElfNoteInit noteName (prvCborCalculateSize m) metadataNoteType).1.length
      rw [hfront, hsize]
      omega)
  have hwithin := Within.addAll (e := ticosCborEncoderInit
    (ticosCoreElfMetadataNoteCalculateSize m - (ticosCoreElfNoteInit noteName
      (prvCborCalculateSize m) metadataNoteType).1.length))
    ⟨rfl, Nat.zero_le _, fun w hw => nomatch hw⟩ (piecesAll (metadataCalls m))
  have hback : (ticosCoreElfNoteInit noteName (prvCborCalculateSize m) metadataNoteType).2
      = List.replicate (ticosCoreElfMetadataNoteCalculateSize m - 20) 0 := by
    rw [ticosCoreElfNoteInit, prvCborCalculateSize_eq, ticosAlignUp_four h, hsize,
      Nat.add_sub_cancel_left]
  rw [hadd] at hwithin
  obtain ⟨hin, hbuf⟩ := hwithin
  have hlimit : ∀ w ∈ e'.writes,
      w.1 + w.2.length ≤ (List.replicate (ticosCoreElfMetadataNoteCalculateSize m - 20)
        (0 : UInt8)).length := by
    intro w hw
    have := hin.writes w hw
    rw [hbuf] at this
    rw [List.length_replicate, ← hfront]
    exact this
  rw [ticosCoreElfMetadataNoteWrite]
  dsimp only
  rw [prvAddCborMetadata, execWhile_eq, hadd, hback]
  refine ⟨rfl, ?_, ?_⟩
  · rw [List.length_append, foldl_overwrite_length hlimit, hfront, List.length_replicate, hsize]
    omega
  · intro hsmall
    have hcbor : [] ++ (piecesAll (metadataCalls m)).flatten = metadataCbor m := rfl
    rw [hcbor] at hgood
    have hoff := hgood.offsets (by rw [hgood.size]; exact hsmall)
    rw [hgood.size] at hoff
    have hcopy := foldl_overwrite_consecutive
      (List.replicate (ticosCoreElfMetadataNoteCalculateSize m - 20) 0)
      (show Consecutive ([] : List UInt8).length e'.writes _ from hoff) (by
        rw [List.length_replicate, hsize]
        simp only [List.length_nil]
        omega)
    rw [List.nil_append, List.nil_append, hgood.writes, List.length_nil, Nat.sub_zero,
      List.drop_replicate] at hcopy
    rw [hcopy, ticosCoreElfNoteInit, prvCborCalculateSize_eq, Nat.mod_eq_of_lt hsmall, hsize]
    congr 3
    omega

end CoreElfNote
