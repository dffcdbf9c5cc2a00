import Ticosd.ByteStore
import Ticosd.CborDecode
import Ticosd.CoreElfTransformer

/-! # Metadata note round trip — what a reader of the note gets back

    `ticos_core_elf_metadata_note_write` is a row of stores into the caller's
    buffer: the note header, a `memset` of everything behind it, the owner's name,
    and one copy for each piece of the dictionary.  The stores after the `memset`
    stay inside it, so the buffer ends up as the note, whatever it held before, and
    memory around the buffer is left alone.

    On the other side stands a parser of note segments and the decoder of
    `CborDecode`; together they read back the one note and its seven entries. -/

namespace MetadataNote

open ByteStore Cbor CborDecode CText LittleEndian CoreElfWriter CoreElfNote
open CoreElfTransformer (noteSize)

/-! ## A parser of note segments -/

/-- A note as it lies in a segment, with its padding. -/
structure Note where
  namesz : Nat
  descsz : Nat
  type : Nat
  name : List UInt8
  namePadding : List UInt8
  desc : List UInt8
  descPadding : List UInt8

/-- The bytes up to the next multiple of four. -/
def paddingFor (n : Nat) : Nat := (4 - n % 4) % 4

/-- One note: three words, the name and the description, each padded to four bytes. -/
def parseNote (bs : List UInt8) : Option (Note × List UInt8) :=
  if bs.length < nhdrSize then none else do
    let namesz := leValue (bs.take 4)
    let descsz := leValue ((bs.drop 4).take 4)
    let type := leValue ((bs.drop 8).take 4)
    let (name, bs) ← takeBytes namesz (bs.drop nhdrSize)
    let (namePadding, bs) ← takeBytes (paddingFor namesz) bs
    let (desc, bs) ← takeBytes descsz bs
    let (descPadding, bs) ← takeBytes (paddingFor descsz) bs
    return (⟨namesz, descsz, type, name, namePadding, desc, descPadding⟩, bs)

/-- Notes up to the end of the segment. -/
def parseNotes : Nat → List UInt8 → Option (List Note)
  | _, [] => some []
  | 0, _ :: _ => none
  | fuel + 1, b :: bs => do
      let (note, rest) ← parseNote (b :: bs)
      let notes ← parseNotes fuel rest
      return note :: notes

/-- All notes of a segment; each one takes at least its header. -/
def parseNoteSegment (bs : List UInt8) : Option (List Note) := parseNotes bs.length bs

/-- The bytes of a note. -/
def Note.encode (n : Note) : List UInt8 :=
  encodeFields [4, 4, 4] [n.namesz, n.descsz, n.type]
    ++ (n.name ++ n.namePadding ++ (n.desc ++ n.descPadding))

/-- The sizes in the header are those of what follows. -/
structure Note.WellFormed (n : Note) : Prop where
  words : Fits [4, 4, 4] [n.namesz, n.descsz, n.type]
  name : n.name.length = n.namesz
  namePadding : n.namePadding.length = paddingFor n.namesz
  desc : n.desc.length = n.descsz
  descPadding : n.descPadding.length = paddingFor n.descsz

/-- **A note is read back**, whatever follows it. -/
theorem parseNote_encode {n : Note} (h : n.WellFormed) (rest : List UInt8) :
    parseNote (n.encode ++ rest) = some (n, rest) := by
  have hhead : (encodeFields [4, 4, 4] [n.namesz, n.descsz, n.type]).length = nhdrSize :=
    encodeFields_length h.words
  have hfields := decodeFields_encodeFields h.words
    (n.name ++ n.namePadding ++ (n.desc ++ n.descPadding) ++ rest)
  rw [← List.append_assoc] at hfields
  change decodeFields [4, 4, 4] (n.encode ++ rest) = _ at hfields
  simp only [decodeFields, List.drop_drop, List.cons.injEq, and_true] at hfields
  obtain ⟨hnamesz, hdescsz, htype⟩ := hfields
  have hbody : (n.encode ++ rest).drop nhdrSize
      = n.name ++ (n.namePadding ++ (n.desc ++ (n.descPadding ++ rest))) := by
    rw [Note.encode, List.append_assoc, ← hhead, List.drop_left]
    simp only [List.append_assoc]
  have hlong : ¬(n.encode ++ rest).length < nhdrSize := by
    rw [Note.encode, List.append_assoc, List.length_append, hhead]
    omega
  rw [parseNote, if_neg hlong]
  simp only [hnamesz, hdescsz, htype, hbody, takeBytes_append h.name,
    takeBytes_append h.namePadding, takeBytes_append h.desc, takeBytes_append h.descPadding,
    Option.bind_eq_bind, Option.bind_some, Option.pure_def]

/-- **A row of notes is read back**, each note where the one before it ends. -/
theorem parseNotes_encode {notes : List Note} (h : ∀ n ∈ notes, n.WellFormed) {fuel : Nat}
    (hfuel : notes.length ≤ fuel) : parseNotes fuel (notes.flatMap Note.encode) = some notes := by
  induction notes generalizing fuel with
  | nil => cases fuel <;> rfl
  | cons n rest ih =>
      obtain ⟨fuel, rfl⟩ : ∃ k, fuel = k + 1 := ⟨fuel - 1, by
        rw [List.length_cons] at hfuel
        omega⟩
      have hn := h n List.mem_cons_self
      have hone := parseNote_encode hn (rest.flatMap Note.encode)
      have hrest := ih (fun m hm => h m (List.mem_cons_of_mem n hm))
        (Nat.le_of_succ_le_succ hfuel)
      rw [List.flatMap_cons]
      cases hbs : n.encode ++ rest.flatMap Note.encode with
      | nil =>
          have hlen := congrArg List.length hbs
          rw [List.length_append, Note.encode, List.length_append,
            encodeFields_length hn.words] at hlen
          simp at hlen
      | cons b bs =>
          rw [hbs] at hone
          simp only [parseNotes, hone, hrest, Option.bind_eq_bind, Option.bind_some,
            Option.pure_def]

theorem encode_length_pos {n : Note} (h : n.WellFormed) : 1 ≤ n.encode.length := by
  rw [Note.encode, List.length_append, encodeFields_length h.words]
  exact Nat.le_trans (show 1 ≤ [4, 4, 4].sum by decide) (Nat.le_add_right _ _)

theorem parseNoteSegment_row {notes : List Note} (h : ∀ n ∈ notes, n.WellFormed) :
    parseNoteSegment (notes.flatMap Note.encode) = some notes := by
  refine parseNotes_encode h ?_
  rw [List.length_flatMap]
  have hle := List.card_nsmul_le_sum (notes.map fun n => n.encode.length) 1 (by
    intro k hk
    obtain ⟨n, hn, rfl⟩ := List.mem_map.mp hk
    exact encode_length_pos (h n hn))
  rw [List.length_map, smul_eq_mul, Nat.mul_one] at hle
  exact hle

/-! ## The stores -/

/-- Where the description begins: what `ticos_core_elf_note_init` returns, less the
    buffer. -/
def descriptionOffset (ownerName : List UInt8) : Nat :=
  nhdrSize + ticosAlignUp (prvCalcOwnerNameSize ownerName) 4

/-- The stores of `ticos_core_elf_note_init`, by their offset in the buffer: the
    header, the `memset` of name and description, the `memcpy` of the name. -/
def noteInitStores (ownerName : List UInt8) (descriptionSize nType : Nat) :
    List (Nat × List UInt8) :=
  let ownerNameSize := prvCalcOwnerNameSize ownerName
  let ownerNameAndPaddingSize := ticosAlignUp ownerNameSize 4
  [(0, encodeFields [4, 4, 4] [ownerNameSize % 2 ^ 32, descriptionSize % 2 ^ 32, nType]),
    (nhdrSize, List.replicate (ownerNameAndPaddingSize + ticosAlignUp descriptionSize 4) 0),
    (nhdrSize, (cString ownerName ++ [0]).take ownerNameSize)]

/-- `ticos_core_elf_metadata_note_write`: the result, and the stores in order; those
    of the dictionary are made by `prv_write_cbor_to_buffer_cb`. -/
def metadataNoteStores (m : Metadata) (noteBufferSize : Nat) :
    Bool × List (Nat × List UInt8) :=
  let noteHeaderSize := descriptionOffset noteName
  let t := prvAddCborMetadata (ticosCborEncoderInit (noteBufferSize - noteHeaderSize)) m
  (t.1, noteInitStores noteName (prvCborCalculateSize m) metadataNoteType
    ++ t.2.writes.map (fun w => (noteHeaderSize + w.1, w.2)))

/-- Memory after stores into a buffer. -/
def storeAll (mem : Mem) (noteBuffer : Nat) (stores : List (Nat × List UInt8)) : Mem :=
  applyStores mem (stores.map (fun s => (noteBuffer + s.1, s.2)))

/-- A store inside an earlier one changes what the earlier one put there. -/
theorem storeBytes_overwrite (mem : Mem) (base : Nat) {buffer : List UInt8}
    {w : Nat × List UInt8} (h : w.1 + w.2.length ≤ buffer.length) :
    (mem.storeBytes base buffer).storeBytes (base + w.1) w.2
      = mem.storeBytes base (overwrite buffer w) := by
  obtain ⟨offset, data⟩ := w
  dsimp only at h
  have hfront : (buffer.take offset).length = offset := List.length_take_of_le (by omega)
  have hlen := overwrite_length (w := (offset, data)) h
  have hover : overwrite buffer (offset, data)
      = buffer.take offset ++ (data ++ buffer.drop (offset + data.length)) := rfl
  change (mem.storeBytes base buffer).storeBytes (base + offset) data = _
  funext a
  by_cases hin : base + offset ≤ a ∧ a < base + offset + data.length
  · obtain ⟨i, rfl⟩ := Nat.exists_eq_add_of_le hin.1
    have hi : i < data.length := by omega
    rw [Mem.storeBytes_inside _ hi, Nat.add_assoc, Mem.storeBytes_inside _ (by rw [hlen]; omega),
      hover, List.getD_append_right _ _ _ _ (by rw [hfront]; omega), hfront,
      Nat.add_sub_cancel_left, List.getD_append _ _ _ _ hi]
  · rw [Mem.storeBytes_frame _ (by omega)]
    by_cases hbuf : base ≤ a ∧ a < base + buffer.length
    · obtain ⟨i, rfl⟩ := Nat.exists_eq_add_of_le hbuf.1
      have hi : i < buffer.length := by omega
      rw [Mem.storeBytes_inside _ hi, Mem.storeBytes_inside _ (by rw [hlen]; exact hi), hover]
      by_cases hbefore : i < offset
      · rw [List.getD_append _ _ _ _ (by rw [hfront]; exact hbefore)]
        simp only [List.getD_eq_getElem?_getD, List.getElem?_take, if_pos hbefore]
      · rw [List.getD_append_right _ _ _ _ (by rw [hfront]; omega), hfront,
          List.getD_append_right _ _ _ _ (by omega)]
        simp only [List.getD_eq_getElem?_getD, List.getElem?_drop]
        rw [show offset + data.length + (i - offset - data.length) = i from by omega]
    · rw [Mem.storeBytes_frame _ (by omega), Mem.storeBytes_frame _ (by rw [hlen]; omega)]

/-- Stores inside an earlier one, in order. -/
theorem storeAll_overwrite (mem : Mem) (base : Nat) {buffer : List UInt8}
    {ws : List (Nat × List UInt8)} (h : ∀ w ∈ ws, w.1 + w.2.length ≤ buffer.length) :
    storeAll (mem.storeBytes base buffer) base ws
      = mem.storeBytes base (ws.foldl overwrite buffer) := by
  induction ws generalizing buffer with
  | nil => rfl
  | cons w ws ih =>
      have hw := h w List.mem_cons_self
      have hrest : ∀ v ∈ ws, v.1 + v.2.length ≤ (overwrite buffer w).length := by
        intro v hv
        rw [overwrite_length hw]
        exact h v (List.mem_cons_of_mem w hv)
      have hstep := ih hrest
      rw [← storeBytes_overwrite mem base hw] at hstep
      exact hstep

/-- Copies behind a front leave the front alone. -/
theorem foldl_overwrite_shift (front buffer : List UInt8) (ws : List (Nat × List UInt8)) :
    (ws.map (fun w => (front.length + w.1, w.2))).foldl overwrite (front ++ buffer)
      = front ++ ws.foldl overwrite buffer := by
  have hone : ∀ (buffer : List UInt8) (w : Nat × List UInt8),
      overwrite (front ++ buffer) (front.length + w.1, w.2) = front ++ overwrite buffer w := by
    intro buffer w
    simp only [overwrite, List.take_append, List.drop_append, Nat.add_sub_cancel_left,
      Nat.add_assoc, List.append_assoc]
    rw [List.take_of_length_le (by omega), List.drop_eq_nil_of_le (by omega), List.nil_append]
  induction ws generalizing buffer with
  | nil => rfl
  | cons w ws ih => rw [List.map_cons, List.foldl_cons, List.foldl_cons, hone, ih]

/-! ## The note in memory -/

/-- The note that is read back. -/
def metadataNote (m : Metadata) : Note where
  namesz := 6
  descsz := (metadataCbor m).length
  type := metadataNoteType
  name := ascii "Ticos" ++ [0]
  namePadding := [0, 0]
  desc := metadataCbor m
  descPadding := List.replicate (paddingFor (metadataCbor m).length) 0

theorem metadataNote_wellFormed {m : Metadata} (h : (metadataCbor m).length < 2 ^ 32) :
    (metadataNote m).WellFormed where
  words := by
    simp only [Fits, List.forall₂_cons]
    exact ⟨show 6 < 256 ^ 4 by decide, h, show metadataNoteType < 256 ^ 4 by decide,
      List.Forall₂.nil⟩
  name := rfl
  namePadding := show 2 = paddingFor 6 by decide
  desc := rfl
  descPadding := List.length_replicate

/-- The dictionary is written inside the space left for it. -/
theorem cborWrites_within (m : Metadata) (bufLen : Nat) :
    ∀ w ∈ (prvAddCborMetadata (ticosCborEncoderInit bufLen) m).2.writes,
      w.1 + w.2.length ≤ bufLen := by
  have hinit : Within (ticosCborEncoderInit bufLen) := ⟨rfl, Nat.zero_le _, fun w hw => nomatch hw⟩
  obtain ⟨hin, hlen⟩ := hinit.addAll (piecesAll (metadataCalls m))
  rw [prvAddCborMetadata, execWhile_eq]
  intro w hw
  have hle := hin.writes w hw
  rw [hlen] at hle
  exact hle

/-- The name copied into the cleared payload. -/
theorem overwrite_name {header : List UInt8} (hheader : header.length = nhdrSize) (n : Nat) :
    overwrite (header ++ List.replicate (8 + n) 0) (nhdrSize, ascii "Ticos" ++ [0])
      = (header ++ (ascii "Ticos" ++ [0] ++ [0, 0])) ++ List.replicate n 0 := by
  have hzeros : List.replicate (8 + n) (0 : UInt8)
      = List.replicate 6 0 ++ ([0, 0] ++ List.replicate n 0) := by
    rw [List.replicate_add]
    rfl
  have hcopied := overwrite_middle header ([0, 0] ++ List.replicate n 0)
    (show (List.replicate 6 (0 : UInt8)).length = (ascii "Ticos" ++ [(0 : UInt8)]).length from rfl)
  rw [hheader] at hcopied
  rw [hzeros, hcopied]
  simp only [List.append_assoc]

/-- The header, and what the stores of `ticos_core_elf_note_init` come to. -/
theorem noteInit_header (m : Metadata) : ∃ header : List UInt8, header.length = nhdrSize ∧
    noteInitStores noteName (prvCborCalculateSize m) metadataNoteType
      = [(0, header),
        (nhdrSize, List.replicate (8 + ticosAlignUp (prvCborCalculateSize m) 4) 0),
        (nhdrSize, ascii "Ticos" ++ [0])] ∧
    ticosCoreElfNoteInit noteName (prvCborCalculateSize m) metadataNoteType
      = (header ++ (ascii "Ticos" ++ [0] ++ [0, 0]),
        List.replicate (ticosAlignUp (prvCborCalculateSize m) 4) 0) := by
  have hfits : Fits [4, 4, 4] [prvCalcOwnerNameSize noteName % 2 ^ 32,
      prvCborCalculateSize m % 2 ^ 32, metadataNoteType] := by
    simp only [Fits, List.forall₂_cons]
    exact ⟨Nat.mod_lt _ (by decide), Nat.mod_lt _ (by decide), by decide, List.Forall₂.nil⟩
  exact ⟨_, encodeFields_length hfits, rfl, rfl⟩

/-- What the two alignments add up to. -/
theorem calculateSize_parts {m : Metadata} (h : (metadataCbor m).length + 3 < 2 ^ 64) :
    ticosCoreElfMetadataNoteCalculateSize m
      = nhdrSize + (8 + ticosAlignUp (prvCborCalculateSize m) 4) := by
  rw [calculateSize_eq h, prvCborCalculateSize_eq, ticosAlignUp_four h, nhdrSize]
  omega

theorem descriptionOffset_eq : descriptionOffset noteName = nhdrSize + 8 := by decide

/-- The stores behind the first two lie in the cleared payload. -/
theorem payloadStores_within {m : Metadata} (h : (metadataCbor m).length + 3 < 2 ^ 64) :
    ∀ w ∈ (nhdrSize, ascii "Ticos" ++ [0])
        :: (prvAddCborMetadata (ticosCborEncoderInit (ticosCoreElfMetadataNoteCalculateSize m
          - descriptionOffset noteName)) m).2.writes.map
            (fun w => (descriptionOffset noteName + w.1, w.2)),
      w.1 + w.2.length ≤ ticosCoreElfMetadataNoteCalculateSize m := by
  have hsize := calculateSize_parts h
  rintro w (_ | ⟨_, hw⟩)
  · rw [hsize]
    show nhdrSize + 6 ≤ _
    omega
  · obtain ⟨v, hv, rfl⟩ := List.mem_map.mp hw
    have hle := cborWrites_within m _ v hv
    rw [descriptionOffset_eq] at hle ⊢
    dsimp only
    omega

/-- The stores leave the note of the list model in memory, and nothing else. -/
theorem storeAll_metadataNote {m : Metadata} (h : (metadataCbor m).length + 3 < 2 ^ 64)
    (mem : Mem) (noteBuffer : Nat) :
    storeAll mem noteBuffer
        (metadataNoteStores m (ticosCoreElfMetadataNoteCalculateSize m)).2
      = mem.storeBytes noteBuffer
        (ticosCoreElfMetadataNoteWrite m (ticosCoreElfMetadataNoteCalculateSize m)).2 := by
  obtain ⟨header, hheader, hstores, hnote⟩ := noteInit_header m
  have hsize := calculateSize_parts h
  have hwithin := payloadStores_within h
  have hfront : (header ++ (ascii "Ticos" ++ [0] ++ [0, 0])).length
      = descriptionOffset noteName := by
    rw [List.length_append, hheader, descriptionOffset_eq]
    rfl
  rw [metadataNoteStores, ticosCoreElfMetadataNoteWrite]
  dsimp only
  rw [hstores, hnote]
  dsimp only
  rw [hfront]
  generalize (prvAddCborMetadata (ticosCborEncoderInit (ticosCoreElfMetadataNoteCalculateSize m
    - descriptionOffset noteName)) m).2.writes = ws at hwithin
  generalize ticosAlignUp (prvCborCalculateSize m) 4 = descSize at hsize
  -- the header and the `memset` together are one store of a cleared note
  have hcleared : ∀ w ∈ (nhdrSize, ascii "Ticos" ++ [0])
      :: ws.map (fun w => (descriptionOffset noteName + w.1, w.2)),
      w.1 + w.2.length ≤ (header ++ List.replicate (8 + descSize) 0).length := by
    rw [List.length_append, hheader, List.length_replicate, ← hsize]
    exact hwithin
  have hall := storeAll_overwrite mem noteBuffer hcleared
  have hshift := foldl_overwrite_shift (header ++ (ascii "Ticos" ++ [0] ++ [0, 0]))
    (List.replicate descSize 0) ws
  rw [← Mem.storeBytes_append, List.foldl_cons, overwrite_name hheader, hheader] at hall
  rw [hfront] at hshift
  rw [← hshift, ← hall]
  rfl

/-- Every byte of the note is stored by the header or by the `memset`. -/
theorem metadataNoteStores_cover {m : Metadata} (h : (metadataCbor m).length + 3 < 2 ^ 64)
    {i : Nat} (hi : i < ticosCoreElfMetadataNoteCalculateSize m) :
    ∃ s ∈ (metadataNoteStores m (ticosCoreElfMetadataNoteCalculateSize m)).2,
      s.1 ≤ i ∧ i < s.1 + s.2.length := by
  obtain ⟨header, hheader, hstores, -⟩ := noteInit_header m
  rw [metadataNoteStores]
  dsimp only
  rw [hstores]
  by_cases hfirst : i < nhdrSize
  · refine ⟨(0, header), List.mem_cons_self, Nat.zero_le i, ?_⟩
    rw [hheader]
    omega
  · refine ⟨_, List.mem_cons_of_mem _ List.mem_cons_self, Nat.le_of_not_lt hfirst, ?_⟩
    rw [List.length_replicate, ← calculateSize_parts h]
    exact hi

/-- No store reaches past the note. -/
theorem metadataNoteStores_within {m : Metadata} (h : (metadataCbor m).length + 3 < 2 ^ 64) :
    ∀ s ∈ (metadataNoteStores m (ticosCoreElfMetadataNoteCalculateSize m)).2,
      s.1 + s.2.length ≤ ticosCoreElfMetadataNoteCalculateSize m := by
  obtain ⟨header, hheader, hstores, -⟩ := noteInit_header m
  have hsize := calculateSize_parts h
  have hwithin := payloadStores_within h
  rw [metadataNoteStores]
  dsimp only
  rw [hstores]
  rintro s (_ | ⟨_, _ | ⟨_, hs⟩⟩)
  · dsimp only
    omega
  · dsimp only
    rw [List.length_replicate]
    exact Nat.le_of_eq hsize.symm
  · exact hwithin s hs

/-! ## Reading it back -/

/-- The metadata as a data item of `CborDecode`. -/
def metadataTree (m : Metadata) : Tree :=
  .map [(.uint 1, .uint 1), (.uint 2, .text (cString m.linuxSdkVersion)),
    (.uint 3, .uint m.capturedTimeEpochS), (.uint 4, .text (cString m.deviceSerial)),
    (.uint 5, .text (cString m.hardwareVersion)), (.uint 6, .text (cString m.softwareType)),
    (.uint 7, .text (cString m.softwareVersion))]

/-- The dictionary that a reader of the note finds: keys 1 to 7, the schema version and the
    six fields. -/
def metadataItem (m : Metadata) : Item :=
  .map [(.int 1, .int 1), (.int 2, .text (cString m.linuxSdkVersion)),
    (.int 3, .int m.capturedTimeEpochS.toNat), (.int 4, .text (cString m.deviceSerial)),
    (.int 5, .text (cString m.hardwareVersion)), (.int 6, .text (cString m.softwareType)),
    (.int 7, .text (cString m.softwareVersion))]

theorem zero_not_mem_cString (str : List UInt8) : 0 ∉ cString str := by
  intro hmem
  have hne := List.mem_takeWhile_imp hmem
  simp at hne

/-- The calls for the tree give the bytes of the dictionary. -/
theorem bytesOf_metadataTree (m : Metadata) : bytesOf (metadataTree m).calls = metadataCbor m := by
  simp only [metadataTree, Tree.calls, callsPairs, metadataCbor, metadataCalls, bytesOf, piecesAll,
    List.flatMap_cons, List.flatMap_nil, List.cons_append, List.nil_append, Call.pieces,
    cString_eq (zero_not_mem_cString _), List.length_cons, List.length_nil]

/-- Each string lies in the dictionary. -/
theorem metadataTree_wellFormed {m : Metadata} (h : (metadataCbor m).length < 2 ^ 32) :
    (metadataTree m).WellFormed := by
  have hlen : ∀ (str : List UInt8), (.string str) ∈ metadataCalls m →
      (cString str).length < 2 ^ 32 ∧ 0 ∉ cString str := by
    intro str hmem
    refine ⟨Nat.lt_of_le_of_lt ?_ h, zero_not_mem_cString str⟩
    have hpiece : cString str ∈ piecesAll (metadataCalls m) :=
      List.mem_flatMap.mpr ⟨_, hmem, List.mem_cons_of_mem _ List.mem_cons_self⟩
    exact (List.sublist_flatten_of_mem hpiece).length_le
  simp only [metadataTree, Tree.WellFormed, wellFormedPairs, true_and, and_true]
  refine ⟨show 7 < 2 ^ 32 by decide, ?_, ?_, ?_, ?_, ?_⟩
  all_goals
    apply hlen
    simp [metadataCalls]

/-- **The dictionary is read back**, by both decoders. -/
theorem decode_metadataCbor {m : Metadata} (h : (metadataCbor m).length < 2 ^ 32)
    (shortest : Bool) : decode shortest (metadataCbor m) = some (metadataItem m, []) := by
  have hdec := decodeItem_tree shortest (metadataTree m) (metadataTree_wellFormed h)
    (metadataCbor m).length [] (Nat.le_of_eq (congrArg List.length (bytesOf_metadataTree m)))
  rw [List.append_nil, bytesOf_metadataTree] at hdec
  exact hdec

/-- The list model's note is the note that is read back. -/
theorem noteWrite_encode {m : Metadata} (h : (metadataCbor m).length < 2 ^ 32) :
    (ticosCoreElfMetadataNoteWrite m (ticosCoreElfMetadataNoteCalculateSize m)).2
      = (metadataNote m).encode :=
  (noteWrite_spec (by omega)).2.2 h

/-- **Round trip of the metadata note**: for every metadata whose note stays below 2^32
    bytes, writing into a buffer of the calculated size succeeds, stores every byte of
    the buffer and none outside it, and what then lies in the buffer is one note named
    "Ticos", whose description decodes to the seven entries, followed by zeros up to
    a multiple of four. -/
theorem metadata_note_roundTrip (m : Metadata) (h : noteSize m < 2 ^ 32) (mem : Mem)
    (noteBuffer : Nat) :
    let size := ticosCoreElfMetadataNoteCalculateSize m
    let written := metadataNoteStores m size
    let after := storeAll mem noteBuffer written.2
    size = noteSize m ∧ written.1 = true ∧
    (∀ i < size, ∃ s ∈ written.2, s.1 ≤ i ∧ i < s.1 + s.2.length) ∧
    (∀ s ∈ written.2, s.1 + s.2.length ≤ size) ∧
    (∀ a, a < noteBuffer ∨ noteBuffer + size ≤ a → after a = mem a) ∧
    ∃ note, parseNoteSegment (after.loadBytes noteBuffer size) = some [note] ∧
      note.name = ascii "Ticos" ++ [0] ∧ note.type = metadataNoteType ∧
      note.desc.length = note.descsz ∧
      (∀ shortest, decode shortest note.desc = some (metadataItem m, [])) ∧
      note.descPadding = List.replicate (paddingFor note.desc.length) 0 := by
  have hcbor : (metadataCbor m).length < 2 ^ 32 := by
    rw [noteSize] at h
    omega
  have hwide : (metadataCbor m).length + 3 < 2 ^ 64 := by omega
  obtain ⟨hok, hlen, -⟩ := noteWrite_spec hwide
  dsimp only
  rw [storeAll_metadataNote hwide, noteWrite_encode hcbor]
  rw [noteWrite_encode hcbor] at hlen
  refine ⟨?_, ?_, fun i hi => metadataNoteStores_cover hwide hi, metadataNoteStores_within hwide,
    ?_, metadataNote m, ?_, rfl, rfl, rfl, decode_metadataCbor hcbor, rfl⟩
  · exact calculateSize_eq hwide
  · rw [ticosCoreElfMetadataNoteWrite, noteInit_length] at hok
    rw [metadataNoteStores, descriptionOffset_eq]
    exact hok
  · intro a ha
    rw [← hlen] at ha
    exact Mem.storeBytes_frame _ ha
  · rw [← hlen, Mem.loadBytes_storeBytes]
    have hone := parseNoteSegment_row (List.forall_mem_singleton.mpr (metadataNote_wellFormed hcbor))
    rw [List.flatMap_singleton] at hone
    exact hone

/-- The metadata of a device, with an empty hardware version. -/
def deviceMetadata : Metadata where
  linuxSdkVersion := ascii "0.4.0"
  capturedTimeEpochS := 1663064648
  deviceSerial := ascii "1234ABC"
  hardwareVersion := []
  softwareType := ascii "main"
  softwareVersion := ascii "1.2.3"

theorem metadata_note_roundTrip_device :
    noteSize deviceMetadata = 60 ∧
    (metadataNoteStores deviceMetadata
      (ticosCoreElfMetadataNoteCalculateSize deviceMetadata)).1 = true := by
  have hsize : noteSize deviceMetadata = 60 := by decide
  exact ⟨hsize, (metadata_note_roundTrip deviceMetadata (by rw [hsize]; decide)
    (fun _ => 0xAA) 0).2.1⟩

end MetadataNote
