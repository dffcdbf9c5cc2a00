import Ticosd.MetadataNote

/-! # ELF note format — any note that `core_elf_note.c` builds

    `MetadataNote` is about the one note of the daemon.  Here is the general statement about
    its two functions: the size that `ticos_core_elf_note_calculate_size` computes is what
    `ticos_core_elf_note_init` fills, and once the caller has put the description where the
    returned pointer says, a parser reads back name, type and description.  A note built so
    ends where the next one begins, so a row of notes is read back as a list
    (`note_format`).

    The name's size goes into a 32-bit word.  The two functions take any C string, but one
    that needs `2 ^ 32` bytes with its NUL does not come back (`long_name_lost`). -/

namespace NoteFormat

open ByteStore CText LittleEndian CoreElfWriter CoreElfNote MetadataNote

/-- What a note is built from: a C string, the type, and the description that the caller
    writes itself. -/
structure NoteArgs where
  ownerName : List UInt8
  nType : UInt32
  description : List UInt8

/-- The name as the note has it, with its NUL; "if no name is present", nothing. -/
def nameField (ownerName : List UInt8) : List UInt8 :=
  if cString ownerName = [] then [] else cString ownerName ++ [0]

namespace NoteArgs

/-- `ticos_core_elf_note_calculate_size`. -/
def size (a : NoteArgs) : Nat := ticosCoreElfNoteCalculateSize a.ownerName a.description.length

/-- The stores of `ticos_core_elf_note_init`. -/
def initStores (a : NoteArgs) : List (Nat × List UInt8) :=
  noteInitStores a.ownerName a.description.length a.nType.toNat

/-- Memory after `ticos_core_elf_note_init`, and the description at the pointer that it
    returns. -/
def build (a : NoteArgs) (mem : Mem) (buffer : Nat) : Mem :=
  (storeAll mem buffer a.initStores).storeBytes (buffer + descriptionOffset a.ownerName)
    a.description

/-- The bytes of the buffer then. -/
def bytes (a : NoteArgs) (mem : Mem) (buffer : Nat) : List UInt8 :=
  (a.build mem buffer).loadBytes buffer a.size

/-- The note that a parser should find. -/
def note (a : NoteArgs) : Note where
  namesz := (nameField a.ownerName).length
  descsz := a.description.length
  type := a.nType.toNat
  name := nameField a.ownerName
  namePadding := List.replicate (paddingFor (nameField a.ownerName).length) 0
  desc := a.description
  descPadding := List.replicate (paddingFor a.description.length) 0

/-- Both sizes fit their words. -/
structure Fits (a : NoteArgs) : Prop where
  name : (nameField a.ownerName).length < 2 ^ 32
  desc : a.description.length < 2 ^ 32

end NoteArgs

/-! ## Sizes -/

theorem calcOwnerNameSize_eq (ownerName : List UInt8) :
    prvCalcOwnerNameSize ownerName = (nameField ownerName).length := by
  rw [prvCalcOwnerNameSize, nameField]
  by_cases hempty : cString ownerName = []
  · rw [if_pos hempty, hempty]
    rfl
  · rw [if_neg hempty, if_pos (List.length_pos_iff.mpr hempty), List.length_append]
    rfl

/-- The `memcpy` of the name takes its NUL with it. -/
theorem copied_name (ownerName : List UInt8) :
    (cString ownerName ++ [0]).take (prvCalcOwnerNameSize ownerName) = nameField ownerName := by
  rw [calcOwnerNameSize_eq, nameField]
  by_cases hempty : cString ownerName = []
  · rw [if_pos hempty, hempty]
    rfl
  · rw [if_neg hempty]
    exact List.take_length

variable {a : NoteArgs}

theorem alignUp_padded {n : Nat} (h : n < 2 ^ 32) : ticosAlignUp n 4 = n + paddingFor n :=
  ticosAlignUp_four (by omega)

theorem descriptionOffset_name (ha : a.Fits) : descriptionOffset a.ownerName
    = nhdrSize + (a.note.name ++ a.note.namePadding).length := by
  have hpadding : a.note.namePadding.length = paddingFor (nameField a.ownerName).length :=
    List.length_replicate
  rw [descriptionOffset, calcOwnerNameSize_eq, alignUp_padded ha.name, List.length_append,
    hpadding]
  rfl

theorem note_wellFormed (ha : a.Fits) : a.note.WellFormed where
  words := by
    simp only [Fits, List.forall₂_cons]
    exact ⟨ha.name, ha.desc, a.nType.toNat_lt, List.Forall₂.nil⟩
  name := rfl
  namePadding := List.length_replicate
  desc := rfl
  descPadding := List.length_replicate

theorem header_length (ha : a.Fits) :
    (encodeFields [4, 4, 4] [a.note.namesz, a.note.descsz, a.note.type]).length = nhdrSize :=
  encodeFields_length (note_wellFormed ha).words

/-- The calculated size, by its parts. -/
theorem size_eq (ha : a.Fits) : a.size = nhdrSize
    + (a.note.namesz + paddingFor a.note.namesz + (a.note.descsz + paddingFor a.note.descsz)) := by
  rw [NoteArgs.size, ticosCoreElfNoteCalculateSize, calcOwnerNameSize_eq,
    alignUp_padded ha.name, alignUp_padded ha.desc, Nat.add_assoc]
  rfl

/-- The note is as long as was calculated. -/
theorem encode_length (ha : a.Fits) : a.note.encode.length = a.size := by
  have hnote := note_wellFormed ha
  rw [Note.encode, List.length_append, header_length ha, size_eq ha]
  simp only [List.length_append, hnote.name, hnote.namePadding, hnote.desc, hnote.descPadding]

/-! ## The stores -/

theorem initStores_eq (ha : a.Fits) : a.initStores
    = [(0, encodeFields [4, 4, 4] [a.note.namesz, a.note.descsz, a.note.type]),
      (nhdrSize, List.replicate a.note.namesz 0 ++ (a.note.namePadding
        ++ (List.replicate a.note.descsz 0 ++ a.note.descPadding))),
      (nhdrSize, a.note.name)] := by
  have hzeros : List.replicate (ticosAlignUp (nameField a.ownerName).length 4
      + ticosAlignUp a.description.length 4) (0 : UInt8)
      = List.replicate a.note.namesz 0 ++ (a.note.namePadding
        ++ (List.replicate a.note.descsz 0 ++ a.note.descPadding)) := by
    rw [alignUp_padded ha.name, alignUp_padded ha.desc]
    simp only [List.replicate_add, List.append_assoc]
    rfl
  rw [NoteArgs.initStores, noteInitStores, copied_name, calcOwnerNameSize_eq, hzeros,
    Nat.mod_eq_of_lt ha.name, Nat.mod_eq_of_lt ha.desc]
  rfl

/-- **All and only**: a byte is stored exactly if it is one of the calculated size. -/
theorem initStores_cover (ha : a.Fits) (i : Nat) :
    (∃ s ∈ a.initStores, s.1 ≤ i ∧ i < s.1 + s.2.length) ↔ i < a.size := by
  have hnote := note_wellFormed ha
  have hpayload : (List.replicate a.note.namesz (0 : UInt8) ++ (a.note.namePadding
      ++ (List.replicate a.note.descsz 0 ++ a.note.descPadding))).length
      = a.note.namesz + paddingFor a.note.namesz
        + (a.note.descsz + paddingFor a.note.descsz) := by
    simp only [List.length_append, List.length_replicate, hnote.namePadding, hnote.descPadding]
    exact (Nat.add_assoc ..).symm
  rw [initStores_eq ha, size_eq ha]
  simp only [List.mem_cons, List.not_mem_nil, or_false, exists_eq_or_imp, exists_eq_left,
    header_length ha, hpayload, hnote.name]
  omega

/-- **Built in any memory, the note stands there and nothing else has changed.** -/
theorem build_eq (ha : a.Fits) (mem : Mem) (buffer : Nat) :
    a.build mem buffer = mem.storeBytes buffer a.note.encode := by
  have hnote := note_wellFormed ha
  have hheader := header_length ha
  have hoffset : descriptionOffset a.ownerName
      = (encodeFields [4, 4, 4] [a.note.namesz, a.note.descsz, a.note.type]
        ++ (a.note.name ++ a.note.namePadding)).length := by
    rw [List.length_append, hheader]
    exact descriptionOffset_name ha
  have hsize := size_eq ha
  rw [NoteArgs.build, hoffset, initStores_eq ha, Note.encode]
  generalize encodeFields [4, 4, 4] [a.note.namesz, a.note.descsz, a.note.type] = header
    at hheader ⊢
  -- the header and the `memset` are one store of a cleared note; the two copies go into it
  have hcleared : ∀ w ∈ [(nhdrSize, a.note.name),
      ((header ++ (a.note.name ++ a.note.namePadding)).length, a.note.desc)],
      w.1 + w.2.length ≤ (header ++ (List.replicate a.note.namesz (0 : UInt8)
        ++ (a.note.namePadding
          ++ (List.replicate a.note.descsz 0 ++ a.note.descPadding)))).length := by
    simp only [List.mem_cons, List.not_mem_nil, or_false, forall_eq_or_imp, forall_eq,
      List.length_append, List.length_replicate, hheader, hnote.name, hnote.namePadding,
      hnote.desc, hnote.descPadding]
    omega
  have hall := storeAll_overwrite mem buffer hcleared
  have hcopied {n : Nat} {copied : List UInt8} (hlen : copied.length = n) :
      ∀ front back : List UInt8, overwrite (front ++ (List.replicate n 0 ++ back))
        (front.length, copied) = front ++ (copied ++ back) := fun front back =>
    overwrite_middle front back (List.length_replicate.trans hlen.symm)
  have hname := hcopied hnote.name header (a.note.namePadding
    ++ (List.replicate a.note.descsz (0 : UInt8) ++ a.note.descPadding))
  have hdesc := hcopied hnote.desc (header ++ (a.note.name ++ a.note.namePadding))
    a.note.descPadding
  rw [hheader] at hname
  rw [List.foldl_cons, hname, List.foldl_cons, List.foldl_nil] at hall
  simp only [List.append_assoc] at hall hdesc
  rw [hdesc, ← Mem.storeBytes_append, hheader] at hall
  simp only [List.append_assoc]
  exact hall

theorem bytes_eq (ha : a.Fits) (mem : Mem) (buffer : Nat) :
    a.bytes mem buffer = a.note.encode := by
  rw [NoteArgs.bytes, build_eq ha, ← encode_length ha]
  exact Mem.loadBytes_storeBytes mem buffer a.note.encode

/-! ## Rows of notes -/

/-- Notes built one behind the other. -/
def buildAll (mem : Mem) (buffer : Nat) : List NoteArgs → Mem
  | [] => mem
  | a :: rest => buildAll (a.build mem buffer) (buffer + a.size) rest

/-- The bytes that they take. -/
def totalSize (args : List NoteArgs) : Nat := (args.map NoteArgs.size).sum

variable {args : List NoteArgs}

theorem encodeAll_length (h : ∀ a ∈ args, a.Fits) :
    (args.flatMap fun a => a.note.encode).length = totalSize args := by
  rw [List.length_flatMap, totalSize]
  exact congrArg List.sum (List.map_congr_left fun a ha => encode_length (h a ha))

/-- No note damages the one before it. -/
theorem buildAll_eq (h : ∀ a ∈ args, a.Fits) (mem : Mem) (buffer : Nat) :
    buildAll mem buffer args = mem.storeBytes buffer (args.flatMap fun a => a.note.encode) := by
  induction args generalizing mem buffer with
  | nil => exact (Mem.storeBytes_nil mem buffer).symm
  | cons a rest ih =>
      have ha := h a List.mem_cons_self
      rw [buildAll, ih (fun b hb => h b (List.mem_cons_of_mem a hb)), build_eq ha,
        ← encode_length ha, Mem.storeBytes_append, List.flatMap_cons]

/-- **The notes of `core_elf_note.c`**: of each, `ticos_core_elf_note_init` stores all and
    only the bytes of the calculated size, and a parser reads back the name with its NUL, the
    type, the description and zeros for padding; a row of notes, one built behind the
    other or each by itself, is read back as the list. -/
theorem note_format (args : List NoteArgs) (h : ∀ a ∈ args, a.Fits) :
    (∀ a ∈ args, ∀ i, (∃ s ∈ a.initStores, s.1 ≤ i ∧ i < s.1 + s.2.length) ↔ i < a.size) ∧
    (∀ a ∈ args, ∀ mem buffer, parseNote (a.bytes mem buffer) = some (a.note, [])) ∧
    (∀ mem buffer, parseNoteSegment (args.flatMap fun a => a.bytes mem buffer)
      = some (args.map NoteArgs.note)) ∧
    ∀ mem buffer, parseNoteSegment ((buildAll mem buffer args).loadBytes buffer (totalSize args))
      = some (args.map NoteArgs.note) := by
  have hrow : parseNoteSegment (args.flatMap fun a => a.note.encode)
      = some (args.map NoteArgs.note) := by
    have hnotes : ∀ n ∈ args.map NoteArgs.note, n.WellFormed := by
      intro n hn
      obtain ⟨a, ha, rfl⟩ := List.mem_map.mp hn
      exact note_wellFormed (h a ha)
    have hparse := parseNoteSegment_row hnotes
    rw [List.flatMap_map] at hparse
    exact hparse
  refine ⟨fun a ha => initStores_cover (h a ha), fun a ha mem buffer => ?_,
    fun mem buffer => ?_, fun mem buffer => ?_⟩
  · have hone := parseNote_encode (note_wellFormed (h a ha)) []
    rw [List.append_nil] at hone
    rw [bytes_eq (h a ha)]
    exact hone
  · rw [← hrow]
    exact congrArg parseNoteSegment (List.flatMap_congr fun a ha => bytes_eq (h a ha) mem buffer)
  · rw [buildAll_eq h, ← encodeAll_length h, Mem.loadBytes_storeBytes]
    exact hrow

/-- Two notes, one of them without a name. -/
theorem note_format_two :
    parseNoteSegment ((buildAll (fun _ => 0xAA) 64
        [⟨ascii "A", 7, [255]⟩, ⟨[], 8, [1, 2, 3, 4]⟩]).loadBytes 64 36)
      = some [⟨2, 1, 7, ascii "A" ++ [0], [0, 0], [255], [0, 0, 0]⟩,
        ⟨0, 4, 8, [], [], [1, 2, 3, 4], []⟩] := by
  have hfits : ∀ a ∈ [NoteArgs.mk (ascii "A") 7 [255], ⟨[], 8, [1, 2, 3, 4]⟩], a.Fits := by
    intro a ha
    simp only [List.mem_cons, List.not_mem_nil, or_false] at ha
    rcases ha with rfl | rfl
    · exact ⟨by decide, by decide⟩
    · exact ⟨by decide, by decide⟩
  exact (note_format _ hfits).2.2.2 (fun _ => 0xAA) 64

/-- What stands in the header's words is below `2 ^ 32`. -/
theorem parseNote_namesz {bs rest : List UInt8} {n : Note} (h : parseNote bs = some (n, rest)) :
    n.namesz < 2 ^ 32 := by
  rw [parseNote] at h
  split at h
  · cases h
  · simp only [Option.bind_eq_bind, Option.bind_eq_some_iff, Option.pure_def,
      Option.some.injEq, Prod.mk.injEq] at h
    obtain ⟨_, -, _, -, _, -, _, -, hn, -⟩ := h
    rw [← hn]
    refine Nat.lt_of_lt_of_le (leValue_lt _) ?_
    rw [show 2 ^ 32 = 256 ^ 4 from rfl]
    exact Nat.pow_le_pow_right (by decide) (List.length_take_le _ _)

/-- A name of `2 ^ 32 - 1` letters: the size with its NUL does not fit the header. -/
theorem long_name_lost : ¬ ∀ mem buffer,
    parseNote ((NoteArgs.mk (List.replicate (2 ^ 32 - 1) 97) 0 []).bytes mem buffer)
      = some ((NoteArgs.mk (List.replicate (2 ^ 32 - 1) 97) 0 []).note, []) := by
  intro h
  have hlt := parseNote_namesz (h (fun _ => 0) 0)
  have hname : cString (List.replicate (2 ^ 32 - 1) (97 : UInt8))
      = List.replicate (2 ^ 32 - 1) 97 :=
    cString_eq (fun hmem => absurd (List.eq_of_mem_replicate hmem) (by decide))
  have hsize : (nameField (List.replicate (2 ^ 32 - 1) 97)).length = 2 ^ 32 := by
    rw [nameField, hname, if_neg (by rw [List.replicate_eq_nil_iff]; decide),
      List.length_append, List.length_replicate]
    rfl
  exact absurd hlt (Nat.not_lt_of_le (Nat.le_of_eq hsize.symm))

end NoteFormat
