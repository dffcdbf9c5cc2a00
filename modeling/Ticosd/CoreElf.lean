import Ticosd.LittleEndian

/-! # ELF headers — `core_elf.h` for a 64-bit little-endian machine

    The ELF header and the program header as they lie in a file.  Both are rows
    of little-endian fields, the ELF header after its 16 bytes of identification. -/

namespace CoreElf

open LittleEndian

/-- `Elf64_Ehdr`. -/
structure Ehdr where
  ident : List UInt8
  type : Nat
  machine : Nat
  version : Nat
  entry : Nat
  phoff : Nat
  shoff : Nat
  flags : Nat
  ehsize : Nat
  phentsize : Nat
  phnum : Nat
  shentsize : Nat
  shnum : Nat
  shstrndx : Nat
  deriving DecidableEq, Inhabited

/-- `Elf64_Phdr`. -/
structure Phdr where
  type : Nat
  flags : Nat
  offset : Nat
  vaddr : Nat
  paddr : Nat
  filesz : Nat
  memsz : Nat
  align : Nat
  deriving DecidableEq, Inhabited

/-- `sizeof(Elf_Ehdr)` and `sizeof(Elf_Phdr)`. -/
def ehdrSize : Nat := 64
def phdrSize : Nat := 56

/-- The widths of the fields, in order. -/
def ehdrWidths : List Nat := [2, 2, 4, 8, 8, 8, 4, 2, 2, 2, 2, 2, 2]
def phdrWidths : List Nat := [4, 4, 8, 8, 8, 8, 8, 8]

def Ehdr.fields (h : Ehdr) : List Nat :=
  [h.type, h.machine, h.version, h.entry, h.phoff, h.shoff, h.flags, h.ehsize, h.phentsize,
    h.phnum, h.shentsize, h.shnum, h.shstrndx]

def Phdr.fields (p : Phdr) : List Nat :=
  [p.type, p.flags, p.offset, p.vaddr, p.paddr, p.filesz, p.memsz, p.align]

/-- The headers as bytes. -/
def Ehdr.encode (h : Ehdr) : List UInt8 := h.ident ++ encodeFields ehdrWidths h.fields
def Phdr.encode (p : Phdr) : List UInt8 := encodeFields phdrWidths p.fields

/-- The header that 64 bytes of memory are read as. -/
def Ehdr.decode (bs : List UInt8) : Ehdr :=
  match decodeFields ehdrWidths (bs.drop 16) with
  | [type, machine, version, entry, phoff, shoff, flags, ehsize, phentsize, phnum, shentsize,
      shnum, shstrndx] =>
      ⟨bs.take 16, type, machine, version, entry, phoff, shoff, flags, ehsize, phentsize, phnum,
        shentsize, shnum, shstrndx⟩
  | _ => default

/-- The program header that 56 bytes of memory are read as. -/
def Phdr.decode (bs : List UInt8) : Phdr :=
  match decodeFields phdrWidths bs with
  | [type, flags, offset, vaddr, paddr, filesz, memsz, align] =>
      ⟨type, flags, offset, vaddr, paddr, filesz, memsz, align⟩
  | _ => default

/-- The table of `n` program headers. -/
def decodeTable : Nat → List UInt8 → List Phdr
  | 0, _ => []
  | n + 1, bs => Phdr.decode (bs.take phdrSize) :: decodeTable n (bs.drop phdrSize)

/-- Constants of `elf.h`. -/
def elfMag : List UInt8 := [0x7f, 69, 76, 70]
def elfClass64 : UInt8 := 2
def elfData2Lsb : UInt8 := 1
def evCurrent : Nat := 1
def etCore : Nat := 4
def ptLoad : Nat := 1
def ptNote : Nat := 4

/-- `ticos_core_elf_reader_is_valid_core_elf` on a whole header. -/
def ticosCoreElfReaderIsValidCoreElf (h : Ehdr) : Bool :=
  h.ident.take 4 = elfMag && h.ident.getD 4 0 = elfClass64 && h.version = evCurrent &&
    h.ehsize = ehdrSize && h.phentsize = phdrSize && h.type = etCore

/-! ## Round trips -/

/-- A header whose values fit their fields. -/
structure Ehdr.Ok (h : Ehdr) : Prop where
  ident : h.ident.length = 16
  fits : Fits ehdrWidths h.fields

def Phdr.Ok (p : Phdr) : Prop := Fits phdrWidths p.fields

instance (p : Phdr) : Decidable p.Ok := inferInstanceAs (Decidable (Fits _ _))

theorem Phdr.Ok.align_lt {p : Phdr} (h : p.Ok) : p.align < 2 ^ 64 := by
  have h' : Fits [4, 4, 8, 8, 8, 8, 8, 8]
    [p.type, p.flags, p.offset, p.vaddr, p.paddr, p.filesz, p.memsz, p.align] := h
  simp only [Fits, List.forall₂_cons] at h'
  exact h'.2.2.2.2.2.2.2.1

/-- The offset is a field of eight bytes. -/
theorem Phdr.Ok.setOffset {p : Phdr} (h : p.Ok) {offset : Nat} (ho : offset < 2 ^ 64) :
    ({ p with offset := offset } : Phdr).Ok := by
  have h' : Fits [4, 4, 8, 8, 8, 8, 8, 8]
    [p.type, p.flags, p.offset, p.vaddr, p.paddr, p.filesz, p.memsz, p.align] := h
  show Fits [4, 4, 8, 8, 8, 8, 8, 8]
    [p.type, p.flags, offset, p.vaddr, p.paddr, p.filesz, p.memsz, p.align]
  simp only [Fits, List.forall₂_cons] at h' ⊢
  exact ⟨h'.1, h'.2.1, ho, h'.2.2.2⟩

/-- The fields that go into the header of another core. -/
theorem Ehdr.Ok.bounds {h : Ehdr} (hok : h.Ok) : h.machine < 2 ^ 16 ∧ h.flags < 2 ^ 32 := by
  have h' : Fits [2, 2, 4, 8, 8, 8, 4, 2, 2, 2, 2, 2, 2]
    [h.type, h.machine, h.version, h.entry, h.phoff, h.shoff, h.flags, h.ehsize, h.phentsize,
      h.phnum, h.shentsize, h.shnum, h.shstrndx] := hok.fits
  simp only [Fits, List.forall₂_cons] at h'
  obtain ⟨-, hmachine, -, -, -, -, hflags, -⟩ := h'
  exact ⟨hmachine, hflags⟩

theorem Ehdr.Ok.phnum_lt {h : Ehdr} (hok : h.Ok) : h.phnum < 2 ^ 16 := by
  have h' : Fits [2, 2, 4, 8, 8, 8, 4, 2, 2, 2, 2, 2, 2]
    [h.type, h.machine, h.version, h.entry, h.phoff, h.shoff, h.flags, h.ehsize, h.phentsize,
      h.phnum, h.shentsize, h.shnum, h.shstrndx] := hok.fits
  simp only [Fits, List.forall₂_cons] at h'
  obtain ⟨-, -, -, -, -, -, -, -, -, hphnum, -⟩ := h'
  exact hphnum

theorem Ehdr.encode_length {h : Ehdr} (hok : h.Ok) : h.encode.length = ehdrSize := by
  rw [Ehdr.encode, List.length_append, hok.ident, encodeFields_length hok.fits]
  rfl

theorem Phdr.encode_length {p : Phdr} (hok : p.Ok) : p.encode.length = phdrSize := by
  rw [Phdr.encode, encodeFields_length hok]
  rfl

theorem Ehdr.decode_encode {h : Ehdr} (hok : h.Ok) : Ehdr.decode h.encode = h := by
  have hfields : decodeFields ehdrWidths (h.encode.drop 16) = h.fields := by
    rw [Ehdr.encode, ← hok.ident, List.drop_left]
    have := decodeFields_encodeFields hok.fits []
    rw [List.append_nil] at this
    exact this
  have hident : h.encode.take 16 = h.ident := by
    rw [Ehdr.encode, ← hok.ident, List.take_left]
  rw [Ehdr.decode, hfields, hident]
  rfl

theorem Phdr.decode_encode {p : Phdr} (hok : p.Ok) : Phdr.decode p.encode = p := by
  have hfields : decodeFields phdrWidths p.encode = p.fields := by
    have := decodeFields_encodeFields hok []
    rw [List.append_nil] at this
    exact this
  rw [Phdr.decode, hfields]
  rfl

theorem decodeTable_encode {ps : List Phdr} (hok : ∀ p ∈ ps, p.Ok) (rest : List UInt8) :
    decodeTable ps.length (ps.flatMap Phdr.encode ++ rest) = ps := by
  induction ps with
  | nil => rfl
  | cons p ps ih =>
      have hp := hok p List.mem_cons_self
      rw [List.flatMap_cons, List.length_cons, decodeTable, List.append_assoc,
        ← Phdr.encode_length hp, List.take_left, List.drop_left, Phdr.decode_encode hp,
        ih (fun q hq => hok q (List.mem_cons_of_mem p hq))]

theorem encodeTable_length {ps : List Phdr} (hok : ∀ p ∈ ps, p.Ok) :
    (ps.flatMap Phdr.encode).length = ps.length * phdrSize := by
  induction ps with
  | nil => exact (Nat.zero_mul _).symm
  | cons p ps ih =>
      rw [List.flatMap_cons, List.length_append, Phdr.encode_length (hok p List.mem_cons_self),
        ih (fun q hq => hok q (List.mem_cons_of_mem p hq)), List.length_cons, Nat.succ_mul,
        Nat.add_comm]

/-! ## From the bytes -/

theorem Ehdr.decode_ok {bs : List UInt8} (h : bs.length = ehdrSize) : (Ehdr.decode bs).Ok := by
  constructor
  · have hident : (bs.take 16).length = 16 := by
      rw [List.length_take, h]
      rfl
    exact hident
  · exact decodeFields_fits ehdrWidths (bs.drop 16)

theorem Ehdr.encode_decode {bs : List UInt8} (h : bs.length = ehdrSize) :
    (Ehdr.decode bs).encode = bs := by
  have hrest : (bs.drop 16).length = ehdrWidths.sum := by
    rw [List.length_drop, h]
    rfl
  have hfields := encodeFields_decodeFields (Nat.le_of_eq hrest.symm)
  rw [← hrest, List.take_length] at hfields
  calc (Ehdr.decode bs).encode
      = bs.take 16 ++ encodeFields ehdrWidths (decodeFields ehdrWidths (bs.drop 16)) := rfl
    _ = bs := by rw [hfields, List.take_append_drop]

theorem Phdr.encode_decode {bs : List UInt8} (h : bs.length = phdrSize) :
    (Phdr.decode bs).encode = bs := by
  have hfields := encodeFields_decodeFields (Nat.le_of_eq (show phdrWidths.sum = bs.length from
    h.symm))
  rw [show phdrWidths.sum = bs.length from h.symm, List.take_length] at hfields
  exact hfields

theorem decodeTable_length (n : Nat) (bs : List UInt8) : (decodeTable n bs).length = n := by
  induction n generalizing bs with
  | zero => rfl
  | succ n ih => rw [decodeTable, List.length_cons, ih]

/-- Only the bytes of the table are looked at. -/
theorem decodeTable_take (n : Nat) (bs : List UInt8) :
    decodeTable n (bs.take (n * phdrSize)) = decodeTable n bs := by
  induction n generalizing bs with
  | zero => rfl
  | succ n ih =>
      have hle : min phdrSize ((n + 1) * phdrSize) = phdrSize := by
        rw [Nat.succ_mul]
        omega
      have hrest : (bs.take ((n + 1) * phdrSize)).drop phdrSize
          = (bs.drop phdrSize).take (n * phdrSize) := by
        rw [List.drop_take, Nat.succ_mul, Nat.add_sub_cancel]
      rw [decodeTable, decodeTable, List.take_take, hle, hrest, ih]

theorem decodeTable_ok (n : Nat) (bs : List UInt8) : ∀ p ∈ decodeTable n bs, p.Ok := by
  induction n generalizing bs with
  | zero => exact fun p hp => nomatch hp
  | succ n ih =>
      intro p hp
      rcases List.mem_cons.mp hp with rfl | hp
      · exact decodeFields_fits phdrWidths (bs.take phdrSize)
      · exact ih _ p hp

/-- The table is the bytes it was read from. -/
theorem encode_decodeTable {n : Nat} {bs : List UInt8} (h : n * phdrSize ≤ bs.length) :
    (decodeTable n bs).flatMap Phdr.encode = bs.take (n * phdrSize) := by
  induction n generalizing bs with
  | zero =>
      rw [Nat.zero_mul]
      rfl
  | succ n ih =>
      rw [Nat.succ_mul] at h
      have hlen : (bs.take phdrSize).length = phdrSize := List.length_take_of_le (by omega)
      rw [decodeTable, List.flatMap_cons, Phdr.encode_decode hlen,
        ih (by rw [List.length_drop]; omega), ← List.take_add, Nat.succ_mul, Nat.add_comm]

end CoreElf
