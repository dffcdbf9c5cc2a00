import Ticosd.CoreElfTransformer

/-! # Copying a LOAD segment — `prv_write_load_segment_data_cb` over any handler

    The callback asks `copy_proc_mem` for the memory of a segment in chunks of at
    most 4096 bytes.  A short count moves all later chunks; a request that fails is
    made up whole, with bytes `0xEF`.  The handler here is any object with a state;
    what it returns is recorded, request by request.

    The invariant is the offset: what has been handed to the writer so far is as long
    as the way from `p_vaddr` to the next request. -/

namespace LoadCopy

open CoreElf CoreElfTransformer
open CoreElfWriter hiding Choice NoFailure

variable {τ : Type}

/-- `sTicosCoreElfTransformerHandler`: `copy_proc_mem` returns the bytes it has copied,
    at least one and no more than it was asked for, or `none` for a value that is not
    positive. -/
structure CopyHandler (τ : Type) where
  copyProcMem : τ → Nat → Nat → Option (List UInt8) × τ
  count : ∀ state vaddr size bytes, 0 < size → (copyProcMem state vaddr size).1 = some bytes →
    0 < bytes.length ∧ bytes.length ≤ size

/-- A call of `copy_proc_mem` and its result. -/
structure Request where
  vaddr : Nat
  size : Nat
  copied : Option (List UInt8)
  deriving DecidableEq

/-- What stands in the buffer after the call. -/
def Request.piece (r : Request) : List UInt8 := r.copied.getD (List.replicate r.size 0xef)

/-- The buffer is not empty afterwards, and holds no more than was asked for. -/
theorem piece_length (h : CopyHandler τ) (state : τ) (vaddr : Nat) {size : Nat} (hsize : 0 < size) :
    0 < (Request.mk vaddr size (h.copyProcMem state vaddr size).1).piece.length ∧
      (Request.mk vaddr size (h.copyProcMem state vaddr size).1).piece.length ≤ size := by
  rw [Request.piece]
  cases hcopied : (h.copyProcMem state vaddr size).1 with
  | none => exact ⟨by simpa using hsize, by simp⟩
  | some bytes => exact h.count state vaddr size bytes hsize hcopied

theorem chunk_pos {bytesRemaining : Nat} (h : bytesRemaining ≠ 0) :
    0 < min bytesRemaining procMemCopyBufferSizeBytes :=
  Nat.lt_min.mpr ⟨Nat.pos_of_ne_zero h, by decide⟩

/-- The loop of `prv_write_load_segment_data_cb`, with the requests it makes.  The
    buffer is never empty, so there is less to do in every round. -/
def copyLoop (h : CopyHandler τ) (state : τ) (out : Output) (vaddr bytesRemaining : Nat) :
    Bool × τ × Output × List Request :=
  if hzero : bytesRemaining = 0 then (true, state, out, [])
  else
    let sz := min bytesRemaining procMemCopyBufferSizeBytes
    let copied := h.copyProcMem state vaddr sz
    let request : Request := ⟨vaddr, sz, copied.1⟩
    let t := prvWriteAll out request.piece
    if t.1 = false then (false, copied.2, t.2, [request])
    else
      let rest := copyLoop h copied.2 t.2 ((vaddr + request.piece.length) % 2 ^ 64)
        (bytesRemaining - request.piece.length)
      (rest.1, rest.2.1, rest.2.2.1, request :: rest.2.2.2)
termination_by bytesRemaining
decreasing_by
  have hpos := (piece_length h state vaddr (chunk_pos hzero)).1
  omega

/-- `prv_write_load_segment_data_cb`. -/
def prvWriteLoadSegmentDataCb (h : CopyHandler τ) (state : τ) (out : Output) (segment : Phdr) :
    Bool × τ × Output × List Request :=
  copyLoop h state out segment.vaddr segment.filesz

/-! ## What it is for -/

/-- Requests from an offset on: each one at its address, not empty, in one buffer and
    inside the segment, and the next one behind the piece that it has left. -/
def Contiguous (vaddr filesz : Nat) : Nat → List Request → Prop
  | _, [] => True
  | offset, r :: rs =>
      r.vaddr = (vaddr + offset) % 2 ^ 64 ∧ 0 < r.size ∧ r.size ≤ 4096 ∧
        offset + r.size ≤ filesz ∧ Contiguous vaddr filesz (offset + r.piece.length) rs

/-- The results are those of the handler, one after the other. -/
def Answered (h : CopyHandler τ) : τ → List Request → τ → Prop
  | state, [], last => state = last
  | state, r :: rs, last =>
      (h.copyProcMem state r.vaddr r.size).1 = r.copied ∧
        Answered h (h.copyProcMem state r.vaddr r.size).2 rs last

/-- Calls of `ticos_core_elf_writer_write_segment_data`, up to the first one that
    fails. -/
def handOver : Output → List (List UInt8) → Bool × Output
  | out, [] => (true, out)
  | out, piece :: pieces =>
      if (prvWriteAll out piece).1 = false then (false, (prvWriteAll out piece).2)
      else handOver (prvWriteAll out piece).2 pieces

/-- The bytes handed to the writer. -/
def pieces (requests : List Request) : List (List UInt8) := requests.map Request.piece

variable {h : CopyHandler τ}

/-- **The loop**, at an offset of a segment. -/
theorem copyLoop_spec (state : τ) (out : Output) (vaddr : Nat) {filesz offset : Nat}
    (hoffset : offset ≤ filesz) :
    let t := copyLoop h state out ((vaddr + offset) % 2 ^ 64) (filesz - offset)
    Contiguous vaddr filesz offset t.2.2.2 ∧ Answered h state t.2.2.2 t.2.1 ∧
      offset + t.2.2.2.length ≤ filesz ∧ handOver out (pieces t.2.2.2) = (t.1, t.2.2.1) ∧
      (t.1 = true → offset + (pieces t.2.2.2).flatten.length = filesz) := by
  induction hn : filesz - offset using Nat.strongRecOn generalizing state out offset with
  | ind n ih =>
      rw [copyLoop]
      by_cases hzero : n = 0
      · rw [dif_pos hzero]
        refine ⟨trivial, rfl, hoffset, rfl, fun _ => ?_⟩
        show offset + 0 = filesz
        omega
      · rw [dif_neg hzero]
        have hsz := chunk_pos hzero
        obtain ⟨hpos, hle⟩ := piece_length h state ((vaddr + offset) % 2 ^ 64) hsz
        have hchunk : min n procMemCopyBufferSizeBytes ≤ 4096 := Nat.min_le_right _ _
        have hinside : offset + min n procMemCopyBufferSizeBytes ≤ filesz := by omega
        dsimp only
        generalize hreq : Request.mk ((vaddr + offset) % 2 ^ 64)
          (min n procMemCopyBufferSizeBytes) (h.copyProcMem state ((vaddr + offset) % 2 ^ 64)
            (min n procMemCopyBufferSizeBytes)).1 = request at hpos hle ⊢
        have hsize : request.size = min n procMemCopyBufferSizeBytes := by rw [← hreq]
        have hvaddr : request.vaddr = (vaddr + offset) % 2 ^ 64 := by rw [← hreq]
        have hcopied : (h.copyProcMem state request.vaddr request.size).1 = request.copied := by
          rw [← hreq]
        have hstate : (h.copyProcMem state ((vaddr + offset) % 2 ^ 64)
            (min n procMemCopyBufferSizeBytes)).2
              = (h.copyProcMem state request.vaddr request.size).2 := by rw [← hreq]
        rw [hstate]
        by_cases hfail : (prvWriteAll out request.piece).1 = false
        · -- the writer does not take the piece: it is the last one
          rw [if_pos hfail]
          refine ⟨⟨hvaddr, by omega, by omega, by omega, trivial⟩, ⟨hcopied, rfl⟩, ?_,
            if_pos hfail, fun htrue => nomatch htrue⟩
          show offset + 1 ≤ filesz
          omega
        · rw [if_neg hfail]
          have hnext : ((vaddr + offset) % 2 ^ 64 + request.piece.length) % 2 ^ 64
              = (vaddr + (offset + request.piece.length)) % 2 ^ 64 := by
            rw [Nat.mod_add_mod, Nat.add_assoc]
          obtain ⟨hcont, hans, hcount, hhand, hall⟩ := ih (n - request.piece.length) (by omega)
            (h.copyProcMem state request.vaddr request.size).2 (prvWriteAll out request.piece).2
            (show offset + request.piece.length ≤ filesz by omega) (by omega)
          rw [hnext]
          refine ⟨⟨hvaddr, by omega, by omega, by omega, hcont⟩, ⟨hcopied, hans⟩, ?_,
            (if_neg hfail).trans hhand, ?_⟩
          · rw [List.length_cons]
            omega
          · intro htrue
            have hlen := hall htrue
            show offset + (request.piece ++ (pieces _).flatten).length = filesz
            rw [List.length_append]
            omega

/-- A piece stands in the data where its request stands in the segment. -/
theorem Contiguous.place {vaddr filesz offset : Nat} {before after : List Request} {r : Request}
    (h : Contiguous vaddr filesz offset (before ++ r :: after)) :
    r.vaddr = (vaddr + (offset + (pieces before).flatten.length)) % 2 ^ 64 ∧ 0 < r.size ∧
      r.size ≤ 4096 ∧ offset + (pieces before).flatten.length + r.size ≤ filesz := by
  induction before generalizing offset with
  | nil => exact ⟨h.1, h.2.1, h.2.2.1, h.2.2.2.1⟩
  | cons b before ih =>
      have hrest := ih h.2.2.2.2
      have hlen : (pieces (b :: before)).flatten.length
          = b.piece.length + (pieces before).flatten.length := List.length_append
      rw [Nat.add_assoc offset, ← hlen] at hrest
      exact hrest

/-- **Copying a LOAD segment**: for every handler, in whatever order it copies and
    fails, and every writer, the callback makes at most `p_filesz` requests, the
    handler answers them, and the writer is handed what was copied, and `0xEF` for
    what was not; each request, and its piece, stands where the pieces before it end,
    counted from `p_vaddr`, is not empty, at most 4096 bytes long and inside the
    segment; and if the writer takes all pieces, they are `p_filesz` bytes. -/
theorem load_segment_copied (h : CopyHandler τ) (state : τ) (out : Output) {segment : Phdr}
    (hvaddr : segment.vaddr < 2 ^ 64) : ∃ ok last out' requests,
    prvWriteLoadSegmentDataCb h state out segment = (ok, last, out', requests) ∧
      requests.length ≤ segment.filesz ∧ Answered h state requests last ∧
      handOver out (pieces requests) = (ok, out') ∧
      (∀ before r after, requests = before ++ r :: after →
        r.vaddr = (segment.vaddr + (pieces before).flatten.length) % 2 ^ 64 ∧ 0 < r.size ∧
          r.size ≤ 4096 ∧ (pieces before).flatten.length + r.size ≤ segment.filesz) ∧
      (ok = true → (pieces requests).flatten.length = segment.filesz) := by
  obtain ⟨hcont, hans, hcount, hhand, hall⟩ :=
    copyLoop_spec (h := h) state out segment.vaddr (Nat.zero_le segment.filesz)
  rw [Nat.add_zero, Nat.mod_eq_of_lt hvaddr, Nat.sub_zero] at hcont hans hcount hhand hall
  refine ⟨_, _, _, _, rfl, ?_, hans, hhand, ?_, ?_⟩
  · rw [Nat.zero_add] at hcount
    exact hcount
  · intro before r after heq
    have heq' : (copyLoop h state out segment.vaddr segment.filesz).2.2.2
        = before ++ r :: after := heq
    rw [heq'] at hcont
    have hplace := hcont.place
    rw [Nat.zero_add] at hplace
    exact hplace
  · intro htrue
    have hlen := hall htrue
    rw [Nat.zero_add] at hlen
    exact hlen

/-! ## The handler of the transformer -/

/-- The memory of a process, read by `pread`, is such a handler. -/
def procMemHandler : CopyHandler ProcMem where
  copyProcMem := ProcMem.copyProcMem
  count := by
    intro p vaddr size bytes hsize hcopied
    rw [ProcMem.copyProcMem] at hcopied
    split at hcopied
    · rw [← Option.some.inj hcopied, memoryAt_length]
      exact ⟨hsize, Nat.le_refl size⟩
    · rw [← Option.some.inj hcopied, memoryAt_length]
      omega
    · exact nomatch hcopied

/-- Ten bytes of a memory that is read short first, and then not at all. -/
theorem load_segment_copied_short : ∃ ok last out' requests,
    prvWriteLoadSegmentDataCb procMemHandler ⟨addressMemory, [.copy 3, .failure]⟩
        ⟨⟨[], [], true⟩, 0⟩ ⟨ptLoad, 6, 0, 4096, 0, 10, 10, 0⟩ = (ok, last, out', requests) ∧
      requests.length ≤ 10 ∧
      Answered procMemHandler ⟨addressMemory, [.copy 3, .failure]⟩ requests last ∧
      handOver ⟨⟨[], [], true⟩, 0⟩ (pieces requests) = (ok, out') ∧
      (∀ before r after, requests = before ++ r :: after →
        r.vaddr = (4096 + (pieces before).flatten.length) % 2 ^ 64 ∧ 0 < r.size ∧
          r.size ≤ 4096 ∧ (pieces before).flatten.length + r.size ≤ 10) ∧
      (ok = true → (pieces requests).flatten.length = 10) :=
  load_segment_copied procMemHandler _ _ (by decide)

/-- The transformer's own loop makes these requests. -/
theorem copyLoop_procMem {fuel bytesRemaining : Nat} (hfuel : bytesRemaining ≤ fuel) (p : ProcMem)
    (out : Output) (vaddr : Nat) :
    CoreElfTransformer.copyLoop fuel p out vaddr bytesRemaining =
      let t := copyLoop procMemHandler p out vaddr bytesRemaining
      (t.1, t.2.1, t.2.2.1) := by
  induction fuel generalizing bytesRemaining p out vaddr with
  | zero =>
      obtain rfl : bytesRemaining = 0 := by omega
      rw [copyLoop, dif_pos rfl]
      rfl
  | succ fuel ih =>
      rw [CoreElfTransformer.copyLoop, copyLoop]
      by_cases hzero : bytesRemaining = 0
      · rw [if_pos hzero, dif_pos hzero]
      · have hpos := (piece_length procMemHandler p vaddr (chunk_pos hzero)).1
        have hless : bytesRemaining - ((p.copyProcMem vaddr (min bytesRemaining
            procMemCopyBufferSizeBytes)).1.getD (List.replicate (min bytesRemaining
              procMemCopyBufferSizeBytes) 0xef)).length ≤ fuel := by
          have hpos' : 0 < ((p.copyProcMem vaddr (min bytesRemaining
            procMemCopyBufferSizeBytes)).1.getD (List.replicate (min bytesRemaining
              procMemCopyBufferSizeBytes) 0xef)).length := hpos
          omega
        rw [if_neg hzero, dif_neg hzero]
        dsimp only
        by_cases hfail : (prvWriteAll out (Request.mk vaddr
            (min bytesRemaining procMemCopyBufferSizeBytes) (procMemHandler.copyProcMem p vaddr
              (min bytesRemaining procMemCopyBufferSizeBytes)).1).piece).1 = false
        · rw [if_pos hfail]
          exact if_pos hfail
        · rw [if_neg hfail]
          refine (if_neg hfail).trans ?_
          exact ih hless _ _ _

theorem prvWriteLoadSegmentDataCb_procMem (p : ProcMem) (out : Output) (segment : Phdr) :
    CoreElfTransformer.prvWriteLoadSegmentDataCb p out segment =
      let t := prvWriteLoadSegmentDataCb procMemHandler p out segment
      (t.1, t.2.1, t.2.2.1) :=
  copyLoop_procMem (Nat.le_refl segment.filesz) p out segment.vaddr

end LoadCopy
