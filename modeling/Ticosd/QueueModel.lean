import Ticosd.ByteStore

/-! # The transmit queue — `queue.c` as written

    A queue is one flat buffer of `size` bytes (a memory-mapped file or a heap
    block) plus three word indices and a flag.  Messages are a 12-byte header
    followed by the payload, padded to a word; `END_POINTER` marks the place
    where a lap of the writer ended early.

    Every function below follows its C namesake statement by statement, in the
    `Traced` monad: its value is what the C function returns, its `loads` are
    the bytes it reads and its `stores` are the stores it makes, in program
    order.  The platform is little-endian (as the queue files in the tests
    are).  The mutex makes each public function atomic; `msync`, `fprintf` and
    the file handling of `ticosd_queue_init` have no effect on the buffer and
    are left out. -/

namespace QueueModel

open ByteStore

/-- `HEADER_LEN`, in words. -/
def headerLen : Nat := 3

/-- `HEADER_MAGIC_NUMBER`. -/
def headerMagicNumber : UInt8 := 0xa5

/-- `HEADER_VERSION_NUMBER`. -/
def headerVersionNumber : UInt8 := 0x01

/-- `HEADER_FLAGS_FLAG_READ_MASK`. -/
def headerFlagsFlagReadMask : UInt8 := 1

/-- `END_POINTER`. -/
def endPointer : Nat := 0x5aa55aa5

/-- `QUEUE_SIZE_MIN`, `QUEUE_SIZE_MAX` and `QUEUE_SIZE_ALIGNMENT`: a size that
    `prv_check_queue_size` lets through. -/
structure QueueSize where
  bytes : Nat
  aligned : bytes % 4 = 0
  min : 16 ≤ bytes
  max : bytes ≤ 1024 * 1024 * 1024

/-- The number of words of the buffer, `size / sizeof(uint32_t)`. -/
def QueueSize.words (s : QueueSize) : Nat := s.bytes / 4

/-- The size of `n` words. -/
def QueueSize.ofWords (n : Nat) (hmin : 4 ≤ n) (hmax : n ≤ 2 ^ 28) : QueueSize where
  bytes := 4 * n
  aligned := by omega
  min := by omega
  max := by omega

theorem QueueSize.bytes_eq (s : QueueSize) : s.bytes = 4 * s.words := by
  have := s.aligned
  simp only [QueueSize.words]
  omega

theorem QueueSize.four_le_words (s : QueueSize) : 4 ≤ s.words := by
  have := s.min
  simp only [QueueSize.words]
  omega

theorem QueueSize.words_le (s : QueueSize) : s.words ≤ 2 ^ 28 := by
  have := s.max
  simp only [QueueSize.words]
  omega

/-- `prv_check_queue_size`: the size rounded down to a word, and whether it is
    within the limits. -/
def prvCheckQueueSize (queueSize : Int) : Bool × Int :=
  let aligned := if queueSize.tmod 4 ≠ 0 then queueSize.tdiv 4 * 4 else queueSize
  if aligned < 16 then (false, aligned)
  else if aligned > 1024 * 1024 * 1024 then (false, aligned)
  else (true, aligned)

/-- `struct TicosdQueue`, without the daemon handle, the lock and the flag that
    tells a file from a heap block. -/
structure TicosdQueue where
  size : QueueSize
  buf : Mem
  readPtr : Nat
  writePtr : Nat
  prevPtr : Nat
  canCompleteRead : Bool

/-! ## Messages -/

/-- One round of the inner loop of `prv_queue_crc8`. -/
def crcBit (crc : UInt8) : UInt8 :=
  (if crc &&& 1 ≠ 0 then crc ^^^ 0x91 else crc) >>> 1

/-- One byte of `prv_queue_crc8`: eight rounds. -/
def crcByte (crc byte : UInt8) : UInt8 :=
  crcBit (crcBit (crcBit (crcBit (crcBit (crcBit (crcBit (crcBit (crc ^^^ byte))))))))

/-- `prv_queue_crc8`. -/
def prvQueueCrc8 (data : List UInt8) : UInt8 :=
  data.foldl crcByte 0

/-- `prv_bytes_to_words_round_up`; the sum is taken in 32 bits. -/
def prvBytesToWordsRoundUp (sizeBytes : Nat) : Nat :=
  (sizeBytes + 3) % 2 ^ 32 / 4

/-- `prv_get_next_message`: the index after the message at `ptr`, or 0 at the
    end of the buffer and at an end marker. -/
def prvGetNextMessage (q : TicosdQueue) (ptr : Nat) : Traced Nat := do
  let payloadSizeBytes ← Traced.load32 q.buf (4 * ptr + 8)
  let nextPtr := (ptr + headerLen + prvBytesToWordsRoundUp payloadSizeBytes) % 2 ^ 32
  if nextPtr ≥ q.size.words then
    return 0
  let word ← Traced.load32 q.buf (4 * nextPtr)
  if word = endPointer then
    return 0
  return nextPtr

/-- `prv_is_msg_in_bounds`.  A message is named by its index, so the first
    comparison of the C function (not before `buf`) always holds. -/
def prvIsMsgInBounds (q : TicosdQueue) (ptr : Nat) : Traced Bool := do
  let payloadSizeBytes ← Traced.load32 q.buf (4 * ptr + 8)
  return decide (4 * ptr + 12 + payloadSizeBytes < q.size.bytes)

/-- `prv_is_msg_read`. -/
def prvIsMsgRead (q : TicosdQueue) (ptr : Nat) : Traced Bool := do
  let flags ← Traced.load8 q.buf (4 * ptr + 3)
  return decide (flags &&& headerFlagsFlagReadMask ≠ 0)

/-- `prv_is_msg_valid`. -/
def prvIsMsgValid (q : TicosdQueue) (ptr : Nat) : Traced Bool := do
  let inBounds ← prvIsMsgInBounds q ptr
  if inBounds = false then
    return false
  let magic ← Traced.load8 q.buf (4 * ptr)
  if magic ≠ headerMagicNumber then
    return false
  let payloadSizeBytes ← Traced.load32 q.buf (4 * ptr + 8)
  let payload ← Traced.loadBytes q.buf (4 * ptr + 12) payloadSizeBytes
  let crc ← Traced.load8 q.buf (4 * ptr + 2)
  if prvQueueCrc8 payload ≠ crc then
    return false
  return true

/-! ## Start of day -/

/-- The forward loop of `prv_queue_find_read_write_ptr`: from index `tmp`, the
    read, write and previous pointers it leaves behind.  The index grows with
    every round, so `size.words` rounds are enough. -/
def prvFindWritePtr (q : TicosdQueue) :
    Nat → Nat → Nat → Nat → Bool → Traced (Option (Nat × Nat × Nat))
  | 0, _, _, _, _ => pure none
  | fuel + 1, tmp, readPtr, prevPtr, lastRead => do
    let valid ← prvIsMsgValid q tmp
    if valid = false then
      -- all messages up until now were read: the read pointer moves too
      return some (if lastRead then tmp else readPtr, tmp, prevPtr)
    let isMsgRead ← prvIsMsgRead q tmp
    if isMsgRead = true ∧ lastRead = false then
      return some (readPtr, tmp, prevPtr)
    let readPtr' := if isMsgRead = false ∧ lastRead = true then tmp else readPtr
    let next ← prvGetNextMessage q tmp
    if next = 0 then
      -- wrapped around
      return some (readPtr', 0, tmp)
    prvFindWritePtr q fuel next readPtr' tmp isMsgRead

/-- The backward loop of `prv_queue_find_read_write_ptr`: follow the
    `prev_header` links of unread messages.  The links come from the file and
    may run in a circle; `none` stands for a loop that has not ended yet. -/
def prvFindReadPtr (q : TicosdQueue) : Nat → Nat → Traced (Option Nat)
  | 0, _ => pure none
  | fuel + 1, readPtr => do
    let prevHeader ← Traced.load32 q.buf (4 * readPtr + 4)
    if readPtr = prevHeader then
      -- the initial message's prev_header points to itself
      return some readPtr
    let valid ← prvIsMsgValid q prevHeader
    if valid = false then
      return some readPtr
    let isMsgRead ← prvIsMsgRead q prevHeader
    if isMsgRead = true then
      return some readPtr
    if prevHeader > 0 then
      prvFindReadPtr q fuel prevHeader
    else
      return some prevHeader

/-- The tail of `prv_queue_find_read_write_ptr`: if the read pointer is still 0,
    see whether there are more unread messages after the wrap-around. -/
def prvFindWrapped (q : TicosdQueue) (readPtr writePtr : Nat) : Traced (Option Nat) :=
  if readPtr = 0 ∧ writePtr ≠ 0 then prvFindReadPtr q (q.size.words + 1) readPtr
  else pure (some readPtr)

/-- `prv_queue_find_read_write_ptr`.  There are `size.words` indices, so a walk
    of more than `size.words + 1` rounds has met one twice and never ends. -/
def prvQueueFindReadWritePtr (q : TicosdQueue) : Traced (Option TicosdQueue) := do
  let found ← prvFindWritePtr q (q.size.words + 1) 0 0 0 true
  match found with
  | none => return none
  | some (readPtr, writePtr, prevPtr) =>
    let readPtr ← prvFindWrapped q readPtr writePtr
    match readPtr with
    | none => return none
    | some readPtr =>
      return some { q with readPtr := readPtr, writePtr := writePtr, prevPtr := prevPtr }

/-- `ticosd_queue_init` on a file that holds `file`: a fresh handle (`calloc`),
    then the search for the pointers. -/
def ticosdQueueInit (size : QueueSize) (file : Mem) : Traced (Option TicosdQueue) :=
  prvQueueFindReadWritePtr
    { size := size, buf := file, readPtr := 0, writePtr := 0, prevPtr := 0,
      canCompleteRead := false }

/-- `ticosd_queue_reset`. -/
def ticosdQueueReset (q : TicosdQueue) : Traced TicosdQueue := do
  let buf ← Traced.storeBytes q.buf 0 (List.replicate (4 * headerLen) 0)
  return { q with buf := buf, readPtr := 0, writePtr := 0, prevPtr := 0 }

/-! ## Reading -/

/-- The test at the top of `ticosd_queue_read_head`: the read pointer is caught
    up, nothing to read. -/
def readPtrCaughtUp (q : TicosdQueue) : Traced Bool :=
  if q.readPtr = q.writePtr then do
    let valid ← prvIsMsgValid q q.readPtr
    if valid = false then pure true else prvIsMsgRead q q.readPtr
  else
    pure false

/-- `ticosd_queue_read_head`; `malloc` tells whether the allocation of the copy
    succeeds. -/
def ticosdQueueReadHead (q : TicosdQueue) (malloc : Bool) :
    Traced (Option (List UInt8) × TicosdQueue) := do
  let caughtUp ← readPtrCaughtUp q
  if caughtUp = true then
    return (none, q)
  let payloadSizeBytes ← Traced.load32 q.buf (4 * q.readPtr + 8)
  if malloc = false then
    return (none, q)
  let payload ← Traced.loadBytes q.buf (4 * q.readPtr + 12) payloadSizeBytes
  return (some payload, { q with canCompleteRead := true })

/-- `ticosd_queue_complete_read`. -/
def ticosdQueueCompleteRead (q : TicosdQueue) : Traced (Bool × TicosdQueue) := do
  if q.canCompleteRead = false then
    return (false, q)
  let flags ← Traced.load8 q.buf (4 * q.readPtr + 3)
  let buf ← Traced.storeBytes q.buf (4 * q.readPtr + 3)
    [flags ||| headerFlagsFlagReadMask]
  let q := { q with buf := buf }
  let readPtr ← prvGetNextMessage q q.readPtr
  return (true, { q with readPtr := readPtr, canCompleteRead := false })

/-! ## Writing -/

/-- The loop of `ticosd_queue_write` that moves the read pointer past the new
    message.  The index grows until it reaches `writeEnd` or wraps, so
    `size.words` rounds are enough. -/
def moveReadPtr (q : TicosdQueue) (writeEnd : Nat) : Nat → Nat → Traced Nat
  | 0, readPtr => pure readPtr
  | fuel + 1, readPtr => do
    let readPtr ← prvGetNextMessage q readPtr
    if readPtr ≥ writeEnd ∨ readPtr = 0 then
      return readPtr
    moveReadPtr q writeEnd fuel readPtr

/-- `ticosd_queue_write`, the end marker: a message that is too big for the rest
    of the buffer goes to the start. -/
def addEndMarker (q : TicosdQueue) (messageSizeWords : Nat) : Traced TicosdQueue :=
  if q.writePtr + messageSizeWords > q.size.words then do
    let buf ← Traced.storeBytes q.buf (4 * q.writePtr) (le32 endPointer)
    pure { q with buf := buf, writePtr := 0 }
  else
    pure q

/-- `ticosd_queue_write`, the read pointer: it follows the write when the two
    were equal, and moves forwards when the new message runs over it. -/
def updateReadPtr (q : TicosdQueue) (readPtrEqualsWritePtr : Bool) (writeEnd : Nat) :
    Traced TicosdQueue :=
  if readPtrEqualsWritePtr = true then
    pure { q with readPtr := q.writePtr }
  else if q.readPtr > q.writePtr ∧ q.readPtr < writeEnd then do
    let readPtr ← moveReadPtr q writeEnd q.size.words q.readPtr
    pure { q with readPtr := readPtr, canCompleteRead := false }
  else
    pure q

/-- The twelve bytes of a `sTicosQueueMsgHeader` for a new message. -/
def msgHeader (prevPtr : Nat) (payload : List UInt8) : List UInt8 :=
  [headerMagicNumber, headerVersionNumber, prvQueueCrc8 payload, 0]
    ++ le32 prevPtr ++ le32 payload.length

/-- `ticosd_queue_write`, the padding: the bytes up to the next word are zeroed.
    The subtraction is in `size_t`. -/
def zeroPadding (buf : Mem) (addr payloadPaddedSizeWords payloadSizeBytes : Nat) :
    Traced Mem :=
  let paddingSizeBytes := (payloadPaddedSizeWords * 4 + 2 ^ 64 - payloadSizeBytes) % 2 ^ 64
  if paddingSizeBytes > 0 then
    Traced.storeBytes buf addr (List.replicate paddingSizeBytes 0)
  else
    pure buf

/-- `ticosd_queue_write`; `none` is a NULL payload, and `payload_size_bytes` is
    the length of the list. -/
def ticosdQueueWrite (q : TicosdQueue) (payload : Option (List UInt8)) :
    Traced (Bool × TicosdQueue) :=
  match payload with
  | none => return (false, q)
  | some payload => do
    if payload.length = 0 then
      return (false, q)
    let payloadPaddedSizeWords := prvBytesToWordsRoundUp payload.length
    let messageSizeWords := headerLen + payloadPaddedSizeWords
    if messageSizeWords > q.size.words then
      return (false, q)
    let readPtrEqualsWritePtr := decide (q.readPtr = q.writePtr)
    let q ← addEndMarker q messageSizeWords
    let writeEnd := q.writePtr + messageSizeWords
    let nextWritePtr := writeEnd % q.size.words
    let q ← updateReadPtr q readPtrEqualsWritePtr writeEnd
    let buf ← Traced.storeBytes q.buf (4 * q.writePtr) (msgHeader q.prevPtr payload)
    let buf ← Traced.storeBytes buf (4 * q.writePtr + 12) payload
    let buf ← zeroPadding buf (4 * q.writePtr + 12 + payload.length)
      payloadPaddedSizeWords payload.length
    return (true, { q with buf := buf, prevPtr := q.writePtr, writePtr := nextWritePtr })

end QueueModel
