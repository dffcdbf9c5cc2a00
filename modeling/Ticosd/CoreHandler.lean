import Ticosd.Ipc

/-! # The core handler — `ticos-core-handler.c`

    The kernel starts `ticos-core-handler` with the process id of a crash and the core file
    on its standard input.  The handler puts two words and its arguments into a buffer of
    1024 bytes, each with its NUL, and sends what it has filled to the daemon; it tries
    again for as long as the daemon may take to restart.

    Each argument is cut at the end of the buffer, and an argument after that is written
    with a size of -1.  `message_eq` says what is sent, and that nothing is written outside
    the buffer exactly if all arguments but the last leave room.  `process_taken` is the
    whole way: whatever the daemon's buffer held, it takes the process of the message, once,
    or the handler has given up. -/

namespace CoreHandler

open CText Decimal Ipc

/-! ## The message -/

/-- `TX_BUFFER_SIZE`. -/
def txBufferSize : Nat := 1024

/-- `strncpy` to the front of an array: a text without NUL is cut at the size, or filled up
    with NULs. -/
def strncpy (dst src : List UInt8) (size : Nat) : List UInt8 :=
  src.take size ++ List.replicate (size - src.length) 0 ++ dst.drop size

/-- `buf` and `offset` of `main`. -/
structure Building where
  buf : List UInt8
  offset : Nat

/-- An argument is put behind the others; `none` if the size that is left is -1, with which
    `strncpy` writes behind the buffer. -/
def put (b : Building) (arg : List UInt8) : Option Building :=
  if txBufferSize - b.offset = 0 then none
  else
    let buf := b.buf.take b.offset ++
      strncpy (b.buf.drop b.offset) arg (txBufferSize - b.offset - 1)
    some ⟨buf, b.offset + ((cString (buf.drop b.offset)).length + 1)⟩

/-- The arguments one after the other. -/
def putAll (b : Building) (args : List (List UInt8)) : Option Building := args.foldlM put b

/-- The bytes that `sendmsg` is given: `offset` bytes of the buffer. -/
def message (args : List (List UInt8)) : Option (List UInt8) :=
  (putAll ⟨List.replicate txBufferSize 0, 0⟩ (ascii "CORE" :: ascii "ELF" :: args)).map
    fun b => b.buf.take b.offset

/-- Texts with their NULs. -/
def frame (texts : List (List UInt8)) : List UInt8 := texts.flatMap (· ++ [0])

/-- Bytes that end in a NUL, cut to the size of the buffer. -/
def clip (bytes : List UInt8) : List UInt8 :=
  if bytes.length ≤ txBufferSize then bytes else bytes.take (txBufferSize - 1) ++ [0]

/-- The buffer after some texts. -/
def built (texts : List (List UInt8)) : Building where
  buf := clip (frame texts) ++ List.replicate (txBufferSize - (clip (frame texts)).length) 0
  offset := (clip (frame texts)).length

/-- All texts but the last leave room in the buffer. -/
def Roomy (texts : List (List UInt8)) : Prop := (frame texts.dropLast).length < txBufferSize

instance (texts : List (List UInt8)) : Decidable (Roomy texts) := inferInstanceAs (Decidable (_ < _))

variable {texts args : List (List UInt8)} {arg : List UInt8}

theorem frame_snoc (texts : List (List UInt8)) (arg : List UInt8) :
    frame (texts ++ [arg]) = frame texts ++ (arg ++ [0]) := by
  rw [frame, List.flatMap_append, List.flatMap_singleton]
  rfl

theorem clip_of_le (h : (frame texts).length ≤ txBufferSize) : clip (frame texts) = frame texts :=
  if_pos h

/-- The clipped bytes fill the buffer as soon as the bytes do. -/
theorem clip_length (bytes : List UInt8) :
    (clip bytes).length = min bytes.length txBufferSize := by
  rw [clip]
  split
  · rename_i hle
    exact (Nat.min_eq_left hle).symm
  · rename_i hlt
    have hpos : 0 < txBufferSize := by decide
    rw [List.length_append, List.length_take, List.length_singleton]
    omega

/-- A text that is put into what is left of the buffer. -/
theorem clip_snoc (h : (frame texts).length < txBufferSize) :
    clip (frame (texts ++ [arg]))
      = frame texts ++ (arg.take (txBufferSize - (frame texts).length - 1) ++ [0]) := by
  have hlength : (frame (texts ++ [arg])).length = (frame texts).length + (arg.length + 1) := by
    rw [frame_snoc, List.length_append, List.length_append, List.length_singleton]
  rw [clip]
  by_cases hfits : (frame (texts ++ [arg])).length ≤ txBufferSize
  · rw [if_pos hfits, frame_snoc, List.take_of_length_le (by omega)]
  · rw [if_neg hfits, frame_snoc, List.take_append, List.take_append, List.append_assoc,
      List.take_of_length_le (by omega)]
    have hnul : txBufferSize - 1 - (frame texts).length - arg.length = 0 := by omega
    rw [hnul, List.take_zero, List.append_nil, Nat.sub_right_comm]

/-- A text that is copied into NULs, with one of them kept. -/
theorem strncpy_zeros (arg : List UInt8) (n : Nat) :
    strncpy (List.replicate (n + 1) 0) arg n
      = arg.take n ++ List.replicate (n + 1 - (arg.take n).length) 0 := by
  have hone : n + 1 - n = 1 := Nat.add_sub_cancel_left n 1
  have hzeros : n - arg.length + 1 = n + 1 - (arg.take n).length := by
    rw [List.length_take]
    omega
  rw [strncpy, List.drop_replicate, hone, List.append_assoc, List.replicate_append_replicate,
    hzeros]

/-- An argument behind the filled part of a buffer that is NUL from there on. -/
theorem put_zeros {front : List UInt8} {n : Nat} (hsize : front.length + (n + 1) = txBufferSize)
    (hnul : 0 ∉ arg) :
    put ⟨front ++ List.replicate (n + 1) 0, front.length⟩ arg
      = some ⟨front ++ (arg.take n ++ List.replicate (n + 1 - (arg.take n).length) 0),
          front.length + ((arg.take n).length + 1)⟩ := by
  have hleft : txBufferSize - front.length - 1 = n := by omega
  have hcopied : 0 ∉ arg.take n := fun hmem => hnul (List.mem_of_mem_take hmem)
  have hstring : ∀ zeros, cString (arg.take n ++ List.replicate zeros 0) = arg.take n := by
    intro zeros
    rw [cString_append_of_not_mem hcopied, cString_of_atNul (atNul_zeros _), List.append_nil]
  have hroom : ¬txBufferSize - front.length = 0 := by omega
  simp only [put, if_neg hroom, List.take_left, List.drop_left, hleft, strncpy_zeros, hstring]

/-- One argument: it goes behind the others while they leave room. -/
theorem put_built (texts : List (List UInt8)) (hnul : 0 ∉ arg) :
    put (built texts) arg
      = if (frame texts).length < txBufferSize then some (built (texts ++ [arg])) else none := by
  by_cases hroom : (frame texts).length < txBufferSize
  · obtain ⟨n, hn⟩ : ∃ n, (frame texts).length + (n + 1) = txBufferSize :=
      ⟨txBufferSize - (frame texts).length - 1, by omega⟩
    have hleft : txBufferSize - (frame texts).length - 1 = n := by omega
    have hbefore : built texts
        = ⟨frame texts ++ List.replicate (n + 1) 0, (frame texts).length⟩ := by
      rw [built, clip_of_le (Nat.le_of_lt hroom), ← hn, Nat.add_sub_cancel_left]
    have hnext : clip (frame (texts ++ [arg])) = frame texts ++ (arg.take n ++ [0]) := by
      rw [clip_snoc hroom, hleft]
    have hlength : (frame texts ++ (arg.take n ++ [0])).length
        = (frame texts).length + ((arg.take n).length + 1) := by
      rw [List.length_append, List.length_append, List.length_singleton]
    have hcut : (arg.take n).length ≤ n := by
      rw [List.length_take]
      exact Nat.min_le_left _ _
    have hfill : List.replicate (n + 1 - (arg.take n).length) (0 : UInt8)
        = [0] ++ List.replicate (txBufferSize
            - ((frame texts).length + ((arg.take n).length + 1))) 0 := by
      rw [← List.replicate_one, List.replicate_append_replicate]
      congr 1
      omega
    rw [if_pos hroom, hbefore, put_zeros hn hnul, built, hnext, hlength, hfill]
    simp only [List.append_assoc]
  · have hfull : (built texts).offset = txBufferSize := by
      rw [built, clip_length]
      exact Nat.min_eq_right (Nat.le_of_not_lt hroom)
    rw [if_neg hroom, put, hfull, if_pos (Nat.sub_self _)]

/-- All arguments: the buffer holds them, cut at its end, if all but the last left room. -/
theorem putAll_built (texts : List (List UInt8)) (hnul : ∀ text ∈ texts, 0 ∉ text) :
    putAll (built []) texts = if Roomy texts then some (built texts) else none := by
  induction texts using List.reverseRecOn with
  | nil =>
      rw [if_pos (by decide)]
      rfl
  | append_singleton texts arg ih =>
      have hrest := ih (fun text hmem => hnul text (List.mem_append_left _ hmem))
      have harg : 0 ∉ arg := hnul arg (List.mem_append_right _ List.mem_cons_self)
      have hroomy : Roomy (texts ++ [arg]) ↔ (frame texts).length < txBufferSize := by
        rw [Roomy, List.dropLast_concat]
      have hlast : putAll (built []) (texts ++ [arg])
          = (putAll (built []) texts).bind fun b => put b arg := by
        rw [putAll, List.foldlM_append]
        simp only [List.foldlM_cons, List.foldlM_nil, bind_pure]
        rfl
      have hprefix : (frame texts.dropLast).length ≤ (frame texts).length := by
        rcases List.eq_nil_or_concat texts with rfl | ⟨front, last, rfl⟩
        · exact Nat.le_refl _
        · rw [List.concat_eq_append, List.dropLast_concat, frame_snoc, List.length_append]
          exact Nat.le_add_right _ _
      rw [hlast, hrest]
      by_cases hroom : (frame texts).length < txBufferSize
      · have hbefore : Roomy texts := Nat.lt_of_le_of_lt hprefix hroom
        rw [if_pos hbefore, if_pos (hroomy.mpr hroom), Option.bind_some, put_built texts harg,
          if_pos hroom]
      · rw [if_neg (mt hroomy.mp hroom)]
        split
        · rw [Option.bind_some, put_built texts harg, if_neg hroom]
        · rfl

/-- **What the handler sends**: its words and arguments with their NULs, cut at the end of
    the buffer with the NUL kept; it writes outside the buffer exactly if the arguments but
    the last do not leave room. -/
theorem message_eq (args : List (List UInt8)) (hnul : ∀ arg ∈ args, 0 ∉ arg) :
    message args = if Roomy (ascii "CORE" :: ascii "ELF" :: args) then
      some (clip (frame (ascii "CORE" :: ascii "ELF" :: args))) else none := by
  have hall : ∀ text ∈ ascii "CORE" :: ascii "ELF" :: args, 0 ∉ text := by
    intro text hmem
    rcases List.mem_cons.mp hmem with rfl | hmem
    · decide
    · rcases List.mem_cons.mp hmem with rfl | hmem
      · decide
      · exact hnul text hmem
  have hstart : putAll ⟨List.replicate txBufferSize 0, 0⟩ (ascii "CORE" :: ascii "ELF" :: args)
      = putAll (built []) (ascii "CORE" :: ascii "ELF" :: args) := rfl
  rw [message, hstart, putAll_built _ hall]
  split
  · rw [Option.map_some]
    simp only [built, List.take_left]
  · rfl

/-- A name that is too long is cut, and an argument behind it is written outside. -/
theorem message_eq_long :
    (message [natText 7, List.replicate 1100 65]).map List.length = some 1024 ∧
      message [List.replicate 1100 65, natText 7] = none := by
  have hcut := message_eq [natText 7, List.replicate 1100 65] (by decide +kernel)
  have houtside := message_eq [List.replicate 1100 65, natText 7] (by decide +kernel)
  rw [if_pos (by decide +kernel)] at hcut
  rw [if_neg (by decide +kernel)] at houtside
  refine ⟨?_, houtside⟩
  rw [hcut, Option.map_some, clip_length]
  decide +kernel

/-! ## The daemon takes the process -/

/-- The loop around `sendmsg`: `sendmsg` says which attempts succeed; `none` while it is
    still running after `fuel` attempts. -/
def sendLoop (txRetryCount : Int) (sendmsg : Nat → Bool) : Nat → Nat → Option Bool
  | 0, _ => none
  | fuel + 1, i =>
      if sendmsg i = true then some true
      else if (i + 1 : Int) > txRetryCount then some false
      else sendLoop txRetryCount sendmsg fuel (i + 1)

/-- `main` of the handler for its arguments, and the daemon's thread `t` after it: the
    message arrives with the descriptor of the standard input when an attempt succeeds. -/
def main (d : Daemon) (t : Thread) (txRetryCount : Int) (sendmsg : Nat → Bool) (stdin : Int)
    (beyond : List UInt8) (args : List (List UInt8)) (fuel : Nat) : Option Thread :=
  match message args with
  | none => none
  | some msg =>
      (sendLoop txRetryCount sendmsg fuel 0).map fun sent =>
        if sent = true then step d t ⟨.datagram msg (some stdin), beyond⟩ else t

/-- The loop ends after one attempt more than the retries, and has sent the message if one
    of them succeeded. -/
theorem sendLoop_ends (txRetryCount : Int) (sendmsg : Nat → Bool) (fuel i : Nat)
    (hfuel : txRetryCount.toNat < i + fuel) (hi : i ≤ txRetryCount.toNat) :
    ∃ sent, sendLoop txRetryCount sendmsg fuel i = some sent ∧
      (sent = true ↔ ∃ j, i ≤ j ∧ j ≤ txRetryCount.toNat ∧ sendmsg j = true) := by
  induction fuel generalizing i with
  | zero => exact absurd hfuel (Nat.not_lt.mpr hi)
  | succ fuel ih =>
      rw [sendLoop]
      by_cases hsent : sendmsg i = true
      · rw [if_pos hsent]
        exact ⟨true, rfl, fun _ => ⟨i, Nat.le_refl i, hi, hsent⟩, fun _ => rfl⟩
      · rw [if_neg hsent]
        by_cases hlast : (i + 1 : Int) > txRetryCount
        · rw [if_pos hlast]
          refine ⟨false, rfl, fun hfalse => Bool.noConfusion hfalse, ?_⟩
          rintro ⟨j, hij, hj, hsucceeds⟩
          have hsame : j = i := by omega
          exact absurd (hsame ▸ hsucceeds) hsent
        · have hnext : i + 1 ≤ txRetryCount.toNat := by omega
          obtain ⟨sent, hends, hiff⟩ := ih (i + 1) (by omega) hnext
          rw [if_neg hlast, hends]
          refine ⟨sent, rfl, hiff.trans ?_⟩
          constructor
          · rintro ⟨j, hij, hj, hsucceeds⟩
            exact ⟨j, Nat.le_of_succ_le hij, hj, hsucceeds⟩
          · rintro ⟨j, hij, hj, hsucceeds⟩
            refine ⟨j, Nat.lt_of_le_of_ne hij ?_, hj, hsucceeds⟩
            rintro rfl
            exact hsent hsucceeds

/-- The words in front of the process id. -/
def words : List UInt8 := frame [ascii "CORE", ascii "ELF"]

/-- No other plugin has the name of the message. -/
theorem matches_iff (p : Plugin) {body : List UInt8} :
    p.Matches (words ++ body) (words ++ body).length ↔ p = .coredump := by
  have hwords : words = [67, 79, 82, 69, 0, 69, 76, 70, 0] := by decide
  constructor
  · rintro ⟨hnamed, -, hname⟩
    cases p with
    | coredump => rfl
    | reboot => exact absurd rfl hnamed
    | swupdate => exact absurd rfl hnamed
    | attributes =>
        have hascii : ascii "ATTRIBUTES" = [65, 84, 84, 82, 73, 66, 85, 84, 69, 83] := by decide
        rw [Plugin.ipcName, hascii, hwords] at hname
        simp only [List.cons_append, List.cons_prefix_cons] at hname
        exact absurd hname.1 (by decide)
    | collectd =>
        have hascii : ascii "COLLECTD" = [67, 79, 76, 76, 69, 67, 84, 68] := by decide
        rw [Plugin.ipcName, hascii, hwords] at hname
        simp only [List.cons_append, List.cons_prefix_cons] at hname
        exact absurd hname.2.2.1 (by decide)
  · rintro rfl
    have hascii : ascii "CORE" = [67, 79, 82, 69] := by decide
    refine ⟨by decide, ?_, ?_⟩
    · rw [Plugin.ipcName, hascii, hwords, List.length_append]
      simp only [List.length_cons, List.length_nil]
      omega
    · rw [Plugin.ipcName, hascii, hwords]
      exact ⟨[69, 76, 70, 0] ++ body, rfl⟩

theorem findPlugin_core {plugins : List Plugin} (h : .coredump ∈ plugins) (body : List UInt8) :
    findPlugin (words ++ body) (words ++ body).length plugins = some .coredump := by
  induction plugins with
  | nil => exact absurd h List.not_mem_nil
  | cons p plugins ih =>
      rw [findPlugin]
      by_cases hp : p = .coredump
      · rw [if_pos ((matches_iff p).mpr hp), hp]
      · rw [if_neg (mt (matches_iff p).mp hp)]
        exact ih ((List.mem_cons.mp h).resolve_left fun heq => hp heq.symm)

/-- The plugin reads the process id behind the words. -/
theorem coredumpMsgHandler_words {pid : Nat} (hpid : pid < 2 ^ 31) (tail : List UInt8)
    (stdin : Int) {size : Nat} (hsize : words.length < size) :
    coredumpMsgHandler (words ++ (natText pid ++ 0 :: tail)) size (some stdin)
      = .corePid pid := by
  have hlength : words.length = 9 := by decide
  rw [hlength] at hsize
  obtain ⟨n, rfl⟩ : ∃ n, size = n + 10 := ⟨size - 10, by omega⟩
  have hcore : strnlen (words ++ (natText pid ++ 0 :: tail)) (n + 10) = 4 := rfl
  have helf : strnlen ((words ++ (natText pid ++ 0 :: tail)).drop (4 + 1)) (n + 10 - (4 + 1)) = 3 :=
    rfl
  have hdrop : (words ++ (natText pid ++ 0 :: tail)).drop (4 + 1 + 3 + 1)
      = natText pid ++ 0 :: tail := rfl
  have hnodigit : NoDigit (0 :: tail) := by
    intro b hb
    rw [← Option.some.inj hb]
    decide
  have hscan := scanNumber_natText pid hnodigit
  have hvalue : toInt32 (clampLong (pid : Int)) = pid := by
    rw [clampLong_of_range (by omega) (by omega), toInt32_of_range (by omega) (by omega)]
  simp only [coredumpMsgHandler, hcore, helf, hdrop, hscan, hvalue]
  rw [if_neg (by omega), if_neg (by omega), List.headD_cons, if_neg (fun hzero => hzero rfl)]

/-- **The thread takes the process of a message**, whatever its buffer holds. -/
theorem round_core {d : Daemon} (hcore : .coredump ∈ d.plugins) {pid : Nat}
    (hpid : pid < 2 ^ 31) {tail : List UInt8}
    (hsize : (words ++ (natText pid ++ 0 :: tail)).length ≤ rxBufferSize)
    (buffer beyond : List UInt8) (stdin : Int) :
    (round d buffer ⟨.datagram (words ++ (natText pid ++ 0 :: tail)) (some stdin), beyond⟩).1
      = [.corePid pid] := by
  obtain ⟨msg, hmsg⟩ : ∃ msg, msg = words ++ (natText pid ++ 0 :: tail) := ⟨_, rfl⟩
  have hlong : words.length < msg.length := by
    rw [hmsg, List.length_append, List.length_append, List.length_cons]
    omega
  have hfind : findPlugin msg msg.length d.plugins = some .coredump := by
    rw [hmsg]
    exact findPlugin_core hcore _
  have hbehind : ∀ behind, msg ++ behind = words ++ (natText pid ++ 0 :: (tail ++ behind)) := by
    intro behind
    rw [hmsg, List.append_assoc, List.append_assoc, List.cons_append]
  rw [← hmsg] at hsize ⊢
  simp only [Ipc.round, List.take_of_length_le hsize, List.append_assoc]
  rw [if_neg (by omega)]
  simp only [ticosdPluginsProcessIpc, findPlugin_append, hfind, Plugin.msgHandler]
  rw [hbehind, coredumpMsgHandler_words hpid _ stdin hlong]

/-- The cut keeps what stands in front of it. -/
theorem clip_front {front : List UInt8} (h : front.length < txBufferSize) (rest : List UInt8) :
    ∃ tail, clip (front ++ rest) = front ++ tail := by
  rw [clip]
  split
  · exact ⟨rest, rfl⟩
  · refine ⟨rest.take (txBufferSize - 1 - front.length) ++ [0], ?_⟩
    rw [List.take_append, List.take_of_length_le (Nat.le_sub_one_of_lt h), List.append_assoc]

/-- The arguments with a process id in front are C strings. -/
theorem process_no_nul (pid : Nat) {args : List (List UInt8)} (hnul : ∀ arg ∈ args, 0 ∉ arg) :
    ∀ arg ∈ natText pid :: args, 0 ∉ arg := by
  intro arg hmem
  rcases List.mem_cons.mp hmem with rfl | hmem
  · exact fun hzero => absurd (isDigit_of_mem_natText hzero) (by decide)
  · exact hnul arg hmem

/-- Without room there is no message. -/
theorem message_none {pid : Nat} {args : List (List UInt8)} (hnul : ∀ arg ∈ args, 0 ∉ arg)
    (hroomy : ¬Roomy (ascii "CORE" :: ascii "ELF" :: natText pid :: args)) :
    message (natText pid :: args) = none := by
  rw [message_eq _ (process_no_nul pid hnul), if_neg hroomy]

/-- The message of a process: its id stands behind the words, and is never cut. -/
theorem message_process {pid : Nat} (hpid : pid < 2 ^ 31) {args : List (List UInt8)}
    (hnul : ∀ arg ∈ args, 0 ∉ arg)
    (hroomy : Roomy (ascii "CORE" :: ascii "ELF" :: natText pid :: args)) :
    ∃ tail, message (natText pid :: args) = some (words ++ (natText pid ++ 0 :: tail)) ∧
      (words ++ (natText pid ++ 0 :: tail)).length ≤ txBufferSize := by
  have hall := process_no_nul pid hnul
  have hframe : frame (ascii "CORE" :: ascii "ELF" :: natText pid :: args)
      = words ++ (natText pid ++ [0]) ++ frame args := by
    have hwords : words = ascii "CORE" ++ [0] ++ (ascii "ELF" ++ [0]) := rfl
    rw [hwords]
    simp only [frame, List.flatMap_cons, List.append_assoc]
  have hfront : (words ++ (natText pid ++ [0])).length < txBufferSize := by
    have hwords : words.length = 9 := by decide
    have hdigits : (natText pid).length ≤ 9 + 1 := natText_length_le (by omega)
    have hsize : txBufferSize = 1024 := rfl
    rw [List.length_append, List.length_append, List.length_singleton]
    omega
  obtain ⟨tail, htail⟩ := clip_front hfront (frame args)
  have hshape : words ++ (natText pid ++ 0 :: tail) = words ++ (natText pid ++ [0]) ++ tail := by
    rw [List.append_assoc, List.append_assoc, List.singleton_append]
  have hmessage := message_eq (natText pid :: args) hall
  rw [if_pos hroomy, hframe, htail] at hmessage
  refine ⟨tail, by rw [hshape]; exact hmessage, ?_⟩
  rw [hshape, ← htail, clip_length]
  exact Nat.min_le_right _ _

/-- **The daemon takes the process of a crash**: the handler ends, and if one of its
    attempts succeeded, the daemon has taken the process it was started for, once, whatever
    the thread had received before and whatever its memory held; if none did, the daemon
    has seen nothing. -/
theorem process_taken (d : Daemon) (hcore : .coredump ∈ d.plugins) (t : Thread)
    (txRetryCount : Int) (sendmsg : Nat → Bool) (stdin : Int) (beyond : List UInt8) {pid : Nat}
    (hpid : pid < 2 ^ 31) (args : List (List UInt8)) (hnul : ∀ arg ∈ args, 0 ∉ arg)
    (hroomy : Roomy (ascii "CORE" :: ascii "ELF" :: natText pid :: args)) :
    ∃ t', main d t txRetryCount sendmsg stdin beyond (natText pid :: args)
        (txRetryCount.toNat + 1) = some t' ∧
      ((∃ i, i ≤ txRetryCount.toNat ∧ sendmsg i = true) →
        t'.effects = t.effects ++ [.corePid pid]) ∧
      ((∀ i, i ≤ txRetryCount.toNat → sendmsg i = false) → t' = t) := by
  obtain ⟨tail, hmessage, hsize⟩ := message_process hpid hnul hroomy
  obtain ⟨sent, hends, hiff⟩ := sendLoop_ends txRetryCount sendmsg (txRetryCount.toNat + 1) 0
    (by omega) (Nat.zero_le _)
  refine ⟨_, by rw [main, hmessage]; simp only [hends, Option.map_some]; rfl, ?_, ?_⟩
  · rintro ⟨i, hi, hsucceeds⟩
    have hsent : sent = true := hiff.mpr ⟨i, Nat.zero_le i, hi, hsucceeds⟩
    rw [if_pos hsent]
    have hround := round_core hcore hpid hsize t.buffer beyond stdin
    simp only [step, hround]
  · intro hfails
    have hsent : ¬sent = true := by
      intro hsent
      obtain ⟨i, -, hi, hsucceeds⟩ := hiff.mp hsent
      rw [hfails i hi] at hsucceeds
      exact Bool.noConfusion hsucceeds
    rw [if_neg hsent]

/-- Process 4711 with its name, sent at the third attempt while the thread still holds
    older attributes. -/
theorem process_taken_third :
    (main fullDaemon (step fullDaemon initial emptyAttributes) 10 (fun i => i == 2) 0 [65]
      [natText 4711, ascii "sh"] 11).map (fun t => t.effects.drop 1) = some [.corePid 4711] := by
  obtain ⟨t', hmain, hsent, -⟩ := process_taken fullDaemon (by decide)
    (step fullDaemon initial emptyAttributes) 10 (fun i => i == 2) 0 [65]
    (by decide : 4711 < 2 ^ 31) [ascii "sh"] (by decide) (by decide +kernel)
  have heffects := hsent ⟨2, by decide, rfl⟩
  have hbefore : (step fullDaemon initial emptyAttributes).effects.length = 1 := by
    decide +kernel
  have hfuel : (10 : Int).toNat + 1 = 11 := rfl
  rw [hfuel] at hmain
  rw [hmain, Option.map_some, heffects, List.drop_left' hbefore]
  rfl

end CoreHandler
