import Ticosd.CText

/-! # CBOR encoder — `cbor.c` as written

    The encoder is a counter and a write callback.  In size-only mode it counts
    the bytes; otherwise each piece that fits is handed to the callback with its
    offset, and a piece that does not fit is refused and leaves everything as it
    was.  The pieces handed to the callback are recorded in `writes`.

    Every call is a short list of pieces (`Call.pieces`): a head, and for a string
    given whole its body.  Both passes are the same fold over these pieces, which
    is why they agree. -/

namespace Cbor

open CText

/-- `struct TicosCborEncoder`, with a record of the calls of `write_cb`: the
    offset, a `uint32_t`, and the bytes. -/
structure Encoder where
  computeSizeOnly : Bool
  bufLen : Nat
  encodedSize : Nat
  writes : List (Nat × List UInt8)

/-- `ticos_cbor_encoder_init` with a write callback. -/
def ticosCborEncoderInit (bufLen : Nat) : Encoder where
  computeSizeOnly := false
  bufLen := bufLen
  encodedSize := 0
  writes := []

/-- `ticos_cbor_encoder_size_only_init`. -/
def ticosCborEncoderSizeOnlyInit : Encoder where
  computeSizeOnly := true
  bufLen := 0
  encodedSize := 0
  writes := []

/-- `ticos_cbor_encoder_deinit`. -/
def ticosCborEncoderDeinit (e : Encoder) : Nat := e.encodedSize

/-- `prv_add_to_result_buffer`. -/
def prvAddToResultBuffer (e : Encoder) (data : List UInt8) : Bool × Encoder :=
  if data.length = 0 then (true, e)
  else if e.computeSizeOnly then (true, { e with encodedSize := e.encodedSize + data.length })
  else if e.encodedSize + data.length > e.bufLen then (false, e)
  else (true, { e with
    writes := e.writes ++ [(e.encodedSize % 2 ^ 32, data)]
    encodedSize := e.encodedSize + data.length })

/-! ## Heads -/

/-- `eCborMajorType`. -/
inductive MajorType where
  | unsignedInteger | negativeInteger | byteString | textString | array | map | tag | simpleType
  deriving DecidableEq

/-- The number of a major type. -/
def MajorType.toNat : MajorType → Nat
  | .unsignedInteger => 0
  | .negativeInteger => 1
  | .byteString => 2
  | .textString => 3
  | .array => 4
  | .map => 5
  | .tag => 6
  | .simpleType => 7

/-- `CBOR_SERIALIZE_MAJOR_TYPE`. -/
def serializeMajorType (mt : Nat) : UInt8 := UInt8.ofNat ((mt &&& 7) <<< 5)

/-- The bytes of `prv_encode_unsigned_integer`. -/
def unsignedBytes (majorType : Nat) (val : Nat) : List UInt8 :=
  let mt := serializeMajorType majorType
  if val < 24 then [mt + UInt8.ofNat val]
  else if val ≤ 0xff then [mt + 24, UInt8.ofNat val]
  else if val ≤ 0xffff then [mt + 25, UInt8.ofNat (val >>> 8), UInt8.ofNat val]
  else [mt + 26, UInt8.ofNat (val >>> 24), UInt8.ofNat (val >>> 16), UInt8.ofNat (val >>> 8),
    UInt8.ofNat val]

/-- `prv_encode_unsigned_integer`; a `size_t` argument is cut to 32 bits. -/
def prvEncodeUnsignedInteger (e : Encoder) (majorType val : Nat) : Bool × Encoder :=
  prvAddToResultBuffer e (unsignedBytes majorType (val % 2 ^ 32))

/-- `prv_encode_uint64`. -/
def prvEncodeUint64 (val : Nat) : List UInt8 :=
  [56, 48, 40, 32, 24, 16, 8, 0].map (fun shift => UInt8.ofNat (val >>> shift))

/-! ## The calls -/

/-- The major type and the number of a signed integer, as the sign tricks of
    `ticos_cbor_encode_signed_integer` compute them. -/
def signSplit {w : Nat} (value : BitVec w) : Nat × BitVec w :=
  let ui := value.sshiftRight (w - 1)
  ((ui &&& 1#w).toNat, ui ^^^ value)

/-- `ticos_cbor_encode_signed_integer`. -/
def ticosCborEncodeSignedInteger (e : Encoder) (value : BitVec 32) : Bool × Encoder :=
  prvEncodeUnsignedInteger e (signSplit value).1 (signSplit value).2.toNat

/-- The nine bytes of a 64-bit item. -/
def longBytes (majorType val : Nat) : List UInt8 :=
  (serializeMajorType majorType ||| 27) :: prvEncodeUint64 val

/-- `ticos_cbor_encode_long_signed_integer`. -/
def ticosCborEncodeLongSignedInteger (e : Encoder) (value : BitVec 64) : Bool × Encoder :=
  if (signSplit value).2.toInt ≤ 0xffffffff then
    prvEncodeUnsignedInteger e (signSplit value).1 (signSplit value).2.toNat
  else
    prvAddToResultBuffer e (longBytes (signSplit value).1 (signSplit value).2.toNat)

/-- `ticos_cbor_encode_uint64_as_double`. -/
def ticosCborEncodeUint64AsDouble (e : Encoder) (val : UInt64) : Bool × Encoder :=
  prvAddToResultBuffer e (longBytes MajorType.simpleType.toNat val.toNat)

/-- `a && b` for two encoder steps: the second one is made if the first one
    succeeds. -/
def andThen (r : Bool × Encoder) (f : Encoder → Bool × Encoder) : Bool × Encoder :=
  match r with
  | (true, e) => f e
  | (false, e) => (false, e)

/-- The functions of the encoder. -/
inductive Call where
  | unsignedInteger (value : UInt32)
  | signedInteger (value : BitVec 32)
  | longSignedInteger (value : BitVec 64)
  | uint64AsDouble (value : UInt64)
  | byteString (buf : List UInt8)
  | byteStringBegin (bufLen : Nat)
  | string (str : List UInt8)
  | stringBegin (strLen : Nat)
  | dictionaryBegin (numElements : Nat)
  | arrayBegin (numElements : Nat)
  | join (cborData : List UInt8)

/-- The `ticos_cbor_encode_*` functions and `ticos_cbor_join`. -/
def Call.exec (e : Encoder) : Call → Bool × Encoder
  | .unsignedInteger value =>
      prvEncodeUnsignedInteger e MajorType.unsignedInteger.toNat value.toNat
  | .signedInteger value => ticosCborEncodeSignedInteger e value
  | .longSignedInteger value => ticosCborEncodeLongSignedInteger e value
  | .uint64AsDouble value => ticosCborEncodeUint64AsDouble e value
  | .byteString buf =>
      andThen (prvEncodeUnsignedInteger e MajorType.byteString.toNat buf.length)
        (fun e => prvAddToResultBuffer e buf)
  | .byteStringBegin bufLen => prvEncodeUnsignedInteger e MajorType.byteString.toNat bufLen
  | .string str =>
      andThen (prvEncodeUnsignedInteger e MajorType.textString.toNat (cString str).length)
        (fun e => prvAddToResultBuffer e (cString str))
  | .stringBegin strLen => prvEncodeUnsignedInteger e MajorType.textString.toNat strLen
  | .dictionaryBegin numElements => prvEncodeUnsignedInteger e MajorType.map.toNat numElements
  | .arrayBegin numElements => prvEncodeUnsignedInteger e MajorType.array.toNat numElements
  | .join cborData => prvAddToResultBuffer e cborData

/-- A sequence of calls: what each one returns, and the encoder afterwards. -/
def execAll (e : Encoder) : List Call → List Bool × Encoder
  | [] => ([], e)
  | c :: cs =>
      let r := c.exec e
      let rs := execAll r.2 cs
      (r.1 :: rs.1, rs.2)

/-! ## Calls as pieces -/

/-- The pieces a call adds, in order. -/
def Call.pieces : Call → List (List UInt8)
  | .unsignedInteger value => [unsignedBytes MajorType.unsignedInteger.toNat (value.toNat % 2 ^ 32)]
  | .signedInteger value =>
      [unsignedBytes (signSplit value).1 ((signSplit value).2.toNat % 2 ^ 32)]
  | .longSignedInteger value =>
      if (signSplit value).2.toInt ≤ 0xffffffff then
        [unsignedBytes (signSplit value).1 ((signSplit value).2.toNat % 2 ^ 32)]
      else [longBytes (signSplit value).1 (signSplit value).2.toNat]
  | .uint64AsDouble value => [longBytes MajorType.simpleType.toNat value.toNat]
  | .byteString buf => [unsignedBytes MajorType.byteString.toNat (buf.length % 2 ^ 32), buf]
  | .byteStringBegin bufLen => [unsignedBytes MajorType.byteString.toNat (bufLen % 2 ^ 32)]
  | .string str =>
      [unsignedBytes MajorType.textString.toNat ((cString str).length % 2 ^ 32), cString str]
  | .stringBegin strLen => [unsignedBytes MajorType.textString.toNat (strLen % 2 ^ 32)]
  | .dictionaryBegin numElements => [unsignedBytes MajorType.map.toNat (numElements % 2 ^ 32)]
  | .arrayBegin numElements => [unsignedBytes MajorType.array.toNat (numElements % 2 ^ 32)]
  | .join cborData => [cborData]

/-- Add pieces until one is refused. -/
def addAll (e : Encoder) : List (List UInt8) → Bool × Encoder
  | [] => (true, e)
  | d :: ds => andThen (prvAddToResultBuffer e d) (fun e => addAll e ds)

theorem addAll_single (e : Encoder) (d : List UInt8) :
    addAll e [d] = prvAddToResultBuffer e d := by
  simp only [addAll, andThen]
  split <;> rename_i h <;> exact h.symm

/-- **A call adds its pieces.** -/
theorem exec_eq_addAll (e : Encoder) (c : Call) : c.exec e = addAll e c.pieces := by
  cases c with
  | longSignedInteger value =>
      simp only [Call.exec, Call.pieces, ticosCborEncodeLongSignedInteger]
      split
      · exact (addAll_single _ _).symm
      · exact (addAll_single _ _).symm
  | byteString buf =>
      simp only [Call.exec, Call.pieces, addAll, prvEncodeUnsignedInteger]
      exact congrArg _ (funext fun e => (addAll_single e buf).symm)
  | string str =>
      simp only [Call.exec, Call.pieces, addAll, prvEncodeUnsignedInteger]
      exact congrArg _ (funext fun e => (addAll_single e (cString str)).symm)
  | uint64AsDouble value =>
      simp only [Call.exec, Call.pieces, ticosCborEncodeUint64AsDouble]
      exact (addAll_single _ _).symm
  | _ => exact (addAll_single _ _).symm

/-! ## One piece -/

variable {e : Encoder} {d : List UInt8}

/-- In size-only mode every piece is counted. -/
theorem add_sizeOnly (h : e.computeSizeOnly = true) :
    prvAddToResultBuffer e d = (true, { e with encodedSize := e.encodedSize + d.length }) := by
  rw [prvAddToResultBuffer]
  by_cases hd : d.length = 0
  · rw [if_pos hd, hd]
    rfl
  · rw [if_neg hd, if_pos h]

/-- The state of a writing encoder: the offsets follow each other, and what has
    been written fits. -/
def Consecutive : Nat → List (Nat × List UInt8) → Nat → Prop
  | a, [], b => a = b
  | a, (offset, data) :: rest, b => offset = a ∧ Consecutive (a + data.length) rest b

theorem consecutive_snoc {a b : Nat} {ws : List (Nat × List UInt8)} (h : Consecutive a ws b)
    (data : List UInt8) : Consecutive a (ws ++ [(b, data)]) (b + data.length) := by
  induction ws generalizing a with
  | nil =>
      have hab : a = b := h
      rw [hab]
      exact ⟨rfl, rfl⟩
  | cons w ws ih => exact ⟨h.1, ih h.2⟩

/-- A piece that fits is written; the others are refused. -/
theorem add_write (h : e.computeSizeOnly = false) :
    (prvAddToResultBuffer e d = (false, e) ∧ e.bufLen < e.encodedSize + d.length) ∨
    (prvAddToResultBuffer e d = (true, e) ∧ d.length = 0) ∨
    (e.encodedSize + d.length ≤ e.bufLen ∧
      prvAddToResultBuffer e d = (true, { e with
        writes := e.writes ++ [(e.encodedSize % 2 ^ 32, d)]
        encodedSize := e.encodedSize + d.length })) := by
  rw [prvAddToResultBuffer]
  by_cases hd : d.length = 0
  · rw [if_pos hd]
    exact Or.inr (Or.inl ⟨rfl, hd⟩)
  · rw [if_neg hd, h, if_neg (by simp)]
    by_cases hfit : e.encodedSize + d.length > e.bufLen
    · rw [if_pos hfit]
      exact Or.inl ⟨rfl, hfit⟩
    · rw [if_neg hfit]
      exact Or.inr (Or.inr ⟨by omega, rfl⟩)

/-! ## The two passes -/

/-- The pieces of a sequence of calls. -/
def piecesAll (cs : List Call) : List (List UInt8) := cs.flatMap Call.pieces

/-- The number of bytes of some pieces. -/
def totalLength (ds : List (List UInt8)) : Nat := ds.flatten.length

theorem totalLength_cons (d : List UInt8) (ds : List (List UInt8)) :
    totalLength (d :: ds) = d.length + totalLength ds := by
  simp only [totalLength, List.flatten_cons, List.length_append]

theorem totalLength_append (ds ds' : List (List UInt8)) :
    totalLength (ds ++ ds') = totalLength ds + totalLength ds' := by
  simp only [totalLength, List.flatten_append, List.length_append]

theorem addAll_sizeOnly (h : e.computeSizeOnly = true) (ds : List (List UInt8)) :
    addAll e ds = (true, { e with encodedSize := e.encodedSize + totalLength ds }) := by
  induction ds generalizing e with
  | nil => rfl
  | cons d ds ih =>
      rw [addAll, add_sizeOnly h, totalLength_cons, ← Nat.add_assoc]
      exact ih (e := { e with encodedSize := e.encodedSize + d.length }) h

/-- The size pass counts all pieces. -/
theorem execAll_sizeOnly (h : e.computeSizeOnly = true) (cs : List Call) :
    (execAll e cs).2.encodedSize = e.encodedSize + totalLength (piecesAll cs) ∧
      ∀ r ∈ (execAll e cs).1, r = true := by
  induction cs generalizing e with
  | nil => exact ⟨rfl, fun r hr => nomatch hr⟩
  | cons c cs ih =>
      simp only [execAll, exec_eq_addAll, addAll_sizeOnly h, piecesAll, List.flatMap_cons,
        totalLength_append, ← Nat.add_assoc]
      obtain ⟨hsize, hall⟩ := ih (e := { e with
        encodedSize := e.encodedSize + totalLength c.pieces }) h
      refine ⟨hsize, ?_⟩
      intro r hr
      rcases List.mem_cons.mp hr with heq | hmem
      · exact heq
      · exact hall r hmem

/-- What holds of a writing encoder at any time: nothing lies at or behind
    `bufLen`. -/
structure Within (e : Encoder) : Prop where
  mode : e.computeSizeOnly = false
  size : e.encodedSize ≤ e.bufLen
  writes : ∀ w ∈ e.writes, w.1 + w.2.length ≤ e.bufLen

theorem Within.add (h : Within e) :
    Within (prvAddToResultBuffer e d).2 ∧ (prvAddToResultBuffer e d).2.bufLen = e.bufLen := by
  rcases add_write h.mode (d := d) with ⟨heq, -⟩ | ⟨heq, -⟩ | ⟨hfit, heq⟩
  · rw [heq]
    exact ⟨h, rfl⟩
  · rw [heq]
    exact ⟨h, rfl⟩
  · rw [heq]
    refine ⟨⟨h.mode, hfit, ?_⟩, rfl⟩
    intro w hw
    rcases List.mem_append.mp hw with hold | hnew
    · exact h.writes w hold
    · rw [List.mem_singleton.mp hnew]
      have := Nat.mod_le e.encodedSize (2 ^ 32)
      exact Nat.le_trans (Nat.add_le_add_right this _) hfit

theorem Within.addAll (h : Within e) (ds : List (List UInt8)) :
    Within (addAll e ds).2 ∧ (addAll e ds).2.bufLen = e.bufLen := by
  induction ds generalizing e with
  | nil => exact ⟨h, rfl⟩
  | cons d ds ih =>
      obtain ⟨h', hlen⟩ := h.add (d := d)
      rw [Cbor.addAll]
      generalize prvAddToResultBuffer e d = r at h' hlen
      obtain ⟨b, e'⟩ := r
      cases b with
      | true =>
          obtain ⟨h'', hlen'⟩ := ih h'
          exact ⟨h'', hlen'.trans hlen⟩
      | false => exact ⟨h', hlen⟩

/-- **No overrun**, whatever calls are made. -/
theorem Within.execAll (h : Within e) (cs : List Call) :
    Within (execAll e cs).2 ∧ (execAll e cs).2.bufLen = e.bufLen := by
  induction cs generalizing e with
  | nil => exact ⟨h, rfl⟩
  | cons c cs ih =>
      simp only [Cbor.execAll, exec_eq_addAll]
      obtain ⟨h', hlen⟩ := h.addAll c.pieces
      obtain ⟨h'', hlen'⟩ := ih h'
      exact ⟨h'', hlen'.trans hlen⟩

/-- A writing encoder in which nothing has been refused. -/
structure Good (e : Encoder) (done : List UInt8) : Prop where
  mode : e.computeSizeOnly = false
  size : e.encodedSize = done.length
  writes : e.writes.flatMap Prod.snd = done
  offsets : e.encodedSize < 2 ^ 32 → Consecutive 0 e.writes e.encodedSize

theorem Good.add {done : List UInt8} (h : Good e done)
    (hfit : done.length + d.length ≤ e.bufLen) :
    ∃ e', prvAddToResultBuffer e d = (true, e') ∧ e'.bufLen = e.bufLen ∧
      Good e' (done ++ d) := by
  rcases add_write h.mode (d := d) with ⟨-, hno⟩ | ⟨heq, hd⟩ | ⟨-, heq⟩
  · rw [h.size] at hno
    omega
  · refine ⟨e, heq, rfl, ?_⟩
    rw [List.eq_nil_of_length_eq_zero hd, List.append_nil]
    exact h
  · refine ⟨_, heq, rfl, h.mode, ?_, ?_, ?_⟩
    · show e.encodedSize + d.length = _
      rw [h.size, List.length_append]
    · show (e.writes ++ [(e.encodedSize % 2 ^ 32, d)]).flatMap Prod.snd = _
      rw [List.flatMap_append, h.writes]
      simp
    · intro hlt
      have hlt' : e.encodedSize + d.length < 2 ^ 32 := hlt
      show Consecutive 0 (e.writes ++ [(e.encodedSize % 2 ^ 32, d)]) (e.encodedSize + d.length)
      rw [Nat.mod_eq_of_lt (by omega)]
      exact consecutive_snoc (h.offsets (by omega)) d

theorem Good.addAll {done : List UInt8} (h : Good e done) (ds : List (List UInt8))
    (hfit : done.length + totalLength ds ≤ e.bufLen) :
    ∃ e', addAll e ds = (true, e') ∧ e'.bufLen = e.bufLen ∧ Good e' (done ++ ds.flatten) := by
  induction ds generalizing e done with
  | nil => exact ⟨e, rfl, rfl, by rw [List.flatten_nil, List.append_nil]; exact h⟩
  | cons d ds ih =>
      rw [totalLength_cons] at hfit
      obtain ⟨e1, heq, hlen, h1⟩ := h.add (d := d) (by omega)
      obtain ⟨e2, heq2, hlen2, h2⟩ := ih h1 (by rw [List.length_append, hlen]; omega)
      refine ⟨e2, ?_, hlen2.trans hlen, ?_⟩
      · rw [Cbor.addAll, heq, andThen, heq2]
      · rw [List.flatten_cons, ← List.append_assoc]
        exact h2

/-- **Enough room**: every call succeeds, and the pieces have been written one
    after the other. -/
theorem Good.execAll {done : List UInt8} (h : Good e done) (cs : List Call)
    (hfit : done.length + totalLength (piecesAll cs) ≤ e.bufLen) :
    (∀ r ∈ (execAll e cs).1, r = true) ∧
      Good (execAll e cs).2 (done ++ (piecesAll cs).flatten) := by
  induction cs generalizing e done with
  | nil => exact ⟨fun r hr => (nomatch hr), by simpa [piecesAll, Cbor.execAll] using h⟩
  | cons c cs ih =>
      simp only [piecesAll, List.flatMap_cons, totalLength_append] at hfit
      obtain ⟨e', heq, hlen, h'⟩ := h.addAll c.pieces (by omega)
      simp only [Cbor.execAll, exec_eq_addAll, heq]
      obtain ⟨hall, hgood⟩ := ih h' (by
        rw [List.length_append, hlen]
        simp only [piecesAll, totalLength] at hfit ⊢
        omega)
      refine ⟨?_, ?_⟩
      · intro r hr
        rcases List.mem_cons.mp hr with hr | hr
        · exact hr
        · exact hall r hr
      · simp only [piecesAll, List.flatMap_cons, List.flatten_append, ← List.append_assoc]
        exact hgood

theorem good_init (bufLen : Nat) : Good (ticosCborEncoderInit bufLen) [] :=
  ⟨rfl, rfl, rfl, fun _ => rfl⟩

/-- When nothing is refused, all pieces have been counted. -/
theorem addAll_true_size (h : e.computeSizeOnly = false) {ds : List (List UInt8)} {e' : Encoder}
    (heq : addAll e ds = (true, e')) :
    e'.computeSizeOnly = false ∧ e'.encodedSize = e.encodedSize + totalLength ds := by
  induction ds generalizing e with
  | nil =>
      obtain ⟨-, rfl⟩ := Prod.mk.inj heq
      exact ⟨h, rfl⟩
  | cons d ds ih =>
      rw [addAll] at heq
      rw [totalLength_cons]
      rcases add_write h (d := d) with ⟨hadd, -⟩ | ⟨hadd, hd⟩ | ⟨-, hadd⟩
      · rw [hadd, andThen] at heq
        exact nomatch (Prod.mk.inj heq).1
      · rw [hadd, andThen] at heq
        obtain ⟨hmode, hsize⟩ := ih h heq
        exact ⟨hmode, by omega⟩
      · rw [hadd, andThen] at heq
        obtain ⟨hmode, hsize⟩ := ih (by exact h) heq
        refine ⟨hmode, ?_⟩
        rw [hsize, Nat.add_assoc]

theorem execAll_true_size (h : e.computeSizeOnly = false) (cs : List Call)
    (hall : ∀ r ∈ (execAll e cs).1, r = true) :
    (execAll e cs).2.encodedSize = e.encodedSize + totalLength (piecesAll cs) := by
  induction cs generalizing e with
  | nil => rfl
  | cons c cs ih =>
      simp only [execAll] at hall ⊢
      have hfirst : (c.exec e).1 = true := hall _ List.mem_cons_self
      rw [exec_eq_addAll] at hfirst hall ⊢
      obtain ⟨hmode, hsize⟩ := addAll_true_size h
        (show addAll e c.pieces = (true, (addAll e c.pieces).2) from Prod.ext hfirst rfl)
      rw [ih hmode (fun r hr => hall r (List.mem_cons_of_mem _ hr)), hsize, Nat.add_assoc,
        ← totalLength_append]
      rfl

/-- **The passes agree**: with the size of the size-only pass (below 2^32) as
    buffer length or more, every call succeeds, the callback gets consecutive
    offsets from 0 on, and the size is the same; with less, some call fails; and
    no callback covers a byte outside the buffer, whatever its length. -/
theorem size_pass_agrees (cs : List Call) (bufLen : Nat)
    (hsize : ticosCborEncoderDeinit (execAll ticosCborEncoderSizeOnlyInit cs).2 < 2 ^ 32) :
    (ticosCborEncoderDeinit (execAll ticosCborEncoderSizeOnlyInit cs).2 ≤ bufLen →
      (∀ r ∈ (execAll (ticosCborEncoderInit bufLen) cs).1, r = true) ∧
      Consecutive 0 (execAll (ticosCborEncoderInit bufLen) cs).2.writes
        (ticosCborEncoderDeinit (execAll ticosCborEncoderSizeOnlyInit cs).2) ∧
      ticosCborEncoderDeinit (execAll (ticosCborEncoderInit bufLen) cs).2
        = ticosCborEncoderDeinit (execAll ticosCborEncoderSizeOnlyInit cs).2) ∧
    (bufLen < ticosCborEncoderDeinit (execAll ticosCborEncoderSizeOnlyInit cs).2 →
      ∃ r ∈ (execAll (ticosCborEncoderInit bufLen) cs).1, r = false) ∧
    (∀ w ∈ (execAll (ticosCborEncoderInit bufLen) cs).2.writes, w.1 + w.2.length ≤ bufLen) := by
  have htotal : ticosCborEncoderDeinit (execAll ticosCborEncoderSizeOnlyInit cs).2
      = totalLength (piecesAll cs) := by
    have := (execAll_sizeOnly (e := ticosCborEncoderSizeOnlyInit) rfl cs).1
    rw [ticosCborEncoderDeinit, this]
    exact Nat.zero_add _
  have hwithin := (Within.execAll (e := ticosCborEncoderInit bufLen)
    ⟨rfl, Nat.zero_le _, fun w hw => nomatch hw⟩ cs)
  rw [htotal] at hsize ⊢
  refine ⟨?_, ?_, ?_⟩
  · intro hfit
    obtain ⟨hall, hgood⟩ := (good_init bufLen).execAll cs (by
      show 0 + totalLength (piecesAll cs) ≤ bufLen
      omega)
    have hsz : (execAll (ticosCborEncoderInit bufLen) cs).2.encodedSize
        = totalLength (piecesAll cs) := hgood.size
    refine ⟨hall, ?_, hsz⟩
    have hoff := hgood.offsets (by omega)
    rw [hsz] at hoff
    exact hoff
  · intro hlt
    by_contra hno
    push Not at hno
    have hall : ∀ r ∈ (execAll (ticosCborEncoderInit bufLen) cs).1, r = true := by
      intro r hr
      cases r with
      | true => rfl
      | false => exact absurd rfl (hno false hr)
    have hsz := execAll_true_size (e := ticosCborEncoderInit bufLen) rfl cs hall
    have hle := hwithin.1.size
    rw [hwithin.2, hsz] at hle
    have : (0 : Nat) + totalLength (piecesAll cs) ≤ bufLen := hle
    omega
  · intro w hw
    have := hwithin.1.writes w hw
    rw [hwithin.2] at this
    exact this

/-- The dictionary `\x7b"a": "A"\x7d` in five bytes. -/
theorem size_pass_agrees_dictionary :
    Consecutive 0 (execAll (ticosCborEncoderInit 5)
      [.dictionaryBegin 1, .string [97], .string [65]]).2.writes 5 :=
  ((size_pass_agrees [.dictionaryBegin 1, .string [97], .string [65]] 5
    (by decide +kernel)).1 (by decide +kernel)).2.1

end Cbor
