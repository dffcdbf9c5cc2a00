import Ticosd.Cbor

/-! # CBOR round trip — a decoder for what the encoder writes

    `decodeItem` reads one data item of definite length, as RFC 7049 describes
    it: a head (major type, additional information, number) and what the major
    type asks for.  With `shortest` set it refuses every head of a number that
    has a shorter form.

    A `Tree` is a data item together with the way it is given to the encoder:
    integers by their C type, strings whole or in pieces.  The main result is
    that the bytes of every tree decode to the tree, with and without
    `shortest`. -/

namespace CborDecode

open Cbor CText

/-! ## Data items and their decoder -/

/-- A data item; doubles and shorter floats are bit patterns, text is bytes. -/
inductive Item where
  | int (i : Int)
  | bytes (bs : List UInt8)
  | text (bs : List UInt8)
  | array (items : List Item)
  | map (pairs : List (Item × Item))
  | tag (number : Nat) (item : Item)
  | simple (number : Nat)
  | half (bits : Nat)
  | single (bits : Nat)
  | double (bits : Nat)

/-- A number, most significant byte first. -/
def beValue (bs : List UInt8) : Nat := bs.foldl (fun v b => 256 * v + b.toNat) 0

/-- The least number that needs the given additional information. -/
def leastFor (ai : Nat) : Nat :=
  if ai = 24 then 24 else if ai = 25 then 2 ^ 8 else if ai = 26 then 2 ^ 16 else 2 ^ 32

/-- The head of an item: major type, additional information, number, and what
    follows. -/
def decodeHead (shortest : Bool) : List UInt8 → Option (Nat × Nat × Nat × List UInt8)
  | [] => none
  | b :: rest =>
      let mt := b.toNat / 32
      let ai := b.toNat % 32
      if ai < 24 then some (mt, ai, ai, rest)
      else if ai < 28 then
        let width := 2 ^ (ai - 24)
        if rest.length < width then none
        else if shortest = true ∧ mt ≠ 7 ∧ beValue (rest.take width) < leastFor ai then none
        else some (mt, ai, beValue (rest.take width), rest.drop width)
      else none

/-- The next `n` bytes. -/
def takeBytes (n : Nat) (bs : List UInt8) : Option (List UInt8 × List UInt8) :=
  if bs.length < n then none else some (bs.take n, bs.drop n)

/-- `n` items in a row. -/
def decodeItems (dec : List UInt8 → Option (Item × List UInt8)) :
    Nat → List UInt8 → Option (List Item × List UInt8)
  | 0, bs => some ([], bs)
  | n + 1, bs => do
      let (x, bs) ← dec bs
      let (xs, bs) ← decodeItems dec n bs
      return (x :: xs, bs)

/-- `n` pairs of items in a row. -/
def decodePairs (dec : List UInt8 → Option (Item × List UInt8)) :
    Nat → List UInt8 → Option (List (Item × Item) × List UInt8)
  | 0, bs => some ([], bs)
  | n + 1, bs => do
      let (k, bs) ← dec bs
      let (v, bs) ← dec bs
      let (rest, bs) ← decodePairs dec n bs
      return ((k, v) :: rest, bs)

/-- The item of major type 7. -/
def simpleItem (ai val : Nat) : Item :=
  if ai = 25 then .half val else if ai = 26 then .single val
  else if ai = 27 then .double val else .simple val

/-- One data item, nested at most `fuel` deep. -/
def decodeItem (shortest : Bool) : Nat → List UInt8 → Option (Item × List UInt8)
  | 0, _ => none
  | fuel + 1, bs => do
      let (mt, ai, val, bs) ← decodeHead shortest bs
      match mt with
      | 0 => return (.int val, bs)
      | 1 => return (.int (-1 - val), bs)
      | 2 => let (x, bs) ← takeBytes val bs; return (.bytes x, bs)
      | 3 => let (x, bs) ← takeBytes val bs; return (.text x, bs)
      | 4 => let (xs, bs) ← decodeItems (decodeItem shortest fuel) val bs; return (.array xs, bs)
      | 5 => let (kvs, bs) ← decodePairs (decodeItem shortest fuel) val bs; return (.map kvs, bs)
      | 6 => let (x, bs) ← decodeItem shortest fuel bs; return (.tag val x, bs)
      | _ => return (simpleItem ai val, bs)

/-! ## Trees -/

/-- A data item as it is given to the encoder. -/
inductive Tree where
  | uint (value : UInt32)
  | int32 (value : BitVec 32)
  | int64 (value : BitVec 64)
  | double (bits : UInt64)
  | bytes (bs : List UInt8)
  | bytesPieces (pieces : List (List UInt8))
  | text (str : List UInt8)
  | textPieces (pieces : List (List UInt8))
  | array (items : List Tree)
  | map (pairs : List (Tree × Tree))

mutual

/-- The calls that emit a tree. -/
def Tree.calls : Tree → List Call
  | .uint value => [.unsignedInteger value]
  | .int32 value => [.signedInteger value]
  | .int64 value => [.longSignedInteger value]
  | .double bits => [.uint64AsDouble bits]
  | .bytes bs => [.byteString bs]
  | .bytesPieces pieces => .byteStringBegin pieces.flatten.length :: pieces.map .join
  | .text str => [.string str]
  | .textPieces pieces => .stringBegin pieces.flatten.length :: pieces.map .join
  | .array items => .arrayBegin items.length :: callsAll items
  | .map pairs => .dictionaryBegin pairs.length :: callsPairs pairs

/-- The calls for the items of an array. -/
def callsAll : List Tree → List Call
  | [] => []
  | t :: ts => t.calls ++ callsAll ts

/-- The calls for the pairs of a map. -/
def callsPairs : List (Tree × Tree) → List Call
  | [] => []
  | (k, v) :: rest => k.calls ++ (v.calls ++ callsPairs rest)

end

mutual

/-- The data item of a tree. -/
def Tree.item : Tree → Item
  | .uint value => .int value.toNat
  | .int32 value => .int value.toInt
  | .int64 value => .int value.toInt
  | .double bits => .double bits.toNat
  | .bytes bs => .bytes bs
  | .bytesPieces pieces => .bytes pieces.flatten
  | .text str => .text str
  | .textPieces pieces => .text pieces.flatten
  | .array items => .array (itemsAll items)
  | .map pairs => .map (itemsPairs pairs)

def itemsAll : List Tree → List Item
  | [] => []
  | t :: ts => t.item :: itemsAll ts

def itemsPairs : List (Tree × Tree) → List (Item × Item)
  | [] => []
  | (k, v) :: rest => (k.item, v.item) :: itemsPairs rest

end

mutual

/-- Strings are shorter than 2^32 bytes, arrays and maps have fewer than 2^32
    elements, and a string given whole is a C string. -/
def Tree.WellFormed : Tree → Prop
  | .bytes bs => bs.length < 2 ^ 32
  | .bytesPieces pieces => pieces.flatten.length < 2 ^ 32
  | .text str => str.length < 2 ^ 32 ∧ 0 ∉ str
  | .textPieces pieces => pieces.flatten.length < 2 ^ 32
  | .array items => items.length < 2 ^ 32 ∧ wellFormedAll items
  | .map pairs => pairs.length < 2 ^ 32 ∧ wellFormedPairs pairs
  | _ => True

def wellFormedAll : List Tree → Prop
  | [] => True
  | t :: ts => t.WellFormed ∧ wellFormedAll ts

def wellFormedPairs : List (Tree × Tree) → Prop
  | [] => True
  | (k, v) :: rest => k.WellFormed ∧ v.WellFormed ∧ wellFormedPairs rest

end

/-- The bytes of some calls. -/
def bytesOf (cs : List Call) : List UInt8 := (piecesAll cs).flatten

theorem bytesOf_cons (c : Call) (cs : List Call) :
    bytesOf (c :: cs) = c.pieces.flatten ++ bytesOf cs := by
  simp only [bytesOf, piecesAll, List.flatMap_cons, List.flatten_append]

theorem bytesOf_append (cs ds : List Call) :
    bytesOf (cs ++ ds) = bytesOf cs ++ bytesOf ds := by
  simp only [bytesOf, piecesAll, List.flatMap_append, List.flatten_append]

theorem bytesOf_joins (pieces : List (List UInt8)) :
    bytesOf (pieces.map .join) = pieces.flatten := by
  induction pieces with
  | nil => rfl
  | cons p ps ih =>
      rw [List.map_cons, bytesOf_cons, ih]
      simp [Call.pieces]

/-! ## Heads -/

theorem serialize_add {mt k : Nat} (hmt : mt < 8) (hk : k < 32) :
    (serializeMajorType mt + UInt8.ofNat k).toNat = 32 * mt + k := by
  have key : ∀ mt : Fin 8, ∀ k : Fin 32,
      (serializeMajorType mt.val + UInt8.ofNat k.val).toNat = 32 * mt.val + k.val := by
    decide +kernel
  exact key ⟨mt, hmt⟩ ⟨k, hk⟩

theorem serialize_or {mt : Nat} (hmt : mt < 8) :
    (serializeMajorType mt ||| 27).toNat = 32 * mt + 27 := by
  have key : ∀ mt : Fin 8, (serializeMajorType mt.val ||| 27).toNat = 32 * mt.val + 27 := by
    decide +kernel
  exact key ⟨mt, hmt⟩

/-- A head with a number of `2 ^ (ai - 24)` bytes. -/
theorem decodeHead_wide (shortest : Bool) (rest : List UInt8) {b : UInt8} {num : List UInt8}
    {mt ai : Nat}
    (hb : b.toNat = 32 * mt + ai) (hai : 24 ≤ ai) (hai' : ai < 28)
    (hlen : num.length = 2 ^ (ai - 24)) (hleast : mt ≠ 7 → leastFor ai ≤ beValue num) :
    decodeHead shortest (b :: (num ++ rest)) = some (mt, ai, beValue num, rest) := by
  have hmt : b.toNat / 32 = mt := by omega
  have hai2 : b.toNat % 32 = ai := by omega
  simp only [decodeHead, hmt, hai2]
  rw [if_neg (by omega), if_pos hai', if_neg (by rw [List.length_append]; omega), ← hlen,
    List.take_left, List.drop_left, if_neg ?_]
  rintro ⟨-, hne, hlt⟩
  have := hleast hne
  omega

/-- The head that `prv_encode_unsigned_integer` writes. -/
theorem decodeHead_unsigned (shortest : Bool) {mt val : Nat} (hmt : mt < 8) (hval : val < 2 ^ 32)
    (rest : List UInt8) : ∃ ai,
      decodeHead shortest (unsignedBytes mt val ++ rest) = some (mt, ai, val, rest) := by
  by_cases h1 : val < 24
  · refine ⟨val, ?_⟩
    have hb := serialize_add hmt (show val < 32 by omega)
    simp only [unsignedBytes, if_pos h1, List.cons_append, List.nil_append, decodeHead, hb]
    rw [if_pos (by omega), show (32 * mt + val) / 32 = mt by omega,
      show (32 * mt + val) % 32 = val by omega]
  · by_cases h2 : val ≤ 0xff
    · have hnum : beValue [UInt8.ofNat val] = val := by
        simp only [beValue, List.foldl_cons, List.foldl_nil, UInt8.toNat_ofNat']
        omega
      have hdec := decodeHead_wide shortest rest
        (serialize_add hmt (show 24 < 32 by omega)) (Nat.le_refl 24) (by omega)
        (show [UInt8.ofNat val].length = 2 ^ (24 - 24) from rfl)
        (fun _ => by rw [hnum]; simp only [leastFor, if_true]; omega)
      rw [hnum] at hdec
      refine ⟨24, ?_⟩
      simp only [unsignedBytes, if_neg h1, if_pos h2]
      exact hdec
    · by_cases h3 : val ≤ 0xffff
      · have hnum : beValue [UInt8.ofNat (val >>> 8), UInt8.ofNat val] = val := by
          simp only [beValue, List.foldl_cons, List.foldl_nil, UInt8.toNat_ofNat',
            Nat.shiftRight_eq_div_pow]
          omega
        have hdec := decodeHead_wide shortest rest
          (serialize_add hmt (show 25 < 32 by omega)) (by omega) (by omega)
          (show [UInt8.ofNat (val >>> 8), UInt8.ofNat val].length = 2 ^ (25 - 24) from rfl)
          (fun _ => by rw [hnum]; show 2 ^ 8 ≤ val; omega)
        rw [hnum] at hdec
        refine ⟨25, ?_⟩
        simp only [unsignedBytes, if_neg h1, if_neg h2, if_pos h3]
        exact hdec
      · have hnum : beValue [UInt8.ofNat (val >>> 24), UInt8.ofNat (val >>> 16),
            UInt8.ofNat (val >>> 8), UInt8.ofNat val] = val := by
          simp only [beValue, List.foldl_cons, List.foldl_nil, UInt8.toNat_ofNat',
            Nat.shiftRight_eq_div_pow]
          omega
        have hdec := decodeHead_wide shortest rest
          (serialize_add hmt (show 26 < 32 by omega)) (by omega) (by omega)
          (show [UInt8.ofNat (val >>> 24), UInt8.ofNat (val >>> 16), UInt8.ofNat (val >>> 8),
            UInt8.ofNat val].length = 2 ^ (26 - 24) from rfl)
          (fun _ => by rw [hnum]; show 2 ^ 16 ≤ val; omega)
        rw [hnum] at hdec
        refine ⟨26, ?_⟩
        simp only [unsignedBytes, if_neg h1, if_neg h2, if_neg h3]
        exact hdec

theorem beValue_uint64 {val : Nat} (h : val < 2 ^ 64) : beValue (prvEncodeUint64 val) = val := by
  simp only [prvEncodeUint64, List.map_cons, List.map_nil, beValue, List.foldl_cons,
    List.foldl_nil, UInt8.toNat_ofNat', Nat.shiftRight_eq_div_pow]
  omega

/-- The head of a 64-bit item. -/
theorem decodeHead_long (shortest : Bool) {mt val : Nat} (hmt : mt < 8) (hval : val < 2 ^ 64)
    (hleast : mt ≠ 7 → 2 ^ 32 ≤ val) (rest : List UInt8) :
    decodeHead shortest (longBytes mt val ++ rest) = some (mt, 27, val, rest) := by
  have hdec := decodeHead_wide shortest rest (serialize_or hmt)
    (by omega) (by omega) (show (prvEncodeUint64 val).length = 2 ^ (27 - 24) from rfl)
    (fun hne => by rw [beValue_uint64 hval]; exact hleast hne)
  rw [beValue_uint64 hval] at hdec
  exact hdec

theorem takeBytes_append {n : Nat} {bs rest : List UInt8} (h : bs.length = n) :
    takeBytes n (bs ++ rest) = some (bs, rest) := by
  rw [takeBytes, if_neg (by rw [List.length_append]; omega), ← h, List.take_left, List.drop_left]

/-! ## Signed integers -/

theorem sshiftRight_nonneg {w : Nat} {v : BitVec w} (h : v.msb = false) :
    v.sshiftRight (w - 1) = 0#w := by
  rw [BitVec.sshiftRight_eq_of_msb_false h]
  refine BitVec.eq_of_toNat_eq ?_
  rw [BitVec.toNat_ushiftRight, BitVec.toNat_ofNat, Nat.zero_mod, Nat.shiftRight_eq_div_pow]
  have := BitVec.msb_eq_false_iff_two_mul_lt.mp h
  cases w with
  | zero => have := v.isLt; omega
  | succ w =>
      refine Nat.div_eq_of_lt ?_
      rw [Nat.add_sub_cancel]
      rw [Nat.pow_succ] at this
      omega

theorem sshiftRight_neg {w : Nat} {v : BitVec w} (h : v.msb = true) :
    v.sshiftRight (w - 1) = BitVec.allOnes w := by
  have hw : 0 < w := by
    cases w with
    | zero => rw [BitVec.msb, BitVec.getMsbD_of_ge _ _ (Nat.le_refl 0)] at h; exact nomatch h
    | succ w => omega
  have hnot : (~~~v).msb = false := by
    rw [BitVec.msb_not]
    simp [hw, h]
  have := sshiftRight_nonneg hnot
  rw [BitVec.sshiftRight_eq_of_msb_true h]
  rw [BitVec.sshiftRight_eq_of_msb_false hnot] at this
  rw [this, BitVec.not_zero]

/-- The major type and the number of a signed integer. -/
theorem signSplit_spec {w : Nat} (hw : 0 < w) (v : BitVec w) :
    ((signSplit v).1 = 0 ∧ (signSplit v).2.msb = false ∧ v.toInt = ((signSplit v).2.toNat : Int)) ∨
    ((signSplit v).1 = 1 ∧ (signSplit v).2.msb = false ∧
      v.toInt = -1 - ((signSplit v).2.toNat : Int)) := by
  cases h : v.msb with
  | false =>
      refine Or.inl ?_
      have hs : signSplit v = ((0#w &&& 1#w).toNat, 0#w ^^^ v) := by
        simp only [signSplit, sshiftRight_nonneg h]
      rw [hs]
      refine ⟨by simp, by simpa using h, ?_⟩
      rw [BitVec.toInt_eq_toNat_of_msb h]
      simp
  | true =>
      refine Or.inr ?_
      have hs : signSplit v = ((BitVec.allOnes w &&& 1#w).toNat, BitVec.allOnes w ^^^ v) := by
        simp only [signSplit, sshiftRight_neg h]
      have hone : (BitVec.allOnes w &&& 1#w).toNat = 1 := by
        rw [BitVec.allOnes_and, BitVec.toNat_ofNat]
        exact Nat.mod_eq_of_lt (Nat.one_lt_two_pow (by omega))
      have hnot : BitVec.allOnes w ^^^ v = ~~~v := by
        rw [BitVec.allOnes_xor]
      rw [hs, hone, hnot]
      refine ⟨rfl, by rw [BitVec.msb_not]; simp [h], ?_⟩
      have hlt := v.isLt
      show v.toInt = -1 - ((~~~v).toNat : Int)
      rw [BitVec.toNat_not, BitVec.toInt_eq_msb_cond, h, if_pos rfl]
      have hpow : ((2 : Int) ^ w) = ((2 ^ w : Nat) : Int) := by push_cast; rfl
      generalize 2 ^ w = n at *
      omega

theorem signSplit_major {w : Nat} (hw : 0 < w) (v : BitVec w) : (signSplit v).1 < 8 := by
  rcases signSplit_spec hw v with ⟨h, -⟩ | ⟨h, -⟩
  · rw [h]; omega
  · rw [h]; omega

/-! ## The round trip -/

variable {shortest : Bool} {fuel : Nat}

/-- The number behind a head of major type 0 or 1. -/
theorem decodeItem_int {w : Nat} (hw : 0 < w) (v : BitVec w) {ai : Nat} {bs rest : List UInt8}
    (h : decodeHead shortest bs = some ((signSplit v).1, ai, (signSplit v).2.toNat, rest)) :
    decodeItem shortest (fuel + 1) bs = some (.int v.toInt, rest) := by
  simp only [decodeItem, h, Option.bind_eq_bind, Option.bind_some]
  rcases signSplit_spec hw v with ⟨hmt, -, hval⟩ | ⟨hmt, -, hval⟩
  · rw [hmt, hval]
    rfl
  · rw [hmt, hval]
    rfl

/-- A 64-bit number that does not fit the 32-bit path. -/
theorem signSplit_long {v : BitVec 64} (h : ¬(signSplit v).2.toInt ≤ 0xffffffff) :
    2 ^ 32 ≤ (signSplit v).2.toNat := by
  have hmsb : (signSplit v).2.msb = false := by
    rcases signSplit_spec (by omega) v with ⟨-, h, -⟩ | ⟨-, h, -⟩
    · exact h
    · exact h
  rw [BitVec.toInt_eq_toNat_of_msb hmsb] at h
  omega

theorem signSplit_short {v : BitVec 64} (h : (signSplit v).2.toInt ≤ 0xffffffff) :
    (signSplit v).2.toNat < 2 ^ 32 := by
  have hmsb : (signSplit v).2.msb = false := by
    rcases signSplit_spec (by omega) v with ⟨-, h, -⟩ | ⟨-, h, -⟩
    · exact h
    · exact h
  rw [BitVec.toInt_eq_toNat_of_msb hmsb] at h
  omega

/-- A head and a body of the announced length. -/
theorem decodeItem_bytes {body : List UInt8} (hlen : body.length < 2 ^ 32) (rest : List UInt8) :
    decodeItem shortest (fuel + 1)
      (unsignedBytes MajorType.byteString.toNat (body.length % 2 ^ 32) ++ (body ++ rest))
      = some (.bytes body, rest) := by
  rw [Nat.mod_eq_of_lt hlen]
  obtain ⟨ai, hhead⟩ := decodeHead_unsigned shortest
    (show MajorType.byteString.toNat < 8 by decide) hlen (body ++ rest)
  simp only [decodeItem, hhead, Option.bind_eq_bind, Option.bind_some]
  simp only [MajorType.toNat, takeBytes_append rfl, Option.bind_some, Option.pure_def]

theorem decodeItem_text {body : List UInt8} (hlen : body.length < 2 ^ 32) (rest : List UInt8) :
    decodeItem shortest (fuel + 1)
      (unsignedBytes MajorType.textString.toNat (body.length % 2 ^ 32) ++ (body ++ rest))
      = some (.text body, rest) := by
  rw [Nat.mod_eq_of_lt hlen]
  obtain ⟨ai, hhead⟩ := decodeHead_unsigned shortest
    (show MajorType.textString.toNat < 8 by decide) hlen (body ++ rest)
  simp only [decodeItem, hhead, Option.bind_eq_bind, Option.bind_some]
  simp only [MajorType.toNat, takeBytes_append rfl, Option.bind_some, Option.pure_def]

theorem unsignedBytes_ne_nil (mt val : Nat) : 0 < (unsignedBytes mt val).length := by
  simp only [unsignedBytes]
  split
  · exact Nat.succ_pos _
  · split
    · exact Nat.succ_pos _
    · split
      · exact Nat.succ_pos _
      · exact Nat.succ_pos _

/-- Each tree starts with a head. -/
theorem bytesOf_calls_pos (t : Tree) : 0 < (bytesOf t.calls).length := by
  have hun : ∀ (mt val : Nat) (bs : List UInt8), 0 < (unsignedBytes mt val ++ bs).length := by
    intro mt val bs
    have := unsignedBytes_ne_nil mt val
    rw [List.length_append]
    omega
  cases t with
  | int64 value =>
      rw [Tree.calls, bytesOf_cons, Call.pieces]
      split
      · simpa [bytesOf, piecesAll] using hun _ _ []
      · simp [longBytes]
  | double bits =>
      rw [Tree.calls, bytesOf_cons, Call.pieces]
      simp [longBytes]
  | _ =>
      rw [Tree.calls, bytesOf_cons, Call.pieces, List.flatten_cons, List.append_assoc]
      exact hun _ _ _

/-- A string given in pieces has the bytes of one given whole. -/
theorem bytesOf_pieces (c : Call) (pieces : List (List UInt8)) :
    bytesOf (c :: pieces.map .join) = c.pieces.flatten ++ pieces.flatten := by
  rw [bytesOf_cons, bytesOf_joins]

/-- A head of a number below 2^32, whatever its width in the source. -/
theorem head_unsigned (shortest : Bool) {mt n : Nat} (hmt : mt < 8) (hn : n < 2 ^ 32) (body : List UInt8) :
    ∃ ai, decodeHead shortest (unsignedBytes mt (n % 2 ^ 32) ++ body) = some (mt, ai, n, body) := by
  rw [Nat.mod_eq_of_lt hn]
  exact decodeHead_unsigned shortest hmt hn body

mutual

/-- **Every tree decodes to itself**, whatever follows it.  The bytes of a tree
    are more than its nesting. -/
theorem decodeItem_tree (shortest : Bool) : (t : Tree) → t.WellFormed → ∀ (fuel : Nat) (rest : List UInt8),
    (bytesOf t.calls).length ≤ fuel →
    decodeItem shortest fuel (bytesOf t.calls ++ rest) = some (t.item, rest)
  | t, hwf, 0, rest, hfuel => absurd hfuel (by have := bytesOf_calls_pos t; omega)
  | .uint value, hwf, fuel + 1, rest, hfuel => by
      obtain ⟨ai, hhead⟩ := head_unsigned shortest
        (show MajorType.unsignedInteger.toNat < 8 by decide) value.toNat_lt rest
      have hbytes : bytesOf (Tree.uint value).calls
          = unsignedBytes MajorType.unsignedInteger.toNat (value.toNat % 2 ^ 32) := by
        simp [Tree.calls, bytesOf, piecesAll, Call.pieces]
      rw [hbytes]
      simp only [decodeItem, hhead, Option.bind_eq_bind, Option.bind_some]
      rfl
  | .int32 value, hwf, fuel + 1, rest, hfuel => by
      obtain ⟨ai, hhead⟩ := head_unsigned shortest
        (signSplit_major (by omega) value) (signSplit value).2.isLt rest
      have hbytes : bytesOf (Tree.int32 value).calls
          = unsignedBytes (signSplit value).1 ((signSplit value).2.toNat % 2 ^ 32) := by
        simp [Tree.calls, bytesOf, piecesAll, Call.pieces]
      rw [hbytes]
      exact decodeItem_int (by omega) value hhead
  | .int64 value, hwf, fuel + 1, rest, hfuel => by
      by_cases hshort : (signSplit value).2.toInt ≤ 0xffffffff
      · obtain ⟨ai, hhead⟩ := head_unsigned shortest
          (signSplit_major (by omega) value) (signSplit_short hshort) rest
        have hbytes : bytesOf (Tree.int64 value).calls
            = unsignedBytes (signSplit value).1 ((signSplit value).2.toNat % 2 ^ 32) := by
          simp only [Tree.calls, bytesOf, piecesAll, Call.pieces, List.flatMap_cons,
            if_pos hshort]
          simp
        rw [hbytes]
        exact decodeItem_int (by omega) value hhead
      · have hhead := decodeHead_long shortest (signSplit_major (by omega) value)
          (signSplit value).2.isLt (fun _ => signSplit_long hshort) rest
        have hbytes : bytesOf (Tree.int64 value).calls
            = longBytes (signSplit value).1 (signSplit value).2.toNat := by
          simp only [Tree.calls, bytesOf, piecesAll, Call.pieces, List.flatMap_cons,
            if_neg hshort]
          simp
        rw [hbytes]
        exact decodeItem_int (by omega) value hhead
  | .double bits, hwf, fuel + 1, rest, hfuel => by
      have hhead := decodeHead_long shortest
        (show MajorType.simpleType.toNat < 8 by decide)
        bits.toNat_lt (fun h => absurd rfl h) rest
      have hbytes : bytesOf (Tree.double bits).calls
          = longBytes MajorType.simpleType.toNat bits.toNat := by
        simp [Tree.calls, bytesOf, piecesAll, Call.pieces]
      rw [hbytes]
      simp only [decodeItem, hhead, Option.bind_eq_bind, Option.bind_some]
      rfl
  | .bytes bs, hwf, fuel + 1, rest, hfuel => by
      have hbytes : bytesOf (Tree.bytes bs).calls
          = unsignedBytes MajorType.byteString.toNat (bs.length % 2 ^ 32) ++ bs := by
        simp [Tree.calls, bytesOf, piecesAll, Call.pieces]
      rw [hbytes, List.append_assoc]
      exact decodeItem_bytes hwf rest
  | .bytesPieces pieces, hwf, fuel + 1, rest, hfuel => by
      rw [Tree.calls, bytesOf_pieces, List.append_assoc, Call.pieces, List.flatten_singleton]
      exact decodeItem_bytes hwf rest
  | .text str, hwf, fuel + 1, rest, hfuel => by
      have hbytes : bytesOf (Tree.text str).calls
          = unsignedBytes MajorType.textString.toNat (str.length % 2 ^ 32) ++ str := by
        simp [Tree.calls, bytesOf, piecesAll, Call.pieces, cString_eq hwf.2]
      rw [hbytes, List.append_assoc]
      exact decodeItem_text hwf.1 rest
  | .textPieces pieces, hwf, fuel + 1, rest, hfuel => by
      rw [Tree.calls, bytesOf_pieces, List.append_assoc, Call.pieces, List.flatten_singleton]
      exact decodeItem_text hwf rest
  | .array items, hwf, fuel + 1, rest, hfuel => by
      rw [Tree.calls, bytesOf_cons, Call.pieces, List.flatten_singleton] at hfuel ⊢
      have hpos := unsignedBytes_ne_nil MajorType.array.toNat (items.length % 2 ^ 32)
      rw [List.length_append] at hfuel
      obtain ⟨ai, hhead⟩ := head_unsigned shortest
        (show MajorType.array.toNat < 8 by decide) hwf.1 (bytesOf (callsAll items) ++ rest)
      have hitems := decodeItems_trees shortest items hwf.2 fuel rest (by omega)
      rw [List.append_assoc]
      simp only [decodeItem, hhead, Option.bind_eq_bind, Option.bind_some]
      simp only [MajorType.toNat, hitems, Option.bind_some, Option.pure_def, Tree.item]
  | .map pairs, hwf, fuel + 1, rest, hfuel => by
      rw [Tree.calls, bytesOf_cons, Call.pieces, List.flatten_singleton] at hfuel ⊢
      have hpos := unsignedBytes_ne_nil MajorType.map.toNat (pairs.length % 2 ^ 32)
      rw [List.length_append] at hfuel
      obtain ⟨ai, hhead⟩ := head_unsigned shortest
        (show MajorType.map.toNat < 8 by decide) hwf.1 (bytesOf (callsPairs pairs) ++ rest)
      have hpairs := decodePairs_trees shortest pairs hwf.2 fuel rest (by omega)
      rw [List.append_assoc]
      simp only [decodeItem, hhead, Option.bind_eq_bind, Option.bind_some]
      simp only [MajorType.toNat, hpairs, Option.bind_some, Option.pure_def, Tree.item]

theorem decodeItems_trees (shortest : Bool) : (ts : List Tree) → wellFormedAll ts →
    ∀ (fuel : Nat) (rest : List UInt8), (bytesOf (callsAll ts)).length ≤ fuel →
    decodeItems (decodeItem shortest fuel) ts.length (bytesOf (callsAll ts) ++ rest)
      = some (itemsAll ts, rest)
  | [], hwf, fuel, rest, hfuel => rfl
  | t :: ts, hwf, fuel, rest, hfuel => by
      rw [callsAll, bytesOf_append, List.length_append] at hfuel
      have hhead := decodeItem_tree shortest t hwf.1 fuel (bytesOf (callsAll ts) ++ rest) (by omega)
      have htail := decodeItems_trees shortest ts hwf.2 fuel rest (by omega)
      rw [callsAll, bytesOf_append, List.append_assoc, List.length_cons]
      simp only [decodeItems, hhead, htail, Option.bind_eq_bind, Option.bind_some,
        Option.pure_def, itemsAll]

theorem decodePairs_trees (shortest : Bool) : (ps : List (Tree × Tree)) → wellFormedPairs ps →
    ∀ (fuel : Nat) (rest : List UInt8), (bytesOf (callsPairs ps)).length ≤ fuel →
    decodePairs (decodeItem shortest fuel) ps.length (bytesOf (callsPairs ps) ++ rest)
      = some (itemsPairs ps, rest)
  | [], hwf, fuel, rest, hfuel => rfl
  | (k, v) :: ps, hwf, fuel, rest, hfuel => by
      rw [callsPairs, bytesOf_append, bytesOf_append, List.length_append,
        List.length_append] at hfuel
      have hkey := decodeItem_tree shortest k hwf.1 fuel
        (bytesOf v.calls ++ (bytesOf (callsPairs ps) ++ rest)) (by omega)
      have hval := decodeItem_tree shortest v hwf.2.1 fuel (bytesOf (callsPairs ps) ++ rest) (by omega)
      have htail := decodePairs_trees shortest ps hwf.2.2 fuel rest (by omega)
      rw [callsPairs, bytesOf_append, bytesOf_append, List.append_assoc, List.append_assoc,
        List.length_cons]
      simp only [decodePairs, hkey, hval, htail, Option.bind_eq_bind, Option.bind_some,
        Option.pure_def, itemsPairs]

end

/-- An RFC 7049 decoder: all of `bs` is one item. -/
def decode (shortest : Bool) (bs : List UInt8) : Option (Item × List UInt8) :=
  decodeItem shortest bs.length bs

/-- A map from the text "a" to an array of the two least integers. -/
def leastIntegers : Tree :=
  .map [(.text [97], .array [.int32 (BitVec.intMin 32), .int64 (BitVec.intMin 64)])]

end CborDecode
