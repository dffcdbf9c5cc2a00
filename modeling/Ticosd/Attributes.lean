import Ticosd.Ipc
import Ticosd.Calendar
import Ticosd.TxQueue

/-! # Attributes — from `ticosctl write-attributes` to the PATCH request

    The attributes pass through four layouts: the IPC structure with its padding,
    the receive buffer, the packed queue entry, and the request made of it.  The
    JSON text survives them all.  The time does not: `ticosctl` assigns the value
    of a comparison to the time stamp, so that every request is dated one second
    after the epoch. -/

namespace Attributes

open CText Calendar TxQueue Ipc

/-! ## Parsing the command line -/

/-- `json_type`, as far as it is looked at. -/
inductive JsonType where
  | array
  | object
  | other
  deriving DecidableEq

/-- The functions of json-c that are used, over its objects. -/
structure JsonC (J : Type) where
  /-- `json_tokener_parse`; `none` is a NULL pointer. -/
  tokenerParse : List UInt8 → Option J
  getType : J → JsonType
  newString : List UInt8 → J
  newObject : List (List UInt8 × J) → J
  newArray : List J → J
  /-- `json_object_to_json_string`, the memory at the pointer. -/
  toJsonString : J → List UInt8

variable {J : Type}

/-- `prv_parse_attribute_value`. -/
def prvParseAttributeValue (jc : JsonC J) (value : List UInt8) : J :=
  match jc.tokenerParse value with
  | none => jc.newString value
  | some obj =>
      if jc.getType obj = .array ∨ jc.getType obj = .object then jc.newString value else obj

/-- One round of the loop of `ticosd_parse_attributes`; the argument is a key that
    is not empty, `=`, and a value. -/
def parseAttribute (jc : JsonC J) (arg : List UInt8) : Option J :=
  let key := arg.takeWhile (· ≠ 61)
  let rest := arg.dropWhile (· ≠ 61)
  if rest = [] ∨ key = [] then none
  else some (jc.newObject [(ascii "string_key", jc.newString key),
    (ascii "value", prvParseAttributeValue jc (rest.drop 1))])

/-- `ticosd_parse_attributes`. -/
def ticosdParseAttributes (jc : JsonC J) (argv : List (List UInt8)) : Option J :=
  match argv.mapM (parseAttribute jc) with
  | none => none
  | some [] => none
  | some pairs => some (jc.newArray pairs)

/-! ## The message -/

/-- A `time_t` in memory, least significant byte first. -/
def timeBytes (t : Int) : List UInt8 :=
  [0, 8, 16, 24, 32, 40, 48, 56].map
    (fun shift => UInt8.ofNat ((t % 2 ^ 64).toNat >>> shift))

/-- The `time_t` at some bytes. -/
def timeOfBytes (bytes : List UInt8) : Int :=
  Int.bmod (bytes.foldr (fun b v => b.toNat + 256 * v) 0) (2 ^ 64)

/-- The assignment in `assert(msg->timestamp = time(NULL) > 0)`: the value of the
    comparison. -/
def messageTimestamp (time : Int) : Int := if time > 0 then 1 else 0

/-- `prv_cmd_write_attributes` up to the sending of the message, whose padding has
    not been initialised; `none` is a parse error or a failed assertion. -/
def prvCmdWriteAttributes (jc : JsonC J) (padding : Fin 5 → UInt8) (time : Int)
    (argv : List (List UInt8)) : Option (List UInt8) :=
  match ticosdParseAttributes jc argv with
  | none => none
  | some json =>
      if messageTimestamp time = 0 then none
      else some (ascii "ATTRIBUTES" ++ [0] ++ List.ofFn padding ++
        timeBytes (messageTimestamp time) ++ cString (jc.toJsonString json) ++ [0])

/-! ## The request -/

/-- The text of an ASCII string. -/
def textOf (bytes : List UInt8) : String := String.ofList (bytes.map (fun b => Char.ofNat b.toNat))

/-- `iso_timestamp`, an array of 21 bytes; contents that `strftime` leaves undefined
    are given as the empty text. -/
def isoTimestamp (bytes : List UInt8) : String :=
  textOf ((strftimeIso 21 (timeOfBytes bytes)).getD [])

/-- The requests that the effects of a message lead to, if the queue delivers the
    entries unchanged. -/
def requestsOf (env : TxEnv) (effects : List Effect) : List Request :=
  effects.filterMap fun effect => match effect with
    | .queued entry => requestOf { env with isoTimestamp := isoTimestamp } entry
    | _ => none

/-- The path of a PATCH of attributes captured at a time. -/
def attributesPath (env : TxEnv) (t : Int) : String :=
  "/api/v0/attributes?device_serial=" ++ env.deviceId ++ "&captured_date=" ++
    textOf (isoText (gmtime t))

/-! ## Each layout -/

variable {text behind : List UInt8}

/-- The message of an attribute list. -/
def message (padding : Fin 5 → UInt8) (timestamp : Int) (text : List UInt8) : List UInt8 :=
  ascii "ATTRIBUTES" ++ [0] ++ List.ofFn padding ++ timeBytes timestamp ++ text ++ [0]

theorem message_drop_time (padding : Fin 5 → UInt8) (timestamp : Int) (text behind : List UInt8) :
    (message padding timestamp text ++ behind).drop 16
      = timeBytes timestamp ++ (text ++ ([0] ++ behind)) := by
  have hlen : (ascii "ATTRIBUTES" ++ [0] ++ List.ofFn padding).length = 16 := by
    rw [List.length_append, List.length_ofFn]
    decide +kernel
  rw [message, List.append_assoc, List.append_assoc, List.append_assoc, ← hlen, List.drop_left]

theorem timeBytes_length (t : Int) : (timeBytes t).length = 8 := rfl

/-- The plugin puts the time stamp and the text into the entry. -/
theorem buildQueueEntry_message (padding : Fin 5 → UInt8) (timestamp : Int) (h : 0 ∉ text) :
    prvBuildQueueEntry (message padding timestamp text ++ behind)
      = 65 :: (timeBytes timestamp ++ (text ++ [0])) := by
  have hdrop := message_drop_time padding timestamp text behind
  have hjson : (message padding timestamp text ++ behind).drop 24 = text ++ ([0] ++ behind) := by
    have : (message padding timestamp text ++ behind).drop (16 + 8)
        = text ++ ([0] ++ behind) := by
      rw [← List.drop_drop, hdrop, ← timeBytes_length timestamp, List.drop_left]
    exact this
  have hstring : cString (text ++ ([0] ++ behind)) = text := by
    rw [cString_append_of_not_mem h]
    exact List.append_nil text
  rw [prvBuildQueueEntry, hjson, hstring, hdrop, ← timeBytes_length timestamp, List.take_left]

/-- The IPC thread queues the entry, whatever its buffer held before. -/
theorem round_message (padding : Fin 5 → UInt8) (timestamp : Int) (h : 0 ∉ text)
    (hsize : 24 + text.length + 1 ≤ rxBufferSize) {d : Daemon} {rest : List Plugin}
    (hplugins : d.plugins = .attributes :: rest) (hcollect : d.enableDataCollection = true)
    (buffer beyond : List UInt8) :
    (Ipc.round d buffer ⟨.datagram (message padding timestamp text) none, beyond⟩).1
      = [.queued (65 :: (timeBytes timestamp ++ (text ++ [0])))] := by
  have hlen : (message padding timestamp text).length = 24 + text.length + 1 := by
    simp only [message, List.length_append, List.length_ofFn, timeBytes_length,
      List.length_singleton]
    have : (ascii "ATTRIBUTES").length = 10 := by decide +kernel
    omega
  have htake : (message padding timestamp text).take rxBufferSize
      = message padding timestamp text := List.take_of_length_le (by omega)
  have hmatch : Plugin.attributes.Matches (message padding timestamp text)
      (message padding timestamp text).length := by
    refine ⟨by decide +kernel, ?_, ?_⟩
    · have : Plugin.attributes.ipcName.length = 10 := by decide +kernel
      omega
    · refine ⟨List.ofFn padding ++ timeBytes timestamp ++ text ++ [0], ?_⟩
      simp only [message, Plugin.ipcName, List.append_assoc]
  have hfind : findPlugin (message padding timestamp text)
      (message padding timestamp text).length d.plugins = some .attributes := by
    rw [hplugins, findPlugin, if_pos hmatch]
  simp only [Ipc.round, htake, List.append_assoc]
  rw [if_neg (by omega)]
  simp only [ticosdPluginsProcessIpc, findPlugin_append, hfind, Plugin.msgHandler, ticosdTxdata,
    hcollect, if_true]
  rw [buildQueueEntry_message padding timestamp h]

/-- The transmit loop makes a PATCH of the entry. -/
theorem requestOf_entry (env : TxEnv) (timestamp : Int) (h : 0 ∉ text) :
    requestOf env (65 :: (timeBytes timestamp ++ (text ++ [0]))) =
      some (.networkPost ("/api/v0/attributes?device_serial=" ++ env.deviceId
        ++ "&captured_date=" ++ env.isoTimestamp (timeBytes timestamp)) .patch text) := by
  have htype : (65 :: (timeBytes timestamp ++ (text ++ [0]))).headD 0 = 65 := rfl
  have htime : ((65 :: (timeBytes timestamp ++ (text ++ [0]))).drop 1).take 8
      = timeBytes timestamp := by
    rw [List.drop_one, List.tail_cons, ← timeBytes_length timestamp, List.take_left]
  have hjson : (65 :: (timeBytes timestamp ++ (text ++ [0]))).drop 9 = text ++ [0] := by
    rw [List.drop_succ_cons, ← timeBytes_length timestamp, List.drop_left]
  have hstring : cString (text ++ [0]) = text := by
    rw [cString_append_of_not_mem h]
    exact List.append_nil text
  simp only [requestOf, htype, htime, hjson, hstring]
  rw [if_neg (by decide), if_neg (by decide), if_pos (by decide)]

/-- Every request is dated by the value of the comparison. -/
theorem isoTimestamp_one : isoTimestamp (timeBytes 1) = textOf (isoText (gmtime 1)) := by
  have htime : timeOfBytes (timeBytes 1) = 1 := by decide +kernel
  have hfits : strftimeIso 21 1 = some (isoText (gmtime 1)) := by decide +kernel
  rw [isoTimestamp, htime, hfits, Option.getD_some]

theorem textOf_inj {a b : List UInt8} (h : textOf a = textOf b) : a = b := by
  have hlists : a.map (fun b => Char.ofNat b.toNat) = b.map (fun b => Char.ofNat b.toNat) := by
    have := congrArg String.toList h
    rw [textOf, textOf, String.toList_ofList, String.toList_ofList] at this
    exact this
  refine List.map_injective_iff.mpr ?_ hlists
  intro x y hxy
  have key : ∀ b : UInt8, (Char.ofNat b.toNat).toNat = b.toNat := by decide +kernel
  have := congrArg Char.toNat hxy
  rw [key x, key y] at this
  exact UInt8.toNat_inj.mp this

/-- The requests of a message: the text as it was, dated one second after the
    epoch. -/
theorem requestsOf_message (padding : Fin 5 → UInt8) (h : 0 ∉ text)
    (hsize : 24 + text.length + 1 ≤ rxBufferSize) {d : Daemon} {rest : List Plugin}
    (hplugins : d.plugins = .attributes :: rest) (hcollect : d.enableDataCollection = true)
    (env : TxEnv) (buffer beyond : List UInt8) :
    requestsOf env (Ipc.round d buffer ⟨.datagram (message padding 1 text) none, beyond⟩).1
      = [.networkPost (attributesPath env 1) .patch text] := by
  rw [round_message padding 1 h hsize hplugins hcollect, requestsOf, List.filterMap_cons]
  simp only [requestOf_entry _ 1 h, isoTimestamp_one, List.filterMap_nil]
  rfl

/-- Requests of different times differ. -/
theorem networkPost_one {env : TxEnv} {t : Int} (hpos : 0 < t)
    (heq : [Request.networkPost (attributesPath env 1) .patch text]
      = [Request.networkPost (attributesPath env t) .patch text]) : t = 1 := by
  have hpath : attributesPath env 1 = attributesPath env t := by
    injection (List.cons_eq_cons.mp heq).1
  have htext : textOf (isoText (gmtime 1)) = textOf (isoText (gmtime t)) :=
    (String.append_right_inj _).mp hpath
  exact isoText_one hpos (textOf_inj htext).symm

/-- **Attributes arrive as sent, but for their time**: every accepted attribute
    list that fits the receive buffer leads to one PATCH with the JSON text of
    `ticosctl` as its body, and its captured date is the time of sending exactly
    if that was second 1 of the epoch. -/
theorem attributes_arrive (jc : JsonC J) (padding : Fin 5 → UInt8) (argv : List (List UInt8))
    (t : Int) (json : J) (d : Daemon) (rest : List Plugin) (env : TxEnv)
    (buffer beyond : List UInt8)
    (hplugins : d.plugins = .attributes :: rest) (hcollect : d.enableDataCollection = true)
    (hparse : ticosdParseAttributes jc argv = some json)
    (hsize : 24 + (cString (jc.toJsonString json)).length + 1 ≤ rxBufferSize)
    (hpos : 0 < t) :
    ∃ msg, prvCmdWriteAttributes jc padding t argv = some msg ∧
      (∃ path, requestsOf env (Ipc.round d buffer ⟨.datagram msg none, beyond⟩).1
        = [.networkPost path .patch (cString (jc.toJsonString json))]) ∧
      (requestsOf env (Ipc.round d buffer ⟨.datagram msg none, beyond⟩).1
        = [.networkPost (attributesPath env t) .patch (cString (jc.toJsonString json))] ↔ t = 1) := by
  have hnul := not_mem_cString (jc.toJsonString json)
  have hstamp : messageTimestamp t = 1 := if_pos hpos
  have hrequests := requestsOf_message padding hnul hsize hplugins hcollect env buffer beyond
  refine ⟨message padding 1 (cString (jc.toJsonString json)), ?_, ⟨_, hrequests⟩, ?_⟩
  · simp only [prvCmdWriteAttributes, hparse, hstamp, message]
    rfl
  · rw [hrequests]
    constructor
    · exact networkPost_one hpos
    · rintro rfl
      rfl

/-- Texts with a separator between them. -/
def joined (sep : List UInt8) : List (List UInt8) → List UInt8
  | [] => []
  | [x] => x
  | x :: rest => x ++ sep ++ joined sep rest

/-- json-c on plain words and decimal numbers, with its objects given as the text
    they are written as. -/
def plainJson : JsonC (List UInt8) where
  tokenerParse := fun value =>
    if value ≠ [] ∧ value.all Decimal.isDigit = true then some value else none
  getType := fun _ => .other
  newString := fun s => ascii "\"" ++ s ++ ascii "\""
  newObject := fun fields => ascii "\x7b " ++
    joined (ascii ", ") (fields.map fun f => ascii "\"" ++ f.1 ++ ascii "\": " ++ f.2) ++
    ascii " \x7d"
  newArray := fun items => ascii "[ " ++ joined (ascii ", ") items ++ ascii " ]"
  toJsonString := fun json => json ++ [0]

/-- `ticosctl write-attributes a=1`. -/
def sampleText : List UInt8 :=
  ascii "[ \x7b \"string_key\": \"a\", \"value\": 1 \x7d ]"

def sampleEnv : TxEnv where
  enableDataCollection := some true
  deviceId := "device"
  isoTimestamp := isoTimestamp
  malloc := fun _ => true
  asprintf := fun _ => true
  network := fun _ _ => .ok

theorem attributes_arrive_sample :
    ticosdParseAttributes plainJson [ascii "a=1"] = some sampleText ∧
    ∃ msg, prvCmdWriteAttributes plainJson (fun _ => 170) 1 [ascii "a=1"] = some msg ∧
      (∃ path, requestsOf sampleEnv
        (Ipc.round fullDaemon zeroBuffer ⟨.datagram msg none, []⟩).1
          = [.networkPost path .patch (cString (plainJson.toJsonString sampleText))]) ∧
      (requestsOf sampleEnv (Ipc.round fullDaemon zeroBuffer ⟨.datagram msg none, []⟩).1
        = [.networkPost (attributesPath sampleEnv 1) .patch
            (cString (plainJson.toJsonString sampleText))] ↔ (1 : Int) = 1) :=
  ⟨by decide +kernel, attributes_arrive plainJson (fun _ => 170) [ascii "a=1"] 1 sampleText
    fullDaemon _ sampleEnv zeroBuffer [] rfl rfl (by decide +kernel) (by decide +kernel)
    (by decide)⟩

/-- Sent at 2022-11-30T11:24:00Z, the attribute is not dated so. -/
theorem attributes_dated_1970 :
    ∃ msg, prvCmdWriteAttributes plainJson (fun _ => 0) 1669807440 [ascii "a=1"] = some msg ∧
      requestsOf sampleEnv (Ipc.round fullDaemon zeroBuffer ⟨.datagram msg none, []⟩).1
        ≠ [.networkPost (attributesPath sampleEnv 1669807440) .patch sampleText] := by
  refine ⟨message (fun _ => 0) 1 sampleText, by decide +kernel, ?_⟩
  rw [requestsOf_message (fun _ => 0) (by decide +kernel) (by decide +kernel) rfl rfl]
  intro heq
  exact absurd (networkPost_one (by decide) heq) (by decide)

end Attributes
