import Ticosd.QueueModel
import Ticosd.CText

/-! # The transmit loop — `prv_ticosd_process_tx_queue` of `ticosd.c`

    The transmit thread takes the head of the queue, makes a request of it by
    its type byte, and completes the read when the network answers with
    something that is not worth a retry.

    The network, the allocator and the clock are outside: `TxEnv` gives their
    answer in each round of the loop. -/

namespace TxQueue

open QueueModel CText

/-- `eTicosdNetworkResult`. -/
inductive NetworkResult where
  | ok
  | errorRetryLater
  | errorNoRetry
  deriving DecidableEq

/-- `eTicosdHttpMethod`, the two methods of the loop. -/
inductive HttpMethod where
  | post
  | patch
  deriving DecidableEq

/-- A call into `network.c`. -/
inductive Request where
  | networkPost (path : String) (method : HttpMethod) (payload : List UInt8)
  | networkFileUpload (path : String) (payload : List UInt8) (isGzipped : Bool)

/-- What the surroundings of the loop answer, by round. -/
structure TxEnv where
  /-- `ticosd_get_boolean(.., "enable_data_collection", ..)`: `none` if it is not set. -/
  enableDataCollection : Option Bool
  deviceId : String
  /-- `strftime` of the eight bytes of a `time_t`. -/
  isoTimestamp : List UInt8 → String
  malloc : Nat → Bool
  asprintf : Nat → Bool
  network : Nat → Request → NetworkResult

/-- The `switch` on `txdata->type`; `none` is an unrecognised type. -/
def requestOf (env : TxEnv) (entry : List UInt8) : Option Request :=
  let type := entry.headD 0
  if type = 'R'.toUInt8 then
    some (.networkPost ("/chunks/" ++ env.deviceId ++ "/json") .post (cString (entry.drop 1)))
  else if type = 'C'.toUInt8 ∨ type = 'c'.toUInt8 then
    some (.networkFileUpload ("/chunks/" ++ env.deviceId ++ "/url") (cString (entry.drop 1))
      (decide (type = 'c'.toUInt8)))
  else if type = 'A'.toUInt8 then
    some (.networkPost ("/api/v0/attributes?device_serial=" ++ env.deviceId
      ++ "&captured_date=" ++ env.isoTimestamp ((entry.drop 1).take 8)) .patch
      (cString (entry.drop 9)))
  else
    none

/-- The value of `rc` after the `switch`. -/
def sendEntry (env : TxEnv) (round : Nat) (entry : List UInt8) : NetworkResult :=
  match requestOf env entry with
  | none => .errorNoRetry
  | some request =>
      if env.asprintf round = false then .errorRetryLater else env.network round request

/-- The loop of `prv_ticosd_process_tx_queue`: its result, the number of messages
    transmitted and the queue, or `none` while it is still running after `fuel`
    rounds. -/
def processTxLoop (env : TxEnv) : Nat → Nat → TicosdQueue → Option (Bool × Nat × TicosdQueue)
  | 0, _, _ => none
  | fuel + 1, count, q =>
      let head := (ticosdQueueReadHead q (env.malloc count)).val
      match head.1 with
      | none => some (true, count, head.2)
      | some entry =>
          if sendEntry env count entry = .errorRetryLater then some (false, count, head.2)
          else processTxLoop env fuel (count + 1) (ticosdQueueCompleteRead head.2).val.2

/-- `prv_ticosd_process_tx_queue`. -/
def prvTicosdProcessTxQueue (env : TxEnv) (fuel : Nat) (q : TicosdQueue) :
    Option (Bool × Nat × TicosdQueue) :=
  if env.enableDataCollection = some true then processTxLoop env fuel 0 q
  else some (true, 0, q)

end TxQueue
