import RateGovernor.Decimal.Layout
import RateGovernor.Decimal.Reading
import RateGovernor.Dropper.LeakyBucket
import RateGovernor.Governor.Basic
import RateGovernor.Json.Record

/-!
# JSON forms

The JSON form of each public type. Integers have to be spelled as integers within the range of their
type, rates may be any numeral, and a rate that is not finite is written as null, which is not read
back.
-/

namespace RateGovernor.Json

/-- A type with a JSON form. -/
class Codec (α : Type) where
  encode : α → Value
  decode? : Value → Option α

export Codec (encode decode?)

variable {α : Type}

def toText [Codec α] (a : α) : String := (encode a).text

def ofText? [Codec α] (text : String) : Option α := do
  decode? (← Value.parse? text)

/-! ### Scalars -/

def Value.ofInt (n : Int) : Value := .number (.ofInt n)

/-- An integer between two bounds, both included. -/
def Value.integer? (low high : Int) : Value → Option Int
  | .number n => n.integer?.filter fun i => low ≤ i ∧ i ≤ high
  | _ => none

instance : Codec Bool where
  encode b := .bool b
  decode?
    | .bool b => some b
    | _ => none

instance : Codec UInt8 where
  encode n := .ofInt n.toNat
  decode? v := (v.integer? 0 (UInt8.size - 1)).map fun i => .ofNat i.toNat

instance : Codec UInt32 where
  encode n := .ofInt n.toNat
  decode? v := (v.integer? 0 (UInt32.size - 1)).map fun i => .ofNat i.toNat

instance : Codec UInt64 where
  encode n := .ofInt n.toNat
  decode? v := (v.integer? 0 (UInt64.size - 1)).map fun i => .ofNat i.toNat

instance : Codec Int32 where
  encode n := .ofInt n.toInt
  decode? v := (v.integer? Int32.minValue.toInt Int32.maxValue.toInt).map .ofInt

instance : Codec Int64 where
  encode n := .ofInt n.toInt
  decode? v := (v.integer? Int64.minValue.toInt Int64.maxValue.toInt).map .ofInt

/-- Rates always have a point or a power of ten; the point stands at most thirteen digits to the
right of the first digit and at most five zeros to its left, and of two equally near decimals the
even one is written. -/
def rateLayout : Layout := ⟨.toEven, fun position => -6 < position && position ≤ 13, true⟩

instance : Codec Single where
  encode x := ((rateLayout.numeral? x).map Value.number).getD .null
  decode?
    | .number n => n.toSingle?
    | _ => none

example : toText (30 : Single) = "30.0" := by decide +kernel
example : toText (65 / 512 : Single) = "0.12695312" := by decide +kernel
example : toText (100000000000000000000 : Single) = "1e+20" := by decide +kernel

instance : Codec (List UInt8) where
  encode bytes := .array (bytes.map encode)
  decode?
    | .array items => items.mapM decode?
    | _ => none

/-! ### Settings, frames and reports

Each of these is built from the values of its fields in declaration order.
-/

def estimatorConfigOf? : List Value → Option EstimatorConfig
  | [size, age] => return ⟨← decode? size, ← decode? age⟩
  | _ => none

instance : Codec EstimatorConfig where
  encode c := .record ["history_size", "max_age_ms"] [encode c.historySize, encode c.maxAge]
  decode? v := do estimatorConfigOf? (← v.fields? ["history_size", "max_age_ms"])

def bucketConfigOf? : List Value → Option BucketConfig
  | [window, spread] => return ⟨← decode? window, ← decode? spread⟩
  | _ => none

instance : Codec BucketConfig where
  encode c :=
    .record ["window_secs", "key_frame_spread_frames"] [encode c.window, encode c.keyFrameSpread]
  decode? v := do bucketConfigOf? (← v.fields? ["window_secs", "key_frame_spread_frames"])

def encodingParametersOf? : List Value → Option EncodingParameters
  | [max, target, rate] => return ⟨← decode? max, ← decode? target, ← decode? rate⟩
  | _ => none

instance : Codec EncodingParameters where
  encode p :=
    .record ["max_bitrate_bps", "target_bitrate_bps", "frame_rate_fps"]
      [encode p.maxBitrate, encode p.targetBitrate, encode p.frameRate]
  decode? v := do
    encodingParametersOf? (← v.fields? ["max_bitrate_bps", "target_bitrate_bps", "frame_rate_fps"])

def kindName : FrameKind → String
  | .key => "KeyFrame"
  | .delta => "DeltaFrame"

def kindOfName? (name : String) : Option FrameKind :=
  [FrameKind.key, .delta].find? (kindName · == name)

instance : Codec FrameKind where
  encode k := .string (some (kindName k))
  decode?
    | .string (some name) => kindOfName? name
    | .object [(some name, .null)] => kindOfName? name
    | _ => none

def encodedFrameOf? : List Value → Option EncodedFrame
  | [kind, data] => return ⟨← decode? kind, ← decode? data⟩
  | _ => none

instance : Codec EncodedFrame where
  encode f := .record ["frame_type", "data"] [encode f.kind, encode f.data]
  decode? v := do encodedFrameOf? (← v.fields? ["frame_type", "data"])

def reportNames : List String :=
  ["max_bitrate_bps", "target_bitrate_bps", "configured_frame_rate_fps", "input_frame_rate_fps",
    "frames_queried", "frames_dropped", "frames_encoded", "bytes_encoded", "dropping_enabled"]

def reportOf? : List Value → Option Report
  | [max, target, configured, input, queried, dropped, encoded, bytes, enabled] =>
    return ⟨← decode? max, ← decode? target, ← decode? configured, ← decode? input,
      ← decode? queried, ← decode? dropped, ← decode? encoded, ← decode? bytes,
      ← decode? enabled⟩
  | _ => none

instance : Codec Report where
  encode r :=
    .record reportNames
      [encode r.maxBitrate, encode r.targetBitrate, encode r.configuredFrameRate,
        encode r.inputFrameRate, encode r.framesQueried, encode r.framesDropped,
        encode r.framesEncoded, encode r.bytesEncoded, encode r.droppingEnabled]
  decode? v := do reportOf? (← v.fields? reportNames)

end RateGovernor.Json
