import RateGovernor.Binary.Basic

/-!
# Encoding parameters
-/

namespace RateGovernor

/-- What a codec is configured with: its bitrate ceiling and first target in bits per second, where
a ceiling that is not positive means none, and the frame rate that holds until one is measured. -/
structure EncodingParameters where
  maxBitrate : Int32
  targetBitrate : UInt32
  frameRate : Single
  deriving DecidableEq

namespace EncodingParameters

def zero : EncodingParameters := ⟨0, 0, 0⟩

instance : Inhabited EncodingParameters := ⟨zero⟩

/-- The same parameters with a frame rate that is not negative and not a NaN. -/
def clamped (p : EncodingParameters) : EncodingParameters :=
  { p with frameRate := p.frameRate.positivePart }

/-- A bitrate held to the ceiling, if there is one. -/
def cap (p : EncodingParameters) (bitrate : UInt32) : UInt32 :=
  if 0 < p.maxBitrate then min bitrate p.maxBitrate.toUInt32 else bitrate

end EncodingParameters

/-- Bits per second in kilobits per second. -/
def kilobitsPerSecond (bitrate : UInt32) : Single := .ofNat bitrate.toNat / 1000

end RateGovernor
