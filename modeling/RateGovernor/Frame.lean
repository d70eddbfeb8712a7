/-!
# Encoded frames
-/

namespace RateGovernor

/-- A key frame can be decoded on its own, a delta frame only after the frame before it. -/
inductive FrameKind where
  | key
  | delta
  deriving DecidableEq, Repr

structure EncodedFrame where
  kind : FrameKind
  data : List UInt8
  deriving DecidableEq, Repr

namespace EncodedFrame

def size (f : EncodedFrame) : Nat := f.data.length

def isEmpty (f : EncodedFrame) : Bool := f.data.isEmpty

def isKey (f : EncodedFrame) : Bool := f.kind == .key

def isDelta (f : EncodedFrame) : Bool := f.kind == .delta

end EncodedFrame

end RateGovernor
