import Mathlib.Algebra.GroupWithZero.Nat
import Mathlib.Data.Int.Notation
import Mathlib.Logic.Function.Basic
import Mathlib.Tactic.Common

/-! Data shared by every subsystem: return codes, payload buffers, frames and tracks.
A buffer is frozen before it is shared, so it is its bytes; reference counts decide
only when memory is freed and are not part of a value. -/
namespace MediaTypes

inductive Rc where
  | ok
  | error
  | again
  | declined
  deriving DecidableEq, Repr

abbrev Payload := List UInt8

/-- `ngx_media_buf_size()`, zero for a null pointer as every caller has it. -/
def bufSize : Option Payload → ℕ
  | none => 0
  | some bytes => bytes.length

@[simp] theorem bufSize_none : bufSize none = 0 := rfl
@[simp] theorem bufSize_some (bytes : Payload) : bufSize (some bytes) = bytes.length := rfl

inductive MediaType where
  | video
  | audio
  | data
  deriving DecidableEq, Repr

inductive Codec where
  | none
  | h264
  | h265
  | aac
  deriving DecidableEq, Repr

inductive PayloadFormat where
  | annexb
  | avcc
  | adts
  | raw
  deriving DecidableEq, Repr

structure Frame where
  mediaType : MediaType
  codec : Codec
  payloadFormat : PayloadFormat
  trackIndex : ℕ
  pts : ℤ
  dts : ℤ
  keyframe : Bool
  config : Bool
  payload : Option Payload
  deriving DecidableEq, Repr

/-- `ngx_media_frame_init()`: every field zero. No enumeration here has a zero member
but `Codec.none`, so the first member stands for an unset media type or format. -/
def Frame.empty : Frame :=
  ⟨.video, .none, .annexb, 0, 0, 0, false, false, none⟩

def Frame.size (f : Frame) : ℕ := bufSize f.payload

@[simp] theorem Frame.size_empty : Frame.empty.size = 0 := rfl

structure Track where
  mediaType : MediaType
  codec : Codec
  payloadFormat : PayloadFormat
  profile : ℕ
  level : ℕ
  width : ℕ
  height : ℕ
  frameRateNum : ℕ
  frameRateDen : ℕ
  sampleRate : ℕ
  channels : ℕ
  config : Option Payload
  deriving DecidableEq, Repr

abbrev TrackSet := List Track

/-- The 64-bit unsigned subtraction of `ngx_msec_t` and `size_t`. -/
def wrapSub (a b : ℕ) : ℕ := (a + 2 ^ 64 - b % 2 ^ 64) % 2 ^ 64

end MediaTypes
