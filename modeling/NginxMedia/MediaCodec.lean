import NginxMedia.ByteString
import NginxMedia.MediaTypes

/-! The elementary-stream formats of `ngx_media_nal.c` and `ngx_media_aac.c`: Annex B NAL
units and their classes, ADTS headers and the AudioSpecificConfig. Nothing is decoded. -/
namespace MediaCodec

open MediaTypes ByteString

def startCode : List UInt8 → Option (ℕ × ℕ)
  | [] => none
  | x :: rest =>
    match x, rest with
    | 0, 0 :: 0 :: 1 :: _ => some (0, 4)
    | 0, 0 :: 1 :: _ => some (0, 3)
    | _, _ => (startCode rest).map fun sc => (sc.1 + 1, sc.2)

theorem startCode_size {bytes : List UInt8} {o n : ℕ} (h : startCode bytes = some (o, n)) :
    3 ≤ n ∧ o + n ≤ bytes.length := by
  induction bytes generalizing o n with
  | nil => cases h
  | cons x rest ih =>
    unfold startCode at h
    split at h
    · cases h
      exact ⟨by omega, by simp⟩
    · cases h
      exact ⟨by omega, by simp⟩
    · rw [Option.map_eq_some_iff] at h
      obtain ⟨sc, hsc, he⟩ := h
      obtain ⟨ho, hn⟩ := Prod.mk.inj he
      obtain ⟨h3, hle⟩ := ih hsc
      rw [List.length_cons]
      omega

def trimZeros (nal : List UInt8) : List UInt8 := (nal.reverse.dropWhile (· = 0)).reverse

/-- What `ngx_media_nal_iter_next()` hands out until it returns 0; empty units are skipped. -/
def nals (bytes : List UInt8) : List (List UInt8) :=
  match _hsc : startCode bytes with
  | none => []
  | some (o, n) =>
    let start := bytes.drop (o + n)
    let size := match startCode start with
      | none => start.length
      | some (next, _) => next
    let nal := trimZeros (start.take size)
    let rest := nals (start.drop size)
    if nal = [] then rest else nal :: rest
termination_by bytes.length
decreasing_by
  obtain ⟨h3, hle⟩ := startCode_size _hsc
  rw [List.length_drop, List.length_drop]
  omega

def nalType (codec : Codec) (nal : List UInt8) : ℕ :=
  if nal = [] then 0
  else if codec = .h265 then byteAt nal 0 / 2 % 64 else byteAt nal 0 % 32

/-- `ngx_media_nal_is_vcl()`: H.264 slices to IDR, H.265 below the parameter sets. -/
def isVcl (codec : Codec) (type : ℕ) : Bool :=
  if codec = .h265 then decide (type ≤ 31) else decide (1 ≤ type ∧ type ≤ 5)

def isConfig (codec : Codec) (type : ℕ) : Bool :=
  if codec = .h265 then decide (type = 32 ∨ type = 33 ∨ type = 34)
  else decide (type = 7 ∨ type = 8)

/-- `ngx_media_nal_is_keyframe()`: IDR, or the IRAP pictures from BLA_W_LP to CRA. -/
def isKeyframe (codec : Codec) (type : ℕ) : Bool :=
  if codec = .h265 then decide (16 ≤ type ∧ type ≤ 21) else decide (type = 5)

def adtsHeaderMin : ℕ := 7

def sampleRates : List ℕ :=
  [96000, 88200, 64000, 48000, 44100, 32000, 24000, 22050, 16000, 12000, 11025, 8000, 7350]

structure Adts where
  frameLen : ℕ
  headerLen : ℕ
  objectType : ℕ
  sampleRate : ℕ
  channels : ℕ
  deriving DecidableEq, Repr

def adtsParse (p : List UInt8) : Option Adts :=
  if p.length < adtsHeaderMin then none
  else if byteAt p 0 ≠ 0xFF ∨ byteAt p 1 / 16 ≠ 0xF then none
  else
    let headerLen := if byteAt p 1 % 2 = 1 then 7 else 9
    if p.length < headerLen then none
    else
      match sampleRates[byteAt p 2 / 4 % 16]? with
      | none => none
      | some rate =>
        let channels := byteAt p 2 % 2 * 4 + byteAt p 3 / 64
        let frameLen := byteAt p 3 % 4 * 2048 + byteAt p 4 * 8 + byteAt p 5 / 32
        if channels = 0 then none
        else if frameLen < headerLen then none
        else some ⟨frameLen, headerLen, byteAt p 2 / 64 + 1, rate, channels⟩

theorem adtsParse_header {p : List UInt8} {adts : Adts} (h : adtsParse p = some adts) :
    7 ≤ adts.headerLen ∧ adts.headerLen ≤ adts.frameLen ∧ adts.headerLen ≤ p.length := by
  unfold adtsParse at h
  dsimp only at h
  have hlen : 7 ≤ (if byteAt p 1 % 2 = 1 then 7 else 9) := by
    split_ifs <;> omega
  generalize (if byteAt p 1 % 2 = 1 then 7 else 9) = headerLen at h hlen
  rw [if_neg (fun hn => by rw [if_pos hn] at h; cases h)] at h
  rw [if_neg (fun hn => by rw [if_pos hn] at h; cases h)] at h
  by_cases hshort : p.length < headerLen
  · rw [if_pos hshort] at h
    cases h
  rw [if_neg hshort] at h
  cases hr : sampleRates[byteAt p 2 / 4 % 16]? with
  | none =>
    rw [hr] at h
    cases h
  | some rate =>
    rw [hr] at h
    dsimp only at h
    split_ifs at h with hch hframe
    obtain rfl := Option.some.inj h
    dsimp only
    omega

theorem adtsParse_frameLen {p : List UInt8} {adts : Adts} (h : adtsParse p = some adts) :
    adts.frameLen < 8192 := by
  have h4 := byteAt_lt p 4
  have h5 := byteAt_lt p 5
  unfold adtsParse at h
  dsimp only at h
  generalize (if byteAt p 1 % 2 = 1 then 7 else 9) = headerLen at h
  cases hr : sampleRates[byteAt p 2 / 4 % 16]? with
  | none =>
    rw [hr] at h
    split_ifs at h
  | some rate =>
    rw [hr] at h
    dsimp only at h
    split_ifs at h
    rw [← Option.some.inj h]
    dsimp only
    omega

def rateIndex (rate : ℕ) : ℕ := sampleRates.findIdx (· = rate)

def audioSpecificConfig (adts : Adts) : Option Payload :=
  if adts.sampleRate = 0 then none
  else if rateIndex adts.sampleRate = sampleRates.length then none
  else
    some [low (adts.objectType % 32 * 8 + rateIndex adts.sampleRate / 2 % 8),
      low (rateIndex adts.sampleRate % 2 * 128 + adts.channels % 16 * 8)]

def adtsWrite (adts : Adts) : Option Payload :=
  if adts.frameLen > 0x1FFF ∨ adts.objectType < 1 ∨ adts.objectType > 4 ∨ adts.channels < 1 ∨
      adts.channels > 7 then none
  else if rateIndex adts.sampleRate = sampleRates.length then none
  else
    some [0xFF, 0xF1,
      low ((adts.objectType - 1) * 64 + rateIndex adts.sampleRate * 4 + adts.channels / 4 % 2),
      low (adts.channels % 4 * 64 + adts.frameLen / 2048 % 4),
      low (adts.frameLen / 8), low (adts.frameLen % 8 * 32 + 31), 0xFC]

end MediaCodec
