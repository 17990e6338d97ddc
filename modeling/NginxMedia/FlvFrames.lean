import NginxMedia.NalConversion
import NginxMedia.RtmpIngest
import NginxMedia.RtmpPrepare

/-! The media frames of a program as FLV messages: `ngx_media_rtmp_prepare_frame()`, and what a
video message holds of the frame it was made from. -/
namespace FlvFrames

open MediaTypes MediaCodec ByteString RtmpPublisher RtmpPrepare RtmpIngest
open AnnexB LengthPrefixed NalConversion

variable {mem : ℕ → Bool} {p : Prepare} {frame : Frame} {units : List (Bool × List UInt8)}

def messageTime (ticks : ℤ) : UInt32 := UInt32.ofNat (ticks.tdiv timescale % 2 ^ 32).toNat

def compositionTime (frame : Frame) : ℤ := (frame.pts - frame.dts).tdiv timescale

def frameType (frame : Frame) : ℕ := if frame.keyframe then 1 else 2

/-- What stands in front of the composition time; FLV has no legacy form of H.265. -/
def videoTag (frame : Frame) : List UInt8 :=
  if frame.codec = .h265 then low (0x80 + frameType frame * 16 + 1) :: fourccHevc
  else [low (frameType frame * 16 + 7), 1]

def videoHeader (frame : Frame) : List UInt8 := videoTag frame ++ ctsBytes (compositionTime frame)

def headerLength (codec : Codec) : ℕ := if codec = .h265 then 8 else 5

inductive Made where
  | none
  | refused
  | skipped
  | unit (unit : RtmpFanout.Push)

def frameBody (mem : ℕ → Bool) (frame : Frame) (type : ℕ) (header : List UInt8)
    (converted : Payload) : Made :=
  if !mem (converted.length + header.length) then .refused
  else
    .unit ⟨type, frame.trackIndex, messageTime frame.dts, header ++ converted, frame.keyframe,
      false⟩

def frameMade (mem : ℕ → Bool) (p : Prepare) (frame : Frame) : Made :=
  match frame.mediaType, frame.payload with
  | .data, _ => .none
  | _, none => .none
  | .video, some payload =>
    let capacity := payload.length + 4
    if !mem capacity then .refused
    else
      match payloadToAvcc payload p.nalLengthSize capacity with
      | none => .skipped
      | some converted => frameBody mem frame 9 (videoHeader frame) converted
  | .audio, some payload =>
    let header := ((adtsParse payload).map (·.headerLen)).getD 0
    if header ≥ payload.length then .skipped
    else if !mem (payload.length - header) then .refused
    else frameBody mem frame 8 [0xAF, 1] (payload.drop header)

def prepareFrame (mem : ℕ → Bool) (p : Prepare) (frame : Frame) : Prepare × Rc :=
  match frameMade mem p frame with
  | .none => (p, .ok)
  | .refused => (p, .error)
  | .skipped => ({ p with skipped := p.skipped + 1 }, .ok)
  | .unit unit => ({ p with fan := RtmpFanout.push p.fan unit }, .ok)

/-- What a program gives its RTMP output: the tracks of a new contract, and frames. -/
inductive Call where
  | sequence (mediaType : MediaType) (track : Track)
  | frame (frame : Frame)

def step (p : Prepare) (call : (ℕ → Bool) × Call) : Prepare :=
  match call.2 with
  | .sequence mediaType track => (prepareSequence call.1 p mediaType track).prep
  | .frame frame => (prepareFrame call.1 p frame).1

def run (units maxBytes : ℕ) (calls : List ((ℕ → Bool) × Call)) : Prepare :=
  calls.foldl step (init units maxBytes)

theorem sequenceBody_size (mediaType : MediaType) (track : Track) (record body : List UInt8) :
    (sequenceBody mem p mediaType track record body).prep.nalLengthSize = p.nalLengthSize := by
  unfold sequenceBody
  split <;> rfl

theorem prepareSequence_size (mediaType : MediaType) (track : Track) :
    (prepareSequence mem p mediaType track).prep.nalLengthSize = p.nalLengthSize := by
  unfold prepareSequence
  split
  · rfl
  split
  · split
    · unfold hevcSequence
      split
      · split
        · rfl
        split
        · rfl
        · exact sequenceBody_size _ _ _ _
      · rfl
    · unfold avcSequence
      split
      · split
        · rfl
        split
        · rfl
        · exact sequenceBody_size _ _ _ _
      · rfl
  · exact sequenceBody_size _ _ _ _

theorem prepareFrame_size (frame : Frame) :
    (prepareFrame mem p frame).1.nalLengthSize = p.nalLengthSize := by
  unfold prepareFrame
  split <;> rfl

theorem run_size (units maxBytes : ℕ) (calls : List ((ℕ → Bool) × Call)) :
    (run units maxBytes calls).nalLengthSize = 4 := by
  have hstep : ∀ (p : Prepare) (call : (ℕ → Bool) × Call),
      (step p call).nalLengthSize = p.nalLengthSize := by
    intro p call
    unfold step
    split
    · exact prepareSequence_size _ _
    · exact prepareFrame_size _
  have hrun : ∀ (calls : List ((ℕ → Bool) × Call)) (p : Prepare), p.nalLengthSize = 4 →
      (calls.foldl step p).nalLengthSize = 4 := by
    intro calls
    induction calls with
    | nil => exact fun p hp => hp
    | cons call calls ih => exact fun p hp => ih _ ((hstep p call).trans hp)
  exact hrun calls _ rfl

theorem flvCts_ctsBytes (cts : ℤ) (rest : List UInt8) :
    flvCts (ctsBytes cts ++ rest) 0 = cts ↔ -2 ^ 23 ≤ cts ∧ cts < 2 ^ 23 := by
  have hbytes : be24 (ctsBytes cts ++ rest) 0 = (cts % 2 ^ 24).toNat := by
    rw [ctsBytes, be24_put24]
    omega
  rw [flvCts, hbytes]
  split <;> constructor <;> intro h <;> omega

theorem length_videoTag (frame : Frame) :
    (videoTag frame).length = headerLength frame.codec - 3 := by
  unfold videoTag headerLength
  split <;> rfl

theorem length_videoHeader (frame : Frame) :
    (videoHeader frame).length = headerLength frame.codec := by
  rw [videoHeader, List.length_append, length_videoTag, ctsBytes, put24_length]
  unfold headerLength
  split <;> rfl

theorem flvCts_videoHeader (frame : Frame) (rest : List UInt8) :
    flvCts (videoHeader frame ++ rest) (headerLength frame.codec - 3) =
      flvCts (ctsBytes (compositionTime frame) ++ rest) 0 := by
  have hshift := be24_add (length_videoTag frame) (ctsBytes (compositionTime frame) ++ rest) 0
  rw [Nat.add_zero] at hshift
  rw [videoHeader, List.append_assoc, flvCts, hshift, flvCts]

structure Carries (frame : Frame) (nals : List (List UInt8)) (unit : RtmpFanout.Push) : Prop where
  type : unit.type = 9
  track : unit.track = frame.trackIndex
  time : unit.timestamp = messageTime frame.dts
  keyframe : unit.keyframe = frame.keyframe
  composition : flvCts unit.payload (headerLength frame.codec - 3) = compositionTime frame
  nals : split 4 (unit.payload.drop (headerLength frame.codec)) = some nals

/-- The short start codes of a stream. -/
def shorts (units : List (Bool × List UInt8)) : ℕ := (units.filter (·.1)).length

theorem length_join_mixed (units : List (Bool × List UInt8)) :
    (join 4 (units.map Prod.snd)).length = (mixed units).length + shorts units := by
  induction units with
  | nil => rfl
  | cons unit units ih =>
    obtain ⟨short, nal⟩ := unit
    rw [List.map_cons, join_cons, mixed_cons]
    cases short <;>
      simp only [shorts, List.filter_cons, startBytes, List.length_append, length_bigEndian, ih,
        List.length_cons, List.length_nil, if_true, if_false, Bool.false_eq_true] <;> omega

def videoPush (frame : Frame) (units : List (Bool × List UInt8)) : RtmpFanout.Push :=
  ⟨9, frame.trackIndex, messageTime frame.dts, videoHeader frame ++ join 4 (units.map Prod.snd),
    frame.keyframe, false⟩

theorem frameMade_video (hsize : p.nalLengthSize = 4) (hmem : ∀ n, mem n = true)
    (hvideo : frame.mediaType = .video) (hpayload : frame.payload = some (mixed units))
    (hne : units ≠ []) (hwhole : ∀ unit ∈ units, Whole unit.2) :
    frameMade mem p frame =
      if shorts units ≤ 4 then .unit (videoPush frame units) else .skipped := by
  have hnals := nals_mixed hwhole
  have hsome : nals (mixed units) ≠ [] := by
    rw [hnals]
    simpa using hne
  have hlength := length_join_mixed units
  have hconverted : payloadToAvcc (mixed units) p.nalLengthSize ((mixed units).length + 4) =
      if shorts units ≤ 4 then some (join 4 (units.map Prod.snd)) else none := by
    rw [hsize, payloadToAvcc_eq (by decide), hnals]
    exact if_congr ⟨fun h => by omega, fun h => ⟨hnals ▸ hsome, by omega⟩⟩ rfl rfl
  unfold frameMade
  rw [hvideo, hpayload]
  dsimp only
  rw [hmem, hconverted]
  by_cases hfew : shorts units ≤ 4
  · rw [if_pos hfew, if_pos hfew, if_neg (by decide)]
    dsimp only
    rw [frameBody, hmem, if_neg (by decide)]
    rfl
  · rw [if_neg hfew, if_neg hfew, if_neg (by decide)]

theorem carries_videoPush (frame : Frame) (units : List (Bool × List UInt8)) :
    Carries frame (units.map Prod.snd) (videoPush frame units) ↔
      (∀ unit ∈ units, unit.2.length < 2 ^ 32) ∧
        -2 ^ 23 ≤ compositionTime frame ∧ compositionTime frame < 2 ^ 23 := by
  have hcts : flvCts (videoPush frame units).payload (headerLength frame.codec - 3) =
      compositionTime frame ↔
        -2 ^ 23 ≤ compositionTime frame ∧ compositionTime frame < 2 ^ 23 := by
    rw [videoPush, flvCts_videoHeader]
    exact flvCts_ctsBytes _ _
  have hdrop : (videoPush frame units).payload.drop (headerLength frame.codec) =
      join 4 (units.map Prod.snd) := List.drop_left' (length_videoHeader frame)
  constructor
  · intro h
    have hsplit := h.nals
    rw [hdrop] at hsplit
    refine ⟨fun unit hunit => ?_, hcts.mp h.composition⟩
    exact (split_sound hsplit).2 unit.2 (List.mem_map_of_mem hunit)
  · rintro ⟨hlengths, hrange⟩
    refine ⟨rfl, rfl, rfl, rfl, hcts.mpr hrange, ?_⟩
    rw [hdrop]
    refine split_join (by decide) fun nal hnal => ?_
    obtain ⟨unit, hunit, rfl⟩ := List.mem_map.mp hnal
    exact hlengths unit hunit

/-- A frame becomes a message with all its units where at most four of its start codes are short,
and what the format has bytes for is within them. -/
theorem frame_kept_iff (window maxBytes : ℕ) (calls : List ((ℕ → Bool) × Call))
    (hmem : ∀ n, mem n = true) (hvideo : frame.mediaType = .video)
    (hpayload : frame.payload = some (mixed units)) (hne : units ≠ [])
    (hwhole : ∀ unit ∈ units, Whole unit.2) :
    (∃ unit, frameMade mem (run window maxBytes calls) frame = .unit unit ∧
        Carries frame (units.map Prod.snd) unit) ↔
      shorts units ≤ 4 ∧ (∀ unit ∈ units, unit.2.length < 2 ^ 32) ∧
        -2 ^ 23 ≤ compositionTime frame ∧ compositionTime frame < 2 ^ 23 := by
  rw [frameMade_video (run_size window maxBytes calls) hmem hvideo hpayload hne hwhole,
    ← carries_videoPush]
  by_cases hfew : shorts units ≤ 4
  · rw [if_pos hfew]
    constructor
    · rintro ⟨unit, hunit, hcarries⟩
      obtain rfl := Made.unit.inj hunit
      exact ⟨hfew, hcarries⟩
    · rintro ⟨-, hcarries⟩
      exact ⟨_, rfl, hcarries⟩
  · rw [if_neg hfew]
    constructor
    · rintro ⟨unit, hunit, -⟩
      cases hunit
    · rintro ⟨hfew', -⟩
      exact absurd hfew' hfew

/-- A picture of so many slices behind short start codes. -/
def sliced (n : ℕ) : Frame :=
  ⟨.video, .h264, .annexb, 0, 3600, 0, true, false,
    some (mixed (List.replicate n (true, [0x65, 0x88])))⟩

theorem sliced_whole (n : ℕ) :
    ∀ unit ∈ List.replicate n (true, ([0x65, 0x88] : List UInt8)), Whole unit.2 := by
  intro unit hunit
  obtain rfl := List.eq_of_mem_replicate hunit
  exact ⟨by decide, [0x65], 0x88, rfl, by decide⟩

theorem five_slices_dropped :
    ¬∃ unit, frameMade (fun _ => true) (run 0 0 []) (sliced 5) = .unit unit ∧
      Carries (sliced 5) (List.replicate 5 [0x65, 0x88]) unit := by
  rintro ⟨unit, hunit, -⟩
  have hdropped : frameMade (fun _ => true) (run 0 0 []) (sliced 5) = .skipped :=
    (frameMade_video (run_size 0 0 []) (fun _ => rfl) rfl rfl (by decide) (sliced_whole 5)).trans
      (if_neg (by decide))
  rw [hdropped] at hunit
  cases hunit

theorem frame_kept_four_slices :
    ∃ unit, frameMade (fun _ => true) (run 0 0 []) (sliced 4) = .unit unit ∧
      Carries (sliced 4) (List.replicate 4 [0x65, 0x88]) unit :=
  (frame_kept_iff 0 0 [] (fun _ => rfl) rfl rfl (by decide) (sliced_whole 4)).mpr
    ⟨by decide, by decide, by decide, by decide⟩

end FlvFrames
