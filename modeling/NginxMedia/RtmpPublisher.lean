import NginxMedia.RtmpConfig

/-! An RTMP publisher: audio and video messages, legacy and enhanced, become frames and
tracks of the core. `mem n` says whether a buffer of `n` bytes can be allocated; the frame
callback of the RTMP module accepts every frame. -/
namespace RtmpPublisher
open MediaTypes ByteString RtmpConfig

def timescale : ℤ := 90
def trackCapacity : ℕ := 4
def frameKeyframe : ℕ := 1

structure Publisher where
  tracks : TrackSet
  videoTrack : ℕ
  audioTrack : ℕ
  haveVideo : Bool
  haveAudio : Bool
  avcc : Avcc
  haveAvcc : Bool
  hvcc : Hvcc
  haveHvcc : Bool
  asc : Asc
  haveAsc : Bool
  lastDts : ℤ
  frames : ℕ
  configs : ℕ
  errors : ℕ
  skipped : ℕ

def init : Publisher :=
  ⟨[], 0, 0, false, false, Avcc.zero, false, Hvcc.zero, false, Asc.zero, false, 0, 0, 0, 0, 0⟩

/-- What a message makes the publisher hand out: a frame or the track list. -/
inductive Output where
  | frame (f : Frame)
  | tracks (set : TrackSet)
deriving DecidableEq

structure Fed where
  pub : Publisher
  out : List Output
  rc : Rc

def skip (pub : Publisher) : Fed := ⟨{ pub with skipped := pub.skipped + 1 }, [], .ok⟩
def bad (pub : Publisher) : Fed := ⟨{ pub with errors := pub.errors + 1 }, [], .ok⟩

def fail (pub : Publisher) : Fed := ⟨pub, [], .error⟩

def trackAdd (set : TrackSet) (track : Track) : Option TrackSet :=
  if set.length ≥ trackCapacity then none else some (set ++ [track])

def flvCts (data : List UInt8) (i : ℕ) : ℤ :=
  if be24 data i ≥ 2 ^ 23 then be24 data i - 2 ^ 24 else be24 data i

def emit (payload : Payload) (mediaType : MediaType) (codec : Codec) (format : PayloadFormat)
    (trackIndex : ℕ) (pts dts : ℤ) (keyframe config : Bool) : Output :=
  .frame ⟨mediaType, codec, format, trackIndex, pts, dts, keyframe, config, some payload⟩

def nalLength (data : List UInt8) (pos : ℕ) : ℕ → ℕ
  | 0 => 0
  | n + 1 => nalLength data pos n * 256 + byteAt data (pos + n)

/-- The loop of `ngx_media_rtmp_avcc_payload_to_annexb()` from `pos` on. A zero length is an
error before it could be passed over as padding. A length size of 0 never gets here. -/
def annexbLoop (src : List UInt8) (size capacity pos : ℕ) (dst : List UInt8) : Option Payload :=
  if 0 < size ∧ pos + size ≤ src.length then
    let len := nalLength src pos size
    if len = 0 ∨ pos + size + len > src.length then none
    else if dst.length + 4 + len > capacity then none
    else
      annexbLoop src size capacity (pos + size + len)
        (dst ++ [0, 0, 0, 1] ++ slice src (pos + size) len)
  else if pos ≠ src.length ∨ dst = [] then none
  else some dst
termination_by src.length - pos

def payloadToAnnexb (src : List UInt8) (size capacity : ℕ) : Option Payload :=
  if size < 1 ∨ size > 4 then none else annexbLoop src size capacity 0 []

def parameterSet (codec : Codec) (header : ℕ) : Bool :=
  if codec = .h265 then decide (32 ≤ header / 2 % 64 ∧ header / 2 % 64 ≤ 34)
  else decide (header % 32 = 7 ∨ header % 32 = 8)

/-- The first loop of `ngx_media_rtmp_publisher_video_payload()`: how many units there are,
where they end and whether one is a parameter set. -/
def scanPayload (codec : Codec) (payload : List UInt8) (size pos nals : ℕ) (hasSets : Bool) :
    ℕ × ℕ × Bool :=
  if 0 < size ∧ pos + size ≤ payload.length then
    let len := nalLength payload pos size
    let hasSets := hasSets || (decide (len > 0) && decide (pos + size < payload.length) &&
      parameterSet codec (byteAt payload (pos + size)))
    if pos + size + len > payload.length then (0, pos + size + len, hasSets)
    else scanPayload codec payload size (pos + size + len) (nals + 1) hasSets
  else (nals, pos, hasSets)
termination_by payload.length - pos

/-- The same loop in `ngx_media_rtmp_publisher_video()`, which looks at no unit. -/
def countPayload (payload : List UInt8) (size pos nals : ℕ) : ℕ × ℕ :=
  if 0 < size ∧ pos + size ≤ payload.length then
    let len := nalLength payload pos size
    if pos + size + len > payload.length then (0, pos + size + len)
    else countPayload payload size (pos + size + len) (nals + 1)
  else (nals, pos)
termination_by payload.length - pos

def videoConfig (pub : Publisher) (config : Payload) (codec : Codec) (profile level : ℕ) :
    Fed :=
  let done (pub : Publisher) : Fed :=
    ⟨{ pub with configs := pub.configs + 1 },
      [emit config .video codec .annexb pub.videoTrack pub.lastDts pub.lastDts true true,
        .tracks pub.tracks], .ok⟩
  if !pub.haveVideo then
    match trackAdd pub.tracks
      ⟨.video, codec, .annexb, profile, level, 0, 0, 0, 0, 0, 0, some config⟩ with
    | none => fail pub
    | some tracks =>
      done { pub with tracks := tracks, videoTrack := tracks.length - 1, haveVideo := true }
  else
    done { pub with
      tracks := pub.tracks.modify pub.videoTrack fun slot =>
        { slot with
          config := some config, codec := codec, profile := profile, level := level,
          payloadFormat := .annexb } }

def keyframeSets (pub : Publisher) (keyframe hasSets : Bool) : Payload :=
  if keyframe && !hasSets && pub.haveVideo then
    (pub.tracks[pub.videoTrack]?.bind fun track => track.config).getD []
  else []

def videoPayload (mem : ℕ → Bool) (pub : Publisher) (timestamp size : ℕ) (payload : List UInt8)
    (keyframe : Bool) (cts : ℤ) (codec : Codec) : Fed :=
  let (nals, pos, hasSets) := scanPayload codec payload size 0 0 false
  if nals = 0 ∨ pos ≠ payload.length then bad pub
  else
    let sets := keyframeSets pub keyframe hasSets
    let capacity := sets.length + payload.length + nals * 4
    if !mem capacity then fail pub
    else
      match payloadToAnnexb payload size (capacity - sets.length) with
      | none => bad pub
      | some converted =>
        ⟨{ pub with lastDts := timestamp * timescale, frames := pub.frames + 1 },
          [emit (sets ++ converted) .video codec .annexb pub.videoTrack
            ((timestamp + cts) * timescale) (timestamp * timescale) keyframe false], .ok⟩

def hevcConfig (mem : ℕ → Bool) (pub : Publisher) (payload : List UInt8) : Fed :=
  match hvccParse pub.hvcc payload with
  | (hvcc, false) => bad { pub with hvcc := hvcc }
  | (hvcc, true) =>
    let pub := { pub with hvcc := hvcc, haveHvcc := true }
    if !mem (hvccAnnexbSize hvcc) then fail pub
    else
      match hvccToAnnexb hvcc (hvccAnnexbSize hvcc) with
      | none => bad pub
      | some blob => videoConfig pub blob .h265 hvcc.profileIdc hvcc.level

def avcConfig (mem : ℕ → Bool) (pub : Publisher) (payload : List UInt8) : Fed :=
  match avccParse pub.avcc payload with
  | (avcc, false) => bad { pub with avcc := avcc }
  | (avcc, true) =>
    let pub := { pub with avcc := avcc, haveAvcc := true }
    if !mem (avccAnnexbSize avcc) then fail pub
    else
      match avccToAnnexb avcc (avccAnnexbSize avcc) with
      | none => bad pub
      | some blob => videoConfig pub blob .h264 avcc.profile avcc.level

def codedFrames (mem : ℕ → Bool) (pub : Publisher) (timestamp size packetType : ℕ)
    (payload : List UInt8) (keyframe : Bool) (codec : Codec) : Fed :=
  if packetType = 1 then
    if payload.length < 3 then skip pub
    else
      videoPayload mem pub timestamp size (payload.drop 3) keyframe (flvCts payload 0) codec
  else videoPayload mem pub timestamp size payload keyframe 0 codec

def fourccHevc : List UInt8 := [0x68, 0x76, 0x63, 0x31]
def fourccAvc : List UInt8 := [0x61, 0x76, 0x63, 0x31]

def videoEx (mem : ℕ → Bool) (pub : Publisher) (timestamp : ℕ) (data : List UInt8) : Fed :=
  if data.length < 5 then skip pub
  else
    let frameType := byteAt data 0 / 16 % 8
    let packetType := byteAt data 0 % 16
    let payload := data.drop 5
    if packetType = 2 then ⟨pub, [], .ok⟩
    else if packetType = 4 then skip pub
    else if slice data 1 4 = fourccHevc then
      if packetType = 0 then hevcConfig mem pub payload
      else if !pub.haveHvcc then skip pub
      else
        codedFrames mem pub timestamp pub.hvcc.nalLengthSize packetType payload
          (frameType = frameKeyframe) .h265
    else if slice data 1 4 = fourccAvc then
      if packetType = 0 then avcConfig mem pub payload
      else if !pub.haveAvcc then skip pub
      else
        codedFrames mem pub timestamp pub.avcc.nalLengthSize packetType payload
          (frameType = frameKeyframe) .h264
    else skip pub

def legacyTrack (pub : Publisher) (config : Payload) : Option Publisher :=
  if !pub.haveVideo then
    match trackAdd pub.tracks
      ⟨.video, .h264, .annexb, pub.avcc.profile, pub.avcc.level, 0, 0, 0, 0, 0, 0,
        some config⟩ with
    | none => none
    | some tracks =>
      some { pub with tracks := tracks, videoTrack := tracks.length - 1, haveVideo := true }
  else
    some { pub with
      tracks := pub.tracks.modify pub.videoTrack fun slot =>
        { slot with
          config := some config, profile := pub.avcc.profile, level := pub.avcc.level,
          payloadFormat := .annexb } }

def legacyConfig (mem : ℕ → Bool) (pub : Publisher) (payload : List UInt8) : Fed :=
  match avccParse pub.avcc payload with
  | (avcc, false) => bad { pub with avcc := avcc }
  | (avcc, true) =>
    let pub := { pub with avcc := avcc, haveAvcc := true }
    if !mem (avccAnnexbSize avcc) then fail pub
    else
      match avccToAnnexb avcc (avccAnnexbSize avcc) with
      | none => bad pub
      | some blob =>
        match legacyTrack pub blob with
        | none => fail pub
        | some pub =>
          ⟨{ pub with configs := pub.configs + 1 },
            [emit blob .video .h264 .annexb pub.videoTrack pub.lastDts pub.lastDts true true,
              .tracks pub.tracks], .ok⟩

def legacyPayload (mem : ℕ → Bool) (pub : Publisher) (timestamp : ℕ) (payload : List UInt8)
    (keyframe : Bool) (cts : ℤ) : Fed :=
  let (nals, pos) := countPayload payload pub.avcc.nalLengthSize 0 0
  if nals = 0 ∨ pos ≠ payload.length then bad pub
  else
    let capacity := payload.length + nals * 4
    if !mem capacity then fail pub
    else
      match payloadToAnnexb payload pub.avcc.nalLengthSize capacity with
      | none => bad pub
      | some converted =>
        ⟨{ pub with lastDts := timestamp * timescale, frames := pub.frames + 1 },
          [emit converted .video .h264 .annexb pub.videoTrack
            ((timestamp + cts) * timescale) (timestamp * timescale) keyframe false], .ok⟩

def video (mem : ℕ → Bool) (pub : Publisher) (timestamp : ℕ) (data : List UInt8) : Fed :=
  if data.length < 5 then skip pub
  else if byteAt data 0 ≥ 128 then videoEx mem pub timestamp data
  else
    let frameType := byteAt data 0 / 16
    let packetType := byteAt data 1
    if packetType = 2 then ⟨pub, [], .ok⟩
    else if packetType = 0 then legacyConfig mem pub (data.drop 5)
    else if !pub.haveAvcc then skip pub
    else
      legacyPayload mem pub timestamp (data.drop 5) (frameType = frameKeyframe) (flvCts data 2)

def audioTrackUpdate (pub : Publisher) (config : Payload) : Option Publisher :=
  if !pub.haveAudio then
    match trackAdd pub.tracks
      ⟨.audio, .aac, .adts, pub.asc.objectType, 0, 0, 0, 0, 0, pub.asc.sampleRate,
        pub.asc.channels, some config⟩ with
    | none => none
    | some tracks =>
      some { pub with tracks := tracks, audioTrack := tracks.length - 1, haveAudio := true }
  else
    some { pub with
      tracks := pub.tracks.modify pub.audioTrack fun slot =>
        { slot with
          config := some config, profile := pub.asc.objectType,
          sampleRate := pub.asc.sampleRate, channels := pub.asc.channels,
          payloadFormat := .adts } }

def audioConfig (mem : ℕ → Bool) (pub : Publisher) (config : List UInt8) : Fed :=
  match ascParse pub.asc config with
  | (asc, false) => bad { pub with asc := asc }
  | (asc, true) =>
    let pub := { pub with asc := asc, haveAsc := true }
    if !mem config.length then fail pub
    else
      match audioTrackUpdate pub config with
      | none => fail pub
      | some pub =>
        ⟨{ pub with configs := pub.configs + 1 },
          [emit config .audio .aac .raw pub.audioTrack pub.lastDts pub.lastDts true true,
            .tracks pub.tracks], .ok⟩

def audioPayload (mem : ℕ → Bool) (pub : Publisher) (timestamp : ℕ) (raw : List UInt8) : Fed :=
  match MediaCodec.adtsWrite ⟨raw.length + MediaCodec.adtsHeaderMin, MediaCodec.adtsHeaderMin,
    pub.asc.objectType, pub.asc.sampleRate, pub.asc.channels⟩ with
  | none => bad pub
  | some header =>
    if !mem (header.length + raw.length) then fail pub
    else
      ⟨{ pub with lastDts := timestamp * timescale, frames := pub.frames + 1 },
        [emit (header ++ raw) .audio .aac .adts pub.audioTrack (timestamp * timescale)
          (timestamp * timescale) true false], .ok⟩

def audio (mem : ℕ → Bool) (pub : Publisher) (timestamp : ℕ) (data : List UInt8) : Fed :=
  if data.length < 2 then skip pub
  else if byteAt data 1 = 0 then audioConfig mem pub (data.drop 2)
  else if byteAt data 1 ≠ 1 ∨ pub.haveAsc = false then skip pub
  else audioPayload mem pub timestamp (data.drop 2)

inductive MessageType where
  | audio
  | video
  | other
deriving DecidableEq

structure Message where
  type : MessageType
  timestamp : ℕ
  data : List UInt8

def feed (mem : ℕ → Bool) (pub : Publisher) (m : Message) : Fed :=
  match m.type with
  | .video => video mem pub m.timestamp m.data
  | .audio => audio mem pub m.timestamp m.data
  | .other => ⟨pub, [], .ok⟩

def step (mem : ℕ → Bool) (pub : Publisher) (m : Message) : Publisher := (feed mem pub m).pub

def outputs (mem : ℕ → Bool) : Publisher → List Message → List Output
  | _, [] => []
  | pub, m :: rest => (feed mem pub m).out ++ outputs mem (step mem pub m) rest

structure Layout (pub : Publisher) : Prop where
  video : pub.haveVideo = true →
    ∃ track, pub.tracks[pub.videoTrack]? = some track ∧ track.mediaType = .video
  audio : pub.haveAudio = true →
    ∃ track, pub.tracks[pub.audioTrack]? = some track ∧ track.mediaType = .audio
  count : pub.tracks.length = pub.haveVideo.toNat + pub.haveAudio.toNat

theorem init_layout : Layout init := by
  constructor
  · intro h
    cases h
  · intro h
    cases h
  · rfl

structure SameTracks (a b : Publisher) : Prop where
  tracks : b.tracks = a.tracks
  videoTrack : b.videoTrack = a.videoTrack
  audioTrack : b.audioTrack = a.audioTrack
  haveVideo : b.haveVideo = a.haveVideo
  haveAudio : b.haveAudio = a.haveAudio

variable {mem : ℕ → Bool} {pub pub' : Publisher} {tracks : TrackSet} {i j : ℕ}

theorem Layout.same (h : Layout pub) (hsame : SameTracks pub pub') : Layout pub' := by
  constructor
  · rw [hsame.haveVideo, hsame.tracks, hsame.videoTrack]
    exact h.video
  · rw [hsame.haveAudio, hsame.tracks, hsame.audioTrack]
    exact h.audio
  · rw [hsame.haveVideo, hsame.haveAudio, hsame.tracks]
    exact h.count

theorem trackAdd_room (h : Layout pub) (track : Track) :
    trackAdd pub.tracks track = some (pub.tracks ++ [track]) := by
  have hvideo := Bool.toNat_le pub.haveVideo
  have haudio := Bool.toNat_le pub.haveAudio
  have hcount := h.count
  unfold trackAdd trackCapacity
  rw [if_neg (by omega)]

theorem kind_append {kind : MediaType} (track : Track)
    (h : ∃ t, tracks[i]? = some t ∧ t.mediaType = kind) :
    ∃ t, (tracks ++ [track])[i]? = some t ∧ t.mediaType = kind := by
  obtain ⟨t, ht, hkind⟩ := h
  obtain ⟨hi, -⟩ := List.getElem?_eq_some_iff.mp ht
  exact ⟨t, by rw [List.getElem?_append_left hi]; exact ht, hkind⟩

theorem kind_modify {kind : MediaType} {f : Track → Track}
    (hf : ∀ t, (f t).mediaType = t.mediaType)
    (h : ∃ t, tracks[i]? = some t ∧ t.mediaType = kind) :
    ∃ t, (tracks.modify j f)[i]? = some t ∧ t.mediaType = kind := by
  obtain ⟨t, ht, hkind⟩ := h
  rw [List.getElem?_modify, ht]
  by_cases hij : j = i
  · exact ⟨f t, by simp [hij], (hf t).trans hkind⟩
  · exact ⟨t, by simp [hij], hkind⟩

theorem mem_modify {f : Track → Track} {t slot : Track} (hslot : tracks[j]? = some slot)
    (ht : t ∈ tracks.modify j f) : t ∈ tracks ∨ t = f slot := by
  obtain ⟨i, hi⟩ := List.mem_iff_getElem?.mp ht
  rw [List.getElem?_modify] at hi
  by_cases hij : j = i
  · subst hij
    rw [hslot] at hi
    simp only [if_true, Option.map_eq_map, Option.map_some, Option.some.injEq] at hi
    exact Or.inr hi.symm
  · simp only [if_neg hij, Option.map_eq_map, Option.map_id'] at hi
    exact Or.inl (List.mem_iff_getElem?.mpr ⟨i, hi⟩)

structure VideoSet (a b : Publisher) : Prop where
  layout : Layout b
  old : ∀ t ∈ b.tracks, t ∈ a.tracks ∨ t.mediaType = .video

structure AudioSet (config : Payload) (a b : Publisher) : Prop where
  layout : Layout b
  old : ∀ t ∈ b.tracks, t ∈ a.tracks ∨ t.config = some config
  new : ∃ t ∈ b.tracks, t.mediaType = .audio ∧ t.config = some config

variable {track : Track} {f : Track → Track} {config : Payload}

theorem Layout.addVideo (h : Layout pub) (hno : pub.haveVideo = false)
    (hkind : track.mediaType = .video)
    (hsame : SameTracks { pub with
      tracks := pub.tracks ++ [track], videoTrack := pub.tracks.length, haveVideo := true } pub') :
    VideoSet pub pub' := by
  have hcount := h.count
  have hlayout : Layout { pub with
      tracks := pub.tracks ++ [track], videoTrack := pub.tracks.length, haveVideo := true } := by
    constructor
    · exact fun _ => ⟨track, by simp, hkind⟩
    · exact fun haudio => kind_append track (h.audio haudio)
    · rw [hno] at hcount
      rw [Bool.toNat_false] at hcount
      simp only [List.length_append, List.length_singleton, hcount, Bool.toNat_true]
      omega
  refine ⟨hlayout.same hsame, fun t ht => ?_⟩
  rw [hsame.tracks] at ht
  rcases List.mem_append.mp ht with ht | ht
  · exact Or.inl ht
  · rw [List.mem_singleton.mp ht]
    exact Or.inr hkind

theorem Layout.updateVideo (h : Layout pub) (hyes : pub.haveVideo = true)
    (hf : ∀ t, (f t).mediaType = t.mediaType)
    (hsame : SameTracks { pub with tracks := pub.tracks.modify pub.videoTrack f } pub') :
    VideoSet pub pub' := by
  obtain ⟨slot, hslot, hkind⟩ := h.video hyes
  have hlayout : Layout { pub with tracks := pub.tracks.modify pub.videoTrack f } := by
    constructor
    · exact fun hv => kind_modify hf (h.video hv)
    · exact fun ha => kind_modify hf (h.audio ha)
    · rw [List.length_modify]
      exact h.count
  refine ⟨hlayout.same hsame, fun t ht => ?_⟩
  rw [hsame.tracks] at ht
  rcases mem_modify hslot ht with ht | rfl
  · exact Or.inl ht
  · exact Or.inr ((hf slot).trans hkind)

theorem Layout.addAudio (h : Layout pub) (hno : pub.haveAudio = false)
    (hkind : track.mediaType = .audio) (hconfig : track.config = some config)
    (hsame : SameTracks { pub with
      tracks := pub.tracks ++ [track], audioTrack := pub.tracks.length, haveAudio := true } pub') :
    AudioSet config pub pub' := by
  have hcount := h.count
  have hlayout : Layout { pub with
      tracks := pub.tracks ++ [track], audioTrack := pub.tracks.length, haveAudio := true } := by
    constructor
    · exact fun hvideo => kind_append track (h.video hvideo)
    · exact fun _ => ⟨track, by simp, hkind⟩
    · rw [hno] at hcount
      rw [Bool.toNat_false] at hcount
      simp only [List.length_append, List.length_singleton, hcount, Bool.toNat_true]
  refine ⟨hlayout.same hsame, fun t ht => ?_, track, ?_, hkind, hconfig⟩
  · rw [hsame.tracks] at ht
    rcases List.mem_append.mp ht with ht | ht
    · exact Or.inl ht
    · rw [List.mem_singleton.mp ht]
      exact Or.inr hconfig
  · rw [hsame.tracks]
    exact List.mem_append_right _ (List.mem_singleton_self _)

theorem Layout.updateAudio (h : Layout pub) (hyes : pub.haveAudio = true)
    (hf : ∀ t, (f t).mediaType = t.mediaType) (hconfig : ∀ t, (f t).config = some config)
    (hsame : SameTracks { pub with tracks := pub.tracks.modify pub.audioTrack f } pub') :
    AudioSet config pub pub' := by
  obtain ⟨slot, hslot, hkind⟩ := h.audio hyes
  have hlayout : Layout { pub with tracks := pub.tracks.modify pub.audioTrack f } := by
    constructor
    · exact fun hv => kind_modify hf (h.video hv)
    · exact fun ha => kind_modify hf (h.audio ha)
    · rw [List.length_modify]
      exact h.count
  have hnew : (pub.tracks.modify pub.audioTrack f)[pub.audioTrack]? = some (f slot) := by
    rw [List.getElem?_modify, hslot]
    simp
  refine ⟨hlayout.same hsame, fun t ht => ?_, f slot, ?_, (hf slot).trans hkind, hconfig slot⟩
  · rw [hsame.tracks] at ht
    rcases mem_modify hslot ht with ht | rfl
    · exact Or.inl ht
    · exact Or.inr (hconfig slot)
  · rw [hsame.tracks]
    exact List.mem_iff_getElem?.mpr ⟨pub.audioTrack, hnew⟩

theorem videoConfig_set (h : Layout pub) (config : Payload) (codec : Codec) (profile level : ℕ) :
    VideoSet pub (videoConfig pub config codec profile level).pub := by
  unfold videoConfig
  dsimp only
  by_cases hvideo : pub.haveVideo = true
  · rw [if_neg (by simp [hvideo])]
    refine h.updateVideo hvideo ?_ ⟨rfl, rfl, rfl, rfl, rfl⟩
    exact fun _ => rfl
  · rw [Bool.not_eq_true] at hvideo
    rw [if_pos (by simp [hvideo]), trackAdd_room h]
    refine h.addVideo hvideo ?_ ⟨rfl, by simp, rfl, rfl, rfl⟩
    rfl

theorem legacyTrack_set (h : Layout pub) (config : Payload) :
    ∃ pub', legacyTrack pub config = some pub' ∧ VideoSet pub pub' := by
  unfold legacyTrack
  by_cases hvideo : pub.haveVideo = true
  · rw [if_neg (by simp [hvideo])]
    refine ⟨_, rfl, h.updateVideo hvideo ?_ ⟨rfl, rfl, rfl, rfl, rfl⟩⟩
    exact fun _ => rfl
  · rw [Bool.not_eq_true] at hvideo
    rw [if_pos (by simp [hvideo]), trackAdd_room h]
    refine ⟨_, rfl, h.addVideo hvideo ?_ ⟨rfl, by simp, rfl, rfl, rfl⟩⟩
    rfl

theorem audioTrackUpdate_set (h : Layout pub) (config : Payload) :
    ∃ pub', audioTrackUpdate pub config = some pub' ∧ AudioSet config pub pub' := by
  unfold audioTrackUpdate
  by_cases haudio : pub.haveAudio = true
  · rw [if_neg (by simp [haudio])]
    refine ⟨_, rfl, h.updateAudio haudio ?_ ?_ ⟨rfl, rfl, rfl, rfl, rfl⟩⟩
    · exact fun _ => rfl
    · exact fun _ => rfl
  · rw [Bool.not_eq_true] at haudio
    rw [if_pos (by simp [haudio]), trackAdd_room h]
    refine ⟨_, rfl, h.addAudio haudio ?_ ?_ ⟨rfl, rfl, by simp, rfl, rfl⟩⟩
    · rfl
    · rfl

theorem SameTracks.refl (pub : Publisher) : SameTracks pub pub := ⟨rfl, rfl, rfl, rfl, rfl⟩

theorem SameTracks.videoSet (hsame : SameTracks pub pub') (h : Layout pub) :
    VideoSet pub pub' := by
  refine ⟨h.same hsame, fun t ht => ?_⟩
  rw [hsame.tracks] at ht
  exact Or.inl ht

/-- What is read into the decoder records does not matter for the tracks. -/
theorem VideoSet.of_same {pub'' : Publisher} (h : VideoSet pub' pub'') (hsame : SameTracks pub pub') :
    VideoSet pub pub'' := by
  refine ⟨h.layout, fun t ht => ?_⟩
  rw [← hsame.tracks]
  exact h.old t ht

theorem videoPayload_same (timestamp size : ℕ) (payload : List UInt8) (keyframe : Bool) (cts : ℤ)
    (codec : Codec) :
    SameTracks pub (videoPayload mem pub timestamp size payload keyframe cts codec).pub := by
  unfold videoPayload
  dsimp only
  split_ifs
  · exact ⟨rfl, rfl, rfl, rfl, rfl⟩
  · exact SameTracks.refl pub
  · split <;> exact ⟨rfl, rfl, rfl, rfl, rfl⟩

theorem codedFrames_same (timestamp size packetType : ℕ) (payload : List UInt8) (keyframe : Bool)
    (codec : Codec) :
    SameTracks pub (codedFrames mem pub timestamp size packetType payload keyframe codec).pub := by
  unfold codedFrames
  split_ifs
  · exact ⟨rfl, rfl, rfl, rfl, rfl⟩
  · exact videoPayload_same _ _ _ _ _ _
  · exact videoPayload_same _ _ _ _ _ _

theorem legacyPayload_same (timestamp : ℕ) (payload : List UInt8) (keyframe : Bool) (cts : ℤ) :
    SameTracks pub (legacyPayload mem pub timestamp payload keyframe cts).pub := by
  unfold legacyPayload
  dsimp only
  split_ifs
  · exact ⟨rfl, rfl, rfl, rfl, rfl⟩
  · exact SameTracks.refl pub
  · split <;> exact ⟨rfl, rfl, rfl, rfl, rfl⟩

theorem hevcConfig_set (h : Layout pub) (payload : List UInt8) :
    VideoSet pub (hevcConfig mem pub payload).pub := by
  unfold hevcConfig
  cases hvccParse pub.hvcc payload with
  | mk hvcc ok =>
    have hread : SameTracks pub { pub with hvcc := hvcc, haveHvcc := true } :=
      ⟨rfl, rfl, rfl, rfl, rfl⟩
    cases ok with
    | false => exact SameTracks.videoSet ⟨rfl, rfl, rfl, rfl, rfl⟩ h
    | true =>
      dsimp only
      split_ifs
      · exact hread.videoSet h
      · rw [hvccToAnnexb_size]
        exact (videoConfig_set (h.same hread) _ _ _ _).of_same hread

theorem avcConfig_set (h : Layout pub) (payload : List UInt8) :
    VideoSet pub (avcConfig mem pub payload).pub := by
  unfold avcConfig
  cases avccParse pub.avcc payload with
  | mk avcc ok =>
    have hread : SameTracks pub { pub with avcc := avcc, haveAvcc := true } :=
      ⟨rfl, rfl, rfl, rfl, rfl⟩
    cases ok with
    | false => exact SameTracks.videoSet ⟨rfl, rfl, rfl, rfl, rfl⟩ h
    | true =>
      dsimp only
      split_ifs
      · exact hread.videoSet h
      · rw [avccToAnnexb_size]
        exact (videoConfig_set (h.same hread) _ _ _ _).of_same hread

theorem legacyConfig_set (h : Layout pub) (payload : List UInt8) :
    VideoSet pub (legacyConfig mem pub payload).pub := by
  unfold legacyConfig
  cases avccParse pub.avcc payload with
  | mk avcc ok =>
    have hread : SameTracks pub { pub with avcc := avcc, haveAvcc := true } :=
      ⟨rfl, rfl, rfl, rfl, rfl⟩
    cases ok with
    | false => exact SameTracks.videoSet ⟨rfl, rfl, rfl, rfl, rfl⟩ h
    | true =>
      dsimp only
      split_ifs
      · exact hread.videoSet h
      · obtain ⟨pub', htrack, hset⟩ :=
          legacyTrack_set (h.same hread) (annexb avcc.sps ++ annexb avcc.pps)
        rw [avccToAnnexb_size]
        dsimp only
        rw [htrack]
        have hdone : SameTracks pub' { pub' with configs := pub'.configs + 1 } :=
          ⟨rfl, rfl, rfl, rfl, rfl⟩
        refine ⟨hset.layout.same hdone, fun t ht => ?_⟩
        exact hset.old t ht

theorem video_set (h : Layout pub) (timestamp : ℕ) (data : List UInt8) :
    VideoSet pub (video mem pub timestamp data).pub := by
  have hskip : VideoSet pub (skip pub).pub :=
    SameTracks.videoSet ⟨rfl, rfl, rfl, rfl, rfl⟩ h
  have hsame : VideoSet pub pub := (SameTracks.refl pub).videoSet h
  unfold video videoEx
  dsimp only
  split_ifs
  · exact hskip
  · exact hsame
  · exact hskip
  · exact hevcConfig_set h _
  · exact hskip
  · exact (codedFrames_same _ _ _ _ _ _).videoSet h
  · exact avcConfig_set h _
  · exact hskip
  · exact (codedFrames_same _ _ _ _ _ _).videoSet h
  · exact hskip
  · exact hsame
  · exact legacyConfig_set h _
  · exact hskip
  · exact (legacyPayload_same _ _ _ _).videoSet h

def AacSequence (mem : ℕ → Bool) (m : Message) : Prop :=
  m.type = .audio ∧ 2 ≤ m.data.length ∧ byteAt m.data 1 = 0 ∧
    (ascParse Asc.zero (m.data.drop 2)).2 = true ∧ mem (m.data.drop 2).length = true

instance (mem : ℕ → Bool) : DecidablePred (AacSequence mem) :=
  fun _ => inferInstanceAs (Decidable (_ ∧ _ ∧ _ ∧ _ ∧ _))

theorem ascParse_irrelevant (out out' : Asc) (data : List UInt8) :
    (ascParse out data).2 = (ascParse out' data).2 := by
  unfold ascParse
  dsimp only
  split_ifs <;> rfl

theorem audioConfig_set (h : Layout pub) {config : Payload}
    (hparse : (ascParse Asc.zero config).2 = true) (hmem : mem config.length = true) :
    AudioSet config pub (audioConfig mem pub config).pub := by
  unfold audioConfig
  rw [ascParse_irrelevant Asc.zero pub.asc] at hparse
  cases hx : ascParse pub.asc config with
  | mk asc ok =>
  rw [hx] at hparse
  obtain rfl : ok = true := hparse
  have hread : SameTracks pub { pub with asc := asc, haveAsc := true } :=
    ⟨rfl, rfl, rfl, rfl, rfl⟩
  obtain ⟨pub', htrack, hset⟩ := audioTrackUpdate_set (h.same hread) config
  dsimp only
  rw [if_neg (by simp [hmem]), htrack]
  have hdone : SameTracks pub' { pub' with configs := pub'.configs + 1 } :=
    ⟨rfl, rfl, rfl, rfl, rfl⟩
  exact ⟨hset.layout.same hdone, fun t ht => hset.old t ht, hset.new⟩

theorem audioConfig_same {config : Payload}
    (hno : ¬((ascParse Asc.zero config).2 = true ∧ mem config.length = true)) :
    SameTracks pub (audioConfig mem pub config).pub := by
  unfold audioConfig
  rw [ascParse_irrelevant Asc.zero pub.asc] at hno
  cases hx : ascParse pub.asc config with
  | mk asc ok =>
  rw [hx] at hno
  cases ok with
  | false => exact ⟨rfl, rfl, rfl, rfl, rfl⟩
  | true =>
    have hmem : mem config.length = false := by
      by_contra hyes
      exact hno ⟨rfl, by simpa using hyes⟩
    dsimp only
    rw [hmem]
    exact ⟨rfl, rfl, rfl, rfl, rfl⟩

theorem audioPayload_same (timestamp : ℕ) (raw : List UInt8) :
    SameTracks pub (audioPayload mem pub timestamp raw).pub := by
  unfold audioPayload
  split
  · exact ⟨rfl, rfl, rfl, rfl, rfl⟩
  · split_ifs <;> exact ⟨rfl, rfl, rfl, rfl, rfl⟩

theorem audio_set (h : Layout pub) {m : Message} (hm : AacSequence mem m) :
    AudioSet (m.data.drop 2) pub (step mem pub m) := by
  obtain ⟨htype, hlen, hpacket, hparse, hmem⟩ := hm
  unfold step feed
  rw [htype]
  dsimp only
  unfold audio
  rw [if_neg (by omega), if_pos hpacket]
  exact audioConfig_set h hparse hmem

theorem audio_same {m : Message} (htype : m.type = .audio) (hm : ¬AacSequence mem m) :
    SameTracks pub (step mem pub m) := by
  unfold step feed
  rw [htype]
  dsimp only
  unfold audio
  split_ifs with hlen hpacket hraw
  · exact ⟨rfl, rfl, rfl, rfl, rfl⟩
  · refine audioConfig_same fun hc => hm ?_
    exact ⟨htype, by omega, hpacket, hc.1, hc.2⟩
  · exact ⟨rfl, rfl, rfl, rfl, rfl⟩
  · exact audioPayload_same _ _

theorem step_tracks (h : Layout pub) (m : Message) :
    Layout (step mem pub m) ∧ ∀ t ∈ (step mem pub m).tracks,
      t ∈ pub.tracks ∨ t.mediaType = .video ∨
        (AacSequence mem m ∧ t.config = some (m.data.drop 2)) := by
  cases htype : m.type with
  | video =>
    have hset : VideoSet pub (video mem pub m.timestamp m.data).pub := video_set h _ _
    have hstep : step mem pub m = (video mem pub m.timestamp m.data).pub := by
      unfold step feed
      rw [htype]
    rw [hstep]
    exact ⟨hset.layout, fun t ht => (hset.old t ht).imp id Or.inl⟩
  | audio =>
    by_cases hm : AacSequence mem m
    · have hset := audio_set h hm
      exact ⟨hset.layout, fun t ht => (hset.old t ht).imp id fun hc => Or.inr ⟨hm, hc⟩⟩
    · have hsame : SameTracks pub (step mem pub m) := audio_same htype hm
      refine ⟨h.same hsame, fun t ht => Or.inl ?_⟩
      rw [hsame.tracks] at ht
      exact ht
  | other =>
    have hstep : step mem pub m = pub := by
      unfold step feed
      rw [htype]
    rw [hstep]
    exact ⟨h, fun t ht => Or.inl ht⟩

end RtmpPublisher
