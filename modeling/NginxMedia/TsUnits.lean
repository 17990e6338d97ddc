import NginxMedia.TsDemux
import NginxMedia.TsMux

/-! How the demultiplexer puts together what the muxer cut up: a PES from its header and the
pieces of its payload, and the frame it is when it is whole. -/
namespace TsUnits

open MediaTypes ByteString MediaCodec TsDemux

/-- The demultiplexer's error counters, added up. -/
def errors (s : Stats) : ℕ :=
  s.transportErrors + s.continuityErrors + s.psiErrors + s.crcErrors + s.pesErrors +
    s.auOverflows + s.unsupportedStreams

def mediaFrame : Output → Option Frame
  | .frame f => if f.config then none else some f
  | .tracks _ => none

def media (out : List Output) : List Frame := out.filterMap mediaFrame

structure Emits (fs : List Frame) (c c' : Core) : Prop where
  maxTracks : c'.maxTracks = c.maxTracks
  maxAuBytes : c'.maxAuBytes = c.maxAuBytes
  tracks : c'.tracks = c.tracks
  pat : c'.pat = c.pat
  pmt : c'.pmt = c.pmt
  pmtPid : c'.pmtPid = c.pmtPid
  patValid : c'.patValid = c.patValid
  errors : errors c'.stats = errors c.stats
  media : media c'.out = media c.out ++ fs

variable {fs fs' : List Frame} {mem : Memory} {c c' c'' : Core} {t : EsTrack}

theorem Emits.refl (c : Core) : Emits [] c c :=
  ⟨rfl, rfl, rfl, rfl, rfl, rfl, rfl, rfl, (List.append_nil _).symm⟩

theorem Emits.trans (h : Emits fs c c') (h' : Emits fs' c' c'') : Emits (fs ++ fs') c c'' :=
  ⟨h'.maxTracks.trans h.maxTracks, h'.maxAuBytes.trans h.maxAuBytes, h'.tracks.trans h.tracks,
    h'.pat.trans h.pat, h'.pmt.trans h.pmt, h'.pmtPid.trans h.pmtPid,
    h'.patValid.trans h.patValid, h'.errors.trans h.errors, by
      rw [h'.media, h.media, List.append_assoc]⟩

theorem Emits.putTrack (h : Emits fs c c') (t : EsTrack) :
    Emits fs (c.putTrack t) (c'.putTrack t) := by
  refine ⟨h.maxTracks, h.maxAuBytes, ?_, h.pat, h.pmt, h.pmtPid, h.patValid, h.errors, h.media⟩
  simp only [Core.putTrack, h.tracks]

theorem putTrack_putTrack (c : Core) {t u : EsTrack} (h : t.trackIndex = u.trackIndex) :
    (c.putTrack t).putTrack u = c.putTrack u := by
  simp only [Core.putTrack, h, List.set_set]

theorem Emits.then_put {u : EsTrack}
    (h : Emits fs (c.putTrack t) c') (h' : Emits fs' (c'.putTrack u) c'')
    (hindex : t.trackIndex = u.trackIndex) : Emits (fs ++ fs') (c.putTrack u) c'' := by
  have hput := h.putTrack u
  rw [putTrack_putTrack c hindex] at hput
  exact hput.trans h'

theorem putTrack_same {index : ℕ} (ht : c.tracks[index]? = some t)
    (hindex : t.trackIndex = index) :
    c.putTrack t = c := by
  obtain ⟨hi, hget⟩ := List.getElem?_eq_some_iff.mp ht
  have hset : c.tracks.set index t = c.tracks := by
    rw [← hget]
    exact List.set_getElem_self hi
  rw [Core.putTrack, hindex, hset]

/-- Every allocation succeeds. -/
structure Plenty (mem : Memory) : Prop where
  trackset : mem.trackset = true
  bytes : ∀ n, mem.bytes n = true

theorem emitOut_tracks (c : Core) (set : TrackSet) : Emits [] c (c.emitOut (.tracks set)) := by
  refine ⟨rfl, rfl, rfl, rfl, rfl, rfl, rfl, rfl, ?_⟩
  simp [Core.emitOut, media, mediaFrame]

def unitFrame (t : EsTrack) (data : Payload) (pts dts : ℤ) (keyframe : Bool)
    (format : PayloadFormat) : Frame :=
  { mediaType := t.track.mediaType
    codec := t.codec
    payloadFormat := format
    trackIndex := t.trackIndex
    pts := pts
    dts := dts
    keyframe := keyframe
    config := false
    payload := some data }

theorem emit_media (hm : Plenty mem) {data : Payload} (hne : data ≠ [])
    (hle : data.length ≤ c.maxAuBytes) (pts dts : ℤ) (keyframe : Bool) (format : PayloadFormat) :
    Emits [unitFrame t data pts dts keyframe format] c
      (emit mem c t data pts dts keyframe false format) := by
  unfold emit
  rw [if_neg hne, if_neg (by omega), if_neg (by simp [hm.bytes])]
  refine ⟨rfl, rfl, rfl, rfl, rfl, rfl, rfl, rfl, ?_⟩
  simp [Core.emitOut, media, mediaFrame, unitFrame]

theorem emit_config (hm : Plenty mem) {data : Payload} (hle : data.length ≤ c.maxAuBytes)
    (pts dts : ℤ) (keyframe : Bool) (format : PayloadFormat) :
    Emits [] c (emit mem c t data pts dts keyframe true format) := by
  unfold emit
  by_cases hne : data = []
  · rw [if_pos hne]
    exact Emits.refl c
  · rw [if_neg hne, if_neg (by omega), if_neg (by simp [hm.bytes])]
    refine ⟨rfl, rfl, rfl, rfl, rfl, rfl, rfl, rfl, ?_⟩
    simp [Core.emitOut, media, mediaFrame]

theorem emitConfig_spec (hm : Plenty mem) {data : Payload} (hle : data.length ≤ c.maxAuBytes)
    (t : EsTrack) (format : PayloadFormat) :
    Emits [] c (emitConfig mem c t data format).1 ∧
      ∃ config config', (emitConfig mem c t data format).2 =
        { t with config := config, track := { t.track with config := config' } } := by
  unfold emitConfig
  by_cases hne : data = []
  · rw [if_pos hne]
    exact ⟨Emits.refl c, t.config, t.track.config, rfl⟩
  · rw [if_neg hne]
    by_cases hsame : t.config = some data
    · rw [if_pos hsame]
      exact ⟨Emits.refl c, t.config, t.track.config, rfl⟩
    · rw [if_neg hsame, if_neg (by simp [hm.bytes])]
      refine ⟨?_, some data, some data, rfl⟩
      have hset : Emits [] c { c with
          trackset := c.trackset.modify t.trackIndex fun tr => { tr with config := some data } } :=
        ⟨rfl, rfl, rfl, rfl, rfl, rfl, rfl, rfl, (List.append_nil _).symm⟩
      have hemit := fun u : EsTrack => hset.trans (@emit_config mem { c with
        trackset := c.trackset.modify t.trackIndex fun tr => { tr with config := some data } }
        u hm data hle t.pts t.dts true format)
      dsimp only
      split_ifs with hready
      · exact (hemit { t with
          config := some data, track := { t.track with config := some data } }).trans
          (emitOut_tracks _ _)
      · exact hemit { t with
          config := some data, track := { t.track with config := some data } }

def configBytes (codec : Codec) (nals : List (List UInt8)) : ℕ :=
  ((nals.filter fun nal => isConfig codec (nalType codec nal)).map fun nal => 4 + nal.length).sum

theorem scanNals_spec (hm : Plenty mem) (codec : Codec) (nals : List (List UInt8)) (scan : Scan) :
    (scanNals mem codec scan nals).vcl =
        (scan.vcl || nals.any fun nal => isVcl codec (nalType codec nal)) ∧
      (scanNals mem codec scan nals).keyframe =
        (scan.keyframe || nals.any fun nal => isKeyframe codec (nalType codec nal)) ∧
      (scanNals mem codec scan nals).cfg.length = scan.cfg.length + configBytes codec nals := by
  induction nals generalizing scan with
  | nil => simp [scanNals, configBytes]
  | cons nal rest ih =>
    unfold scanNals
    by_cases hc : isConfig codec (nalType codec nal) = true
    · rw [if_pos hc, if_neg (by simp [hm.bytes])]
      obtain ⟨hv, hk, hl⟩ := ih _
      refine ⟨?_, ?_, ?_⟩
      · rw [hv]
        simp [Scan.class, Bool.or_assoc]
      · rw [hk]
        simp [Scan.class, Bool.or_assoc]
      · rw [hl]
        simp [Scan.class, configBytes, hc]
        omega
    · rw [if_neg hc]
      obtain ⟨hv, hk, hl⟩ := ih (scan.class codec nal)
      refine ⟨?_, ?_, ?_⟩
      · rw [hv]
        simp [Scan.class, Bool.or_assoc]
      · rw [hk]
        simp [Scan.class, Bool.or_assoc]
      · rw [hl]
        simp [Scan.class, configBytes, hc]

def kind (streamType : ℕ) : MediaType := if tsCodec streamType = .aac then .audio else .video

/-- What the video frames of a programme are. -/
structure AccessUnit (maxAu : ℕ) (codec : Codec) (data : Payload) : Prop where
  vcl : ((nals data).any fun nal => isVcl codec (nalType codec nal)) = true
  sets : configBytes codec (nals data) ≤ maxAu

def AdtsUnit (data : Payload) : Prop :=
  ∃ adts, adtsParse data = some adts ∧ adts.frameLen = data.length

structure Elementary (maxAu streamType : ℕ) (f : Frame) (data : Payload) : Prop where
  payload : f.payload = some data
  mediaType : f.mediaType = kind streamType
  nonempty : data ≠ []
  fits : data.length ≤ maxAu
  video : kind streamType = .video → AccessUnit maxAu (tsCodec streamType) data
  audio : kind streamType = .audio → AdtsUnit data

def impliedKeyframe (streamType : ℕ) (payload : Option Payload) : Bool :=
  if kind streamType = .audio then true
  else
    (nals (payload.getD [])).any fun nal =>
      isKeyframe (tsCodec streamType) (nalType (tsCodec streamType) nal)

def received (streamType index : ℕ) (f : Frame) : Frame :=
  { f with
    codec := tsCodec streamType
    payloadFormat := if kind streamType = .audio then .adts else .annexb
    trackIndex := index
    pts := f.pts % 2 ^ 33
    dts := (if kind streamType = .audio then f.pts else f.dts) % 2 ^ 33
    keyframe := impliedKeyframe streamType f.payload
    config := false }

/-- The cell belongs to that entry of the program table. -/
structure Plays (r : ℕ × ℕ) (index : ℕ) (t : EsTrack) : Prop where
  pid : t.pid = r.1
  streamType : t.streamType = r.2
  codec : t.codec = tsCodec r.2
  trackIndex : t.trackIndex = index
  mediaType : t.track.mediaType = kind r.2

/-- Nothing is being put together. -/
structure Idle (r : ℕ × ℕ) (index : ℕ) (t : EsTrack) : Prop where
  plays : Plays r index t
  au : t.au = []
  whole : t.auOverflow = false
  remaining : t.pesRemaining = 0

/-- The frame `f` is being put together and `rest` of it is still to come. -/
structure Gathers (r : ℕ × ℕ) (index : ℕ) (f : Frame) (data rest : List UInt8) (t : EsTrack) :
    Prop where
  plays : Plays r index t
  au : t.au ++ rest = data
  begun : t.au ≠ []
  whole : t.auOverflow = false
  remaining : t.pesRemaining = if kind r.2 = .audio then rest.length else 0
  hasPts : t.hasPts = true
  pts : t.pts = f.pts % 2 ^ 33
  dts : (if t.hasDts then t.dts else t.pts) = f.dts % 2 ^ 33

variable {r : ℕ × ℕ} {index : ℕ} {f : Frame} {data rest piece : List UInt8}

theorem kind_video_codec {streamType : ℕ} (h : kind streamType = .video) :
    tsCodec streamType ≠ .aac := by
  unfold kind at h
  split_ifs at h with ha
  exact ha

theorem kind_audio_codec {streamType : ℕ} (h : kind streamType = .audio) :
    tsCodec streamType = .aac := by
  unfold kind at h
  split_ifs at h with ha
  exact ha

theorem kind_cases (streamType : ℕ) : kind streamType = .video ∨ kind streamType = .audio := by
  unfold kind
  split_ifs
  · exact Or.inr rfl
  · exact Or.inl rfl

theorem auFlush_video (hm : Plenty mem) (he : Elementary c.maxAuBytes r.2 f data)
    (hk : kind r.2 = .video) (hg : Gathers r index f data [] t) :
    Emits [received r.2 index f] c (auFlush mem c t).1 ∧ Idle r index (auFlush mem c t).2 ∧
      (auFlush mem c t).2.cc = t.cc := by
  have hau : t.au = data := by
    rw [← hg.au, List.append_nil]
  have hcodec : t.codec ≠ .aac := by
    rw [hg.plays.codec]
    exact kind_video_codec hk
  have hunit := he.video hk
  have hne : t.au ≠ [] := hg.begun
  have hrem : t.pesRemaining = 0 := by
    rw [hg.remaining, hk]
    rfl
  obtain ⟨hv, hkey, hlen⟩ := scanNals_spec hm t.codec (nals t.au) ⟨[], 0, false, false, false⟩
  rw [hau, hg.plays.codec] at hv hkey hlen
  simp only [Bool.false_or, List.length_nil, Nat.zero_add] at hv hkey hlen
  rw [hunit.vcl] at hv
  unfold auFlush
  rw [if_neg hne, if_neg (by simp [hg.whole]), if_neg hcodec]
  dsimp only
  rw [hau, hg.plays.codec]
  generalize scanNals mem (tsCodec r.2) ⟨[], 0, false, false, false⟩ (nals data) = scan
    at hv hkey hlen ⊢
  have hconf : ∃ c₁ config config', (if scan.haveConfig = true then
      emitConfig mem c t scan.cfg .annexb else (c, t)) =
      (c₁, { t with config := config, track := { t.track with config := config' } }) ∧
      Emits [] c c₁ := by
    by_cases hh : scan.haveConfig = true
    · rw [if_pos hh]
      obtain ⟨hemit, config, config', ht⟩ :=
        @emitConfig_spec mem c hm scan.cfg (by rw [hlen]; exact hunit.sets) t .annexb
      exact ⟨_, config, config', Prod.ext rfl ht, hemit⟩
    · rw [if_neg hh]
      exact ⟨c, t.config, t.track.config, rfl, Emits.refl c⟩
  obtain ⟨c₁, config, config', heq, hemit⟩ := hconf
  rw [heq]
  have hpts : (if t.hasPts = true then t.pts else t.lastPts) = f.pts % 2 ^ 33 := by
    rw [if_pos hg.hasPts, hg.pts]
  have hdts : (if t.hasDts = true then t.dts else f.pts % 2 ^ 33) = f.dts % 2 ^ 33 := by
    rw [← hg.pts]
    exact hg.dts
  dsimp only
  rw [if_pos hv, hpts, hdts, hau]
  refine ⟨?_, ⟨⟨hg.plays.pid, hg.plays.streamType, hg.plays.codec, hg.plays.trackIndex,
    hg.plays.mediaType⟩, rfl, hg.whole, hrem⟩, rfl⟩
  have hframe := hemit.trans (@emit_media mem c₁ { t with
    config := config, track := { t.track with config := config' } } hm data he.nonempty
    (by rw [hemit.maxAuBytes]; exact he.fits) (f.pts % 2 ^ 33) (f.dts % 2 ^ 33) scan.keyframe
    .annexb)
  have hsame : unitFrame { t with config := config, track := { t.track with config := config' } }
      data (f.pts % 2 ^ 33) (f.dts % 2 ^ 33) scan.keyframe .annexb = received r.2 index f := by
    simp [unitFrame, received, impliedKeyframe, hg.plays.codec, hg.plays.trackIndex,
      hg.plays.mediaType, hk, he.mediaType, he.payload, hkey]
  rw [hsame] at hframe
  exact hframe

theorem adtsLoop_one {adts : Adts} {p : List UInt8} (hparse : adtsParse p = some adts)
    (hlen : adts.frameLen = p.length) (changed : Bool) :
    adtsLoop mem c t p changed =
      ((adtsFrame mem c t adts p).1, (adtsFrame mem c t adts p).2.1,
        changed || (adtsFrame mem c t adts p).2.2) := by
  obtain ⟨h7, hframe, -⟩ := adtsParse_header hparse
  rw [adtsLoop, if_neg (by unfold adtsHeaderMin; omega)]
  split
  · next hnone =>
    rw [hparse] at hnone
    contradiction
  · next adts' hsome =>
    rw [hparse] at hsome
    obtain rfl := Option.some.inj hsome
    rw [if_neg (by omega)]
    dsimp only
    rw [hlen, List.drop_length, adtsLoop, if_pos (by unfold adtsHeaderMin; simp)]

def describe (track : Track) (adts : Adts) (config : Option Payload) : Track :=
  { track with
    config := config
    sampleRate := adts.sampleRate
    channels := adts.channels
    profile := adts.objectType }

theorem adtsFrame_spec (hm : Plenty mem) {adts : Adts} (hne : data ≠ [])
    (hle : data.length ≤ c.maxAuBytes) (hlen : adts.frameLen = data.length)
    (hparse : adtsParse data = some adts) (t : EsTrack) :
    Emits [unitFrame t data t.lastPts t.lastPts true .adts] c (adtsFrame mem c t adts data).1 ∧
      ∃ config track lastPts, track.mediaType = t.track.mediaType ∧
        (adtsFrame mem c t adts data).2.1 =
          { t with config := config, track := track, lastPts := lastPts } := by
  obtain ⟨h7, hframe, -⟩ := adtsParse_header hparse
  have hout : ∀ c₁ config config', Emits [] c c₁ →
      Emits [unitFrame t data t.lastPts t.lastPts true .adts] c (emit mem c₁ { t with
        config := config
        track := describe t.track adts config' } data t.lastPts t.lastPts true false .adts) :=
    fun c₁ config config' hemit => hemit.trans (emit_media hm hne
      (by rw [hemit.maxAuBytes]; exact hle) t.lastPts t.lastPts true .adts)
  unfold adtsFrame
  rw [hlen, List.take_length]
  cases ha : audioSpecificConfig adts with
  | none =>
    exact ⟨hout c t.config t.track.config (Emits.refl c), t.config,
      describe t.track adts t.track.config, t.lastPts + (1024 * 90000 / adts.sampleRate : ℕ),
      rfl, rfl⟩
  | some asc =>
    have hasc : asc.length ≤ c.maxAuBytes := by
      unfold audioSpecificConfig at ha
      split_ifs at ha
      rw [← Option.some.inj ha]
      simp only [List.length_cons, List.length_nil]
      omega
    obtain ⟨hemit, config, config', ht⟩ := @emitConfig_spec mem c hm asc hasc t .raw
    dsimp only
    rw [ht]
    exact ⟨hout _ config config' hemit, config, describe t.track adts config',
      t.lastPts + (1024 * 90000 / adts.sampleRate : ℕ), rfl, rfl⟩

theorem auFlush_audio (hm : Plenty mem) (he : Elementary c.maxAuBytes r.2 f data)
    (hk : kind r.2 = .audio) (hg : Gathers r index f data [] t) :
    Emits [received r.2 index f] c (auFlush mem c t).1 ∧ Idle r index (auFlush mem c t).2 ∧
      (auFlush mem c t).2.cc = t.cc := by
  obtain rfl : data = t.au := by
    rw [← hg.au, List.append_nil]
  obtain ⟨adts, hparse, hlen⟩ := he.audio hk
  have hrem : t.pesRemaining = 0 := by
    rw [hg.remaining, hk]
    rfl
  obtain ⟨hemit, config, track, lastPts, htype, ht⟩ := @adtsFrame_spec mem c t.au hm adts
    he.nonempty he.fits hlen hparse { t with lastPts := t.pts }
  unfold auFlush
  rw [if_neg hg.begun, if_neg (by simp [hg.whole]),
    if_pos (hg.plays.codec.trans (kind_audio_codec hk))]
  unfold audioFlush
  dsimp only
  rw [if_pos hg.hasPts]
  dsimp only
  rw [adtsLoop_one hparse hlen, ht]
  dsimp only
  have hsame : unitFrame { t with lastPts := t.pts } t.au t.pts t.pts true .adts =
      received r.2 index f := by
    simp [unitFrame, received, impliedKeyframe, hg.plays.codec, hg.plays.trackIndex,
      hg.plays.mediaType, hk, he.mediaType, he.payload, hg.pts]
  rw [hsame] at hemit
  refine ⟨?_, ⟨⟨hg.plays.pid, hg.plays.streamType, hg.plays.codec, hg.plays.trackIndex,
    htype.trans hg.plays.mediaType⟩, rfl, hg.whole, hrem⟩, rfl⟩
  split_ifs with hchanged
  · have hset : ∀ set, Emits [] (adtsFrame mem c { t with lastPts := t.pts } adts t.au).1
        ({ (adtsFrame mem c { t with lastPts := t.pts } adts t.au).1 with
          trackset := set }.emitOut (.tracks set)) := by
      intro set
      refine ⟨rfl, rfl, rfl, rfl, rfl, rfl, rfl, rfl, ?_⟩
      simp [Core.emitOut, media, mediaFrame]
    exact hemit.trans (hset _)
  · exact hemit

theorem auFlush_unit (hm : Plenty mem) (he : Elementary c.maxAuBytes r.2 f data)
    (hg : Gathers r index f data [] t) :
    Emits [received r.2 index f] c (auFlush mem c t).1 ∧ Idle r index (auFlush mem c t).2 ∧
      (auFlush mem c t).2.cc = t.cc := by
  rcases kind_cases r.2 with hk | hk
  · exact auFlush_video hm he hk hg
  · exact auFlush_audio hm he hk hg

theorem auFlush_idle (hi : Idle r index t) :
    Emits [] c (auFlush mem c t).1 ∧ Idle r index (auFlush mem c t).2 ∧
      (auFlush mem c t).2.cc = t.cc := by
  unfold auFlush
  rw [if_pos hi.au]
  obtain ⟨hp, hau, -, hrem⟩ := hi
  exact ⟨Emits.refl c, ⟨⟨hp.pid, hp.streamType, hp.codec, hp.trackIndex, hp.mediaType⟩, hau, rfl,
    hrem⟩, rfl⟩

theorem auAppend_spec (hm : Plenty mem) (hne : piece ≠ [])
    (hle : t.au.length + piece.length ≤ c.maxAuBytes) :
    (auAppend mem c t piece).1 = c ∧
      ∃ cap, (auAppend mem c t piece).2 = { t with au := t.au ++ piece, auCap := cap } := by
  unfold auAppend
  dsimp only
  rw [if_neg hne, if_neg (by omega), if_neg (by simp [hm.bytes])]
  exact ⟨rfl, _, rfl⟩

def After (r : ℕ × ℕ) (index : ℕ) (f : Frame) (data rest : List UInt8) (fs : List Frame)
    (t : EsTrack) : Prop :=
  if rest = [] ∧ kind r.2 = .audio then Idle r index t ∧ fs = [received r.2 index f]
  else Gathers r index f data rest t ∧ fs = []

theorem After.plays (h : After r index f data rest fs t) : Plays r index t := by
  unfold After at h
  split_ifs at h
  · exact h.1.plays
  · exact h.1.plays

/-- The unit is flushed when the PES is bounded and all of it has come. -/
theorem settle (hm : Plenty mem) (he : Elementary c.maxAuBytes r.2 f data)
    (hg : Gathers r index f data rest t) (hk : kind r.2 = .audio) :
    ∃ fs, Emits fs c (if t.pesRemaining = 0 then auFlush mem c t else (c, t)).1 ∧
      After r index f data rest fs (if t.pesRemaining = 0 then auFlush mem c t else (c, t)).2 ∧
      (if t.pesRemaining = 0 then auFlush mem c t else (c, t)).2.cc = t.cc := by
  have hrem := hg.remaining
  rw [hk, if_pos rfl] at hrem
  unfold After
  by_cases hr : rest = []
  · subst hr
    rw [List.length_nil] at hrem
    rw [if_pos hrem]
    obtain ⟨hemit, hidle, hcc⟩ := auFlush_unit hm he hg
    refine ⟨_, hemit, ?_, hcc⟩
    rw [if_pos ⟨rfl, hk⟩]
    exact ⟨hidle, rfl⟩
  · have hpos : t.pesRemaining ≠ 0 := by
      rw [hrem]
      exact fun h0 => hr (List.length_eq_zero_iff.mp h0)
    rw [if_neg hpos]
    refine ⟨[], Emits.refl c, ?_, rfl⟩
    rw [if_neg (fun h => hr h.1)]
    exact ⟨hg, rfl⟩

theorem Gathers.take (hg : Gathers r index f data (piece ++ rest) t) {cap n : ℕ}
    (hn : n = if kind r.2 = .audio then rest.length else 0) :
    Gathers r index f data rest
      { t with au := t.au ++ piece, auCap := cap, pesRemaining := n } := by
  refine ⟨⟨hg.plays.pid, hg.plays.streamType, hg.plays.codec, hg.plays.trackIndex,
    hg.plays.mediaType⟩, ?_, ?_, hg.whole, hn, hg.hasPts, hg.pts, hg.dts⟩
  · rw [List.append_assoc]
    exact hg.au
  · simp [hg.begun]

theorem pesContinue_unit (hm : Plenty mem) (he : Elementary c.maxAuBytes r.2 f data)
    (hne : piece ≠ []) (hg : Gathers r index f data (piece ++ rest) t) :
    ∃ fs, Emits fs c (pesContinue mem c t piece).1 ∧
      After r index f data rest fs (pesContinue mem c t piece).2 ∧
      (pesContinue mem c t piece).2.cc = t.cc := by
  have hlen : t.au.length + piece.length ≤ c.maxAuBytes := by
    have hdata := congrArg List.length hg.au
    have hfits := he.fits
    simp only [List.length_append] at hdata
    omega
  have hrem := hg.remaining
  unfold pesContinue
  rw [if_neg (fun h => hg.begun h.1)]
  rcases kind_cases r.2 with hk | hk
  · -- an unbounded PES just grows
    rw [hk, if_neg (by simp)] at hrem
    rw [if_neg (by omega)]
    obtain ⟨hc, cap, ht⟩ := @auAppend_spec mem c t piece hm hne hlen
    refine ⟨[], by rw [hc]; exact Emits.refl c, ?_, by rw [ht]⟩
    unfold After
    rw [if_neg (by simp [hk]), ht]
    refine ⟨?_, rfl⟩
    have hnext := @Gathers.take t r index f data rest piece hg cap 0 (by rw [hk, if_neg (by simp)])
    rwa [← hrem] at hnext
  · rw [hk, if_pos rfl, List.length_append] at hrem
    have hpos := List.length_pos_iff.mpr hne
    rw [if_pos (by omega)]
    have htake : piece.take t.pesRemaining = piece := List.take_of_length_le (by omega)
    obtain ⟨hc, cap, ht⟩ := @auAppend_spec mem c t piece hm hne hlen
    dsimp only
    rw [htake, hc, ht]
    have hnext : Gathers r index f data rest { t with
        au := t.au ++ piece, auCap := cap, pesRemaining := t.pesRemaining - piece.length } := by
      apply hg.take
      rw [hk, if_pos rfl]
      omega
    exact settle hm he hnext hk

theorem bits_33 (v : ℤ) : ((TsMux.bits 64 v % 2 ^ 33 : ℕ) : ℤ) = v % 2 ^ 33 := by
  unfold TsMux.bits
  omega

theorem pesTs_putTs {a : List UInt8} {i : ℕ} (hi : a.length = i) (mark : ℕ) (v : ℤ)
    (b : List UInt8) : ((pesTs (a ++ (TsMux.putTs mark v ++ b)) i : ℕ) : ℤ) = v % 2 ^ 33 := by
  rw [← bits_33 v]
  congr 1
  have hread : ∀ k, byteAt (a ++ (TsMux.putTs mark v ++ b)) (i + k) =
      byteAt (TsMux.putTs mark v ++ b) k := byteAt_add hi _
  have h0 := hread 0
  rw [Nat.add_zero] at h0
  unfold pesTs
  rw [h0, hread 1, hread 2, hread 3, hread 4]
  unfold TsMux.putTs
  dsimp only
  simp only [List.cons_append, byteAt_zero, byteAt_succ, low_toNat]
  generalize TsMux.bits 64 v = n
  omega

def pesFixed (f : Frame) (n : ℕ) : List UInt8 :=
  let headerLen := if f.pts = f.dts then 14 else 19
  let totalLen := 3 + (headerLen - 9) + n
  [0x00, 0x00, 0x01] ++
    (if f.mediaType = .audio then [0xC0, low (totalLen / 256), low totalLen]
      else [0xE0, 0x00, 0x00]) ++
    [0x80, if f.pts = f.dts then 0x80 else 0xC0, low (headerLen - 9)]

theorem pesFixed_length (f : Frame) (n : ℕ) : (pesFixed f n).length = 9 := by
  unfold pesFixed
  by_cases ha : f.mediaType = .audio <;> simp [ha]

theorem pesHeader_eq (f : Frame) (n : ℕ) (piece : List UInt8) :
    TsMux.pesHeader f n ++ piece = pesFixed f n ++
      (TsMux.putTs (if f.pts = f.dts then 0x2 else 0x3) f.pts ++
        ((if f.pts = f.dts then [] else TsMux.putTs 0x1 f.dts) ++ piece)) := by
  simp only [TsMux.pesHeader, pesFixed, List.append_assoc]

theorem pesHeader_read (f : Frame) (n : ℕ) (piece : List UInt8) :
    be24 (TsMux.pesHeader f n ++ piece) 0 = 1 ∧
      byteAt (TsMux.pesHeader f n ++ piece) 6 = 128 ∧
      byteAt (TsMux.pesHeader f n ++ piece) 7 = (if f.pts = f.dts then 128 else 192) ∧
      byteAt (TsMux.pesHeader f n ++ piece) 8 = (if f.pts = f.dts then 5 else 10) ∧
      byteAt (TsMux.pesHeader f n ++ piece) 4 * 256 + byteAt (TsMux.pesHeader f n ++ piece) 5 =
        if f.mediaType = .audio then (3 + (if f.pts = f.dts then 5 else 10) + n) % 65536 else 0 := by
  rw [pesHeader_eq]
  by_cases ha : f.mediaType = .audio <;> by_cases ht : f.pts = f.dts <;>
    simp [pesFixed, ha, ht, be24] <;> omega

theorem pesHeader_pts (f : Frame) (n : ℕ) (piece : List UInt8) :
    ((pesTs (TsMux.pesHeader f n ++ piece) 9 : ℕ) : ℤ) = f.pts % 2 ^ 33 := by
  rw [pesHeader_eq]
  exact pesTs_putTs (pesFixed_length f n) _ f.pts _

theorem pesHeader_dts (f : Frame) (n : ℕ) (piece : List UInt8) (hne : f.pts ≠ f.dts) :
    ((pesTs (TsMux.pesHeader f n ++ piece) 14 : ℕ) : ℤ) = f.dts % 2 ^ 33 := by
  rw [pesHeader_eq, if_neg hne, if_neg hne, ← List.append_assoc]
  refine pesTs_putTs ?_ 0x1 f.dts piece
  rw [List.length_append, pesFixed_length]
  rfl

theorem pesPayload_unit (hm : Plenty mem) (he : Elementary c.maxAuBytes r.2 f data)
    (hdata : piece ++ rest = data) (hne : piece ≠ []) (hi : Idle r index t)
    (hpts : t.hasPts = true ∧ t.pts = f.pts % 2 ^ 33)
    (hdts : (if t.hasDts then t.dts else t.pts) = f.dts % 2 ^ 33) {p : List UInt8} {off : ℕ}
    (hdrop : p.drop off = piece)
    (hlen : byteAt p 4 * 256 + byteAt p 5 =
      if kind r.2 = .audio then 3 + byteAt p 8 + data.length else 0) :
    ∃ fs, Emits fs c (pesPayload mem c t p off).1 ∧
      After r index f data rest fs (pesPayload mem c t p off).2 ∧
      (pesPayload mem c t p off).2.cc = t.cc := by
  have hsize := congrArg List.length hdata
  rw [List.length_append] at hsize
  have hfits := he.fits
  have hroom : t.au.length + piece.length ≤ c.maxAuBytes := by
    rw [hi.au, List.length_nil]
    omega
  unfold pesPayload
  dsimp only
  rw [hdrop]
  rcases kind_cases r.2 with hk | hk
  · rw [hk, if_neg (by simp)] at hlen
    rw [hlen, if_pos rfl]
    obtain ⟨hc, cap, ht⟩ := @auAppend_spec mem c t piece hm hne hroom
    refine ⟨[], by rw [hc]; exact Emits.refl c, ?_, by rw [ht]⟩
    unfold After
    rw [if_neg (by simp [hk]), ht]
    refine ⟨⟨⟨hi.plays.pid, hi.plays.streamType, hi.plays.codec, hi.plays.trackIndex,
      hi.plays.mediaType⟩, ?_, ?_, hi.whole, ?_, hpts.1, hpts.2, hdts⟩, rfl⟩
    · rw [hi.au]
      exact hdata
    · simp [hne]
    · rw [hk, if_neg (by simp)]
      exact hi.remaining
  · rw [hk, if_pos rfl] at hlen
    rw [hlen, if_neg (by omega), if_neg (by omega)]
    have hbound : 3 + byteAt p 8 + data.length - 3 - byteAt p 8 = data.length := by omega
    have htake : piece.take data.length = piece := List.take_of_length_le (by omega)
    have hleft : data.length - min piece.length data.length = rest.length := by omega
    rw [hbound, htake, hleft]
    obtain ⟨hc, cap, ht⟩ := @auAppend_spec mem c { t with pesRemaining := rest.length } piece hm
      hne hroom
    rw [hc, ht]
    have hnext : Gathers r index f data rest { t with
        pesRemaining := rest.length, au := t.au ++ piece, auCap := cap } := by
      refine ⟨⟨hi.plays.pid, hi.plays.streamType, hi.plays.codec, hi.plays.trackIndex,
        hi.plays.mediaType⟩, ?_, ?_, hi.whole, ?_, hpts.1, hpts.2, hdts⟩
      · rw [hi.au]
        exact hdata
      · simp [hne]
      · rw [hk, if_pos rfl]
    exact settle hm he hnext hk

theorem pesStart_unit (hm : Plenty mem) (he : Elementary c.maxAuBytes r.2 f data)
    (hdata : piece ++ rest = data) (hne : piece ≠ []) (hi : Idle r index t) :
    ∃ fs, Emits fs c (pesStart mem c t (TsMux.pesHeader f data.length ++ piece)).1 ∧
      After r index f data rest fs
        (pesStart mem c t (TsMux.pesHeader f data.length ++ piece)).2 ∧
      (pesStart mem c t (TsMux.pesHeader f data.length ++ piece)).2.cc = t.cc := by
  obtain ⟨hstart, h6, h7, h8, h45⟩ := pesHeader_read f data.length piece
  have hlen := TsMux.pesHeader_length f data.length
  have hpts := pesHeader_pts f data.length piece
  have hdts := pesHeader_dts f data.length piece
  have hbound : byteAt (TsMux.pesHeader f data.length ++ piece) 4 * 256 +
      byteAt (TsMux.pesHeader f data.length ++ piece) 5 = if kind r.2 = .audio then
        3 + byteAt (TsMux.pesHeader f data.length ++ piece) 8 + data.length else 0 := by
    rw [h45, h8, he.mediaType]
    by_cases hk : kind r.2 = .audio
    · obtain ⟨adts, hparse, hsize⟩ := he.audio hk
      have := adtsParse_frameLen hparse
      rw [if_pos hk, if_pos hk]
      apply Nat.mod_eq_of_lt
      split_ifs <;> omega
    · rw [if_neg hk, if_neg hk]
  have hpos := List.length_pos_iff.mpr hne
  have hdrop : ∀ n, (TsMux.pesHeader f data.length).length = n →
      (TsMux.pesHeader f data.length ++ piece).drop n = piece := fun n hn => List.drop_left' hn
  have hplays := hi.plays
  unfold pesStart
  dsimp only
  by_cases ht : f.pts = f.dts
  · -- a PTS only
    rw [if_pos ht] at hlen h7 h8
    have hshort : ¬ (14 + piece.length < 9 ∨ 1 ≠ 1 ∨ 128 / 64 ≠ 2) := by omega
    have hoff : ¬ 9 + 5 > 14 + piece.length := by omega
    have hroom : ¬ (128 / 64 / 2 = 1 ∧ 14 + piece.length < 14) := by omega
    have hboth : ¬ (128 / 64 = 3 ∧ 14 + piece.length < 19) := by omega
    have hpresent : 128 / 64 / 2 = 1 := by decide
    have hnodts : ¬ 128 / 64 = 3 := by decide
    rw [List.length_append, hstart, h6, h7, h8, hlen, if_neg hshort, if_neg hoff, if_neg hroom, if_neg hboth, if_neg hnodts,
      if_pos hpresent]
    have hidle : Idle r index { t with
        pts := (pesTs (TsMux.pesHeader f data.length ++ piece) 9 : ℕ)
        hasPts := true
        hasDts := false
        pesRemaining := 0 } :=
      ⟨⟨hplays.pid, hplays.streamType, hplays.codec, hplays.trackIndex, hplays.mediaType⟩, hi.au,
        hi.whole, rfl⟩
    exact pesPayload_unit hm he hdata hne hidle ⟨rfl, hpts⟩ (hpts.trans (by rw [ht]))
      (hdrop 14 hlen) hbound
  · -- a PTS and a DTS
    rw [if_neg ht] at hlen h7 h8
    have hshort : ¬ (19 + piece.length < 9 ∨ 1 ≠ 1 ∨ 128 / 64 ≠ 2) := by omega
    have hoff : ¬ 9 + 10 > 19 + piece.length := by omega
    have hroom : ¬ (192 / 64 / 2 = 1 ∧ 19 + piece.length < 14) := by omega
    have hboth : ¬ (192 / 64 = 3 ∧ 19 + piece.length < 19) := by omega
    have hpresent : 192 / 64 / 2 = 1 := by decide
    have hwithdts : 192 / 64 = 3 := by decide
    rw [List.length_append, hstart, h6, h7, h8, hlen, if_neg hshort, if_neg hoff, if_neg hroom, if_neg hboth, if_pos hwithdts,
      if_pos hpresent]
    have hidle : Idle r index { t with
        pts := (pesTs (TsMux.pesHeader f data.length ++ piece) 9 : ℕ)
        hasPts := true
        dts := (pesTs (TsMux.pesHeader f data.length ++ piece) 14 : ℕ)
        hasDts := true
        pesRemaining := 0 } :=
      ⟨⟨hplays.pid, hplays.streamType, hplays.codec, hplays.trackIndex, hplays.mediaType⟩, hi.au,
        hi.whole, rfl⟩
    exact pesPayload_unit hm he hdata hne hidle ⟨rfl, hpts⟩ (hdts ht) (hdrop 19 hlen) hbound

end TsUnits
