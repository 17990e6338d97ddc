import NginxMedia.TsDemux

/-! The times of the configuration frames of `ngx_media_ts_demux.c`. A configuration goes out with
the fields that the last PES headers left in the track, a media frame with times that fall back
when its own PES has none; when the two agree. -/
namespace TsConfigTimes

open MediaTypes ByteString MediaCodec TsDemux

/-- What counts of a frame that was handed over: whether it is configuration, and its times. -/
structure Stamp where
  config : Bool
  pts : ℤ
  dts : ℤ
  deriving DecidableEq, Repr

def stampOf : Output → Option Stamp
  | .frame f => some ⟨f.config, f.pts, f.dts⟩
  | .tracks _ => none

/-- The frames that a flush handed to the sink. -/
def handedOver (before after : Core) : List Stamp :=
  (after.out.drop before.out.length).filterMap stampOf

def Timed : List Stamp → Prop
  | [] => True
  | s :: rest =>
    (s.config = true → ∀ m ∈ rest.find? (fun m => !m.config), s.pts = m.pts ∧ s.dts = m.dts) ∧
      Timed rest

/-- `ngx_media_ts_emit()` hands these bytes over. -/
def handed (mem : Memory) (maxAuBytes : ℕ) (data : List UInt8) : Bool :=
  data ≠ [] ∧ data.length ≤ maxAuBytes ∧ mem.bytes data.length

/-- `ngx_media_ts_emit_config()` takes these bytes for the configuration of the track. -/
def fresh (mem : Memory) (config : Option Payload) (data : List UInt8) : Bool :=
  data ≠ [] ∧ config ≠ some data ∧ mem.bytes data.length

def adtsFrames (p : List UInt8) : List (Adts × List UInt8) :=
  if p.length < adtsHeaderMin then []
  else
    match _h : adtsParse p with
    | none => []
    | some adts =>
      if adts.frameLen > p.length then []
      else (adts, p.take adts.frameLen) :: adtsFrames (p.drop adts.frameLen)
termination_by p.length
decreasing_by
  have := adtsParse_header _h
  rw [List.length_drop]
  omega

/-- One ADTS frame of a unit: whether a configuration frame goes ahead of it, whether it is handed
over itself, and how long it lasts. -/
structure Beat where
  config : Bool
  media : Bool
  duration : ℤ
  deriving DecidableEq, Repr

def beats (mem : Memory) (maxAuBytes : ℕ) :
    Option Payload → List (Adts × List UInt8) → List Beat
  | _, [] => []
  | config, (adts, data) :: rest =>
    let duration := (1024 * 90000 / adts.sampleRate : ℕ)
    match audioSpecificConfig adts with
    | some asc =>
      ⟨fresh mem config asc && handed mem maxAuBytes asc, handed mem maxAuBytes data, duration⟩ ::
        beats mem maxAuBytes (if fresh mem config asc then some asc else config) rest
    | none => ⟨false, handed mem maxAuBytes data, duration⟩ :: beats mem maxAuBytes config rest

/-- How long it is to the next frame that is handed over. -/
def wait : List Beat → Option ℤ
  | [] => none
  | b :: rest => if b.media then some 0 else (wait rest).map (b.duration + ·)

/-- Wherever configuration goes ahead of an audio frame, the fields left in the track say the time
that the unit has come to there, `clock` behind its first frame. -/
def AudioInStep (t : EsTrack) : ℤ → List Beat → Prop
  | _, [] => True
  | clock, b :: rest =>
    (b.config = true → ∀ e ∈ wait (b :: rest), t.dts = t.pts ∧
      t.pts = (if t.hasPts then t.pts else t.lastPts) + (clock + e)) ∧
      AudioInStep t (clock + b.duration) rest

def unitConfig (mem : Memory) (t : EsTrack) : Scan :=
  scanNals mem t.codec ⟨[], 0, false, false, false⟩ (nals t.au)

def VideoInStep (mem : Memory) (maxAuBytes : ℕ) (t : EsTrack) : Prop :=
  (unitConfig mem t).haveConfig = true → fresh mem t.config (unitConfig mem t).cfg = true →
    handed mem maxAuBytes (unitConfig mem t).cfg = true → (unitConfig mem t).vcl = true →
    handed mem maxAuBytes t.au = true →
    (t.hasPts = false → t.pts = t.lastPts) ∧ (t.hasDts = false → t.dts = t.pts)

/-- The fields left in the track are the times of the unit wherever configuration is new. -/
def InStep (mem : Memory) (maxAuBytes : ℕ) (t : EsTrack) : Prop :=
  t.auOverflow = false →
    if t.codec = .aac then AudioInStep t 0 (beats mem maxAuBytes t.config (adtsFrames t.au))
    else VideoInStep mem maxAuBytes t

structure Hands (fs : List Stamp) (c c' : Core) : Prop where
  maxAuBytes : c'.maxAuBytes = c.maxAuBytes
  out : ∃ new, c'.out = c.out ++ new ∧ new.filterMap stampOf = fs

variable {fs fs' : List Stamp} {mem : Memory} {c c' c'' : Core} {t : EsTrack}

theorem Hands.refl (c : Core) : Hands [] c c :=
  ⟨rfl, [], (List.append_nil _).symm, rfl⟩

theorem Hands.trans (h : Hands fs c c') (h' : Hands fs' c' c'') : Hands (fs ++ fs') c c'' := by
  obtain ⟨new, hout, hnew⟩ := h.out
  obtain ⟨new', hout', hnew'⟩ := h'.out
  refine ⟨h'.maxAuBytes.trans h.maxAuBytes, new ++ new', ?_, ?_⟩
  · rw [hout', hout, List.append_assoc]
  · rw [List.filterMap_append, hnew, hnew']

theorem Hands.handedOver (h : Hands fs c c') : handedOver c c' = fs := by
  obtain ⟨new, hout, hnew⟩ := h.out
  rw [TsConfigTimes.handedOver, hout, List.drop_left, hnew]

/-- The track sets that go out between the frames are no frames. -/
theorem Hands.tracks (h : Hands fs c c') (set : TrackSet) : Hands fs c (c'.emitOut (.tracks set)) := by
  have hset : Hands [] c' (c'.emitOut (.tracks set)) := ⟨rfl, [.tracks set], rfl, rfl⟩
  simpa using h.trans hset

theorem Hands.ready (h : Hands fs c c') (ready : Bool) (set : TrackSet) :
    Hands fs c (if ready then c'.emitOut (.tracks set) else c') := by
  cases ready with
  | false => exact h
  | true => exact h.tracks set

theorem handed_iff {max : ℕ} {data : List UInt8} :
    handed mem max data = true ↔ data ≠ [] ∧ data.length ≤ max ∧ mem.bytes data.length = true := by
  simp [handed]

theorem emit_hands (data : List UInt8) (pts dts : ℤ) (keyframe config : Bool)
    (format : PayloadFormat) :
    Hands (if handed mem c.maxAuBytes data then [⟨config, pts, dts⟩] else []) c
      (emit mem c t data pts dts keyframe config format) := by
  unfold emit
  by_cases hempty : data = []
  · rw [if_pos hempty, if_neg (by simp [handed_iff, hempty])]
    exact Hands.refl c
  · rw [if_neg hempty]
    by_cases hlong : data.length > c.maxAuBytes
    · rw [if_pos hlong, if_neg (by rw [handed_iff]; omega)]
      exact ⟨rfl, [], (List.append_nil _).symm, rfl⟩
    · rw [if_neg hlong]
      by_cases hmem : mem.bytes data.length = false
      · rw [if_pos hmem, if_neg (by simp [handed_iff, hmem])]
        exact Hands.refl c
      · rw [if_neg hmem, if_pos (by
          rw [handed_iff]
          exact ⟨hempty, by omega, Bool.not_eq_false _ ▸ hmem⟩)]
        exact ⟨rfl, _, rfl, rfl⟩

def configStamps (mem : Memory) (maxAuBytes : ℕ) (t : EsTrack) (data : List UInt8) : List Stamp :=
  if fresh mem t.config data && handed mem maxAuBytes data then [⟨true, t.pts, t.dts⟩] else []

theorem emitConfig_hands (t : EsTrack) (data : List UInt8) (format : PayloadFormat) :
    Hands (configStamps mem c.maxAuBytes t data) c (emitConfig mem c t data format).1 ∧
      ∃ track, (emitConfig mem c t data format).2 =
        { t with
          config := if fresh mem t.config data then some data else t.config
          track := track } := by
  unfold emitConfig configStamps
  by_cases hempty : data = []
  · have hfresh : fresh mem t.config data = false := by simp [fresh, hempty]
    rw [if_pos hempty, hfresh, Bool.false_and]
    exact ⟨Hands.refl c, t.track, rfl⟩
  · rw [if_neg hempty]
    by_cases hsame : t.config = some data
    · have hfresh : fresh mem t.config data = false := by simp [fresh, hsame]
      rw [if_pos hsame, hfresh, Bool.false_and]
      exact ⟨Hands.refl c, t.track, rfl⟩
    · rw [if_neg hsame]
      by_cases hmem : mem.bytes data.length = false
      · have hfresh : fresh mem t.config data = false := by simp [fresh, hmem]
        rw [if_pos hmem, hfresh, Bool.false_and]
        exact ⟨Hands.refl c, t.track, rfl⟩
      · have hfresh : fresh mem t.config data = true := by simp [fresh, hempty, hsame, hmem]
        rw [if_neg hmem, hfresh, Bool.true_and, if_pos rfl]
        refine ⟨?_, { t.track with config := some data }, rfl⟩
        have hset : Hands [] c { c with
            trackset := c.trackset.modify t.trackIndex fun tr =>
              { tr with config := some data } } :=
          ⟨rfl, [], (List.append_nil _).symm, rfl⟩
        have hemit := hset.trans (@emit_hands mem { c with
          trackset := c.trackset.modify t.trackIndex fun tr => { tr with config := some data } }
          { t with config := some data, track := { t.track with config := some data } } data t.pts
          t.dts true true format)
        exact hemit.ready _ _

def play (pts dts : ℤ) : ℤ → List Beat → List Stamp
  | _, [] => []
  | clock, b :: rest =>
    (if b.config then [⟨true, pts, dts⟩] else []) ++
      ((if b.media then [⟨false, clock, clock⟩] else []) ++ play pts dts (clock + b.duration) rest)

theorem adtsFrame_hands {adts : Adts} {p : List UInt8} {b : Beat} {more : List Beat}
    {rest : List (Adts × List UInt8)}
    (hb : beats mem c.maxAuBytes t.config ((adts, p.take adts.frameLen) :: rest) = b :: more) :
    Hands (play t.pts t.dts t.lastPts [b]) c (adtsFrame mem c t adts p).1 ∧
      ∃ config track, (adtsFrame mem c t adts p).2.1 =
        { t with config := config, track := track, lastPts := t.lastPts + b.duration } ∧
        more = beats mem c.maxAuBytes config rest := by
  unfold adtsFrame
  rw [beats] at hb
  cases hasc : audioSpecificConfig adts with
  | none =>
    rw [hasc] at hb
    obtain ⟨rfl, rfl⟩ := List.cons.inj hb
    refine ⟨?_, t.config, _, rfl, rfl⟩
    simp only [play, List.append_nil, Bool.false_eq_true, if_false, List.nil_append]
    exact emit_hands _ _ _ _ _ _
  | some asc =>
    rw [hasc] at hb
    obtain ⟨rfl, rfl⟩ := List.cons.inj hb
    obtain ⟨hconfig, track, htrack⟩ := @emitConfig_hands mem c t asc .raw
    dsimp only
    rw [htrack]
    refine ⟨?_, _, _, rfl, rfl⟩
    have hlimit := hconfig.maxAuBytes
    have hmedia := hconfig.trans (@emit_hands mem (emitConfig mem c t asc .raw).1 { t with
      config := if fresh mem t.config asc then some asc else t.config
      track := { track with
        sampleRate := adts.sampleRate, channels := adts.channels, profile := adts.objectType } }
      (p.take adts.frameLen) t.lastPts t.lastPts true false .adts)
    rw [hlimit] at hmedia
    simp only [play, List.append_nil]
    exact hmedia

theorem play_cons (pts dts clock : ℤ) (b : Beat) (rest : List Beat) :
    play pts dts clock (b :: rest) =
      play pts dts clock [b] ++ play pts dts (clock + b.duration) rest := by
  simp only [play, List.append_nil, List.append_assoc]

section Frames

variable {c : Core} {t : EsTrack} {p : List UInt8} {changed : Bool} {adts : Adts}

theorem adtsFrames_none (hshort : ¬p.length < adtsHeaderMin) (hparse : adtsParse p = none) :
    adtsFrames p = [] := by
  rw [adtsFrames, if_neg hshort]
  split
  · rfl
  · next hsome =>
    rw [hparse] at hsome
    contradiction

theorem adtsFrames_some (hshort : ¬p.length < adtsHeaderMin) (hparse : adtsParse p = some adts) :
    adtsFrames p = if adts.frameLen > p.length then []
      else (adts, p.take adts.frameLen) :: adtsFrames (p.drop adts.frameLen) := by
  rw [adtsFrames, if_neg hshort]
  split
  · next hnone =>
    rw [hparse] at hnone
    contradiction
  · next adts' hsome =>
    rw [hparse] at hsome
    obtain rfl := Option.some.inj hsome
    rfl

theorem adtsLoop_none (hshort : ¬p.length < adtsHeaderMin) (hparse : adtsParse p = none) :
    adtsLoop mem c t p changed = (c.pesError, t, changed) := by
  rw [adtsLoop, if_neg hshort]
  split
  · rfl
  · next hsome =>
    rw [hparse] at hsome
    contradiction

theorem adtsLoop_some (hshort : ¬p.length < adtsHeaderMin) (hparse : adtsParse p = some adts) :
    adtsLoop mem c t p changed = if adts.frameLen > p.length then (c.pesError, t, changed)
      else adtsLoop mem (adtsFrame mem c t adts p).1 (adtsFrame mem c t adts p).2.1
        (p.drop adts.frameLen) (changed || (adtsFrame mem c t adts p).2.2) := by
  rw [adtsLoop, if_neg hshort]
  split
  · next hnone =>
    rw [hparse] at hnone
    contradiction
  · next adts' hsome =>
    rw [hparse] at hsome
    obtain rfl := Option.some.inj hsome
    rfl

end Frames

theorem adtsLoop_hands (c : Core) (t : EsTrack) (p : List UInt8) (changed : Bool) :
    Hands (play t.pts t.dts t.lastPts (beats mem c.maxAuBytes t.config (adtsFrames p))) c
      (adtsLoop mem c t p changed).1 := by
  induction c, t, p, changed using adtsLoop.induct mem with
  | case1 c t p changed hshort =>
    rw [adtsLoop, if_pos hshort, adtsFrames, if_pos hshort]
    exact Hands.refl c
  | case2 c t p changed hshort hparse =>
    rw [adtsLoop_none hshort hparse, adtsFrames_none hshort hparse]
    exact ⟨rfl, [], (List.append_nil _).symm, rfl⟩
  | case3 c t p changed hshort adts hparse hlong =>
    rw [adtsLoop_some hshort hparse, if_pos hlong, adtsFrames_some hshort hparse, if_pos hlong]
    exact ⟨rfl, [], (List.append_nil _).symm, rfl⟩
  | case4 c t p changed hshort adts hparse hlong one ih =>
    rw [adtsLoop_some hshort hparse, if_neg hlong, adtsFrames_some hshort hparse, if_neg hlong]
    obtain ⟨b, more, hb⟩ : ∃ b more, beats mem c.maxAuBytes t.config
        ((adts, p.take adts.frameLen) :: adtsFrames (p.drop adts.frameLen)) = b :: more := by
      rw [beats]
      split <;> exact ⟨_, _, rfl⟩
    obtain ⟨hhands, config, track, ht, hmore⟩ := @adtsFrame_hands mem c t adts p b more _ hb
    change Hands _ _ (adtsFrame mem c t adts p).1 at hhands
    have hone : one = adtsFrame mem c t adts p := rfl
    rw [hone, ht, hhands.maxAuBytes] at ih
    rw [hb, play_cons, hmore, ht]
    exact hhands.trans ih

theorem find_play (pts dts clock : ℤ) (bs : List Beat) :
    (play pts dts clock bs).find? (fun m => !m.config) =
      (wait bs).map fun e => ⟨false, clock + e, clock + e⟩ := by
  induction bs generalizing clock with
  | nil => rfl
  | cons b rest ih =>
    rw [play, wait]
    cases b.config <;> cases b.media <;>
      simp [ih, Option.map_map, Function.comp_def, Int.add_assoc]

theorem timed_play (t : EsTrack) (clock : ℤ) (bs : List Beat) :
    Timed (play t.pts t.dts ((if t.hasPts then t.pts else t.lastPts) + clock) bs) ↔
      AudioInStep t clock bs := by
  obtain ⟨start, hstart⟩ : ∃ start, start = if t.hasPts then t.pts else t.lastPts := ⟨_, rfl⟩
  rw [← hstart]
  induction bs generalizing clock with
  | nil => simp [play, Timed, AudioInStep]
  | cons b rest ih =>
    have hrest := ih (clock + b.duration)
    rw [← Int.add_assoc] at hrest
    have hfind := find_play t.pts t.dts (start + clock) (b :: rest)
    rw [AudioInStep, ← hrest, ← hstart]
    rw [play] at hfind ⊢
    -- what follows the configuration frame: the media frame of the beat and the other beats
    obtain ⟨tail, htail⟩ : ∃ tail, tail = (if b.media then
        [(⟨false, start + clock, start + clock⟩ : Stamp)] else []) ++
        play t.pts t.dts (start + clock + b.duration) rest := ⟨_, rfl⟩
    have htimed : Timed tail ↔ Timed (play t.pts t.dts (start + clock + b.duration) rest) := by
      rw [htail]
      cases b.media with
      | false => simp
      | true => simp [Timed]
    rw [← htail] at hfind ⊢
    cases hconfig : b.config with
    | false => simp [htimed]
    | true =>
      rw [hconfig] at hfind
      simp only [if_true, List.cons_append, List.nil_append, List.find?_cons, Bool.not_true] at hfind
      simp only [if_true, List.cons_append, List.nil_append, Timed, forall_const, htimed, hfind]
      refine and_congr_left fun _ => ?_
      cases wait (b :: rest) with
      | none => simp
      | some e =>
        simp only [Option.map_some, Option.mem_def, Option.some.injEq, forall_eq']
        omega

theorem audioFlush_hands (c : Core) (t : EsTrack) :
    Hands (play t.pts t.dts (if t.hasPts then t.pts else t.lastPts)
      (beats mem c.maxAuBytes t.config (adtsFrames t.au))) c (audioFlush mem c t).1 := by
  obtain ⟨u, hu, hpts, hdts, hlast, hconfig, hau⟩ :
      ∃ u : EsTrack, u = (if t.hasPts then { t with lastPts := t.pts } else t) ∧ u.pts = t.pts ∧
        u.dts = t.dts ∧ u.lastPts = (if t.hasPts then t.pts else t.lastPts) ∧
        u.config = t.config ∧ u.au = t.au := by
    refine ⟨_, rfl, ?_⟩
    cases t.hasPts <;> exact ⟨rfl, rfl, rfl, rfl, rfl⟩
  have hloop := @adtsLoop_hands mem c u u.au false
  unfold audioFlush
  dsimp only
  rw [← hu, ← hlast, ← hpts, ← hdts, ← hconfig, ← hau]
  split_ifs with hchanged
  · exact ⟨hloop.maxAuBytes, (hloop.tracks _).out⟩
  · exact hloop

def unitPts (t : EsTrack) : ℤ := if t.hasPts then t.pts else t.lastPts

def unitDts (t : EsTrack) : ℤ := if t.hasDts then t.dts else unitPts t

def videoStamps (mem : Memory) (maxAuBytes : ℕ) (t : EsTrack) : List Stamp :=
  (if (unitConfig mem t).haveConfig then configStamps mem maxAuBytes t (unitConfig mem t).cfg
    else []) ++
  (if (unitConfig mem t).vcl && handed mem maxAuBytes t.au then
    [⟨false, unitPts t, unitDts t⟩] else [])

theorem auFlush_video_hands (hbegun : t.au ≠ []) (hwhole : t.auOverflow = false)
    (hcodec : t.codec ≠ .aac) :
    Hands (videoStamps mem c.maxAuBytes t) c (auFlush mem c t).1 := by
  obtain ⟨hconfig, track, htrack⟩ := @emitConfig_hands mem c t (unitConfig mem t).cfg .annexb
  have hlimit := hconfig.maxAuBytes
  have hscan : scanNals mem t.codec ⟨[], 0, false, false, false⟩ (nals t.au) = unitConfig mem t :=
    rfl
  unfold auFlush
  rw [if_neg hbegun, if_neg (by simp [hwhole]), if_neg hcodec, hscan]
  dsimp only
  unfold videoStamps
  cases hhave : (unitConfig mem t).haveConfig with
  | false =>
    cases (unitConfig mem t).vcl with
    | false => exact Hands.refl c
    | true =>
      simp only [Bool.false_eq_true, if_false, if_true, Bool.true_and, List.nil_append]
      exact emit_hands _ _ _ _ _ _
  | true =>
    simp only [if_true]
    rw [htrack]
    cases (unitConfig mem t).vcl with
    | false =>
      simp only [Bool.false_eq_true, if_false, Bool.false_and, List.append_nil]
      exact hconfig
    | true =>
      simp only [if_true, Bool.true_and]
      have h := hconfig.trans (@emit_hands mem (emitConfig mem c t (unitConfig mem t).cfg .annexb).1
        { t with
          config := if fresh mem t.config (unitConfig mem t).cfg then
            some (unitConfig mem t).cfg else t.config
          track := track } t.au (unitPts t) (unitDts t) (unitConfig mem t).keyframe false .annexb)
      rw [hlimit] at h
      exact h

theorem timed_video (maxAuBytes : ℕ) (t : EsTrack) :
    Timed (videoStamps mem maxAuBytes t) ↔ VideoInStep mem maxAuBytes t := by
  unfold videoStamps VideoInStep configStamps unitDts unitPts
  cases (unitConfig mem t).haveConfig <;> cases fresh mem t.config (unitConfig mem t).cfg <;>
    cases handed mem maxAuBytes (unitConfig mem t).cfg <;> cases (unitConfig mem t).vcl <;>
    cases handed mem maxAuBytes t.au <;> cases t.hasPts <;> cases t.hasDts <;>
    simp [Timed, eq_comm]
  intro h
  rw [h]
  exact eq_comm

/-- The configuration frames of a flush have the times of the media frames behind them exactly
when the fields left in the track are the times of the unit wherever configuration is new. -/
theorem config_timed_iff (mem : Memory) (c : Core) (t : EsTrack) :
    Timed (handedOver c (auFlush mem c t).1) ↔ InStep mem c.maxAuBytes t := by
  unfold InStep
  by_cases hempty : t.au = []
  · have hnone : handedOver c (auFlush mem c t).1 = [] := by
      unfold auFlush
      rw [if_pos hempty]
      exact (Hands.refl c).handedOver
    have hframes : adtsFrames [] = [] := by
      rw [adtsFrames, if_pos (by decide)]
    rw [hnone]
    refine ⟨fun _ _ => ?_, fun _ => trivial⟩
    by_cases hcodec : t.codec = .aac
    · rw [if_pos hcodec, hempty, hframes]
      trivial
    · rw [if_neg hcodec]
      intro _ _ _ _ hhanded
      rw [hempty] at hhanded
      simp [handed] at hhanded
  · by_cases hover : t.auOverflow = true
    · have hnone : handedOver c (auFlush mem c t).1 = [] := by
        unfold auFlush
        rw [if_neg hempty, if_pos hover]
        exact (Hands.refl c).handedOver
      rw [hnone]
      exact ⟨fun _ hwhole => absurd (hover.symm.trans hwhole) (by decide), fun _ => trivial⟩
    · have hwhole : t.auOverflow = false := by simpa using hover
      rw [forall_prop_of_true hwhole]
      by_cases hcodec : t.codec = .aac
      · have hflush : auFlush mem c t = audioFlush mem c t := by
          unfold auFlush
          rw [if_neg hempty, if_neg hover, if_pos hcodec]
        have hplay := timed_play t 0 (beats mem c.maxAuBytes t.config (adtsFrames t.au))
        rw [Int.add_zero] at hplay
        rw [if_pos hcodec, hflush, (audioFlush_hands c t).handedOver]
        exact hplay
      · rw [if_neg hcodec, (auFlush_video_hands hempty hwhole hcodec).handedOver]
        exact timed_video c.maxAuBytes t

def firstPicture : List UInt8 :=
  [0, 0, 1, 0xE0, 0, 0, 0x80, 0x80, 5, 0x21, 0, 5, 0xBF, 0x21] ++
    [0, 0, 0, 1, 0x67, 0x42, 0, 0, 0, 1, 0x65, 0x88]

def started : Core × EsTrack :=
  pesStart ⟨true, fun _ => true⟩ (Core.init 0 0) (EsTrack.new 0 0x100 0x1B) firstPicture

/-- The configuration of the first picture is dated zero. -/
theorem config_before_picture :
    handedOver started.1 (auFlush ⟨true, fun _ => true⟩ started.1 started.2).1 =
        [⟨true, 90000, 0⟩, ⟨false, 90000, 90000⟩] ∧
      ¬Timed (handedOver started.1 (auFlush ⟨true, fun _ => true⟩ started.1 started.2).1) := by
  have hstamps : handedOver started.1 (auFlush ⟨true, fun _ => true⟩ started.1 started.2).1 =
      [⟨true, 90000, 0⟩, ⟨false, 90000, 90000⟩] := by
    decide +kernel
  rw [hstamps]
  exact ⟨rfl, fun h => absurd (h.1 rfl _ rfl).2 (by decide)⟩

end TsConfigTimes
