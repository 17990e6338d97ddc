import NginxMedia.RtmpPublisher
import NginxMedia.StepRun

/-! One AVC publisher, sent as legacy FLV messages and as enhanced `avc1` messages. -/
namespace RtmpIngest
open MediaTypes ByteString RtmpConfig RtmpPublisher

/-- What an AVC publisher sends, apart from the form. `short` asks for an enhanced message
without composition time where there is none. -/
inductive AvcMessage where
  | config (frameType : Fin 8) (timestamp : ℕ) (record : List UInt8)
  | coded (frameType : Fin 8) (timestamp : ℕ) (cts : ℤ) (short : Bool) (payload : List UInt8)

/-- A composition time in 24 bits. -/
def ctsBytes (cts : ℤ) : List UInt8 := put24 (cts % 2 ^ 24).toNat

def legacy : AvcMessage → Message
  | .config frameType timestamp record =>
    ⟨.video, timestamp, [low (frameType.val * 16 + 7), 0] ++ ctsBytes 0 ++ record⟩
  | .coded frameType timestamp cts _ payload =>
    ⟨.video, timestamp, [low (frameType.val * 16 + 7), 1] ++ ctsBytes cts ++ payload⟩

def enhanced : AvcMessage → Message
  | .config frameType timestamp record =>
    ⟨.video, timestamp, low (128 + frameType.val * 16 + 0) :: fourccAvc ++ record⟩
  | .coded frameType timestamp cts short payload =>
    if short ∧ cts = 0 then
      ⟨.video, timestamp, low (128 + frameType.val * 16 + 3) :: fourccAvc ++ payload⟩
    else
      ⟨.video, timestamp,
        low (128 + frameType.val * 16 + 1) :: fourccAvc ++ (ctsBytes cts ++ payload)⟩

def framesOf (out : List Output) : List Frame :=
  out.filterMap fun
    | .frame f => some f
    | .tracks _ => none

def tracksOf (out : List Output) : List TrackSet :=
  out.filterMap fun
    | .frame _ => none
    | .tracks set => some set

variable {mem : ℕ → Bool} {pub : Publisher} {frameType : Fin 8} {timestamp : ℕ} {cts : ℤ}
  {short : Bool} {record payload : List UInt8}

theorem feed_legacy_config : feed mem pub (legacy (.config frameType timestamp record)) =
    legacyConfig mem pub record := by
  have hft := frameType.isLt
  have hhead : byteAt (legacy (.config frameType timestamp record)).data 0 < 128 := by
    change (low (frameType.val * 16 + 7)).toNat < 128
    rw [low_toNat]
    omega
  change video mem pub timestamp (legacy (.config frameType timestamp record)).data = _
  unfold video
  rw [if_neg (by simp [legacy, ctsBytes, put24_length]), if_neg (by omega)]
  rfl

theorem feed_legacy_coded :
    feed mem pub (legacy (.coded frameType timestamp cts short payload)) =
      if !pub.haveAvcc then skip pub
      else
        legacyPayload mem pub timestamp payload (frameType.val = frameKeyframe)
          (flvCts (ctsBytes cts) 0) := by
  have hft := frameType.isLt
  have hbyte : byteAt (legacy (.coded frameType timestamp cts short payload)).data 0 =
      frameType.val * 16 + 7 := by
    change (low (frameType.val * 16 + 7)).toNat = _
    rw [low_toNat]
    omega
  change video mem pub timestamp (legacy (.coded frameType timestamp cts short payload)).data = _
  unfold video
  rw [if_neg (by simp [legacy, ctsBytes, put24_length]), if_neg (by omega), hbyte]
  have hkey : (frameType.val * 16 + 7) / 16 = frameType.val := by omega
  dsimp only
  rw [hkey]
  rfl

theorem enhanced_head {n : ℕ} (hn : n < 16) (frameType : Fin 8) (rest : List UInt8) :
    byteAt (low (128 + frameType.val * 16 + n) :: rest) 0 = 128 + frameType.val * 16 + n := by
  have hft := frameType.isLt
  rw [byteAt_zero, low_toNat]
  omega

/-- An enhanced `avc1` message that is no sequence end or metadata. -/
theorem feed_avc {n : ℕ} (hn : n < 16) (hend : n ≠ 2) (hmeta : n ≠ 4) (frameType : Fin 8)
    (body : List UInt8) :
    feed mem pub ⟨.video, timestamp,
      low (128 + frameType.val * 16 + n) :: fourccAvc ++ body⟩ =
      if n = 0 then avcConfig mem pub body
      else if !pub.haveAvcc then skip pub
      else
        codedFrames mem pub timestamp pub.avcc.nalLengthSize n body
          (frameType.val = frameKeyframe) .h264 := by
  have hft := frameType.isLt
  have hhead := enhanced_head hn frameType (fourccAvc ++ body)
  have hlen : ¬(low (128 + frameType.val * 16 + n) :: (fourccAvc ++ body)).length < 5 := by
    simp [fourccAvc]
  have hpacket : (128 + frameType.val * 16 + n) % 16 = n := by omega
  have htype : (128 + frameType.val * 16 + n) / 16 % 8 = frameType.val := by omega
  have hcc : slice (low (128 + frameType.val * 16 + n) :: (fourccAvc ++ body)) 1 4 = fourccAvc := rfl
  have hbody : (low (128 + frameType.val * 16 + n) :: (fourccAvc ++ body)).drop 5 = body := rfl
  have hne : fourccAvc ≠ fourccHevc := by decide
  change video mem pub timestamp (low (128 + frameType.val * 16 + n) :: (fourccAvc ++ body)) = _
  unfold video
  rw [if_neg hlen, hhead, if_pos (by omega)]
  unfold videoEx
  rw [if_neg hlen, hhead, hpacket, htype, hcc, hbody]
  dsimp only
  rw [if_neg hend, if_neg hmeta, if_neg hne, if_pos rfl]

theorem feed_enhanced_config : feed mem pub (enhanced (.config frameType timestamp record)) =
    avcConfig mem pub record := by
  rw [enhanced, feed_avc (by decide) (by decide) (by decide), if_pos rfl]

theorem feed_enhanced_coded :
    feed mem pub (enhanced (.coded frameType timestamp cts short payload)) =
      if !pub.haveAvcc then skip pub
      else
        videoPayload mem pub timestamp pub.avcc.nalLengthSize payload
          (frameType.val = frameKeyframe) (flvCts (ctsBytes cts) 0) .h264 := by
  by_cases hshort : short ∧ cts = 0
  · have hzero : flvCts (ctsBytes cts) 0 = 0 := by
      rw [hshort.2]
      decide
    rw [enhanced, if_pos hshort, feed_avc (by decide) (by decide) (by decide), hzero]
    rfl
  · have hcts : flvCts (ctsBytes cts ++ payload) 0 = flvCts (ctsBytes cts) 0 := by
      unfold flvCts
      rw [be24_append (Nat.le_refl 3)]
    have hcoded : codedFrames mem pub timestamp pub.avcc.nalLengthSize 1 (ctsBytes cts ++ payload)
        (frameType.val = frameKeyframe) .h264 =
        videoPayload mem pub timestamp pub.avcc.nalLengthSize payload
          (frameType.val = frameKeyframe) (flvCts (ctsBytes cts) 0) .h264 := by
      unfold codedFrames
      rw [if_pos rfl, if_neg (by simp [ctsBytes]), hcts]
      rfl
    rw [enhanced, if_neg hshort, feed_avc (by decide) (by decide) (by decide), hcoded]
    rfl

structure AvcOnly (pub : Publisher) : Prop where
  empty : pub.haveVideo = false → pub.tracks = [] ∧ pub.haveAvcc = false
  track : pub.haveVideo = true → ∃ track config, pub.tracks[pub.videoTrack]? = some track ∧
    track.codec = .h264 ∧ track.config = some config ∧ config ≠ []

theorem init_avcOnly : AvcOnly init := by
  constructor
  · exact fun _ => ⟨rfl, rfl⟩
  · intro h
    cases h

theorem scanPayload_count (codec : Codec) (payload : List UInt8) (size pos nals : ℕ)
    (hasSets : Bool) :
    ((scanPayload codec payload size pos nals hasSets).1,
      (scanPayload codec payload size pos nals hasSets).2.1) =
        countPayload payload size pos nals := by
  induction pos, nals, hasSets using scanPayload.induct codec payload size with
  | case1 pos nals hasSets hroom len hover =>
    rw [scanPayload, countPayload, if_pos hroom, if_pos hroom]
    dsimp only
    rw [if_pos hover, if_pos hover]
  | case2 pos nals hasSets hroom len hasSets' hover ih =>
    rw [scanPayload, countPayload, if_pos hroom, if_pos hroom]
    dsimp only
    rw [if_neg hover, if_neg hover]
    exact ih
  | case3 pos nals hasSets hstop =>
    rw [scanPayload, countPayload, if_neg hstop, if_neg hstop]

theorem modify_same_codec {tracks : TrackSet} {i : ℕ} (blob : Payload) (profile level : ℕ)
    (h : ∀ track, tracks[i]? = some track → track.codec = .h264) :
    (tracks.modify i fun slot =>
      { slot with
        config := some blob, codec := .h264, profile := profile, level := level,
        payloadFormat := .annexb }) =
    tracks.modify i fun slot =>
      { slot with
        config := some blob, profile := profile, level := level, payloadFormat := .annexb } := by
  refine List.ext_getElem? fun j => ?_
  rw [List.getElem?_modify, List.getElem?_modify]
  cases ht : tracks[j]? with
  | none => rfl
  | some track =>
    by_cases hij : i = j
    · subst hij
      have hcodec := h track ht
      simp [hcodec]
    · simp [hij]

theorem legacyConfig_eq (h : AvcOnly pub) (record : List UInt8) :
    legacyConfig mem pub record = avcConfig mem pub record := by
  unfold legacyConfig avcConfig
  cases avccParse pub.avcc record with
  | mk avcc ok =>
    cases ok with
    | false => rfl
    | true =>
      dsimp only
      by_cases hmem : mem (avccAnnexbSize avcc) = true
      · rw [hmem, avccToAnnexb_size]
        dsimp only
        unfold legacyTrack videoConfig
        dsimp only
        by_cases hvideo : pub.haveVideo = true
        · obtain ⟨track, config, htrack, hcodec, -, -⟩ := h.track hvideo
          have hslot : ∀ t, pub.tracks[pub.videoTrack]? = some t → t.codec = .h264 := by
            intro t ht
            rw [htrack] at ht
            cases ht
            exact hcodec
          rw [hvideo, modify_same_codec _ _ _ hslot]
          rfl
        · rw [Bool.not_eq_true] at hvideo
          rw [hvideo, (h.empty hvideo).1]
          rfl
      · rw [Bool.not_eq_true] at hmem
        rw [hmem]
        rfl

def converted (size : ℕ) (payload : List UInt8) : Option Payload :=
  if (countPayload payload size 0 0).1 = 0 ∨ (countPayload payload size 0 0).2 ≠ payload.length then
    none
  else payloadToAnnexb payload size (payload.length + (countPayload payload size 0 0).1 * 4)

def hasSets (size : ℕ) (payload : List UInt8) : Bool :=
  (scanPayload .h264 payload size 0 0 false).2.2

def afterFrame (pub : Publisher) (timestamp : ℕ) : Publisher :=
  { pub with lastDts := timestamp * timescale, frames := pub.frames + 1 }

def codedFrame (pub : Publisher) (timestamp : ℕ) (payload : Payload) (keyframe : Bool)
    (cts : ℤ) : Output :=
  emit payload .video .h264 .annexb pub.videoTrack ((timestamp + cts) * timescale)
    (timestamp * timescale) keyframe false

variable {keyframe : Bool}

theorem legacyPayload_eq (hmem : ∀ n, mem n = true) :
    legacyPayload mem pub timestamp payload keyframe cts =
      match converted pub.avcc.nalLengthSize payload with
      | none => bad pub
      | some body =>
        ⟨afterFrame pub timestamp, [codedFrame pub timestamp body keyframe cts], .ok⟩ := by
  unfold legacyPayload converted
  rcases countPayload payload pub.avcc.nalLengthSize 0 0 with ⟨nals, pos⟩
  dsimp only
  by_cases hcount : nals = 0 ∨ pos ≠ payload.length
  · rw [if_pos hcount, if_pos hcount]
  · rw [if_neg hcount, if_neg hcount, hmem]
    rfl

theorem videoPayload_eq (hmem : ∀ n, mem n = true) :
    videoPayload mem pub timestamp pub.avcc.nalLengthSize payload keyframe cts .h264 =
      match converted pub.avcc.nalLengthSize payload with
      | none => bad pub
      | some body =>
        ⟨afterFrame pub timestamp,
          [codedFrame pub timestamp
            (keyframeSets pub keyframe (hasSets pub.avcc.nalLengthSize payload) ++ body) keyframe
            cts], .ok⟩ := by
  have hscan := scanPayload_count .h264 payload pub.avcc.nalLengthSize 0 0 false
  unfold videoPayload converted hasSets
  rw [← hscan]
  rcases scanPayload .h264 payload pub.avcc.nalLengthSize 0 0 false with ⟨nals, pos, sets⟩
  dsimp only
  by_cases hcount : nals = 0 ∨ pos ≠ payload.length
  · rw [if_pos hcount, if_pos hcount]
  · rw [if_neg hcount, if_neg hcount, hmem, Nat.add_assoc, Nat.add_sub_cancel_left]
    rfl

def Bare (pub : Publisher) : AvcMessage → Prop
  | .config _ _ _ => False
  | .coded frameType _ _ _ payload =>
    frameType.val = frameKeyframe ∧ pub.haveAvcc = true ∧
      (converted pub.avcc.nalLengthSize payload).isSome = true ∧
      hasSets pub.avcc.nalLengthSize payload = false

theorem framesOf_append (a b : List Output) : framesOf (a ++ b) = framesOf a ++ framesOf b :=
  List.filterMap_append

theorem tracksOf_append (a b : List Output) : tracksOf (a ++ b) = tracksOf a ++ tracksOf b :=
  List.filterMap_append

theorem keyframeSets_eq_nil (h : AvcOnly pub) (havcc : pub.haveAvcc = true) (keyframe sets : Bool) :
    keyframeSets pub keyframe sets = [] ↔ ¬(keyframe = true ∧ sets = false) := by
  have hvideo : pub.haveVideo = true := by
    by_contra hno
    rw [Bool.not_eq_true] at hno
    rw [(h.empty hno).2] at havcc
    cases havcc
  obtain ⟨track, config, htrack, -, hconfig, hne⟩ := h.track hvideo
  unfold keyframeSets
  rw [hvideo, htrack]
  cases keyframe with
  | false => simp
  | true =>
    cases sets with
    | false => simp [hconfig, hne]
    | true => simp

/-- What one message does in its two forms. -/
structure Agree (a b : Fed) (bare : Prop) : Prop where
  pub : a.pub = b.pub
  tracks : tracksOf a.out = tracksOf b.out
  count : (framesOf a.out).length = (framesOf b.out).length
  frames : framesOf a.out = framesOf b.out ↔ ¬bare

theorem agree_refl {bare : Prop} (a : Fed) (h : ¬bare) : Agree a a bare :=
  ⟨rfl, rfl, rfl, iff_of_true rfl h⟩

theorem coded_agree (hmem : ∀ n, mem n = true) (h : AvcOnly pub) :
    Agree (feed mem pub (legacy (.coded frameType timestamp cts short payload)))
      (feed mem pub (enhanced (.coded frameType timestamp cts short payload)))
      (Bare pub (.coded frameType timestamp cts short payload)) := by
  rw [feed_legacy_coded, feed_enhanced_coded]
  by_cases havcc : pub.haveAvcc = true
  · rw [havcc, legacyPayload_eq hmem, videoPayload_eq hmem]
    cases hbody : converted pub.avcc.nalLengthSize payload with
    | none =>
      refine agree_refl _ fun hbare => ?_
      have hsome := hbare.2.2.1
      rw [hbody] at hsome
      cases hsome
    | some body =>
      have hsets := keyframeSets_eq_nil h havcc (decide (frameType.val = frameKeyframe))
        (hasSets pub.avcc.nalLengthSize payload)
      refine ⟨rfl, rfl, rfl, ?_⟩
      have hframes : ∀ sets : Payload,
          framesOf [codedFrame pub timestamp body (decide (frameType.val = frameKeyframe))
              (flvCts (ctsBytes cts) 0)] =
            framesOf [codedFrame pub timestamp (sets ++ body)
              (decide (frameType.val = frameKeyframe)) (flvCts (ctsBytes cts) 0)] ↔
          sets = [] := by
        intro sets
        simp [framesOf, codedFrame, emit]
      have hbare : Bare pub (.coded frameType timestamp cts short payload) ↔
          decide (frameType.val = frameKeyframe) = true ∧
            hasSets pub.avcc.nalLengthSize payload = false := by
        rw [decide_eq_true_iff]
        constructor
        · rintro ⟨hkey, -, -, hno⟩
          exact ⟨hkey, hno⟩
        · rintro ⟨hkey, hno⟩
          exact ⟨hkey, havcc, by rw [hbody]; rfl, hno⟩
      exact (hframes _).trans (hsets.trans (not_congr hbare.symm))
  · have hskip : pub.haveAvcc = false := by simpa using havcc
    rw [hskip]
    refine agree_refl _ fun hbare => ?_
    have htrue := hbare.2.1
    rw [hskip] at htrue
    cases htrue

theorem feed_agree (hmem : ∀ n, mem n = true) (h : AvcOnly pub) (m : AvcMessage) :
    Agree (feed mem pub (legacy m)) (feed mem pub (enhanced m)) (Bare pub m) := by
  cases m with
  | config frameType timestamp record =>
    rw [feed_legacy_config, feed_enhanced_config, legacyConfig_eq h]
    exact agree_refl _ id
  | coded frameType timestamp cts short payload => exact coded_agree hmem h

theorem annexb_ne_nil {sets : List Payload} (h : sets ≠ []) : annexb sets ≠ [] := by
  cases sets with
  | nil => exact absurd rfl h
  | cons set rest => simp [annexb]

theorem videoConfig_avcOnly (h : AvcOnly pub) {avcc : Avcc} {blob : Payload} (hblob : blob ≠ [])
    (profile level : ℕ) :
    AvcOnly (videoConfig { pub with avcc := avcc, haveAvcc := true } blob .h264 profile
      level).pub := by
  unfold videoConfig
  by_cases hvideo : pub.haveVideo = true
  · obtain ⟨track, config, htrack, hcodec, hconfig, hne⟩ := h.track hvideo
    dsimp only
    rw [hvideo, if_neg (by decide)]
    constructor
    · intro hno
      exact absurd hno (by simp)
    · intro _
      refine ⟨{ track with
        config := some blob, codec := .h264, profile := profile, level := level,
        payloadFormat := .annexb }, blob, ?_, rfl, rfl, hblob⟩
      dsimp only
      rw [List.getElem?_modify, htrack]
      simp
  · rw [Bool.not_eq_true] at hvideo
    dsimp only
    rw [hvideo, (h.empty hvideo).1]
    constructor
    · intro hno
      cases hno
    · exact fun _ => ⟨_, blob, rfl, rfl, rfl, hblob⟩

theorem bad_avcOnly (h : AvcOnly pub) (avcc : Avcc) :
    AvcOnly (bad { pub with avcc := avcc }).pub :=
  ⟨h.empty, h.track⟩

theorem step_avcOnly (hmem : ∀ n, mem n = true) (h : AvcOnly pub) (m : AvcMessage) :
    AvcOnly (step mem pub (legacy m)) := by
  unfold step
  cases m with
  | config frameType timestamp record =>
    rw [feed_legacy_config, legacyConfig_eq h]
    unfold avcConfig
    cases hparse : avccParse pub.avcc record with
    | mk avcc ok =>
      cases ok with
      | false => exact bad_avcOnly h avcc
      | true =>
        obtain ⟨-, -, hsps, -⟩ := avccParse_ok hparse
        have hblob : annexb avcc.sps ++ annexb avcc.pps ≠ [] := fun hnil =>
          annexb_ne_nil hsps (List.append_eq_nil_iff.mp hnil).1
        dsimp only
        rw [hmem, avccToAnnexb_size]
        exact videoConfig_avcOnly h hblob _ _
  | coded frameType timestamp cts short payload =>
    rw [feed_legacy_coded]
    cases havcc : pub.haveAvcc with
    | false => exact ⟨h.empty, h.track⟩
    | true =>
      rw [legacyPayload_eq hmem]
      cases converted pub.avcc.nalLengthSize payload with
      | none => exact bad_avcOnly h pub.avcc
      | some body => exact ⟨h.empty, h.track⟩

def publish (mem : ℕ → Bool) (pub : Publisher) (messages : List Message) : Publisher :=
  messages.foldl (step mem) pub

theorem append_eq_append_iff_of_length {α : Type*} {a b c d : List α} (h : a.length = b.length) :
    a ++ c = b ++ d ↔ a = b ∧ c = d :=
  ⟨fun heq => List.append_inj heq h, fun heq => by rw [heq.1, heq.2]⟩

theorem run_agree (hmem : ∀ n, mem n = true) (messages : List AvcMessage) (h : AvcOnly pub) :
    publish mem pub (messages.map legacy) = publish mem pub (messages.map enhanced) ∧
      tracksOf (outputs mem pub (messages.map legacy)) =
        tracksOf (outputs mem pub (messages.map enhanced)) ∧
      (framesOf (outputs mem pub (messages.map legacy)) =
          framesOf (outputs mem pub (messages.map enhanced)) ↔
        StepRun.Meets (fun p m => step mem p (legacy m)) (fun p m => ¬Bare p m) pub messages) := by
  induction messages generalizing pub with
  | nil => exact ⟨rfl, rfl, iff_of_true rfl trivial⟩
  | cons m rest ih =>
    have hone := feed_agree hmem h m
    have hstep : step mem pub (enhanced m) = step mem pub (legacy m) := hone.pub.symm
    obtain ⟨hpub, htracks, hframes⟩ := ih (step_avcOnly hmem h m)
    refine ⟨?_, ?_, ?_⟩
    · rw [List.map_cons, List.map_cons, publish, publish, List.foldl_cons, List.foldl_cons, hstep]
      exact hpub
    · rw [List.map_cons, List.map_cons, outputs, outputs, tracksOf_append, tracksOf_append, hstep,
        hone.tracks, htracks]
    · rw [List.map_cons, List.map_cons, outputs, outputs, framesOf_append, framesOf_append, hstep,
        append_eq_append_iff_of_length hone.count, hone.frames, hframes]
      rfl

/-- The two forms of a publication give the same frames and tracks just when every
keyframe that is handed out carries its own parameter sets. -/
theorem legacy_enhanced_agree (hmem : ∀ n, mem n = true) (messages : List AvcMessage) :
    (framesOf (outputs mem init (messages.map legacy)) =
        framesOf (outputs mem init (messages.map enhanced)) ∧
      tracksOf (outputs mem init (messages.map legacy)) =
        tracksOf (outputs mem init (messages.map enhanced)) ∧
      (publish mem init (messages.map legacy)).tracks =
        (publish mem init (messages.map enhanced)).tracks) ↔
    StepRun.Meets (fun p m => step mem p (legacy m)) (fun p m => ¬Bare p m) init messages := by
  obtain ⟨hpub, htracks, hframes⟩ := run_agree hmem messages init_avcOnly
  rw [← hframes]
  constructor
  · exact fun h => h.1
  · exact fun h => ⟨h, htracks, by rw [hpub]⟩

def avcRecord : List UInt8 :=
  [1, 100, 0, 31, 0xFF, 0xE1, 0, 4, 0x67, 100, 0, 31, 1, 0, 2, 0x68, 0xCE]

def idrUnit : List UInt8 := [0, 0, 0, 2, 0x65, 0x88]

def idrWithSets : List UInt8 := [0, 0, 0, 4, 0x67, 100, 0, 31, 0, 0, 0, 2, 0x68, 0xCE] ++ idrUnit

def withSets : List AvcMessage :=
  [.config 1 0 avcRecord, .coded 1 40 0 false idrWithSets, .coded 2 80 0 true idrUnit]

/-- A keyframe with its sets and an inter frame are read alike. -/
theorem legacy_enhanced_agree_sets :
    framesOf (outputs (fun _ => true) init (withSets.map legacy)) =
        framesOf (outputs (fun _ => true) init (withSets.map enhanced)) ∧
      tracksOf (outputs (fun _ => true) init (withSets.map legacy)) =
        tracksOf (outputs (fun _ => true) init (withSets.map enhanced)) ∧
      (publish (fun _ => true) init (withSets.map legacy)).tracks =
        (publish (fun _ => true) init (withSets.map enhanced)).tracks := by
  refine (legacy_enhanced_agree (fun _ => rfl) withSets).mpr ⟨id, ?_, ?_, trivial⟩
  · rintro ⟨-, -, -, hno⟩
    have hsize : (step (fun _ => true) init
        (legacy (.config 1 0 avcRecord))).avcc.nalLengthSize = 4 := by decide
    have hsets : hasSets 4 idrWithSets = true := by
      simp [hasSets, scanPayload, nalLength, idrWithSets, idrUnit, parameterSet, byteAt]
    rw [hsize, hsets] at hno
    cases hno
  · rintro ⟨hkey, -⟩
    exact absurd hkey (by decide)

/-- A keyframe without sets goes out without them in the legacy form. -/
theorem bare_keyframe_differs :
    framesOf (outputs (fun _ => true) init
        ([.config 1 0 avcRecord, .coded 1 40 0 false idrUnit].map legacy)) ≠
      framesOf (outputs (fun _ => true) init
        ([.config 1 0 avcRecord, .coded 1 40 0 false idrUnit].map enhanced)) := by
  intro heq
  have hmeets := (run_agree (fun _ => rfl) _ init_avcOnly).2.2.mp heq
  have hsize : (step (fun _ => true) init
      (legacy (.config 1 0 avcRecord))).avcc.nalLengthSize = 4 := by decide
  refine hmeets.2.1 ⟨rfl, by decide, ?_, ?_⟩
  · rw [hsize]
    simp [converted, countPayload, nalLength, idrUnit, payloadToAnnexb, annexbLoop, byteAt]
  · rw [hsize]
    simp [hasSets, scanPayload, nalLength, idrUnit, parameterSet, byteAt]

end RtmpIngest
