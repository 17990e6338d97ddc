import NginxMedia.RtmpHevcHeaders

/-! A sequence header that its parser rejects, and the messages after it. The parsers fill the
publisher's own records as they go, so a rejected header leaves its length size or its audio
configuration behind. -/
namespace RtmpRejected

open MediaTypes ByteString RtmpConfig RtmpPublisher RtmpHeaders

instance : DecidablePred EnhancedHevc := fun _ => inferInstanceAs (Decidable (_ ∧ _ ∧ _))

/-- A sequence header that the parser of its codec rejects. -/
def Malformed (m : Message) : Prop :=
  match m.type with
  | .video =>
    5 ≤ m.data.length ∧
      ((Legacy m.data ∨ Enhanced m.data) ∧ (avccParse Avcc.zero (m.data.drop 5)).2 = false ∨
        EnhancedHevc m.data ∧ (hvccParse Hvcc.zero (m.data.drop 5)).2 = false)
  | .audio =>
    2 ≤ m.data.length ∧ byteAt m.data 1 = 0 ∧ (ascParse Asc.zero (m.data.drop 2)).2 = false
  | .other => False

structure Configuration where
  avcSize : Option ℕ
  hevcSize : Option ℕ
  asc : Option Asc
  tracks : TrackSet

def configuration (pub : Publisher) : Configuration :=
  ⟨if pub.haveAvcc then some pub.avcc.nalLengthSize else none,
    if pub.haveHvcc then some pub.hvcc.nalLengthSize else none,
    if pub.haveAsc then some pub.asc else none, pub.tracks⟩

def decoded : Publisher → List ((ℕ → Bool) × Message) → List (List Output × Rc)
  | _, [] => []
  | pub, (mem, m) :: rest =>
    ((feed mem pub m).out, (feed mem pub m).rc) :: decoded (step mem pub m) rest

/-- The header in between left no trace. -/
def Undisturbed (pub pub' : Publisher) : Prop :=
  configuration pub' = configuration pub ∧ ∀ later, decoded pub' later = decoded pub later

/-- Nothing of that kind was accepted before, or the header is too short to be looked at, or it
has the length size, or the unusable audio configuration, that is there already. -/
def Harmless (pub : Publisher) (m : Message) : Prop :=
  match m.type with
  | .video =>
    if EnhancedHevc m.data then
      pub.haveHvcc = true → (m.data.drop 5).length < 23 ∨
        byteAt (m.data.drop 5) 21 % 4 + 1 = pub.hvcc.nalLengthSize
    else
      pub.haveAvcc = true → (m.data.drop 5).length < 7 ∨
        byteAt (m.data.drop 5) 4 % 4 + 1 = pub.avcc.nalLengthSize
  | .audio =>
    pub.haveAsc = true → (m.data.drop 2).length < 2 ∨
      (⟨byteAt (m.data.drop 2) 0 / 8, 0, 0, byteAt (m.data.drop 2) 1 / 8 % 16⟩ : Asc) = pub.asc
  | .other => True

section Parsers

variable {data : List UInt8}

theorem avccParse_short (h : data.length < 7) (out : Avcc) : avccParse out data = (out, false) := by
  rw [avccParse, if_pos h]

theorem avccParse_long_out (h : 7 ≤ data.length) (out out' : Avcc) :
    avccParse out data = avccParse out' data := by
  have hlong : ¬ data.length < 7 := by omega
  rw [avccParse, if_neg hlong, avccParse, if_neg hlong]

theorem avccParse_size (h : 7 ≤ data.length) (out : Avcc) :
    (avccParse out data).1.nalLengthSize = byteAt data 4 % 4 + 1 := by
  rw [avccParse, if_neg (by omega)]
  dsimp only
  split_ifs
  · rfl
  · split
    · rfl
    · split_ifs
      · rfl
      · rfl
      · split <;> rfl

theorem hvccParse_short (h : data.length < 23) (out : Hvcc) :
    hvccParse out data = (out, false) := by
  rw [hvccParse, if_pos h]

theorem hvccParse_long_out (h : 23 ≤ data.length) (out out' : Hvcc) :
    hvccParse out data = hvccParse out' data := by
  have hlong : ¬ data.length < 23 := by omega
  rw [hvccParse, if_neg hlong, hvccParse, if_neg hlong]

theorem keep_size (out : Hvcc) (nalType : ℕ) (set : Payload) :
    (out.keep nalType set).nalLengthSize = out.nalLengthSize := by
  unfold Hvcc.keep
  split_ifs <;> rfl

theorem hvccUnits_size (nalType count pos : ℕ) (out : Hvcc) :
    (hvccUnits data nalType count pos out).2.1.nalLengthSize = out.nalLengthSize := by
  induction count generalizing pos out with
  | zero => rfl
  | succ count ih =>
    rw [hvccUnits]
    dsimp only
    split_ifs
    · rfl
    · rfl
    · rw [ih, keep_size]

theorem hvccArrayList_size (arrays pos : ℕ) (out : Hvcc) :
    (hvccArrayList data arrays pos out).1.nalLengthSize = out.nalLengthSize := by
  induction arrays generalizing pos out with
  | zero => rfl
  | succ arrays ih =>
    have hunits := @hvccUnits_size data (byteAt data pos % 64) (be16 data (pos + 1)) (pos + 3) out
    rw [hvccArrayList]
    split_ifs
    · rfl
    · split
      · next heq =>
        rw [heq] at hunits
        exact hunits
      · next heq =>
        rw [heq] at hunits
        rw [ih]
        exact hunits

theorem hvccParse_size (h : 23 ≤ data.length) (out : Hvcc) :
    (hvccParse out data).1.nalLengthSize = byteAt data 21 % 4 + 1 := by
  have harrays : ∀ start : Hvcc,
      (hvccArrays data 22 start).1.nalLengthSize = start.nalLengthSize := by
    intro start
    unfold hvccArrays
    split_ifs
    · rfl
    · exact hvccArrayList_size _ _ _
  rw [hvccParse, if_neg (by omega)]
  dsimp only
  split_ifs
  · rfl
  · split
    · next heq =>
      have hsize := congrArg (fun r : Hvcc × Bool => r.1.nalLengthSize) heq
      exact hsize.symm.trans (harrays _)
    · next heq =>
      have hsize := congrArg (fun r : Hvcc × Bool => r.1.nalLengthSize) heq
      exact hsize.symm.trans (harrays _)

theorem ascParse_short (h : data.length < 2) (out : Asc) : ascParse out data = (out, false) := by
  rw [ascParse, if_pos h]

theorem ascParse_long_out (h : 2 ≤ data.length) (out out' : Asc) :
    ascParse out data = ascParse out' data := by
  have hlong : ¬ data.length < 2 := by omega
  rw [ascParse, if_neg hlong, ascParse, if_neg hlong]

theorem ascRates_pos {index : ℕ} (h : index ≤ 12) : ascRates.getD index 0 ≠ 0 := by
  have hall : ∀ i ≤ 12, ascRates.getD i 0 ≠ 0 := by decide
  exact hall index h

theorem ascParse_rejected (h : 2 ≤ data.length) {out : Asc}
    (hbad : (ascParse out data).2 = false) :
    (ascParse out data).1 = ⟨byteAt data 0 / 8, 0, 0, byteAt data 1 / 8 % 16⟩ := by
  rw [ascParse, if_neg (by omega)] at hbad ⊢
  dsimp only at hbad ⊢
  split_ifs at hbad ⊢ with hindex
  · rfl
  · have hrate := ascRates_pos (Nat.le_of_not_lt fun hlt => hindex (Or.inr hlt))
    exact absurd hbad (by simpa using hrate)

end Parsers

/-- The parts of a publisher that decide nothing, the records' contents among them. -/
structure Aside where
  avcc : Avcc
  hvcc : Hvcc
  asc : Asc
  frames : ℕ
  configs : ℕ
  errors : ℕ
  skipped : ℕ

def withAside (pub : Publisher) (r : Aside) : Publisher :=
  { pub with
    avcc := r.avcc, hvcc := r.hvcc, asc := r.asc, frames := r.frames, configs := r.configs,
    errors := r.errors, skipped := r.skipped }

structure Agrees (pub : Publisher) (r : Aside) : Prop where
  avcSize : pub.haveAvcc = true → r.avcc.nalLengthSize = pub.avcc.nalLengthSize
  hevcSize : pub.haveHvcc = true → r.hvcc.nalLengthSize = pub.hvcc.nalLengthSize
  asc : pub.haveAsc = true → r.asc = pub.asc

def Alike (a b : Publisher) : Prop := ∃ r, Agrees a r ∧ b = withAside a r

/-- A message has the same effect on both. -/
structure AlikeFed (x y : Fed) : Prop where
  pub : Alike x.pub y.pub
  out : y.out = x.out
  rc : y.rc = x.rc

theorem Alike.configuration {a b : Publisher} (h : Alike a b) :
    configuration b = configuration a := by
  obtain ⟨r, hr, rfl⟩ := h
  unfold RtmpRejected.configuration withAside
  dsimp only
  congr 1
  · exact if_ctx_congr Iff.rfl (fun hc => congrArg some (hr.avcSize hc)) fun _ => rfl
  · exact if_ctx_congr Iff.rfl (fun hc => congrArg some (hr.hevcSize hc)) fun _ => rfl
  · exact if_ctx_congr Iff.rfl (fun hc => congrArg some (hr.asc hc)) fun _ => rfl

section Feed

variable {mem : ℕ → Bool} {pub a b : Publisher} {r : Aside}

theorem Agrees.alike (h : Agrees pub r) : Alike pub (withAside pub r) := ⟨r, h, rfl⟩

theorem Agrees.skip (h : Agrees pub r) : AlikeFed (skip pub) (skip (withAside pub r)) :=
  ⟨⟨{ r with skipped := r.skipped + 1 }, ⟨h.avcSize, h.hevcSize, h.asc⟩, rfl⟩, rfl, rfl⟩

theorem Agrees.bad (h : Agrees pub r) : AlikeFed (bad pub) (bad (withAside pub r)) :=
  ⟨⟨{ r with errors := r.errors + 1 }, ⟨h.avcSize, h.hevcSize, h.asc⟩, rfl⟩, rfl, rfl⟩

theorem Agrees.fail (h : Agrees pub r) : AlikeFed (fail pub) (fail (withAside pub r)) :=
  ⟨h.alike, rfl, rfl⟩

theorem videoConfig_alike (h : Agrees pub r) (config : Payload) (codec : Codec)
    (profile level : ℕ) :
    AlikeFed (videoConfig pub config codec profile level)
      (videoConfig (withAside pub r) config codec profile level) := by
  have hvideo : (withAside pub r).haveVideo = pub.haveVideo := rfl
  have htracks : (withAside pub r).tracks = pub.tracks := rfl
  unfold videoConfig
  dsimp only
  rw [hvideo, htracks]
  split_ifs
  · split
    · exact h.fail
    · exact ⟨⟨{ r with configs := r.configs + 1 }, ⟨h.avcSize, h.hevcSize, h.asc⟩, rfl⟩, rfl, rfl⟩
  · exact ⟨⟨{ r with configs := r.configs + 1 }, ⟨h.avcSize, h.hevcSize, h.asc⟩, rfl⟩, rfl, rfl⟩

theorem videoPayload_alike (h : Agrees pub r) (timestamp size : ℕ) (payload : List UInt8)
    (keyframe : Bool) (cts : ℤ) (codec : Codec) :
    AlikeFed (videoPayload mem pub timestamp size payload keyframe cts codec)
      (videoPayload mem (withAside pub r) timestamp size payload keyframe cts codec) := by
  have hsets : ∀ hasSets, keyframeSets (withAside pub r) keyframe hasSets =
      keyframeSets pub keyframe hasSets := fun _ => rfl
  unfold videoPayload
  dsimp only
  rw [hsets]
  split_ifs
  · exact h.bad
  · exact h.fail
  · split
    · exact h.bad
    · exact ⟨⟨{ r with frames := r.frames + 1 }, ⟨h.avcSize, h.hevcSize, h.asc⟩, rfl⟩, rfl, rfl⟩

theorem codedFrames_alike (h : Agrees pub r) (timestamp size packetType : ℕ)
    (payload : List UInt8) (keyframe : Bool) (codec : Codec) :
    AlikeFed (codedFrames mem pub timestamp size packetType payload keyframe codec)
      (codedFrames mem (withAside pub r) timestamp size packetType payload keyframe codec) := by
  unfold codedFrames
  split_ifs
  · exact h.skip
  · exact videoPayload_alike h _ _ _ _ _ _
  · exact videoPayload_alike h _ _ _ _ _ _

theorem hevcConfig_alike (h : Agrees pub r) (payload : List UInt8) :
    AlikeFed (hevcConfig mem pub payload) (hevcConfig mem (withAside pub r) payload) := by
  unfold hevcConfig
  by_cases hlong : 23 ≤ payload.length
  · rw [hvccParse_long_out hlong (withAside pub r).hvcc pub.hvcc]
    cases hvccParse pub.hvcc payload with
    | mk hvcc ok =>
      have hread : ∀ have', Agrees { pub with hvcc := hvcc, haveHvcc := have' }
          { r with hvcc := hvcc } := fun _ => ⟨h.avcSize, fun _ => rfl, h.asc⟩
      cases ok with
      | false => exact (hread pub.haveHvcc).bad
      | true =>
        dsimp only
        split_ifs
        · exact (hread true).fail
        · rw [hvccToAnnexb_size]
          exact videoConfig_alike (hread true) _ _ _ _
  · rw [hvccParse_short (by omega), hvccParse_short (by omega)]
    exact h.bad

theorem avcConfig_alike (h : Agrees pub r) (payload : List UInt8) :
    AlikeFed (avcConfig mem pub payload) (avcConfig mem (withAside pub r) payload) := by
  unfold avcConfig
  by_cases hlong : 7 ≤ payload.length
  · rw [avccParse_long_out hlong (withAside pub r).avcc pub.avcc]
    cases avccParse pub.avcc payload with
    | mk avcc ok =>
      have hread : ∀ have', Agrees { pub with avcc := avcc, haveAvcc := have' }
          { r with avcc := avcc } := fun _ => ⟨fun _ => rfl, h.hevcSize, h.asc⟩
      cases ok with
      | false => exact (hread pub.haveAvcc).bad
      | true =>
        dsimp only
        split_ifs
        · exact (hread true).fail
        · rw [avccToAnnexb_size]
          exact videoConfig_alike (hread true) _ _ _ _
  · rw [avccParse_short (by omega), avccParse_short (by omega)]
    exact h.bad

theorem videoEx_alike (h : Agrees pub r) (timestamp : ℕ) (data : List UInt8) :
    AlikeFed (videoEx mem pub timestamp data) (videoEx mem (withAside pub r) timestamp data) := by
  have havc : (withAside pub r).haveAvcc = pub.haveAvcc := rfl
  have hhevc : (withAside pub r).haveHvcc = pub.haveHvcc := rfl
  unfold videoEx
  dsimp only
  rw [havc, hhevc]
  split_ifs with _ _ _ _ _ hhave _ _ hhave
  · exact h.skip
  · exact ⟨h.alike, rfl, rfl⟩
  · exact h.skip
  · exact hevcConfig_alike h _
  · exact h.skip
  · have hsize : (withAside pub r).hvcc.nalLengthSize = pub.hvcc.nalLengthSize :=
      h.hevcSize (by simpa using hhave)
    rw [hsize]
    exact codedFrames_alike h _ _ _ _ _ _
  · exact avcConfig_alike h _
  · exact h.skip
  · have hsize : (withAside pub r).avcc.nalLengthSize = pub.avcc.nalLengthSize :=
      h.avcSize (by simpa using hhave)
    rw [hsize]
    exact codedFrames_alike h _ _ _ _ _ _
  · exact h.skip

theorem legacyTrack_alike (h : Agrees pub r) (hsame : r.avcc = pub.avcc) (config : Payload) :
    legacyTrack (withAside pub r) config =
        (legacyTrack pub config).map (withAside · r) ∧
      ∀ pub' ∈ legacyTrack pub config, Agrees pub' r := by
  obtain ⟨avcc, hvcc, asc, frames, configs, errors, skipped⟩ := r
  dsimp only at hsame
  subst hsame
  set r : Aside := ⟨pub.avcc, hvcc, asc, frames, configs, errors, skipped⟩
  have hvideo : (withAside pub r).haveVideo = pub.haveVideo := rfl
  have htracks : (withAside pub r).tracks = pub.tracks := rfl
  have havcc : (withAside pub r).avcc = pub.avcc := rfl
  unfold legacyTrack
  rw [hvideo, htracks, havcc]
  split_ifs
  · split
    · exact ⟨rfl, fun _ hmem => by cases hmem⟩
    · refine ⟨rfl, fun pub' hmem => ?_⟩
      obtain rfl := Option.mem_some_iff.mp hmem
      exact ⟨h.avcSize, h.hevcSize, h.asc⟩
  · refine ⟨rfl, fun pub' hmem => ?_⟩
    obtain rfl := Option.mem_some_iff.mp hmem
    exact ⟨h.avcSize, h.hevcSize, h.asc⟩

theorem legacyConfig_alike (h : Agrees pub r) (payload : List UInt8) :
    AlikeFed (legacyConfig mem pub payload) (legacyConfig mem (withAside pub r) payload) := by
  unfold legacyConfig
  by_cases hlong : 7 ≤ payload.length
  · rw [avccParse_long_out hlong (withAside pub r).avcc pub.avcc]
    cases avccParse pub.avcc payload with
    | mk avcc ok =>
      have hread : ∀ have', Agrees { pub with avcc := avcc, haveAvcc := have' }
          { r with avcc := avcc } := fun _ => ⟨fun _ => rfl, h.hevcSize, h.asc⟩
      cases ok with
      | false => exact (hread pub.haveAvcc).bad
      | true =>
        dsimp only
        split_ifs
        · exact (hread true).fail
        · obtain ⟨htrack, hagrees⟩ := legacyTrack_alike (hread true) rfl
            (annexb avcc.sps ++ annexb avcc.pps)
          have hset : { withAside pub r with avcc := avcc, haveAvcc := true } =
              withAside { pub with avcc := avcc, haveAvcc := true } { r with avcc := avcc } := rfl
          rw [avccToAnnexb_size]
          dsimp only
          rw [hset, htrack]
          cases hpub : legacyTrack { pub with avcc := avcc, haveAvcc := true }
              (annexb avcc.sps ++ annexb avcc.pps) with
          | none => exact (hread true).fail
          | some pub' =>
            have hpub' := hagrees pub' hpub
            exact ⟨⟨{ r with avcc := avcc, configs := r.configs + 1 },
              ⟨hpub'.avcSize, hpub'.hevcSize, hpub'.asc⟩, rfl⟩, rfl, rfl⟩
  · rw [avccParse_short (by omega), avccParse_short (by omega)]
    exact h.bad

theorem legacyPayload_alike (h : Agrees pub r) (hhave : pub.haveAvcc = true) (timestamp : ℕ)
    (payload : List UInt8) (keyframe : Bool) (cts : ℤ) :
    AlikeFed (legacyPayload mem pub timestamp payload keyframe cts)
      (legacyPayload mem (withAside pub r) timestamp payload keyframe cts) := by
  have hsize : (withAside pub r).avcc.nalLengthSize = pub.avcc.nalLengthSize := h.avcSize hhave
  unfold legacyPayload
  rw [hsize]
  dsimp only
  split_ifs
  · exact h.bad
  · exact h.fail
  · split
    · exact h.bad
    · exact ⟨⟨{ r with frames := r.frames + 1 }, ⟨h.avcSize, h.hevcSize, h.asc⟩, rfl⟩, rfl, rfl⟩

theorem video_alike (h : Agrees pub r) (timestamp : ℕ) (data : List UInt8) :
    AlikeFed (video mem pub timestamp data) (video mem (withAside pub r) timestamp data) := by
  have havc : (withAside pub r).haveAvcc = pub.haveAvcc := rfl
  unfold video
  dsimp only
  rw [havc]
  split_ifs with _ _ _ _ hhave
  · exact h.skip
  · exact videoEx_alike h _ _
  · exact ⟨h.alike, rfl, rfl⟩
  · exact legacyConfig_alike h _
  · exact h.skip
  · exact legacyPayload_alike h (by simpa using hhave) _ _ _ _

theorem audioTrackUpdate_alike (h : Agrees pub r) (hsame : r.asc = pub.asc) (config : Payload) :
    audioTrackUpdate (withAside pub r) config =
        (audioTrackUpdate pub config).map (withAside · r) ∧
      ∀ pub' ∈ audioTrackUpdate pub config, Agrees pub' r := by
  obtain ⟨avcc, hvcc, asc, frames, configs, errors, skipped⟩ := r
  dsimp only at hsame
  subst hsame
  set r : Aside := ⟨avcc, hvcc, pub.asc, frames, configs, errors, skipped⟩
  have haudio : (withAside pub r).haveAudio = pub.haveAudio := rfl
  have htracks : (withAside pub r).tracks = pub.tracks := rfl
  have hasc : (withAside pub r).asc = pub.asc := rfl
  unfold audioTrackUpdate
  rw [haudio, htracks, hasc]
  split_ifs
  · split
    · exact ⟨rfl, fun _ hmem => by cases hmem⟩
    · refine ⟨rfl, fun pub' hmem => ?_⟩
      obtain rfl := Option.mem_some_iff.mp hmem
      exact ⟨h.avcSize, h.hevcSize, h.asc⟩
  · refine ⟨rfl, fun pub' hmem => ?_⟩
    obtain rfl := Option.mem_some_iff.mp hmem
    exact ⟨h.avcSize, h.hevcSize, h.asc⟩

theorem audioConfig_alike (h : Agrees pub r) (config : List UInt8) :
    AlikeFed (audioConfig mem pub config) (audioConfig mem (withAside pub r) config) := by
  unfold audioConfig
  by_cases hlong : 2 ≤ config.length
  · rw [ascParse_long_out hlong (withAside pub r).asc pub.asc]
    cases ascParse pub.asc config with
    | mk asc ok =>
      have hread : ∀ have', Agrees { pub with asc := asc, haveAsc := have' }
          { r with asc := asc } := fun _ => ⟨h.avcSize, h.hevcSize, fun _ => rfl⟩
      cases ok with
      | false => exact (hread pub.haveAsc).bad
      | true =>
        dsimp only
        split_ifs
        · exact (hread true).fail
        · obtain ⟨htrack, hagrees⟩ := audioTrackUpdate_alike (hread true) rfl config
          have hset : { withAside pub r with asc := asc, haveAsc := true } =
              withAside { pub with asc := asc, haveAsc := true } { r with asc := asc } := rfl
          rw [hset, htrack]
          cases hpub : audioTrackUpdate { pub with asc := asc, haveAsc := true } config with
          | none => exact (hread true).fail
          | some pub' =>
            have hpub' := hagrees pub' hpub
            exact ⟨⟨{ r with asc := asc, configs := r.configs + 1 },
              ⟨hpub'.avcSize, hpub'.hevcSize, hpub'.asc⟩, rfl⟩, rfl, rfl⟩
  · rw [ascParse_short (by omega), ascParse_short (by omega)]
    exact h.bad

theorem audioPayload_alike (h : Agrees pub r) (hhave : pub.haveAsc = true) (timestamp : ℕ)
    (raw : List UInt8) :
    AlikeFed (audioPayload mem pub timestamp raw)
      (audioPayload mem (withAside pub r) timestamp raw) := by
  have hasc : (withAside pub r).asc = pub.asc := h.asc hhave
  have hwrite : MediaCodec.adtsWrite ⟨raw.length + MediaCodec.adtsHeaderMin,
      MediaCodec.adtsHeaderMin, (withAside pub r).asc.objectType,
      (withAside pub r).asc.sampleRate, (withAside pub r).asc.channels⟩ =
      MediaCodec.adtsWrite ⟨raw.length + MediaCodec.adtsHeaderMin, MediaCodec.adtsHeaderMin,
        pub.asc.objectType, pub.asc.sampleRate, pub.asc.channels⟩ := by rw [hasc]
  unfold audioPayload
  rw [hwrite]
  split
  · exact h.bad
  · split_ifs
    · exact h.fail
    · exact ⟨⟨{ r with frames := r.frames + 1 }, ⟨h.avcSize, h.hevcSize, h.asc⟩, rfl⟩, rfl, rfl⟩

theorem audio_alike (h : Agrees pub r) (timestamp : ℕ) (data : List UInt8) :
    AlikeFed (audio mem pub timestamp data) (audio mem (withAside pub r) timestamp data) := by
  have hhas : (withAside pub r).haveAsc = pub.haveAsc := rfl
  unfold audio
  rw [hhas]
  split_ifs with _ _ hraw
  · exact h.skip
  · exact audioConfig_alike h _
  · exact h.skip
  · rw [not_or, Bool.not_eq_false] at hraw
    exact audioPayload_alike h hraw.2 _ _

theorem feed_alike (h : Alike a b) (m : Message) : AlikeFed (feed mem a m) (feed mem b m) := by
  obtain ⟨r, hr, rfl⟩ := h
  unfold feed
  cases m.type with
  | video => exact video_alike hr _ _
  | audio => exact audio_alike hr _ _
  | other => exact ⟨hr.alike, rfl, rfl⟩

theorem decoded_alike (h : Alike a b) (later : List ((ℕ → Bool) × Message)) :
    decoded b later = decoded a later := by
  induction later generalizing a b with
  | nil => rfl
  | cons sent rest ih =>
    obtain ⟨mem, m⟩ := sent
    have hfed := @feed_alike mem a b h m
    rw [decoded, decoded, hfed.out, hfed.rc, ih (a := step mem a m) (b := step mem b m) hfed.pub]

end Feed

section Rejected

variable {mem : ℕ → Bool} {pub : Publisher} {m : Message}

theorem avccParse_irrelevant (out out' : Avcc) (data : List UInt8) :
    (avccParse out data).2 = (avccParse out' data).2 := by
  by_cases hlong : 7 ≤ data.length
  · rw [avccParse_long_out hlong out out']
  · rw [avccParse_short (by omega), avccParse_short (by omega)]

theorem hvccParse_irrelevant (out out' : Hvcc) (data : List UInt8) :
    (hvccParse out data).2 = (hvccParse out' data).2 := by
  by_cases hlong : 23 ≤ data.length
  · rw [hvccParse_long_out hlong out out']
  · rw [hvccParse_short (by omega), hvccParse_short (by omega)]

theorem avcConfig_rejected {payload : List UInt8} (h : (avccParse Avcc.zero payload).2 = false) :
    (avcConfig mem pub payload).pub =
        { pub with avcc := (avccParse pub.avcc payload).1, errors := pub.errors + 1 } ∧
      (legacyConfig mem pub payload).pub =
        { pub with avcc := (avccParse pub.avcc payload).1, errors := pub.errors + 1 } := by
  rw [avccParse_irrelevant Avcc.zero pub.avcc] at h
  unfold avcConfig legacyConfig
  cases hparse : avccParse pub.avcc payload with
  | mk avcc ok =>
    rw [hparse] at h
    obtain rfl : ok = false := h
    exact ⟨rfl, rfl⟩

theorem hevcConfig_rejected {payload : List UInt8} (h : (hvccParse Hvcc.zero payload).2 = false) :
    (hevcConfig mem pub payload).pub =
      { pub with hvcc := (hvccParse pub.hvcc payload).1, errors := pub.errors + 1 } := by
  rw [hvccParse_irrelevant Hvcc.zero pub.hvcc] at h
  unfold hevcConfig
  cases hparse : hvccParse pub.hvcc payload with
  | mk hvcc ok =>
    rw [hparse] at h
    obtain rfl : ok = false := h
    rfl

theorem audioConfig_rejected {config : List UInt8} (h : (ascParse Asc.zero config).2 = false) :
    (audioConfig mem pub config).pub =
      { pub with asc := (ascParse pub.asc config).1, errors := pub.errors + 1 } := by
  rw [ascParse_irrelevant Asc.zero pub.asc] at h
  unfold audioConfig
  cases hparse : ascParse pub.asc config with
  | mk asc ok =>
    rw [hparse] at h
    obtain rfl : ok = false := h
    rfl

theorem video_rejected (htype : m.type = .video) (h : Malformed m) :
    (¬ EnhancedHevc m.data ∧ step mem pub m =
        { pub with
          avcc := (avccParse pub.avcc (m.data.drop 5)).1, errors := pub.errors + 1 }) ∨
      EnhancedHevc m.data ∧ step mem pub m =
        { pub with
          hvcc := (hvccParse pub.hvcc (m.data.drop 5)).1, errors := pub.errors + 1 } := by
  have hstep : step mem pub m = (video mem pub m.timestamp m.data).pub := by
    unfold step feed
    rw [htype]
  unfold Malformed at h
  rw [htype] at h
  obtain ⟨hlong, ⟨hheader, hrejected⟩ | ⟨⟨hhigh, hpacket, hfourcc⟩, hrejected⟩⟩ := h
  · obtain ⟨havc, hlegacy⟩ := @avcConfig_rejected mem pub _ hrejected
    rw [hstep]
    unfold video
    rw [if_neg (by omega)]
    rcases hheader with ⟨hlow, hpacket⟩ | ⟨hhigh, hpacket, hfourcc⟩
    · refine Or.inl ⟨fun hhevc => absurd hhevc.1 (by omega), ?_⟩
      rw [if_neg (by omega)]
      simp only [hpacket]
      exact hlegacy
    · refine Or.inl ⟨fun hhevc => ?_, ?_⟩
      · have hsame := hhevc.2.2
        rw [hfourcc] at hsame
        exact absurd hsame (by decide)
      · rw [if_pos hhigh, videoEx, if_neg (by omega)]
        simp only [hpacket, hfourcc]
        exact havc
  · refine Or.inr ⟨⟨hhigh, hpacket, hfourcc⟩, ?_⟩
    rw [hstep]
    unfold video
    rw [if_neg (by omega), if_pos hhigh, videoEx, if_neg (by omega)]
    simp only [hpacket, hfourcc]
    exact hevcConfig_rejected hrejected

theorem audio_rejected (htype : m.type = .audio) (h : Malformed m) :
    step mem pub m =
      { pub with asc := (ascParse pub.asc (m.data.drop 2)).1, errors := pub.errors + 1 } := by
  have hstep : step mem pub m = (audio mem pub m.timestamp m.data).pub := by
    unfold step feed
    rw [htype]
  unfold Malformed at h
  rw [htype] at h
  obtain ⟨hlong, hpacket, hrejected⟩ := h
  rw [hstep]
  unfold audio
  rw [if_neg (by omega), if_pos hpacket]
  exact audioConfig_rejected hrejected

theorem Alike.undisturbed {pub' : Publisher} (h : Alike pub pub') : Undisturbed pub pub' :=
  ⟨h.configuration, decoded_alike h⟩

theorem Alike.trans {a b c : Publisher} (hab : Alike a b) (hbc : Alike b c) : Alike a c := by
  obtain ⟨r, hr, rfl⟩ := hab
  obtain ⟨s, hs, rfl⟩ := hbc
  exact ⟨s, ⟨fun hc => (hs.avcSize hc).trans (hr.avcSize hc),
    fun hc => (hs.hevcSize hc).trans (hr.hevcSize hc),
    fun hc => (hs.asc hc).trans (hr.asc hc)⟩, rfl⟩

theorem Alike.refl (pub : Publisher) : Alike pub pub :=
  ⟨⟨pub.avcc, pub.hvcc, pub.asc, pub.frames, pub.configs, pub.errors, pub.skipped⟩,
    ⟨fun _ => rfl, fun _ => rfl, fun _ => rfl⟩, rfl⟩

theorem avcc_left (avcc : Avcc) (errors : ℕ) :
    ((pub.haveAvcc = true → avcc.nalLengthSize = pub.avcc.nalLengthSize) →
        Alike pub { pub with avcc := avcc, errors := errors }) ∧
      (configuration { pub with avcc := avcc, errors := errors } = configuration pub →
        pub.haveAvcc = true → avcc.nalLengthSize = pub.avcc.nalLengthSize) := by
  constructor
  · intro hsize
    exact ⟨⟨avcc, pub.hvcc, pub.asc, pub.frames, pub.configs, errors, pub.skipped⟩,
      ⟨hsize, fun _ => rfl, fun _ => rfl⟩, rfl⟩
  · intro hconfig hhave
    have hsize := congrArg Configuration.avcSize hconfig
    unfold configuration at hsize
    dsimp only at hsize
    rw [if_pos hhave, if_pos hhave] at hsize
    exact Option.some.inj hsize

theorem hvcc_left (hvcc : Hvcc) (errors : ℕ) :
    ((pub.haveHvcc = true → hvcc.nalLengthSize = pub.hvcc.nalLengthSize) →
        Alike pub { pub with hvcc := hvcc, errors := errors }) ∧
      (configuration { pub with hvcc := hvcc, errors := errors } = configuration pub →
        pub.haveHvcc = true → hvcc.nalLengthSize = pub.hvcc.nalLengthSize) := by
  constructor
  · intro hsize
    exact ⟨⟨pub.avcc, hvcc, pub.asc, pub.frames, pub.configs, errors, pub.skipped⟩,
      ⟨fun _ => rfl, hsize, fun _ => rfl⟩, rfl⟩
  · intro hconfig hhave
    have hsize := congrArg Configuration.hevcSize hconfig
    unfold configuration at hsize
    dsimp only at hsize
    rw [if_pos hhave, if_pos hhave] at hsize
    exact Option.some.inj hsize

theorem asc_left (asc : Asc) (errors : ℕ) :
    ((pub.haveAsc = true → asc = pub.asc) →
        Alike pub { pub with asc := asc, errors := errors }) ∧
      (configuration { pub with asc := asc, errors := errors } = configuration pub →
        pub.haveAsc = true → asc = pub.asc) := by
  constructor
  · intro hasc
    exact ⟨⟨pub.avcc, pub.hvcc, asc, pub.frames, pub.configs, errors, pub.skipped⟩,
      ⟨fun _ => rfl, fun _ => rfl, hasc⟩, rfl⟩
  · intro hconfig hhave
    have hasc := congrArg Configuration.asc hconfig
    unfold configuration at hasc
    dsimp only at hasc
    rw [if_pos hhave, if_pos hhave] at hasc
    exact Option.some.inj hasc

/-- A rejected header changes nothing that is looked at if it is harmless, and otherwise a value
that frames are decoded with. -/
theorem rejected_left (h : Malformed m) :
    (Harmless pub m → Alike pub (step mem pub m)) ∧
      (configuration (step mem pub m) = configuration pub → Harmless pub m) := by
  unfold Harmless
  cases htype : m.type with
  | video =>
    dsimp only
    rcases @video_rejected mem pub m htype h with ⟨hother, hstep⟩ | ⟨hhevc, hstep⟩
    · obtain ⟨halike, hsame⟩ :=
        @avcc_left pub (avccParse pub.avcc (m.data.drop 5)).1 (pub.errors + 1)
      rw [hstep, if_neg hother]
      by_cases hlong : 7 ≤ (m.data.drop 5).length
      · rw [avccParse_size hlong] at halike hsame
        exact ⟨fun hc => halike fun hhave => (hc hhave).resolve_left (by omega),
          fun hc hhave => Or.inr (hsame hc hhave)⟩
      · rw [avccParse_short (by omega)] at halike ⊢
        exact ⟨fun _ => halike fun _ => rfl, fun _ _ => Or.inl (by omega)⟩
    · obtain ⟨halike, hsame⟩ :=
        @hvcc_left pub (hvccParse pub.hvcc (m.data.drop 5)).1 (pub.errors + 1)
      rw [hstep, if_pos hhevc]
      by_cases hlong : 23 ≤ (m.data.drop 5).length
      · rw [hvccParse_size hlong] at halike hsame
        exact ⟨fun hc => halike fun hhave => (hc hhave).resolve_left (by omega),
          fun hc hhave => Or.inr (hsame hc hhave)⟩
      · rw [hvccParse_short (by omega)] at halike ⊢
        exact ⟨fun _ => halike fun _ => rfl, fun _ _ => Or.inl (by omega)⟩
  | audio =>
    obtain ⟨halike, hsame⟩ :=
      @asc_left pub (ascParse pub.asc (m.data.drop 2)).1 (pub.errors + 1)
    dsimp only
    rw [audio_rejected htype h]
    by_cases hlong : 2 ≤ (m.data.drop 2).length
    · unfold Malformed at h
      rw [htype] at h
      have hrejected := h.2.2
      rw [ascParse_irrelevant Asc.zero pub.asc] at hrejected
      rw [ascParse_rejected hlong hrejected] at halike hsame ⊢
      exact ⟨fun hc => halike fun hhave => (hc hhave).resolve_left (by omega),
        fun hc hhave => Or.inr (hsame hc hhave)⟩
    · rw [ascParse_short (by omega)] at halike ⊢
      exact ⟨fun _ => halike fun _ => rfl, fun _ _ => Or.inl (by omega)⟩
  | other =>
    unfold Malformed at h
    rw [htype] at h
    exact h.elim

end Rejected

/-- A rejected sequence header leaves no trace just if nothing of its kind is in use, or it is
too short to be looked at, or what it leaves is what was there. -/
theorem rejected_header_undisturbed_iff {mem : ℕ → Bool} {pub : Publisher} {m : Message}
    (h : Malformed m) : Undisturbed pub (step mem pub m) ↔ Harmless pub m :=
  ⟨fun hc => (rejected_left h).2 hc.1, fun hc => ((rejected_left h).1 hc).undisturbed⟩

def run (pub : Publisher) (sent : List ((ℕ → Bool) × Message)) : Publisher :=
  sent.foldl (fun pub m => step m.1 pub m.2) pub

def AllHarmless : Publisher → List ((ℕ → Bool) × Message) → Prop
  | _, [] => True
  | pub, (mem, m) :: rest => (Malformed m → Harmless pub m) ∧ AllHarmless (step mem pub m) rest

open Classical in
/-- What is left without the rejected headers. -/
noncomputable def accepted (sent : List ((ℕ → Bool) × Message)) : List ((ℕ → Bool) × Message) :=
  sent.filter fun m => ¬ Malformed m.2

theorem run_accepted {a b : Publisher} {sent : List ((ℕ → Bool) × Message)}
    (hsent : AllHarmless b sent) (h : Alike a b) : Alike (run a (accepted sent)) (run b sent) := by
  induction sent generalizing a b with
  | nil => exact h
  | cons head rest ih =>
    obtain ⟨mem, m⟩ := head
    obtain ⟨hhead, hrest⟩ := hsent
    by_cases hm : Malformed m
    · have hskip : accepted ((mem, m) :: rest) = accepted rest :=
        List.filter_cons_of_neg (by simpa using hm)
      rw [hskip]
      exact ih hrest (h.trans ((rejected_left hm).1 (hhead hm)))
    · have hkeep : accepted ((mem, m) :: rest) = (mem, m) :: accepted rest :=
        List.filter_cons_of_pos (by simpa using hm)
      rw [hkeep]
      exact ih hrest (feed_alike h m).pub

/-- After any run whose rejected headers are all harmless, the publisher is the one that the rest
of the messages makes. -/
theorem harmless_run {sent : List ((ℕ → Bool) × Message)}
    (hsent : AllHarmless RtmpPublisher.init sent) :
    Undisturbed (run RtmpPublisher.init (accepted sent)) (run RtmpPublisher.init sent) :=
  (run_accepted hsent (Alike.refl _)).undisturbed

/-- A corrupt avcC record whose length size is four by chance. -/
def corruptHeader : Message :=
  ⟨.video, 0, [0x17, 0, 0, 0, 0, 9, 0xFF, 0xFF, 0xFF, 0xFF, 0xFF, 0xFF, 0xFF, 0xFF, 0xFF, 0xFF]⟩

/-- An avcC record without sets, with a length size of one. -/
def emptyHeader : Message := ⟨.video, 0, [0x17, 0, 0, 0, 0, 1, 66, 0, 30, 0xFC, 0xE0, 0]⟩

/-- A slice of two bytes behind a length of four. -/
def sliceMessage : Message := ⟨.video, 40, [0x27, 1, 0, 0, 0, 0, 0, 0, 2, 0x41, 0x9A]⟩

theorem corruptHeader_undisturbed :
    Undisturbed (headerOnly plainRecord)
      (step (fun _ => true) (headerOnly plainRecord) corruptHeader) :=
  (rejected_header_undisturbed_iff (show Malformed corruptHeader from by
    refine ⟨by decide, Or.inl ⟨Or.inl ⟨by decide, by decide⟩, by decide⟩⟩)).mpr
    (show Harmless (headerOnly plainRecord) corruptHeader from fun _ => Or.inr (by decide))

def corruptedRun : List ((ℕ → Bool) × Message) :=
  [(fun _ => true, headerMessage plainRecord), (fun _ => true, corruptHeader)]

theorem harmless_run_corrupted :
    Undisturbed (run RtmpPublisher.init (accepted corruptedRun))
      (run RtmpPublisher.init corruptedRun) :=
  harmless_run ⟨fun _ (hhave : RtmpPublisher.init.haveAvcc = true) => absurd hhave (by decide),
    fun _ _ => Or.inr (by decide), trivial⟩

def sliceBytes : List UInt8 := [0, 0, 0, 2, 0x41, 0x9A]

theorem slice_decoded {pub : Publisher} (h : pub.avcc.nalLengthSize = 4) :
    (legacyPayload (fun _ => true) pub 40 sliceBytes false 0).out ≠ [] := by
  have hcount : countPayload sliceBytes 4 0 0 = (1, 6) := by
    simp [countPayload, nalLength, sliceBytes, byteAt]
  have hframe : payloadToAnnexb sliceBytes 4 10 = some [0, 0, 0, 1, 0x41, 0x9A] := by
    simp [payloadToAnnexb, annexbLoop, nalLength, sliceBytes, byteAt, slice]
  unfold legacyPayload
  rw [h, hcount]
  simp only [sliceBytes, List.length_cons, List.length_nil, Nat.zero_add, Nat.reduceAdd,
    Nat.reduceMul, one_ne_zero, ne_eq, not_true_eq_false, or_self, Bool.not_true,
    Bool.false_eq_true, if_false] at hframe ⊢
  rw [hframe]
  exact List.cons_ne_nil _ _

theorem slice_lost {pub : Publisher} (h : pub.avcc.nalLengthSize = 1) :
    (legacyPayload (fun _ => true) pub 40 sliceBytes false 0).out = [] := by
  have herror : ∀ capacity, payloadToAnnexb sliceBytes 1 capacity = none := by
    intro capacity
    simp [payloadToAnnexb, annexbLoop, nalLength, sliceBytes, byteAt]
  unfold legacyPayload
  rw [h]
  dsimp only
  split_ifs
  · rfl
  · rfl
  · rw [herror]
    rfl

theorem slice_feed {pub : Publisher} (h : pub.haveAvcc = true) :
    feed (fun _ => true) pub sliceMessage =
      legacyPayload (fun _ => true) pub 40 sliceBytes false 0 := by
  have hkey : decide (byteAt sliceMessage.data 0 / 16 = frameKeyframe) = false := by decide
  have hcts : flvCts sliceMessage.data 2 = 0 := by decide
  have hdata : sliceMessage.data.drop 5 = sliceBytes := rfl
  have hfeed : feed (fun _ => true) pub sliceMessage =
      video (fun _ => true) pub 40 sliceMessage.data := rfl
  rw [hfeed]
  unfold video
  rw [if_neg (by decide), if_neg (by decide)]
  dsimp only
  rw [if_neg (by decide), if_neg (by decide), if_neg (by simp [h]), hkey, hcts, hdata]

/-- The frame that was decoded before is an error now. -/
theorem emptyHeader_loses_frames :
    Malformed emptyHeader ∧
      decoded (step (fun _ => true) (headerOnly plainRecord) emptyHeader)
          [(fun _ => true, sliceMessage)] ≠
        decoded (headerOnly plainRecord) [(fun _ => true, sliceMessage)] := by
  refine ⟨⟨by decide, Or.inl ⟨Or.inl ⟨by decide, by decide⟩, by decide⟩⟩, fun heq => ?_⟩
  rw [decoded, decoded, decoded, decoded, List.singleton_inj, Prod.mk.injEq,
    slice_feed (by decide), slice_feed (by decide)] at heq
  have hlost := @slice_lost
    (step (fun _ => true) (headerOnly plainRecord) emptyHeader) (by decide)
  exact @slice_decoded (headerOnly plainRecord) (by decide) (heq.1.symm.trans hlost)

end RtmpRejected
