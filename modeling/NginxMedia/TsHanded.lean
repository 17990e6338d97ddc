import NginxMedia.AnnexB
import NginxMedia.TsUnits

/-! What the demultiplexer hands out, for any input and whatever memory is there: a media frame
is a whole unit of its elementary stream, and a configuration frame is a record that is not. -/
namespace TsHanded

open MediaTypes MediaCodec ByteString TsDemux TsUnits AnnexB

def AdtsFrames (payload : Payload) : Prop :=
  ∃ units, units ≠ [] ∧ units.flatten = payload ∧ ∀ unit ∈ units, AdtsUnit unit

def HasSlice (codec : Codec) (payload : Payload) : Prop :=
  ∃ nal ∈ nals payload, isVcl codec (nalType codec nal) = true

def Elementary (kind : MediaType) (codec : Codec) (payload : Payload) : Prop :=
  match kind with
  | .audio => AdtsFrames payload
  | .video => HasSlice codec payload
  | .data => True

def OutOfBand (kind : MediaType) (codec : Codec) (payload : Payload) : Prop :=
  match kind with
  | .audio => payload.length = 2
  | .video => ∃ sets, payload = annexB sets ∧
      ∀ nal ∈ sets, Whole nal ∧ isConfig codec (nalType codec nal) = true
  | .data => False

theorem AdtsFrames.length {payload : Payload} (h : AdtsFrames payload) : 7 ≤ payload.length := by
  obtain ⟨units, hne, rfl, hunits⟩ := h
  obtain ⟨unit, rest, rfl⟩ := List.exists_cons_of_ne_nil hne
  obtain ⟨adts, hparse, hlen⟩ := hunits unit List.mem_cons_self
  obtain ⟨h7, hframe, -⟩ := adtsParse_header hparse
  rw [List.flatten_cons, List.length_append]
  omega

theorem isConfig_not_vcl {codec : Codec} {type : ℕ} (h : isConfig codec type = true) :
    isVcl codec type = false := by
  unfold isConfig at h
  unfold isVcl
  split_ifs at h ⊢
  · simp only [decide_eq_true_eq] at h
    simp only [decide_eq_false_iff_not]
    omega
  · simp only [decide_eq_true_eq] at h
    simp only [decide_eq_false_iff_not]
    omega

theorem OutOfBand.not_elementary {kind : MediaType} {codec : Codec} {payload : Payload}
    (h : OutOfBand kind codec payload) : ¬ Elementary kind codec payload := by
  intro he
  cases kind with
  | audio =>
    have hlen := AdtsFrames.length he
    change payload.length = 2 at h
    omega
  | video =>
    obtain ⟨sets, rfl, hsets⟩ := h
    obtain ⟨nal, hnal, hvcl⟩ := he
    rw [nals_annexB fun other hother => (hsets other hother).1] at hnal
    rw [isConfig_not_vcl (hsets nal hnal).2] at hvcl
    cases hvcl
  | data => exact h

def Handed (f : Frame) : Prop :=
  ∃ payload, f.payload = some payload ∧
    if f.config then OutOfBand f.mediaType f.codec payload
    else Elementary f.mediaType f.codec payload

def Typed (t : EsTrack) : Prop := t.track.mediaType = if t.codec = .aac then .audio else .video

structure Sound (c : Core) : Prop where
  typed : ∀ t ∈ c.tracks, Typed t
  handed : ∀ f, Output.frame f ∈ c.out → Handed f

def SoundAt (x : Core × EsTrack) : Prop := Sound x.1 ∧ Typed x.2

variable {mem : Memory} {c : Core} {t : EsTrack}

theorem Sound.same {c' : Core} (h : Sound c) (ht : c'.tracks = c.tracks) (ho : c'.out = c.out) :
    Sound c' := by
  constructor
  · rw [ht]
    exact h.typed
  · rw [ho]
    exact h.handed

theorem Sound.tracksOut (h : Sound c) (set : TrackSet) : Sound (c.emitOut (.tracks set)) := by
  refine ⟨h.typed, fun f hf => ?_⟩
  rcases List.mem_append.mp hf with hf | hf
  · exact h.handed f hf
  · simp at hf

theorem Sound.putTrack (h : Sound c) (ht : Typed t) : Sound (c.putTrack t) := by
  refine ⟨fun u hu => ?_, h.handed⟩
  rcases List.mem_or_eq_of_mem_set hu with hu | rfl
  · exact h.typed u hu
  · exact ht

theorem emit_sound (h : Sound c) {data : List UInt8} {config : Bool}
    (hdata : if config then OutOfBand t.track.mediaType t.codec data
      else Elementary t.track.mediaType t.codec data) (pts dts : ℤ) (keyframe : Bool)
    (format : PayloadFormat) : Sound (emit mem c t data pts dts keyframe config format) := by
  unfold emit
  split_ifs
  · exact h
  · exact h.same rfl rfl
  · exact h
  all_goals
    refine ⟨h.typed, fun f hf => ?_⟩
    rcases List.mem_append.mp hf with hf | hf
    · exact h.handed f hf
    · simp only [List.mem_singleton, Output.frame.injEq] at hf
      subst hf
      exact ⟨data, rfl, hdata⟩

theorem emitConfig_sound (h : SoundAt (c, t)) {data : List UInt8}
    (hdata : data ≠ [] → OutOfBand t.track.mediaType t.codec data) (format : PayloadFormat) :
    SoundAt (emitConfig mem c t data format) ∧
      (emitConfig mem c t data format).2.codec = t.codec ∧
      (emitConfig mem c t data format).2.au = t.au := by
  obtain ⟨hc, ht⟩ := h
  unfold emitConfig
  by_cases hne : data = []
  · rw [if_pos hne]
    exact ⟨⟨hc, ht⟩, rfl, rfl⟩
  · rw [if_neg hne]
    by_cases hsame : t.config = some data
    · rw [if_pos hsame]
      exact ⟨⟨hc, ht⟩, rfl, rfl⟩
    · rw [if_neg hsame]
      cases hmem : mem.bytes data.length with
      | false =>
        rw [if_pos rfl]
        exact ⟨⟨hc, ht⟩, rfl, rfl⟩
      | true =>
        rw [if_neg (by decide)]
        dsimp only
        have hset : Sound { c with
            trackset := c.trackset.modify t.trackIndex fun tr => { tr with config := some data } } :=
          hc.same rfl rfl
        have hemit := @emit_sound mem _ { t with
          config := some data, track := { t.track with config := some data } } hset data true
          (hdata hne) t.pts t.dts true format
        refine ⟨⟨?_, ht⟩, rfl, rfl⟩
        dsimp only
        split_ifs
        · exact hemit.tracksOut _
        · exact hemit

theorem byteAt_take {p : List UInt8} {i n : ℕ} (h : i < n) : byteAt (p.take n) i = byteAt p i := by
  rw [byteAt, byteAt, List.getD_eq_getElem?_getD, List.getD_eq_getElem?_getD,
    List.getElem?_take_of_lt h]

theorem adtsParse_take {p : List UInt8} {adts : Adts} (h : adtsParse p = some adts)
    (hle : adts.frameLen ≤ p.length) : AdtsUnit (p.take adts.frameLen) := by
  obtain ⟨h7, hframe, hlen⟩ := adtsParse_header h
  refine ⟨adts, ?_, by rw [List.length_take]; omega⟩
  have hshort : ¬ (p.take adts.frameLen).length < 7 := by
    rw [List.length_take]
    omega
  have hread : ∀ i < 7, byteAt (p.take adts.frameLen) i = byteAt p i :=
    fun i hi => byteAt_take (by omega)
  unfold adtsParse adtsHeaderMin at h ⊢
  rw [if_neg (by omega)] at h
  rw [if_neg hshort, hread 0 (by decide), hread 1 (by decide), hread 2 (by decide),
    hread 3 (by decide), hread 4 (by decide), hread 5 (by decide)]
  dsimp only at h ⊢
  generalize (if byteAt p 1 % 2 = 1 then 7 else 9) = headerLen at h ⊢
  by_cases hsync : byteAt p 0 ≠ 0xFF ∨ byteAt p 1 / 16 ≠ 0xF
  · rw [if_pos hsync] at h
    cases h
  rw [if_neg hsync] at h ⊢
  by_cases hheader : p.length < headerLen
  · rw [if_pos hheader] at h
    cases h
  rw [if_neg hheader] at h
  cases hrate : sampleRates[byteAt p 2 / 4 % 16]? with
  | none =>
    rw [hrate] at h
    cases h
  | some rate =>
    rw [hrate] at h
    dsimp only at h
    split_ifs at h with hchannels hframe'
    obtain rfl := Option.some.inj h
    dsimp only at hle ⊢
    rw [if_neg (by rw [List.length_take]; omega), if_neg hchannels, if_neg hframe']

theorem asc_length {adts : Adts} {asc : Payload} (h : audioSpecificConfig adts = some asc) :
    asc.length = 2 := by
  unfold audioSpecificConfig at h
  split_ifs at h
  obtain rfl := Option.some.inj h
  rfl

theorem Typed.audio (h : Typed t) (haac : t.codec = .aac) : t.track.mediaType = .audio := by
  rw [h, if_pos haac]

theorem Typed.video (h : Typed t) (haac : t.codec ≠ .aac) : t.track.mediaType = .video := by
  rw [h, if_neg haac]

theorem adtsFrame_sound (h : SoundAt (c, t)) (haac : t.codec = .aac) {p : List UInt8} {adts : Adts}
    (hparse : adtsParse p = some adts) (hle : adts.frameLen ≤ p.length) :
    SoundAt ((adtsFrame mem c t adts p).1, (adtsFrame mem c t adts p).2.1) ∧
      (adtsFrame mem c t adts p).2.1.codec = .aac := by
  have hunit : AdtsFrames (p.take adts.frameLen) :=
    ⟨[p.take adts.frameLen], by simp, by simp, by simpa using adtsParse_take hparse hle⟩
  -- whether or not there was a new configuration, the frame is written to an AAC track
  have hrest : ∀ c₁ t₁, SoundAt (c₁, t₁) → t₁.codec = .aac →
      SoundAt (emit mem c₁ { t₁ with
          track := { t₁.track with
            sampleRate := adts.sampleRate
            channels := adts.channels
            profile := adts.objectType } } (p.take adts.frameLen) t₁.lastPts t₁.lastPts true false
          .adts, { t₁ with
          track := { t₁.track with
            sampleRate := adts.sampleRate
            channels := adts.channels
            profile := adts.objectType }
          lastPts := t₁.lastPts + (1024 * 90000 / adts.sampleRate : ℕ) }) := by
    rintro c₁ t₁ ⟨hc, ht⟩ hcodec
    refine ⟨emit_sound hc ?_ _ _ _ _, ht⟩
    rw [if_neg (by decide)]
    dsimp only
    rw [ht.audio hcodec]
    exact hunit
  unfold adtsFrame
  cases hasc : audioSpecificConfig adts with
  | none => exact ⟨hrest c t h haac, haac⟩
  | some asc =>
    obtain ⟨hsound, hcodec, -⟩ := @emitConfig_sound mem c t h asc (fun _ => by
      rw [h.2.audio haac]
      exact asc_length hasc) .raw
    exact ⟨hrest _ _ hsound (hcodec.trans haac), hcodec.trans haac⟩

theorem adtsLoop_sound (h : SoundAt (c, t)) (haac : t.codec = .aac) (p : List UInt8)
    (changed : Bool) :
    SoundAt ((adtsLoop mem c t p changed).1, (adtsLoop mem c t p changed).2.1) := by
  induction c, t, p, changed using adtsLoop.induct mem with
  | case1 c t p changed hshort =>
    rw [adtsLoop, if_pos hshort]
    exact h
  | case2 c t p changed hlen hparse =>
    rw [adtsLoop, if_neg hlen]
    split
    · exact ⟨h.1.same rfl rfl, h.2⟩
    · next adts hsome => simp [hparse] at hsome
  | case3 c t p changed hlen adts hparse hlong =>
    rw [adtsLoop, if_neg hlen]
    split
    · next hnone => simp [hparse] at hnone
    · next adts' hsome =>
      obtain rfl := Option.some.inj (hparse.symm.trans hsome)
      rw [if_pos hlong]
      exact ⟨h.1.same rfl rfl, h.2⟩
  | case4 c t p changed hlen adts hparse hle one ih =>
    rw [adtsLoop, if_neg hlen]
    split
    · next hnone => simp [hparse] at hnone
    · next adts' hsome =>
      obtain rfl := Option.some.inj (hparse.symm.trans hsome)
      rw [if_neg hle]
      obtain ⟨hone, hcodec⟩ := @adtsFrame_sound mem _ _ h haac _ _ hparse (by omega)
      exact ih hone hcodec

theorem audioFlush_sound (h : SoundAt (c, t)) (haac : t.codec = .aac) :
    SoundAt (audioFlush mem c t) := by
  have hstart : SoundAt (c, if t.hasPts then { t with lastPts := t.pts } else t) := by
    split_ifs
    · exact h
    · exact h
  have hcodec : (if t.hasPts then { t with lastPts := t.pts } else t).codec = .aac := by
    split_ifs <;> exact haac
  unfold audioFlush
  dsimp only
  generalize (if t.hasPts then { t with lastPts := t.pts } else t) = t₁ at hstart hcodec
  obtain ⟨hc, ht⟩ := @adtsLoop_sound mem _ _ hstart hcodec t₁.au false
  refine ⟨?_, ht⟩
  dsimp only
  split_ifs
  · refine Sound.tracksOut ?_ _
    exact hc.same rfl rfl
  · exact hc

structure Scanned (codec : Codec) (units : List (List UInt8)) (scan : Scan) : Prop where
  sets : ∃ sets, scan.cfg = annexB sets ∧
    ∀ nal ∈ sets, nal ∈ units ∧ isConfig codec (nalType codec nal) = true
  vcl : scan.vcl = true → ∃ nal ∈ units, isVcl codec (nalType codec nal) = true

theorem scanNals_scanned (codec : Codec) {all rest : List (List UInt8)} (hsub : rest ⊆ all)
    {scan : Scan} (h : Scanned codec all scan) :
    Scanned codec all (scanNals mem codec scan rest) := by
  induction rest generalizing scan with
  | nil => exact h
  | cons nal rest ih =>
    have hmem : nal ∈ all := hsub List.mem_cons_self
    have hrest : rest ⊆ all := fun x hx => hsub (List.mem_cons_of_mem _ hx)
    have hvcl : (scan.vcl || isVcl codec (nalType codec nal)) = true →
        ∃ nal ∈ all, isVcl codec (nalType codec nal) = true := by
      intro hor
      rcases Bool.or_eq_true_iff.mp hor with hor | hor
      · exact h.vcl hor
      · exact ⟨nal, hmem, hor⟩
    obtain ⟨sets, hcfg, hsets⟩ := h.sets
    unfold scanNals
    by_cases hconfig : isConfig codec (nalType codec nal) = true
    · have hnext : ∀ cap, Scanned codec all (Scan.class { scan with
          cfg := scan.cfg ++ [0, 0, 0, 1] ++ nal, cap := cap, haveConfig := true } codec nal) := by
        intro cap
        constructor
        · refine ⟨sets ++ [nal], by simp [Scan.class, hcfg, annexB_append], ?_⟩
          intro other hother
          rcases List.mem_append.mp hother with hother | hother
          · exact hsets other hother
          · rw [List.mem_singleton.mp hother]
            exact ⟨hmem, hconfig⟩
        · exact hvcl
      rw [if_pos hconfig]
      dsimp only
      split_ifs
      all_goals first | exact h | exact ih hrest (hnext _)
    · rw [if_neg hconfig]
      exact ih hrest ⟨⟨sets, hcfg, hsets⟩, hvcl⟩

theorem auFlush_sound (h : SoundAt (c, t)) : SoundAt (auFlush mem c t) := by
  unfold auFlush
  by_cases hau : t.au = []
  · rw [if_pos hau]
    exact h
  rw [if_neg hau]
  by_cases hover : t.auOverflow = true
  · rw [if_pos hover]
    exact h
  rw [if_neg hover]
  by_cases haac : t.codec = .aac
  · rw [if_pos haac]
    exact audioFlush_sound h haac
  rw [if_neg haac]
  have hscan : Scanned t.codec (nals t.au)
      (scanNals mem t.codec ⟨[], 0, false, false, false⟩ (nals t.au)) := by
    apply scanNals_scanned _ (List.Subset.refl _)
    exact ⟨⟨[], rfl, by simp⟩, by simp⟩
  generalize scanNals mem t.codec ⟨[], 0, false, false, false⟩ (nals t.au) = scan at hscan
  obtain ⟨sets, hcfg, hsets⟩ := hscan.sets
  have hrecord : OutOfBand t.track.mediaType t.codec scan.cfg := by
    rw [h.2.video haac]
    exact ⟨sets, hcfg, fun nal hnal => ⟨nals_whole (hsets nal hnal).1, (hsets nal hnal).2⟩⟩
  obtain ⟨hsound, hcodec, hkept⟩ := @emitConfig_sound mem c t h scan.cfg (fun _ => hrecord) .annexb
  -- the access unit itself, whether or not there was a new configuration
  have hunit : ∀ x : Core × EsTrack, SoundAt x → x.2.codec = t.codec → x.2.au = t.au →
      SoundAt (if scan.vcl then
        (emit mem x.1 x.2 x.2.au (if x.2.hasPts then x.2.pts else x.2.lastPts)
            (if x.2.hasDts then x.2.dts else if x.2.hasPts then x.2.pts else x.2.lastPts)
            scan.keyframe false .annexb,
          { x.2.dropUnit with lastPts := if x.2.hasPts then x.2.pts else x.2.lastPts })
        else (x.1, x.2.dropUnit)) := by
    rintro ⟨c₁, t₁⟩ ⟨hc, ht⟩ hcodec₁ hau₁
    dsimp only at hc ht hcodec₁ hau₁ ⊢
    by_cases hvcl : scan.vcl = true
    · rw [if_pos hvcl]
      refine ⟨emit_sound hc ?_ _ _ _ _, ht⟩
      rw [if_neg (by decide), ht.video (by rw [hcodec₁]; exact haac), hcodec₁, hau₁]
      exact hscan.vcl hvcl
    · rw [if_neg hvcl]
      exact ⟨hc, ht⟩
  dsimp only
  by_cases hhave : scan.haveConfig = true
  · rw [if_pos hhave]
    exact hunit _ hsound hcodec hkept
  · rw [if_neg hhave]
    exact hunit _ h rfl rfl

theorem auAppend_sound (h : SoundAt (c, t)) (data : List UInt8) :
    SoundAt (auAppend mem c t data) := by
  obtain ⟨hc, ht⟩ := h
  unfold auAppend
  dsimp only
  split_ifs
  · exact ⟨hc, ht⟩
  · exact ⟨hc.same rfl rfl, ht⟩
  · exact ⟨hc.same rfl rfl, ht⟩
  · exact ⟨hc, ht⟩

theorem pesPayload_sound (h : SoundAt (c, t)) (payload : List UInt8) (off : ℕ) :
    SoundAt (pesPayload mem c t payload off) := by
  unfold pesPayload
  dsimp only
  split_ifs
  · exact auAppend_sound h _
  · exact ⟨h.1.same rfl rfl, h.2⟩
  · refine auFlush_sound (auAppend_sound ?_ _)
    exact h
  · refine auAppend_sound ?_ _
    exact h

theorem pesStart_sound (h : SoundAt (c, t)) (payload : List UInt8) :
    SoundAt (pesStart mem c t payload) := by
  unfold pesStart
  dsimp only
  split_ifs
  all_goals first
    | exact ⟨h.1.same rfl rfl, h.2⟩
    | (refine pesPayload_sound ?_ _ _; exact h)

theorem pesContinue_sound (h : SoundAt (c, t)) (payload : List UInt8) :
    SoundAt (pesContinue mem c t payload) := by
  unfold pesContinue
  by_cases hidle : t.au = [] ∧ t.auOverflow = false ∧ t.pesRemaining = 0
  · rw [if_pos hidle]
    exact h
  rw [if_neg hidle]
  by_cases hbound : t.pesRemaining > 0
  · have happend := @auAppend_sound mem c t h (payload.take t.pesRemaining)
    rw [if_pos hbound]
    dsimp only
    split_ifs
    · exact auFlush_sound ⟨happend.1, happend.2⟩
    · exact ⟨happend.1, happend.2⟩
  · rw [if_neg hbound]
    exact auAppend_sound h payload

theorem trackPacket_sound (h : SoundAt (c, t)) (header : Header) :
    SoundAt (trackPacket mem c t header) := by
  unfold trackPacket
  dsimp only
  generalize ccCheck t.cc header.cc header.payload.isSome = check
  have hcheck : SoundAt (if check.2 = true ∨ header.discontinuity = true then c
      else c.continuityError, { t with cc := check.1 }) := by
    refine ⟨?_, h.2⟩
    dsimp only
    split_ifs
    · exact h.1
    · exact h.1.same rfl rfl
  generalize (if check.2 = true ∨ header.discontinuity = true then c
    else c.continuityError) = c₁ at hcheck ⊢
  generalize ({ t with cc := check.1 } : EsTrack) = t₁ at hcheck ⊢
  cases header.payload with
  | none => exact hcheck
  | some payload =>
    dsimp only
    split_ifs
    · exact pesStart_sound (auFlush_sound hcheck) payload
    · exact pesContinue_sound hcheck payload

theorem parsePat_sound (h : Sound c) (s : List UInt8) : Sound (parsePat c s) := by
  unfold parsePat
  split_ifs
  · exact h.same rfl rfl
  · cases patProgram ((s.take (s.length - 4)).drop 8) with
    | none => exact h.same rfl rfl
    | some pid =>
      dsimp only
      split_ifs
      · exact h.same rfl rfl
      · exact h.same rfl rfl

theorem new_typed (index pid type : ℕ) : Typed (EsTrack.new index pid type) := rfl

theorem parsePmt_sound (h : Sound c) (s : List UInt8) : Sound (parsePmt mem c s) := by
  unfold parsePmt
  split_ifs
  · exact h.same rfl rfl
  · dsimp only
    split_ifs
    · exact h.same rfl rfl
    · exact h.same rfl rfl
    · -- the tracks are built anew
      have hnew : ∀ (found : List (ℕ × ℕ)), ∀ t ∈ found.mapIdx fun i stream =>
          EsTrack.new i stream.1 stream.2, Typed t := by
        intro found t ht
        obtain ⟨i, hi, rfl⟩ := List.mem_mapIdx.mp ht
        exact new_typed i _ _
      unfold tracksBuild
      split_ifs
      · exact ⟨hnew _, h.handed⟩
      · refine Sound.tracksOut ?_ _
        exact ⟨hnew _, h.handed⟩

theorem parseSection_sound (h : Sound c) (s : List UInt8) : Sound (parseSection mem c s) := by
  unfold parseSection
  split_ifs
  · exact h.same rfl rfl
  · exact parsePat_sound h s
  · exact parsePmt_sound h s
  · exact h

theorem setPsi_sound (h : Sound c) (table : Table) (psi : Psi) : Sound (c.setPsi table psi) := by
  cases table with
  | pat => exact h.same rfl rfl
  | pmt => exact h.same rfl rfl

theorem psiLoop_sound (h : Sound c) (table : Table) (bytes : List UInt8) :
    Sound (psiLoop mem c table bytes) := by
  induction c, bytes using psiLoop.induct mem table with
  | case1 c =>
    rw [psiLoop, dif_pos rfl]
    exact h
  | case2 c bytes hne psi hcollect =>
    rw [psiLoop, dif_neg hne]
    split
    · exact setPsi_sound h table _
    · next hbad => simp [hcollect] at hbad
    · next hcomplete => simp [hcollect] at hcomplete
  | case3 c bytes hne psi hcollect =>
    rw [psiLoop, dif_neg hne]
    split
    · next hwait => simp [hcollect] at hwait
    · exact (setPsi_sound h table _).same rfl rfl
    · next hcomplete => simp [hcollect] at hcomplete
  | case4 c bytes hne done rest hcollect c₁ ih =>
    rw [psiLoop, dif_neg hne]
    split
    · next hwait => simp [hcollect] at hwait
    · next hbad => simp [hcollect] at hbad
    · next done' rest' hcomplete =>
      obtain ⟨rfl, rfl⟩ := Collected.complete.inj (hcollect.symm.trans hcomplete)
      exact ih (setPsi_sound (parseSection_sound h done) table _)

theorem psiFeed_sound (h : Sound c) (table : Table) (pusi : Bool) (payload : List UInt8) :
    Sound (psiFeed mem c table pusi payload) := by
  unfold psiFeed
  dsimp only
  split_ifs
  · exact psiLoop_sound h table _
  · exact h
  · exact h.same rfl rfl
  · exact (setPsi_sound h table _).same rfl rfl
  · exact psiLoop_sound (setPsi_sound h table _) table _

theorem tablePacket_sound (h : Sound c) (table : Table) (header : Header) :
    Sound (tablePacket mem c table header) := by
  unfold tablePacket
  dsimp only
  generalize ccCheck (c.psi table).cc header.cc header.payload.isSome = check
  have hpsi := setPsi_sound h table { c.psi table with cc := check.1 }
  have hcheck : Sound (if check.2 = true then c.setPsi table { c.psi table with cc := check.1 }
      else (c.setPsi table { c.psi table with cc := check.1 }).continuityError) := by
    split_ifs
    · exact hpsi
    · exact hpsi.same rfl rfl
  cases header.payload with
  | none => exact hcheck
  | some payload => exact psiFeed_sound hcheck table header.pusi payload

theorem routed_sound (h : Sound c) (header : Header) :
    Sound (if header.pid = pidPat then tablePacket mem c .pat header
      else if c.patValid = true ∧ header.pid = c.pmtPid then tablePacket mem c .pmt header
      else match trackByPid c header.pid with
        | none => c
        | some t => (trackPacket mem c t header).1.putTrack (trackPacket mem c t header).2) := by
  split_ifs
  · exact tablePacket_sound h .pat header
  · exact tablePacket_sound h .pmt header
  · cases htrack : trackByPid c header.pid with
    | none => exact h
    | some t =>
      have hmem : t ∈ c.tracks := List.mem_of_find?_eq_some htrack
      obtain ⟨hc, htyped⟩ := @trackPacket_sound mem c t ⟨h, h.typed t hmem⟩ header
      exact hc.putTrack htyped

theorem processPacket_sound (h : Sound c) (p : List UInt8) : Sound (processPacket mem c p) := by
  unfold processPacket
  dsimp only
  split_ifs
  · exact h.same rfl rfl
  · exact h.same rfl rfl
  · cases packetHeader p with
    | none => exact h.same rfl rfl
    | some header =>
      apply routed_sound
      split
      · exact h.same rfl rfl
      · exact h.same rfl rfl

theorem flush_sound (h : Sound c) : Sound (flush mem c) := by
  unfold flush
  generalize List.range c.tracks.length = order
  induction order generalizing c with
  | nil => exact h
  | cons i rest ih =>
    apply ih
    dsimp only
    split
    · next t ht =>
      obtain ⟨hc, htyped⟩ := @auFlush_sound mem c t ⟨h, h.typed t (List.mem_of_getElem? ht)⟩
      exact hc.putTrack htyped
    · exact h

theorem feedLoop_sound {d : Demux} (h : Sound d.core) (data : List UInt8) :
    Sound (feedLoop mem d data).core := by
  induction d, data using feedLoop.induct mem with
  | case1 d data hlen =>
    rw [feedLoop, dif_pos hlen]
    exact h
  | case2 d data hlen hsync ih =>
    rw [feedLoop, dif_neg hlen, if_pos hsync]
    exact ih (processPacket_sound h _)
  | case3 d data hlen hsync skip ih =>
    rw [feedLoop, dif_neg hlen, if_neg hsync]
    exact ih h

theorem feed_sound {d : Demux} (h : Sound d.core) (data : List UInt8) :
    Sound (feed mem d data).core := by
  unfold feed
  dsimp only
  split_ifs
  · refine feedLoop_sound ?_ data
    exact h
  · exact h
  · apply feedLoop_sound
    unfold finishTail
    split_ifs
    · exact processPacket_sound h _
    · exact h

theorem init_sound (maxTracks maxAuBytes : ℕ) : Sound (Core.init maxTracks maxAuBytes) :=
  ⟨fun _ ht => absurd ht List.not_mem_nil, fun _ hf => absurd hf List.not_mem_nil⟩

end TsHanded
