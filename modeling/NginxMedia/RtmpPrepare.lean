import NginxMedia.RtmpFanout
import NginxMedia.RtmpPublisher

/-! The sequence headers an RTMP output builds from a program's tracks, in buffers of fixed
size on the stack. What is written to each buffer is a result of the model. -/
namespace RtmpPrepare
open MediaTypes ByteString RtmpConfig RtmpPublisher

def bodySize : ℕ := 1024
def recordSize : ℕ := 512

/-- The part of `ngx_media_rtmp_prepare_t` that a sequence header reads and changes. -/
structure Prepare where
  fan : RtmpFanout.Fanout
  nalLengthSize : ℕ
  errors : ℕ
  skipped : ℕ

def init (units maxBytes : ℕ) : Prepare := ⟨RtmpFanout.init units maxBytes, 4, 0, 0⟩

/-- `record` and `body` are the bytes written from the start of the two buffers. -/
structure Prepared where
  prep : Prepare
  record : List UInt8
  body : List UInt8
  rc : Rc

def skip (p : Prepare) : Prepared := ⟨{ p with skipped := p.skipped + 1 }, [], [], .ok⟩

def typeId : MediaType → ℕ
  | .video => 1
  | .audio => 2
  | .data => 3

def sequencePush (mediaType : MediaType) (track : Track) (body : List UInt8) : RtmpFanout.Push :=
  ⟨if mediaType = .video then 9 else 8, typeId track.mediaType, 0, body, true, true⟩

def sequenceBody (mem : ℕ → Bool) (p : Prepare) (mediaType : MediaType) (track : Track)
    (record body : List UInt8) : Prepared :=
  if !mem body.length then ⟨p, record, body, .error⟩
  else
    ⟨{ p with fan := RtmpFanout.push p.fan (sequencePush mediaType track body) }, record, body,
      .ok⟩

def firstNal (codec : Codec) (type : ℕ) (config : Payload) : Option Payload :=
  (MediaCodec.nals config).find? fun nal => MediaCodec.nalType codec nal = type

def hevcSequence (mem : ℕ → Bool) (p : Prepare) (track : Track) (config : Payload) : Prepared :=
  match firstNal .h265 32 config, firstNal .h265 33 config, firstNal .h265 34 config with
  | some vps, some sps, some pps =>
    if sps.length < 13 then skip p
    else
      match hvccBuild
        { version := 1, nalLengthSize := p.nalLengthSize, profileSpace := byteAt sps 1 / 64,
          profileIdc := byteAt sps 1 % 32, level := byteAt sps 12, vps := [vps], sps := [sps],
          pps := [pps] } recordSize with
      | (record, false) => ⟨{ p with errors := p.errors + 1 }, record, [], .ok⟩
      | (record, true) =>
        sequenceBody mem p .video track record (0x90 :: fourccHevc ++ record)
  | _, _, _ => skip p

def avcSequence (mem : ℕ → Bool) (p : Prepare) (track : Track) (config : Payload) : Prepared :=
  match firstNal .h264 7 config, firstNal .h264 8 config with
  | some sps, some pps =>
    if sps.length < 4 then skip p
    else
      match avccBuild
        { version := 1, profile := byteAt sps 1, compatibility := byteAt sps 2,
          level := byteAt sps 3, nalLengthSize := p.nalLengthSize, sps := [sps],
          pps := [pps] } recordSize with
      | (record, false) => ⟨{ p with errors := p.errors + 1 }, record, [], .ok⟩
      | (record, true) => sequenceBody mem p .video track record ([0x17, 0, 0, 0, 0] ++ record)
  | _, _ => skip p

def prepareSequence (mem : ℕ → Bool) (p : Prepare) (mediaType : MediaType) (track : Track) :
    Prepared :=
  match track.config with
  | none => ⟨p, [], [], .ok⟩
  | some config =>
    if mediaType = .video then
      if track.codec = .h265 then hevcSequence mem p track config
      else avcSequence mem p track config
    else sequenceBody mem p mediaType track [] ([0xAF, 0] ++ config)

/-- No write index reaches the size of its buffer. -/
def Within (r : Prepared) : Prop := r.record.length ≤ recordSize ∧ r.body.length ≤ bodySize

variable {mem : ℕ → Bool} {p : Prepare} {track : Track} {mediaType : MediaType}
  {record body config : List UInt8}

theorem sequenceBody_within : Within (sequenceBody mem p mediaType track record body) ↔
    record.length ≤ recordSize ∧ body.length ≤ bodySize := by
  unfold sequenceBody
  split_ifs <;> rfl

theorem skip_within (p : Prepare) : Within (skip p) := ⟨Nat.zero_le _, Nat.zero_le _⟩

theorem record_within (head : List UInt8) (hhead : head.length = 5)
    (hrecord : record.length ≤ recordSize) :
    Within (sequenceBody mem p mediaType track record (head ++ record)) := by
  refine sequenceBody_within.mpr ⟨hrecord, ?_⟩
  rw [List.length_append, hhead]
  unfold recordSize at hrecord
  unfold bodySize
  omega

theorem hevcSequence_within (mem : ℕ → Bool) (p : Prepare) (track : Track) (config : Payload) :
    Within (hevcSequence mem p track config) := by
  unfold hevcSequence
  split
  · next vps sps pps _ _ _ =>
    split_ifs
    · exact skip_within p
    · have hlen := hvccBuild_length
        { version := 1, nalLengthSize := p.nalLengthSize, profileSpace := byteAt sps 1 / 64,
          profileIdc := byteAt sps 1 % 32, level := byteAt sps 12, vps := [vps], sps := [sps],
          pps := [pps] } recordSize
      split
      · next record heq =>
        rw [heq] at hlen
        exact ⟨hlen, Nat.zero_le _⟩
      · next record heq =>
        rw [heq] at hlen
        exact record_within (0x90 :: fourccHevc) rfl hlen
  · exact skip_within p

theorem avcSequence_within (mem : ℕ → Bool) (p : Prepare) (track : Track) (config : Payload) :
    Within (avcSequence mem p track config) := by
  unfold avcSequence
  split
  · next sps pps _ _ =>
    split_ifs
    · exact skip_within p
    · have hlen := avccBuild_length
        { version := 1, profile := byteAt sps 1, compatibility := byteAt sps 2,
          level := byteAt sps 3, nalLengthSize := p.nalLengthSize, sps := [sps],
          pps := [pps] } recordSize
      split
      · next record heq =>
        rw [heq] at hlen
        exact ⟨hlen, Nat.zero_le _⟩
      · next record heq =>
        rw [heq] at hlen
        exact record_within [0x17, 0, 0, 0, 0] rfl hlen
  · exact skip_within p

theorem prepareSequence_within : Within (prepareSequence mem p track.mediaType track) ↔
    track.mediaType = .video ∨ ∀ config, track.config = some config → config.length + 2 ≤ bodySize := by
  unfold prepareSequence
  cases hconfig : track.config with
  | none =>
    refine iff_of_true ⟨Nat.zero_le _, Nat.zero_le _⟩ (Or.inr fun config h => ?_)
    cases h
  | some config =>
    dsimp only
    by_cases hvideo : track.mediaType = .video
    · rw [if_pos hvideo]
      refine iff_of_true ?_ (Or.inl hvideo)
      split_ifs
      · exact hevcSequence_within mem p track config
      · exact avcSequence_within mem p track config
    · rw [if_neg hvideo, sequenceBody_within]
      constructor
      · rintro ⟨-, hbody⟩
        refine Or.inr fun config' h => ?_
        cases h
        rw [List.length_append] at hbody
        change 2 + config.length ≤ bodySize at hbody
        omega
      · intro h
        have hlen := h.resolve_left hvideo config rfl
        refine ⟨Nat.zero_le _, ?_⟩
        rw [List.length_append]
        change 2 + config.length ≤ bodySize
        omega

def Fitting (pub : Publisher) : Prop :=
  ∀ t ∈ pub.tracks, t.mediaType = .video ∨
    ∀ config, t.config = some config → config.length + 2 ≤ bodySize

theorem run_fitting {pub : Publisher} (h : Layout pub) (hfit : Fitting pub) (messages : List Message)
    (hshort : ∀ m ∈ messages, AacSequence mem m → m.data.length ≤ bodySize) :
    Layout (messages.foldl (step mem) pub) ∧ Fitting (messages.foldl (step mem) pub) := by
  induction messages generalizing pub with
  | nil => exact ⟨h, hfit⟩
  | cons m rest ih =>
    obtain ⟨hlayout, htracks⟩ := @step_tracks mem pub h m
    refine ih hlayout (fun t ht => ?_) fun m' hm' => hshort m' (List.mem_cons_of_mem _ hm')
    rcases htracks t ht with hold | hvideo | ⟨haac, hconfig⟩
    · exact hfit t hold
    · exact Or.inl hvideo
    · have hlen := hshort m List.mem_cons_self haac
      refine Or.inr fun config hc => ?_
      rw [hconfig] at hc
      cases hc
      have htwo := haac.2.1
      rw [List.length_drop]
      omega

theorem run_layout {pub : Publisher} (h : Layout pub) (messages : List Message) :
    Layout (messages.foldl (step mem) pub) := by
  induction messages generalizing pub with
  | nil => exact h
  | cons m rest ih => exact ih (step_tracks h m).1

theorem long_header_overflows {pub : Publisher} (h : Layout pub) {m : Message}
    (hm : AacSequence mem m) (hlong : bodySize < m.data.length) (mem' : ℕ → Bool) (p : Prepare) :
    ∃ t ∈ (step mem pub m).tracks, ¬Within (prepareSequence mem' p t.mediaType t) := by
  obtain ⟨t, ht, hkind, hconfig⟩ := (audio_set h hm).new
  refine ⟨t, ht, fun hwithin => ?_⟩
  rcases prepareSequence_within.mp hwithin with hvideo | hfit
  · rw [hkind] at hvideo
    cases hvideo
  · have hlen := hfit _ hconfig
    have htwo := hm.2.1
    rw [List.length_drop] at hlen
    omega

/-- Whatever a publisher sends, every sequence header built from its tracks, at any time,
stays inside its buffers just when no AAC sequence header it sends is longer than the
body. -/
theorem sequence_headers_within_iff (mem mem' : ℕ → Bool) (p : Prepare)
    (messages : List Message) :
    (∀ sent, sent <+: messages → ∀ t ∈ (sent.foldl (step mem) RtmpPublisher.init).tracks,
      Within (prepareSequence mem' p t.mediaType t)) ↔
    ∀ m ∈ messages, AacSequence mem m → m.data.length ≤ bodySize := by
  constructor
  · intro hwithin m hm haac
    by_contra hlong
    obtain ⟨before, after, rfl⟩ := List.append_of_mem hm
    have hlayout := @run_layout mem _ init_layout before
    obtain ⟨t, ht, hover⟩ := long_header_overflows hlayout haac (by omega) mem' p
    refine hover (hwithin (before ++ [m]) ⟨after, by simp⟩ t ?_)
    rw [List.foldl_append]
    exact ht
  · intro hshort sent hsent t ht
    have hsub : ∀ m ∈ sent, AacSequence mem m → m.data.length ≤ bodySize :=
      fun m hm => hshort m (hsent.subset hm)
    have hinit : Fitting RtmpPublisher.init := fun t ht => by cases ht
    exact prepareSequence_within.mpr ((run_fitting init_layout hinit sent hsub).2 t ht)

/-- Two bytes of AudioSpecificConfig and 1021 more. -/
def longHeader : Message := ⟨.audio, 0, [0xAF, 0, 0x12, 0x10] ++ List.replicate 1021 0⟩

theorem longHeader_overflows :
    ∃ t ∈ ([longHeader].foldl (step fun _ => true) RtmpPublisher.init).tracks,
      ¬Within (prepareSequence (fun _ => true) (init 16 0) t.mediaType t) := by
  have hlen : longHeader.data.length = 1025 := by
    unfold longHeader
    rw [List.length_append, List.length_replicate]
    rfl
  have haac : AacSequence (fun _ => true) longHeader := by
    refine ⟨rfl, by omega, rfl, ?_, rfl⟩
    have hdrop : ¬(longHeader.data.drop 2).length < 2 := by
      rw [List.length_drop, hlen]
      decide
    unfold ascParse
    rw [if_neg hdrop]
    rfl
  have hlong : bodySize < longHeader.data.length := by
    rw [hlen]
    decide
  have hover := long_header_overflows init_layout haac hlong (fun _ => true) (init 16 0)
  rw [List.foldl_cons, List.foldl_nil]
  exact hover

end RtmpPrepare
