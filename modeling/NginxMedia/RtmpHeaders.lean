import NginxMedia.AnnexB
import NginxMedia.RtmpPrepare

/-! What is left of a publisher's avcC record in the sequence headers of the outputs: the
record becomes an Annex B configuration, is cut into NAL units again and rebuilt from the
first unit of each kind. -/
namespace RtmpHeaders

open MediaTypes ByteString RtmpConfig RtmpPublisher RtmpPrepare AnnexB

def encodeSets (sets : List Payload) : List UInt8 :=
  sets.flatMap fun set => [low (set.length / 256), low set.length] ++ set

@[simp] theorem encodeSets_nil : encodeSets [] = [] := rfl

theorem encodeSets_cons (set : Payload) (rest : List Payload) :
    encodeSets (set :: rest) =
      [low (set.length / 256), low set.length] ++ (set ++ encodeSets rest) := by
  simp [encodeSets]

/-- The record of which `avccBuild` writes as much as fits. -/
def encodeAvcc (avcc : Avcc) : List UInt8 :=
  avccHead avcc ++ [low (0xFC + (avccLengthSize avcc - 1)), low (0xE0 + avcc.sps.length)] ++
    encodeSets avcc.sps ++ [low avcc.pps.length] ++ encodeSets avcc.pps

theorem putSets_fits {capacity : ℕ} (sets : List Payload) {dst : List UInt8}
    (h : dst.length + (encodeSets sets).length ≤ capacity) :
    putSets capacity dst sets = (dst ++ encodeSets sets, true) := by
  induction sets generalizing dst with
  | nil => rw [putSets, encodeSets_nil, List.append_nil]
  | cons set rest ih =>
    rw [encodeSets_cons] at h ⊢
    simp only [List.length_append, List.length_cons, List.length_nil] at h
    rw [putSets, if_neg (by omega), ih]
    · simp only [List.append_assoc]
    · simp only [List.length_append, List.length_cons, List.length_nil]
      omega

theorem putSets_full {capacity : ℕ} (sets : List Payload) {dst : List UInt8}
    (hdst : dst.length ≤ capacity) (h : capacity < dst.length + (encodeSets sets).length) :
    (putSets capacity dst sets).2 = false := by
  induction sets generalizing dst with
  | nil =>
    rw [encodeSets_nil, List.length_nil] at h
    omega
  | cons set rest ih =>
    rw [encodeSets_cons] at h
    simp only [List.length_append, List.length_cons, List.length_nil] at h
    rw [putSets]
    split_ifs with hfull
    · rfl
    · refine ih ?_ ?_ <;> simp only [List.length_append, List.length_cons, List.length_nil] <;>
        omega

/-- A record that can be described. -/
structure Buildable (avcc : Avcc) : Prop where
  sps : avcc.sps ≠ [] ∧ avcc.sps.length ≤ maxParamSets
  pps : avcc.pps ≠ [] ∧ avcc.pps.length ≤ maxParamSets
  size : avcc.nalLengthSize ≤ 4

theorem Buildable.lengthSize {avcc : Avcc} (h : Buildable avcc) :
    1 ≤ avccLengthSize avcc ∧ avccLengthSize avcc ≤ 4 := by
  have hsize := h.size
  unfold avccLengthSize
  split_ifs <;> omega

theorem encodeAvcc_length (avcc : Avcc) : (encodeAvcc avcc).length =
    7 + (encodeSets avcc.sps).length + (encodeSets avcc.pps).length := by
  simp only [encodeAvcc, avccHead, List.length_append, List.length_cons, List.length_nil]
  omega

def avccFront (avcc : Avcc) : List UInt8 :=
  avccHead avcc ++ [low (0xFC + (avccLengthSize avcc - 1)), low (0xE0 + avcc.sps.length)]

theorem avccFront_length (avcc : Avcc) : (avccFront avcc).length = 6 := rfl

theorem avccBuild_eq {avcc : Avcc} (h : Buildable avcc) {capacity : ℕ} (hcap : 7 ≤ capacity) :
    avccBuild avcc capacity =
      match putSets capacity (avccFront avcc) avcc.sps with
      | (dst, false) => (dst, false)
      | (dst, true) =>
        if dst.length + 1 > capacity then (dst, false)
        else putSets capacity (dst ++ [low avcc.pps.length]) avcc.pps := by
  obtain ⟨hone, hfour⟩ := h.lengthSize
  have hempty : ¬ (avcc.sps = [] ∨ avcc.pps = [] ∨ avcc.sps.length > maxParamSets ∨
      avcc.pps.length > maxParamSets) := by
    rintro (he | he | he | he)
    · exact h.sps.1 he
    · exact h.pps.1 he
    · exact absurd h.sps.2 (by omega)
    · exact absurd h.pps.2 (by omega)
  unfold avccBuild
  rw [if_neg hempty, if_neg (by omega), if_neg (by omega)]
  rfl

theorem avccBuild_fits {avcc : Avcc} (h : Buildable avcc) {capacity : ℕ}
    (hroom : (encodeAvcc avcc).length ≤ capacity) :
    avccBuild avcc capacity = (encodeAvcc avcc, true) := by
  rw [encodeAvcc_length] at hroom
  have hfront := avccFront_length avcc
  rw [avccBuild_eq h (by omega), putSets_fits avcc.sps (by omega)]
  have hlen : (avccFront avcc ++ encodeSets avcc.sps).length =
      6 + (encodeSets avcc.sps).length := by rw [List.length_append, hfront]
  dsimp only
  rw [if_neg (by omega), putSets_fits]
  · rfl
  · rw [List.length_append, hlen, List.length_singleton]
    omega

theorem avccBuild_full {avcc : Avcc} (h : Buildable avcc) {capacity : ℕ} (hcap : 7 ≤ capacity)
    (hfull : capacity < (encodeAvcc avcc).length) : (avccBuild avcc capacity).2 = false := by
  rw [encodeAvcc_length] at hfull
  have hfront := avccFront_length avcc
  rw [avccBuild_eq h hcap]
  by_cases hfirst : 6 + (encodeSets avcc.sps).length ≤ capacity
  · rw [putSets_fits avcc.sps (by omega)]
    have hlen : (avccFront avcc ++ encodeSets avcc.sps).length =
        6 + (encodeSets avcc.sps).length := by rw [List.length_append, hfront]
    dsimp only
    split_ifs with hroom
    · rfl
    · refine putSets_full avcc.pps ?_ ?_ <;>
        rw [List.length_append, hlen, List.length_singleton] <;> omega
  · have hsps : (putSets capacity (avccFront avcc) avcc.sps).2 = false :=
      putSets_full avcc.sps (by omega) (by omega)
    obtain ⟨dst, hdst⟩ : ∃ dst, putSets capacity (avccFront avcc) avcc.sps = (dst, false) :=
      ⟨_, Prod.ext rfl hsps⟩
    rw [hdst]

theorem parseSets_encode (sets : List Payload) (hsets : ∀ set ∈ sets, set ≠ [] ∧ set.length < 65536)
    (before after : List UInt8) (acc : List Payload)
    (hroom : acc.length + sets.length ≤ maxParamSets) :
    parseSets (before ++ encodeSets sets ++ after) sets.length before.length acc =
      ((before ++ encodeSets sets).length, acc ++ sets, true) := by
  induction sets generalizing before acc with
  | nil => simp [parseSets]
  | cons set rest ih =>
    obtain ⟨hne, hlt⟩ := hsets set List.mem_cons_self
    have hpos := List.length_pos_of_ne_nil hne
    rw [List.length_cons] at hroom ⊢
    have hdata : before ++ encodeSets (set :: rest) ++ after =
        before ++ ([low (set.length / 256), low set.length] ++
          (set ++ (encodeSets rest ++ after))) := by
      rw [encodeSets_cons]
      simp only [List.append_assoc]
    have hbe : be16 (before ++ ([low (set.length / 256), low set.length] ++
        (set ++ (encodeSets rest ++ after)))) before.length = set.length := by
      have hzero := byteAt_add (rfl : before.length = before.length)
        ([low (set.length / 256), low set.length] ++ (set ++ (encodeSets rest ++ after))) 0
      have hone := byteAt_add (rfl : before.length = before.length)
        ([low (set.length / 256), low set.length] ++ (set ++ (encodeSets rest ++ after))) 1
      rw [be16, hone, ← Nat.add_zero before.length, hzero]
      simp only [List.cons_append, byteAt_zero, byteAt_succ, low_toNat]
      omega
    have hslice : slice (before ++ ([low (set.length / 256), low set.length] ++
        (set ++ (encodeSets rest ++ after)))) (before.length + 2) set.length = set := by
      unfold slice
      rw [List.drop_length_add_append]
      exact List.take_left
    have hnext : before ++ ([low (set.length / 256), low set.length] ++
        (set ++ (encodeSets rest ++ after))) =
        (before ++ [low (set.length / 256), low set.length] ++ set) ++ encodeSets rest ++
          after := by
      simp only [List.append_assoc]
    have hnextLength : (before ++ [low (set.length / 256), low set.length] ++ set).length =
        before.length + 2 + set.length := by
      simp only [List.length_append, List.length_cons, List.length_nil]
    have hlen : before.length + 2 + set.length ≤ (before ++
        ([low (set.length / 256), low set.length] ++
          (set ++ (encodeSets rest ++ after)))).length := by
      simp only [List.length_append, List.length_cons, List.length_nil]
      omega
    rw [hdata, parseSets, if_neg (by omega)]
    simp only [hbe, hslice]
    rw [if_neg (by omega), keepSet, if_pos (by unfold maxParamSets at hroom ⊢; omega), hnext,
      ← hnextLength, ih (fun s hs => hsets s (List.mem_cons_of_mem _ hs))]
    · rw [encodeSets_cons]
      simp only [List.append_assoc, List.singleton_append]
    · rw [List.length_append, List.length_singleton]
      omega

theorem avccParse_encode {avcc : Avcc} (h : Buildable avcc) (hversion : avcc.version = 1)
    (hsets : ∀ set ∈ avcc.sps ++ avcc.pps, set ≠ [] ∧ set.length < 65536) (out : Avcc) :
    avccParse out (encodeAvcc avcc) =
      ({ version := 1, profile := avcc.profile % 256, compatibility := avcc.compatibility % 256,
         level := avcc.level % 256, nalLengthSize := avccLengthSize avcc, sps := avcc.sps,
         pps := avcc.pps }, true) := by
  obtain ⟨hone, hfour⟩ := h.lengthSize
  have hspsMax : avcc.sps.length ≤ 4 := h.sps.2
  have hppsMax : avcc.pps.length ≤ 4 := h.pps.2
  have hfront : encodeAvcc avcc = avccFront avcc ++ encodeSets avcc.sps ++
      ([low avcc.pps.length] ++ encodeSets avcc.pps) := by
    simp only [encodeAvcc, avccFront, List.append_assoc]
  have hback : encodeAvcc avcc = avccFront avcc ++ encodeSets avcc.sps ++ [low avcc.pps.length] ++
      encodeSets avcc.pps ++ [] := by
    simp only [encodeAvcc, avccFront, List.append_assoc, List.append_nil]
  have hbytes : ∀ i < 6, byteAt (encodeAvcc avcc) i = byteAt (avccFront avcc) i := by
    intro i hi
    rw [hfront, List.append_assoc, byteAt_append (by rw [avccFront_length]; exact hi)]
  have hsps := parseSets_encode avcc.sps
    (fun set hs => hsets set (List.mem_append_left _ hs)) (avccFront avcc)
    ([low avcc.pps.length] ++ encodeSets avcc.pps) [] (by simpa using h.sps.2)
  have hpps := parseSets_encode avcc.pps
    (fun set hs => hsets set (List.mem_append_right _ hs))
    (avccFront avcc ++ encodeSets avcc.sps ++ [low avcc.pps.length]) [] []
    (by simpa using h.pps.2)
  have hcount : byteAt (encodeAvcc avcc) (avccFront avcc ++ encodeSets avcc.sps).length =
      avcc.pps.length := by
    have := byteAt_add (rfl : (avccFront avcc ++ encodeSets avcc.sps).length = _)
      ([low avcc.pps.length] ++ encodeSets avcc.pps) 0
    rw [Nat.add_zero] at this
    rw [hfront, this, List.singleton_append, byteAt_zero, low_toNat]
    omega
  have hend : (avccFront avcc ++ encodeSets avcc.sps).length + 1 =
      (avccFront avcc ++ encodeSets avcc.sps ++ [low avcc.pps.length]).length := by
    simp only [List.length_append, List.length_singleton]
  rw [← hfront, avccFront_length, List.nil_append] at hsps
  rw [← hback, ← hend, List.nil_append] at hpps
  have hlen := encodeAvcc_length avcc
  have hpos : ¬ (avccFront avcc ++ encodeSets avcc.sps).length ≥ (encodeAvcc avcc).length := by
    rw [hlen, List.length_append, avccFront_length]
    omega
  have hzero : byteAt (encodeAvcc avcc) 0 = 1 := by
    rw [hbytes 0 (by omega)]
    simp [avccFront, avccHead, hversion]
  have hsize : byteAt (encodeAvcc avcc) 4 % 4 + 1 = avccLengthSize avcc := by
    rw [hbytes 4 (by omega)]
    simp only [avccFront, avccHead, List.cons_append, List.nil_append, byteAt_zero, byteAt_succ,
      low_toNat]
    omega
  have hnsps : byteAt (encodeAvcc avcc) 5 % 32 = avcc.sps.length := by
    rw [hbytes 5 (by omega)]
    simp only [avccFront, avccHead, List.cons_append, List.nil_append, byteAt_zero, byteAt_succ,
      low_toNat]
    omega
  have hprofile : byteAt (encodeAvcc avcc) 1 = avcc.profile % 256 ∧
      byteAt (encodeAvcc avcc) 2 = avcc.compatibility % 256 ∧
      byteAt (encodeAvcc avcc) 3 = avcc.level % 256 := by
    rw [hbytes 1 (by omega), hbytes 2 (by omega), hbytes 3 (by omega)]
    simp [avccFront, avccHead]
  unfold avccParse
  rw [if_neg (by omega)]
  simp only [hzero, hsize, hnsps, hprofile, hsps, hcount, hpps]
  rw [if_neg (by omega), if_neg h.sps.1, if_neg hpos]
  simp [h.pps.1]

def Kept (avcc : Avcc) (r : Prepared) : Prop :=
  r.rc = .ok ∧ r.body.take 5 = [0x17, 0, 0, 0, 0] ∧
    ∃ out, avccParse Avcc.zero (r.body.drop 5) = (out, true) ∧ out.sps = avcc.sps ∧
      out.pps = avcc.pps ∧ ∃ first ∈ avcc.sps.head?, out.profile = byteAt first 1 ∧
        out.compatibility = byteAt first 2 ∧ out.level = byteAt first 3

def Describable (avcc : Avcc) : Prop :=
  ∃ sps pps, avcc.sps = [sps] ∧ avcc.pps = [pps] ∧ MediaCodec.nalType .h264 sps = 7 ∧
    MediaCodec.nalType .h264 pps = 8 ∧ 11 + sps.length + pps.length ≤ recordSize

/-- A set that a start code can stand in front of, with the bytes a description is made of. -/
structure Plain (set : Payload) : Prop where
  whole : Whole set
  four : 4 ≤ set.length

/-- The description `ngx_media_rtmp_prepare_sequence()` makes of two units. -/
def described (p : Prepare) (sps pps : Payload) : Avcc :=
  { version := 1, profile := byteAt sps 1, compatibility := byteAt sps 2, level := byteAt sps 3,
    nalLengthSize := p.nalLengthSize, sps := [sps], pps := [pps] }

section Sequence

variable {mem : ℕ → Bool} {p : Prepare} {track : Track} {avcc : Avcc} {sps pps : Payload}

theorem described_buildable (hsize : p.nalLengthSize ≤ 4) (sps pps : Payload) :
    Buildable (described p sps pps) := by
  have hone : 1 ≤ maxParamSets := by decide
  exact ⟨⟨List.cons_ne_nil _ _, hone⟩, ⟨List.cons_ne_nil _ _, hone⟩, hsize⟩

theorem described_length (p : Prepare) (sps pps : Payload) :
    (encodeAvcc (described p sps pps)).length = 11 + sps.length + pps.length := by
  rw [encodeAvcc_length]
  simp only [described, encodeSets_cons, encodeSets_nil, List.length_append, List.length_cons,
    List.length_nil]
  omega

theorem described_parse (hsize : p.nalLengthSize ≤ 4) (hsps : Plain sps) (hpps : Plain pps)
    (hroom : 11 + sps.length + pps.length ≤ recordSize) (out : Avcc) :
    avccParse out (encodeAvcc (described p sps pps)) =
      ({ described p sps pps with nalLengthSize := avccLengthSize (described p sps pps) },
        true) := by
  have hsmall : ∀ set ∈ (described p sps pps).sps ++ (described p sps pps).pps,
      set ≠ [] ∧ set.length < 65536 := by
    have hne : ∀ {set}, Plain set → set ≠ [] := fun hp he => by
      have := hp.four
      rw [he, List.length_nil] at this
      omega
    unfold recordSize at hroom
    intro set hset
    rcases List.mem_append.mp hset with h | h
    · rw [List.mem_singleton.mp h]
      exact ⟨hne hsps, by omega⟩
    · rw [List.mem_singleton.mp h]
      exact ⟨hne hpps, by omega⟩
  rw [avccParse_encode (described_buildable hsize sps pps) rfl hsmall]
  simp only [described, Nat.mod_eq_of_lt (byteAt_lt _ _)]

theorem firstNal_annexb (h : ∀ set ∈ avcc.sps ++ avcc.pps, Plain set) (codec : Codec)
    (type : ℕ) : firstNal codec type (annexb avcc.sps ++ annexb avcc.pps) =
      (avcc.sps ++ avcc.pps).find? fun nal => MediaCodec.nalType codec nal = type := by
  have hblob : annexb avcc.sps ++ annexb avcc.pps = annexB (avcc.sps ++ avcc.pps) :=
    (annexB_append avcc.sps avcc.pps).symm
  rw [firstNal, hblob, nals_annexB fun nal hnal => (h nal hnal).whole]

theorem not_kept_of_body {r : Prepared} (h : r.body = []) : ¬ Kept avcc r := by
  rintro ⟨-, hhead, -⟩
  rw [h] at hhead
  cases hhead

theorem found_kept_iff (hmem : ∀ n ≤ bodySize, mem n = true) (hsize : p.nalLengthSize ≤ 4)
    (hsps : Plain sps) (hpps : Plain pps) (r : Prepared)
    (hr : r = match avccBuild (described p sps pps) recordSize with
      | (record, false) => ⟨{ p with errors := p.errors + 1 }, record, [], .ok⟩
      | (record, true) => sequenceBody mem p .video track record ([0x17, 0, 0, 0, 0] ++ record)) :
    Kept avcc r ↔ avcc.sps = [sps] ∧ avcc.pps = [pps] ∧
      11 + sps.length + pps.length ≤ recordSize := by
  have hbuildable := described_buildable hsize sps pps
  have hlen := described_length p sps pps
  by_cases hroom : 11 + sps.length + pps.length ≤ recordSize
  · rw [avccBuild_fits hbuildable (by omega)] at hr
    have hbody : mem ([0x17, 0, 0, 0, 0] ++ encodeAvcc (described p sps pps)).length = true := by
      refine hmem _ ?_
      rw [List.length_append, hlen]
      unfold recordSize at hroom
      change 5 + (11 + sps.length + pps.length) ≤ 1024
      omega
    simp only [sequenceBody, hbody, Bool.not_true, Bool.false_eq_true, if_false] at hr
    have hparse := described_parse hsize hsps hpps hroom Avcc.zero
    have hdrop : r.body.drop 5 = encodeAvcc (described p sps pps) := by
      rw [hr]
      rfl
    constructor
    · rintro ⟨-, -, out, hout, hs, hp, -⟩
      rw [hdrop, hparse] at hout
      obtain ⟨rfl, -⟩ := Prod.mk.inj hout
      exact ⟨hs.symm, hp.symm, hroom⟩
    · rintro ⟨hs, hp, -⟩
      refine ⟨by rw [hr], by rw [hr]; rfl, _, by rw [hdrop, hparse], hs.symm, hp.symm, sps, ?_,
        rfl, rfl, rfl⟩
      rw [hs]
      rfl
  · have hfull : (avccBuild (described p sps pps) recordSize).2 = false :=
      avccBuild_full hbuildable (by decide) (by omega)
    obtain ⟨record, hrecord⟩ :
        ∃ record, avccBuild (described p sps pps) recordSize = (record, false) :=
      ⟨_, Prod.ext rfl hfull⟩
    rw [hrecord] at hr
    exact iff_of_false (not_kept_of_body (by rw [hr])) fun h => hroom h.2.2

/-- The configuration of a record's sets is described again just if there is nothing that a
description of two units leaves out. -/
theorem avcSequence_kept_iff (hmem : ∀ n ≤ bodySize, mem n = true)
    (hsize : p.nalLengthSize ≤ 4) (hplain : ∀ set ∈ avcc.sps ++ avcc.pps, Plain set) :
    Kept avcc (avcSequence mem p track (annexb avcc.sps ++ annexb avcc.pps)) ↔
      Describable avcc := by
  have hfound : ∀ {sps pps}, avcc.sps = [sps] → avcc.pps = [pps] →
      MediaCodec.nalType .h264 sps = 7 → MediaCodec.nalType .h264 pps = 8 →
      (avcc.sps ++ avcc.pps).find? (fun nal => MediaCodec.nalType .h264 nal = 7) = some sps ∧
        (avcc.sps ++ avcc.pps).find? (fun nal => MediaCodec.nalType .h264 nal = 8) =
          some pps := by
    intro sps pps hs hp hseven height
    rw [hs, hp]
    simp [hseven, height]
  unfold avcSequence
  rw [firstNal_annexb hplain, firstNal_annexb hplain]
  cases hseven : (avcc.sps ++ avcc.pps).find? fun nal => MediaCodec.nalType .h264 nal = 7 with
  | none =>
    refine iff_of_false (not_kept_of_body rfl) ?_
    rintro ⟨sps, pps, hs, hp, h7, h8, -⟩
    rw [(hfound hs hp h7 h8).1] at hseven
    cases hseven
  | some sps =>
    cases height : (avcc.sps ++ avcc.pps).find? fun nal => MediaCodec.nalType .h264 nal = 8 with
    | none =>
      refine iff_of_false (not_kept_of_body rfl) ?_
      rintro ⟨sps, pps, hs, hp, h7, h8, -⟩
      rw [(hfound hs hp h7 h8).2] at height
      cases height
    | some pps =>
      have hsps := hplain sps (List.mem_of_find?_eq_some hseven)
      have hpps := hplain pps (List.mem_of_find?_eq_some height)
      have h7 : MediaCodec.nalType .h264 sps = 7 := by
        simpa using List.find?_some hseven
      have h8 : MediaCodec.nalType .h264 pps = 8 := by
        simpa using List.find?_some height
      have hfour : ¬ sps.length < 4 := by
        have := hsps.four
        omega
      dsimp only
      rw [if_neg hfour]
      refine (found_kept_iff hmem hsize hsps hpps _ rfl).trans ?_
      constructor
      · rintro ⟨hs, hp, hroom⟩
        exact ⟨sps, pps, hs, hp, h7, h8, hroom⟩
      · rintro ⟨sps', pps', hs, hp, h7', h8', hroom⟩
        obtain ⟨hsame7, hsame8⟩ := hfound hs hp h7' h8'
        rw [hseven] at hsame7
        rw [height] at hsame8
        cases hsame7
        cases hsame8
        exact ⟨hs, hp, hroom⟩

theorem hevcSequence_not_kept (config : Payload) :
    ¬ Kept avcc (hevcSequence mem p track config) := by
  unfold hevcSequence
  split
  · split_ifs
    · exact not_kept_of_body rfl
    · split
      · exact not_kept_of_body rfl
      · unfold sequenceBody
        split_ifs
        · rintro ⟨hrc, -⟩
          cases hrc
        · rintro ⟨-, hhead, -⟩
          exact absurd (List.cons.inj hhead).1 (by decide)
  · exact not_kept_of_body rfl

end Sequence

/-- A sequence header for AVC, in the legacy form and in the enhanced one. -/
def Legacy (data : List UInt8) : Prop := byteAt data 0 < 128 ∧ byteAt data 1 = 0

def Enhanced (data : List UInt8) : Prop :=
  byteAt data 0 ≥ 128 ∧ byteAt data 0 % 16 = 0 ∧ slice data 1 4 = fourccAvc

def HevcTrack (pub : Publisher) : Prop :=
  pub.haveVideo = true ∧ ∃ slot, pub.tracks[pub.videoTrack]? = some slot ∧ slot.codec = .h265

structure Configured (pub : Publisher) (config : Payload) (hevc : Prop) : Prop where
  track : ∃ track, pub.tracks[pub.videoTrack]? = some track ∧ track.config = some config ∧
    (track.codec = .h265 ↔ hevc)

section Publish

variable {mem : ℕ → Bool} {pub : Publisher} {avcc : Avcc} {data record : List UInt8}

theorem configured_add {tracks : TrackSet} {track : Track} {config : Payload} {pub' : Publisher}
    {hevc : Prop} (htracks : pub'.tracks = tracks ++ [track])
    (hindex : pub'.videoTrack = (tracks ++ [track]).length - 1)
    (hconfig : track.config = some config) (hcodec : track.codec = .h265 ↔ hevc) :
    Configured pub' config hevc := by
  refine ⟨track, ?_, hconfig, hcodec⟩
  rw [htracks, hindex, List.length_append, List.length_singleton, Nat.add_sub_cancel]
  exact List.getElem?_concat_length

theorem configured_update {slot : Track} {f : Track → Track} {config : Payload}
    {pub' : Publisher} {hevc : Prop} (hslot : pub.tracks[pub.videoTrack]? = some slot)
    (htracks : pub'.tracks = pub.tracks.modify pub.videoTrack f)
    (hindex : pub'.videoTrack = pub.videoTrack) (hconfig : (f slot).config = some config)
    (hcodec : (f slot).codec = .h265 ↔ hevc) : Configured pub' config hevc := by
  refine ⟨f slot, ?_, hconfig, hcodec⟩
  rw [htracks, hindex, List.getElem?_modify, hslot]
  simp

theorem videoConfig_configured (h : Layout pub) (config : Payload) {codec : Codec} {hevc : Prop}
    (hcodec : codec = .h265 ↔ hevc) (profile level : ℕ) :
    Configured (videoConfig pub config codec profile level).pub config hevc := by
  unfold videoConfig
  dsimp only
  by_cases hvideo : pub.haveVideo = true
  · obtain ⟨slot, hslot, -⟩ := h.video hvideo
    rw [if_neg (by simp [hvideo])]
    exact configured_update hslot rfl rfl rfl hcodec
  · rw [if_pos (by simp [hvideo]), trackAdd_room h]
    exact configured_add rfl rfl rfl hcodec

theorem legacyTrack_configured (h : Layout pub) (config : Payload) :
    ∃ pub', legacyTrack pub config = some pub' ∧ Configured pub' config (HevcTrack pub) := by
  unfold legacyTrack
  by_cases hvideo : pub.haveVideo = true
  · obtain ⟨slot, hslot, -⟩ := h.video hvideo
    rw [if_neg (by simp [hvideo])]
    refine ⟨_, rfl, configured_update hslot rfl rfl rfl ⟨fun hc => ⟨hvideo, slot, hslot, hc⟩, ?_⟩⟩
    rintro ⟨-, other, hother, hc⟩
    rw [hslot] at hother
    cases hother
    exact hc
  · rw [if_pos (by simp [hvideo]), trackAdd_room h]
    refine ⟨_, rfl, configured_add rfl rfl rfl ⟨fun hc => ?_, fun hc => absurd hc.1 hvideo⟩⟩
    cases hc

theorem avccParse_long {out : Avcc} (h : avccParse out record = (avcc, true)) :
    7 ≤ record.length := by
  by_contra hshort
  rw [avccParse, if_pos (by omega)] at h
  cases h

theorem avccParse_out {out : Avcc} (h : avccParse out record = (avcc, true)) (out' : Avcc) :
    avccParse out' record = (avcc, true) := by
  have hlong := avccParse_long h
  rw [avccParse, if_neg (by omega)] at h ⊢
  exact h

theorem legacyConfig_configured (h : Layout pub) (hparse : avccParse pub.avcc record = (avcc, true))
    (hmem : mem (avccAnnexbSize avcc) = true) :
    Configured (legacyConfig mem pub record).pub (annexb avcc.sps ++ annexb avcc.pps)
      (HevcTrack pub) := by
  have hlayout : Layout { pub with avcc := avcc, haveAvcc := true } :=
    h.same ⟨rfl, rfl, rfl, rfl, rfl⟩
  obtain ⟨pub', htrack, hconfigured⟩ :=
    legacyTrack_configured hlayout (annexb avcc.sps ++ annexb avcc.pps)
  unfold legacyConfig
  rw [hparse]
  simp only [hmem, Bool.not_true, Bool.false_eq_true, if_false, avccToAnnexb_size, htrack]
  exact ⟨hconfigured.track⟩

theorem avcConfig_configured (h : Layout pub) (hparse : avccParse pub.avcc record = (avcc, true))
    (hmem : mem (avccAnnexbSize avcc) = true) :
    Configured (avcConfig mem pub record).pub (annexb avcc.sps ++ annexb avcc.pps) False := by
  have hlayout : Layout { pub with avcc := avcc, haveAvcc := true } :=
    h.same ⟨rfl, rfl, rfl, rfl, rfl⟩
  unfold avcConfig
  rw [hparse]
  simp only [hmem, Bool.not_true, Bool.false_eq_true, if_false, avccToAnnexb_size]
  exact videoConfig_configured hlayout _ (by simp) _ _

theorem video_configured (h : Layout pub) (hheader : Legacy data ∨ Enhanced data)
    (hparse : avccParse pub.avcc (data.drop 5) = (avcc, true))
    (hmem : mem (avccAnnexbSize avcc) = true) (timestamp : ℕ) :
    Configured (video mem pub timestamp data).pub (annexb avcc.sps ++ annexb avcc.pps)
      (Legacy data ∧ HevcTrack pub) := by
  have hlong := avccParse_long hparse
  rw [List.length_drop] at hlong
  unfold video
  rw [if_neg (by omega)]
  rcases hheader with hlegacy | ⟨hhigh, hpacket, hfourcc⟩
  · rw [if_neg (by have := hlegacy.1; omega)]
    simp only [hlegacy.2]
    obtain ⟨track, htrack, hconfig, hcodec⟩ := (legacyConfig_configured h hparse hmem).track
    exact ⟨track, htrack, hconfig, hcodec.trans ⟨fun hv => ⟨hlegacy, hv⟩, And.right⟩⟩
  · rw [if_pos hhigh, videoEx, if_neg (by omega)]
    simp only [hpacket, hfourcc]
    obtain ⟨track, htrack, hconfig, hcodec⟩ := (avcConfig_configured h hparse hmem).track
    refine ⟨track, htrack, hconfig, hcodec.trans ⟨False.elim, ?_⟩⟩
    rintro ⟨⟨hlow, -⟩, -⟩
    omega

end Publish

/-- An avcC record published over RTMP comes out of a sequence header again just if it has one SPS
and one PPS that fit the 512 bytes of the record, and it did not come in a legacy header on a
publisher whose video track was H.265. -/
theorem parameter_sets_kept_iff {mem₀ mem mem' : ℕ → Bool} {sent : List Message} {m : Message}
    {avcc : Avcc} {p : Prepare} (hvideo : m.type = .video)
    (hheader : Legacy m.data ∨ Enhanced m.data)
    (hparse : avccParse Avcc.zero (m.data.drop 5) = (avcc, true))
    (hplain : ∀ set ∈ avcc.sps ++ avcc.pps, Plain set)
    (hmem : mem (avccAnnexbSize avcc) = true) (hmem' : ∀ n ≤ bodySize, mem' n = true)
    (hsize : p.nalLengthSize ≤ 4) :
    ∃ track,
      (step mem (sent.foldl (step mem₀) RtmpPublisher.init) m).tracks[
        (step mem (sent.foldl (step mem₀) RtmpPublisher.init) m).videoTrack]? = some track ∧
      (Kept avcc (prepareSequence mem' p .video track) ↔
        Describable avcc ∧
          ¬ (Legacy m.data ∧ HevcTrack (sent.foldl (step mem₀) RtmpPublisher.init))) := by
  have hlayout : Layout (sent.foldl (step mem₀) RtmpPublisher.init) :=
    run_layout init_layout sent
  generalize sent.foldl (step mem₀) RtmpPublisher.init = pub at hlayout ⊢
  have hstep : step mem pub m = (video mem pub m.timestamp m.data).pub := by
    unfold step feed
    rw [hvideo]
  rw [hstep]
  obtain ⟨track, htrack, hconfig, hcodec⟩ :=
    (video_configured hlayout hheader (avccParse_out hparse pub.avcc) hmem m.timestamp).track
  refine ⟨track, htrack, ?_⟩
  unfold prepareSequence
  rw [hconfig]
  simp only [if_true]
  by_cases hhevc : track.codec = .h265
  · rw [if_pos hhevc]
    exact iff_of_false (hevcSequence_not_kept _) fun h => h.2 (hcodec.mp hhevc)
  · rw [if_neg hhevc, avcSequence_kept_iff hmem' hsize hplain]
    exact ⟨fun h => ⟨h, fun hl => hhevc (hcodec.mpr hl)⟩, And.left⟩

def plainRecord : List UInt8 :=
  [1, 66, 0, 30, 0xFF, 0xE1, 0, 4, 0x67, 66, 0, 30, 1, 0, 4, 0x68, 0xCE, 6, 0xE2]

def plainAvcc : Avcc := ⟨1, 66, 0, 30, 4, [[0x67, 66, 0, 30]], [[0x68, 0xCE, 6, 0xE2]]⟩

/-- A second PPS, for the slices that refer to it. -/
def twoPpsRecord : List UInt8 :=
  [1, 66, 0, 30, 0xFF, 0xE1, 0, 4, 0x67, 66, 0, 30, 2, 0, 4, 0x68, 0xCE, 6, 0xE2,
    0, 4, 0x68, 0x53, 6, 0xE2]

def twoPpsAvcc : Avcc :=
  ⟨1, 66, 0, 30, 4, [[0x67, 66, 0, 30]], [[0x68, 0xCE, 6, 0xE2], [0x68, 0x53, 6, 0xE2]]⟩

def headerMessage (record : List UInt8) : Message :=
  ⟨.video, 0, [0x17, 0, 0, 0, 0] ++ record⟩

def headerOnly (record : List UInt8) : Publisher :=
  step (fun _ => true) RtmpPublisher.init (headerMessage record)

theorem twoPps_plain : ∀ set ∈ twoPpsAvcc.sps ++ twoPpsAvcc.pps, Plain set := by
  intro set hset
  simp only [twoPpsAvcc, List.cons_append, List.nil_append, List.mem_cons, List.not_mem_nil,
    or_false] at hset
  rcases hset with rfl | rfl | rfl
  · exact ⟨⟨rfl, [0x67, 66, 0], 30, rfl, by decide⟩, by decide⟩
  · exact ⟨⟨rfl, [0x68, 0xCE, 6], 0xE2, rfl, by decide⟩, by decide⟩
  · exact ⟨⟨rfl, [0x68, 0x53, 6], 0xE2, rfl, by decide⟩, by decide⟩

theorem twoPps_parse (out : Avcc) : avccParse out twoPpsRecord = (twoPpsAvcc, true) := by
  have hrecord : twoPpsRecord = encodeAvcc twoPpsAvcc := by decide
  have hbuildable : Buildable twoPpsAvcc :=
    ⟨⟨List.cons_ne_nil _ _, by decide⟩, ⟨List.cons_ne_nil _ _, by decide⟩, by decide⟩
  rw [hrecord, avccParse_encode hbuildable rfl (by decide)]
  rfl

theorem plainRecord_kept : ∃ track,
    (headerOnly plainRecord).tracks[(headerOnly plainRecord).videoTrack]? = some track ∧
      Kept plainAvcc
        (prepareSequence (fun _ => true) (RtmpPrepare.init 16 0) .video track) := by
  have hplain : ∀ set ∈ plainAvcc.sps ++ plainAvcc.pps, Plain set := by
    intro set hset
    refine twoPps_plain set ?_
    simp only [plainAvcc, twoPpsAvcc, List.cons_append, List.nil_append, List.mem_cons,
      List.not_mem_nil, or_false] at hset ⊢
    tauto
  obtain ⟨track, htrack, hkept⟩ := @parameter_sets_kept_iff (fun _ => true) (fun _ => true)
    (fun _ => true) [] (headerMessage plainRecord) plainAvcc (RtmpPrepare.init 16 0) rfl
    (Or.inl ⟨by decide, by decide⟩) rfl hplain rfl (fun _ _ => rfl) (by decide)
  refine ⟨track, htrack, hkept.mpr ⟨⟨_, _, rfl, rfl, by decide, by decide, by decide⟩, ?_⟩⟩
  rintro ⟨-, hvideo, -⟩
  cases hvideo

theorem second_pps_dropped :
    avccParse Avcc.zero twoPpsRecord = (twoPpsAvcc, true) ∧
      (∀ set ∈ twoPpsAvcc.sps ++ twoPpsAvcc.pps, Plain set) ∧ ∃ track,
      (headerOnly twoPpsRecord).tracks[(headerOnly twoPpsRecord).videoTrack]? = some track ∧
        ¬ Kept twoPpsAvcc
          (prepareSequence (fun _ => true) (RtmpPrepare.init 16 0) .video track) := by
  refine ⟨twoPps_parse _, twoPps_plain, ?_⟩
  obtain ⟨track, htrack, hconfig, hcodec⟩ := (@video_configured (fun _ => true)
    RtmpPublisher.init twoPpsAvcc (headerMessage twoPpsRecord).data init_layout
    (Or.inl ⟨by decide, by decide⟩) (twoPps_parse _) rfl 0).track
  refine ⟨track, htrack, ?_⟩
  have hlegacy : track.codec ≠ .h265 := fun hc => by cases (hcodec.mp hc).2.1
  unfold prepareSequence
  rw [hconfig]
  simp only [if_true, if_neg hlegacy]
  rw [avcSequence_kept_iff (fun _ _ => rfl) (by decide) twoPps_plain]
  rintro ⟨sps, pps, -, hpps, -⟩
  cases hpps

end RtmpHeaders
