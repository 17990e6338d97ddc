import NginxMedia.RtmpHeaders

/-! What is left of a publisher's hvcC record in the sequence headers of the outputs: its sets are
found again in the Annex B configuration, and the profile, tier and level are read again at fixed
offsets of the SPS. -/
namespace RtmpHeaders

open MediaTypes ByteString RtmpConfig RtmpPublisher RtmpPrepare AnnexB

/-- The raw bytes of a NAL unit: the byte 3 behind two zeros keeps start codes out and belongs to
no value. -/
def rbsp : List UInt8 → List UInt8
  | 0 :: 0 :: 3 :: rest => 0 :: 0 :: rbsp rest
  | x :: rest => x :: rbsp rest
  | [] => []

theorem rbsp_length (bytes : List UInt8) : (rbsp bytes).length ≤ bytes.length := by
  induction bytes using rbsp.induct with
  | case1 rest ih =>
    rw [rbsp]
    simp only [List.length_cons]
    omega
  | case2 x rest hkeep ih =>
    rw [rbsp]
    · simp only [List.length_cons]
      omega
    · exact hkeep
  | case3 => exact le_rfl

structure Ptl where
  profileSpace : ℕ
  tier : ℕ
  profileIdc : ℕ
  level : ℕ
  deriving DecidableEq, Repr

def ptlOf (bytes : List UInt8) (first level : ℕ) : Ptl :=
  ⟨byteAt bytes first / 64, byteAt bytes first / 32 % 2, byteAt bytes first % 32,
    byteAt bytes level⟩

/-- The `profile_tier_level()` of an SPS, behind two bytes of header and one of its own. -/
def spsPtl (sps : Payload) : Ptl := ptlOf (rbsp sps) 3 14

def recordPtl (record : List UInt8) : Ptl := ptlOf record 1 12

def encodeArray (nalType : ℕ) (set : Payload) : List UInt8 :=
  [low (0x80 + nalType), 0, 1, low (set.length / 256), low set.length] ++ set

theorem encodeArray_length (nalType : ℕ) (set : Payload) :
    (encodeArray nalType set).length = 5 + set.length := by
  rw [encodeArray, List.length_append]
  rfl

theorem putArray_fits {capacity : ℕ} {dst : List UInt8} (nalType : ℕ) {set : Payload}
    (h : dst.length + 5 + set.length ≤ capacity) :
    putArray capacity dst nalType [set] = (dst ++ encodeArray nalType set, true) := by
  rw [putArray, if_neg (by omega), putSets_fits]
  · rw [encodeSets_cons, encodeSets_nil, List.append_nil, encodeArray]
    simp only [List.append_assoc, List.cons_append, List.nil_append, List.length_singleton]
    rfl
  · rw [encodeSets_cons, encodeSets_nil, List.append_nil]
    simp only [List.length_append, List.length_cons, List.length_nil]
    omega

theorem putArray_full {capacity : ℕ} {dst : List UInt8} (nalType : ℕ) {set : Payload}
    (h : capacity < dst.length + 5 + set.length) :
    (putArray capacity dst nalType [set]).2 = false := by
  rw [putArray]
  split_ifs with hroom
  · rfl
  · refine putSets_full _ ?_ ?_
    · simp only [List.length_append, List.length_cons, List.length_nil]
      omega
    · rw [encodeSets_cons, encodeSets_nil, List.append_nil]
      simp only [List.length_append, List.length_cons, List.length_nil]
      omega

def encodeArrays (arrays : List (ℕ × Payload)) : List UInt8 :=
  arrays.flatMap fun array => encodeArray array.1 array.2

theorem encodeArrays_cons (nalType : ℕ) (set : Payload) (rest : List (ℕ × Payload)) :
    encodeArrays ((nalType, set) :: rest) = encodeArray nalType set ++ encodeArrays rest := rfl

theorem putArrays_fits {capacity : ℕ} (arrays : List (ℕ × Payload)) {dst : List UInt8}
    (h : dst.length + (encodeArrays arrays).length ≤ capacity) :
    putArrays capacity dst (arrays.map fun array => (array.1, [array.2])) =
      (dst ++ encodeArrays arrays, true) := by
  induction arrays generalizing dst with
  | nil => rw [encodeArrays, List.flatMap_nil, List.append_nil, List.map_nil, putArrays]
  | cons array rest ih =>
    obtain ⟨nalType, set⟩ := array
    rw [encodeArrays_cons, List.length_append, encodeArray_length] at h
    rw [List.map_cons]
    dsimp only
    rw [putArrays, putArray_fits nalType (by omega)]
    dsimp only
    rw [ih, encodeArrays_cons, List.append_assoc]
    rw [List.length_append, encodeArray_length]
    omega

theorem putArrays_full {capacity : ℕ} (arrays : List (ℕ × Payload)) {dst : List UInt8}
    (hdst : dst.length ≤ capacity) (h : capacity < dst.length + (encodeArrays arrays).length) :
    (putArrays capacity dst (arrays.map fun array => (array.1, [array.2]))).2 = false := by
  induction arrays generalizing dst with
  | nil =>
    rw [encodeArrays, List.flatMap_nil, List.length_nil] at h
    omega
  | cons array rest ih =>
    obtain ⟨nalType, set⟩ := array
    rw [encodeArrays_cons, List.length_append, encodeArray_length] at h
    rw [List.map_cons]
    dsimp only
    rw [putArrays]
    by_cases hroom : dst.length + 5 + set.length ≤ capacity
    · rw [putArray_fits nalType hroom]
      refine ih ?_ ?_ <;> rw [List.length_append, encodeArray_length] <;> omega
    · obtain ⟨written, hwritten⟩ : ∃ written,
          putArray capacity dst nalType [set] = (written, false) :=
        ⟨_, Prod.ext rfl (putArray_full nalType (by omega))⟩
      rw [hwritten]

theorem hvccArrayList_array {before after : List UInt8} {nalType : ℕ} {set : Payload} {n : ℕ}
    (htype : nalType < 64) (hset : set ≠ [] ∧ set.length < 65536) (out : Hvcc) :
    hvccArrayList (before ++ (encodeArray nalType set ++ after)) (n + 1) before.length out =
      hvccArrayList (before ++ (encodeArray nalType set ++ after)) n
        (before ++ encodeArray nalType set).length (out.keep nalType set) := by
  have hpos := List.length_pos_of_ne_nil hset.1
  have hdata : encodeArray nalType set ++ after = low (0x80 + nalType) :: 0 :: 1 ::
      low (set.length / 256) :: low set.length :: (set ++ after) := rfl
  have hbyte : ∀ i, byteAt (before ++ (encodeArray nalType set ++ after)) (before.length + i) =
      byteAt (encodeArray nalType set ++ after) i := fun i => byteAt_add rfl _ i
  have hlen : (before ++ (encodeArray nalType set ++ after)).length =
      before.length + (5 + set.length) + after.length := by
    rw [List.length_append, List.length_append, encodeArray_length]
    omega
  have hkind : byteAt (before ++ (encodeArray nalType set ++ after)) before.length % 64 =
      nalType := by
    have hfirst := hbyte 0
    rw [Nat.add_zero] at hfirst
    rw [hfirst, hdata, byteAt_zero, low_toNat]
    omega
  have hcount : be16 (before ++ (encodeArray nalType set ++ after)) (before.length + 1) = 1 := by
    have hhigh : byteAt (encodeArray nalType set ++ after) 1 = 0 := rfl
    have hlow : byteAt (encodeArray nalType set ++ after) (1 + 1) = 1 := rfl
    rw [be16, Nat.add_assoc, hbyte, hbyte, hhigh, hlow]
  have hsize : be16 (before ++ (encodeArray nalType set ++ after)) (before.length + 3) =
      set.length := by
    have hhigh : byteAt (encodeArray nalType set ++ after) 3 = set.length / 256 % 256 :=
      low_toNat _
    have hlow : byteAt (encodeArray nalType set ++ after) (3 + 1) = set.length % 256 :=
      low_toNat _
    rw [be16, Nat.add_assoc, hbyte, hbyte, hhigh, hlow]
    omega
  have hslice : slice (before ++ (encodeArray nalType set ++ after)) (before.length + 3 + 2)
      set.length = set := by
    rw [slice, Nat.add_assoc, List.drop_length_add_append]
    exact List.take_left
  rw [hvccArrayList, if_neg (by omega)]
  simp only [hkind, hcount, hvccUnits, hsize, hslice]
  rw [if_neg (by omega), if_neg (by omega), List.length_append, encodeArray_length]
  dsimp only
  rw [Nat.add_assoc, Nat.add_assoc]
  congr 1
  omega

def hvccFront (hvcc : Hvcc) (arrays : ℕ) : List UInt8 :=
  [1, low (hvcc.profileSpace * 64 + hvcc.profileIdc % 32)] ++ List.replicate 10 0 ++
    [low hvcc.level] ++ List.replicate 8 0 ++ [0x03, low arrays]

theorem hvccFront_length (hvcc : Hvcc) (arrays : ℕ) : (hvccFront hvcc arrays).length = 23 := rfl

/-- The description `ngx_media_rtmp_prepare_sequence()` makes of three units. -/
def describedHevc (p : Prepare) (vps sps pps : Payload) : Hvcc :=
  { version := 1, nalLengthSize := p.nalLengthSize, profileSpace := byteAt sps 1 / 64,
    profileIdc := byteAt sps 1 % 32, level := byteAt sps 12, vps := [vps], sps := [sps],
    pps := [pps] }

/-- The record for it. -/
def rebuilt (p : Prepare) (vps sps pps : Payload) : List UInt8 :=
  hvccFront (describedHevc p vps sps pps) 3 ++ encodeArrays [(32, vps), (33, sps), (34, pps)]

section Rebuilt

variable {p : Prepare} {vps sps pps : Payload}

theorem rebuilt_length (p : Prepare) (vps sps pps : Payload) :
    (rebuilt p vps sps pps).length = 38 + vps.length + sps.length + pps.length := by
  rw [rebuilt, List.length_append, hvccFront_length, encodeArrays_cons, encodeArrays_cons,
    encodeArrays_cons, List.length_append, List.length_append, List.length_append,
    encodeArray_length, encodeArray_length, encodeArray_length]
  change 23 + (5 + vps.length + (5 + sps.length + (5 + pps.length + 0))) = _
  omega

theorem hvccBuild_described (p : Prepare) (vps sps pps : Payload) {capacity : ℕ}
    (hcap : 23 ≤ capacity) : hvccBuild (describedHevc p vps sps pps) capacity =
      putArrays capacity (hvccFront (describedHevc p vps sps pps) 3)
        ([(32, vps), (33, sps), (34, pps)].map fun array => (array.1, [array.2])) := by
  have hsps : ¬ (describedHevc p vps sps pps).sps = [] := List.cons_ne_nil _ _
  rw [hvccBuild, if_neg hsps, if_neg (by omega)]
  rfl

theorem hvccBuild_fits (h : 38 + vps.length + sps.length + pps.length ≤ recordSize) :
    hvccBuild (describedHevc p vps sps pps) recordSize = (rebuilt p vps sps pps, true) := by
  have hlen := rebuilt_length p vps sps pps
  rw [rebuilt, List.length_append] at hlen
  rw [hvccBuild_described p vps sps pps (by decide), putArrays_fits _ (by omega)]
  rfl

theorem hvccBuild_full (h : recordSize < 38 + vps.length + sps.length + pps.length) :
    (hvccBuild (describedHevc p vps sps pps) recordSize).2 = false := by
  have hlen := rebuilt_length p vps sps pps
  rw [rebuilt, List.length_append] at hlen
  rw [hvccBuild_described p vps sps pps (by decide)]
  exact putArrays_full _ (by rw [hvccFront_length]; decide) (by omega)

theorem rebuilt_parse (hvps : vps ≠ []) (hsps : sps ≠ []) (hpps : pps ≠ [])
    (h : 38 + vps.length + sps.length + pps.length ≤ recordSize) (out : Hvcc) :
    ∃ hvcc, hvccParse out (rebuilt p vps sps pps) = (hvcc, true) ∧ hvcc.vps = [vps] ∧
      hvcc.sps = [sps] ∧ hvcc.pps = [pps] := by
  have hlen := rebuilt_length p vps sps pps
  unfold recordSize at h
  have hfirst : ∀ start : Hvcc, hvccArrayList (rebuilt p vps sps pps) 3 23 start =
      (((start.keep 32 vps).keep 33 sps).keep 34 pps, true) := by
    intro start
    have hvpsArray := @hvccArrayList_array (hvccFront (describedHevc p vps sps pps) 3)
      (encodeArray 33 sps ++ (encodeArray 34 pps ++ [])) 32 vps 2 (by decide)
      ⟨hvps, by omega⟩ start
    have hspsArray := @hvccArrayList_array
      (hvccFront (describedHevc p vps sps pps) 3 ++ encodeArray 32 vps)
      (encodeArray 34 pps ++ []) 33 sps 1 (by decide) ⟨hsps, by omega⟩ (start.keep 32 vps)
    have hppsArray := @hvccArrayList_array
      (hvccFront (describedHevc p vps sps pps) 3 ++ encodeArray 32 vps ++ encodeArray 33 sps)
      [] 34 pps 0 (by decide) ⟨hpps, by omega⟩ ((start.keep 32 vps).keep 33 sps)
    rw [List.append_assoc] at hspsArray
    rw [List.append_assoc, List.append_assoc] at hppsArray
    exact hvpsArray.trans (hspsArray.trans (hppsArray.trans (by rw [hvccArrayList])))
  have hcount : byteAt (rebuilt p vps sps pps) 22 = 3 := rfl
  have hversion : byteAt (rebuilt p vps sps pps) 0 = 1 := rfl
  have hsize : byteAt (rebuilt p vps sps pps) 21 = 3 := rfl
  rw [hvccParse, if_neg (by omega)]
  dsimp only
  rw [hversion, hsize, if_neg (by decide), hvccArrays, if_neg (by omega), hcount, hfirst]
  exact ⟨_, rfl, rfl, rfl, rfl⟩

theorem rebuilt_ptl (p : Prepare) (vps sps pps : Payload) :
    recordPtl (rebuilt p vps sps pps) =
      ⟨byteAt sps 1 / 64, 0, byteAt sps 1 % 32, byteAt sps 12⟩ := by
  have hfirst : byteAt (rebuilt p vps sps pps) 1 =
      (byteAt sps 1 / 64 * 64 + byteAt sps 1 % 32 % 32) % 256 := low_toNat _
  have hlevel : byteAt (rebuilt p vps sps pps) 12 = byteAt sps 12 % 256 := low_toNat _
  have hlt := byteAt_lt sps 1
  have hspace : byteAt (rebuilt p vps sps pps) 1 / 64 = byteAt sps 1 / 64 := by omega
  have htier : byteAt (rebuilt p vps sps pps) 1 / 32 % 2 = 0 := by omega
  have hidc : byteAt (rebuilt p vps sps pps) 1 % 32 = byteAt sps 1 % 32 := by omega
  rw [recordPtl, ptlOf, hspace, htier, hidc, hlevel, Nat.mod_eq_of_lt (byteAt_lt _ _)]

end Rebuilt

/-- `r` carries an enhanced sequence header that decodes to the sets of `hvcc` and to the profile,
tier and level of `ptl`. -/
def KeptHevc (hvcc : Hvcc) (ptl : Ptl) (r : Prepared) : Prop :=
  r.rc = .ok ∧ r.body.take 5 = 0x90 :: fourccHevc ∧
    ∃ out, hvccParse Hvcc.zero (r.body.drop 5) = (out, true) ∧ out.vps = hvcc.vps ∧
      out.sps = hvcc.sps ∧ out.pps = hvcc.pps ∧ recordPtl (r.body.drop 5) = ptl

structure Rebuildable (vps sps pps : Payload) (ptl : Ptl) : Prop where
  whole : ∀ set ∈ [vps, sps, pps], Whole set
  types : MediaCodec.nalType .h265 vps = 32 ∧ MediaCodec.nalType .h265 sps = 33 ∧
    MediaCodec.nalType .h265 pps = 34
  room : 38 + vps.length + sps.length + pps.length ≤ recordSize
  same : (⟨byteAt sps 1 / 64, 0, byteAt sps 1 % 32, byteAt sps 12⟩ : Ptl) = ptl

section Sequence

variable {mem : ℕ → Bool} {p : Prepare} {track : Track} {hvcc : Hvcc} {ptl : Ptl}
  {vps sps pps : Payload}

theorem not_keptHevc_of_body {r : Prepared} (h : r.body = []) : ¬ KeptHevc hvcc ptl r := by
  rintro ⟨-, hhead, -⟩
  rw [h] at hhead
  cases hhead

theorem found_keptHevc_iff (hmem : ∀ n ≤ bodySize, mem n = true) (hvps : vps ≠ [])
    (hsps : sps ≠ []) (hpps : pps ≠ []) (r : Prepared)
    (hr : r = match hvccBuild (describedHevc p vps sps pps) recordSize with
      | (record, false) => ⟨{ p with errors := p.errors + 1 }, record, [], .ok⟩
      | (record, true) =>
        sequenceBody mem p .video track record (0x90 :: fourccHevc ++ record)) :
    KeptHevc hvcc ptl r ↔ (hvcc.vps = [vps] ∧ hvcc.sps = [sps] ∧ hvcc.pps = [pps]) ∧
      38 + vps.length + sps.length + pps.length ≤ recordSize ∧
      (⟨byteAt sps 1 / 64, 0, byteAt sps 1 % 32, byteAt sps 12⟩ : Ptl) = ptl := by
  have hlen := rebuilt_length p vps sps pps
  by_cases hroom : 38 + vps.length + sps.length + pps.length ≤ recordSize
  · rw [hvccBuild_fits hroom] at hr
    have hbody : mem (0x90 :: fourccHevc ++ rebuilt p vps sps pps).length = true := by
      refine hmem _ ?_
      rw [List.length_append, hlen]
      unfold recordSize at hroom
      change 5 + (38 + vps.length + sps.length + pps.length) ≤ 1024
      omega
    simp only [sequenceBody, hbody, Bool.not_true, Bool.false_eq_true, if_false] at hr
    obtain ⟨out, hparse, hv, hs, hp⟩ :=
      @rebuilt_parse p vps sps pps hvps hsps hpps hroom Hvcc.zero
    have hptl := rebuilt_ptl p vps sps pps
    have hdrop : r.body.drop 5 = rebuilt p vps sps pps := by
      rw [hr]
      rfl
    constructor
    · rintro ⟨-, -, other, hother, hv', hs', hp', hptl'⟩
      rw [hdrop, hparse] at hother
      obtain ⟨rfl, -⟩ := Prod.mk.inj hother
      rw [hdrop, hptl] at hptl'
      exact ⟨⟨hv'.symm.trans hv, hs'.symm.trans hs, hp'.symm.trans hp⟩, hroom, hptl'⟩
    · rintro ⟨⟨hv', hs', hp'⟩, -, hptl'⟩
      refine ⟨by rw [hr], by rw [hr]; rfl, out, by rw [hdrop, hparse], hv.trans hv'.symm,
        hs.trans hs'.symm, hp.trans hp'.symm, ?_⟩
      rw [hdrop, hptl, hptl']
  · obtain ⟨record, hrecord⟩ :
        ∃ record, hvccBuild (describedHevc p vps sps pps) recordSize = (record, false) :=
      ⟨_, Prod.ext rfl (hvccBuild_full (by omega))⟩
    rw [hrecord] at hr
    exact iff_of_false (not_keptHevc_of_body (by rw [hr])) fun h => hroom h.2.1

theorem firstNal_found {codec : Codec} {type : ℕ} {config nal : Payload}
    (h : firstNal codec type config = some nal) :
    Whole nal ∧ MediaCodec.nalType codec nal = type := by
  refine ⟨nals_whole (List.mem_of_find?_eq_some h), ?_⟩
  simpa using List.find?_some h

/-- Whole units of the three types are the ones that are found. -/
theorem Rebuildable.found (h : Rebuildable vps sps pps ptl) :
    firstNal .h265 32 (annexb [vps] ++ annexb [sps] ++ annexb [pps]) = some vps ∧
      firstNal .h265 33 (annexb [vps] ++ annexb [sps] ++ annexb [pps]) = some sps ∧
      firstNal .h265 34 (annexb [vps] ++ annexb [sps] ++ annexb [pps]) = some pps := by
  have hblob : annexb [vps] ++ annexb [sps] ++ annexb [pps] = annexB [vps, sps, pps] := by
    rw [show [vps, sps, pps] = [vps] ++ [sps] ++ [pps] from rfl, annexB_append, annexB_append]
    rfl
  obtain ⟨hv, hs, hp⟩ := h.types
  rw [hblob]
  unfold firstNal
  rw [nals_annexB h.whole]
  simp [hv, hs, hp]

theorem hevcSequence_kept_iff (hmem : ∀ n ≤ bodySize, mem n = true) (hvps : hvcc.vps = [vps])
    (hsps : hvcc.sps = [sps]) (hpps : hvcc.pps = [pps]) (hlong : 13 ≤ sps.length) :
    KeptHevc hvcc ptl
        (hevcSequence mem p track (annexb hvcc.vps ++ annexb hvcc.sps ++ annexb hvcc.pps)) ↔
      Rebuildable vps sps pps ptl := by
  rw [hvps, hsps, hpps]
  constructor
  · intro hkept
    unfold hevcSequence at hkept
    split at hkept
    · next vps' sps' pps' hv hs hp =>
      obtain ⟨hwholeV, htypeV⟩ := firstNal_found hv
      obtain ⟨hwholeS, htypeS⟩ := firstNal_found hs
      obtain ⟨hwholeP, htypeP⟩ := firstNal_found hp
      split_ifs at hkept
      · exact absurd hkept (not_keptHevc_of_body rfl)
      · obtain ⟨⟨hv', hs', hp'⟩, hroom, hsame⟩ := (found_keptHevc_iff hmem hwholeV.ne_nil
          hwholeS.ne_nil hwholeP.ne_nil _ rfl).mp hkept
        rw [hvps, List.singleton_inj] at hv'
        rw [hsps, List.singleton_inj] at hs'
        rw [hpps, List.singleton_inj] at hp'
        subst hv' hs' hp'
        refine ⟨?_, ⟨htypeV, htypeS, htypeP⟩, hroom, hsame⟩
        intro set hset
        simp only [List.mem_cons, List.not_mem_nil, or_false] at hset
        rcases hset with rfl | rfl | rfl
        · exact hwholeV
        · exact hwholeS
        · exact hwholeP
    · exact absurd hkept (not_keptHevc_of_body rfl)
  · intro h
    obtain ⟨hv, hs, hp⟩ := h.found
    have hne : ∀ set ∈ [vps, sps, pps], set ≠ [] := fun set hset => (h.whole set hset).ne_nil
    unfold hevcSequence
    rw [hv, hs, hp]
    dsimp only
    rw [if_neg (by omega)]
    exact (found_keptHevc_iff hmem (hne vps (by simp)) (hne sps (by simp)) (hne pps (by simp))
      _ rfl).mpr ⟨⟨hvps, hsps, hpps⟩, h.room, h.same⟩

end Sequence

def EnhancedHevc (data : List UInt8) : Prop :=
  byteAt data 0 ≥ 128 ∧ byteAt data 0 % 16 = 0 ∧ slice data 1 4 = fourccHevc

section Publish

variable {mem : ℕ → Bool} {pub : Publisher} {hvcc : Hvcc} {data record : List UInt8}

theorem hvccParse_long {out : Hvcc} (h : hvccParse out record = (hvcc, true)) :
    23 ≤ record.length := by
  by_contra hshort
  rw [hvccParse, if_pos (by omega)] at h
  cases h

theorem hvccParse_out {out : Hvcc} (h : hvccParse out record = (hvcc, true)) (out' : Hvcc) :
    hvccParse out' record = (hvcc, true) := by
  have hlong := hvccParse_long h
  rw [hvccParse, if_neg (by omega)] at h ⊢
  exact h

theorem hevcConfig_configured (h : Layout pub) (hparse : hvccParse pub.hvcc record = (hvcc, true))
    (hmem : mem (hvccAnnexbSize hvcc) = true) :
    Configured (hevcConfig mem pub record).pub
      (annexb hvcc.vps ++ annexb hvcc.sps ++ annexb hvcc.pps) True := by
  have hlayout : Layout { pub with hvcc := hvcc, haveHvcc := true } :=
    h.same ⟨rfl, rfl, rfl, rfl, rfl⟩
  unfold hevcConfig
  rw [hparse]
  simp only [hmem, Bool.not_true, Bool.false_eq_true, if_false, hvccToAnnexb_size]
  exact videoConfig_configured hlayout _ (by simp) _ _

theorem video_hevc_configured (h : Layout pub) (hheader : EnhancedHevc data)
    (hparse : hvccParse pub.hvcc (data.drop 5) = (hvcc, true))
    (hmem : mem (hvccAnnexbSize hvcc) = true) (timestamp : ℕ) :
    Configured (video mem pub timestamp data).pub
      (annexb hvcc.vps ++ annexb hvcc.sps ++ annexb hvcc.pps) True := by
  have hlong := hvccParse_long hparse
  rw [List.length_drop] at hlong
  obtain ⟨hhigh, hpacket, hfourcc⟩ := hheader
  unfold video
  rw [if_neg (by omega), if_pos hhigh, videoEx, if_neg (by omega)]
  simp only [hpacket, hfourcc]
  exact hevcConfig_configured h hparse hmem

end Publish

/-- An hvcC record published over RTMP, of one set of each kind and with the profile, tier and
level of its SPS, comes out of a sequence header again just if its sets are rebuildable. -/
theorem hevc_header_kept_iff {mem₀ mem mem' : ℕ → Bool} {sent : List Message} {m : Message}
    {hvcc : Hvcc} {vps sps pps : Payload} {p : Prepare} (hvideo : m.type = .video)
    (hheader : EnhancedHevc m.data)
    (hparse : hvccParse Hvcc.zero (m.data.drop 5) = (hvcc, true)) (hvps : hvcc.vps = [vps])
    (hsps : hvcc.sps = [sps]) (hpps : hvcc.pps = [pps])
    (hptl : 15 ≤ (rbsp sps).length ∧ recordPtl (m.data.drop 5) = spsPtl sps)
    (hmem : mem (hvccAnnexbSize hvcc) = true) (hmem' : ∀ n ≤ bodySize, mem' n = true) :
    ∃ track,
      (step mem (sent.foldl (step mem₀) RtmpPublisher.init) m).tracks[
        (step mem (sent.foldl (step mem₀) RtmpPublisher.init) m).videoTrack]? = some track ∧
      (KeptHevc hvcc (recordPtl (m.data.drop 5)) (prepareSequence mem' p .video track) ↔
        Rebuildable vps sps pps (recordPtl (m.data.drop 5))) := by
  have hlayout : Layout (sent.foldl (step mem₀) RtmpPublisher.init) :=
    run_layout init_layout sent
  generalize sent.foldl (step mem₀) RtmpPublisher.init = pub at hlayout ⊢
  have hstep : step mem pub m = (video mem pub m.timestamp m.data).pub := by
    unfold step feed
    rw [hvideo]
  have hlong : 13 ≤ sps.length := by
    have hle := rbsp_length sps
    omega
  rw [hstep]
  obtain ⟨track, htrack, hconfig, hcodec⟩ :=
    (video_hevc_configured hlayout hheader (hvccParse_out hparse pub.hvcc) hmem
      m.timestamp).track
  refine ⟨track, htrack, ?_⟩
  unfold prepareSequence
  rw [hconfig]
  simp only [if_true]
  rw [if_pos (hcodec.mpr trivial)]
  exact hevcSequence_kept_iff hmem' hvps hsps hpps hlong

def mainRecord (sps : Payload) : List UInt8 :=
  [1, 1, 0x60, 0, 0, 0, 0x90, 0, 0, 0, 0, 0, 0x5D, 0xF0, 0, 0xFC, 0xFD, 0xF8, 0xF8, 0, 0, 0x0F,
    3] ++
    encodeArrays [(32, [0x40, 1, 0x0C]), (33, sps), (34, [0x44, 1, 0xC1])]

def mainHvcc (sps : Payload) : Hvcc :=
  ⟨1, 4, 0, 1, 0x5D, [[0x40, 1, 0x0C]], [sps], [[0x44, 1, 0xC1]]⟩

/-- An SPS whose level is the last byte here; the byte 12 keeps a start code out. -/
def usualSps : Payload := [0x42, 1, 1, 1, 0x60, 0, 0, 3, 0, 0x90, 0, 0, 3, 0, 0, 3, 0, 0x5D]

/-- One with the number of the level among its constraint flags too, as byte 12. -/
def doubledSps : Payload := [0x42, 1, 1, 1, 0x60, 0, 1, 1, 0x90, 1, 1, 1, 0x5D, 1, 0x5D]

/-- The record in an enhanced sequence header. -/
def hevcMessage (sps : Payload) : Message :=
  ⟨.video, 0, 0x90 :: fourccHevc ++ mainRecord sps⟩

def hevcOnly (sps : Payload) : Publisher :=
  step (fun _ => true) RtmpPublisher.init (hevcMessage sps)

theorem doubledSps_kept : ∃ track,
    (hevcOnly doubledSps).tracks[(hevcOnly doubledSps).videoTrack]? = some track ∧
      KeptHevc (mainHvcc doubledSps) ⟨0, 0, 1, 0x5D⟩
        (prepareSequence (fun _ => true) (RtmpPrepare.init 16 0) .video track) := by
  obtain ⟨track, htrack, hkept⟩ := @hevc_header_kept_iff (fun _ => true) (fun _ => true)
    (fun _ => true) [] (hevcMessage doubledSps) (mainHvcc doubledSps) [0x40, 1, 0x0C] doubledSps
    [0x44, 1, 0xC1] (RtmpPrepare.init 16 0) rfl ⟨by decide, by decide, by decide⟩ rfl rfl rfl rfl
    ⟨by decide, by decide⟩ rfl (fun _ _ => rfl)
  refine ⟨track, htrack, hkept.mpr ⟨?_, ⟨by decide, by decide, by decide⟩, by decide, by decide⟩⟩
  intro set hset
  simp only [List.mem_cons, List.not_mem_nil, or_false] at hset
  rcases hset with rfl | rfl | rfl
  · exact ⟨rfl, [0x40, 1], 0x0C, rfl, by decide⟩
  · exact ⟨rfl, [0x42, 1, 1, 1, 0x60, 0, 1, 1, 0x90, 1, 1, 1, 0x5D, 1], 0x5D, rfl, by decide⟩
  · exact ⟨rfl, [0x44, 1], 0xC1, rfl, by decide⟩

theorem usualSps_relevelled :
    hvccParse Hvcc.zero ((hevcMessage usualSps).data.drop 5) = (mainHvcc usualSps, true) ∧
      15 ≤ (rbsp usualSps).length ∧
      recordPtl ((hevcMessage usualSps).data.drop 5) = spsPtl usualSps ∧ ∃ track,
      (hevcOnly usualSps).tracks[(hevcOnly usualSps).videoTrack]? = some track ∧
        ¬ KeptHevc (mainHvcc usualSps) (spsPtl usualSps)
          (prepareSequence (fun _ => true) (RtmpPrepare.init 16 0) .video track) := by
  refine ⟨rfl, by decide, by decide, ?_⟩
  obtain ⟨track, htrack, hconfig, hcodec⟩ := (@video_hevc_configured (fun _ => true)
    RtmpPublisher.init (mainHvcc usualSps) (hevcMessage usualSps).data init_layout
    ⟨by decide, by decide, by decide⟩ rfl rfl 0).track
  refine ⟨track, htrack, ?_⟩
  unfold prepareSequence
  rw [hconfig]
  simp only [if_true]
  rw [if_pos (hcodec.mpr trivial), @hevcSequence_kept_iff _ _ _ (mainHvcc usualSps) _
    [0x40, 1, 0x0C] usualSps [0x44, 1, 0xC1] (fun _ _ => rfl) rfl rfl rfl (by decide)]
  intro h
  exact absurd h.same (by decide)

end RtmpHeaders
