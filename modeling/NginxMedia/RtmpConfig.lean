import NginxMedia.MediaCodec

/-! Codec configuration in RTMP: the avcC and hvcC records, read and written, and the
AudioSpecificConfig. A parser also says what it left in its output when it failed. -/
namespace RtmpConfig
open MediaTypes ByteString

def maxParamSets : ℕ := 4

def be16 (data : List UInt8) (i : ℕ) : ℕ := byteAt data i * 256 + byteAt data (i + 1)

def slice (data : List UInt8) (pos len : ℕ) : List UInt8 := (data.drop pos).take len

def keepSet (sets : List Payload) (set : Payload) : List Payload :=
  if sets.length < maxParamSets then sets ++ [set] else sets

structure Avcc where
  version : ℕ
  profile : ℕ
  compatibility : ℕ
  level : ℕ
  nalLengthSize : ℕ
  sps : List Payload
  pps : List Payload

def Avcc.zero : Avcc := ⟨0, 0, 0, 0, 0, [], []⟩

def parseSets (data : List UInt8) : (count pos : ℕ) → List Payload → ℕ × List Payload × Bool
  | 0, pos, sets => (pos, sets, true)
  | count + 1, pos, sets =>
    if pos + 2 > data.length then (pos, sets, false)
    else
      let len := be16 data pos
      if len = 0 ∨ pos + 2 + len > data.length then (pos + 2, sets, false)
      else parseSets data count (pos + 2 + len) (keepSet sets (slice data (pos + 2) len))

/-- `ngx_media_rtmp_avcc_parse()`: what is in `out` afterwards, and whether it is valid. -/
def avccParse (out : Avcc) (data : List UInt8) : Avcc × Bool :=
  if data.length < 7 then (out, false)
  else
    let out : Avcc :=
      { version := byteAt data 0, profile := byteAt data 1, compatibility := byteAt data 2,
        level := byteAt data 3, nalLengthSize := byteAt data 4 % 4 + 1, sps := [], pps := [] }
    if out.version ≠ 1 ∨ out.nalLengthSize > 4 then (out, false)
    else
      match parseSets data (byteAt data 5 % 32) 6 [] with
      | (_, sps, false) => ({ out with sps := sps }, false)
      | (pos, sps, true) =>
        if sps = [] then ({ out with sps := sps }, false)
        else if pos ≥ data.length then ({ out with sps := sps }, false)
        else
          match parseSets data (byteAt data pos) (pos + 1) [] with
          | (_, pps, false) => ({ out with sps := sps, pps := pps }, false)
          | (_, pps, true) => ({ out with sps := sps, pps := pps }, pps ≠ [])

def annexb (sets : List Payload) : Payload := sets.flatMap fun set => [0, 0, 0, 1] ++ set

def annexbSize (sets : List Payload) : ℕ := (sets.map fun set => 4 + set.length).sum

def avccAnnexbSize (avcc : Avcc) : ℕ := annexbSize avcc.sps + annexbSize avcc.pps

def avccToAnnexb (avcc : Avcc) (capacity : ℕ) : Option Payload :=
  if capacity < avccAnnexbSize avcc then none else some (annexb avcc.sps ++ annexb avcc.pps)

structure Hvcc where
  version : ℕ
  nalLengthSize : ℕ
  profileSpace : ℕ
  profileIdc : ℕ
  level : ℕ
  vps : List Payload
  sps : List Payload
  pps : List Payload

def Hvcc.zero : Hvcc := ⟨0, 0, 0, 0, 0, [], [], []⟩

def Hvcc.keep (out : Hvcc) (nalType : ℕ) (set : Payload) : Hvcc :=
  if nalType = 32 then { out with vps := keepSet out.vps set }
  else if nalType = 33 then { out with sps := keepSet out.sps set }
  else if nalType = 34 then { out with pps := keepSet out.pps set }
  else out

def hvccUnits (data : List UInt8) (nalType : ℕ) : (count pos : ℕ) → Hvcc → ℕ × Hvcc × Bool
  | 0, pos, out => (pos, out, true)
  | count + 1, pos, out =>
    if pos + 2 > data.length then (pos, out, false)
    else
      let len := be16 data pos
      if len = 0 ∨ pos + 2 + len > data.length then (pos + 2, out, false)
      else hvccUnits data nalType count (pos + 2 + len)
        (out.keep nalType (slice data (pos + 2) len))

def hvccArrayList (data : List UInt8) : (arrays pos : ℕ) → Hvcc → Hvcc × Bool
  | 0, _, out => (out, true)
  | arrays + 1, pos, out =>
    if pos + 3 > data.length then (out, false)
    else
      match hvccUnits data (byteAt data pos % 64) (be16 data (pos + 1)) (pos + 3) out with
      | (_, out, false) => (out, false)
      | (pos, out, true) => hvccArrayList data arrays pos out

def hvccArrays (data : List UInt8) (pos : ℕ) (out : Hvcc) : Hvcc × Bool :=
  if pos ≥ data.length then (out, false)
  else hvccArrayList data (byteAt data pos) (pos + 1) out

def hvccParse (out : Hvcc) (data : List UInt8) : Hvcc × Bool :=
  if data.length < 23 then (out, false)
  else
    let out : Hvcc :=
      { version := byteAt data 0, nalLengthSize := byteAt data 21 % 4 + 1,
        profileSpace := byteAt data 1 / 64, profileIdc := byteAt data 1 % 32,
        level := byteAt data 12, vps := [], sps := [], pps := [] }
    if out.version ≠ 1 ∨ out.nalLengthSize > 4 then (out, false)
    else
      match hvccArrays data 22 out with
      | (out, false) => (out, false)
      | (out, true) => (out, out.sps ≠ [])

def hvccAnnexbSize (hvcc : Hvcc) : ℕ :=
  annexbSize hvcc.vps + annexbSize hvcc.sps + annexbSize hvcc.pps

def hvccToAnnexb (hvcc : Hvcc) (capacity : ℕ) : Option Payload :=
  if capacity < hvccAnnexbSize hvcc then none
  else some (annexb hvcc.vps ++ annexb hvcc.sps ++ annexb hvcc.pps)

structure Asc where
  objectType : ℕ
  sampleRateIndex : ℕ
  sampleRate : ℕ
  channels : ℕ

def Asc.zero : Asc := ⟨0, 0, 0, 0⟩

/-- `ngx_media_rtmp_asc_rates`; the last three are zero. -/
def ascRates : List ℕ := MediaCodec.sampleRates ++ [0, 0, 0]

def ascParse (out : Asc) (data : List UInt8) : Asc × Bool :=
  if data.length < 2 then (out, false)
  else
    let index := byteAt data 0 % 8 * 2 + byteAt data 1 / 128
    let out : Asc := ⟨byteAt data 0 / 8, 0, 0, byteAt data 1 / 8 % 16⟩
    if out.objectType = 0 ∨ index > 12 then (out, false)
    else
      let out : Asc := { out with sampleRateIndex := index, sampleRate := ascRates.getD index 0 }
      (out, out.sampleRate ≠ 0)

theorem avccToAnnexb_size (avcc : Avcc) :
    avccToAnnexb avcc (avccAnnexbSize avcc) = some (annexb avcc.sps ++ annexb avcc.pps) := by
  unfold avccToAnnexb
  rw [if_neg (Nat.lt_irrefl _)]

theorem hvccToAnnexb_size (hvcc : Hvcc) : hvccToAnnexb hvcc (hvccAnnexbSize hvcc) =
    some (annexb hvcc.vps ++ annexb hvcc.sps ++ annexb hvcc.pps) := by
  unfold hvccToAnnexb
  rw [if_neg (Nat.lt_irrefl _)]

theorem avccParse_ok {out avcc : Avcc} {data : List UInt8} (h : avccParse out data = (avcc, true)) :
    0 < avcc.nalLengthSize ∧ avcc.nalLengthSize ≤ 4 ∧ avcc.sps ≠ [] ∧ avcc.pps ≠ [] := by
  unfold avccParse at h
  dsimp only at h
  split_ifs at h with hlen hbad
  · cases h
  · cases h
  · split at h
    · cases h
    · split_ifs at h with hsps hpos
      · cases h
      · cases h
      · split at h
        · cases h
        · obtain ⟨rfl, hpps⟩ := Prod.mk.inj h
          exact ⟨Nat.succ_pos _, by dsimp only; omega, hsps, of_decide_eq_true hpps⟩

def putSets (capacity : ℕ) : List UInt8 → List Payload → List UInt8 × Bool
  | dst, [] => (dst, true)
  | dst, set :: rest =>
    if dst.length + 2 + set.length > capacity then (dst, false)
    else
      putSets capacity (dst ++ [low (set.length / 256), low set.length] ++ set) rest

def avccLengthSize (avcc : Avcc) : ℕ := if avcc.nalLengthSize ≠ 0 then avcc.nalLengthSize else 4

/-- The fixed bytes in front of the length size. -/
def avccHead (avcc : Avcc) : List UInt8 :=
  [low (if avcc.version ≠ 0 then avcc.version else 1), low avcc.profile, low avcc.compatibility,
    low avcc.level]

def avccBuild (avcc : Avcc) (capacity : ℕ) : List UInt8 × Bool :=
  if avcc.sps = [] ∨ avcc.pps = [] ∨ avcc.sps.length > maxParamSets ∨
      avcc.pps.length > maxParamSets then ([], false)
  else if capacity < 7 then ([], false)
  else if avccLengthSize avcc < 1 ∨ avccLengthSize avcc > 4 then (avccHead avcc, false)
  else
    match putSets capacity
        (avccHead avcc ++ [low (0xFC + (avccLengthSize avcc - 1)), low (0xE0 + avcc.sps.length)])
        avcc.sps with
    | (dst, false) => (dst, false)
    | (dst, true) =>
      if dst.length + 1 > capacity then (dst, false)
      else putSets capacity (dst ++ [low avcc.pps.length]) avcc.pps

def putArray (capacity : ℕ) (dst : List UInt8) (nalType : ℕ) (sets : List Payload) :
    List UInt8 × Bool :=
  if capacity < dst.length + 3 then (dst, false)
  else
    putSets capacity
      (dst ++ [low (0x80 + nalType), low (sets.length / 256), low sets.length]) sets

def putArrays (capacity : ℕ) : List UInt8 → List (ℕ × List Payload) → List UInt8 × Bool
  | dst, [] => (dst, true)
  | dst, (nalType, sets) :: rest =>
    match putArray capacity dst nalType sets with
    | (dst, false) => (dst, false)
    | (dst, true) => putArrays capacity dst rest

def hvccSets (hvcc : Hvcc) : List (ℕ × List Payload) :=
  (if hvcc.vps ≠ [] then [(32, hvcc.vps)] else []) ++ [(33, hvcc.sps), (34, hvcc.pps)]

/-- `ngx_media_rtmp_hvcc_build()`: a fixed header of 23 bytes and two or three arrays. -/
def hvccBuild (hvcc : Hvcc) (capacity : ℕ) : List UInt8 × Bool :=
  if hvcc.sps = [] then ([], false)
  else if capacity < 23 then ([], false)
  else
    putArrays capacity
      ([1, low (hvcc.profileSpace * 64 + hvcc.profileIdc % 32)] ++ List.replicate 10 0 ++
        [low hvcc.level] ++ List.replicate 8 0 ++ [0x03, low (hvccSets hvcc).length])
      (hvccSets hvcc)

theorem putSets_length {capacity : ℕ} {dst : List UInt8} (sets : List Payload)
    (h : dst.length ≤ capacity) : (putSets capacity dst sets).1.length ≤ capacity := by
  induction sets generalizing dst with
  | nil => exact h
  | cons set rest ih =>
    unfold putSets
    split_ifs with hfull
    · exact h
    · refine ih ?_
      rw [List.length_append, List.length_append]
      change dst.length + 2 + set.length ≤ capacity
      omega

theorem avccBuild_length (avcc : Avcc) (capacity : ℕ) :
    (avccBuild avcc capacity).1.length ≤ capacity := by
  unfold avccBuild
  split_ifs with hempty hsmall hsize
  · exact Nat.zero_le _
  · exact Nat.zero_le _
  · change 4 ≤ capacity
    omega
  · have hhead : (avccHead avcc ++ [low (0xFC + (avccLengthSize avcc - 1)),
        low (0xE0 + avcc.sps.length)]).length ≤ capacity := by
      change 6 ≤ capacity
      omega
    have hsps := putSets_length avcc.sps hhead
    split
    · next dst heq => rw [heq] at hsps; exact hsps
    · next dst heq =>
      rw [heq] at hsps
      split_ifs with hfull
      · exact hsps
      · refine putSets_length _ ?_
        rw [List.length_append]
        change dst.length + 1 ≤ capacity
        omega

theorem putArray_length {capacity : ℕ} {dst : List UInt8} (nalType : ℕ) (sets : List Payload)
    (h : dst.length ≤ capacity) : (putArray capacity dst nalType sets).1.length ≤ capacity := by
  unfold putArray
  split_ifs with hfull
  · exact h
  · refine putSets_length sets ?_
    rw [List.length_append]
    change dst.length + 3 ≤ capacity
    omega

theorem putArrays_length {capacity : ℕ} {dst : List UInt8} (arrays : List (ℕ × List Payload))
    (h : dst.length ≤ capacity) : (putArrays capacity dst arrays).1.length ≤ capacity := by
  induction arrays generalizing dst with
  | nil => exact h
  | cons array rest ih =>
    obtain ⟨nalType, sets⟩ := array
    have harray := putArray_length nalType sets h
    unfold putArrays
    split
    · next dst' heq => rw [heq] at harray; exact harray
    · next dst' heq =>
      rw [heq] at harray
      exact ih harray

theorem hvccBuild_length (hvcc : Hvcc) (capacity : ℕ) :
    (hvccBuild hvcc capacity).1.length ≤ capacity := by
  unfold hvccBuild
  split_ifs with hempty hsmall
  · exact Nat.zero_le _
  · exact Nat.zero_le _
  · refine putArrays_length _ ?_
    simp only [List.length_append, List.length_replicate]
    change 23 ≤ capacity
    omega

end RtmpConfig
