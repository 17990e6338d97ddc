import NginxMedia.MediaCodec
import NginxMedia.TsCrc

/-! The MPEG-TS muxer of `ngx_media_ts_mux.c`: program tables at the start of a burst and one
PES for each frame, cut into packets. A burst is its bytes; the payload of a packet is what
the caller copies behind the header that the muxer wrote. -/
namespace TsMux

open MediaTypes ByteString

def packetBytes : ℕ := 188
def payloadBytes : ℕ := 184
def maxSlices : ℕ := 256
def pidPat : ℕ := 0

def streamH264 : ℕ := 0x1B
def streamH265 : ℕ := 0x24
def streamAacAdts : ℕ := 0x0F

structure Conf where
  pmtPid : ℕ
  pcrPid : ℕ
  videoPid : ℕ
  audioPid : ℕ
  defaultBurstBytes : ℕ
  maxBurstBytes : ℕ
  deriving DecidableEq, Repr

def confDefault : Conf := ⟨0x1000, 0x1011, 0x1011, 0x1100, 512 * 1024, 4 * 1024 * 1024⟩

structure Mux where
  conf : Conf
  ccPat : ℕ
  ccPmt : ℕ
  ccVideo : ℕ
  ccAudio : ℕ
  videoStreamType : ℕ
  audioStreamType : ℕ
  tracksReady : Bool
  bursts : ℕ
  packets : ℕ
  bytes : ℕ
  psiPackets : ℕ
  pcrPackets : ℕ
  frameBytes : ℕ
  frameDrops : ℕ
  deriving DecidableEq, Repr

structure Slice where
  offset : ℕ
  len : ℕ
  pts : ℤ
  dts : ℤ
  mediaType : MediaType
  codec : Codec
  keyframe : Bool
  deriving DecidableEq, Repr

/-- `ngx_media_ts_burst_t`; the bytes are those in front of the cursor. -/
structure Burst where
  bytes : List UInt8
  capacity : ℕ
  psiLen : ℕ
  slices : List Slice
  deriving DecidableEq, Repr

def muxInit (conf : Conf) : Mux :=
  let default := if conf.defaultBurstBytes = 0 then 512 * 1024 else conf.defaultBurstBytes
  { conf := { conf with
      defaultBurstBytes := default
      maxBurstBytes := if conf.maxBurstBytes < default then default else conf.maxBurstBytes }
    ccPat := 0
    ccPmt := 0
    ccVideo := 0
    ccAudio := 0
    videoStreamType := 0
    audioStreamType := 0
    tracksReady := false
    bursts := 0
    packets := 0
    bytes := 0
    psiPackets := 0
    pcrPackets := 0
    frameBytes := 0
    frameDrops := 0 }

def streamTypes (types : ℕ × ℕ) (t : Track) : ℕ × ℕ :=
  if t.mediaType = .video ∧ t.codec = .h264 then (streamH264, types.2)
  else if t.mediaType = .video ∧ t.codec = .h265 then (streamH265, types.2)
  else if t.mediaType = .audio ∧ t.codec = .aac then (types.1, streamAacAdts)
  else types

def setTracks (mux : Mux) (tracks : TrackSet) : Mux × Rc :=
  let types := tracks.foldl streamTypes (0, 0)
  if types.1 = 0 ∧ types.2 = 0 then (mux, .error)
  else
    ({ mux with videoStreamType := types.1, audioStreamType := types.2, tracksReady := true }, .ok)

def payloadCapacity (remain : ℕ) (withPcr : Bool) : ℕ :=
  let minAf := if withPcr then 8 else 0
  if remain + minAf < payloadBytes then remain else payloadBytes - minAf

def bits (n : ℕ) (v : ℤ) : ℕ := (v % 2 ^ n).toNat

def putTs (mark : ℕ) (v : ℤ) : List UInt8 :=
  let n := bits 64 v
  [low (mark * 16 + n / 2 ^ 30 % 8 * 2 + 1), low (n / 2 ^ 22), low (n / 2 ^ 15 % 128 * 2 + 1),
    low (n / 2 ^ 7), low (n % 128 * 2 + 1)]

def pcrField (base : ℕ) : List UInt8 :=
  [low (base / 2 ^ 25), low (base / 2 ^ 17), low (base / 2 ^ 9), low (base / 2),
    low (base % 2 * 128 + 0x7E), 0]

def afSize (payloadLen : ℕ) (withPcr : Bool) : ℕ :=
  let minAf := if withPcr then 8 else 0
  if payloadLen + minAf < payloadBytes then payloadBytes - payloadLen else minAf

def adaptation (afBytes : ℕ) (withPcr : Bool) (pcrBase : ℤ) : List UInt8 :=
  if afBytes = 0 then []
  else
    low (afBytes - 1) ::
      if afBytes > 1 then
        if withPcr then 0x10 :: pcrField (bits 33 pcrBase) ++ List.replicate (afBytes - 8) 0xFF
        else 0x00 :: List.replicate (afBytes - 2) 0xFF
      else []

/-- A packet as `ngx_media_ts_mux_packet()` and its caller write it. -/
def packet (pid cc : ℕ) (pusi : Bool) (payload : List UInt8) (withPcr : Bool) (pcrBase : ℤ) :
    List UInt8 :=
  let afBytes := afSize payload.length withPcr
  [0x47, low ((if pusi then 0x40 else 0x00) + pid / 256 % 32), low pid,
    low ((if afBytes > 0 then 0x03 else 0x01) * 16 + cc % 16)] ++
    adaptation afBytes withPcr pcrBase ++ payload

/-- `ngx_media_ts_mux_packet()`; nothing for `NGX_AGAIN`, else also the next counter. -/
def muxPacket (mux : Mux) (burst : Burst) (pid cc : ℕ) (pusi : Bool) (payload : List UInt8)
    (withPcr : Bool) (pcrBase : ℤ) : Option (Mux × Burst × ℕ) :=
  if burst.capacity - burst.bytes.length < packetBytes then none
  else
    some
      ({ mux with
          packets := mux.packets + 1
          pcrPackets := if withPcr then mux.pcrPackets + 1 else mux.pcrPackets },
        { burst with bytes := burst.bytes ++ packet pid cc pusi payload withPcr pcrBase },
        (cc + 1) % 16)

def sectionPayload (body : List UInt8) : List UInt8 :=
  0x00 :: (body.take (payloadBytes - 1) ++
    List.replicate (payloadBytes - 1 - body.length) 0xFF)

def muxSection (mux : Mux) (burst : Burst) (pid cc : ℕ) (body : List UInt8) :
    Mux × Burst × ℕ :=
  match muxPacket mux burst pid cc true (sectionPayload body) false 0 with
  | none => (mux, burst, cc)
  | some (mux, burst, cc) => ({ mux with psiPackets := mux.psiPackets + 1 }, burst, cc)

def withCrc (bytes : List UInt8) : List UInt8 := bytes ++ put32 (TsCrc.crc32 bytes).toNat

def muxPat (mux : Mux) : List UInt8 :=
  withCrc [0x00, 0xB0, 0x0D, 0x00, 0x01, 0xC1, 0x00, 0x00, 0x00, 0x01,
    low (0xE0 + mux.conf.pmtPid / 256 % 32), low mux.conf.pmtPid]

def pmtEntry (streamType pid : ℕ) : List UInt8 :=
  if streamType = 0 then [] else [low streamType, low (0xE0 + pid / 256 % 32), low pid, 0xF0, 0x00]

def muxPmt (mux : Mux) : List UInt8 :=
  let n := (if mux.videoStreamType = 0 then 0 else 1) + (if mux.audioStreamType = 0 then 0 else 1)
  let sectionLength := 9 + 5 * n + 4
  withCrc ([0x02, low (0xB0 + sectionLength / 256 % 16), low sectionLength, 0x00, 0x01, 0xC1, 0x00,
    0x00, low (0xE0 + mux.conf.pcrPid / 256 % 32), low mux.conf.pcrPid, 0xF0, 0x00] ++
    pmtEntry mux.videoStreamType mux.conf.videoPid ++
    pmtEntry mux.audioStreamType mux.conf.audioPid)

/-- The program tables that `ngx_media_ts_mux_burst_init()` writes. -/
def burstTables (mux : Mux) (burst : Burst) : Mux × Burst :=
  let pat := muxSection mux burst pidPat mux.ccPat (muxPat mux)
  let mux := { pat.1 with ccPat := pat.2.2 }
  let pmt := muxSection mux pat.2.1 mux.conf.pmtPid mux.ccPmt (muxPmt mux)
  ({ pmt.1 with ccPmt := pmt.2.2 }, { pmt.2.1 with psiLen := pmt.2.1.bytes.length })

def burstInit (mux : Mux) (capacity : ℕ) (allocs : Bool) : Mux × Option Burst :=
  let asked := if capacity = 0 then mux.conf.defaultBurstBytes else capacity
  let given := if asked > mux.conf.maxBurstBytes then mux.conf.maxBurstBytes else asked
  if allocs = false then (mux, none)
  else
    let mux := { mux with bursts := mux.bursts + 1 }
    let burst : Burst := ⟨[], given, 0, []⟩
    if mux.tracksReady = false then (mux, some burst)
    else ((burstTables mux burst).1, some (burstTables mux burst).2)

def burstEnd (mux : Mux) (burst : Burst) : Mux :=
  { mux with bytes := mux.bytes + burst.bytes.length }

def pesHeader (frame : Frame) (payloadLen : ℕ) : List UInt8 :=
  let headerLen := if frame.pts = frame.dts then 14 else 19
  let totalLen := 3 + (headerLen - 9) + payloadLen
  [0x00, 0x00, 0x01] ++
    (if frame.mediaType = .audio then [0xC0, low (totalLen / 256), low totalLen]
      else [0xE0, 0x00, 0x00]) ++
    [0x80, if frame.pts = frame.dts then 0x80 else 0xC0, low (headerLen - 9)] ++
    putTs (if frame.pts = frame.dts then 0x2 else 0x3) frame.pts ++
    if frame.pts = frame.dts then [] else putTs 0x1 frame.dts

theorem payloadCapacity_pos {remain : ℕ} (withPcr : Bool) (h : 0 < remain) :
    0 < payloadCapacity remain withPcr := by
  unfold payloadCapacity payloadBytes
  dsimp only
  cases withPcr <;> simp only [if_true, Bool.false_eq_true, if_false] <;> split_ifs <;> omega

theorem drop_payload_lt {pes : List UInt8} (withPcr : Bool) (h : pes ≠ []) :
    (pes.drop (payloadCapacity pes.length withPcr)).length < pes.length := by
  have hpos := List.length_pos_iff.mpr h
  have := payloadCapacity_pos withPcr hpos
  rw [List.length_drop]
  omega

def pesLoop (mux : Mux) (burst : Burst) (pid : ℕ) (dts : ℤ) (cc : ℕ) (first pcr : Bool)
    (pes : List UInt8) : Option (Mux × Burst × ℕ) :=
  if _hne : pes = [] then some (mux, burst, cc)
  else
    let take := payloadCapacity pes.length (first && pcr)
    match muxPacket mux burst pid cc first (pes.take take) (first && pcr) dts with
    | none => none
    | some (mux, burst, cc) => pesLoop mux burst pid dts cc false pcr (pes.drop take)
termination_by pes.length
decreasing_by exact drop_payload_lt _ _hne

def writeFrame (mux : Mux) (burst : Burst) (frame : Frame) (pcr : Bool) : Rc × Mux × Burst :=
  match frame.payload with
  | none => (.ok, mux, burst)
  | some payload =>
    if mux.tracksReady = false then (.ok, mux, burst)
    else if burst.slices.length ≥ maxSlices then (.again, mux, burst)
    else
      let audio := decide (frame.mediaType = .audio)
      let pid := if audio then mux.conf.audioPid else mux.conf.videoPid
      let cc := if audio then mux.ccAudio else mux.ccVideo
      match pesLoop mux burst pid frame.dts cc true pcr
          (pesHeader frame payload.length ++ payload) with
      | none => (.again, { mux with frameDrops := mux.frameDrops + 1 }, burst)
      | some (next, full, cc) =>
        let slice : Slice :=
          ⟨burst.bytes.length, full.bytes.length - burst.bytes.length, frame.pts, frame.dts,
            frame.mediaType, frame.codec, frame.keyframe⟩
        (.ok,
          { next with
            frameBytes := next.frameBytes + payload.length
            ccAudio := if audio then cc else next.ccAudio
            ccVideo := if audio then next.ccVideo else cc },
          { full with slices := burst.slices ++ [slice] })

theorem afSize_add {n : ℕ} {withPcr : Bool} (h : n ≤ payloadBytes - if withPcr then 8 else 0) :
    afSize n withPcr + n = payloadBytes ∧ (withPcr = true → 8 ≤ afSize n withPcr) := by
  unfold afSize payloadBytes at *
  cases withPcr with
  | false =>
    simp only [Bool.false_eq_true, if_false] at h ⊢
    split_ifs
    · exact ⟨by omega, fun hf => hf.elim⟩
    · exact ⟨by omega, fun hf => hf.elim⟩
  | true =>
    simp only [if_true] at h ⊢
    split_ifs
    · exact ⟨by omega, fun _ => by omega⟩
    · exact ⟨by omega, fun _ => by omega⟩

theorem adaptation_length {n : ℕ} {withPcr : Bool} (pcrBase : ℤ)
    (h : withPcr = true → 8 ≤ n) : (adaptation n withPcr pcrBase).length = n := by
  unfold adaptation
  by_cases h0 : n = 0
  · rw [if_pos h0, h0]
    rfl
  · rw [if_neg h0, List.length_cons]
    by_cases h1 : n > 1
    · rw [if_pos h1]
      cases withPcr with
      | false =>
        simp only [Bool.false_eq_true, if_false, List.length_cons, List.length_replicate]
        omega
      | true =>
        have := h rfl
        simp only [if_true, List.cons_append, List.length_cons, List.length_append, pcrField,
          List.length_nil, List.length_replicate]
        omega
    · rw [if_neg h1]
      simp only [List.length_nil]
      omega

def Loads (payload : List UInt8) (withPcr : Bool) : Prop :=
  payload.length ≤ payloadBytes - if withPcr then 8 else 0

theorem packet_length {payload : List UInt8} {withPcr : Bool} (pid cc : ℕ) (pusi : Bool)
    (pcrBase : ℤ) (h : Loads payload withPcr) :
    (packet pid cc pusi payload withPcr pcrBase).length = packetBytes := by
  obtain ⟨hsize, hpcr⟩ := afSize_add h
  simp only [packet, List.length_append, List.length_cons, List.length_nil,
    adaptation_length pcrBase hpcr]
  unfold payloadBytes at hsize
  unfold packetBytes
  omega

theorem take_loads (pes : List UInt8) (withPcr : Bool) :
    Loads (pes.take (payloadCapacity pes.length withPcr)) withPcr := by
  unfold Loads payloadCapacity payloadBytes
  dsimp only
  rw [List.length_take]
  cases withPcr <;> simp only [if_true, Bool.false_eq_true, if_false] <;> split_ifs <;> omega

def pesPackets (pid : ℕ) (dts : ℤ) (cc : ℕ) (first pcr : Bool) (pes : List UInt8) :
    List (List UInt8) :=
  if _hne : pes = [] then []
  else
    packet pid cc first (pes.take (payloadCapacity pes.length (first && pcr))) (first && pcr) dts ::
      pesPackets pid dts ((cc + 1) % 16) false pcr
        (pes.drop (payloadCapacity pes.length (first && pcr)))
termination_by pes.length
decreasing_by exact drop_payload_lt _ _hne

theorem pesPackets_nil (pid : ℕ) (dts : ℤ) (cc : ℕ) (first pcr : Bool) :
    pesPackets pid dts cc first pcr [] = [] := by
  rw [pesPackets, dif_pos rfl]

theorem pesPackets_cons (pid : ℕ) (dts : ℤ) (cc : ℕ) (first pcr : Bool) {pes : List UInt8}
    (h : pes ≠ []) :
    pesPackets pid dts cc first pcr pes =
      packet pid cc first (pes.take (payloadCapacity pes.length (first && pcr))) (first && pcr)
          dts ::
        pesPackets pid dts ((cc + 1) % 16) false pcr
          (pes.drop (payloadCapacity pes.length (first && pcr))) := by
  rw [pesPackets, dif_neg h]

/-- Only counters of a muxer differ that nothing it writes depends on. -/
structure SameOutput (mux mux' : Mux) : Prop where
  conf : mux'.conf = mux.conf
  ccPat : mux'.ccPat = mux.ccPat
  ccPmt : mux'.ccPmt = mux.ccPmt
  ccVideo : mux'.ccVideo = mux.ccVideo
  ccAudio : mux'.ccAudio = mux.ccAudio
  videoStreamType : mux'.videoStreamType = mux.videoStreamType
  audioStreamType : mux'.audioStreamType = mux.audioStreamType
  tracksReady : mux'.tracksReady = mux.tracksReady

theorem SameOutput.refl (mux : Mux) : SameOutput mux mux :=
  ⟨rfl, rfl, rfl, rfl, rfl, rfl, rfl, rfl⟩

variable {mux mux' : Mux} {burst burst' : Burst} {pid cc cc' : ℕ} {payload : List UInt8}

theorem muxPacket_some {pusi withPcr : Bool} {pcrBase : ℤ}
    (h : muxPacket mux burst pid cc pusi payload withPcr pcrBase = some (mux', burst', cc')) :
    SameOutput mux mux' ∧ burst' = { burst with
      bytes := burst.bytes ++ packet pid cc pusi payload withPcr pcrBase } ∧
      cc' = (cc + 1) % 16 ∧ burst.bytes.length + packetBytes ≤ burst.capacity := by
  unfold muxPacket at h
  by_cases hroom : burst.capacity - burst.bytes.length < packetBytes
  · rw [if_pos hroom] at h
    contradiction
  · rw [if_neg hroom] at h
    simp only [Option.some.injEq, Prod.mk.injEq] at h
    obtain ⟨rfl, rfl, rfl⟩ := h
    refine ⟨⟨rfl, rfl, rfl, rfl, rfl, rfl, rfl, rfl⟩, rfl, rfl, ?_⟩
    unfold packetBytes at *
    omega

theorem SameOutput.trans {mux₁ mux₂ mux₃ : Mux} (h : SameOutput mux₁ mux₂)
    (h' : SameOutput mux₂ mux₃) : SameOutput mux₁ mux₃ :=
  ⟨h'.conf.trans h.conf, h'.ccPat.trans h.ccPat, h'.ccPmt.trans h.ccPmt,
    h'.ccVideo.trans h.ccVideo, h'.ccAudio.trans h.ccAudio,
    h'.videoStreamType.trans h.videoStreamType, h'.audioStreamType.trans h.audioStreamType,
    h'.tracksReady.trans h.tracksReady⟩

theorem pesLoop_some {dts : ℤ} {pcr : Bool} (pes : List UInt8) {first : Bool}
    (h : pesLoop mux burst pid dts cc first pcr pes = some (mux', burst', cc')) :
    SameOutput mux mux' ∧
      burst' = { burst with
        bytes := burst.bytes ++ (pesPackets pid dts cc first pcr pes).flatten } ∧
      cc' % 16 = (cc + (pesPackets pid dts cc first pcr pes).length) % 16 ∧
      (pes ≠ [] → burst.bytes.length + packetBytes ≤ burst.capacity) := by
  induction cc, first, pes using pesPackets.induct pcr generalizing mux burst with
  | case1 cc first =>
    rw [pesLoop, dif_pos rfl] at h
    simp only [Option.some.injEq, Prod.mk.injEq] at h
    obtain ⟨rfl, rfl, rfl⟩ := h
    rw [pesPackets_nil]
    exact ⟨SameOutput.refl mux, by simp, rfl, fun hne => absurd rfl hne⟩
  | case2 cc first pes hne ih =>
    rw [pesLoop, dif_neg hne] at h
    dsimp only at h
    cases hp : muxPacket mux burst pid cc first
        (pes.take (payloadCapacity pes.length (first && pcr))) (first && pcr) dts with
    | none =>
      rw [hp] at h
      contradiction
    | some r =>
      obtain ⟨mux₁, burst₁, cc₁⟩ := r
      obtain ⟨hsame, rfl, rfl, hroom⟩ := muxPacket_some hp
      rw [hp] at h
      obtain ⟨hrest, rfl, hcc, -⟩ := ih h
      rw [pesPackets_cons pid dts cc first pcr hne]
      refine ⟨hsame.trans hrest, ?_, ?_, fun _ => hroom⟩
      · simp only [List.flatten_cons, List.append_assoc]
      · rw [hcc, List.length_cons]
        omega

theorem muxSection_full {body : List UInt8}
    (h : burst.capacity < burst.bytes.length + packetBytes) :
    muxSection mux burst pid cc body = (mux, burst, cc) := by
  have hroom : burst.capacity - burst.bytes.length < packetBytes := by
    unfold packetBytes at *
    omega
  simp only [muxSection, muxPacket, if_pos hroom]

theorem muxSection_room {body : List UInt8}
    (h : burst.bytes.length + packetBytes ≤ burst.capacity) :
    ∃ mux', muxSection mux burst pid cc body =
      (mux', { burst with
        bytes := burst.bytes ++ packet pid cc true (sectionPayload body) false 0 },
        (cc + 1) % 16) ∧ SameOutput mux mux' := by
  have hroom : ¬ burst.capacity - burst.bytes.length < packetBytes := by
    unfold packetBytes at *
    omega
  simp only [muxSection, muxPacket, if_neg hroom]
  exact ⟨_, rfl, rfl, rfl, rfl, rfl, rfl, rfl, rfl, rfl⟩

def patPacket (mux : Mux) : List UInt8 :=
  packet pidPat mux.ccPat true (sectionPayload (muxPat mux)) false 0

def pmtPacket (mux : Mux) : List UInt8 :=
  packet mux.conf.pmtPid mux.ccPmt true (sectionPayload (muxPmt mux)) false 0

inductive Opened (mux : Mux) : Mux → Burst → List (List UInt8) → Prop where
  | empty {mux' : Mux} {burst : Burst} : SameOutput mux mux' → burst.bytes = [] →
      burst.capacity < burst.bytes.length + packetBytes → Opened mux mux' burst []
  | pat {mux' : Mux} {burst : Burst} :
      SameOutput { mux with ccPat := (mux.ccPat + 1) % 16 } mux' →
      burst.bytes = [patPacket mux].flatten →
      burst.capacity < burst.bytes.length + packetBytes → Opened mux mux' burst [patPacket mux]
  | tables {mux' : Mux} {burst : Burst} :
      SameOutput { mux with
        ccPat := (mux.ccPat + 1) % 16, ccPmt := (mux.ccPmt + 1) % 16 } mux' →
      burst.bytes = [patPacket mux, pmtPacket mux].flatten →
      Opened mux mux' burst [patPacket mux, pmtPacket mux]

theorem muxPmt_congr {mux mux' : Mux} (hconf : mux'.conf = mux.conf)
    (hv : mux'.videoStreamType = mux.videoStreamType)
    (ha : mux'.audioStreamType = mux.audioStreamType) : muxPmt mux' = muxPmt mux := by
  simp only [muxPmt, hconf, hv, ha]

theorem burstTables_opened (mux : Mux) (given : ℕ) :
    ∃ packets, Opened mux (burstTables mux ⟨[], given, 0, []⟩).1
      (burstTables mux ⟨[], given, 0, []⟩).2 packets := by
  unfold burstTables
  by_cases hpat : packetBytes ≤ given
  · obtain ⟨mux₁, hm₁, hs₁⟩ := @muxSection_room mux ⟨[], given, 0, []⟩ pidPat mux.ccPat
      (muxPat mux) (by simpa using hpat)
    have hbytes : [] ++ packet pidPat mux.ccPat true (sectionPayload (muxPat mux)) false 0 =
        [patPacket mux].flatten := by
      simp [patPacket]
    have hpmt : muxPmt { mux₁ with ccPat := (mux.ccPat + 1) % 16 } = muxPmt mux :=
      muxPmt_congr hs₁.conf hs₁.videoStreamType hs₁.audioStreamType
    have hconf := hs₁.conf
    have hcc := hs₁.ccPmt
    rw [hm₁]
    dsimp only
    rw [hbytes, hpmt]
    have hstep : SameOutput { mux with ccPat := (mux.ccPat + 1) % 16 }
        { mux₁ with ccPat := (mux.ccPat + 1) % 16 } :=
      ⟨hs₁.conf, rfl, hs₁.ccPmt, hs₁.ccVideo, hs₁.ccAudio, hs₁.videoStreamType,
        hs₁.audioStreamType, hs₁.tracksReady⟩
    by_cases hroom : [patPacket mux].flatten.length + packetBytes ≤ given
    · obtain ⟨mux₂, hm₂, hs₂⟩ := @muxSection_room { mux₁ with ccPat := (mux.ccPat + 1) % 16 }
        ⟨[patPacket mux].flatten, given, 0, []⟩ mux₁.conf.pmtPid mux₁.ccPmt (muxPmt mux) hroom
      rw [hm₂]
      have hboth := hstep.trans hs₂
      refine ⟨_, Opened.tables ⟨hboth.conf, hboth.ccPat, ?_, hboth.ccVideo, hboth.ccAudio,
        hboth.videoStreamType, hboth.audioStreamType, hboth.tracksReady⟩ ?_⟩
      · dsimp only
        rw [hcc]
      · simp only [List.flatten_cons, List.flatten_nil, List.append_nil]
        rw [pmtPacket, hconf, hcc]
    · rw [muxSection_full (by simpa using Nat.lt_of_not_le hroom)]
      exact ⟨_, Opened.pat hstep rfl (Nat.lt_of_not_le hroom)⟩
  · have hshort : given < packetBytes := Nat.lt_of_not_le hpat
    have hfull : ∀ (mux : Mux) (pid cc : ℕ) (body : List UInt8),
        muxSection mux ⟨[], given, 0, []⟩ pid cc body = (mux, ⟨[], given, 0, []⟩, cc) :=
      fun mux pid cc body => muxSection_full (by simpa using hshort)
    simp only [hfull]
    exact ⟨_, Opened.empty (SameOutput.refl mux) rfl (by simpa using hshort)⟩

theorem Opened.of_same {mux₀ : Mux} {packets : List (List UInt8)} (h : Opened mux mux' burst packets)
    (hs : SameOutput mux₀ mux) : Opened mux₀ mux' burst packets := by
  have hpat : patPacket mux = patPacket mux₀ := by
    simp only [patPacket, muxPat, hs.conf, hs.ccPat]
  have hpmt : pmtPacket mux = pmtPacket mux₀ := by
    simp only [pmtPacket, muxPmt_congr hs.conf hs.videoStreamType hs.audioStreamType, hs.conf,
      hs.ccPmt]
  have hccPat := congrArg (fun n => (n + 1) % 16) hs.ccPat
  have hccPmt := congrArg (fun n => (n + 1) % 16) hs.ccPmt
  cases h with
  | empty hs' hb hr => exact Opened.empty (hs.trans hs') hb hr
  | pat hs' hb hr =>
    rw [hpat] at hb ⊢
    refine Opened.pat (SameOutput.trans ?_ hs') hb hr
    exact ⟨hs.conf, hccPat, hs.ccPmt, hs.ccVideo, hs.ccAudio, hs.videoStreamType,
      hs.audioStreamType, hs.tracksReady⟩
  | tables hs' hb =>
    rw [hpat, hpmt] at hb ⊢
    refine Opened.tables (SameOutput.trans ?_ hs') hb
    exact ⟨hs.conf, hccPat, hccPmt, hs.ccVideo, hs.ccAudio, hs.videoStreamType,
      hs.audioStreamType, hs.tracksReady⟩

theorem burstInit_opened {capacity : ℕ} (hready : mux.tracksReady = true)
    (h : burstInit mux capacity true = (mux', some burst)) :
    ∃ packets, Opened mux mux' burst packets := by
  unfold burstInit at h
  dsimp only at h
  rw [if_neg (by simp), if_neg (by simp [hready])] at h
  simp only [Prod.mk.injEq, Option.some.injEq] at h
  obtain ⟨rfl, rfl⟩ := h
  obtain ⟨packets, ho⟩ := burstTables_opened { mux with bursts := mux.bursts + 1 } _
  exact ⟨packets, ho.of_same ⟨rfl, rfl, rfl, rfl, rfl, rfl, rfl, rfl⟩⟩

def Mux.pidOf (mux : Mux) (mediaType : MediaType) : ℕ :=
  if mediaType = .audio then mux.conf.audioPid else mux.conf.videoPid

def Mux.ccOf (mux : Mux) (mediaType : MediaType) : ℕ :=
  if mediaType = .audio then mux.ccAudio else mux.ccVideo

structure Wrote (mux : Mux) (burst : Burst) (frame : Frame) (packets : List (List UInt8))
    (mux' : Mux) (burst' : Burst) : Prop where
  conf : mux'.conf = mux.conf
  ccPat : mux'.ccPat = mux.ccPat
  ccPmt : mux'.ccPmt = mux.ccPmt
  videoStreamType : mux'.videoStreamType = mux.videoStreamType
  audioStreamType : mux'.audioStreamType = mux.audioStreamType
  tracksReady : mux'.tracksReady = mux.tracksReady
  bytes : burst'.bytes = burst.bytes ++ packets.flatten
  capacity : burst'.capacity = burst.capacity
  room : burst.bytes.length + packetBytes ≤ burst.capacity
  own : mux'.ccOf frame.mediaType % 16 = (mux.ccOf frame.mediaType + packets.length) % 16
  other : ∀ mediaType, (mediaType = .audio ↔ frame.mediaType ≠ .audio) →
    mux'.ccOf mediaType = mux.ccOf mediaType

theorem pesHeader_length (frame : Frame) (n : ℕ) :
    (pesHeader frame n).length = if frame.pts = frame.dts then 14 else 19 := by
  unfold pesHeader putTs
  by_cases ha : frame.mediaType = .audio <;> by_cases ht : frame.pts = frame.dts <;>
    simp [ha, ht]

theorem writeFrame_spec {frame : Frame} {pcr : Bool} {rc : Rc}
    (hready : mux.tracksReady = true) (hpayload : frame.payload = some payload)
    (h : writeFrame mux burst frame pcr = (rc, mux', burst')) :
    (rc = .ok ∧ Wrote mux burst frame (pesPackets (mux.pidOf frame.mediaType) frame.dts
        (mux.ccOf frame.mediaType) true pcr (pesHeader frame payload.length ++ payload))
        mux' burst') ∨
      (rc = .again ∧ burst' = burst ∧ SameOutput mux mux') := by
  unfold writeFrame at h
  rw [hpayload] at h
  dsimp only at h
  rw [if_neg (by simp [hready])] at h
  by_cases hslices : burst.slices.length ≥ maxSlices
  · rw [if_pos hslices] at h
    simp only [Prod.mk.injEq] at h
    obtain ⟨rfl, rfl, rfl⟩ := h
    exact Or.inr ⟨rfl, rfl, SameOutput.refl mux⟩
  · rw [if_neg hslices] at h
    have hpid : (if decide (frame.mediaType = .audio) = true then mux.conf.audioPid
        else mux.conf.videoPid) = mux.pidOf frame.mediaType := by
      simp [Mux.pidOf]
    have hcc : (if decide (frame.mediaType = .audio) = true then mux.ccAudio
        else mux.ccVideo) = mux.ccOf frame.mediaType := by
      simp [Mux.ccOf]
    rw [hpid, hcc] at h
    cases hl : pesLoop mux burst (mux.pidOf frame.mediaType) frame.dts
        (mux.ccOf frame.mediaType) true pcr (pesHeader frame payload.length ++ payload) with
    | none =>
      rw [hl] at h
      simp only [Prod.mk.injEq] at h
      obtain ⟨rfl, rfl, rfl⟩ := h
      exact Or.inr ⟨rfl, rfl, rfl, rfl, rfl, rfl, rfl, rfl, rfl, rfl⟩
    | some r =>
      obtain ⟨next, full, cc⟩ := r
      obtain ⟨hsame, rfl, hmod, hroom⟩ := pesLoop_some _ hl
      rw [hl] at h
      simp only [Prod.mk.injEq] at h
      obtain ⟨rfl, rfl, rfl⟩ := h
      have hne : pesHeader frame payload.length ++ payload ≠ [] := by
        intro he
        have hlen := pesHeader_length frame payload.length
        rw [(List.append_eq_nil_iff.mp he).1] at hlen
        split_ifs at hlen
      refine Or.inl ⟨rfl, hsame.conf, hsame.ccPat, hsame.ccPmt, hsame.videoStreamType,
        hsame.audioStreamType, hsame.tracksReady, rfl, rfl, hroom hne, ?_, ?_⟩
      · by_cases ha : frame.mediaType = .audio
        · simpa [Mux.ccOf, ha] using hmod
        · simpa [Mux.ccOf, ha] using hmod
      · intro mediaType hother
        by_cases ha : frame.mediaType = .audio
        · have hm : mediaType ≠ .audio := fun hm => hother.mp hm ha
          simp [Mux.ccOf, ha, hm, hsame.ccVideo]
        · have hm : mediaType = .audio := hother.mpr ha
          simp [Mux.ccOf, ha, hm, hsame.ccAudio]

end TsMux
