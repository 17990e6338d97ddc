import NginxMedia.MediaCodec
import NginxMedia.StepRun
import NginxMedia.TsCrc

/-! The MPEG-TS demultiplexer of `ngx_media_ts_demux.c`: packets, program tables, PES, access
units. The demultiplexer's core takes whole packets; the framer in front of it holds the
bytes of a packet that is not complete yet. `out` is what the sink was called with. -/
namespace TsDemux

open MediaTypes ByteString MediaCodec

def packetSize : ℕ := 188
def syncByte : UInt8 := 0x47
def pidPat : ℕ := 0
def pidNull : ℕ := 0x1FFF
def sectionMax : ℕ := 1024
def maxStreams : ℕ := 32

/-- Which allocations succeed: a set of tracks, and buffers by their size. -/
structure Memory where
  trackset : Bool
  bytes : ℕ → Bool

/-- `ngx_media_ts_demux_stats_t`, less the framer's counters. -/
structure Stats where
  packets : ℕ
  framesOut : ℕ
  configFramesOut : ℕ
  transportErrors : ℕ
  continuityErrors : ℕ
  psiErrors : ℕ
  crcErrors : ℕ
  pesErrors : ℕ
  auOverflows : ℕ
  unsupportedStreams : ℕ
  lastPcr : ℕ
  hasPcr : Bool
  deriving DecidableEq, Repr

def Stats.zero : Stats := ⟨0, 0, 0, 0, 0, 0, 0, 0, 0, 0, 0, false⟩

/-- `ngx_media_ts_track_t`; a continuity counter is `none` until it is valid. -/
structure EsTrack where
  pid : ℕ
  streamType : ℕ
  codec : Codec
  trackIndex : ℕ
  cc : Option ℕ
  au : List UInt8
  auCap : ℕ
  auOverflow : Bool
  pts : ℤ
  dts : ℤ
  hasPts : Bool
  hasDts : Bool
  lastPts : ℤ
  pesRemaining : ℕ
  config : Option Payload
  track : Track
  deriving DecidableEq, Repr

/-- `ngx_media_ts_psi_t`. A section that is being collected is never complete already, so
the loop that collects it makes progress. -/
structure Psi where
  buf : List UInt8
  expected : ℕ
  cc : Option ℕ
  assembling : Bool
  short : buf.length < 3 ∨ buf.length < expected
  deriving DecidableEq

def Psi.zero : Psi := ⟨[], 0, none, false, Or.inl (by decide)⟩

/-- What the sink gets. -/
inductive Output where
  | tracks (set : TrackSet)
  | frame (f : Frame)
  deriving DecidableEq, Repr

/-- `ngx_media_ts_demux_t` behind its framer. -/
structure Core where
  maxTracks : ℕ
  maxAuBytes : ℕ
  tracks : List EsTrack
  trackset : TrackSet
  tracksReady : Bool
  pat : Psi
  pmt : Psi
  pmtPid : ℕ
  patValid : Bool
  pmtValid : Bool
  pcrPid : ℕ
  stats : Stats
  out : List Output
  deriving DecidableEq

def Core.init (maxTracks maxAuBytes : ℕ) : Core :=
  { maxTracks := if maxTracks = 0 then 8 else maxTracks
    maxAuBytes := if maxAuBytes = 0 then 4 * 1024 * 1024 else maxAuBytes
    tracks := []
    trackset := []
    tracksReady := false
    pat := .zero
    pmt := .zero
    pmtPid := 0
    patValid := false
    pmtValid := false
    pcrPid := 0
    stats := .zero
    out := [] }

def Core.psiError (c : Core) : Core :=
  { c with stats := { c.stats with psiErrors := c.stats.psiErrors + 1 } }

def Core.pesError (c : Core) : Core :=
  { c with stats := { c.stats with pesErrors := c.stats.pesErrors + 1 } }

def Core.overflow (c : Core) : Core :=
  { c with stats := { c.stats with auOverflows := c.stats.auOverflows + 1 } }

def Core.transportError (c : Core) : Core :=
  { c with stats := { c.stats with transportErrors := c.stats.transportErrors + 1 } }

def Core.continuityError (c : Core) : Core :=
  { c with stats := { c.stats with continuityErrors := c.stats.continuityErrors + 1 } }

def Core.emitOut (c : Core) (o : Output) : Core := { c with out := c.out ++ [o] }

def Core.putTrack (c : Core) (t : EsTrack) : Core :=
  { c with tracks := c.tracks.set t.trackIndex t }

def emit (mem : Memory) (c : Core) (t : EsTrack) (data : List UInt8) (pts dts : ℤ)
    (keyframe config : Bool) (format : PayloadFormat) : Core :=
  if data = [] then c
  else if data.length > c.maxAuBytes then c.overflow
  else if mem.bytes data.length = false then c
  else
    let c := c.emitOut <| .frame
      { mediaType := t.track.mediaType
        codec := t.codec
        payloadFormat := format
        trackIndex := t.trackIndex
        pts := pts
        dts := dts
        keyframe := keyframe
        config := config
        payload := some data }
    { c with
      stats :=
        if config then { c.stats with configFramesOut := c.stats.configFramesOut + 1 }
        else { c.stats with framesOut := c.stats.framesOut + 1 } }

def emitConfig (mem : Memory) (c : Core) (t : EsTrack) (data : List UInt8)
    (format : PayloadFormat) : Core × EsTrack :=
  if data = [] then (c, t)
  else if t.config = some data then (c, t)
  else if mem.bytes data.length = false then (c, t)
  else
    let t := { t with config := some data, track := { t.track with config := some data } }
    let c := { c with
      trackset := c.trackset.modify t.trackIndex fun tr => { tr with config := some data } }
    let c := emit mem c t data t.pts t.dts true true format
    let c := if c.tracksReady then c.emitOut (.tracks c.trackset) else c
    (c, t)

/-- Doubling until there is room for `need` bytes. -/
def grow (cap need : ℕ) : ℕ := if cap = 0 ∨ need ≤ cap then cap else grow (cap * 2) need
termination_by need - cap

structure Scan where
  cfg : List UInt8
  cap : ℕ
  haveConfig : Bool
  vcl : Bool
  keyframe : Bool
  deriving DecidableEq, Repr

def Scan.class (scan : Scan) (codec : Codec) (nal : List UInt8) : Scan :=
  { scan with
    vcl := scan.vcl || isVcl codec (nalType codec nal)
    keyframe := scan.keyframe || isKeyframe codec (nalType codec nal) }

/-- The loop of `ngx_media_ts_au_flush()`; it ends early when memory runs out. -/
def scanNals (mem : Memory) (codec : Codec) (scan : Scan) : List (List UInt8) → Scan
  | [] => scan
  | nal :: rest =>
    if isConfig codec (nalType codec nal) then
      let need := scan.cfg.length + 4 + nal.length
      let cap := if need > scan.cap then grow (if scan.cap = 0 then 256 else scan.cap) need
        else scan.cap
      if need > scan.cap ∧ mem.bytes cap = false then scan
      else
        scanNals mem codec
          (Scan.class { scan with
            cfg := scan.cfg ++ [0, 0, 0, 1] ++ nal
            cap := cap
            haveConfig := true } codec nal) rest
    else scanNals mem codec (scan.class codec nal) rest

def EsTrack.clearFlags (t : EsTrack) : EsTrack := { t with hasPts := false, hasDts := false }

def EsTrack.dropUnit (t : EsTrack) : EsTrack := { t with au := [], hasPts := false, hasDts := false }

def adtsFrame (mem : Memory) (c : Core) (t : EsTrack) (adts : Adts) (p : List UInt8) :
    Core × EsTrack × Bool :=
  let (c, t) := match audioSpecificConfig adts with
    | some asc => emitConfig mem c t asc .raw
    | none => (c, t)
  let changed := decide (t.track.sampleRate ≠ adts.sampleRate ∨ t.track.channels ≠ adts.channels ∨
    t.track.profile ≠ adts.objectType)
  let t := { t with
    track := { t.track with
      sampleRate := adts.sampleRate, channels := adts.channels, profile := adts.objectType } }
  let c := emit mem c t (p.take adts.frameLen) t.lastPts t.lastPts true false .adts
  (c, { t with lastPts := t.lastPts + (1024 * 90000 / adts.sampleRate : ℕ) }, changed)

/-- The loop of `ngx_media_ts_audio_flush()`, with whether the track's data changed. -/
def adtsLoop (mem : Memory) (c : Core) (t : EsTrack) (p : List UInt8) (changed : Bool) :
    Core × EsTrack × Bool :=
  if p.length < adtsHeaderMin then (c, t, changed)
  else
    match _h : adtsParse p with
    | none => (c.pesError, t, changed)
    | some adts =>
      if adts.frameLen > p.length then (c.pesError, t, changed)
      else
        let one := adtsFrame mem c t adts p
        adtsLoop mem one.1 one.2.1 (p.drop adts.frameLen) (changed || one.2.2)
termination_by p.length
decreasing_by
  have := adtsParse_header _h
  rw [List.length_drop]
  omega

def audioFlush (mem : Memory) (c : Core) (t : EsTrack) : Core × EsTrack :=
  let t := if t.hasPts then { t with lastPts := t.pts } else t
  let (c, t, changed) := adtsLoop mem c t t.au false
  let c :=
    if changed ∧ c.tracksReady then
      let set := (c.tracks.set t.trackIndex t).foldl
        (fun (set : TrackSet) other => set.set other.trackIndex other.track) c.trackset
      { c with trackset := set }.emitOut (.tracks set)
    else c
  (c, t.dropUnit)

def auFlush (mem : Memory) (c : Core) (t : EsTrack) : Core × EsTrack :=
  if t.au = [] then (c, { t.clearFlags with auOverflow := false })
  else if t.auOverflow then (c, { t.dropUnit with auOverflow := false })
  else if t.codec = .aac then audioFlush mem c t
  else
    let scan := scanNals mem t.codec ⟨[], 0, false, false, false⟩ (nals t.au)
    let (c, t) := if scan.haveConfig then emitConfig mem c t scan.cfg .annexb else (c, t)
    if scan.vcl then
      let pts := if t.hasPts then t.pts else t.lastPts
      let dts := if t.hasDts then t.dts else pts
      (emit mem c t t.au pts dts scan.keyframe false .annexb,
        { t.dropUnit with lastPts := pts })
    else (c, t.dropUnit)

def auCapacity (maxAuBytes cap need : ℕ) : ℕ :=
  if need > cap then min (grow (if cap = 0 then 8192 else cap) need) maxAuBytes else cap

def auAppend (mem : Memory) (c : Core) (t : EsTrack) (data : List UInt8) : Core × EsTrack :=
  let need := t.au.length + data.length
  if data = [] then (c, t)
  else if need > c.maxAuBytes then (c.overflow, { t with au := [], auOverflow := true })
  else if need > t.auCap ∧ mem.bytes (auCapacity c.maxAuBytes t.auCap need) = false then
    (c.overflow, { t with au := [], auOverflow := true })
  else
    (c, { t with au := t.au ++ data, auCap := auCapacity c.maxAuBytes t.auCap need })

def pesTs (p : List UInt8) (i : ℕ) : ℕ :=
  byteAt p i / 2 % 8 * 2 ^ 30 + byteAt p (i + 1) * 2 ^ 22 + byteAt p (i + 2) / 2 * 2 ^ 15 +
    byteAt p (i + 3) * 2 ^ 7 + byteAt p (i + 4) / 2

def pesPayload (mem : Memory) (c : Core) (t : EsTrack) (payload : List UInt8) (off : ℕ) :
    Core × EsTrack :=
  let pesLen := byteAt payload 4 * 256 + byteAt payload 5
  let data := payload.drop off
  if pesLen = 0 then auAppend mem c t data
  else if pesLen < 3 + byteAt payload 8 then (c.pesError, t)
  else
    let bound := pesLen - 3 - byteAt payload 8
    let (c, t) := auAppend mem c { t with pesRemaining := bound - min data.length bound }
      (data.take bound)
    if t.pesRemaining = 0 then auFlush mem c t else (c, t)

def pesStart (mem : Memory) (c : Core) (t : EsTrack) (payload : List UInt8) : Core × EsTrack :=
  let t := { t with hasPts := false, hasDts := false, pesRemaining := 0 }
  if payload.length < 9 ∨ be24 payload 0 ≠ 1 ∨ byteAt payload 6 / 64 ≠ 2 then (c.pesError, t)
  else
    let flags := byteAt payload 7 / 64
    let off := 9 + byteAt payload 8
    if off > payload.length then (c.pesError, t)
    else if flags / 2 = 1 ∧ payload.length < 14 then (c.pesError, t)
    else
      let t := if flags / 2 = 1 then { t with pts := pesTs payload 9, hasPts := true } else t
      if flags = 3 ∧ payload.length < 19 then (c.pesError, t)
      else
        let t := if flags = 3 then { t with dts := pesTs payload 14, hasDts := true } else t
        pesPayload mem c t payload off

def pesContinue (mem : Memory) (c : Core) (t : EsTrack) (payload : List UInt8) :
    Core × EsTrack :=
  if t.au = [] ∧ t.auOverflow = false ∧ t.pesRemaining = 0 then (c, t)
  else if t.pesRemaining > 0 then
    let data := payload.take t.pesRemaining
    let (c, t) := auAppend mem c t data
    let t := { t with pesRemaining := t.pesRemaining - data.length }
    if t.pesRemaining = 0 then auFlush mem c t else (c, t)
  else auAppend mem c t payload

def tsCodec (streamType : ℕ) : Codec :=
  if streamType = 0x1B then .h264
  else if streamType = 0x24 then .h265
  else if streamType = 0x0F then .aac
  else .none

def patProgram : List UInt8 → Option ℕ
  | a :: b :: c :: d :: rest =>
    if a.toNat * 256 + b.toNat = 0 then patProgram rest
    else some (c.toNat % 32 * 256 + d.toNat)
  | _ => none

def parsePat (c : Core) (s : List UInt8) : Core :=
  if s.length < 12 then c.psiError
  else
    match patProgram ((s.take (s.length - 4)).drop 8) with
    | none => c.psiError
    | some pid =>
      let c :=
        if c.patValid = false ∨ c.pmtPid ≠ pid then
          { c with
            pmtPid := pid
            pmtValid := false
            pmt := ⟨[], 0, c.pmt.cc, false, Or.inl (by decide)⟩ }
        else c
      { c with patValid := true }

def pmtStreams (maxTracks : ℕ) (found : List (ℕ × ℕ)) (unsupported : ℕ) (s : List UInt8) :
    List (ℕ × ℕ) × ℕ :=
  if s.length < 5 ∨ found.length ≥ maxStreams then (found, unsupported)
  else
    let type := byteAt s 0
    let pid := byteAt s 1 % 32 * 256 + byteAt s 2
    let rest := s.drop (5 + (byteAt s 3 % 16 * 256 + byteAt s 4))
    if tsCodec type = .none then pmtStreams maxTracks found (unsupported + 1) rest
    else if found.length < maxTracks then
      pmtStreams maxTracks (found ++ [(pid, type)]) unsupported rest
    else pmtStreams maxTracks found unsupported rest
termination_by s.length
decreasing_by all_goals (rw [List.length_drop]; omega)

def EsTrack.new (index pid type : ℕ) : EsTrack :=
  { pid := pid
    streamType := type
    codec := tsCodec type
    trackIndex := index
    cc := none
    au := []
    auCap := 0
    auOverflow := false
    pts := 0
    dts := 0
    hasPts := false
    hasDts := false
    lastPts := 0
    pesRemaining := 0
    config := none
    track :=
      { mediaType := if tsCodec type = .aac then .audio else .video
        codec := tsCodec type
        payloadFormat := if tsCodec type = .aac then .adts else .annexb
        profile := 0
        level := 0
        width := 0
        height := 0
        frameRateNum := 0
        frameRateDen := 0
        sampleRate := 0
        channels := 0
        config := none } }

def tracksBuild (mem : Memory) (c : Core) : Core :=
  if mem.trackset = false then { c with trackset := [] }
  else
    let set := c.tracks.map EsTrack.track
    { c with trackset := set, tracksReady := true }.emitOut (.tracks set)

def parsePmt (mem : Memory) (c : Core) (s : List UInt8) : Core :=
  if s.length < 16 then c.psiError
  else
    let c := { c with pcrPid := byteAt s 8 % 32 * 256 + byteAt s 9 }
    let first := 12 + (byteAt s 10 % 16 * 256 + byteAt s 11)
    if first > s.length - 4 then c.psiError
    else
      let (found, unsupported) :=
        pmtStreams c.maxTracks [] 0 ((s.take (s.length - 4)).drop first)
      let c := { c with
        stats := { c.stats with
          unsupportedStreams := c.stats.unsupportedStreams + unsupported } }
      if found = c.tracks.map (fun t => (t.pid, t.streamType)) then { c with pmtValid := true }
      else
        tracksBuild mem { c with
          trackset := []
          tracksReady := false
          tracks := found.mapIdx fun i stream => EsTrack.new i stream.1 stream.2
          pmtValid := true }

def parseSection (mem : Memory) (c : Core) (s : List UInt8) : Core :=
  if TsCrc.crc32 s ≠ 0 then
    { c with stats := { c.stats with crcErrors := c.stats.crcErrors + 1 } }
  else if byteAt s 0 = 0x00 then parsePat c s
  else if byteAt s 0 = 0x02 then parsePmt mem c s
  else c

inductive Table where
  | pat
  | pmt
  deriving DecidableEq, Repr

def Core.psi (c : Core) : Table → Psi
  | .pat => c.pat
  | .pmt => c.pmt

def Core.setPsi (c : Core) (table : Table) (psi : Psi) : Core :=
  match table with
  | .pat => { c with pat := psi }
  | .pmt => { c with pmt := psi }

/-- Nothing is being collected; what was expected stays as it was. -/
def Psi.dropped (psi : Psi) : Psi := { psi with buf := [], assembling := false, short := Or.inl (by decide) }

def Psi.reset (psi : Psi) : Psi :=
  { psi with buf := [], expected := 0, assembling := false, short := Or.inl (by decide) }

def headerTake (psi : Psi) (bytes : List UInt8) : ℕ := min (3 - psi.buf.length) bytes.length

def sectionLength (head : List UInt8) : ℕ := byteAt head 1 % 16 * 256 + byteAt head 2

def sectionTotal (psi : Psi) (head : List UInt8) : ℕ :=
  if psi.buf.length < 3 then 3 + sectionLength head else psi.expected

inductive Collected where
  | wait (psi : Psi)
  | bad (psi : Psi)
  | complete (done rest : List UInt8)

def collect (psi : Psi) (bytes : List UInt8) : Collected :=
  let head := psi.buf ++ bytes.take (headerTake psi bytes)
  let rest := bytes.drop (headerTake psi bytes)
  if hhead : head.length < 3 then
    .wait { psi with buf := head, assembling := true, short := Or.inl hhead }
  else if psi.buf.length < 3 ∧ byteAt head 0 = 0xFF then .wait psi.dropped
  else if psi.buf.length < 3 ∧ (3 + sectionLength head > sectionMax ∨ sectionLength head < 4) then
    .bad psi.dropped
  else
    let need := sectionTotal psi head - head.length
    if hshort : (head ++ rest.take need).length < sectionTotal psi head then
      .wait { psi with
        buf := head ++ rest.take need
        expected := sectionTotal psi head
        assembling := true
        short := Or.inr hshort }
    else .complete (head ++ rest.take need) (rest.drop need)

theorem collect_rest {psi : Psi} {bytes done rest : List UInt8} (hne : bytes ≠ [])
    (h : collect psi bytes = .complete done rest) : rest.length < bytes.length := by
  have hpos := List.length_pos_iff.mpr hne
  have hpsi := psi.short
  unfold collect at h
  dsimp only at h
  split_ifs at h with hhead hfill hbad hshort
  cases h
  simp only [List.length_append, List.length_take, headerTake] at hhead
  simp only [List.length_drop, sectionTotal, headerTake, List.length_append, List.length_take]
  split_ifs with hheader
  · omega
  · omega

def psiLoop (mem : Memory) (c : Core) (table : Table) (bytes : List UInt8) : Core :=
  if _hne : bytes = [] then c
  else
    match _hc : collect (c.psi table) bytes with
    | .wait psi => c.setPsi table psi
    | .bad psi => (c.setPsi table psi).psiError
    | .complete done rest =>
      let c := parseSection mem c done
      psiLoop mem (c.setPsi table (c.psi table).reset) table rest
termination_by bytes.length
decreasing_by exact collect_rest _hne _hc

def psiFeed (mem : Memory) (c : Core) (table : Table) (pusi : Bool) (payload : List UInt8) :
    Core :=
  if pusi = false then
    if (c.psi table).assembling then psiLoop mem c table payload else c
  else if payload = [] then c.psiError
  else
    let pointer := byteAt payload 0
    if pointer > payload.length - 1 then (c.setPsi table (c.psi table).dropped).psiError
    else psiLoop mem (c.setPsi table (c.psi table).reset) table (payload.drop (1 + pointer))

def ccCheck (cc : Option ℕ) (newCc : ℕ) (hasPayload : Bool) : Option ℕ × Bool :=
  match cc with
  | none => (some newCc, true)
  | some old => (some newCc, !hasPayload || decide (newCc = (old + 1) % 16))

structure Header where
  pid : ℕ
  pusi : Bool
  cc : ℕ
  payload : Option (List UInt8)
  discontinuity : Bool
  pcr : Option ℕ
  deriving DecidableEq, Repr

def pcrBase (p : List UInt8) (i : ℕ) : ℕ :=
  byteAt p i * 2 ^ 25 + byteAt p (i + 1) * 2 ^ 17 + byteAt p (i + 2) * 2 ^ 9 +
    byteAt p (i + 3) * 2 + byteAt p (i + 4) / 128

def packetHeader (p : List UInt8) : Option Header :=
  let afc := byteAt p 3 / 16 % 4
  let afLen := byteAt p 4
  let hasField := afc / 2 = 1
  let off := if hasField then 5 + afLen else 4
  if byteAt p 3 / 64 ≠ 0 then none
  else if afc = 0 then none
  else if hasField ∧ afLen > 183 then none
  else
    some
      { pid := byteAt p 1 % 32 * 256 + byteAt p 2
        pusi := decide (byteAt p 1 / 64 % 2 = 1)
        cc := byteAt p 3 % 16
        payload := if afc % 2 = 1 then some (p.drop off) else none
        discontinuity := decide (hasField ∧ afLen > 0 ∧ byteAt p 5 / 128 = 1)
        pcr := if hasField ∧ afLen ≥ 7 ∧ byteAt p 5 / 16 % 2 = 1 then some (pcrBase p 6)
          else none }

def tablePacket (mem : Memory) (c : Core) (table : Table) (h : Header) : Core :=
  let psi := c.psi table
  let check := ccCheck psi.cc h.cc h.payload.isSome
  let c := c.setPsi table { psi with cc := check.1 }
  let c := if check.2 then c else c.continuityError
  match h.payload with
  | none => c
  | some payload => psiFeed mem c table h.pusi payload

def trackPacket (mem : Memory) (c : Core) (t : EsTrack) (h : Header) : Core × EsTrack :=
  let check := ccCheck t.cc h.cc h.payload.isSome
  let t := { t with cc := check.1 }
  let c := if check.2 ∨ h.discontinuity then c else c.continuityError
  match h.payload with
  | none => (c, t)
  | some payload =>
    if h.pusi then
      let (c, t) := auFlush mem c t
      pesStart mem c t payload
    else pesContinue mem c t payload

def trackByPid (c : Core) (pid : ℕ) : Option EsTrack := c.tracks.find? fun t => t.pid = pid

def processPacket (mem : Memory) (c : Core) (p : List UInt8) : Core :=
  let c := { c with stats := { c.stats with packets := c.stats.packets + 1 } }
  if byteAt p 1 / 128 = 1 then c.transportError
  else if byteAt p 1 % 32 * 256 + byteAt p 2 = pidNull then c
  else
    match packetHeader p with
    | none => c.transportError
    | some h =>
      let c := match h.pcr with
        | some base => { c with stats := { c.stats with lastPcr := base, hasPcr := true } }
        | none => c
      if h.pid = pidPat then tablePacket mem c .pat h
      else if c.patValid = true ∧ h.pid = c.pmtPid then tablePacket mem c .pmt h
      else
        match trackByPid c h.pid with
        | none => c
        | some t =>
          let (c, t) := trackPacket mem c t h
          c.putTrack t

def flush (mem : Memory) (c : Core) : Core :=
  (List.range c.tracks.length).foldl
    (fun c i => match c.tracks[i]? with
      | some t => let (c, t) := auFlush mem c t; c.putTrack t
      | none => c) c

structure Demux where
  core : Core
  tail : List UInt8
  bytes : ℕ
  syncErrors : ℕ
  skippedBytes : ℕ
  deriving DecidableEq

def Demux.init (maxTracks maxAuBytes : ℕ) : Demux := ⟨Core.init maxTracks maxAuBytes, [], 0, 0, 0⟩

def resync : List UInt8 → ℕ
  | [] => 0
  | x :: rest =>
    if x = syncByte ∧ (rest.length < packetSize ∨ rest[packetSize - 1]? = some syncByte) then 0
    else 1 + resync rest

def feedLoop (mem : Memory) (d : Demux) (data : List UInt8) : Demux :=
  if _hlen : data.length < packetSize then { d with tail := data }
  else if data.head? = some syncByte then
    feedLoop mem { d with core := processPacket mem d.core (data.take packetSize) }
      (data.drop packetSize)
  else
    let skip := 1 + resync (data.drop 1)
    feedLoop mem { d with
      syncErrors := d.syncErrors + 1, skippedBytes := d.skippedBytes + skip } (data.drop skip)
termination_by data.length
decreasing_by all_goals (simp only [packetSize] at *; rw [List.length_drop]; omega)

def finishTail (mem : Memory) (d : Demux) (packet : List UInt8) : Demux :=
  if packet.head? = some syncByte then
    { d with core := processPacket mem d.core packet, tail := [] }
  else { d with syncErrors := d.syncErrors + 1, tail := [] }

def feed (mem : Memory) (d : Demux) (data : List UInt8) : Demux :=
  let d := { d with bytes := d.bytes + data.length }
  if d.tail = [] then feedLoop mem d data
  else
    let take := min data.length (packetSize - d.tail.length)
    let packet := d.tail ++ data.take take
    if packet.length < packetSize then { d with tail := packet }
    else feedLoop mem (finishTail mem d packet) (data.drop take)

end TsDemux
