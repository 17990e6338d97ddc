import NginxMedia.TsPackets

/-! The program tables at the start of a burst, as the demultiplexer reads them: which PID the
program table has, and which elementary streams are in it. -/
namespace TsTables

open MediaTypes ByteString TsMux TsDemux TsUnits TsPackets

variable {mem : Memory} {c : Core} {table : Table} {body : List UInt8}

structure Section (body : List UInt8) : Prop where
  long : 7 ≤ body.length
  short : body.length ≤ 180
  first : byteAt body 0 ≠ 0xFF
  size : 3 + sectionLength body = body.length

theorem collect_section {psi : Psi} (hbuf : psi.buf = []) (h : Section body) (fill : List UInt8) :
    collect psi (body ++ fill) = .complete body fill := by
  obtain ⟨hlong, hshort, hfirst, hsize⟩ := h
  have htake : headerTake psi (body ++ fill) = 3 := by
    rw [headerTake, hbuf, List.length_nil, List.length_append]
    omega
  have hhead : psi.buf ++ (body ++ fill).take (headerTake psi (body ++ fill)) = body.take 3 := by
    rw [htake, hbuf, List.nil_append]
    exact List.take_append_of_le_length (by omega)
  have hlen : (body.take 3).length = 3 := by
    rw [List.length_take]
    omega
  have hbody : body.take 3 ++ body.drop 3 = body := List.take_append_drop 3 body
  have hread : ∀ i, i < 3 → byteAt (body.take 3) i = byteAt body i := by
    intro i hi
    conv_rhs => rw [← hbody]
    rw [byteAt_append (by omega)]
  have hsection : sectionLength (body.take 3) = sectionLength body := by
    rw [sectionLength, sectionLength, hread 1 (by omega), hread 2 (by omega)]
  have htotal : sectionTotal psi (body.take 3) = body.length := by
    rw [sectionTotal, hbuf, List.length_nil, if_pos (by omega), hsection, hsize]
  have hdrop : (body ++ fill).drop (headerTake psi (body ++ fill)) = body.drop 3 ++ fill := by
    rw [htake]
    exact List.drop_append_of_le_length (by omega)
  have hneed : (body.drop 3 ++ fill).take (body.length - 3) = body.drop 3 := by
    apply List.take_left'
    rw [List.length_drop]
  have hrest : (body.drop 3 ++ fill).drop (body.length - 3) = fill := by
    apply List.drop_left'
    rw [List.length_drop]
  unfold collect
  dsimp only
  rw [dif_neg (by rw [hhead]; omega),
    if_neg (by rw [hhead, hread 0 (by omega)]; exact fun hc => hfirst hc.2),
    if_neg (by rw [hhead, hsection]; unfold sectionMax; omega),
    dif_neg (by rw [hhead, hdrop, htotal, hlen, hneed, hbody]; omega),
    hhead, hdrop, htotal, hlen, hneed, hrest, hbody]

theorem collect_stuffing {psi : Psi} (hbuf : psi.buf = []) {n : ℕ} (hn : 3 ≤ n) :
    collect psi (List.replicate n 0xFF) = .wait psi.dropped := by
  have htake : headerTake psi (List.replicate n (0xFF : UInt8)) = 3 := by
    rw [headerTake, hbuf, List.length_nil, List.length_replicate]
    omega
  have hhead : psi.buf ++ (List.replicate n (0xFF : UInt8)).take
      (headerTake psi (List.replicate n 0xFF)) = [0xFF, 0xFF, 0xFF] := by
    rw [htake, hbuf, List.nil_append, List.take_replicate, Nat.min_eq_left hn]
    rfl
  unfold collect
  dsimp only
  rw [dif_neg (by rw [hhead]; simp), if_pos ⟨by rw [hbuf]; simp, by rw [hhead]; rfl⟩]

theorem psiLoop_complete {bytes done rest : List UInt8} (hne : bytes ≠ [])
    (h : collect (c.psi table) bytes = .complete done rest) :
    psiLoop mem c table bytes = psiLoop mem ((parseSection mem c done).setPsi table
      ((parseSection mem c done).psi table).reset) table rest := by
  rw [psiLoop, dif_neg hne]
  split
  · next hc =>
    rw [h] at hc
    contradiction
  · next hc =>
    rw [h] at hc
    contradiction
  · next hc =>
    rw [h] at hc
    obtain ⟨rfl, rfl⟩ := Collected.complete.inj hc
    rfl

theorem psiLoop_wait {bytes : List UInt8} {psi : Psi} (hne : bytes ≠ [])
    (h : collect (c.psi table) bytes = .wait psi) :
    psiLoop mem c table bytes = c.setPsi table psi := by
  rw [psiLoop, dif_neg hne]
  split
  · next hc =>
    rw [h] at hc
    rw [Collected.wait.inj hc]
  · next hc =>
    rw [h] at hc
    contradiction
  · next hc =>
    rw [h] at hc
    contradiction

theorem psiFeed_section (mem : Memory) (c : Core) (table : Table) (h : Section body) :
    psiFeed mem c table true (sectionPayload body) =
      (parseSection mem (c.setPsi table (c.psi table).reset) body).setPsi table
        ((parseSection mem (c.setPsi table (c.psi table).reset) body).psi table).reset.dropped := by
  have hpsi : ∀ (c : Core) (psi : Psi), (c.setPsi table psi).psi table = psi := by
    intro c psi
    cases table <;> rfl
  have hset : ∀ (c : Core) (psi psi' : Psi),
      (c.setPsi table psi).setPsi table psi' = c.setPsi table psi' := by
    intro c psi psi'
    cases table <;> rfl
  have hshort := h.short
  have hlong := h.long
  have hbytes : (sectionPayload body).drop 1 =
      body ++ List.replicate (payloadBytes - 1 - body.length) 0xFF := by
    unfold sectionPayload payloadBytes
    rw [List.drop_one, List.tail_cons, List.take_of_length_le (by omega)]
  have hfill : 3 ≤ payloadBytes - 1 - body.length := by
    unfold payloadBytes
    omega
  have hne : body ++ List.replicate (payloadBytes - 1 - body.length) (0xFF : UInt8) ≠ [] := by
    intro hnil
    have := congrArg List.length (List.append_eq_nil_iff.mp hnil).1
    rw [List.length_nil] at this
    omega
  have hne' : List.replicate (payloadBytes - 1 - body.length) (0xFF : UInt8) ≠ [] := by
    simp only [ne_eq, List.replicate_eq_nil_iff]
    omega
  unfold psiFeed
  dsimp only
  have hpointer : byteAt (sectionPayload body) 0 = 0 := rfl
  rw [if_neg (by simp), if_neg (by simp [sectionPayload]), hpointer, if_neg (by omega),
    Nat.add_zero, hbytes, psiLoop_complete hne (by
      rw [hpsi]
      exact collect_section rfl h _),
    psiLoop_wait hne' (by
      rw [hpsi]
      exact collect_stuffing rfl hfill), hset]

theorem withCrc_checks (bytes : List UInt8) : TsCrc.crc32 (withCrc bytes) = 0 :=
  TsCrc.crc32_residue bytes

def programme (mux : Mux) : List (ℕ × ℕ) :=
  (if mux.videoStreamType = 0 then [] else [(mux.conf.videoPid, mux.videoStreamType)]) ++
    if mux.audioStreamType = 0 then [] else [(mux.conf.audioPid, mux.audioStreamType)]

structure OwnPids (conf : Conf) : Prop where
  pmt_pos : conf.pmtPid ≠ TsDemux.pidPat
  pmt_lt : conf.pmtPid < pidNull
  video_pos : conf.videoPid ≠ TsDemux.pidPat
  video_lt : conf.videoPid < pidNull
  audio_pos : conf.audioPid ≠ TsDemux.pidPat
  audio_lt : conf.audioPid < pidNull
  video_pmt : conf.videoPid ≠ conf.pmtPid
  audio_pmt : conf.audioPid ≠ conf.pmtPid
  video_audio : conf.videoPid ≠ conf.audioPid

structure Airs (mux : Mux) : Prop where
  ready : mux.tracksReady = true
  video : mux.videoStreamType = 0 ∨ mux.videoStreamType = streamH264 ∨
    mux.videoStreamType = streamH265
  audio : mux.audioStreamType = 0 ∨ mux.audioStreamType = streamAacAdts
  pids : OwnPids mux.conf

theorem confDefault_ownPids : OwnPids confDefault := by
  constructor <;> decide

theorem streamTypes_foldl (tracks : TrackSet) (types : ℕ × ℕ)
    (hv : types.1 = 0 ∨ types.1 = streamH264 ∨ types.1 = streamH265)
    (ha : types.2 = 0 ∨ types.2 = streamAacAdts) :
    ((tracks.foldl streamTypes types).1 = 0 ∨ (tracks.foldl streamTypes types).1 = streamH264 ∨
        (tracks.foldl streamTypes types).1 = streamH265) ∧
      ((tracks.foldl streamTypes types).2 = 0 ∨
        (tracks.foldl streamTypes types).2 = streamAacAdts) := by
  induction tracks generalizing types with
  | nil => exact ⟨hv, ha⟩
  | cons t rest ih =>
    rw [List.foldl_cons]
    unfold streamTypes
    split_ifs
    · exact ih _ (Or.inr (Or.inl rfl)) ha
    · exact ih _ (Or.inr (Or.inr rfl)) ha
    · exact ih _ hv (Or.inr rfl)
    · exact ih _ hv ha

theorem setTracks_airs {conf : Conf} {tracks : TrackSet} {mux : Mux} (hpids : OwnPids conf)
    (h : setTracks (muxInit conf) tracks = (mux, .ok)) : Airs mux := by
  obtain ⟨hv, ha⟩ := streamTypes_foldl tracks (0, 0) (Or.inl rfl) (Or.inl rfl)
  unfold setTracks at h
  dsimp only at h
  split_ifs at h with hnone
  · simp at h
  · simp only [Prod.mk.injEq, and_true] at h
    obtain rfl := h
    obtain ⟨h1, h2, h3, h4, h5, h6, h7, h8, h9⟩ := hpids
    exact ⟨rfl, hv, ha, ⟨h1, h2, h3, h4, h5, h6, h7, h8, h9⟩⟩

variable {mux : Mux}

theorem muxPat_section (mux : Mux) : Section (muxPat mux) := by
  constructor
  · simp [muxPat, withCrc]
  · simp [muxPat, withCrc]
  · simp [muxPat, withCrc]
  · simp [muxPat, withCrc, sectionLength]

theorem parsePat_muxPat (hpid : mux.conf.pmtPid < 8192) :
    patProgram (((muxPat mux).take ((muxPat mux).length - 4)).drop 8) =
      some mux.conf.pmtPid := by
  have hlen : (muxPat mux).length - 4 = 12 := by simp [muxPat, withCrc]
  rw [hlen]
  simp only [muxPat, withCrc, List.cons_append, List.take_succ_cons, List.take_zero,
    List.drop_succ_cons, List.drop_zero]
  unfold patProgram
  rw [if_neg (by decide), low_toNat, low_toNat]
  congr 1
  omega

theorem pmtEntry_length (streamType pid : ℕ) :
    (pmtEntry streamType pid).length = if streamType = 0 then 0 else 5 := by
  unfold pmtEntry
  split_ifs <;> rfl

theorem muxPmt_length (mux : Mux) : (muxPmt mux).length =
    16 + (if mux.videoStreamType = 0 then 0 else 5) + if mux.audioStreamType = 0 then 0 else 5 := by
  simp only [muxPmt, withCrc, List.length_append, pmtEntry_length, put32_length, List.length_cons,
    List.length_nil]
  omega

theorem muxPmt_section (mux : Mux) : Section (muxPmt mux) := by
  have hlen := muxPmt_length mux
  constructor
  · rw [hlen]
    omega
  · rw [hlen]
    split_ifs <;> omega
  · simp [muxPmt, withCrc]
  · rw [hlen]
    simp only [muxPmt, withCrc, sectionLength, List.cons_append, byteAt_succ, byteAt_zero,
      low_toNat]
    split_ifs <;> omega

theorem pmtStreams_entry {maxTracks streamType pid : ℕ} {found : List (ℕ × ℕ)} {unsupported : ℕ}
    (htype : tsCodec streamType ≠ .none) (h256 : streamType < 256) (hpid : pid < 8192)
    (hroom : found.length < maxTracks) (hmax : found.length < maxStreams) (rest : List UInt8)
    (hne : streamType ≠ 0) :
    pmtStreams maxTracks found unsupported (pmtEntry streamType pid ++ rest) =
      pmtStreams maxTracks (found ++ [(pid, streamType)]) unsupported rest := by
  have hread : streamType % 256 = streamType := Nat.mod_eq_of_lt h256
  have hback : (0xE0 + pid / 256 % 32) % 256 % 32 * 256 + pid % 256 = pid := by omega
  rw [pmtStreams, pmtEntry, if_neg hne]
  rw [if_neg (by simp only [List.cons_append, List.length_cons]; omega)]
  simp only [List.cons_append, byteAt_succ, byteAt_zero, low_toNat, hread, hback]
  rw [if_neg htype, if_pos hroom]
  rfl

theorem Airs.pmt_8192 (ha : Airs mux) : mux.conf.pmtPid < 8192 := Nat.lt_trans ha.pids.pmt_lt (by decide)

theorem programme_length_le (mux : Mux) : (programme mux).length ≤ 2 := by
  unfold programme
  split_ifs <;> simp

theorem Airs.streamTypes (ha : Airs mux) {r : ℕ × ℕ} (hr : r ∈ programme mux) :
    tsCodec r.2 ≠ .none ∧ r.2 < 256 ∧ r.2 ≠ 0 ∧ r.1 < 8192 := by
  have hv := ha.video
  have hau := ha.audio
  have hvp := ha.pids.video_lt
  have hap := ha.pids.audio_lt
  unfold pidNull at hvp hap
  rcases List.mem_append.mp hr with hr | hr
  · split_ifs at hr with h0
    · contradiction
    · obtain rfl := List.mem_singleton.mp hr
      rcases hv with h | h | h
      · contradiction
      · rw [h]
        dsimp only
        exact ⟨by decide, by decide, by decide, by omega⟩
      · rw [h]
        dsimp only
        exact ⟨by decide, by decide, by decide, by omega⟩
  · split_ifs at hr with h0
    · contradiction
    · obtain rfl := List.mem_singleton.mp hr
      rcases hau with h | h
      · contradiction
      · rw [h]
        dsimp only
        exact ⟨by decide, by decide, by decide, by omega⟩

theorem pmtStreams_programme {maxTracks : ℕ} (streams found : List (ℕ × ℕ))
    (hs : ∀ r ∈ streams, tsCodec r.2 ≠ .none ∧ r.2 < 256 ∧ r.2 ≠ 0 ∧ r.1 < 8192)
    (hroom : found.length + streams.length ≤ maxTracks)
    (hmax : found.length + streams.length ≤ maxStreams) :
    pmtStreams maxTracks found 0 ((streams.map fun r => pmtEntry r.2 r.1).flatten) =
      (found ++ streams, 0) := by
  induction streams generalizing found with
  | nil =>
    rw [List.map_nil, List.flatten_nil, pmtStreams, if_pos (Or.inl (by simp)), List.append_nil]
  | cons r rest ih =>
    obtain ⟨htype, h256, hne, hpid⟩ := hs r List.mem_cons_self
    rw [List.length_cons] at hroom hmax
    rw [List.map_cons, List.flatten_cons,
      pmtStreams_entry htype h256 hpid (by omega) (by omega) _ hne,
      ih (found ++ [(r.1, r.2)]) (fun x hx => hs x (List.mem_cons_of_mem _ hx))
        (by rw [List.length_append, List.length_singleton]; omega)
        (by rw [List.length_append, List.length_singleton]; omega),
      List.append_assoc]
    rfl

theorem muxPmt_entries (mux : Mux) :
    ((muxPmt mux).take ((muxPmt mux).length - 4)).drop 12 =
      ((programme mux).map fun r => pmtEntry r.2 r.1).flatten := by
  have hentries : pmtEntry mux.videoStreamType mux.conf.videoPid ++
      pmtEntry mux.audioStreamType mux.conf.audioPid =
      ((programme mux).map fun r => pmtEntry r.2 r.1).flatten := by
    unfold programme pmtEntry
    split_ifs <;> simp [*]
  rw [← hentries]
  unfold muxPmt withCrc
  dsimp only
  rw [List.take_left' (by
    rw [@List.length_append _ _ (put32 _), put32_length, Nat.add_sub_cancel]), List.append_assoc]
  rfl

theorem muxPmt_streams (ha : Airs mux) {maxTracks : ℕ}
    (hroom : (programme mux).length ≤ maxTracks) :
    pmtStreams maxTracks [] 0 (((muxPmt mux).take ((muxPmt mux).length - 4)).drop 12) =
      (programme mux, 0) := by
  have hmax : (programme mux).length ≤ maxStreams :=
    Nat.le_trans (programme_length_le mux) (by decide)
  rw [muxPmt_entries, pmtStreams_programme (programme mux) [] (fun r hr => ha.streamTypes hr)
    (by simpa using hroom) (by simpa using hmax), List.nil_append]

/-- What the demultiplexer has of the tables: the cells, where the program table is, and the
continuity counters. -/
structure View where
  tracks : List EsTrack
  pmtPid : Option ℕ
  patCc : Option ℕ
  pmtCc : Option ℕ
  deriving DecidableEq, Repr

def view (c : Core) : View :=
  ⟨c.tracks, if c.patValid then some c.pmtPid else none, c.pat.cc, c.pmt.cc⟩

theorem view_pmtPid {pid : ℕ} (h : (view c).pmtPid = some pid) :
    c.patValid = true ∧ c.pmtPid = pid := by
  unfold view at h
  dsimp only at h
  split_ifs at h with hvalid
  exact ⟨hvalid, Option.some.inj h⟩

structure Reads (c : Core) (v : View) (c' : Core) : Prop where
  maxTracks : c'.maxTracks = c.maxTracks
  maxAuBytes : c'.maxAuBytes = c.maxAuBytes
  errors : errors c'.stats = errors c.stats
  media : media c'.out = media c.out
  view : view c' = v

theorem Reads.trans {c c' c'' : Core} {v v' : View} (h : Reads c v c') (h' : Reads c' v' c'') :
    Reads c v' c'' :=
  ⟨h'.maxTracks.trans h.maxTracks, h'.maxAuBytes.trans h.maxAuBytes, h'.errors.trans h.errors,
    h'.media.trans h.media, h'.view⟩

theorem parseSection_pat (mem : Memory) (c : Core) (ha : Airs mux) :
    Reads c { view c with pmtPid := some mux.conf.pmtPid }
      (parseSection mem c (muxPat mux)) := by
  have hfirst : byteAt (muxPat mux) 0 = 0 := rfl
  have hlen : ¬ (muxPat mux).length < 12 := by simp [muxPat, withCrc]
  have hcrc : TsCrc.crc32 (muxPat mux) = 0 := withCrc_checks _
  unfold parseSection parsePat
  rw [if_neg (by rw [hcrc]; simp), if_pos hfirst, if_neg hlen, parsePat_muxPat ha.pmt_8192]
  dsimp only
  by_cases hnew : c.patValid = false ∨ c.pmtPid ≠ mux.conf.pmtPid
  · rw [if_pos hnew]
    exact ⟨rfl, rfl, rfl, rfl, rfl⟩
  · have hsame : c.pmtPid = mux.conf.pmtPid := not_not.mp fun hne => hnew (Or.inr hne)
    rw [if_neg hnew]
    refine ⟨rfl, rfl, rfl, rfl, ?_⟩
    simp [view, hsame]

def programmeTracks (mux : Mux) (tracks : List EsTrack) : List EsTrack :=
  if programme mux = tracks.map (fun t => (t.pid, t.streamType)) then tracks
  else (programme mux).mapIdx fun i r => EsTrack.new i r.1 r.2

theorem parseSection_pmt (hm : Plenty mem) (ha : Airs mux)
    (hroom : (programme mux).length ≤ c.maxTracks) :
    Reads c { view c with tracks := programmeTracks mux c.tracks }
      (parseSection mem c (muxPmt mux)) := by
  have hlen := muxPmt_length mux
  have hfirst : byteAt (muxPmt mux) 0 = 2 := rfl
  have hinfo : 12 + (byteAt (muxPmt mux) 10 % 16 * 256 + byteAt (muxPmt mux) 11) = 12 := by
    simp [muxPmt, withCrc, byteAt_succ]
  have hcrc : TsCrc.crc32 (muxPmt mux) = 0 := withCrc_checks _
  unfold parseSection parsePmt
  dsimp only
  rw [if_neg (by rw [hcrc]; simp), hfirst, if_neg (by decide), if_pos rfl, if_neg (by omega),
    hinfo, if_neg (by omega), muxPmt_streams ha hroom]
  dsimp only
  unfold programmeTracks
  by_cases hsame : programme mux = c.tracks.map fun t => (t.pid, t.streamType)
  · rw [if_pos hsame, if_pos hsame]
    exact ⟨rfl, rfl, rfl, rfl, rfl⟩
  · rw [if_neg hsame, if_neg hsame]
    unfold tracksBuild
    rw [if_neg (by simp [hm.trackset])]
    refine ⟨rfl, rfl, rfl, ?_, rfl⟩
    simp [Core.emitOut, media, mediaFrame]

theorem tablePacket_section (mem : Memory) (c : Core) (table : Table) (h : Section body)
    {cc : ℕ} (hcc : Expects (c.psi table).cc cc) (pid : ℕ) (pcr : Option ℕ) :
    ∃ c₁, tablePacket mem c table
        ⟨pid, true, cc % 16, some (sectionPayload body), false, pcr⟩ =
        (parseSection mem c₁ body).setPsi table
          ((parseSection mem c₁ body).psi table).reset.dropped ∧
      c₁ = c.setPsi table { (c.psi table) with cc := some (cc % 16) }.reset := by
  have hpsi : ∀ psi : Psi, (c.setPsi table psi).psi table = psi := by
    intro psi
    cases table <;> rfl
  have hset : ∀ psi psi' : Psi,
      (c.setPsi table psi).setPsi table psi' = c.setPsi table psi' := by
    intro psi psi'
    cases table <;> rfl
  refine ⟨_, ?_, rfl⟩
  unfold tablePacket
  simp only [Option.isSome_some, hcc.check, if_true]
  rw [psiFeed_section mem _ table h, hpsi, hset]

theorem setPsi_reads (c : Core) (table : Table) :
    Reads c (view c) (c.setPsi table (c.psi table).reset.dropped) := by
  cases table <;> exact ⟨rfl, rfl, rfl, rfl, rfl⟩

theorem sectionPayload_loads (h : Section body) : Loads (sectionPayload body) false := by
  have hshort := h.short
  simp only [Loads, sectionPayload, payloadBytes, List.length_cons, List.length_append,
    List.length_take, List.length_replicate, Bool.false_eq_true, if_false]
  omega

theorem pat_packet (mem : Memory) (c : Core) (ha : Airs mux) (hcc : Expects c.pat.cc mux.ccPat) :
    Reads c { view c with pmtPid := some mux.conf.pmtPid, patCc := some (mux.ccPat % 16) }
      (processPacket mem c (patPacket mux)) := by
  have hlt : TsMux.pidPat < pidNull := by decide
  obtain ⟨pcr, hp⟩ := processPacket_packet mem c mux.ccPat true 0 hlt
    (sectionPayload_loads (muxPat_section mux))
  obtain ⟨c₁, hread, hc₁⟩ := tablePacket_section mem (seen c pcr) .pat (muxPat_section mux)
    (by cases pcr <;> exact hcc) TsMux.pidPat pcr
  have hnote : Reads c { view c with patCc := some (mux.ccPat % 16) } c₁ := by
    rw [hc₁]
    cases pcr <;> exact ⟨rfl, rfl, rfl, rfl, rfl⟩
  have hdone := (hnote.trans (parseSection_pat mem c₁ ha)).trans (setPsi_reads _ .pat)
  rw [(parseSection_pat mem c₁ ha).view, hnote.view] at hdone
  rw [patPacket, hp, if_pos (by rfl), hread]
  exact hdone

theorem pmt_packet (hm : Plenty mem) (ha : Airs mux) (hcc : Expects c.pmt.cc mux.ccPmt)
    (hpat : (view c).pmtPid = some mux.conf.pmtPid)
    (hroom : (programme mux).length ≤ c.maxTracks) :
    Reads c { view c with
        tracks := programmeTracks mux c.tracks, pmtCc := some (mux.ccPmt % 16) }
      (processPacket mem c (pmtPacket mux)) := by
  obtain ⟨hvalid, hpid⟩ := view_pmtPid hpat
  obtain ⟨pcr, hp⟩ := processPacket_packet mem c mux.ccPmt true 0 ha.pids.pmt_lt
    (sectionPayload_loads (muxPmt_section mux))
  obtain ⟨c₁, hread, hc₁⟩ := tablePacket_section mem (seen c pcr) .pmt (muxPmt_section mux)
    (by cases pcr <;> exact hcc) mux.conf.pmtPid pcr
  have hnote : Reads c { view c with pmtCc := some (mux.ccPmt % 16) } c₁ := by
    rw [hc₁]
    cases pcr <;> exact ⟨rfl, rfl, rfl, rfl, rfl⟩
  have hparse := @parseSection_pmt mem c₁ mux hm ha (by rw [hnote.maxTracks]; exact hroom)
  have htracks : c₁.tracks = c.tracks := congrArg View.tracks hnote.view
  have hdone := (hnote.trans hparse).trans (setPsi_reads _ .pmt)
  rw [hparse.view, hnote.view, htracks] at hdone
  rw [pmtPacket, hp, if_neg ha.pids.pmt_pos, if_pos ⟨hvalid, hpid.symm⟩, hread]
  exact hdone

end TsTables
