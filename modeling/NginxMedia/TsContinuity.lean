import NginxMedia.TsRoundTrip

/-! The continuity counters of a stream: a frame that does not fit leaves no trace, so the
packets of each PID count up without a gap or a repeat over any number of bursts. -/
namespace TsContinuity

open MediaTypes ByteString TsMux TsRoundTrip

variable {mux mux' mux'' : Mux} {burst burst' : Burst} {packets more : List (List UInt8)}

def pesRun (mux : Mux) (burst : Burst) (pid : ℕ) (dts : ℤ) (cc : ℕ) (first pcr : Bool)
    (pes : List UInt8) : Mux × Burst × ℕ × Bool :=
  if _hne : pes = [] then (mux, burst, cc, true)
  else
    let take := payloadCapacity pes.length (first && pcr)
    match muxPacket mux burst pid cc first (pes.take take) (first && pcr) dts with
    | none => (mux, burst, cc, false)
    | some (mux, burst, cc) => pesRun mux burst pid dts cc false pcr (pes.drop take)
termination_by pes.length
decreasing_by exact drop_payload_lt _ _hne

/-- `ngx_media_ts_mux_write_frame()` with the roll-back that the source makes: the cursor goes
back to the offset of the slice, and the two counts to what they were. -/
def writeFrameInPlace (mux : Mux) (burst : Burst) (frame : Frame) (pcr : Bool) :
    Rc × Mux × Burst :=
  match frame.payload with
  | none => (.ok, mux, burst)
  | some payload =>
    if mux.tracksReady = false then (.ok, mux, burst)
    else if burst.slices.length ≥ maxSlices then (.again, mux, burst)
    else
      let audio := decide (frame.mediaType = .audio)
      let pid := if audio then mux.conf.audioPid else mux.conf.videoPid
      let cc := if audio then mux.ccAudio else mux.ccVideo
      let offset := burst.bytes.length
      let packetsBefore := mux.packets
      let pcrBefore := mux.pcrPackets
      match pesRun mux burst pid frame.dts cc true pcr
          (pesHeader frame payload.length ++ payload) with
      | (mux, burst, _, false) =>
        (.again,
          { mux with
            packets := packetsBefore
            pcrPackets := pcrBefore
            frameDrops := mux.frameDrops + 1 },
          { burst with bytes := burst.bytes.take offset })
      | (mux, burst, cc, true) =>
        let slice : Slice :=
          ⟨offset, burst.bytes.length - offset, frame.pts, frame.dts, frame.mediaType,
            frame.codec, frame.keyframe⟩
        (.ok,
          { mux with
            frameBytes := mux.frameBytes + payload.length
            ccAudio := if audio then cc else mux.ccAudio
            ccVideo := if audio then mux.ccVideo else cc },
          { burst with slices := burst.slices ++ [slice] })

structure CutOff (mux : Mux) (burst : Burst) (mux' : Mux) (burst' : Burst) : Prop where
  mux : mux' = { mux with packets := mux'.packets, pcrPackets := mux'.pcrPackets }
  burst : ∃ written, burst' = { burst with bytes := burst.bytes ++ written }

theorem muxPacket_cutOff {pid cc cc' : ℕ} {pusi withPcr : Bool} {payload : List UInt8}
    {pcrBase : ℤ}
    (h : muxPacket mux burst pid cc pusi payload withPcr pcrBase = some (mux', burst', cc')) :
    CutOff mux burst mux' burst' := by
  unfold muxPacket at h
  by_cases hroom : burst.capacity - burst.bytes.length < packetBytes
  · rw [if_pos hroom] at h
    contradiction
  rw [if_neg hroom] at h
  simp only [Option.some.injEq, Prod.mk.injEq] at h
  obtain ⟨rfl, rfl, -⟩ := h
  exact ⟨rfl, _, rfl⟩

theorem CutOff.trans {burst'' : Burst} (h : CutOff mux burst mux' burst')
    (h' : CutOff mux' burst' mux'' burst'') : CutOff mux burst mux'' burst'' := by
  obtain ⟨hmux, written, rfl⟩ := h
  obtain ⟨hmux', written', rfl⟩ := h'
  refine ⟨?_, written ++ written', ?_⟩
  · rw [hmux', hmux]
  · simp only [List.append_assoc]

theorem pesRun_loop {pid : ℕ} {dts : ℤ} {cc : ℕ} {first pcr : Bool} (pes : List UInt8) :
    (∃ mux' burst' cc', pesLoop mux burst pid dts cc first pcr pes = some (mux', burst', cc') ∧
      pesRun mux burst pid dts cc first pcr pes = (mux', burst', cc', true)) ∨
    ∃ mux' burst' cc', pesLoop mux burst pid dts cc first pcr pes = none ∧
      pesRun mux burst pid dts cc first pcr pes = (mux', burst', cc', false) ∧
      CutOff mux burst mux' burst' := by
  induction cc, first, pes using pesPackets.induct pcr generalizing mux burst with
  | case1 cc first =>
    left
    rw [pesLoop, dif_pos rfl, pesRun, dif_pos rfl]
    exact ⟨_, _, _, rfl, rfl⟩
  | case2 cc first pes hne ih =>
    rw [pesLoop, dif_neg hne, pesRun, dif_neg hne]
    dsimp only
    cases hp : muxPacket mux burst pid cc first
        (pes.take (payloadCapacity pes.length (first && pcr))) (first && pcr) dts with
    | none => exact Or.inr ⟨_, _, _, rfl, rfl, ⟨rfl, [], by simp⟩⟩
    | some r =>
      obtain ⟨mux₁, burst₁, cc₁⟩ := r
      have hcut := muxPacket_cutOff hp
      obtain ⟨-, -, rfl, -⟩ := muxPacket_some hp
      dsimp only
      rcases @ih mux₁ burst₁ with ⟨m, b, c, hloop, hrun⟩ | ⟨m, b, c, hloop, hrun, hrest⟩
      · exact Or.inl ⟨m, b, c, hloop, hrun⟩
      · exact Or.inr ⟨m, b, c, hloop, hrun, hcut.trans hrest⟩

theorem writeFrameInPlace_eq (mux : Mux) (burst : Burst) (frame : Frame) (pcr : Bool) :
    writeFrameInPlace mux burst frame pcr = writeFrame mux burst frame pcr := by
  unfold writeFrameInPlace writeFrame
  cases frame.payload with
  | none => rfl
  | some payload =>
    dsimp only
    by_cases hready : mux.tracksReady = false
    · rw [if_pos hready, if_pos hready]
    rw [if_neg hready, if_neg hready]
    by_cases hslices : burst.slices.length ≥ maxSlices
    · rw [if_pos hslices, if_pos hslices]
    rw [if_neg hslices, if_neg hslices]
    generalize (if decide (frame.mediaType = .audio) = true then mux.conf.audioPid
      else mux.conf.videoPid) = pid
    generalize (if decide (frame.mediaType = .audio) = true then mux.ccAudio
      else mux.ccVideo) = cc
    rcases @pesRun_loop mux burst pid frame.dts cc true pcr
        (pesHeader frame payload.length ++ payload) with
      ⟨m, b, c, hloop, hrun⟩ | ⟨m, b, c, hloop, hrun, hmux, written, hburst⟩
    · rw [hloop, hrun]
      obtain ⟨-, rfl, -, -⟩ := pesLoop_some _ hloop
      rfl
    · rw [hloop, hrun]
      dsimp only
      rw [hmux, hburst, List.take_left]

theorem writeFrame_again {frame : Frame} {pcr : Bool}
    (h : (writeFrame mux burst frame pcr).1 = .again) :
    (writeFrame mux burst frame pcr).2.2 = burst ∧
      ∃ drops, (writeFrame mux burst frame pcr).2.1 = { mux with frameDrops := drops } := by
  unfold writeFrame at h ⊢
  cases hp : frame.payload with
  | none =>
    rw [hp] at h
    cases h
  | some payload =>
    rw [hp] at h
    dsimp only at h ⊢
    by_cases hready : mux.tracksReady = false
    · rw [if_pos hready] at h
      cases h
    rw [if_neg hready] at h ⊢
    by_cases hslices : burst.slices.length ≥ maxSlices
    · rw [if_pos hslices]
      exact ⟨rfl, _, rfl⟩
    rw [if_neg hslices] at h ⊢
    generalize pesLoop _ _ _ _ _ _ _ _ = written at h ⊢
    cases written with
    | none => exact ⟨rfl, _, rfl⟩
    | some r => cases h

/-- So many counters from the given one on. -/
def march (start n : ℕ) : List ℕ := (List.range n).map fun k => (start + k) % 16

def Consecutive (counters : List ℕ) : Prop := counters.IsChain fun a b => b = (a + 1) % 16

theorem march_consecutive (start n : ℕ) : Consecutive (march start n) := by
  unfold Consecutive march
  rw [List.isChain_iff_getElem]
  intro i hi
  rw [List.getElem_map, List.getElem_map, List.getElem_range, List.getElem_range]
  omega

theorem march_congr {start start' : ℕ} (h : start % 16 = start' % 16) (n : ℕ) :
    march start n = march start' n := by
  apply List.map_congr_left
  intro k _
  omega

theorem march_add (start m n : ℕ) : march start (m + n) = march start m ++ march (start + m) n := by
  unfold march
  rw [List.range_add, List.map_append, List.map_map]
  congr 1
  apply List.map_congr_left
  intro k _
  rw [Function.comp_apply, Nat.add_assoc]

theorem march_one (start : ℕ) : march start 1 = [start % 16] := rfl

def pidOfPacket (p : List UInt8) : ℕ := byteAt p 1 % 32 * 256 + byteAt p 2

def hasPayload (p : List UInt8) : Bool := byteAt p 3 / 16 % 2 = 1

def countersOf (pid : ℕ) (packets : List (List UInt8)) : List ℕ :=
  (packets.filter fun p => decide (pidOfPacket p = pid) && hasPayload p).map
    fun p => byteAt p 3 % 16

theorem countersOf_append (pid : ℕ) (packets more : List (List UInt8)) :
    countersOf pid (packets ++ more) = countersOf pid packets ++ countersOf pid more := by
  simp only [countersOf, List.filter_append, List.map_append]

theorem countersOf_packet (pid p cc : ℕ) (pusi : Bool) (payload : List UInt8) (withPcr : Bool)
    (pcrBase : ℤ) :
    countersOf pid [packet p cc pusi payload withPcr pcrBase] =
      if p % 8192 = pid then [cc % 16] else [] := by
  obtain ⟨h1, h2, h3⟩ := TsPackets.byteAt_packet p cc pusi payload withPcr pcrBase
  have hpid : pidOfPacket (packet p cc pusi payload withPcr pcrBase) = p % 8192 := by
    unfold pidOfPacket
    rw [h1, h2]
    split_ifs <;> omega
  have hload : hasPayload (packet p cc pusi payload withPcr pcrBase) = true := by
    unfold hasPayload
    rw [h3, decide_eq_true_eq]
    split_ifs <;> omega
  have hcc : byteAt (packet p cc pusi payload withPcr pcrBase) 3 % 16 = cc % 16 := by
    rw [h3]
    split_ifs <;> omega
  unfold countersOf
  by_cases h : p % 8192 = pid
  · simp [hpid, hload, hcc, h]
  · simp [hpid, h]

theorem countersOf_pes (pid p : ℕ) (dts : ℤ) (cc : ℕ) (first pcr : Bool) (pes : List UInt8) :
    countersOf pid (pesPackets p dts cc first pcr pes) =
      if p % 8192 = pid then march cc (pesPackets p dts cc first pcr pes).length else [] := by
  induction cc, first, pes using pesPackets.induct pcr with
  | case1 cc first =>
    rw [pesPackets_nil]
    split_ifs <;> rfl
  | case2 cc first pes hne ih =>
    rw [pesPackets_cons p dts cc first pcr hne, ← List.singleton_append, countersOf_append,
      countersOf_packet, ih, List.length_append, List.length_singleton]
    split_ifs
    · rw [march_add, march_one]
      exact congrArg _ (march_congr (Nat.mod_mod _ _) _)
    · rfl

def counterAt (mux : Mux) (pid : ℕ) : ℕ :=
  if pid = pidPat then mux.ccPat
  else if pid = mux.conf.pmtPid % 8192 then mux.ccPmt
  else if pid = mux.conf.videoPid % 8192 then mux.ccVideo
  else if pid = mux.conf.audioPid % 8192 then mux.ccAudio
  else 0

/-- The tables and the streams have PIDs of their own. -/
structure Distinct (conf : Conf) : Prop where
  pmt : conf.pmtPid % 8192 ≠ pidPat
  video : conf.videoPid % 8192 ≠ pidPat ∧ conf.videoPid % 8192 ≠ conf.pmtPid % 8192
  audio : conf.audioPid % 8192 ≠ pidPat ∧ conf.audioPid % 8192 ≠ conf.pmtPid % 8192 ∧
    conf.audioPid % 8192 ≠ conf.videoPid % 8192

structure Advances (mux : Mux) (packets : List (List UInt8)) (mux' : Mux) : Prop where
  conf : mux'.conf = mux.conf
  whole : ∀ p ∈ packets, p.length = TsDemux.packetSize ∧ p.head? = some TsDemux.syncByte
  counters : ∀ pid, ∃ n, countersOf pid packets = march (counterAt mux pid) n ∧
    counterAt mux' pid % 16 = (counterAt mux pid + n) % 16

theorem Advances.of_same (h : SameOutput mux mux') : Advances mux [] mux' := by
  refine ⟨h.conf, fun p hp => absurd hp List.not_mem_nil, fun pid => ⟨0, rfl, ?_⟩⟩
  simp only [counterAt, h.conf, h.ccPat, h.ccPmt, h.ccVideo, h.ccAudio, Nat.add_zero]

theorem Advances.trans (h : Advances mux packets mux') (h' : Advances mux' more mux'') :
    Advances mux (packets ++ more) mux'' := by
  refine ⟨h'.conf.trans h.conf, ?_, fun pid => ?_⟩
  · intro p hp
    rcases List.mem_append.mp hp with hp | hp
    · exact h.whole p hp
    · exact h'.whole p hp
  · obtain ⟨m, hm, hnext⟩ := h.counters pid
    obtain ⟨n, hn, hlast⟩ := h'.counters pid
    refine ⟨m + n, ?_, by omega⟩
    rw [countersOf_append, hm, hn, march_add, march_congr hnext]

theorem Advances.of_pid {pid n : ℕ} (hconf : mux'.conf = mux.conf)
    (hwhole : ∀ p ∈ packets, p.length = TsDemux.packetSize ∧ p.head? = some TsDemux.syncByte)
    (hcounters : ∀ other, countersOf other packets =
      if pid = other then march (counterAt mux pid) n else [])
    (hown : counterAt mux' pid % 16 = (counterAt mux pid + n) % 16)
    (hrest : ∀ other, other ≠ pid → counterAt mux' other = counterAt mux other) :
    Advances mux packets mux' := by
  refine ⟨hconf, hwhole, fun other => ?_⟩
  rw [hcounters]
  by_cases h : pid = other
  · subst h
    rw [if_pos rfl]
    exact ⟨n, rfl, hown⟩
  · rw [if_neg h, hrest other (Ne.symm h)]
    exact ⟨0, rfl, rfl⟩

theorem advances_pat (mux : Mux) :
    Advances mux [patPacket mux] { mux with ccPat := (mux.ccPat + 1) % 16 } := by
  apply @Advances.of_pid mux _ _ pidPat 1
  · rfl
  · intro p hp
    rw [List.mem_singleton.mp hp]
    exact tables_whole mux _ List.mem_cons_self
  · intro other
    rw [patPacket, countersOf_packet]
    rfl
  · exact Nat.mod_mod _ _
  · intro other hother
    simp only [counterAt, if_neg hother]

theorem advances_pmt (hd : Distinct mux.conf) :
    Advances mux [pmtPacket mux] { mux with ccPmt := (mux.ccPmt + 1) % 16 } := by
  have hcc : ∀ m : Mux, m.conf = mux.conf → counterAt m (mux.conf.pmtPid % 8192) = m.ccPmt := by
    intro m hm
    rw [counterAt, if_neg hd.pmt, hm, if_pos rfl]
  apply @Advances.of_pid mux _ _ (mux.conf.pmtPid % 8192) 1
  · rfl
  · exact fun p hp => tables_whole mux p (List.mem_cons_of_mem _ hp)
  · intro other
    rw [pmtPacket, countersOf_packet, hcc mux rfl, march_one]
  · rw [hcc mux rfl, hcc { mux with ccPmt := (mux.ccPmt + 1) % 16 } rfl]
    exact Nat.mod_mod _ _
  · intro other hother
    simp only [counterAt, if_neg hother]

theorem counterAt_pidOf (hd : Distinct mux.conf) (mediaType : MediaType) :
    counterAt mux (mux.pidOf mediaType % 8192) = mux.ccOf mediaType := by
  unfold counterAt Mux.pidOf Mux.ccOf
  by_cases ha : mediaType = .audio
  · rw [if_pos ha, if_pos ha, if_neg hd.audio.1, if_neg hd.audio.2.1, if_neg hd.audio.2.2,
      if_pos rfl]
  · rw [if_neg ha, if_neg ha, if_neg hd.video.1, if_neg hd.video.2, if_pos rfl]

theorem advances_frame {frame : Frame} {pcr : Bool} {pes : List UInt8} (hd : Distinct mux.conf)
    (h : Wrote mux burst frame (pesPackets (mux.pidOf frame.mediaType) frame.dts
      (mux.ccOf frame.mediaType) true pcr pes) mux' burst') :
    Advances mux (pesPackets (mux.pidOf frame.mediaType) frame.dts (mux.ccOf frame.mediaType)
      true pcr pes) mux' := by
  have hpid : mux'.pidOf frame.mediaType = mux.pidOf frame.mediaType := by
    simp only [Mux.pidOf, h.conf]
  have hd' : Distinct mux'.conf := h.conf ▸ hd
  have hown := counterAt_pidOf hd frame.mediaType
  have hown' := counterAt_pidOf hd' frame.mediaType
  rw [hpid] at hown'
  apply Advances.of_pid h.conf (pesPackets_whole _ _ _ _ _ _)
  · intro other
    rw [countersOf_pes, hown]
  · rw [hown, hown']
    exact h.own
  · intro other hother
    unfold counterAt
    rw [h.conf, h.ccPat, h.ccPmt]
    by_cases ha : frame.mediaType = .audio
    · have hvideo : mux'.ccVideo = mux.ccVideo := h.other .video (by simp [ha])
      rw [Mux.pidOf, if_pos ha] at hother
      rw [if_neg hother, if_neg hother, hvideo]
    · have haudio : mux'.ccAudio = mux.ccAudio := h.other .audio (by simp [ha])
      rw [Mux.pidOf, if_neg ha] at hother
      rw [if_neg hother, if_neg hother, haudio]

theorem opened_advances (hd : Distinct mux.conf) (ho : Opened mux mux' burst packets) :
    Advances mux packets mux' := by
  cases ho with
  | empty hs => exact Advances.of_same hs
  | pat hs =>
    exact (advances_pat mux).trans (Advances.of_same hs)
  | tables hs =>
    have hpmt := @advances_pmt { mux with ccPat := (mux.ccPat + 1) % 16 } hd
    exact (advances_pat mux).trans (hpmt.trans (Advances.of_same hs))

structure Follows (mux : Mux) (s : Session) (packets : List (List UInt8)) : Prop where
  stream : s.stream = packets.flatten
  advances : Advances mux packets s.mux

variable {s : Session}

theorem Follows.endBurst (h : Follows mux s packets) :
    Follows mux s.endBurst packets ∧ s.endBurst.current = none := by
  unfold Session.endBurst
  cases hc : s.current with
  | none => exact ⟨h, hc⟩
  | some burst =>
    have hstream := h.stream
    rw [Session.stream, hc] at hstream
    have hsame : SameOutput s.mux (burstEnd s.mux burst) := ⟨rfl, rfl, rfl, rfl, rfl, rfl, rfl, rfl⟩
    have hadvances := h.advances.trans (Advances.of_same hsame)
    rw [List.append_nil] at hadvances
    exact ⟨⟨hstream, hadvances⟩, rfl⟩

/-- What `ngx_media_ts_mux_burst_init()` writes goes on from the counters. -/
theorem burstInit_advances (hd : Distinct mux.conf) (capacity : ℕ) :
    ∃ mux' burst packets, burstInit mux capacity true = (mux', some burst) ∧
      burst.bytes = packets.flatten ∧ Advances mux packets mux' := by
  obtain ⟨mux', burst, hinit⟩ := burstInit_some mux capacity
  by_cases hready : mux.tracksReady = true
  · obtain ⟨packets, ho⟩ := burstInit_opened hready hinit
    exact ⟨mux', burst, packets, hinit, (Opened.whole ho).1, opened_advances hd ho⟩
  · refine ⟨mux', burst, [], hinit, ?_⟩
    unfold burstInit at hinit
    dsimp only at hinit
    rw [if_neg (by simp), if_pos (Bool.eq_false_iff.mpr hready)] at hinit
    simp only [Prod.mk.injEq, Option.some.injEq] at hinit
    obtain ⟨rfl, rfl⟩ := hinit
    exact ⟨rfl, Advances.of_same ⟨rfl, rfl, rfl, rfl, rfl, rfl, rfl, rfl⟩⟩

theorem follows_burst (hd : Distinct mux.conf) (h : Follows mux s packets) (capacity : ℕ)
    (allocs : Bool) :
    ∃ more, Follows mux (step s (.burst capacity allocs)) (packets ++ more) := by
  obtain ⟨hend, hnone⟩ := h.endBurst
  have hstream := hend.stream
  rw [Session.stream, hnone] at hstream
  cases allocs with
  | false =>
    refine ⟨[], ?_⟩
    rw [List.append_nil, step_burst (burstInit_failed _ capacity)]
    exact ⟨hstream, hend.advances⟩
  | true =>
    have hd' : Distinct s.endBurst.mux.conf := hend.advances.conf ▸ hd
    obtain ⟨mux', burst, more, hinit, hbytes, hmore⟩ := burstInit_advances hd' capacity
    rw [step_burst hinit]
    refine ⟨more, ?_, hend.advances.trans hmore⟩
    rw [List.flatten_append, ← hstream, ← hbytes]
    rfl

theorem follows_frame (hd : Distinct mux.conf) (h : Follows mux s packets) (f : Frame)
    (pcr : Bool) : ∃ more, Follows mux (step s (.frame f pcr)) (packets ++ more) := by
  cases hc : s.current with
  | none =>
    refine ⟨[], ?_⟩
    have hstep : step s (.frame f pcr) = s := by simp only [step, hc]
    rw [hstep, List.append_nil]
    exact h
  | some burst =>
    have hstream := h.stream
    rw [Session.stream, hc] at hstream
    have hd' : Distinct s.mux.conf := h.advances.conf ▸ hd
    -- a call that leaves the burst leaves the stream
    have hkept : ∀ rc mux', writeFrame s.mux burst f pcr = (rc, mux', burst) →
        SameOutput s.mux mux' → Follows mux (step s (.frame f pcr)) packets := by
      intro rc mux' hw hsame
      rw [step_frame hc hw]
      have hadvances := h.advances.trans (Advances.of_same hsame)
      rw [List.append_nil] at hadvances
      exact ⟨hstream, hadvances⟩
    cases hw : writeFrame s.mux burst f pcr with
    | mk rc rest =>
      obtain ⟨mux', burst'⟩ := rest
      by_cases hidle : f.payload = none ∨ s.mux.tracksReady = false
      · have hsame : writeFrame s.mux burst f pcr = (.ok, s.mux, burst) := by
          unfold writeFrame
          rcases hidle with hnone | hready
          · rw [hnone]
          · cases f.payload with
            | none => rfl
            | some payload => exact if_pos hready
        exact ⟨[], by rw [List.append_nil]; exact hkept _ _ hsame (SameOutput.refl _)⟩
      · push Not at hidle
        obtain ⟨data, hdata⟩ := Option.ne_none_iff_exists'.mp hidle.1
        have hready : s.mux.tracksReady = true := by simpa using hidle.2
        rcases writeFrame_spec hready hdata hw with ⟨rfl, hwrote⟩ | ⟨rfl, rfl, hsame⟩
        · refine ⟨pesPackets (s.mux.pidOf f.mediaType) f.dts (s.mux.ccOf f.mediaType) true pcr
            (pesHeader f data.length ++ data), ?_, h.advances.trans ?_⟩
          · rw [step_frame hc hw, List.flatten_append, ← hstream, List.append_assoc, ← hwrote.bytes]
            rfl
          · rw [step_frame hc hw]
            exact advances_frame hd' hwrote
        · exact ⟨[], by rw [List.append_nil]; exact hkept _ _ hw hsame⟩

theorem follows_run (hd : Distinct mux.conf) (calls : List Call) :
    ∀ {s packets}, Follows mux s packets →
      ∃ packets', Follows mux (calls.foldl step s) packets' := by
  induction calls with
  | nil => exact fun h => ⟨_, h⟩
  | cons call rest ih =>
    intro s packets h
    cases call with
    | burst capacity allocs =>
      obtain ⟨more, hmore⟩ := follows_burst hd h capacity allocs
      exact ih hmore
    | frame f pcr =>
      obtain ⟨more, hmore⟩ := follows_frame hd h f pcr
      exact ih hmore

/-- A frame that does not fit leaves the burst, the counters and the packet counts; and over
any calls the stream is whole packets, of which each PID's count up. -/
theorem continuity_unbroken (hd : Distinct mux.conf) :
    (∀ mux burst frame pcr,
      writeFrameInPlace mux burst frame pcr = writeFrame mux burst frame pcr ∧
      ((writeFrameInPlace mux burst frame pcr).1 = .again →
        (writeFrameInPlace mux burst frame pcr).2.2 = burst ∧
        ∃ drops, (writeFrameInPlace mux burst frame pcr).2.1 =
          { mux with frameDrops := drops })) ∧
    ∀ calls : List Call, ∃ packets,
      (calls.foldl step (Session.start mux)).stream = packets.flatten ∧
      (∀ p ∈ packets, p.length = packetBytes ∧ p.head? = some TsDemux.syncByte) ∧
      ∀ pid, Consecutive (countersOf pid packets) := by
  constructor
  · intro mux burst frame pcr
    rw [writeFrameInPlace_eq]
    exact ⟨rfl, writeFrame_again⟩
  · intro calls
    have hstart : Follows mux (Session.start mux) [] :=
      ⟨rfl, Advances.of_same (SameOutput.refl mux)⟩
    obtain ⟨packets, hfollows⟩ := follows_run hd calls hstart
    refine ⟨packets, hfollows.stream, hfollows.advances.whole, fun pid => ?_⟩
    obtain ⟨n, hn, -⟩ := hfollows.advances.counters pid
    rw [hn]
    exact march_consecutive _ n

theorem pairMux_distinct : Distinct pairMux.conf := by
  have hconf : pairMux.conf = confDefault := rfl
  rw [hconf]
  exact ⟨by decide, by decide, by decide⟩

/-- The default PIDs, and a frame that is written again to the burst after the one it did not
fit in. -/
theorem continuity_unbroken_pair :
    ∃ packets, ([Call.burst 564 true, .frame (videoFrame 7) true, .frame (videoFrame 8) true,
        .burst 0 true, .frame (videoFrame 8) true].foldl step (Session.start pairMux)).stream =
          packets.flatten ∧
      ∀ pid, Consecutive (countersOf pid packets) := by
  obtain ⟨packets, hstream, -, hcounters⟩ := (continuity_unbroken pairMux_distinct).2 _
  exact ⟨packets, hstream, hcounters⟩

end TsContinuity
