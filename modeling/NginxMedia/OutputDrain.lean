import NginxMedia.MediaFeed
import NginxMedia.TsTables

/-! The output drain of `ngx_media_runtime.c`: it reads the programme feed in batches under the
budget of a visit, writes each frame to the muxer and hands every burst to the consumers. The
bursts handed over are a history. -/
namespace OutputDrain

open MediaTypes TsMux

def visitMaxFrames : ℕ := 64
def visitMaxBytes : ℕ := 4 * 1024 * 1024
def visitMaxMs : ℕ := 2
def batchUnits : ℕ := 64
def batchBytes : ℕ := 512 * 1024
def burstBytes : ℕ := 256 * 1024

structure Budget where
  frames : ℕ
  bytes : ℕ
  started : ℕ
  exhausted : Bool
  deriving DecidableEq, Repr

def budgetReady (budget : Budget) (clock : ℕ) : Budget × Bool :=
  if budget.frames ≥ visitMaxFrames ∨ budget.bytes ≥ visitMaxBytes ∨
      (budget.frames > 0 ∧ wrapSub clock budget.started ≥ visitMaxMs) then
    ({ budget with exhausted := true }, false)
  else (budget, true)

def budgetAccount (budget : Budget) (frames : List Frame) : Budget :=
  { budget with
    frames := budget.frames + frames.length
    bytes := budget.bytes + (frames.map Frame.size).sum }

/-- The part of `ngx_media_runtime_outputs_t` that the drain works on: the muxer, the track set
it was last given, the burst being filled and the place in the programme feed. -/
structure Outputs where
  mux : Mux
  tracks : Option ℕ
  burst : Option Burst
  cursor : MediaFeed.Cursor
  frames : ℕ
  bursts : ℕ
  handed : List Burst

abbrev Active := Option (ℕ × TrackSet)

def takeTracks (out : Outputs) (active : Active) : Outputs :=
  match active with
  | none => out
  | some (pointer, tracks) =>
    if out.tracks = some pointer then out
    else
      match setTracks out.mux tracks with
      | (mux, .ok) => { out with mux, tracks := some pointer }
      | (mux, _) => { out with mux }

def openBurst (out : Outputs) : Outputs :=
  match burstInit out.mux burstBytes true with
  | (mux, burst) => { out with mux, burst }

def outputsFlush (out : Outputs) : Outputs :=
  match out.burst with
  | none => out
  | some burst =>
    { out with
      mux := burstEnd out.mux burst
      handed := if burst.bytes.length > 0 then out.handed ++ [burst] else out.handed
      bursts := out.bursts + 1
      burst := none }

def retryFrame (out : Outputs) (frame : Frame) : Outputs :=
  match out.burst with
  | none => out
  | some burst =>
    match writeFrame out.mux burst frame false with
    | (_, mux, burst) => { out with mux, burst := some burst, frames := out.frames + 1 }

def putFrame (out : Outputs) (frame : Frame) : Outputs :=
  match out.burst with
  | none => { out with frames := out.frames + 1 }
  | some burst =>
    match writeFrame out.mux burst frame false with
    | (.again, mux, burst) =>
      retryFrame (openBurst (outputsFlush { out with mux, burst := some burst })) frame
    | (_, mux, burst) => { out with mux, burst := some burst, frames := out.frames + 1 }

def putBatch (out : Outputs) (active : Active) (frames : List Frame) : Outputs :=
  let out := takeTracks out active
  let out := if out.burst = none then openBurst out else out
  outputsFlush (frames.foldl putFrame out)

/-- The programme feed with its drain. What was published, where the drain began, which units it
wrote to a muxer that has its tracks and whether it lost its place are a history. -/
structure Programme where
  feed : MediaFeed.Feed
  out : Outputs
  published : List MediaFeed.Slot
  start : ℕ
  got : List ℕ
  lapsed : Bool

def outputsDrain (active : Active) (now : ℕ) :
    List ℕ → Programme → Budget → Programme × Budget
  | [], p, budget => (p, budget)
  | clock :: clocks, p, budget =>
    match budgetReady budget clock with
    | (budget, false) => (p, budget)
    | (budget, true) =>
      let maxUnits := min batchUnits (visitMaxFrames - budget.frames)
      let maxBytes := min batchBytes (visitMaxBytes - budget.bytes)
      if maxUnits = 0 ∨ maxBytes = 0 then (p, { budget with exhausted := true })
      else
        let r := MediaFeed.read p.feed p.out.cursor maxUnits maxBytes now
        match r.status with
        | .batch =>
          outputsDrain active now clocks
            { p with
              feed := r.feed
              out := putBatch { p.out with cursor := r.cursor } active r.frames
              got := if (takeTracks p.out active).mux.tracksReady then
                p.got ++ List.range' p.out.cursor.nextSequence r.frames.length else p.got }
            (budgetAccount budget r.frames)
        | .empty => ({ p with feed := r.feed }, budget)
        | .overrun | .generationMismatch =>
          let cursor := (MediaFeed.resync r.feed r.cursor MediaFeed.resyncKeyframe).1
          outputsDrain active now clocks
            { p with feed := r.feed, out := { p.out with cursor }, lapsed := true } budget

inductive Call where
  | publish (frame : Frame) (now : ℕ)
  | visit (active : Active) (budget : Budget) (clocks : List ℕ) (now : ℕ)
  deriving DecidableEq, Repr

def step (p : Programme) : Call → Programme
  | .publish frame now =>
    match MediaFeed.publish p.feed frame now with
    | (feed, .ok) => { p with feed, published := p.published ++ [⟨frame, now⟩] }
    | (feed, _) => { p with feed }
  | .visit active budget clocks now => (outputsDrain active now clocks p budget).1

def initial (feed : MediaFeed.Feed) (mux : Mux) : Programme :=
  ⟨feed, ⟨mux, none, none, MediaFeed.cursorInit feed, 0, 0, []⟩, [], feed.head, [], false⟩

def run (p : Programme) (calls : List Call) : Programme := calls.foldl step p

def Programme.read (p : Programme) : List Frame :=
  MediaFeed.framesBetween p.published p.start p.out.cursor.nextSequence

def Programme.aired (p : Programme) : List Frame :=
  p.got.filterMap fun n => (p.published[n]?).map MediaFeed.Slot.frame

def carried (bursts : List Burst) : List (List UInt8 × Slice) :=
  bursts.flatMap fun burst => burst.slices.map fun slice => (burst.bytes, slice)

def Carries (place : List UInt8 × Slice) (frame : Frame) : Prop :=
  place.2.pts = frame.pts ∧ place.2.dts = frame.dts ∧ place.2.mediaType = frame.mediaType ∧
    place.2.codec = frame.codec ∧ place.2.keyframe = frame.keyframe ∧
    ∃ payload cc, frame.payload = some payload ∧
      (place.1.drop place.2.offset).take place.2.len =
        (pesPackets ((muxInit confDefault).pidOf frame.mediaType) frame.dts cc true false
          (pesHeader frame payload.length ++ payload)).flatten

/-- Each frame that was read has its slice, in order, and there are no others. -/
def Delivered (p : Programme) : Prop := List.Forall₂ Carries (carried p.out.handed) p.read

def packetCount (n : ℕ) : ℕ := (n + (payloadBytes - 1)) / payloadBytes

def frameBytes (frame : Frame) : ℕ :=
  packetBytes * packetCount ((if frame.pts = frame.dts then 14 else 19) + frame.size)

/-- The frame goes into a burst that holds the program tables and nothing else. -/
def fits (frame : Frame) : Bool :=
  frame.payload.isSome ∧ 2 * packetBytes + frameBytes frame ≤ burstBytes

theorem packetCount_cons {n : ℕ} (h : 0 < n) :
    packetCount n = packetCount (n - payloadCapacity n false) + 1 := by
  unfold packetCount payloadCapacity payloadBytes
  dsimp only
  simp only [Bool.false_eq_true, if_false]
  split_ifs <;> omega

theorem pesPackets_size (pid : ℕ) (dts : ℤ) (cc : ℕ) (first : Bool) (pes : List UInt8) :
    (pesPackets pid dts cc first false pes).flatten.length =
      packetBytes * packetCount pes.length := by
  induction cc, first, pes using pesPackets.induct false with
  | case1 cc first => simp [pesPackets_nil, packetCount, payloadBytes]
  | case2 cc first pes hne ih =>
    have hpos := List.length_pos_iff.mpr hne
    rw [pesPackets_cons pid dts cc first false hne, List.flatten_cons, List.length_append,
      packet_length _ _ _ _ (take_loads pes _), ih, List.length_drop, Bool.and_false,
      packetCount_cons hpos, Nat.mul_add, Nat.mul_one, Nat.add_comm]

theorem pesLoop_none {mux : Mux} {burst : Burst} {pid cc : ℕ} {dts : ℤ} {first : Bool}
    (pes : List UInt8) (hle : burst.bytes.length ≤ burst.capacity) :
    pesLoop mux burst pid dts cc first false pes = none ↔
      burst.capacity < burst.bytes.length + packetBytes * packetCount pes.length := by
  induction cc, first, pes using pesPackets.induct false generalizing mux burst with
  | case1 cc first =>
    rw [pesLoop, dif_pos rfl]
    simp only [reduceCtorEq, List.length_nil, packetCount, payloadBytes, false_iff]
    omega
  | case2 cc first pes hne ih =>
    have hpos := List.length_pos_iff.mpr hne
    have hcount := packetCount_cons hpos
    rw [pesLoop, dif_neg hne]
    dsimp only
    cases hp : muxPacket mux burst pid cc first
        (pes.take (payloadCapacity pes.length (first && false))) (first && false) dts with
    | none =>
      have hfull : burst.capacity - burst.bytes.length < packetBytes := by
        by_contra hroom
        simp [muxPacket, hroom] at hp
      simp only [true_iff]
      rw [hcount, Nat.mul_add]
      omega
    | some r =>
      obtain ⟨mux₁, burst₁, cc₁⟩ := r
      obtain ⟨-, rfl, rfl, hroom⟩ := muxPacket_some hp
      have hlen : (packet pid cc first (pes.take (payloadCapacity pes.length (first && false)))
          (first && false) dts).length = packetBytes :=
        packet_length _ _ _ _ (take_loads pes _)
      have hrest := @ih mux₁ { burst with
        bytes := burst.bytes ++ packet pid cc first
          (pes.take (payloadCapacity pes.length (first && false))) (first && false) dts }
        (by rw [List.length_append, hlen]; omega)
      dsimp only
      rw [hrest]
      dsimp only
      rw [List.length_append, hlen, List.length_drop, Bool.and_false, hcount, Nat.mul_add]
      omega

structure Filling (burst : Burst) : Prop where
  capacity : burst.capacity = burstBytes
  tables : 2 * packetBytes ≤ burst.bytes.length
  room : burst.bytes.length ≤ burst.capacity
  slices : ∀ slice ∈ burst.slices, slice.offset + slice.len ≤ burst.bytes.length

structure Ready (mux : Mux) : Prop where
  conf : mux.conf = (muxInit confDefault).conf
  tracks : mux.tracksReady = true

theorem Ready.same {mux mux' : Mux} (h : Ready mux) (hs : SameOutput mux mux') : Ready mux' :=
  ⟨hs.conf.trans h.conf, hs.tracksReady.trans h.tracks⟩

theorem setTracks_kept (mux : Mux) (tracks : TrackSet) :
    (setTracks mux tracks).1.conf = mux.conf ∧
      (mux.tracksReady = true → (setTracks mux tracks).1.tracksReady = true) := by
  unfold setTracks
  dsimp only
  split_ifs
  · exact ⟨rfl, id⟩
  · exact ⟨rfl, fun _ => rfl⟩

theorem initial_ready {tracks : TrackSet} {mux : Mux}
    (h : setTracks (muxInit confDefault) tracks = (mux, .ok)) : Ready mux := by
  unfold setTracks at h
  dsimp only at h
  split_ifs at h
  · cases h
  · obtain rfl := (Prod.mk.inj h).1
    exact ⟨rfl, rfl⟩

theorem patPacket_length (mux : Mux) : (patPacket mux).length = packetBytes :=
  packet_length _ _ _ _ (TsTables.sectionPayload_loads (TsTables.muxPat_section mux))

theorem burstTables_room (mux : Mux) {given : ℕ} (h : 2 * packetBytes ≤ given) :
    ∃ mux' burst, burstTables mux ⟨[], given, 0, []⟩ = (mux', burst) ∧
      mux'.conf = mux.conf ∧ mux'.tracksReady = mux.tracksReady ∧ burst.capacity = given ∧
      burst.bytes.length = 2 * packetBytes ∧ burst.slices = [] := by
  unfold burstTables
  obtain ⟨mux₁, hm₁, hs₁⟩ := @muxSection_room mux ⟨[], given, 0, []⟩ pidPat mux.ccPat
    (muxPat mux) (by simp only [List.length_nil]; omega)
  have hpat : ([] ++ packet pidPat mux.ccPat true (sectionPayload (muxPat mux)) false 0).length =
      packetBytes := patPacket_length mux
  rw [hm₁]
  dsimp only
  obtain ⟨mux₂, hm₂, hs₂⟩ := @muxSection_room { mux₁ with ccPat := (mux.ccPat + 1) % 16 }
    ⟨[] ++ packet pidPat mux.ccPat true (sectionPayload (muxPat mux)) false 0, given, 0, []⟩
    mux₁.conf.pmtPid mux₁.ccPmt (muxPmt { mux₁ with ccPat := (mux.ccPat + 1) % 16 })
    (by rw [hpat]; dsimp only; omega)
  rw [hm₂]
  refine ⟨_, _, rfl, hs₂.conf.trans hs₁.conf, hs₂.tracksReady.trans hs₁.tracksReady, rfl, ?_, rfl⟩
  have hpmt := packet_length mux₁.conf.pmtPid mux₁.ccPmt true 0
    (TsTables.sectionPayload_loads
      (TsTables.muxPmt_section { mux₁ with ccPat := (mux.ccPat + 1) % 16 }))
  dsimp only
  rw [List.length_append, hpat, hpmt]
  omega

theorem burstInit_fresh {mux : Mux} (h : Ready mux) :
    ∃ mux' burst, burstInit mux burstBytes true = (mux', some burst) ∧ Ready mux' ∧
      Filling burst ∧ burst.bytes.length = 2 * packetBytes ∧ burst.slices = [] := by
  obtain ⟨mux', burst, htables, hconf, hready, hcapacity, hlen, hslices⟩ :=
    @burstTables_room { mux with bursts := mux.bursts + 1 } burstBytes (by decide)
  refine ⟨mux', burst, ?_, ⟨hconf.trans h.conf, hready.trans h.tracks⟩, ?_, hlen, hslices⟩
  · have hmax : ¬ burstBytes > mux.conf.maxBurstBytes := by
      rw [h.conf]
      decide
    unfold burstInit
    dsimp only
    rw [if_neg (show ¬ burstBytes = 0 by decide), if_neg (by simp), if_neg hmax,
      if_neg (by simp [h.tracks]), htables]
  · constructor
    · exact hcapacity
    · exact hlen.ge
    · rw [hlen, hcapacity]
      decide
    · simp [hslices]

theorem Carries.more {bytes : List UInt8} {slice : Slice} {frame : Frame}
    (h : Carries (bytes, slice) frame) (hroom : slice.offset + slice.len ≤ bytes.length)
    (more : List UInt8) : Carries (bytes ++ more, slice) frame := by
  obtain ⟨hpts, hdts, htype, hcodec, hkey, payload, cc, hpayload, hbytes⟩ := h
  refine ⟨hpts, hdts, htype, hcodec, hkey, payload, cc, hpayload, ?_⟩
  dsimp only at hbytes ⊢
  rw [List.drop_append_of_le_length (by omega), List.take_append_of_le_length
    (by rw [List.length_drop]; omega)]
  exact hbytes

structure Written (burst burst' : Burst) (frame : Frame) : Prop where
  grown : ∃ more, burst'.bytes = burst.bytes ++ more ∧ more.length = frameBytes frame
  capacity : burst'.capacity = burst.capacity
  sliced : ∃ slice, burst'.slices = burst.slices ++ [slice] ∧ slice.offset = burst.bytes.length ∧
    slice.len = frameBytes frame ∧ Carries (burst'.bytes, slice) frame

def Room (burst : Burst) (frame : Frame) : Prop :=
  burst.slices.length < maxSlices ∧ burst.bytes.length + frameBytes frame ≤ burst.capacity

theorem writeFrame_outcome {mux : Mux} {burst : Burst} {frame : Frame} {payload : Payload}
    (hm : Ready mux) (hpayload : frame.payload = some payload)
    (hroom : burst.bytes.length ≤ burst.capacity) :
    (∃ mux' burst', writeFrame mux burst frame false = (.ok, mux', burst') ∧ Ready mux' ∧
      Written burst burst' frame ∧ Room burst frame) ∨
    (∃ mux', writeFrame mux burst frame false = (.again, mux', burst) ∧ Ready mux' ∧
      ¬Room burst frame) := by
  have hsize : (pesHeader frame payload.length ++ payload).length =
      (if frame.pts = frame.dts then 14 else 19) + frame.size := by
    rw [List.length_append, pesHeader_length, Frame.size, hpayload, bufSize_some]
  have hready := hm.tracks
  unfold writeFrame
  rw [hpayload]
  dsimp only
  rw [if_neg (by simp [hready])]
  by_cases hslices : burst.slices.length ≥ maxSlices
  · right
    rw [if_pos hslices]
    exact ⟨mux, rfl, hm, fun h => absurd h.1 (Nat.not_lt_of_le hslices)⟩
  · rw [if_neg hslices]
    have hpid : (if decide (frame.mediaType = .audio) = true then mux.conf.audioPid
        else mux.conf.videoPid) = (muxInit confDefault).pidOf frame.mediaType := by
      simp [Mux.pidOf, hm.conf]
    obtain ⟨cc₀, hcc⟩ : ∃ cc, cc =
        if decide (frame.mediaType = .audio) = true then mux.ccAudio else mux.ccVideo := ⟨_, rfl⟩
    rw [hpid, ← hcc]
    have hnone := @pesLoop_none mux burst ((muxInit confDefault).pidOf frame.mediaType) cc₀
      frame.dts true (pesHeader frame payload.length ++ payload) hroom
    rw [hsize] at hnone
    cases hl : pesLoop mux burst ((muxInit confDefault).pidOf frame.mediaType) frame.dts cc₀ true
        false (pesHeader frame payload.length ++ payload) with
    | none =>
      right
      exact ⟨_, rfl, ⟨hm.conf, hm.tracks⟩, fun h => absurd h.2 (Nat.not_le_of_lt (hnone.mp hl))⟩
    | some r =>
      obtain ⟨next, full, cc⟩ := r
      obtain ⟨hsame, rfl, -, -⟩ := pesLoop_some _ hl
      left
      have hbytes := pesPackets_size ((muxInit confDefault).pidOf frame.mediaType) frame.dts cc₀
        true (pesHeader frame payload.length ++ payload)
      rw [hsize] at hbytes
      refine ⟨_, _, rfl, ⟨(hm.same hsame).conf, (hm.same hsame).tracks⟩, ?_, ?_⟩
      · constructor
        · exact ⟨_, rfl, hbytes⟩
        · rfl
        · refine ⟨_, rfl, rfl, ?_, rfl, rfl, rfl, rfl, rfl, payload, cc₀, hpayload, ?_⟩
          · dsimp only
            rw [List.length_append, hbytes, Nat.add_sub_cancel_left]
            rfl
          · dsimp only
            rw [List.drop_left, List.length_append, Nat.add_sub_cancel_left, List.take_length]
      · refine ⟨Nat.lt_of_not_le hslices, ?_⟩
        by_contra hfull
        have := hnone.mpr (Nat.lt_of_not_le hfull)
        rw [hl] at this
        cases this

theorem Written.filling {burst burst' : Burst} {frame : Frame} (h : Written burst burst' frame)
    (hf : Filling burst) (hroom : burst.bytes.length + frameBytes frame ≤ burst.capacity) :
    Filling burst' := by
  obtain ⟨more, hbytes, hmore⟩ := h.grown
  obtain ⟨slice, hslices, hoffset, hlen, -⟩ := h.sliced
  have htables := hf.tables
  constructor
  · rw [h.capacity, hf.capacity]
  · rw [hbytes, List.length_append]
    omega
  · rw [hbytes, List.length_append, h.capacity, hmore]
    exact hroom
  · intro other hother
    rw [hslices] at hother
    rw [hbytes, List.length_append, hmore]
    rcases List.mem_append.mp hother with hother | hother
    · have := hf.slices other hother
      omega
    · rw [List.mem_singleton.mp hother]
      omega

theorem carried_append (bursts more : List Burst) :
    carried (bursts ++ more) = carried bursts ++ carried more := by
  simp [carried]

theorem carried_one (burst : Burst) :
    carried [burst] = burst.slices.map fun slice => (burst.bytes, slice) := by
  simp [carried]

def Holds (bursts : List Burst) (frames : List Frame) : Prop :=
  List.Forall₂ Carries (carried bursts) (frames.filter fits)

theorem holds_nil : Holds [] [] := List.Forall₂.nil

theorem Holds.skip {bursts : List Burst} {frames : List Frame} (h : Holds bursts frames)
    {frame : Frame} (hf : fits frame = false) : Holds bursts (frames ++ [frame]) := by
  unfold Holds
  rw [List.filter_append, List.filter_cons_of_neg (by simp [hf]), List.filter_nil, List.append_nil]
  exact h

theorem Holds.fresh {bursts : List Burst} {frames : List Frame} (h : Holds bursts frames)
    {burst : Burst} (hslices : burst.slices = []) : Holds (bursts ++ [burst]) frames := by
  unfold Holds
  rw [carried_append, carried_one, hslices, List.map_nil, List.append_nil]
  exact h

theorem forall₂_map_imp {α β γ : Type*} {R : α → β → Prop} {as : List α} {cs : List γ} {bs : List β}
    {f g : γ → α} (hfg : ∀ c ∈ cs, ∀ b, R (f c) b → R (g c) b)
    (h : List.Forall₂ R (as ++ cs.map f) bs) : List.Forall₂ R (as ++ cs.map g) bs := by
  induction as generalizing bs with
  | cons a as ih =>
    cases h with
    | cons hab hrest => exact List.Forall₂.cons hab (ih hrest)
  | nil =>
    induction cs generalizing bs with
    | nil => exact h
    | cons c cs ih =>
      cases h with
      | cons hcb hrest =>
        exact List.Forall₂.cons (hfg c List.mem_cons_self _ hcb)
          (ih (fun d hd => hfg d (List.mem_cons_of_mem _ hd)) hrest)

theorem Holds.write {bursts : List Burst} {frames : List Frame} {burst burst' : Burst}
    {frame : Frame} (h : Holds (bursts ++ [burst]) frames) (hw : Written burst burst' frame)
    (hb : Filling burst) (hf : fits frame = true) :
    Holds (bursts ++ [burst']) (frames ++ [frame]) := by
  obtain ⟨more, hbytes, -⟩ := hw.grown
  obtain ⟨slice, hslices, -, -, hcarries⟩ := hw.sliced
  unfold Holds at h ⊢
  rw [carried_append, carried_one] at h ⊢
  rw [hslices, List.map_append, ← List.append_assoc, List.filter_append,
    List.filter_cons_of_pos hf, List.filter_nil]
  refine List.rel_append (forall₂_map_imp ?_ h) (List.Forall₂.cons hcarries List.Forall₂.nil)
  intro other hother read hcarried
  rw [hbytes]
  exact hcarried.more (hb.slices other hother) more

structure Midway (out : Outputs) (frames : List Frame) : Prop where
  ready : Ready out.mux
  filling : ∃ burst, out.burst = some burst ∧ Filling burst ∧ Holds (out.handed ++ [burst]) frames

theorem openBurst_midway {out : Outputs} {frames : List Frame} (hm : Ready out.mux)
    (h : Holds out.handed frames) :
    Midway (openBurst out) frames ∧ (openBurst out).cursor = out.cursor ∧
      ∃ burst, (openBurst out).burst = some burst ∧ Filling burst ∧ burst.slices = [] ∧
        burst.bytes.length = 2 * packetBytes ∧ Holds ((openBurst out).handed ++ [burst]) frames := by
  obtain ⟨mux, burst, hinit, hready, hfilling, hlen, hslices⟩ := burstInit_fresh hm
  have hopen : openBurst out = { out with mux, burst := some burst } := by
    simp only [openBurst, hinit]
  rw [hopen]
  exact ⟨⟨hready, burst, rfl, hfilling, h.fresh hslices⟩, rfl, burst, rfl, hfilling, hslices, hlen,
    h.fresh hslices⟩

theorem outputsFlush_holds {out : Outputs} {frames : List Frame} (h : Midway out frames) :
    Ready (outputsFlush out).mux ∧ (outputsFlush out).burst = none ∧
      (outputsFlush out).cursor = out.cursor ∧ Holds (outputsFlush out).handed frames := by
  obtain ⟨burst, hburst, hfilling, hholds⟩ := h.filling
  have hpos : burst.bytes.length > 0 := by
    have := hfilling.tables
    unfold packetBytes at this
    omega
  simp only [outputsFlush, hburst, if_pos hpos]
  exact ⟨⟨h.ready.conf, h.ready.tracks⟩, trivial, trivial, hholds⟩

theorem fits_eq {frame : Frame} {payload : Payload} (h : frame.payload = some payload) :
    fits frame = decide (2 * packetBytes + frameBytes frame ≤ burstBytes) := by
  simp [fits, h]

theorem retryFrame_midway {out : Outputs} {frames : List Frame} {frame : Frame} {payload : Payload}
    (hm : Ready out.mux) (h : Holds out.handed frames) (hpayload : frame.payload = some payload) :
    Midway (retryFrame (openBurst out) frame) (frames ++ [frame]) ∧
      (retryFrame (openBurst out) frame).cursor = out.cursor := by
  obtain ⟨hmid, hcursor, burst, hburst, hfilling, hslices, hlen, hholds⟩ := openBurst_midway hm h
  have hfits := fits_eq hpayload
  rw [← hlen, ← hfilling.capacity] at hfits
  unfold retryFrame
  rw [hburst]
  dsimp only
  rcases writeFrame_outcome hmid.ready hpayload hfilling.room with
    ⟨mux, burst', hwrite, hready, hwritten, -, hroom⟩ | ⟨mux, hwrite, hready, hfull⟩
  · rw [hwrite]
    refine ⟨⟨hready, burst', rfl, hwritten.filling hfilling hroom, ?_⟩, hcursor⟩
    exact hholds.write hwritten hfilling (by rw [hfits]; exact decide_eq_true hroom)
  · rw [hwrite]
    refine ⟨⟨hready, burst, rfl, hfilling, ?_⟩, hcursor⟩
    refine hholds.skip ?_
    rw [hfits]
    refine decide_eq_false fun hroom => hfull ⟨?_, hroom⟩
    rw [hslices]
    decide

theorem putFrame_midway {out : Outputs} {frames : List Frame} (h : Midway out frames)
    (frame : Frame) :
    Midway (putFrame out frame) (frames ++ [frame]) ∧
      (putFrame out frame).cursor = out.cursor := by
  obtain ⟨burst, hburst, hfilling, hholds⟩ := h.filling
  unfold putFrame
  rw [hburst]
  dsimp only
  cases hpayload : frame.payload with
  | none =>
    have hwrite : writeFrame out.mux burst frame false = (.ok, out.mux, burst) := by
      simp [writeFrame, hpayload]
    rw [hwrite]
    exact ⟨⟨h.ready, burst, rfl, hfilling, hholds.skip (by simp [fits, hpayload])⟩, rfl⟩
  | some payload =>
    rcases writeFrame_outcome h.ready hpayload hfilling.room with
      ⟨mux, burst', hwrite, hready, hwritten, -, hroom⟩ | ⟨mux, hwrite, hready, -⟩
    · rw [hwrite]
      refine ⟨⟨hready, burst', rfl, hwritten.filling hfilling hroom, ?_⟩, rfl⟩
      apply hholds.write hwritten hfilling
      rw [fits_eq hpayload]
      have htables := hfilling.tables
      rw [hfilling.capacity] at hroom
      exact decide_eq_true (by omega)
    · rw [hwrite]
      have hagain : Midway { out with mux, burst := some burst } frames :=
        ⟨hready, burst, rfl, hfilling, hholds⟩
      obtain ⟨hm, -, hcursor, hflushed⟩ := outputsFlush_holds hagain
      obtain ⟨hmid, hsame⟩ := retryFrame_midway hm hflushed hpayload
      exact ⟨hmid, hsame.trans hcursor⟩

theorem putFrames_midway {out : Outputs} {before : List Frame} (h : Midway out before)
    (frames : List Frame) :
    Midway (frames.foldl putFrame out) (before ++ frames) ∧
      (frames.foldl putFrame out).cursor = out.cursor := by
  induction frames generalizing out before with
  | nil => simpa using h
  | cons frame rest ih =>
    obtain ⟨hmid, hcursor⟩ := putFrame_midway h frame
    obtain ⟨hrest, hsame⟩ := ih hmid
    rw [List.append_cons]
    exact ⟨hrest, hsame.trans hcursor⟩

structure Drained (out : Outputs) (frames : List Frame) : Prop where
  conf : out.mux.conf = (muxInit confDefault).conf
  closed : out.burst = none
  holds : Holds out.handed frames

theorem takeTracks_drained {out : Outputs} {frames : List Frame} (h : Drained out frames)
    (active : Active) :
    Drained (takeTracks out active) frames ∧ (takeTracks out active).cursor = out.cursor ∧
      (out.mux.tracksReady = true → (takeTracks out active).mux.tracksReady = true) := by
  unfold takeTracks
  cases active with
  | none => exact ⟨h, rfl, id⟩
  | some source =>
    obtain ⟨pointer, tracks⟩ := source
    dsimp only
    by_cases hsame : out.tracks = some pointer
    · rw [if_pos hsame]
      exact ⟨h, rfl, id⟩
    · obtain ⟨hconf, hready⟩ := setTracks_kept out.mux tracks
      rw [if_neg hsame]
      rcases hset : setTracks out.mux tracks with ⟨mux, rc⟩
      rw [hset] at hconf hready
      cases rc <;> exact ⟨⟨hconf.trans h.conf, h.closed, h.holds⟩, rfl, hready⟩

theorem putBatch_ready {out : Outputs} {before : List Frame} (h : Drained out before)
    {active : Active} (hready : (takeTracks out active).mux.tracksReady = true)
    (frames : List Frame) :
    Drained (putBatch out active frames) (before ++ frames) ∧
      (putBatch out active frames).cursor = out.cursor ∧
      (putBatch out active frames).mux.tracksReady = true := by
  obtain ⟨htaken, hcursor, -⟩ := takeTracks_drained h active
  obtain ⟨hmid, hopened, -⟩ := openBurst_midway ⟨htaken.conf, hready⟩ htaken.holds
  obtain ⟨hwritten, hkept⟩ := putFrames_midway hmid frames
  obtain ⟨hm, hclosed, hsame, hholds⟩ := outputsFlush_holds hwritten
  unfold putBatch
  dsimp only
  rw [if_pos htaken.closed]
  exact ⟨⟨hm.conf, hclosed, hholds⟩, hsame.trans (hkept.trans (hopened.trans hcursor)), hm.tracks⟩

structure Silent (out out' : Outputs) : Prop where
  conf : out'.mux.conf = out.mux.conf
  tracks : out'.mux.tracksReady = false
  cursor : out'.cursor = out.cursor
  handed : out'.handed = out.handed
  burst : ∃ burst, out'.burst = some burst ∧ burst.bytes = []

theorem putFrames_silent {out out' : Outputs} (h : Silent out out') (frames : List Frame) :
    Silent out (frames.foldl putFrame out') := by
  induction frames generalizing out' with
  | nil => exact h
  | cons frame rest ih =>
    obtain ⟨burst, hburst, hempty⟩ := h.burst
    have hwrite : writeFrame out'.mux burst frame false = (.ok, out'.mux, burst) := by
      unfold writeFrame
      cases frame.payload with
      | none => rfl
      | some payload =>
        dsimp only
        rw [if_pos h.tracks]
    have hput : putFrame out' frame =
        { out' with mux := out'.mux, burst := some burst, frames := out'.frames + 1 } := by
      simp only [putFrame, hburst, hwrite]
    rw [List.foldl_cons, hput]
    exact ih ⟨h.conf, h.tracks, h.cursor, h.handed, burst, rfl, hempty⟩

theorem openBurst_silent {out : Outputs} (hready : out.mux.tracksReady = false) :
    Silent out (openBurst out) := by
  unfold openBurst burstInit
  dsimp only
  rw [if_neg (by simp), if_pos hready]
  exact ⟨rfl, hready, rfl, rfl, _, rfl, rfl⟩

theorem putBatch_silent {out : Outputs} {before : List Frame} (h : Drained out before)
    {active : Active} (hready : (takeTracks out active).mux.tracksReady = false)
    (frames : List Frame) :
    Drained (putBatch out active frames) before ∧
      (putBatch out active frames).cursor = out.cursor := by
  obtain ⟨htaken, hcursor, -⟩ := takeTracks_drained h active
  have hsilent := putFrames_silent (openBurst_silent hready) frames
  obtain ⟨burst, hburst, hempty⟩ := hsilent.burst
  unfold putBatch outputsFlush
  dsimp only
  rw [if_pos htaken.closed, hburst]
  dsimp only
  rw [hempty, if_neg (by simp)]
  refine ⟨⟨hsilent.conf.trans htaken.conf, rfl, ?_⟩, hsilent.cursor.trans hcursor⟩
  dsimp only
  rw [hsilent.handed]
  exact htaken.holds

structure Beside (out out' : Outputs) : Prop where
  tracks : out'.tracks = out.tracks
  cursor : out'.cursor = out.cursor

theorem Beside.trans {out' out'' : Outputs} (h : Beside out out') (h' : Beside out' out'') :
    Beside out out'' :=
  ⟨h'.tracks.trans h.tracks, h'.cursor.trans h.cursor⟩

theorem outputsFlush_beside (out : Outputs) : Beside out (outputsFlush out) := by
  unfold outputsFlush
  cases out.burst <;> exact ⟨rfl, rfl⟩

theorem retryFrame_beside (out : Outputs) (frame : Frame) : Beside out (retryFrame out frame) := by
  unfold retryFrame
  cases out.burst <;> exact ⟨rfl, rfl⟩

theorem putFrame_beside (out : Outputs) (frame : Frame) : Beside out (putFrame out frame) := by
  unfold putFrame
  cases out.burst with
  | none => exact ⟨rfl, rfl⟩
  | some burst =>
    dsimp only
    rcases writeFrame out.mux burst frame false with ⟨rc, mux, burst⟩
    cases rc with
    | again =>
      have hflush := outputsFlush_beside { out with mux, burst := some burst }
      have hretry := retryFrame_beside (openBurst (outputsFlush
        { out with mux, burst := some burst })) frame
      exact ⟨hretry.tracks.trans hflush.tracks, hretry.cursor.trans hflush.cursor⟩
    | _ => exact ⟨rfl, rfl⟩

theorem putFrames_beside (out : Outputs) (frames : List Frame) :
    Beside out (frames.foldl putFrame out) := by
  induction frames generalizing out with
  | nil => exact ⟨rfl, rfl⟩
  | cons frame rest ih => exact (putFrame_beside out frame).trans (ih _)

theorem putBatch_beside (out : Outputs) (active : Active) (frames : List Frame) :
    Beside (takeTracks out active) (putBatch out active frames) := by
  have hopened : Beside (takeTracks out active)
      (if (takeTracks out active).burst = none then openBurst (takeTracks out active)
        else takeTracks out active) := by
    by_cases hburst : (takeTracks out active).burst = none
    · rw [if_pos hburst]
      exact ⟨rfl, rfl⟩
    · rw [if_neg hburst]
      exact ⟨rfl, rfl⟩
  exact (hopened.trans (putFrames_beside _ frames)).trans (outputsFlush_beside _)

theorem takeTracks_place (out : Outputs) (active : Active) :
    (takeTracks out active).cursor = out.cursor := by
  unfold takeTracks
  cases active with
  | none => rfl
  | some source =>
    dsimp only
    by_cases hsame : out.tracks = some source.1
    · rw [if_pos hsame]
    · rw [if_neg hsame]
      rcases setTracks out.mux source.2 with ⟨mux, rc⟩
      cases rc <;> rfl

/-- What was handed over carries the units that were written. -/
structure Follows (p : Programme) : Prop where
  feed : MediaFeed.Inv p.feed p.published
  drained : Drained p.out p.aired
  within : ∀ n ∈ p.got, n < p.published.length

structure InPlace (p : Programme) : Prop where
  tracks : p.out.mux.tracksReady = true
  place : p.lapsed = false → p.start ≤ p.out.cursor.nextSequence ∧
    p.out.cursor.nextSequence ≤ p.published.length ∧
    p.got = List.range' p.start (p.out.cursor.nextSequence - p.start)

theorem framesBetween_range {published : List MediaFeed.Slot} (a n : ℕ)
    (h : a + n ≤ published.length) :
    MediaFeed.framesBetween published a (a + n) =
      (List.range' a n).filterMap fun k => (published[k]?).map MediaFeed.Slot.frame := by
  induction n generalizing a with
  | zero => rw [Nat.add_zero, MediaFeed.framesBetween_self, List.range'_zero, List.filterMap_nil]
  | succ n ih =>
    have ha : a < published.length := by omega
    rw [MediaFeed.framesBetween_cons ha (by omega), List.range'_succ, List.filterMap_cons,
      List.getElem?_eq_getElem ha, Option.map_some, show a + (n + 1) = a + 1 + n by omega,
      ih (a + 1) (by omega)]

theorem read_batch {feed : MediaFeed.Feed} {published : List MediaFeed.Slot}
    (h : MediaFeed.Inv feed published) (cursor : MediaFeed.Cursor) (maxUnits maxBytes now : ℕ) :
    ∃ n, (MediaFeed.read feed cursor maxUnits maxBytes now).frames.length = n ∧
      (MediaFeed.read feed cursor maxUnits maxBytes now).cursor.nextSequence =
        cursor.nextSequence + n ∧
      (MediaFeed.read feed cursor maxUnits maxBytes now).frames =
        (List.range' cursor.nextSequence n).filterMap
          (fun k => (published[k]?).map MediaFeed.Slot.frame) ∧
      (n ≠ 0 → cursor.nextSequence + n ≤ published.length) := by
  obtain ⟨n, hcursor, hframes, hwithin⟩ := h.read_frames cursor maxUnits maxBytes now
  have hnext := congrArg MediaFeed.Cursor.nextSequence hcursor
  by_cases hn : n = 0
  · subst hn
    rw [Nat.add_zero, MediaFeed.framesBetween_self] at hframes
    refine ⟨0, by rw [hframes]; rfl, hnext, ?_, fun h0 => absurd rfl h0⟩
    rw [hframes, List.range'_zero, List.filterMap_nil]
  · have hend : cursor.nextSequence + n ≤ published.length := by
      rw [← h.head_eq]
      exact hwithin hn
    refine ⟨n, ?_, hnext, ?_, fun _ => hend⟩
    · rw [hframes, MediaFeed.framesBetween_length hend]
      omega
    · rw [hframes, framesBetween_range _ _ hend]

def afterBatch (p : Programme) (active : Active) (maxUnits maxBytes now : ℕ) : Programme :=
  let r := MediaFeed.read p.feed p.out.cursor maxUnits maxBytes now
  { p with
    feed := r.feed
    out := putBatch { p.out with cursor := r.cursor } active r.frames
    got := if (takeTracks p.out active).mux.tracksReady then
      p.got ++ List.range' p.out.cursor.nextSequence r.frames.length else p.got }

theorem takeTracks_cursor (out : Outputs) (active : Active) (cursor : MediaFeed.Cursor) :
    (takeTracks { out with cursor } active).mux = (takeTracks out active).mux := by
  unfold takeTracks
  cases active with
  | none => rfl
  | some source =>
    dsimp only
    split_ifs
    · rfl
    · split <;> rfl

theorem Follows.batch {p : Programme} (h : Follows p) (active : Active)
    (maxUnits maxBytes now : ℕ) : Follows (afterBatch p active maxUnits maxBytes now) := by
  obtain ⟨n, hlen, -, hframes, hend⟩ := read_batch h.feed p.out.cursor maxUnits maxBytes now
  have hmoved : Drained { p.out with
      cursor := (MediaFeed.read p.feed p.out.cursor maxUnits maxBytes now).cursor } p.aired :=
    ⟨h.drained.conf, h.drained.closed, h.drained.holds⟩
  have hmux := takeTracks_cursor p.out active
    (MediaFeed.read p.feed p.out.cursor maxUnits maxBytes now).cursor
  have hring := (h.feed.after_read p.out.cursor maxUnits maxBytes now).1
  cases hready : (takeTracks p.out active).mux.tracksReady with
  | false =>
    refine ⟨hring, ?_, ?_⟩
    · simp only [afterBatch, Programme.aired, hready, Bool.false_eq_true, if_false]
      exact (putBatch_silent hmoved (by rw [hmux]; exact hready) _).1
    · simp only [afterBatch, hready, Bool.false_eq_true, if_false]
      exact h.within
  | true =>
    refine ⟨hring, ?_, ?_⟩
    · have hbatch := (putBatch_ready hmoved (by rw [hmux]; exact hready)
        (MediaFeed.read p.feed p.out.cursor maxUnits maxBytes now).frames).1
      simp only [afterBatch, Programme.aired, hready, if_true]
      rw [List.filterMap_append, hlen, ← hframes]
      exact hbatch
    · simp only [afterBatch, hready, if_true]
      intro k hk
      rcases List.mem_append.mp hk with hk | hk
      · exact h.within k hk
      · rw [List.mem_range', hlen] at hk
        obtain ⟨i, hi, rfl⟩ := hk
        have := hend (by omega)
        omega

theorem InPlace.batch {p : Programme} (h : InPlace p) (hf : Follows p) (active : Active)
    (maxUnits maxBytes now : ℕ) : InPlace (afterBatch p active maxUnits maxBytes now) := by
  obtain ⟨n, hlen, hnext, -, hend⟩ := read_batch hf.feed p.out.cursor maxUnits maxBytes now
  have hmoved : Drained { p.out with
      cursor := (MediaFeed.read p.feed p.out.cursor maxUnits maxBytes now).cursor } p.aired :=
    ⟨hf.drained.conf, hf.drained.closed, hf.drained.holds⟩
  have hmux := takeTracks_cursor p.out active
    (MediaFeed.read p.feed p.out.cursor maxUnits maxBytes now).cursor
  have hready := (takeTracks_drained hf.drained active).2.2 h.tracks
  obtain ⟨-, hcursor, htracks⟩ := putBatch_ready hmoved (by rw [hmux]; exact hready)
    (MediaFeed.read p.feed p.out.cursor maxUnits maxBytes now).frames
  refine ⟨htracks, fun hkept => ?_⟩
  obtain ⟨hstart, hwithin, hgot⟩ := h.place hkept
  have hplace : (afterBatch p active maxUnits maxBytes now).out.cursor.nextSequence =
      p.out.cursor.nextSequence + n := by
    rw [← hnext]
    exact congrArg MediaFeed.Cursor.nextSequence hcursor
  rw [hplace]
  refine ⟨hstart.trans (Nat.le_add_right _ _), ?_, ?_⟩
  · by_cases hn : n = 0
    · rw [hn]
      exact hwithin
    · exact hend hn
  · have hstep : p.out.cursor.nextSequence = p.start + (p.out.cursor.nextSequence - p.start) := by
      omega
    simp only [afterBatch, hready, if_true, hlen]
    rw [hgot, show p.out.cursor.nextSequence + n - p.start =
      p.out.cursor.nextSequence - p.start + n by omega, ← List.range'_append_1, ← hstep]

theorem outputsDrain_induction {I : Programme → Prop} {active : Active} {now : ℕ}
    (hbatch : ∀ p maxUnits maxBytes, I p → I (afterBatch p active maxUnits maxBytes now))
    (hempty : ∀ p maxUnits maxBytes, I p →
      I { p with feed := (MediaFeed.read p.feed p.out.cursor maxUnits maxBytes now).feed })
    (hlapse : ∀ p maxUnits maxBytes cursor, I p →
      I { p with feed := (MediaFeed.read p.feed p.out.cursor maxUnits maxBytes now).feed
                 out := { p.out with cursor }, lapsed := true })
    (clocks : List ℕ) {p : Programme} (h : I p) (budget : Budget) :
    I (outputsDrain active now clocks p budget).1 := by
  induction clocks generalizing p budget with
  | nil => exact h
  | cons clock clocks ih =>
    unfold outputsDrain
    rcases budgetReady budget clock with ⟨budget, ready⟩
    cases ready with
    | false => exact h
    | true =>
      dsimp only
      by_cases hspent : min batchUnits (visitMaxFrames - budget.frames) = 0 ∨
          min batchBytes (visitMaxBytes - budget.bytes) = 0
      · rw [if_pos hspent]
        exact h
      · rw [if_neg hspent]
        cases (MediaFeed.read p.feed p.out.cursor (min batchUnits (visitMaxFrames - budget.frames))
          (min batchBytes (visitMaxBytes - budget.bytes)) now).status with
        | batch => exact ih (hbatch p _ _ h) _
        | empty => exact hempty p _ _ h
        | overrun => exact ih (hlapse p _ _ _ h) _
        | generationMismatch => exact ih (hlapse p _ _ _ h) _

theorem Follows.drain {p : Programme} (h : Follows p) (active : Active) (now : ℕ) (clocks : List ℕ)
    (budget : Budget) : Follows (outputsDrain active now clocks p budget).1 := by
  apply outputsDrain_induction _ _ _ clocks h budget
  · exact fun p maxUnits maxBytes h => h.batch active maxUnits maxBytes now
  · intro p maxUnits maxBytes h
    exact ⟨(h.feed.after_read p.out.cursor maxUnits maxBytes now).1, h.drained, h.within⟩
  · intro p maxUnits maxBytes cursor h
    exact ⟨(h.feed.after_read p.out.cursor maxUnits maxBytes now).1,
      ⟨h.drained.conf, h.drained.closed, h.drained.holds⟩, h.within⟩

theorem InPlace.drain {p : Programme} (h : InPlace p) (hf : Follows p) (active : Active) (now : ℕ)
    (clocks : List ℕ) (budget : Budget) : InPlace (outputsDrain active now clocks p budget).1 := by
  have hboth : Follows (outputsDrain active now clocks p budget).1 ∧
      InPlace (outputsDrain active now clocks p budget).1 := by
    apply outputsDrain_induction (I := fun p => Follows p ∧ InPlace p) _ _ _ clocks ⟨hf, h⟩ budget
    · exact fun p maxUnits maxBytes h =>
        ⟨h.1.batch active maxUnits maxBytes now, h.2.batch h.1 active maxUnits maxBytes now⟩
    · intro p maxUnits maxBytes h
      exact ⟨⟨(h.1.feed.after_read p.out.cursor maxUnits maxBytes now).1, h.1.drained, h.1.within⟩,
        h.2.tracks, h.2.place⟩
    · intro p maxUnits maxBytes cursor h
      refine ⟨⟨(h.1.feed.after_read p.out.cursor maxUnits maxBytes now).1,
        ⟨h.1.drained.conf, h.1.drained.closed, h.1.drained.holds⟩, h.1.within⟩, h.2.tracks, ?_⟩
      intro hfalse
      cases hfalse
  exact hboth.2

theorem Follows.grow {p : Programme} (h : Follows p) {feed : MediaFeed.Feed}
    {more : List MediaFeed.Slot} (hfeed : MediaFeed.Inv feed (p.published ++ more)) :
    Follows { p with feed, published := p.published ++ more } := by
  refine ⟨hfeed, ?_, ?_⟩
  · have hsame : Programme.aired { p with feed, published := p.published ++ more } = p.aired := by
      apply List.filterMap_congr
      intro n hn
      rw [List.getElem?_append_left (h.within n hn)]
    rw [hsame]
    exact ⟨h.drained.conf, h.drained.closed, h.drained.holds⟩
  · intro n hn
    have := h.within n hn
    simp only [List.length_append]
    omega

theorem InPlace.grow {p : Programme} (h : InPlace p) (feed : MediaFeed.Feed)
    (more : List MediaFeed.Slot) :
    InPlace { p with feed, published := p.published ++ more } := by
  refine ⟨h.tracks, fun hkept => ?_⟩
  obtain ⟨hstart, hwithin, hgot⟩ := h.place hkept
  refine ⟨hstart, ?_, hgot⟩
  simp only [List.length_append]
  omega

theorem publish_step {p : Programme} (h : MediaFeed.Inv p.feed p.published) (frame : Frame)
    (now : ℕ) : ∃ feed, MediaFeed.Inv feed (p.published ++ [⟨frame, now⟩]) ∧
      step p (.publish frame now) = { p with feed, published := p.published ++ [⟨frame, now⟩] } := by
  obtain ⟨hring, hok⟩ := h.after_publish frame now
  rcases hp : MediaFeed.publish p.feed frame now with ⟨feed, rc⟩
  rw [hp] at hring hok
  dsimp only at hok
  subst hok
  exact ⟨feed, hring, by simp only [step, hp]⟩

theorem follows_initial {conf : MediaFeed.Conf} {feed : MediaFeed.Feed} {mux : Mux}
    (hfeed : MediaFeed.init conf true = some feed) (hconf : mux.conf = (muxInit confDefault).conf) :
    Follows (initial feed mux) :=
  ⟨MediaFeed.init_inv hfeed, ⟨hconf, rfl, holds_nil⟩, fun _ hn => absurd hn List.not_mem_nil⟩

theorem run_inPlace {conf : MediaFeed.Conf} {feed : MediaFeed.Feed} {mux : Mux}
    (hfeed : MediaFeed.init conf true = some feed) (hm : Ready mux) (calls : List Call) :
    Follows (run (initial feed mux) calls) ∧ InPlace (run (initial feed mux) calls) := by
  apply StepRun.invariant (I := fun p => Follows p ∧ InPlace p)
  · rintro p call ⟨hf, h⟩
    cases call with
    | publish frame now =>
      obtain ⟨feed, hring, hstep⟩ := publish_step hf.feed frame now
      rw [hstep]
      exact ⟨hf.grow hring, h.grow feed _⟩
    | visit active budget clocks now =>
      exact ⟨hf.drain active now clocks budget, h.drain hf active now clocks budget⟩
  · refine ⟨follows_initial hfeed hm.conf, hm.tracks, fun _ => ⟨Nat.le_refl _, ?_, ?_⟩⟩
    · have hhead := (MediaFeed.init_inv hfeed).head_eq
      simp only [initial, MediaFeed.cursorInit]
      exact hhead.le
    · simp [initial, MediaFeed.cursorInit]

/-- What the drain has done with the frames it read: those that fit a burst are carried. -/
theorem InPlace.holds {p : Programme} (h : InPlace p) (hf : Follows p) (hkept : p.lapsed = false) :
    Holds p.out.handed p.read := by
  obtain ⟨hstart, hwithin, hgot⟩ := h.place hkept
  have hread : p.read = p.aired := by
    have hend : p.start + (p.out.cursor.nextSequence - p.start) = p.out.cursor.nextSequence := by
      omega
    rw [Programme.read, Programme.aired, hgot, ← framesBetween_range _ _ (by omega), hend]
  rw [hread]
  exact hf.drained.holds

theorem delivered_iff {p : Programme} (h : Holds p.out.handed p.read) :
    Delivered p ↔ ∀ frame ∈ p.read, fits frame = true := by
  constructor
  · intro hall
    rw [← List.filter_eq_self]
    have hlen := hall.length_eq.symm.trans h.length_eq
    exact List.filter_sublist.eq_of_length hlen.symm
  · intro hall
    unfold Holds at h
    rw [List.filter_eq_self.mpr hall] at h
    exact h

theorem publish_first {feed : MediaFeed.Feed} (hinv : MediaFeed.Inv feed []) (frame : Frame) :
    MediaFeed.publish feed frame 0 = (MediaFeed.insert feed frame 0, .ok) := by
  have hhead : feed.head = 0 := hinv.head_eq
  have hok := (hinv.after_publish frame 0).2
  have hprune : MediaFeed.prune feed 0 frame.size = feed := by
    rw [MediaFeed.prune, hhead, Nat.zero_sub, MediaFeed.pruneLoop]
  unfold MediaFeed.publish at hok ⊢
  rw [hprune] at hok ⊢
  dsimp only at hok ⊢
  split_ifs at hok ⊢
  rfl

theorem outputsDrain_batch {p : Programme} {budget : Budget} {clock now maxUnits maxBytes : ℕ}
    (active : Active) (clocks : List ℕ) (hready : budgetReady budget clock = (budget, true))
    (hunits : maxUnits = min batchUnits (visitMaxFrames - budget.frames))
    (hbytes : maxBytes = min batchBytes (visitMaxBytes - budget.bytes))
    (hpos : ¬(maxUnits = 0 ∨ maxBytes = 0))
    (hbatch : (MediaFeed.read p.feed p.out.cursor maxUnits maxBytes now).status = .batch) :
    outputsDrain active now (clock :: clocks) p budget =
      outputsDrain active now clocks (afterBatch p active maxUnits maxBytes now)
        (budgetAccount budget (MediaFeed.read p.feed p.out.cursor maxUnits maxBytes now).frames) := by
  subst hunits hbytes
  conv_lhs => unfold outputsDrain
  rw [hready]
  dsimp only
  rw [if_neg hpos, hbatch]
  rfl

theorem one_frame {conf : MediaFeed.Conf} {feed : MediaFeed.Feed} {mux : Mux} (hm : Ready mux)
    (hfeed : MediaFeed.init conf true = some feed) (frame : Frame) :
    (run (initial feed mux) [.publish frame 0, .visit none ⟨0, 0, 0, false⟩ [0] 0]).lapsed = false ∧
      (run (initial feed mux) [.publish frame 0, .visit none ⟨0, 0, 0, false⟩ [0] 0]).read =
        [frame] := by
  have hinv := MediaFeed.init_inv hfeed
  have hhead : feed.head = 0 := hinv.head_eq
  have htail := hinv.tail_le
  have hring := (hinv.after_publish frame 0).1
  rw [publish_first hinv frame] at hring
  have hgen : (MediaFeed.cursorInit feed).generation =
      (MediaFeed.insert feed frame 0).generation := rfl
  obtain ⟨hstatus, hsome⟩ := hring.read_progress hgen
    (by simp only [MediaFeed.insert, MediaFeed.cursorInit]; omega)
    (by simp only [MediaFeed.insert, MediaFeed.cursorInit]; omega)
    (show 0 < 64 by decide) batchBytes 0
  obtain ⟨n, hlen, hnext, -, hend⟩ := read_batch hring (MediaFeed.cursorInit feed) 64 batchBytes 0
  have hn : n = 1 := by
    have hpos : n ≠ 0 := by
      rintro rfl
      exact hsome (List.length_eq_zero_iff.mp hlen)
    have := hend hpos
    simp only [MediaFeed.cursorInit, List.nil_append, List.length_singleton] at this
    omega
  have hdrained : Drained { (initial feed mux).out with
      cursor := (MediaFeed.read (MediaFeed.insert feed frame 0) (MediaFeed.cursorInit feed) 64
        batchBytes 0).cursor } [] := ⟨hm.conf, rfl, holds_nil⟩
  have hkept := (@putBatch_ready _ _ hdrained none hm.tracks (MediaFeed.read
    (MediaFeed.insert feed frame 0) (MediaFeed.cursorInit feed) 64 batchBytes 0).frames).2.1
  have hcalls : run (initial feed mux) [.publish frame 0, .visit none ⟨0, 0, 0, false⟩ [0] 0] =
      (outputsDrain none 0 [0] { initial feed mux with
        feed := MediaFeed.insert feed frame 0, published := [⟨frame, 0⟩] } ⟨0, 0, 0, false⟩).1 := by
    simp only [run, List.foldl_cons, List.foldl_nil, step, initial, publish_first hinv frame,
      List.nil_append]
  rw [hcalls, @outputsDrain_batch _ _ 0 0 64 batchBytes none [] (by decide) (by decide) (by decide)
    (by decide) hstatus, outputsDrain]
  refine ⟨rfl, ?_⟩
  have hcursor := (congrArg MediaFeed.Cursor.nextSequence hkept).trans hnext
  simp only [Programme.read]
  refine (congrArg (MediaFeed.framesBetween _ _) hcursor).trans ?_
  simp [MediaFeed.framesBetween, afterBatch, initial, MediaFeed.cursorInit, hhead, hn]

/-- An access unit of 300000 bytes. -/
def largeFrame : Frame :=
  ⟨.video, .h264, .annexb, 0, 3600, 3600, true, false, some (List.replicate 300000 0)⟩

theorem largeFrame_size : largeFrame.size = 300000 := by
  rw [Frame.size, largeFrame, bufSize_some, List.length_replicate]

theorem largeFrame_unfit : fits largeFrame = false := by
  have hsame : largeFrame.pts = largeFrame.dts := rfl
  have hbytes : frameBytes largeFrame = packetBytes * 1631 := by
    rw [frameBytes, largeFrame_size, if_pos hsame]
    rfl
  have hfull : ¬ 2 * packetBytes + frameBytes largeFrame ≤ burstBytes := by
    rw [hbytes]
    decide
  simp only [fits, decide_eq_false_iff_not]
  exact fun h => hfull h.2

theorem large_frame_lost : ¬ ∀ (conf : MediaFeed.Conf) (feed : MediaFeed.Feed) (tracks : TrackSet)
    (mux : Mux), MediaFeed.init conf true = some feed →
    setTracks (muxInit confDefault) tracks = (mux, .ok) → ∀ calls : List Call,
      (∀ frame now, .publish frame now ∈ calls →
        ∃ payload, frame.payload = some payload ∧ payload.length ≤ 1024 * 1024) →
      (run (initial feed mux) calls).lapsed = false → Delivered (run (initial feed mux) calls) := by
  intro h
  obtain ⟨feed, hfeed⟩ : ∃ feed, MediaFeed.init ⟨512, 0, 0⟩ true = some feed := ⟨_, rfl⟩
  obtain ⟨mux, hmux⟩ : ∃ mux, setTracks (muxInit confDefault)
      [⟨.video, .h264, .annexb, 0, 0, 0, 0, 0, 0, 0, 0, none⟩] = (mux, .ok) := ⟨_, rfl⟩
  obtain ⟨hkept, hread⟩ := one_frame (initial_ready hmux) hfeed largeFrame
  obtain ⟨hfollows, hplace⟩ := run_inPlace hfeed (initial_ready hmux) [.publish largeFrame 0,
    .visit none ⟨0, 0, 0, false⟩ [0] 0]
  have hall := (delivered_iff (hplace.holds hfollows hkept)).mp
    (h _ feed _ mux hfeed hmux _ ?_ hkept)
  · rw [hread] at hall
    have hfits := hall largeFrame List.mem_cons_self
    rw [largeFrame_unfit] at hfits
    cases hfits
  · intro frame now hmem
    have hframe : frame = largeFrame := by
      simp only [List.mem_cons, Call.publish.injEq, reduceCtorEq, List.not_mem_nil, or_false] at hmem
      exact hmem.1
    refine ⟨_, by rw [hframe]; rfl, ?_⟩
    rw [List.length_replicate]
    decide

theorem drain_delivers {conf : MediaFeed.Conf} {feed : MediaFeed.Feed} {tracks : TrackSet}
    {mux : Mux} (hfeed : MediaFeed.init conf true = some feed)
    (hmux : setTracks (muxInit confDefault) tracks = (mux, .ok)) (calls : List Call)
    (hkept : (run (initial feed mux) calls).lapsed = false) :
    Delivered (run (initial feed mux) calls) ↔
      ∀ frame ∈ (run (initial feed mux) calls).read, fits frame = true :=
  have hrun := run_inPlace hfeed (initial_ready hmux) calls
  delivered_iff (hrun.2.holds hrun.1 hkept)

def keyFrame : Frame := ⟨.video, .h264, .annexb, 0, 3600, 3600, true, false, some [0, 0, 0, 1, 0x65]⟩

def tone : Frame := ⟨.audio, .aac, .adts, 1, 3700, 3700, false, false, some [0xFF, 0xF1, 0x50]⟩

theorem drain_delivers_two_visits :
    ∃ feed mux, Delivered (run (initial feed mux) [.publish keyFrame 0,
      .visit (some (1, [])) ⟨0, 0, 0, false⟩ [0, 0] 0, .publish tone 1,
      .visit none ⟨63, 0, 0, false⟩ [0, 0] 1]) :=
  ⟨_, _, (@drain_delivers ⟨512, 0, 0⟩ _ [⟨.video, .h264, .annexb, 0, 0, 0, 0, 0, 0, 0, 0, none⟩,
    ⟨.audio, .aac, .adts, 0, 0, 0, 0, 0, 0, 0, 0, none⟩] _ rfl rfl _ (by decide +kernel)).mpr
    (by decide +kernel)⟩

end OutputDrain
