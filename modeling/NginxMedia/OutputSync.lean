import NginxMedia.OutputDrain

/-! The keyframe flag of the bursts that the output drain hands to the transport sink: it is
computed over the whole burst, and the bursts are cut by their size. -/
namespace OutputSync

open MediaTypes TsMux OutputDrain

def burstKeyframe (burst : Burst) : Bool :=
  burst.slices.any fun slice => decide (slice.mediaType = .video) && slice.keyframe

def startsAtKeyframe (burst : Burst) : Bool :=
  (burst.slices.find? fun slice => decide (slice.mediaType = .video)).any Slice.keyframe

def InSync (burst : Burst) : Prop := burstKeyframe burst = true → startsAtKeyframe burst = true

instance (burst : Burst) : Decidable (InSync burst) := inferInstanceAs (Decidable (_ → _))

def filled (piece : List Frame) : ℕ := 2 * packetBytes + (piece.map frameBytes).sum

def cut (piece : List Frame) : List Frame → List (List Frame)
  | [] => [piece]
  | frame :: rest =>
    if frame.payload = none then cut piece rest
    else if piece.length < maxSlices ∧ filled piece + frameBytes frame ≤ burstBytes then
      cut (piece ++ [frame]) rest
    else piece :: cut (if fits frame then [frame] else []) rest

/-- The bursts of a batch. -/
def pieces (frames : List Frame) : List (List Frame) := cut [] frames

def keyframeLate (frames : List Frame) : Bool :=
  match frames.filter fun frame => decide (frame.mediaType = .video) with
  | [] => false
  | first :: rest => !first.keyframe && rest.any Frame.keyframe

def videoFlags (marks : List (MediaType × Bool)) : List Bool :=
  (marks.filter fun mark => decide (mark.1 = .video)).map Prod.snd

def sliceMark (slice : Slice) : MediaType × Bool := (slice.mediaType, slice.keyframe)

def frameMark (frame : Frame) : MediaType × Bool := (frame.mediaType, frame.keyframe)

def Holding (burst : Burst) (piece : List Frame) : Prop :=
  burst.slices.map sliceMark = piece.map frameMark

variable {burst : Burst} {piece : List Frame} {frame : Frame} {out : Outputs}

theorem burstKeyframe_flags (burst : Burst) :
    burstKeyframe burst = (videoFlags (burst.slices.map sliceMark)).any id := by
  unfold burstKeyframe
  induction burst.slices with
  | nil => rfl
  | cons slice rest ih =>
    by_cases hvideo : slice.mediaType = .video
    · simp [videoFlags, sliceMark, hvideo, ih]
    · simp [videoFlags, sliceMark, hvideo, ih]

theorem startsAtKeyframe_flags (burst : Burst) :
    startsAtKeyframe burst = (videoFlags (burst.slices.map sliceMark)).head?.any id := by
  unfold startsAtKeyframe
  induction burst.slices with
  | nil => rfl
  | cons slice rest ih =>
    by_cases hvideo : slice.mediaType = .video
    · simp [videoFlags, sliceMark, hvideo]
    · simp [videoFlags, sliceMark, hvideo, ih]

theorem keyframeLate_flags (piece : List Frame) :
    keyframeLate piece = true ↔
      (videoFlags (piece.map frameMark)).any id = true ∧
        (videoFlags (piece.map frameMark)).head?.any id = false := by
  have hflags : videoFlags (piece.map frameMark) =
      (piece.filter fun frame => decide (frame.mediaType = .video)).map Frame.keyframe := by
    simp only [videoFlags, List.filter_map, List.map_map, Function.comp_def, frameMark]
    rfl
  rw [hflags]
  unfold keyframeLate
  cases piece.filter fun frame => decide (frame.mediaType = .video) with
  | nil => simp
  | cons first rest =>
    cases hkey : first.keyframe with
    | false => simp [hkey]
    | true => simp [hkey]

theorem Holding.inSync_iff (h : Holding burst piece) :
    InSync burst ↔ keyframeLate piece = false := by
  rw [← Bool.not_eq_true, keyframeLate_flags, ← h, ← burstKeyframe_flags, ← startsAtKeyframe_flags]
  unfold InSync
  cases burstKeyframe burst with
  | false => simp
  | true => simp

structure Filled (out : Outputs) (piece : List Frame) : Prop where
  ready : Ready out.mux
  burst : ∃ burst, out.burst = some burst ∧ Filling burst ∧ Holding burst piece ∧
    burst.bytes.length = filled piece

structure Closed (out : Outputs) : Prop where
  conf : out.mux.conf = (muxInit confDefault).conf
  burst : out.burst = none

theorem openBurst_filled (hm : Ready out.mux) :
    Filled (openBurst out) [] ∧ (openBurst out).handed = out.handed := by
  obtain ⟨mux, burst, hinit, hready, hfilling, hlen, hslices⟩ := burstInit_fresh hm
  have hopen : openBurst out = { out with mux, burst := some burst } := by
    simp only [openBurst, hinit]
  rw [hopen]
  refine ⟨⟨hready, burst, rfl, hfilling, ?_, hlen⟩, rfl⟩
  unfold Holding
  rw [hslices]
  rfl

theorem outputsFlush_filled (h : Filled out piece) :
    Ready (outputsFlush out).mux ∧ (outputsFlush out).burst = none ∧
      ∃ burst, (outputsFlush out).handed = out.handed ++ [burst] ∧ Holding burst piece := by
  obtain ⟨burst, hburst, hfilling, hholding, _⟩ := h.burst
  have hpos : burst.bytes.length > 0 := Nat.lt_of_lt_of_le (by decide) hfilling.tables
  simp only [outputsFlush, hburst, if_pos hpos]
  exact ⟨⟨h.ready.conf, h.ready.tracks⟩, trivial, burst, rfl, hholding⟩

theorem room_iff (frame : Frame) (hfilling : Filling burst) (hholding : Holding burst piece)
    (hused : burst.bytes.length = filled piece) :
    Room burst frame ↔
      piece.length < maxSlices ∧ filled piece + frameBytes frame ≤ burstBytes := by
  have hlength : burst.slices.length = piece.length := by
    rw [← List.length_map sliceMark, hholding, List.length_map]
  unfold Room
  rw [hlength, hused, hfilling.capacity]

theorem Filled.write {mux : Mux} {burst' : Burst} (hm : Ready mux) (hfilling : Filling burst)
    (hholding : Holding burst piece) (hused : burst.bytes.length = filled piece)
    (hw : Written burst burst' frame) (hroom : Room burst frame) (out : Outputs) (n : ℕ) :
    Filled { out with mux, burst := some burst', frames := n } (piece ++ [frame]) := by
  obtain ⟨slice, hslices, _, _, hcarries⟩ := hw.sliced
  obtain ⟨_, _, htype, _, hkey, _⟩ := hcarries
  obtain ⟨more, hbytes, hmore⟩ := hw.grown
  refine ⟨hm, burst', rfl, hw.filling hfilling hroom.2, ?_, ?_⟩
  · unfold Holding at hholding ⊢
    rw [hslices, List.map_append, List.map_append, hholding, List.map_singleton,
      List.map_singleton]
    unfold sliceMark frameMark
    rw [htype, hkey]
  · rw [hbytes, List.length_append, hused, hmore]
    simp only [filled, List.map_append, List.map_singleton, List.sum_append, List.sum_singleton]
    omega

def Hold (bursts : List Burst) (pieces : List (List Frame)) : Prop :=
  List.Forall₂ Holding bursts pieces

theorem retryFrame_filled {payload : Payload} (hm : Ready out.mux)
    (hpayload : frame.payload = some payload) :
    (retryFrame (openBurst out) frame).handed = out.handed ∧
      Filled (retryFrame (openBurst out) frame) (if fits frame then [frame] else []) := by
  obtain ⟨hopened, hhanded⟩ := openBurst_filled hm
  obtain ⟨burst, hburst, hfilling, hholding, hused⟩ := hopened.burst
  have hroom := room_iff frame hfilling hholding hused
  have hfits := fits_eq hpayload
  unfold retryFrame
  rw [hburst]
  dsimp only
  rcases writeFrame_outcome hopened.ready hpayload hfilling.room with
    ⟨mux, burst', hwrite, hready, hwritten, hthere⟩ | ⟨mux, hwrite, hready, hfull⟩
  · have hfit : fits frame = true := by
      rw [hfits]
      exact decide_eq_true (hroom.mp hthere).2
    rw [hwrite, if_pos hfit]
    exact ⟨hhanded, Filled.write hready hfilling hholding hused hwritten hthere _ _⟩
  · have hfit : ¬fits frame = true := by
      rw [hfits, decide_eq_true_eq]
      exact fun hle => hfull (hroom.mpr ⟨by decide, hle⟩)
    rw [hwrite, if_neg hfit]
    exact ⟨hhanded, hready, burst, rfl, hfilling, hholding, hused⟩

theorem putFrames_cut (h : Filled out piece) (frames : List Frame) :
    Ready (outputsFlush (frames.foldl putFrame out)).mux ∧
      (outputsFlush (frames.foldl putFrame out)).burst = none ∧
      ∃ bursts, (outputsFlush (frames.foldl putFrame out)).handed = out.handed ++ bursts ∧
        Hold bursts (cut piece frames) := by
  induction frames generalizing out piece with
  | nil =>
    obtain ⟨hready, hclosed, burst, hhanded, hholding⟩ := outputsFlush_filled h
    exact ⟨hready, hclosed, [burst], hhanded, List.Forall₂.cons hholding List.Forall₂.nil⟩
  | cons frame rest ih =>
    obtain ⟨burst, hburst, hfilling, hholding, hused⟩ := h.burst
    rw [List.foldl_cons]
    cases hpayload : frame.payload with
    | none =>
      have hwrite : writeFrame out.mux burst frame false = (.ok, out.mux, burst) := by
        simp [writeFrame, hpayload]
      have hput : putFrame out frame =
          { out with burst := some burst, frames := out.frames + 1 } := by
        simp only [putFrame, hburst, hwrite]
      rw [hput, cut, if_pos hpayload]
      exact ih ⟨h.ready, burst, rfl, hfilling, hholding, hused⟩
    | some payload =>
      have hsome : ¬frame.payload = none := by simp [hpayload]
      have hroom := room_iff frame hfilling hholding hused
      rcases writeFrame_outcome h.ready hpayload hfilling.room with
        ⟨mux, burst', hwrite, hready, hwritten, hthere⟩ | ⟨mux, hwrite, hready, hfull⟩
      · have hput : putFrame out frame =
            { out with mux, burst := some burst', frames := out.frames + 1 } := by
          simp only [putFrame, hburst, hwrite]
        rw [hput, cut, if_neg hsome, if_pos (hroom.mp hthere)]
        exact ih (Filled.write hready hfilling hholding hused hwritten hthere out _)
      · have hagain : Filled { out with mux, burst := some burst } piece :=
          ⟨hready, burst, rfl, hfilling, hholding, hused⟩
        have hput : putFrame out frame = retryFrame (openBurst (outputsFlush
            { out with mux, burst := some burst })) frame := by
          simp only [putFrame, hburst, hwrite]
        obtain ⟨hm, _, flushed, hhanded, hflushed⟩ := outputsFlush_filled hagain
        obtain ⟨hsame, hretried⟩ := retryFrame_filled hm hpayload
        obtain ⟨hm', hclosed, bursts, hrest, hhold⟩ := ih hretried
        rw [hput, cut, if_neg hsome, if_neg (fun hle => hfull (hroom.mpr hle))]
        refine ⟨hm', hclosed, flushed :: bursts, ?_, List.Forall₂.cons hflushed hhold⟩
        rw [hrest, hsame, hhanded, List.append_assoc, List.singleton_append]

theorem takeTracks_closed (h : Closed out) (active : Active) :
    Closed (takeTracks out active) ∧ (takeTracks out active).handed = out.handed ∧
      (out.mux.tracksReady = true → (takeTracks out active).mux.tracksReady = true) := by
  unfold takeTracks
  cases active with
  | none => exact ⟨h, rfl, id⟩
  | some source =>
    obtain ⟨pointer, tracks⟩ := source
    dsimp only
    by_cases hsame : out.tracks = some pointer
    · rw [if_pos hsame]
      exact ⟨h, rfl, id⟩
    · obtain ⟨hconf, hready⟩ := setTracks_kept out.mux tracks
      rw [if_neg hsame]
      rcases hset : setTracks out.mux tracks with ⟨mux, rc⟩
      rw [hset] at hconf hready
      cases rc <;> exact ⟨⟨hconf.trans h.conf, h.burst⟩, rfl, hready⟩

theorem takeTracks_refused {out' : Outputs} {active : Active}
    (h : (takeTracks out active).mux.tracksReady = false)
    (htracks : out'.tracks = (takeTracks out active).tracks)
    (hready : out'.mux.tracksReady = false) :
    (takeTracks out' active).mux.tracksReady = false := by
  unfold takeTracks at h htracks ⊢
  cases active with
  | none => exact hready
  | some source =>
    obtain ⟨pointer, tracks⟩ := source
    dsimp only at h htracks ⊢
    by_cases hsame : out.tracks = some pointer
    · rw [if_pos hsame] at htracks
      rw [if_pos (htracks.trans hsame)]
      exact hready
    · rw [if_neg hsame] at h htracks
      unfold setTracks at h htracks ⊢
      dsimp only at h htracks ⊢
      by_cases hnone : (tracks.foldl streamTypes (0, 0)).1 = 0 ∧
          (tracks.foldl streamTypes (0, 0)).2 = 0
      · rw [if_pos hnone] at htracks
        rw [if_neg (by rw [htracks]; exact hsame), if_pos hnone]
        exact hready
      · rw [if_neg hnone] at h
        cases h

theorem putBatch_pieces (h : Closed out) {active : Active}
    (hready : (takeTracks out active).mux.tracksReady = true) (frames : List Frame) :
    Closed (putBatch out active frames) ∧ (putBatch out active frames).mux.tracksReady = true ∧
      ∃ bursts, (putBatch out active frames).handed = out.handed ++ bursts ∧
        Hold bursts (pieces frames) := by
  obtain ⟨hclosed, hhanded, _⟩ := takeTracks_closed h active
  obtain ⟨hfilled, hopened⟩ := openBurst_filled ⟨hclosed.conf, hready⟩
  obtain ⟨hm, hburst, bursts, hbursts, hhold⟩ := putFrames_cut hfilled frames
  unfold putBatch
  dsimp only
  rw [if_pos hclosed.burst]
  refine ⟨⟨hm.conf, hburst⟩, hm.tracks, bursts, ?_, hhold⟩
  rw [hbursts, hopened, hhanded]

theorem putBatch_refused (h : Closed out) {active : Active}
    (hready : (takeTracks out active).mux.tracksReady = false) (frames : List Frame) :
    Closed (putBatch out active frames) ∧
      (takeTracks (putBatch out active frames) active).mux.tracksReady = false ∧
      (putBatch out active frames).handed = out.handed := by
  obtain ⟨hclosed, hhanded, _⟩ := takeTracks_closed h active
  have hsilent := putFrames_silent (openBurst_silent hready) frames
  obtain ⟨burst, hburst, hempty⟩ := hsilent.burst
  have htracks := (putBatch_beside out active frames).tracks
  have hbatch : putBatch out active frames = outputsFlush
      (frames.foldl putFrame (openBurst (takeTracks out active))) := by
    unfold putBatch
    dsimp only
    rw [if_pos hclosed.burst]
  rw [hbatch] at htracks ⊢
  unfold outputsFlush at htracks ⊢
  rw [hburst] at htracks ⊢
  dsimp only at htracks ⊢
  refine ⟨⟨hsilent.conf.trans hclosed.conf, rfl⟩,
    takeTracks_refused hready htracks hsilent.tracks, ?_⟩
  rw [hempty, if_neg (by simp)]
  exact hsilent.handed.trans hhanded

def reads (now : ℕ) : List ℕ → MediaFeed.Feed → MediaFeed.Cursor → Budget → List (List Frame)
  | [], _, _, _ => []
  | clock :: clocks, feed, cursor, budget =>
    match budgetReady budget clock with
    | (_, false) => []
    | (budget, true) =>
      let maxUnits := min batchUnits (visitMaxFrames - budget.frames)
      let maxBytes := min batchBytes (visitMaxBytes - budget.bytes)
      if maxUnits = 0 ∨ maxBytes = 0 then []
      else
        let r := MediaFeed.read feed cursor maxUnits maxBytes now
        match r.status with
        | .batch => r.frames :: reads now clocks r.feed r.cursor (budgetAccount budget r.frames)
        | .empty => []
        | .overrun | .generationMismatch =>
          reads now clocks r.feed (MediaFeed.resync r.feed r.cursor MediaFeed.resyncKeyframe).1
            budget

structure Visited (active : Active) (batches : List (List Frame)) (out out' : Outputs) : Prop where
  closed : Closed out'
  ready : (takeTracks out active).mux.tracksReady = true →
    ∃ bursts, out'.handed = out.handed ++ bursts ∧ Hold bursts (batches.flatMap pieces)
  refused : (takeTracks out active).mux.tracksReady = false → out'.handed = out.handed

theorem Visited.none (h : Closed out) (active : Active) : Visited active [] out out where
  closed := h
  ready := fun _ => ⟨[], (List.append_nil _).symm, List.Forall₂.nil⟩
  refused := fun _ => rfl

theorem Visited.cons {active : Active} {batches : List (List Frame)} {out' : Outputs}
    (h : Closed out) (cursor : MediaFeed.Cursor) (frames : List Frame)
    (hrest : Visited active batches (putBatch { out with cursor } active frames) out') :
    Visited active (frames :: batches) out out' where
  closed := hrest.closed
  ready := by
    intro hready
    rw [← takeTracks_cursor out active cursor] at hready
    have hmoved : Closed { out with cursor } := ⟨h.conf, h.burst⟩
    obtain ⟨hclosed, hkept, first, hfirst, hheld⟩ := putBatch_pieces hmoved hready frames
    obtain ⟨bursts, hbursts, hhold⟩ := hrest.ready ((takeTracks_closed hclosed active).2.2 hkept)
    refine ⟨first ++ bursts, ?_, ?_⟩
    · rw [hbursts, hfirst, List.append_assoc]
    · rw [List.flatMap_cons]
      exact List.rel_append hheld hhold
  refused := by
    intro hready
    rw [← takeTracks_cursor out active cursor] at hready
    have hmoved : Closed { out with cursor } := ⟨h.conf, h.burst⟩
    obtain ⟨_, hkept, hhanded⟩ := putBatch_refused hmoved hready frames
    exact (hrest.refused hkept).trans hhanded

/-- The place in the feed is nothing to the muxer. -/
theorem Visited.moved {active : Active} {batches : List (List Frame)} {out' : Outputs}
    {cursor : MediaFeed.Cursor} (h : Visited active batches { out with cursor } out') :
    Visited active batches out out' where
  closed := h.closed
  ready := fun hready => h.ready ((congrArg Mux.tracksReady
    (takeTracks_cursor out active cursor)).trans hready)
  refused := fun hready => h.refused ((congrArg Mux.tracksReady
    (takeTracks_cursor out active cursor)).trans hready)

theorem putBatch_closed (h : Closed out) (active : Active) (frames : List Frame) :
    Closed (putBatch out active frames) := by
  cases hready : (takeTracks out active).mux.tracksReady with
  | true => exact (putBatch_pieces h hready frames).1
  | false => exact (putBatch_refused h hready frames).1

theorem outputsDrain_visited {p : Programme} (h : Closed p.out) (active : Active) (now : ℕ)
    (clocks : List ℕ) (budget : Budget) :
    Visited active (reads now clocks p.feed p.out.cursor budget) p.out
      (outputsDrain active now clocks p budget).1.out := by
  induction clocks generalizing p budget with
  | nil => exact Visited.none h active
  | cons clock clocks ih =>
    unfold outputsDrain reads
    rcases budgetReady budget clock with ⟨budget, ready⟩
    cases ready with
    | false => exact Visited.none h active
    | true =>
      dsimp only
      by_cases hspent : min batchUnits (visitMaxFrames - budget.frames) = 0 ∨
          min batchBytes (visitMaxBytes - budget.bytes) = 0
      · rw [if_pos hspent, if_pos hspent]
        exact Visited.none h active
      · rw [if_neg hspent, if_neg hspent]
        generalize MediaFeed.read p.feed p.out.cursor
          (min batchUnits (visitMaxFrames - budget.frames))
          (min batchBytes (visitMaxBytes - budget.bytes)) now = r
        have hlapsed := @ih { p with
          feed := r.feed
          out := { p.out with
            cursor := (MediaFeed.resync r.feed r.cursor MediaFeed.resyncKeyframe).1 }
          lapsed := true } ⟨h.conf, h.burst⟩ budget
        cases r.status with
        | batch =>
          have hmoved : Closed { p.out with cursor := r.cursor } := ⟨h.conf, h.burst⟩
          have hrest := @ih { p with
            feed := r.feed
            out := putBatch { p.out with cursor := r.cursor } active r.frames
            got := if (takeTracks p.out active).mux.tracksReady then
              p.got ++ List.range' p.out.cursor.nextSequence r.frames.length else p.got }
            (putBatch_closed hmoved active r.frames) (budgetAccount budget r.frames)
          have hcursor := (putBatch_beside { p.out with cursor := r.cursor } active r.frames).cursor
          rw [takeTracks_place] at hcursor
          dsimp only at hrest hcursor ⊢
          rw [hcursor] at hrest
          exact Visited.cons h r.cursor r.frames hrest
        | empty => exact Visited.none h active
        | overrun => exact hlapsed.moved
        | generationMismatch => exact hlapsed.moved

/-- What happens to a programme: a frame is published, the drain visits, or the feed goes to its
next generation. -/
inductive Event where
  | call (call : OutputDrain.Call)
  | discontinuity

def step (p : Programme) : Event → Programme
  | .call call => OutputDrain.step p call
  | .discontinuity => { p with feed := MediaFeed.discontinuity p.feed }

def Allowed (p : Programme) : Event → Prop
  | .call (.visit active budget clocks now) =>
    (takeTracks p.out active).mux.tracksReady = true →
      ∀ frames ∈ reads now clocks p.feed p.out.cursor budget, ∀ piece ∈ pieces frames,
        keyframeLate piece = false
  | _ => True

def AllInSync (out : Outputs) : Prop := ∀ burst ∈ out.handed, InSync burst

theorem Hold.inSync_iff {bursts : List Burst} {pieces : List (List Frame)}
    (h : Hold bursts pieces) :
    (∀ burst ∈ bursts, InSync burst) ↔ ∀ piece ∈ pieces, keyframeLate piece = false := by
  induction h with
  | nil => simp
  | cons hholding _ ih => rw [List.forall_mem_cons, List.forall_mem_cons, hholding.inSync_iff, ih]

theorem step_inSync {p : Programme} (h : Closed p.out) (event : Event) :
    Closed (step p event).out ∧
      (AllInSync (step p event).out ↔ AllInSync p.out ∧ Allowed p event) := by
  cases event with
  | discontinuity => exact ⟨h, by simp [step, Allowed]⟩
  | call call =>
    cases call with
    | publish frame now =>
      have hout : (step p (.call (.publish frame now))).out = p.out := by
        rcases hp : MediaFeed.publish p.feed frame now with ⟨feed, rc⟩
        cases rc <;> simp only [step, OutputDrain.step, hp]
      rw [hout]
      exact ⟨h, by simp [Allowed]⟩
    | visit active budget clocks now =>
      have hvisit := outputsDrain_visited h active now clocks budget
      refine ⟨hvisit.closed, ?_⟩
      change (∀ burst ∈ (outputsDrain active now clocks p budget).1.out.handed, InSync burst) ↔ _
      unfold Allowed AllInSync
      cases hready : (takeTracks p.out active).mux.tracksReady with
      | false =>
        rw [hvisit.refused hready]
        exact ⟨fun hold => ⟨hold, fun htrue => absurd (hready.symm.trans htrue) Bool.false_ne_true⟩, And.left⟩
      | true =>
        obtain ⟨bursts, hhanded, hhold⟩ := hvisit.ready hready
        rw [hhanded, List.forall_mem_append, hhold.inSync_iff]
        refine and_congr_right fun _ => ⟨?_, ?_⟩
        · intro hall _ frames hframes piece hpiece
          exact hall piece (List.mem_flatMap.mpr ⟨frames, hframes, hpiece⟩)
        · intro hall piece hpiece
          obtain ⟨frames, hframes, hcut⟩ := List.mem_flatMap.mp hpiece
          exact hall hready frames hframes piece hcut

theorem run_inSync {p : Programme} (h : Closed p.out) (events : List Event) :
    AllInSync (events.foldl step p).out ↔
      AllInSync p.out ∧ StepRun.Meets step Allowed p events := by
  induction events generalizing p with
  | nil => simp [StepRun.Meets]
  | cons event rest ih =>
    obtain ⟨hclosed, hstep⟩ := step_inSync h event
    rw [List.foldl_cons, ih hclosed, hstep, StepRun.Meets, and_assoc]

/-- Over every run of publications, visits and discontinuities: the bursts marked as sync points
start at one exactly when no batch was cut with a delta frame ahead of the first keyframe of a
burst. -/
theorem marked_bursts_in_sync (feed : MediaFeed.Feed) (events : List Event) :
    AllInSync (events.foldl step (initial feed (muxInit confDefault))).out ↔
      StepRun.Meets step Allowed (initial feed (muxInit confDefault)) events := by
  rw [run_inSync ⟨rfl, rfl⟩]
  simp [AllInSync, initial]

/-- A delta frame and the keyframe after it, read in one visit, make one burst. -/
def deltaFirst : List Event :=
  [.call (.publish ⟨.video, .h264, .annexb, 0, 3600, 3600, false, false,
      some [0, 0, 0, 1, 0x41]⟩ 0),
    .call (.publish ⟨.video, .h264, .annexb, 0, 7200, 7200, true, false,
      some [0, 0, 0, 1, 0x65]⟩ 40),
    .call (.visit (some (1, [⟨.video, .h264, .annexb, 0, 0, 0, 0, 0, 0, 0, 0, none⟩]))
      ⟨0, 0, 0, false⟩ [0, 0] 40)]

theorem marked_burst_starts_late : ∃ feed, MediaFeed.init ⟨512, 0, 0⟩ true = some feed ∧
    ¬AllInSync (deltaFirst.foldl step (initial feed (muxInit confDefault))).out := by
  refine ⟨_, rfl, ?_⟩
  unfold AllInSync
  decide +kernel

end OutputSync
