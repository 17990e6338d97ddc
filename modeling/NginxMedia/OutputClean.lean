import NginxMedia.LipSync
import NginxMedia.OutputDrain
import NginxMedia.TsHanded

/-! From the bytes of a source to the bursts of its programme: a demultiplexer whose frames are
published, the stream with its feed, and the drain that reads the feed. -/
namespace OutputClean

open MediaTypes MediaStream StreamMoves MediaProgram StreamSteady OutputDrain TsHanded

structure World where
  program : Program
  demux : TsDemux.Demux
  out : Outputs
  start : ℕ
  got : List ℕ
  lapsed : Bool

def World.programme (w : World) : Programme :=
  ⟨w.program.stream.feed, w.out, w.program.stream.writes.map Write.slot, w.start, w.got, w.lapsed⟩

def sink (r now : ℕ) (p : Program) : TsDemux.Output → Program
  | .frame f =>
    if usable p.stream r then
      MediaProgram.step (MediaProgram.step p (.observe r (.media f.dts now))) (.publish r f now)
    else p
  | .tracks set =>
    let p := if usable p.stream r then MediaProgram.step p (.observe r (.tracks set)) else p
    if p.stream.running ∧ set.any fun track => track.mediaType = .video then
      MediaProgram.step p (.observe r .hasVideo)
    else p

def ingest (r now : ℕ) (w : World) (demux : TsDemux.Demux) : World :=
  { w with
    program := (demux.core.out.drop w.demux.core.out.length).foldl (sink r now) w.program
    demux }

def activeTracks (s : Stream) (pointer : ℕ) : Active :=
  s.active.bind fun a => (s.source a).tracks.map fun tracks => (pointer, tracks)

def visit (w : World) (pointer : ℕ) (budget : Budget) (clocks : List ℕ) (now : ℕ) : World :=
  let p := (outputsDrain (activeTracks w.program.stream pointer) now clocks w.programme budget).1
  { w with
    program := { w.program with stream := { w.program.stream with feed := p.feed } }
    out := p.out
    got := p.got
    lapsed := p.lapsed }

def attach (w : World) : World :=
  { w with
    out := (OutputDrain.initial w.program.stream.feed (TsMux.muxInit TsMux.confDefault)).out
    start := w.program.stream.feed.head
    got := []
    lapsed := false }

inductive Call where
  | connect (maxTracks maxAuBytes : ℕ)
  | feed (mem : TsDemux.Memory) (bytes : List UInt8) (now : ℕ)
  | flush (mem : TsDemux.Memory) (now : ℕ)
  | program (call : MediaProgram.Call)
  | attach
  | visit (pointer : ℕ) (budget : Budget) (clocks : List ℕ) (now : ℕ)

def step (r : ℕ) (w : World) : Call → World
  | .connect maxTracks maxAuBytes => { w with demux := TsDemux.Demux.init maxTracks maxAuBytes }
  | .feed mem bytes now => ingest r now w (TsDemux.feed mem w.demux bytes)
  | .flush mem now => ingest r now w { w.demux with core := TsDemux.flush mem w.demux.core }
  | .program call => { w with program := MediaProgram.step w.program call }
  | .attach => attach w
  | .visit pointer budget clocks now => visit w pointer budget clocks now

def start (feed : MediaFeed.Feed) (selector : SelectorConf) : World :=
  attach
    { program := MediaProgram.start feed selector
      demux := TsDemux.Demux.init 8 (1024 * 1024)
      out := (OutputDrain.initial feed (TsMux.muxInit TsMux.confDefault)).out
      start := 0
      got := []
      lapsed := false }

def run (r : ℕ) (w : World) (calls : List Call) : World := calls.foldl (step r) w

/-- The source has its frames from its demultiplexer only. -/
def Foreign (r : ℕ) : Call → Prop
  | .program (.publish q _ _) => q ≠ r
  | _ => True

def aired (w : World) : List Write := w.got.filterMap fun n => w.program.stream.writes[n]?

/-- The units that are in the bursts. -/
def onAir (w : World) : List Write := (aired w).filter fun u => fits u.slot.frame

def Clean (f : Frame) : Prop :=
  ∃ payload, f.payload = some payload ∧ TsHanded.Elementary f.mediaType f.codec payload

structure Fed (r : ℕ) (s : Stream) (p : Program) : Prop where
  inv : Inv p.stream
  later : Later s p.stream
  clean : ∀ f, (r, f) ∈ p.stream.published → Handed f

theorem Fed.step {r : ℕ} {s : Stream} {p : Program} (h : Fed r s p) (call : MediaProgram.Call)
    (hcall : ∀ f, (r, f) ∈ accepted p call → Handed f) : Fed r s (MediaProgram.step p call) := by
  obtain ⟨hinv, hlater⟩ := step_inv h.inv call
  refine ⟨hinv, h.later.trans hlater, fun f hf => ?_⟩
  rw [step_published h.inv call] at hf
  rcases List.mem_append.mp hf with hf | hf
  · exact h.clean f hf
  · exact hcall f hf

theorem Fed.observe {r : ℕ} {s : Stream} {p : Program} (h : Fed r s p) (q : ℕ) (o : Observation) :
    Fed r s (MediaProgram.step p (.observe q o)) :=
  h.step _ fun _ hf => absurd hf List.not_mem_nil

theorem Fed.sink {r : ℕ} {s : Stream} {p : Program} (h : Fed r s p) (now : ℕ) {o : TsDemux.Output}
    (ho : ∀ f, o = .frame f → Handed f) : Fed r s (sink r now p o) := by
  cases o with
  | frame f =>
    simp only [OutputClean.sink]
    split_ifs
    · apply (h.observe r _).step
      intro g hg
      simp only [accepted] at hg
      split_ifs at hg
      · simp only [List.mem_singleton, Prod.mk.injEq, true_and] at hg
        rw [hg]
        exact ho f rfl
      · exact absurd hg List.not_mem_nil
    · exact h
  | tracks set =>
    have hset : Fed r s
        (if usable p.stream r then MediaProgram.step p (.observe r (.tracks set)) else p) := by
      split_ifs
      · exact h.observe r _
      · exact h
    unfold OutputClean.sink
    dsimp only
    generalize (if usable p.stream r then MediaProgram.step p (.observe r (.tracks set)) else p) = q
      at hset ⊢
    split_ifs
    · exact hset.observe r _
    · exact hset

theorem Fed.sinks {r : ℕ} {s : Stream} (now : ℕ) (outputs : List TsDemux.Output)
    (ho : ∀ f, TsDemux.Output.frame f ∈ outputs → Handed f) {p : Program} (h : Fed r s p) :
    Fed r s (outputs.foldl (OutputClean.sink r now) p) := by
  induction outputs generalizing p with
  | nil => exact h
  | cons o rest ih =>
    apply ih fun f hf => ho f (List.mem_cons_of_mem _ hf)
    apply h.sink now
    rintro f rfl
    exact ho f List.mem_cons_self

theorem drain_kept (active : Active) (now : ℕ) (clocks : List ℕ) (p : Programme) (budget : Budget) :
    (outputsDrain active now clocks p budget).1.published = p.published ∧
      (outputsDrain active now clocks p budget).1.start = p.start := by
  apply outputsDrain_induction (I := fun q => q.published = p.published ∧ q.start = p.start)
  · exact fun q maxUnits maxBytes h => h
  · exact fun q maxUnits maxBytes h => h
  · exact fun q maxUnits maxBytes cursor h => h
  · exact ⟨rfl, rfl⟩

structure Reads (a b : MediaFeed.Feed) : Prop where
  generation : b.generation = a.generation
  ring : ∀ units, MediaFeed.Inv a units → MediaFeed.Inv b units

theorem Reads.read {a b : MediaFeed.Feed} (h : Reads a b) (cursor : MediaFeed.Cursor)
    (maxUnits maxBytes now : ℕ) : Reads a (MediaFeed.read b cursor maxUnits maxBytes now).feed := by
  constructor
  · exact (read_feed_generation b cursor maxUnits maxBytes now).trans h.generation
  · exact fun units hu => ((h.ring units hu).after_read cursor maxUnits maxBytes now).1

theorem drain_reads (active : Active) (now : ℕ) (clocks : List ℕ) (p : Programme) (budget : Budget) :
    Reads p.feed (outputsDrain active now clocks p budget).1.feed := by
  apply outputsDrain_induction (I := fun q => Reads p.feed q.feed)
  · exact fun q maxUnits maxBytes h => h.read _ _ _ _
  · exact fun q maxUnits maxBytes h => h.read _ _ _ _
  · exact fun q maxUnits maxBytes cursor h => h.read _ _ _ _
  · exact ⟨rfl, fun _ hu => hu⟩

/-- Every stage of the way keeps its part. -/
structure Good (r : ℕ) (w : World) : Prop where
  fed : Fed r w.program.stream w.program
  follows : Follows w.programme
  demux : Sound w.demux.core

theorem Good.program {r : ℕ} {w : World} (h : Good r w) {p : Program}
    (hp : Fed r w.program.stream p) {demux : TsDemux.Demux} (hd : Sound demux.core) :
    Good r { w with program := p, demux } := by
  obtain ⟨ws, hws, -⟩ := hp.later.grown
  refine ⟨⟨hp.inv, Later.refl _, hp.clean⟩, ?_, hd⟩
  have hfeed := hp.inv.feed
  rw [hws, List.map_append] at hfeed
  have hgrow := h.follows.grow hfeed
  simp only [World.programme, hws, List.map_append]
  exact hgrow

theorem Good.ingest {r : ℕ} {w : World} (h : Good r w) (now : ℕ) {demux : TsDemux.Demux}
    (hd : Sound demux.core) : Good r (ingest r now w demux) := by
  apply h.program _ hd
  apply h.fed.sinks
  exact fun f hf => hd.handed f (List.mem_of_mem_drop hf)

theorem Good.visit {r : ℕ} {w : World} (h : Good r w) (pointer : ℕ) (budget : Budget)
    (clocks : List ℕ) (now : ℕ) : Good r (visit w pointer budget clocks now) := by
  have hreads := drain_reads (activeTracks w.program.stream pointer) now clocks w.programme budget
  obtain ⟨hpublished, hstart⟩ := drain_kept (activeTracks w.program.stream pointer) now clocks
    w.programme budget
  have hdrain := h.follows.drain (activeTracks w.program.stream pointer) now clocks budget
  have hsame : Same w.program.stream (OutputClean.visit w pointer budget clocks now).program.stream :=
    ⟨rfl, rfl, rfl, rfl, rfl, rfl, hreads.generation, hreads.ring, fun _ => Kept.refl _⟩
  have hfield : ∀ p : Programme, p.published = w.programme.published →
      p.start = w.programme.start → (⟨p.feed, p.out, w.program.stream.writes.map Write.slot, w.start,
        p.got, p.lapsed⟩ : Programme) = p := by
    rintro ⟨feed, out, published, start, got, lapsed⟩ rfl rfl
    rfl
  have hprogramme : (OutputClean.visit w pointer budget clocks now).programme =
      (outputsDrain (activeTracks w.program.stream pointer) now clocks w.programme budget).1 :=
    hfield _ hpublished hstart
  refine ⟨⟨hsame.inv h.fed.inv, Later.refl _, h.fed.clean⟩, ?_, h.demux⟩
  rw [hprogramme]
  exact hdrain

theorem Good.attach {r : ℕ} {w : World} (h : Good r w) : Good r (attach w) := by
  refine ⟨h.fed, ⟨h.fed.inv.feed, ⟨rfl, rfl, holds_nil⟩, ?_⟩, h.demux⟩
  exact fun _ hn => absurd hn List.not_mem_nil

theorem Good.step {r : ℕ} {w : World} (h : Good r w) {call : Call} (hcall : Foreign r call) :
    Good r (step r w call) := by
  cases call with
  | connect maxTracks maxAuBytes => exact ⟨h.fed, h.follows, init_sound _ _⟩
  | feed mem bytes now => exact h.ingest now (feed_sound h.demux bytes)
  | flush mem now => exact h.ingest now (flush_sound h.demux)
  | program call =>
    refine h.program (h.fed.step call fun f hf => ?_) h.demux
    cases call with
    | publish q frame now =>
      simp only [accepted] at hf
      split_ifs at hf
      · simp only [List.mem_singleton, Prod.mk.injEq] at hf
        exact absurd hf.1.symm hcall
      · exact absurd hf List.not_mem_nil
    | _ => exact absurd hf List.not_mem_nil
  | attach => exact h.attach
  | visit pointer budget clocks now => exact h.visit pointer budget clocks now

theorem start_good {conf : MediaFeed.Conf} {feed : MediaFeed.Feed} (selector : SelectorConf) (r : ℕ)
    (hfeed : MediaFeed.init conf true = some feed) : Good r (start feed selector) := by
  have hinv := start_inv hfeed selector
  refine Good.attach ⟨⟨hinv, Later.refl _, ?_⟩, ⟨hinv.feed, ⟨rfl, rfl, holds_nil⟩, ?_⟩, init_sound _ _⟩
  · exact fun _ hf => absurd hf List.not_mem_nil
  · exact fun _ hn => absurd hn List.not_mem_nil

theorem run_good {conf : MediaFeed.Conf} {feed : MediaFeed.Feed} (selector : SelectorConf) (r : ℕ)
    (hfeed : MediaFeed.init conf true = some feed) {calls : List Call}
    (hcalls : ∀ call ∈ calls, Foreign r call) : Good r (run r (start feed selector) calls) := by
  have hmeets : StepRun.Meets (step r) (fun _ call => Foreign r call) (start feed selector) calls :=
    StepRun.meets_of_forall hcalls _
  exact StepRun.invariant_of_meets (fun _ _ h hcall => h.step hcall) (start_good selector r hfeed)
    hmeets

theorem Good.carries {r : ℕ} {w : World} (h : Good r w) :
    List.Forall₂ (fun place (u : Write) => Carries place u.slot.frame) (carried w.out.handed)
      (onAir w) := by
  have hholds := h.follows.drained.holds
  have haired : w.programme.aired = (aired w).map fun u => u.slot.frame := by
    simp only [Programme.aired, World.programme, aired, List.map_filterMap, List.getElem?_map,
      Option.map_map]
    rfl
  rw [Holds, haired, List.filter_map] at hholds
  exact List.forall₂_map_right_iff.mp hholds

theorem Good.handed {r : ℕ} {w : World} (h : Good r w) {u : Write} (hu : u ∈ onAir w)
    (hr : u.source = r) : Handed u.slot.frame ∧ u.slot.frame.config = u.frame.config := by
  obtain ⟨n, -, hn⟩ := List.mem_filterMap.mp (List.mem_filter.mp hu).1
  obtain ⟨-, hrecord, hframe⟩ := h.fed.inv.wrote u (List.mem_of_getElem? hn)
  rw [hr] at hrecord
  have hhanded := h.fed.clean u.frame hrecord
  rw [hframe]
  exact ⟨hhanded, rfl⟩

theorem handed_clean {f : Frame} (h : Handed f) : Clean f ↔ f.config = false := by
  obtain ⟨payload, hpayload, hkind⟩ := h
  constructor
  · rintro ⟨payload', hpayload', helementary⟩
    obtain rfl := Option.some.inj (hpayload.symm.trans hpayload')
    by_contra hconfig
    rw [if_pos (by simpa using hconfig)] at hkind
    exact hkind.not_elementary helementary
  · intro hconfig
    rw [if_neg (by simp [hconfig])] at hkind
    exact ⟨payload, hpayload, hkind⟩

def lateAudio : List UInt8 :=
  ([.burst 0 true, .frame (LipSync.accessUnit 0) true, .frame (LipSync.accessUnit 3600) false,
    .frame (LipSync.adtsAt 3700) false].foldl TsRoundTrip.step
      (TsRoundTrip.Session.start TsRoundTrip.pairMux)).stream

def onePass (bytes : List UInt8) : List Call :=
  [.program (.sourceAdd [97] 1 1 true true), .program (.promote 0), .feed TsRoundTrip.enough bytes 10,
    .flush TsRoundTrip.enough 10, .visit 1 ⟨0, 0, 0, false⟩ [0, 0] 10]

theorem onePass_foreign (bytes : List UInt8) : ∀ call ∈ onePass bytes, Foreign 0 call := by
  simp [onePass, Foreign]

theorem asc_on_air : ¬ ∀ (conf : MediaFeed.Conf) (feed : MediaFeed.Feed),
    MediaFeed.init conf true = some feed → ∀ (selector : SelectorConf) (r : ℕ) (calls : List Call),
    (∀ call ∈ calls, Foreign r call) →
    ∀ u ∈ onAir (run r (start feed selector) calls), u.source = r → Clean u.slot.frame := by
  intro h
  obtain ⟨u, hu, hr, hkind, hpayload⟩ :
      ∃ u ∈ onAir (run 0 (start smallFeed selectorAuto) (onePass lateAudio)), u.source = 0 ∧
        u.slot.frame.mediaType = .audio ∧ u.slot.frame.payload = some [18, 16] := by
    decide +kernel
  obtain ⟨payload, hsome, helementary⟩ := h _ smallFeed smallFeed_init selectorAuto 0
    (onePass lateAudio) (onePass_foreign lateAudio) u hu hr
  obtain rfl := Option.some.inj (hpayload.symm.trans hsome)
  rw [hkind] at helementary
  have hlen := AdtsFrames.length helementary
  exact absurd hlen (by decide)

/-- The slices of the bursts are the units that the drain has written, and those of a source
are clean exactly when none of them is a configuration frame. -/
theorem output_clean {conf : MediaFeed.Conf} {feed : MediaFeed.Feed}
    (hfeed : MediaFeed.init conf true = some feed) (selector : SelectorConf) (r : ℕ)
    {calls : List Call} (hcalls : ∀ call ∈ calls, Foreign r call) :
    List.Forall₂ (fun place (u : Write) => Carries place u.slot.frame)
        (carried (run r (start feed selector) calls).out.handed)
        (onAir (run r (start feed selector) calls)) ∧
      ((∀ u ∈ onAir (run r (start feed selector) calls), u.source = r → Clean u.slot.frame) ↔
        ∀ u ∈ onAir (run r (start feed selector) calls), u.source = r → u.frame.config = false) := by
  have hgood := run_good selector r hfeed hcalls
  refine ⟨hgood.carries, forall₂_congr fun u hu => imp_congr_right fun hr => ?_⟩
  obtain ⟨hhanded, hconfig⟩ := hgood.handed hu hr
  rw [handed_clean hhanded, hconfig]

/-- The audio configuration of this stream goes to the source before it is active. -/
theorem output_clean_early_audio :
    (onAir (run 0 (start smallFeed selectorAuto) (onePass LipSync.interleaved))).length = 3 ∧
      ∀ u ∈ onAir (run 0 (start smallFeed selectorAuto) (onePass LipSync.interleaved)),
        u.source = 0 → Clean u.slot.frame :=
  ⟨by decide +kernel, (output_clean smallFeed_init selectorAuto 0
    (onePass_foreign LipSync.interleaved)).2.mpr (by decide +kernel)⟩

end OutputClean
