import NginxMedia.MediaTimeline
import NginxMedia.MediaPreroll
import NginxMedia.MediaHealth
import NginxMedia.MediaCompat

/-! The logical stream of `ngx_media_stream.c` and the selector of `ngx_media_selector.c`:
source queue, activation gate, write leases and the program feed. Sources live in a heap
indexed by reference; a removed source keeps its cell, with `pendingRemove` set.

`writes`, `published` and `activations` are ghost observations, read by no function: the
writes to the program feed in order, the frames each source was allowed to publish, and
the number of activations so far. -/
namespace MediaStream

open MediaTypes MediaTimeline MediaPreroll MediaHealth MediaCompat

inductive SourceState where
  | standby
  | awaitingSync
  | active
  deriving DecidableEq, Repr

/-- The runtime half of `ngx_media_source_t`; its desired half belongs to the graph. -/
structure Source where
  id : List UInt8
  type : ℕ
  priority : ℕ
  enabled : Bool
  state : SourceState
  lastMedia : ℕ
  tracks : Option TrackSet
  preroll : Preroll
  health : Health
  compat : Option Compat
  writers : ℕ
  framesIn : ℕ
  payloadBytesIn : ℕ
  framesOut : ℕ
  active : Bool
  hasVideo : Bool
  pendingSwitch : Bool
  pendingRemove : Bool

inductive Switchback where
  | auto
  | manual
  | never
  deriving DecidableEq, Repr

structure SelectorConf where
  failureTimeout : ℕ
  recoveryTimeout : ℕ
  switchKeyframe : Bool
  switchback : Switchback
  deriving DecidableEq, Repr

/-- One unit written to the program feed, with what the stream looked like then. -/
structure Write where
  source : ℕ
  frame : Frame
  slot : MediaFeed.Slot
  active : Option ℕ
  generation : ℕ
  activation : ℕ
  deriving DecidableEq, Repr

structure Stream where
  sources : List ℕ
  source : ℕ → Source
  fresh : ℕ
  active : Option ℕ
  timeline : Timeline
  selector : SelectorConf
  feed : MediaFeed.Feed
  generation : ℕ
  switches : ℕ
  emergencySwitches : ℕ
  programFrames : ℕ
  running : Bool
  writes : List Write
  published : List (ℕ × Frame)
  activations : ℕ

def Source.new (id : List UInt8) (type priority : ℕ) (preroll : Preroll) : Source :=
  { id := id
    type := type
    priority := priority
    enabled := true
    state := .standby
    lastMedia := 0
    tracks := none
    preroll := preroll
    health := Health.zero
    compat := none
    writers := 0
    framesIn := 0
    payloadBytesIn := 0
    framesOut := 0
    active := false
    hasVideo := false
    pendingSwitch := false
    pendingRemove := false }

def defaultPreroll : Preroll :=
  { units := fun _ => Frame.empty
    capacity := 1024
    maxUnits := MediaPreroll.defaultUnits
    maxBytes := MediaPreroll.defaultBytes
    head := 0
    tail := 0
    bytes := 0
    overflows := 0
    unitOverflows := 0
    byteOverflows := 0
    highWaterUnits := 0
    highWaterBytes := 0
    haveBoundary := false }

def init (feed : MediaFeed.Feed) (selector : SelectorConf) : Stream :=
  { sources := []
    source := fun _ => Source.new [] 0 0 defaultPreroll
    fresh := 0
    active := none
    timeline := MediaTimeline.init
    selector := selector
    feed := feed
    generation := 1
    switches := 0
    emergencySwitches := 0
    programFrames := 0
    running := true
    writes := []
    published := []
    activations := 0 }

def Source.demoted (src : Source) : Source := { src with state := .standby, active := false }

def Source.promoted (src : Source) : Source :=
  { src with state := .active, active := true, pendingSwitch := false }

def Source.awaiting (src : Source) : Source :=
  { src with pendingSwitch := true, state := .awaitingSync }

def Source.removed (src : Source) : Source := { src with pendingRemove := true }

def alter (s : Stream) (r : ℕ) (f : Source → Source) : Stream :=
  { s with source := Function.update s.source r (f (s.source r)) }

def usable (s : Stream) (r : ℕ) : Bool :=
  decide (r < s.fresh) && s.running && !(s.source r).pendingRemove

def maxName : ℕ := 256

def sourceFind (s : Stream) (id : List UInt8) : Option ℕ :=
  s.sources.find? fun r => (s.source r).id = id

def sourceAdd (s : Stream) (id : List UInt8) (type priority : ℕ) (admitted allocated : Bool) :
    Stream × Option ℕ :=
  if s.running = false ∨ id.length = 0 ∨ id.length > maxName ∨ priority > 2 ^ 32 - 1 then
    (s, none)
  else if (sourceFind s id).isSome then (s, none)
  else if admitted = false then (s, none)
  else
    match MediaPreroll.init MediaPreroll.defaultUnits MediaPreroll.defaultBytes allocated with
    | none => (s, none)
    | some preroll =>
      ({ s with
          source := Function.update s.source s.fresh (Source.new id type priority preroll)
          sources := s.sources ++ [s.fresh]
          fresh := s.fresh + 1 }, some s.fresh)

def splice (s : Stream) : Stream :=
  { s with
    timeline := MediaTimeline.discontinuity s.timeline
    feed := MediaFeed.discontinuity s.feed
    generation := s.generation + 1 }

def sourceRemove (s : Stream) (r : ℕ) : Stream :=
  if r < s.fresh ∧ (s.source r).pendingRemove = false then
    let s := alter s r Source.removed
    let s := if s.active = some r then splice { alter s r Source.demoted with active := none }
      else s
    { s with sources := s.sources.filter (· ≠ r) }
  else s

/-- `ngx_media_stream_retire()`, less the destinations. -/
def retire (s : Stream) : Stream :=
  let s := { s with running := false }
  let s := s.sources.foldl sourceRemove s
  { s with sources := [], active := none }

def leaseBegin (s : Stream) (r : ℕ) : Stream × Rc :=
  if usable s r then (alter s r fun src => { src with writers := src.writers + 1 }, .ok)
  else (s, .error)

def leaseEnd (s : Stream) (r : ℕ) : Stream :=
  if (s.source r).writers > 0 then
    alter s r fun src => { src with writers := src.writers - 1 }
  else s

def writeProgram (s : Stream) (r : ℕ) (frame : Frame) (now : ℕ) : Stream × Rc :=
  let mapped := MediaTimeline.map s.timeline frame.pts frame.dts
  let unit := { frame with pts := mapped.2.1, dts := mapped.2.2 }
  match MediaFeed.publish s.feed unit now with
  | (feed, .ok) =>
    ({ alter s r (fun src => { src with framesOut := src.framesOut + 1 }) with
        timeline := mapped.1
        feed := feed
        programFrames := s.programFrames + 1
        writes := s.writes ++
          [⟨r, frame, ⟨unit, now⟩, s.active, s.feed.generation, s.activations⟩] }, .ok)
  | (feed, _) => ({ s with timeline := mapped.1, feed := feed }, .error)

/-- `ngx_media_source_preroll_replay()` into the program. -/
def replay (s : Stream) (r : ℕ) (now : ℕ) (frames : List Frame) : Stream :=
  frames.foldl (fun s frame => (writeProgram s r frame now).1) s

def demote (s : Stream) (old : ℕ) : Stream :=
  { splice (alter s old Source.demoted) with switches := s.switches + 1 }

def activate (s : Stream) (r : ℕ) (now : ℕ) : Stream :=
  let s := { alter s r Source.promoted with
    active := some r
    activations := s.activations + 1 }
  let s := replay s r now (s.source r).preroll.frames
  alter s r fun src => { src with preroll := MediaPreroll.reset src.preroll }

def switchNow (s : Stream) (r : ℕ) (now : ℕ) : Stream × Rc :=
  match s.active with
  | none => (activate s r now, .ok)
  | some old =>
    if old = r then (alter s r fun src => { src with pendingSwitch := false }, .ok)
    else if (s.source old).writers > 0 then (s, .again)
    else (activate (demote s old) r now, .ok)

/-- The test of `ngx_media_stream_switch_resolve()`. -/
def resolvable (src : Source) : Bool :=
  src.pendingSwitch && decide (src.state = .awaitingSync) && src.preroll.ready

def resolveOne (s : Stream) (r : ℕ) : Stream :=
  if resolvable (s.source r) then (switchNow s r (s.source r).lastMedia).1 else s

def switchResolve (s : Stream) : Stream := s.sources.foldl resolveOne s

/-- The counters `ngx_media_stream_publish()` updates before it looks at the gate. -/
def arrived (src : Source) (frame : Frame) (now : ℕ) : Source :=
  { src with
    framesIn := src.framesIn + 1
    payloadBytesIn := src.payloadBytesIn + frame.size
    lastMedia := now }

def publish (s : Stream) (r : ℕ) (frame : Frame) (now : ℕ) : Stream × Rc :=
  if usable s r then
    let s := { alter s r (fun src => arrived src frame now) with
      published := s.published ++ [(r, frame)] }
    if (s.source r).state = .active then
      let s := (leaseBegin s r).1
      let out := writeProgram s r frame now
      (switchResolve (leaseEnd out.1 r), out.2)
    else
      let s := alter s r fun src =>
        { src with preroll := (MediaPreroll.push src.preroll src.hasVideo frame).1 }
      if (s.source r).state = .awaitingSync ∧ frame.keyframe then switchNow s r now
      else (s, .ok)
  else (s, .error)

def promote (s : Stream) (r : ℕ) : Stream × Rc :=
  if usable s r then
    if s.active = some r then
      (alter s r fun src => { src with pendingSwitch := false }, .ok)
    else
      let s := alter s r Source.awaiting
      if (s.source r).preroll.ready then switchNow s r (s.source r).lastMedia
      else (s, .ok)
  else (s, .error)

structure SelectorResult where
  best : Option ℕ
  emergency : Option ℕ
  eligible : ℕ
  activeEligible : Bool
  deriving DecidableEq, Repr

def prefer (s : Stream) (chosen : Option ℕ) (candidate : ℕ) : Option ℕ :=
  match chosen with
  | none => some candidate
  | some c => if (s.source candidate).priority > (s.source c).priority then some candidate
    else some c

def refresh (program : Option TrackSet) (isActive : Bool) (now : ℕ) (src : Source) : Source :=
  let health := MediaHealth.evaluate src.health now
  let compat := classify program src.tracks
  { src with
    compat := some compat
    health := MediaHealth.tracks health (decide (compat ≠ .incompatible) || isActive) }

/-- One round of the loop of `ngx_media_selector_evaluate()`. -/
def evaluateOne (program : Option TrackSet) (now : ℕ) (acc : Stream × SelectorResult) (r : ℕ) :
    Stream × SelectorResult :=
  let s := alter acc.1 r (refresh program (decide (acc.1.active = some r)) now)
  let out := acc.2
  if s.active = some r then
    (s, { out with activeEligible := (s.source r).health.eligible })
  else if (s.source r).enabled = false then (s, out)
  else if (s.source r).health.eligible = false then (s, out)
  else
    let out := { out with eligible := out.eligible + 1 }
    if (s.source r).compat = some .incompatible then
      (s, { out with emergency := prefer s out.emergency r })
    else (s, { out with best := prefer s out.best r })

def selectorEvaluate (s : Stream) (now : ℕ) : Stream × SelectorResult :=
  let program := match s.active with
    | some a => (s.source a).tracks
    | none => none
  s.sources.foldl (evaluateOne program now) (s, ⟨none, none, 0, true⟩)

def failover (s : Stream) (res : SelectorResult) : Stream × Rc :=
  match res.best with
  | some best => promote s best
  | none =>
    match res.emergency with
    | some emergency =>
      promote { s with emergencySwitches := s.emergencySwitches + 1 } emergency
    | none => (s, .ok)

def selectorRun (s : Stream) (now : ℕ) : Stream × Rc :=
  let (s, res) := selectorEvaluate s now
  match s.active with
  | none => failover s res
  | some a =>
    if res.activeEligible then
      match res.best with
      | some best =>
        if (s.source best).priority > (s.source a).priority ∧ s.selector.switchback = .auto then
          promote s best
        else (s, .ok)
      | none => (s, .ok)
    else failover s res

def selectorSwitchback (s : Stream) (now : ℕ) : Stream × Rc :=
  if s.selector.switchback = .never then (s, .declined)
  else
    let (s, res) := selectorEvaluate s now
    match res.best with
    | none => (s, .declined)
    | some best =>
      match s.active with
      | some a =>
        if (s.source best).priority ≤ (s.source a).priority then (s, .declined)
        else promote s best
      | none => promote s best

end MediaStream
