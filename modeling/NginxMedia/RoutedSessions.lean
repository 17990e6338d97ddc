import NginxMedia.ByteString
import NginxMedia.IpcFrame
import NginxMedia.MediaGraph
import NginxMedia.MediaHealth
import NginxMedia.SlotTable

/-! The owner's side of routing, `ngx_media_runtime_route_sink()`: publishers that are connected
to other workers and feed a programme driven here. A slot of a fixed table stands for one
connection; sources and streams are objects at addresses. `accepted` and `published` remember
which sessions were admitted and which frames were published; nothing reads them. -/
namespace RoutedSessions

open ByteString MediaTypes
open MediaGraph (Str ownerHash)
open IpcFrame (Header Datagram Assembly)

def maxRouted : ℕ := 32
def maxName : ℕ := 256
def maxTrackConfig : ℕ := 64 * 1024

instance : NeZero maxRouted := ⟨by decide⟩

def msgOpen : ℕ := 1
def msgClose : ℕ := 2
def msgTracks : ℕ := 3
def msgGraph : ℕ := 10
def msgAccept : ℕ := 11
def msgReject : ℕ := 12

def sourceSrt : ℕ := 1
def sourceRtmp : ℕ := 2
def typeVideo : ℕ := 1

structure RoutedTrack where
  mediaType : ℕ
  codec : ℕ
  payloadFormat : ℕ
  sampleRate : ℕ
  channels : ℕ
  profile : ℕ
  level : ℕ
  width : ℕ
  height : ℕ
  config : Option Payload
  deriving DecidableEq, Repr

structure Source where
  stream : ℕ
  id : Str
  type : ℕ
  priority : ℕ
  pendingRemove : Bool
  keySet : Bool
  health : MediaHealth.Health
  tracks : Option (List RoutedTrack)
  hasVideo : Bool
  deriving DecidableEq, Repr

def Source.new (stream : ℕ) (id : Str) (type priority : ℕ) : Source :=
  ⟨stream, id, type, priority, false, false, MediaHealth.Health.zero, none, false⟩

/-- `ngx_media_stream_t` at its address; a source is at its address too. -/
structure Stream where
  handle : ℕ
  application : Str
  name : Str
  incarnation : ℕ
  failureTimeout : ℕ
  recoveryTimeout : ℕ
  sources : List ℕ
  active : Option ℕ
  deriving DecidableEq, Repr

/-- `ngx_media_runtime_routed_t` that is used. -/
structure Slot where
  peer : ℕ
  hash : ℕ
  incarnation : ℕ
  session : ℕ
  created : Bool
  sequenced : Bool
  nextSequence : ℕ
  stream : ℕ
  source : ℕ
  frame : Assembly

structure Stats where
  identityMismatches : ℕ
  slotOverflows : ℕ
  noSlot : ℕ
  noPayload : ℕ
  frameRestarts : ℕ
  sequenceGaps : ℕ
  reassemblyErrors : ℕ
  deriving DecidableEq, Repr

structure World where
  sources : ℕ → Source
  fresh : ℕ
  streams : List Stream
  freshStream : ℕ
  slots : Fin maxRouted → Option Slot
  sourceRefs : ℕ → ℤ
  streamRefs : ℕ → ℤ
  stats : Stats
  accepted : List (ℕ × ℕ)
  published : List (ℕ × ℕ)

def initial : World :=
  ⟨fun _ => Source.new 0 [] 0 0, 0, [], 0, fun _ => none, fun _ => 0, fun _ => 0,
    ⟨0, 0, 0, 0, 0, 0, 0⟩, [], []⟩

/-- What the rest of the worker answers while one message is handled. -/
structure Env where
  owns : Bool
  claims : Bool
  creates : Bool
  adds : Bool
  promotes : Bool
  trackset : Bool
  bytes : ℕ → Bool
  pid : ℕ → ℕ
  policy : Option (ℕ × ℕ)
  now : ℕ

def World.setSource (w : World) (x : ℕ) (f : Source → Source) : World :=
  { w with sources := Function.update w.sources x (f (w.sources x)) }

def World.setStream (w : World) (handle : ℕ) (f : Stream → Stream) : World :=
  { w with streams := w.streams.map fun st => if st.handle = handle then f st else st }

def World.setSlot (w : World) (i : Fin maxRouted) (slot : Option Slot) : World :=
  { w with slots := Function.update w.slots i slot }

def World.stream (w : World) (application name : Str) : Option Stream :=
  w.streams.find? fun st => decide (st.name = name ∧ st.application = application)

def World.sourceFind (w : World) (st : Stream) (id : Str) : Option ℕ :=
  st.sources.find? fun x => decide ((w.sources x).id = id)

def World.streamCreate (w : World) (application name : Str) (incarnation : ℕ) : World :=
  { w with
    streams := w.streams ++ [⟨w.freshStream, application, name, incarnation, 0, 0, [], none⟩]
    freshStream := w.freshStream + 1 }

def World.sourceAdd (w : World) (handle : ℕ) (id : Str) (type priority : ℕ) : World :=
  { w with
    sources := Function.update w.sources w.fresh (Source.new handle id type priority)
    fresh := w.fresh + 1
    streams := w.streams.map fun st =>
      if st.handle = handle then { st with sources := st.sources ++ [w.fresh] } else st }

def World.sourceRemove (w : World) (x : ℕ) : World :=
  if (w.sources x).pendingRemove then w
  else
    (w.setSource x fun s => { s with pendingRemove := true }).setStream (w.sources x).stream
      fun st =>
        { st with
          sources := st.sources.filter fun y => decide (y ≠ x)
          active := st.active.filter fun y => decide (y ≠ x) }

def World.retain (w : World) (slot : Slot) : World :=
  { w with
    sourceRefs := Function.update w.sourceRefs slot.source (w.sourceRefs slot.source + 1)
    streamRefs := Function.update w.streamRefs slot.stream (w.streamRefs slot.stream + 1) }

def World.release (w : World) (slot : Slot) : World :=
  { w with
    sourceRefs := Function.update w.sourceRefs slot.source (w.sourceRefs slot.source - 1)
    streamRefs := Function.update w.streamRefs slot.stream (w.streamRefs slot.stream - 1) }

def sourceClose (env : Env) (w : World) (slot : Slot) : World :=
  let s := w.sources slot.source
  if s.stream ≠ slot.stream ∨ s.pendingRemove then w
  else if slot.created ∧ s.keySet = false then w.sourceRemove slot.source
  else
    w.setSource slot.source fun s => { s with health := MediaHealth.transport s.health false env.now }

def routedClose (env : Env) (w : World) (i : Fin maxRouted) : World :=
  match w.slots i with
  | none => w
  | some slot => ((sourceClose env w slot).release slot).setSlot i none

/-- A walk over the table that closes the slots which satisfy `p`. -/
def closeWhere (env : Env) (p : World → Slot → Bool) (w : World) : World :=
  (List.finRange maxRouted).foldl
    (fun w i => if (w.slots i).any (p w) then routedClose env w i else w) w

def openParse (p : List UInt8) : Option (Str × Str × Str) :=
  let a := word (p.take 4)
  let b := word ((p.drop 4).take 4)
  let c := word ((p.drop 8).take 4)
  if p.length < 12 then none
  else if a = 0 ∨ a > maxName ∨ b = 0 ∨ b > maxName ∨ c = 0 ∨ c > maxName then none
  else if p.length ≠ 12 + a + b + c then none
  else some ((p.drop 12).take a, (p.drop (12 + a)).take b, (p.drop (12 + a + b)).take c)

def World.target (w : World) (source : Option ℕ) : Option (Fin maxRouted) :=
  (source.bind fun x => SlotTable.find w.slots fun slot => slot.source = x).or
    (SlotTable.alloc w.slots)

def openStream (env : Env) (w : World) (application name : Str) (incarnation : ℕ) :
    Option (ℕ × World) :=
  match w.stream application name with
  | some st => some (st.handle, w)
  | none =>
    if env.creates then some (w.freshStream, w.streamCreate application name incarnation) else none

def openSource (env : Env) (w : World) (handle : ℕ) (source : Option ℕ) (id : Str)
    (header : Header) : Option (ℕ × Bool × World) :=
  match source with
  | some x => some (x, false, w)
  | none =>
    if env.adds then
      some (w.fresh, true, w.sourceAdd handle id header.sourceType header.priority)
    else none

def openHealth (env : Env) (w : World) (handle x : ℕ) : World :=
  let w := w.setStream handle fun st =>
    match env.policy with
    | some (failure, recovery) => { st with failureTimeout := failure, recoveryTimeout := recovery }
    | none => st
  let times := (w.streams.find? fun st => decide (st.handle = handle)).elim (0, 0) fun st =>
    (st.failureTimeout, st.recoveryTimeout)
  let w := w.setSource x fun s =>
    { s with
      health := MediaHealth.transport (MediaHealth.init times.1 times.2 env.now) true env.now }
  w.setStream handle fun st =>
    { st with active := st.active.or (if env.promotes then some x else none) }

def Slot.opened (old : Option Slot) (peer : ℕ) (header : Header) (handle x : ℕ) (created : Bool) :
    Slot where
  peer := peer
  hash := header.hash
  incarnation := header.incarnation
  session := header.session
  created := created || old.any Slot.created
  sequenced := false
  nextSequence := 0
  stream := handle
  source := x
  frame := ⟨header, [], 0, false, 0⟩

def openSlot (w : World) (i : Fin maxRouted) (peer : ℕ) (header : Header) (handle x : ℕ)
    (created : Bool) : World :=
  let slot := Slot.opened (w.slots i) peer header handle x created
  let released := (w.slots i).elim w w.release
  { (released.setSlot i (some slot)).retain slot with
    accepted := w.accepted ++ [(header.session, x)] }

def routeOpen (env : Env) (w : World) (peer : ℕ) (header : Header)
    (payload : Option (List UInt8)) : World × Rc :=
  if header.incarnation = 0 ∨ header.session = 0 ∨
      (header.sourceType ≠ sourceSrt ∧ header.sourceType ≠ sourceRtmp) ∨ env.owns = false ∨
      header.session / 2 ^ 32 ≠ env.pid peer then (w, .error)
  else
    match payload.bind openParse with
    | none => (w, .error)
    | some (application, name, id) =>
      if (ownerHash application name).toNat ≠ header.hash then (w, .error)
      else
        let stream := w.stream application name
        if stream.any fun st => decide (st.incarnation ≠ header.incarnation) then
          ({ w with stats :=
              { w.stats with identityMismatches := w.stats.identityMismatches + 1 } }, .declined)
        else
          let source := stream.bind fun st => w.sourceFind st id
          if source.any fun x => decide ((w.sources x).type ≠ header.sourceType) ||
              (w.sources x).pendingRemove then (w, .declined)
          else
            match w.target source with
            | none =>
              ({ w with stats := { w.stats with slotOverflows := w.stats.slotOverflows + 1 } },
                .declined)
            | some i =>
              if env.claims = false then (w, .error)
              else
                match openStream env w application name header.incarnation with
                | none => (w, .error)
                | some (handle, w) =>
                  match openSource env w handle source id header with
                  | none => (w, .error)
                  | some (x, created, w) =>
                    (openSlot (openHealth env w handle x) i peer header handle x created, .ok)

def Slot.serves (header : Header) (slot : Slot) : Bool :=
  decide (slot.hash = header.hash ∧ slot.incarnation = header.incarnation ∧
    slot.session = header.session)

def World.deleted (w : World) (slot : Slot) : Bool :=
  decide ((w.sources slot.source).stream ≠ slot.stream) || (w.sources slot.source).pendingRemove

def World.mismatch (w : World) (hash : ℕ) : World :=
  if (SlotTable.find w.slots fun slot => slot.hash = hash).isSome then
    { w with stats := { w.stats with identityMismatches := w.stats.identityMismatches + 1 } }
  else w

def tracksParse (env : Env) : ℕ → List UInt8 → Option (List RoutedTrack)
  | 0, _ => some []
  | count + 1, p =>
    let field := fun k => word ((p.drop (4 * k)).take 4)
    let rest := p.drop 40
    if p.length < 40 then none
    else if field 9 > rest.length ∨ field 9 > maxTrackConfig then none
    else if field 9 > 0 ∧ env.bytes (field 9) = false then none
    else
      (tracksParse env count (rest.drop (field 9))).map fun tracks =>
        ⟨field 0, field 1, field 2, field 3, field 4, field 5, field 6, field 7, field 8,
          if field 9 > 0 then some (rest.take (field 9)) else none⟩ :: tracks

def routeTracks (env : Env) (w : World) (header : Header) (payload : Option (List UInt8)) :
    World × Rc :=
  match payload with
  | none => (w, .error)
  | some p =>
    let count := word (p.take 4)
    if p.length < 4 then (w, .error)
    else if count = 0 ∨ count > 8 ∨ env.trackset = false then (w, .error)
    else
      match tracksParse env count (p.drop 4) with
      | none => (w, .error)
      | some tracks =>
        match SlotTable.find w.slots fun slot => slot.serves header && !w.deleted slot with
        | none => (w.mismatch header.hash, .ok)
        | some i =>
          match w.slots i with
          | none => (w, .ok)
          | some slot =>
            (w.setSource slot.source fun s =>
              { s with
                tracks := if env.trackset then some tracks else none
                hasVideo := s.hasVideo || tracks.any fun t => decide (t.mediaType = typeVideo) },
              .ok)

def routeClose (env : Env) (w : World) (header : Header) : World × Rc :=
  match SlotTable.find w.slots (Slot.serves header) with
  | none => (w.mismatch header.hash, .ok)
  | some i => (routedClose env w i, .ok)

/-- The sender numbers every frame; the number is judged at a frame's first chunk. -/
def Slot.sequence (slot : Slot) (header : Header) : Slot :=
  if header.offset = 0 then { slot with sequenced := true, nextSequence := header.sequence + 1 }
  else slot

/-- The numbers that the owner never saw. -/
def Slot.gap (slot : Slot) (header : Header) : ℕ :=
  if header.offset = 0 ∧ slot.sequenced then header.sequence - slot.nextSequence else 0

def routeChunk (env : Env) (w : World) (i : Fin maxRouted) (slot : Slot) (header : Header)
    (payload : List UInt8) : World × Rc :=
  let (frame, status) := IpcFrame.feed (fun h => env.bytes h.total) slot.frame ⟨header, payload⟩
  let w :=
    if frame.restarts ≠ slot.frame.restarts then
      { w with stats := { w.stats with frameRestarts := w.stats.frameRestarts + 1 } }
    else w
  match status with
  | .error =>
    ({ w.setSlot i (some { slot with frame := frame }) with
      stats := { w.stats with reassemblyErrors := w.stats.reassemblyErrors + 1 } }, .error)
  | .again =>
    ({ w.setSlot i (some { slot.sequence header with frame := frame }) with
      stats := { w.stats with sequenceGaps := w.stats.sequenceGaps + slot.gap header } }, .ok)
  | .ok =>
    let w :=
      { w.setSlot i (some { slot.sequence header with frame := frame.reset }) with
        stats := { w.stats with sequenceGaps := w.stats.sequenceGaps + slot.gap header } }
    ({ w.setSource slot.source fun s =>
        { s with health := MediaHealth.media s.health header.dts env.now } with
      published := w.published ++ [(header.session, slot.source)] }, .ok)

def routeFrame (env : Env) (w : World) (header : Header) (payload : Option (List UInt8)) :
    World × Rc :=
  match SlotTable.find w.slots (Slot.serves header) with
  | none =>
    if (SlotTable.find w.slots fun slot => slot.hash = header.hash).isSome then
      (w.mismatch header.hash, .ok)
    else ({ w with stats := { w.stats with noSlot := w.stats.noSlot + 1 } }, .ok)
  | some i =>
    match w.slots i with
    | none => (w, .ok)
    | some slot =>
      if w.deleted slot then (routedClose env w i, .ok)
      else
        match payload with
        | none => ({ w with stats := { w.stats with noPayload := w.stats.noPayload + 1 } }, .ok)
        | some p => routeChunk env w i slot header p

/-- `ngx_media_runtime_route_sink()`. What a graph operation does to the registry is a step of
the control plane here. -/
def routeSink (env : Env) (w : World) (peer : ℕ) (header : Header)
    (payload : Option (List UInt8)) : World × Rc :=
  if header.type = msgGraph then (w, .ok)
  else if header.type = msgOpen then routeOpen env w peer header payload
  else if header.type = msgTracks then routeTracks env w header payload
  else if header.type = msgClose then routeClose env w header
  else routeFrame env w header payload

/-- `ngx_media_runtime_route_sink()` without a header: the endpoint of a peer is closed. -/
def peerLost (env : Env) (w : World) (peer : ℕ) : World :=
  closeWhere env (fun _ slot => decide (slot.peer = peer)) w

def fence (env : Env) (w : World) : World :=
  closeWhere env (fun w slot => decide (slot.session / 2 ^ 32 ≠ env.pid slot.peer) ||
    (w.sources slot.source).pendingRemove) w

/-- `ngx_media_route_read_handler()` on one message: an admission that cannot be answered is
taken back. -/
def receive (env : Env) (w : World) (peer : ℕ) (header : Header) (payload : Option (List UInt8))
    (replied : Bool) : World :=
  if header.type = msgAccept ∨ header.type = msgReject then w
  else
    let (w, rc) := routeSink env w peer header payload
    if header.type = msgOpen ∧ replied = false ∧ rc = .ok then (routeClose env w header).1 else w

/-- Messages of other workers, losses of peers, the periodic visit, and what the control plane
of this worker does meanwhile. -/
inductive Call where
  | message (peer : ℕ) (header : Header) (payload : Option (List UInt8)) (replied : Bool)
      (env : Env)
  | lost (peer : ℕ) (env : Env)
  | fence (env : Env)
  | streamCreate (application name : Str) (incarnation : ℕ)
  | streamRemove (handle : ℕ)
  | sourceAdd (handle : ℕ) (id : Str) (type priority : ℕ)
  | sourceRemove (x : ℕ)
  | setKey (x : ℕ)

/-- `ngx_media_stream_retire()` and the removal from the registry. -/
def World.streamRemove (w : World) (handle : ℕ) : World :=
  let w := ((w.streams.filter fun st => decide (st.handle = handle)).flatMap Stream.sources).foldl
    World.sourceRemove w
  { w with streams := w.streams.filter fun st => decide (st.handle ≠ handle) }

def step (w : World) : Call → World
  | .message peer header payload replied env => receive env w peer header payload replied
  | .lost peer env => peerLost env w peer
  | .fence env => fence env w
  | .streamCreate application name incarnation =>
    if (w.stream application name).isNone then w.streamCreate application name incarnation else w
  | .streamRemove handle => w.streamRemove handle
  | .sourceAdd handle id type priority =>
    if (w.streams.any fun st => decide (st.handle = handle) && (w.sourceFind st id).isNone) then
      w.sourceAdd handle id type priority
    else w
  | .sourceRemove x => w.sourceRemove x
  | .setKey x => w.setSource x fun s => { s with keySet := true }

def run (calls : List Call) : World := calls.foldl step initial

end RoutedSessions
