import NginxMedia.RtmpPlayer
import NginxMedia.RtmpPrepare

/-! An RTMP destination, `ngx_media_rtmp_dest_t`: the state of one outgoing connection and the pump
that moves units of the shared fan-out into its output queue. The scheduler's lists and the
maintenance heap are not part of it. `sent` remembers the units of the connection; nothing reads
it. -/
namespace RtmpDestination

open MediaTypes RtmpFanout RtmpOutput RtmpPrepare
open RtmpPlayer (unitMessage)

def csidControl : ℕ := 2
def csidCommand : ℕ := 3
def csidAudio : ℕ := 4
def csidVideo : ℕ := 5
def csidData : ℕ := 6

def msgVideo : ℕ := 9
def msgDataAmf0 : ℕ := 18

/-- `NGX_MEDIA_RTMP_DEST_SCHED_UNITS`, `NGX_MEDIA_RTMP_DEST_SCHED_BYTES`. -/
def schedUnits : ℕ := 512
def schedBytes : ℕ := 8 * 1024 * 1024

def amfBuffer : ℕ := 2048
def queueRetry : ℕ := 100
def retryDelay : ℕ := 1000

inductive State where
  | idle
  | connecting
  | handshake
  | commands
  | publishing
  deriving DecidableEq, Repr

inductive Phase where
  | connect
  | create
  | publish
  deriving DecidableEq, Repr

/-- The client's side of `ngx_media_rtmp_handshake_t`: `c1` is what the peer has sent of it. -/
structure Handshake where
  state : ℕ
  received : ℕ
  c1 : List UInt8
  deriving DecidableEq, Repr

def Handshake.init : Handshake := ⟨0, 0, []⟩

inductive Batch where
  | reduced
  | full
  deriving DecidableEq, Repr

def Batch.units : Batch → ℕ
  | .reduced => 8
  | .full => 32

/-- `pending` is the used part of `read_buffer`, `pendingLen` the counter that says how long it
is. `batch` is empty until the resources have been sampled. -/
structure Dest where
  used : Bool
  prepared : Bool
  state : State
  phase : Phase
  connection : Bool
  handshake : Handshake
  replySent : Bool
  reader : RtmpReader.Reader
  pending : List UInt8
  pendingLen : ℕ
  streamId : ℕ
  out : Output
  writeBlocked : Bool
  cursor : ℕ
  announced : Bool
  metadataSent : Bool
  batch : Option Batch
  lastSample : ℕ
  retryAt : ℕ
  transportErrors : ℕ
  backpressureEvents : ℕ
  sent : List Media

def Dest.release (now : ℕ) (d : Dest) : Dest :=
  { d with
    connection := false
    writeBlocked := false
    out := Output.init
    reader := RtmpReader.Reader.init
    handshake := Handshake.init
    pendingLen := 0
    replySent := false
    phase := .connect
    streamId := 0
    cursor := 0
    announced := false
    metadataSent := false
    state := .idle
    retryAt := if d.used then now + retryDelay else 0
    sent := [] }

def Dest.fail (now : ℕ) (d : Dest) : Dest :=
  { d with transportErrors := d.transportErrors + 1 }.release now

def Dest.flush (now : ℕ) (socket : Option ℕ) (d : Dest) : Dest :=
  if d.connection = false ∨ d.out.out = [] then d
  else
    match socket with
    | none => d.fail now
    | some n =>
      let out := RtmpOutput.flush n d.out
      { d with out := out, writeBlocked := !out.out.isEmpty }

def announce (mem : ℕ → Bool) (prep : Prepare) : List Track → Prepare × Rc
  | [] => (prep, .ok)
  | track :: rest =>
    match (prepareSequence mem prep track.mediaType track) with
    | ⟨prep, _, _, .ok⟩ => announce mem prep rest
    | ⟨prep, _, _, _⟩ => (prep, .error)

abbrev Metadata := { bytes : Payload // bytes ≠ [] ∧ bytes.length ≤ amfBuffer }

structure Pump where
  tracks : Option (List Track)
  metadata : Option Metadata
  headerMem : ℕ → Bool
  metadataMem : Memory
  mem : ℕ → Memory
  pressed : Bool
  now : ℕ
  socket : Option ℕ

def announceOnce (env : Pump) (tracks : List Track) (prep : Prepare) (d : Dest) : Prepare × Dest :=
  if d.announced then (prep, d)
  else
    let d := { d with announced := true }
    if d.cursor = 0 ∧ prep.fan.tail > 0 then
      match announce env.headerMem prep tracks with
      | (next, .ok) => (next, { d with cursor := prep.fan.head })
      | (next, _) => (next, d)
    else (prep, d)

def sendMetadata (env : Pump) (tracks : List Track) (d : Dest) : Dest :=
  if tracks = [] then d
  else
    match env.metadata with
    | none => d
    | some bytes =>
      { d with
        out := (queueMessage destLimits env.metadataMem d.out
          (whole csidData msgDataAmf0 d.streamId 0 bytes.val) (some destLimits.maxBytes)).1 }

def introduce (env : Pump) (prep : Prepare) (d : Dest) : Option (Prepare × Dest) :=
  if d.metadataSent then some (prep, d)
  else
    match env.tracks with
    | none => none
    | some tracks =>
      let (prep, d) := announceOnce env tracks prep d
      some (prep, { sendMetadata env tracks d with metadataSent := true })

def sampleResources (env : Pump) (d : Dest) : Dest :=
  if d.batch = none ∨ env.now - d.lastSample ≥ 1000 then
    { d with batch := some (if env.pressed then .reduced else .full), lastSample := env.now }
  else d

structure Pumping where
  dest : Dest
  units : ℕ
  bytes : ℕ
  exhausted : Bool
  blocked : Bool
  failed : Bool

def Dest.advance (d : Dest) (out : Output) (unit : Media) : Dest :=
  { d with out := out, cursor := unit.sequence + 1, sent := d.sent ++ [unit] }

def Pumping.advance (p : Pumping) (out : Output) (unit : Media) (wire : ℕ) : Pumping :=
  { p with dest := p.dest.advance out unit, units := p.units + 1, bytes := p.bytes + wire }

def csidOf (unit : Media) : ℕ := if unit.type = msgVideo then csidVideo else csidAudio

def pumpLoop (mem : ℕ → Memory) (fan : Fanout) (byteBudget : ℕ) : ℕ → Pumping → Pumping
  | 0, p => p
  | n + 1, p =>
    if p.dest.out.outQueue < destLimits.maxQueue then
      match next fan p.dest.cursor with
      | none => p
      | some unit =>
        match queueMessage destLimits (mem n) p.dest.out
            (unitMessage (csidOf unit) p.dest.streamId unit) (some (byteBudget - p.bytes)) with
        | (out, .ok, wire) => pumpLoop mem fan byteBudget n (p.advance out unit wire)
        | (_, .declined, _) => { p with exhausted := true }
        | (_, .again, _) => { p with blocked := true }
        | (_, .error, _) => { p with failed := true }
    else p

structure Pumped where
  prep : Prepare
  dest : Dest
  units : ℕ
  bytes : ℕ
  exhausted : Bool
  more : Bool

def pumpEnd (env : Pump) (prep : Prepare) (queued : ℕ) (p : Pumping) : Pumped :=
  let waiting := fun d : Dest => (next prep.fan d.cursor).isSome
  let d := p.dest
  let d :=
    if (p.blocked ∨ d.out.outQueue ≥ destLimits.maxQueue) ∧ waiting d then
      { d with backpressureEvents := d.backpressureEvents + 1 }
    else d
  let d := if p.units > 0 ∨ d.out.outBytes > queued then d.flush env.now env.socket else d
  if d.used = false ∨ d.state ≠ .publishing ∨ d.connection = false ∨ d.writeBlocked ∨
      d.out.out ≠ [] then ⟨prep, d, p.units, p.bytes, p.exhausted, false⟩
  else if p.blocked ∧ p.units = 0 then
    ⟨prep, { d with retryAt := env.now + queueRetry }, p.units, p.bytes, p.exhausted, false⟩
  else ⟨prep, d, p.units, p.bytes, p.exhausted, waiting d⟩

def pump (env : Pump) (unitBudget byteBudget : ℕ) (prep : Prepare) (d : Dest) : Pumped :=
  if d.prepared = false ∨ d.state ≠ .publishing then ⟨prep, d, 0, 0, false, false⟩
  else
    match introduce env prep d with
    | none => ⟨prep, d, 0, 0, false, false⟩
    | some (prep, introduced) =>
      let sampled := sampleResources env introduced
      let p := pumpLoop env.mem prep.fan byteBudget
        (min ((sampled.batch.elim 0 Batch.units)) unitBudget) ⟨sampled, 0, 0, false, false, false⟩
      if p.failed then ⟨prep, p.dest.fail env.now, 0, 0, p.exhausted, false⟩
      else pumpEnd env prep d.out.outBytes p

def headerOf (mem : ℕ → Bool) (prep : Prepare) (track : Track) : List Push :=
  let r := prepareSequence mem prep track.mediaType track
  if r.prep.fan.head = prep.fan.head then [] else [sequencePush track.mediaType track r.body]

/-- The units that an announcement adds. -/
def headersOf (mem : ℕ → Bool) (prep : Prepare) : List Track → List Push
  | [] => []
  | track :: rest =>
    match prepareSequence mem prep track.mediaType track with
    | ⟨next, _, _, .ok⟩ => headerOf mem prep track ++ headersOf mem next rest
    | _ => headerOf mem prep track

variable {mem : ℕ → Bool} {prep : Prepare} {track : Track}

structure Sequenced (mem : ℕ → Bool) (prep : Prepare) (mediaType : MediaType) (track : Track)
    (r : Prepared) : Prop where
  fan : r.prep.fan = prep.fan ∨ r.prep.fan = push prep.fan (sequencePush mediaType track r.body)
  ok : (∀ n, mem n = true) → r.rc = .ok

theorem skip_sequenced (mem : ℕ → Bool) (prep : Prepare) (mediaType : MediaType) (track : Track) :
    Sequenced mem prep mediaType track (skip prep) :=
  ⟨Or.inl rfl, fun _ => rfl⟩

theorem sequenceBody_sequenced (mem : ℕ → Bool) (prep : Prepare) (mediaType : MediaType)
    (track : Track) (record body : List UInt8) :
    Sequenced mem prep mediaType track (sequenceBody mem prep mediaType track record body) := by
  unfold sequenceBody
  split
  · rename_i hmem
    refine ⟨Or.inl rfl, fun hall => ?_⟩
    rw [hall] at hmem
    exact absurd hmem (by decide)
  · exact ⟨Or.inr rfl, fun _ => rfl⟩

theorem prepareSequence_sequenced (mem : ℕ → Bool) (prep : Prepare) (mediaType : MediaType)
    (track : Track) :
    Sequenced mem prep mediaType track (prepareSequence mem prep mediaType track) := by
  unfold prepareSequence
  split
  · exact ⟨Or.inl rfl, fun _ => rfl⟩
  split
  · rename_i hvideo
    subst hvideo
    split
    · unfold hevcSequence
      split
      · split
        · exact skip_sequenced mem prep .video track
        split
        · exact ⟨Or.inl rfl, fun _ => rfl⟩
        · exact sequenceBody_sequenced mem prep _ _ _ _
      · exact skip_sequenced mem prep .video track
    · unfold avcSequence
      split
      · split
        · exact skip_sequenced mem prep .video track
        split
        · exact ⟨Or.inl rfl, fun _ => rfl⟩
        · exact sequenceBody_sequenced mem prep _ _ _ _
      · exact skip_sequenced mem prep .video track
  · exact sequenceBody_sequenced mem prep _ _ _ _

theorem headerOf_stamped {ps : List Push} (h : RtmpCursor.Stamped prep.fan ps) (mem : ℕ → Bool)
    (track : Track) :
    RtmpCursor.Stamped (prepareSequence mem prep track.mediaType track).prep.fan
      (ps ++ headerOf mem prep track) := by
  have hsequenced := prepareSequence_sequenced mem prep track.mediaType track
  unfold headerOf
  dsimp only
  rcases hsequenced.fan with hsame | hpush
  · rw [if_pos (congrArg Fanout.head hsame), hsame, List.append_nil]
    exact h
  · rw [if_neg (by rw [hpush, RtmpCursor.push_head]; omega), hpush]
    exact h.push _

theorem announce_stamped {ps : List Push} (h : RtmpCursor.Stamped prep.fan ps) (mem : ℕ → Bool)
    (tracks : List Track) :
    RtmpCursor.Stamped (announce mem prep tracks).1.fan (ps ++ headersOf mem prep tracks) := by
  induction tracks generalizing prep ps with
  | nil => rwa [headersOf, List.append_nil]
  | cons track rest ih =>
    have hheader := headerOf_stamped h mem track
    rw [announce, headersOf]
    generalize prepareSequence mem prep track.mediaType track = r at hheader ⊢
    obtain ⟨next, record, body, rc⟩ := r
    cases rc with
    | ok =>
      rw [← List.append_assoc]
      exact ih hheader
    | error => exact hheader
    | again => exact hheader
    | declined => exact hheader

theorem announce_ok (hmem : ∀ n, mem n = true) (prep : Prepare) (tracks : List Track) :
    (announce mem prep tracks).2 = .ok := by
  induction tracks generalizing prep with
  | nil => rfl
  | cons track rest ih =>
    have hok := (prepareSequence_sequenced mem prep track.mediaType track).ok hmem
    rw [announce]
    generalize prepareSequence mem prep track.mediaType track = r at hok ⊢
    obtain ⟨next, record, body, rc⟩ := r
    cases hok
    exact ih next

end RtmpDestination
