import NginxMedia.RtmpAmf
import NginxMedia.RtmpDestination

/-! What a remote server's answers make of an RTMP destination: the handshake, the commands, and
the read handler with its buffer. The reader calls the command handler for each message, and the
command handler may release the destination whose reader and buffer are still at work. -/
namespace RtmpReplies

open MediaTypes ByteString RtmpOutput RtmpDestination RtmpReader
open RtmpAmf (Writer double typeString typeNumber typeNull typeObject)

def readBuffer : ℕ := 16384
def handshakeSize : ℕ := 1536
def rtmpVersion : ℕ := 3
def msgUserControl : ℕ := 4
def msgCommandAmf0 : ℕ := 20
def eventPingRequest : ℕ := 6
def eventPingResponse : ℕ := 7
def defaultStreamId : ℕ := 1

/-- What a destination is configured with. -/
structure Target where
  application : Payload
  streamName : Payload
  host : Payload
  port : ℕ

/-- What the worker meets at one point of a visit: memory for a message that is received, for raw
bytes and for the messages that are sent, and the bytes the socket takes, or nothing when sending
fails. -/
structure Moment where
  alloc : ℕ → Bool
  raw : Bool
  mem : ℕ → Option Memory
  socket : Option ℕ
  now : ℕ

def send (mem : Option Memory) (csid type streamId : ℕ) (body : Payload) (d : Dest) : Dest :=
  match mem with
  | none => d
  | some mem =>
    { d with
      out := (queueMessage destLimits mem d.out (whole csid type streamId 0 body)
        (some destLimits.maxBytes)).1 }

def sendControl (mem : Option Memory) (type : ℕ) (body : Payload) (d : Dest) : Dest :=
  send mem csidControl type 0 body d

def sendCommand (mem : Option Memory) (streamId : ℕ) (body : Payload) (d : Dest) : Dest :=
  send mem csidCommand msgCommandAmf0 streamId body d

def tcUrl (target : Target) : Payload :=
  (ascii "rtmp://" ++ target.host ++ ascii ":" ++ decimal target.port ++ ascii "/" ++
    target.application).take 512

def connectCommand (target : Target) : Option Writer := do
  let w ← (Writer.init amfBuffer).putString (ascii "connect")
  let w ← w.putNumber (double 1)
  let w ← w.beginObject
  let w ← w.memberString (ascii "app") target.application
  let w ← w.memberString (ascii "type") (ascii "nonprivate" ++ [0])
  let w ← w.memberString (ascii "flashVer") (ascii "FMLE/3.0 (compatible; nginx-media)")
  let w ← w.memberString (ascii "tcUrl") (tcUrl target)
  let w ← w.memberBoolean (ascii "fpad") false
  let w ← w.memberNumber (ascii "capabilities") (double 15)
  let w ← w.memberNumber (ascii "audioCodecs") (double 4071)
  let w ← w.memberNumber (ascii "videoCodecs") (double 252)
  let w ← w.memberNumber (ascii "videoFunction") (double 1)
  let w ← w.memberNumber (ascii "objectEncoding") (double 0)
  w.endObject

def sendConnect (mem : Option Memory) (target : Target) (d : Dest) : Dest :=
  match connectCommand target with
  | none => d
  | some w => { sendCommand mem 0 w.data d with phase := .connect }

def streamCommand (name : String) (transaction : ℕ) (target : Target) : Option Writer := do
  let w ← (Writer.init amfBuffer).putString (ascii name)
  let w ← w.putNumber (double transaction)
  let w ← w.putNull
  w.putString target.streamName

def createStreamCommand : Option Writer := do
  let w ← (Writer.init amfBuffer).putString (ascii "createStream")
  let w ← w.putNumber (double 4)
  w.putNull

def sendBuilt (mem : Option Memory) (command : Option Writer) (d : Dest) : Dest :=
  match command with
  | none => d
  | some w => sendCommand mem 0 w.data d

def sendPublishSequence (mem : ℕ → Option Memory) (target : Target) (d : Dest) : Dest :=
  let d := sendBuilt (mem 0) (streamCommand "releaseStream" 2 target) d
  let d := sendBuilt (mem 1) (streamCommand "FCPublish" 3 target) d
  let d := sendBuilt (mem 2) createStreamCommand d
  { d with phase := .create }

def publishCommand (target : Target) : Option Writer := do
  let w ← streamCommand "publish" 5 target
  w.putString (ascii "live")

def sendPublish (mem : Option Memory) (target : Target) (d : Dest) : Dest :=
  match publishCommand target with
  | none => d
  | some w => { sendCommand mem d.streamId w.data d with phase := .publish }

def SendFails (m : Moment) (d : Dest) : Prop :=
  d.connection = true ∧ d.out.out ≠ [] ∧ m.socket = none

instance (m : Moment) (d : Dest) : Decidable (SendFails m d) :=
  inferInstanceAs (Decidable (_ ∧ _))

def flush (m : Moment) (d : Dest) : Dest × Bool := (d.flush m.now m.socket, decide (SendFails m d))

def commandOf (payload : Payload) : Option (Payload × List UInt8) :=
  match RtmpAmf.read payload with
  | .error _ => none
  | .ok (command, used) =>
    if command.type ≠ typeString then none
    else
      match RtmpAmf.read (payload.drop used) with
      | .error _ => none
      | .ok (_, more) => some (command.string, (payload.drop used).drop more)

def skipNull (data : List UInt8) : List UInt8 :=
  match RtmpAmf.read data with
  | .ok (value, used) => if value.type = typeNull then data.drop used else data
  | .error _ => data

/-- The message stream that `createStream` was answered with. -/
def takeStreamId (data : List UInt8) (d : Dest) : Dest :=
  let streamId :=
    match RtmpAmf.read (skipNull data) with
    | .ok (value, _) =>
      if value.type = typeNumber ∧ RtmpAmf.AtLeastOne value.number then
        RtmpAmf.toUnsigned value.number
      else d.streamId
    | .error _ => d.streamId
  { d with streamId := if streamId = 0 then defaultStreamId else streamId }

def statusCode (data : List UInt8) : Option Payload :=
  match RtmpAmf.read (skipNull data) with
  | .ok (status, _) =>
    if status.type ≠ typeObject then none else RtmpAmf.member status (ascii "code")
  | .error _ => none

def publishStart : Payload := ascii "NetStream.Publish.Start"

/-- `ngx_media_rtmp_dest_on_command()`, and whether it released the destination. -/
def onCommand (m : Moment) (target : Target) (d : Dest) (payload : Payload) : Dest × Bool :=
  match commandOf payload with
  | none => (d, false)
  | some (name, data) =>
    if name = ascii "_result" then
      match d.phase with
      | .connect => flush m (sendPublishSequence m.mem target d)
      | .create => flush m (sendPublish (m.mem 0) target (takeStreamId data d))
      | .publish => (d, false)
    else if name = ascii "onStatus" then
      if d.phase ≠ .publish then (d, false)
      else
        match statusCode data with
        | none => (d, false)
        | some code =>
          if code = publishStart then ({ d with state := .publishing, cursor := 0 }, false)
          else (d.fail m.now, true)
    else (d, false)

def onMessage (m : Moment) (target : Target) (d : Dest) (type : ℕ) (payload : Payload) :
    Dest × Bool :=
  if type = msgCommandAmf0 then onCommand m target d payload
  else if type = msgUserControl ∧ payload.length ≥ 6 ∧ byteAt payload 0 = 0 ∧
      byteAt payload 1 = eventPingRequest then
    (sendControl (m.mem 0) msgUserControl
      (payload.take 1 ++ low eventPingResponse :: (payload.drop 2).take 4) d, false)
  else (d, false)

/-- A message that makes the destination release itself: an answer that it follows up on while the
socket fails, or a status other than the one it waits for. -/
def Rejects (m : Moment) (target : Target) (d : Dest) (type : ℕ) (payload : Payload) : Prop :=
  type = msgCommandAmf0 ∧ ∃ command ∈ commandOf payload,
    (command.1 = ascii "_result" ∧ d.phase = .connect ∧
      SendFails m (sendPublishSequence m.mem target d)) ∨
    (command.1 = ascii "_result" ∧ d.phase = .create ∧
      SendFails m (sendPublish (m.mem 0) target (takeStreamId command.2 d))) ∨
    (command.1 = ascii "onStatus" ∧ d.phase = .publish ∧
      ∃ code ∈ statusCode command.2, code ≠ publishStart)

inductive Event where
  /-- The reader takes some of the bytes that are left to it. -/
  | pass (left : ℕ)
  /-- A message is complete. -/
  | message (d : Dest) (m : Moment) (type : ℕ) (payload : Payload)
  | release
  /-- The bytes consumed leave the buffer, which is `pendingLen` long. -/
  | move (consumed pendingLen : ℕ)
  | length (pendingLen : ℕ)

/-- The destination during a visit. `clock` counts what the worker has met; the trace is only
remembered. -/
structure Talk where
  dest : Dest
  trace : List Event
  clock : ℕ

variable (env : ℕ → Moment) (target : Target)

def Talk.note (t : Talk) (events : List Event) : Talk := { t with trace := t.trace ++ events }

def Talk.after (t : Talk) (result : Dest × Bool) : Talk :=
  { dest := result.1
    trace := t.trace ++ if result.2 then [.release] else []
    clock := t.clock + 1 }

def inBuffer (d : Dest) : List UInt8 := d.pending.take d.pendingLen

def setReader (d : Dest) (r : Reader) : Dest := { d with reader := r }

def countMessage (d : Dest) : Dest :=
  setReader d { d.reader with messages := d.reader.messages + 1 }

def Talk.withReader (t : Talk) (r : Reader) : Talk := { t with dest := setReader t.dest r }

def Talk.fail (t : Talk) : Talk := t.after (t.dest.fail (env t.clock).now, true)

def Talk.flush (t : Talk) : Talk := t.after (RtmpReplies.flush (env t.clock) t.dest)

def complete (t : Talk) (csid : ℕ) (cs : ChunkStream) : Talk × Rc :=
  let reader := t.dest.reader
  let r := setCs { reader with buffered := reader.buffered - cs.allocated } csid
    { cs with payload := none, allocated := 0 }
  match cs.payload with
  | none => (t.withReader r, .ok)
  | some payload =>
    let payload := payload.take cs.length
    match control r cs payload with
    | (r, .ok) =>
      let d := setReader t.dest r
      let answered := onMessage (env t.clock) target d cs.type payload
      ((t.note [.message d (env t.clock) cs.type payload]).after
        (countMessage answered.1, answered.2), .ok)
    | (r, _) => (t.withReader r, .error)

inductive Step where
  | stop (t : Talk)
  | fail (t : Talk) (consumed : ℕ)
  | next (t : Talk) (consumed : ℕ)

def Step.after (h : ℕ) : Step → Step
  | .stop t => .stop t
  | .fail t consumed => .fail t (h + consumed)
  | .next t consumed => .next t (h + consumed)

def payloadStep (t : Talk) (csid : ℕ) (cs : ChunkStream) (bytes : List UInt8) : Step :=
  let part := bytes.take (wanted t.dest.reader cs)
  let r := advance t.dest.reader csid cs part
  if (copied cs part).received ≥ (copied cs part).length then
    match complete env target (t.withReader (finish r)) csid (copied cs part) with
    | (t, .ok) => .next t part.length
    | (t, _) => .fail t part.length
  else .next (t.withReader r) part.length

def loopStep (t : Talk) (bytes : List UInt8) : Step :=
  let reader := t.dest.reader
  if reader.pendingRemaining > 0 then
    match reader.chunks reader.pendingCsid with
    | none => .fail (t.withReader (fault reader)) 0
    | some cs => payloadStep env target t reader.pendingCsid cs bytes
  else
    match parseHeader ⟨(env t.clock).alloc, fun _ _ => true⟩ reader bytes with
    | .more r => .stop (t.withReader r)
    | .bad r => .fail (t.withReader r) 0
    | .ready r csid cs h =>
      (payloadStep env target (t.withReader r) csid cs (bytes.drop h)).after h

/-- The `while` of `ngx_media_rtmp_reader_feed()`. The loop works on the bytes it was given,
whatever becomes of the buffer they are in. -/
def feedLoop : ℕ → Talk → List UInt8 → Talk × ℕ × Rc
  | 0, t, _ => (t, 0, .ok)
  | n + 1, t, bytes =>
    if bytes = [] then (t, 0, .ok)
    else
      match loopStep env target (t.note [.pass bytes.length]) bytes with
      | .stop t => (t, 0, .ok)
      | .fail t consumed => (t, consumed, .error)
      | .next t consumed =>
        let rest := feedLoop n t (bytes.drop consumed)
        (rest.1, consumed + rest.2.1, rest.2.2)

def feed (t : Talk) (bytes : List UInt8) : Talk × ℕ × Rc :=
  feedLoop env target (2 * bytes.length + 2) t bytes

/-- The last part of `ngx_media_rtmp_handshake_feed()`, behind `consumed` bytes. -/
def takeC2 (hs : Handshake) (data : List UInt8) (consumed : ℕ) : Handshake × ℕ × Rc :=
  if hs.state = 2 then
    let part := data.take (handshakeSize - hs.received)
    let hs := { hs with received := hs.received + part.length }
    if hs.received < handshakeSize then (hs, consumed + part.length, .again)
    else ({ hs with state := 3 }, consumed + part.length, .ok)
  else (hs, consumed, .ok)

def takeC1 (hs : Handshake) (data : List UInt8) (consumed : ℕ) : Handshake × ℕ × Rc :=
  if hs.state = 1 then
    let part := data.take (handshakeSize - hs.received)
    let hs :=
      { hs with c1 := hs.c1.take hs.received ++ part, received := hs.received + part.length }
    if hs.received < handshakeSize then (hs, consumed + part.length, .again)
    else takeC2 { hs with state := 2, received := 0 } (data.drop part.length) (consumed + part.length)
  else takeC2 hs data consumed

def handshakeFeed (hs : Handshake) (data : List UInt8) : Handshake × ℕ × Rc :=
  if hs.state = 0 then
    if data = [] then (hs, 0, .again)
    else if byteAt data 0 ≠ rtmpVersion then (hs, 0, .error)
    else takeC1 { hs with state := 1, received := 0 } (data.drop 1) 1
  else takeC1 hs data 0

def handshakeDone (m : Moment) (d : Dest) : Dest × Bool :=
  match queueRaw destLimits m.raw d.out d.handshake.c1 with
  | (out, .ok) =>
    flush m (sendConnect (m.mem 1) target
      (sendControl (m.mem 0) msgChunkSize (put32 outChunk) { d with out := out }))
  | (_, _) => (d.fail m.now, true)

inductive Recv where
  | again
  | closed
  | data (bytes : List UInt8)

/-- `size_t` subtraction. -/
def minus (a b : ℕ) : ℕ := (a + 2 ^ 64 - b) % 2 ^ 64

def Talk.receive (t : Talk) (part : List UInt8) : Talk :=
  { t with
    dest :=
      { t.dest with
        pending := inBuffer t.dest ++ part
        pendingLen := t.dest.pendingLen + part.length }
    trace := t.trace ++ [.length (t.dest.pendingLen + part.length)] }

def Talk.moved (t : Talk) (consumed : ℕ) : Talk :=
  if consumed = 0 then t
  else
    let rest := minus t.dest.pendingLen consumed
    { t with
      dest := { t.dest with pending := t.dest.pending.drop consumed, pendingLen := rest }
      trace := t.trace ++ [.move consumed t.dest.pendingLen, .length rest] }

def answerHandshake (t : Talk) : Talk × Bool :=
  if t.dest.replySent = false ∧ t.dest.handshake.state ≥ 2 then
    let t := t.after (handshakeDone target (env t.clock) { t.dest with replySent := true })
    (t, decide (t.dest.state = .idle))
  else (t, false)

def handshakePart (t : Talk) : Talk × Bool :=
  if t.dest.state ≠ .handshake then (t, false)
  else
    match handshakeFeed t.dest.handshake (inBuffer t.dest) with
    | (hs, consumed, rc) =>
      let t := { t with dest := { t.dest with handshake := hs } }.moved consumed
      if rc = .error then (t.fail env, true)
      else
        match answerHandshake env target t with
        | (t, true) => (t, true)
        | (t, false) =>
          if rc = .ok then ({ t with dest := { t.dest with state := .commands } }, false)
          else (t, false)

def chunkPart (t : Talk) : Talk × Bool :=
  if t.dest.state = .handshake ∨ t.dest.pendingLen = 0 then (t, false)
  else
    match feed env target t (inBuffer t.dest) with
    | (t, consumed, rc) =>
      if rc ≠ .ok then (t.fail env, true)
      else (t.moved consumed, decide ((t.moved consumed).dest.state = .idle))

/-- What follows the loop. -/
def Talk.leave (t : Talk) : Talk := if t.dest.out.out ≠ [] then t.flush env else t

/-- The `for` of `ngx_media_rtmp_dest_read_handler()`, on what the calls of `recv()` bring; they
bring no more than they are asked for. -/
def readLoop : List Recv → Talk → Talk
  | [], t => t.leave env
  | recv :: rest, t =>
    let take := minus readBuffer t.dest.pendingLen
    if take = 0 then t.fail env
    else
      match recv with
      | .again => t.leave env
      | .closed => t.fail env
      | .data bytes =>
        if bytes.take take = [] then t.fail env
        else
          match handshakePart env target (t.receive (bytes.take take)) with
          | (t, true) => t
          | (t, false) =>
            match chunkPart env target t with
            | (t, true) => t
            | (t, false) =>
              let t := t.flush env
              if t.dest.connection = false then t else readLoop rest t

def readHandler (script : List Recv) (d : Dest) : Talk :=
  if d.connection = false then ⟨d, [], 0⟩ else readLoop env target script ⟨d, [], 0⟩

def Event.Late : Event → Prop
  | .pass _ => True
  | .move _ _ => True
  | _ => False

def Event.Within : Event → Prop
  | .move consumed pendingLen => consumed ≤ pendingLen
  | .length pendingLen => pendingLen ≤ readBuffer
  | _ => True

instance (e : Event) : Decidable e.Within := by
  cases e <;> unfold Event.Within <;> infer_instance

def Event.Calm (target : Target) : Event → Prop
  | .pass _ => True
  | .message d m type payload => ¬Rejects m target d type payload
  | .release => False
  | .move consumed pendingLen => consumed ≤ pendingLen
  | .length pendingLen => pendingLen ≤ readBuffer

theorem Event.Calm.within {e : Event} (h : e.Calm target) : e.Within := by
  cases e with
  | pass left => trivial
  | message d m type payload => trivial
  | release => exact absurd h id
  | move consumed pendingLen => exact h
  | length pendingLen => exact h

variable {env} {target} {m : Moment} {d d' : Dest} {t t' : Talk} {csid : ℕ} {cs : ChunkStream}
  {bytes : List UInt8} {n : ℕ}

structure SameBuffer (d d' : Dest) : Prop where
  pending : d'.pending = d.pending
  pendingLen : d'.pendingLen = d.pendingLen
  reader : d'.reader = d.reader

theorem SameBuffer.refl (d : Dest) : SameBuffer d d := ⟨rfl, rfl, rfl⟩

theorem SameBuffer.trans {d'' : Dest} (h : SameBuffer d d') (h' : SameBuffer d' d'') :
    SameBuffer d d'' :=
  ⟨h'.pending.trans h.pending, h'.pendingLen.trans h.pendingLen, h'.reader.trans h.reader⟩

theorem send_same (mem : Option Memory) (csid type streamId : ℕ) (body : Payload) (d : Dest) :
    SameBuffer d (send mem csid type streamId body d) := by
  unfold send
  cases mem with
  | none => exact .refl d
  | some mem => exact ⟨rfl, rfl, rfl⟩

theorem sendBuilt_same (mem : Option Memory) (command : Option Writer) (d : Dest) :
    SameBuffer d (sendBuilt mem command d) := by
  unfold sendBuilt
  cases command with
  | none => exact .refl d
  | some w => exact send_same _ _ _ _ _ d

theorem sendPublishSequence_same (mem : ℕ → Option Memory) (target : Target) (d : Dest) :
    SameBuffer d (sendPublishSequence mem target d) := by
  have hall := ((sendBuilt_same (mem 0) (streamCommand "releaseStream" 2 target) d).trans
    (sendBuilt_same (mem 1) (streamCommand "FCPublish" 3 target) _)).trans
    (sendBuilt_same (mem 2) createStreamCommand _)
  exact ⟨hall.pending, hall.pendingLen, hall.reader⟩

theorem sendPublish_same (mem : Option Memory) (target : Target) (d : Dest) :
    SameBuffer d (sendPublish mem target d) := by
  unfold sendPublish
  cases publishCommand target with
  | none => exact .refl d
  | some w =>
    have hsent := send_same mem csidCommand msgCommandAmf0 d.streamId w.data d
    exact ⟨hsent.pending, hsent.pendingLen, hsent.reader⟩

theorem takeStreamId_same (data : List UInt8) (d : Dest) : SameBuffer d (takeStreamId data d) :=
  ⟨rfl, rfl, rfl⟩

theorem sendConnect_same (mem : Option Memory) (target : Target) (d : Dest) :
    SameBuffer d (sendConnect mem target d) := by
  unfold sendConnect
  cases connectCommand target with
  | none => exact .refl d
  | some w =>
    have hsent := send_same mem csidCommand msgCommandAmf0 0 w.data d
    exact ⟨hsent.pending, hsent.pendingLen, hsent.reader⟩

inductive Handled (d : Dest) : Dest × Bool → Prop
  | kept (d' : Dest) (h : SameBuffer d d') : Handled d (d', false)
  | released (d' : Dest) (hlen : d'.pendingLen = 0) (hreader : d'.reader = Reader.init)
      (hstate : d'.state = .idle) (hconnection : d'.connection = false) : Handled d (d', true)

theorem fail_handled (d d' : Dest) (now : ℕ) : Handled d (d'.fail now, true) :=
  .released _ rfl rfl rfl rfl

theorem flush_handled (h : SameBuffer d d') (m : Moment) : Handled d (flush m d') := by
  unfold flush Dest.flush
  by_cases hidle : d'.connection = false ∨ d'.out.out = []
  · have hquiet : ¬SendFails m d' := by
      rintro ⟨hconnection, hout, -⟩
      rcases hidle with hno | hno
      · exact absurd (hconnection.symm.trans hno) (by decide)
      · exact hout hno
    rw [if_pos hidle, decide_eq_false hquiet]
    exact .kept d' h
  · rw [if_neg hidle]
    cases hsocket : m.socket with
    | none =>
      rw [not_or, Bool.not_eq_false] at hidle
      have hfails : SendFails m d' := ⟨hidle.1, hidle.2, hsocket⟩
      rw [decide_eq_true hfails]
      exact fail_handled d d' m.now
    | some k =>
      have hquiet : ¬SendFails m d' := by
        rintro ⟨-, -, hfails⟩
        exact absurd (hsocket.symm.trans hfails) (by simp)
      rw [decide_eq_false hquiet]
      exact .kept _ ⟨h.pending, h.pendingLen, h.reader⟩

theorem onCommand_handled (m : Moment) (target : Target) (d : Dest) (payload : Payload) :
    Handled d (onCommand m target d payload) := by
  unfold onCommand
  split
  · exact .kept d (.refl d)
  split
  · split
    · exact flush_handled (sendPublishSequence_same m.mem target d) m
    · exact flush_handled ((takeStreamId_same _ d).trans (sendPublish_same (m.mem 0) target _)) m
    · exact .kept d (.refl d)
  split
  · split
    · exact .kept d (.refl d)
    split
    · exact .kept d (.refl d)
    split
    · exact .kept _ ⟨rfl, rfl, rfl⟩
    · exact fail_handled d d m.now
  · exact .kept d (.refl d)

theorem onMessage_handled (m : Moment) (target : Target) (d : Dest) (type : ℕ)
    (payload : Payload) : Handled d (onMessage m target d type payload) := by
  unfold onMessage
  split
  · exact onCommand_handled m target d payload
  split
  · exact .kept _ (send_same _ _ _ _ _ d)
  · exact .kept d (.refl d)

/-- The handler releases the destination on the messages that `Rejects` describes, and on no
others. -/
theorem onMessage_rejects (m : Moment) (target : Target) (d : Dest) (type : ℕ)
    (payload : Payload) : (onMessage m target d type payload).2 = true ↔
      Rejects m target d type payload := by
  unfold onMessage Rejects
  by_cases htype : type = msgCommandAmf0
  · rw [if_pos htype, and_iff_right htype]
    unfold onCommand
    cases hcommand : commandOf payload with
    | none => simp
    | some command =>
      obtain ⟨name, data⟩ := command
      have hnames : ascii "_result" ≠ ascii "onStatus" := by decide
      dsimp only
      by_cases hresult : name = ascii "_result"
      · subst hresult
        cases hphase : d.phase <;> simp [flush, hnames]
      · by_cases hstatus : name = ascii "onStatus"
        · subst hstatus
          cases hphase : d.phase with
          | connect => simp [hnames.symm]
          | create => simp [hnames.symm]
          | publish =>
            cases hcode : statusCode data with
            | none => simp [hnames.symm, hcode]
            | some code =>
              by_cases hstart : code = publishStart
              · simp [hnames.symm, hcode, hstart]
              · simp [hnames.symm, hcode, hstart]
        · simp [hresult, hstatus]
  · rw [if_neg htype]
    refine iff_of_false ?_ fun h => htype h.1
    split
    · exact Bool.false_ne_true
    · exact Bool.false_ne_true

def Step.talk : Step → Talk
  | .stop t => t
  | .fail t _ => t
  | .next t _ => t

@[simp] theorem Step.after_talk (h : ℕ) (step : Step) : (step.after h).talk = step.talk := by
  cases step <;> rfl

theorem after_extends (t : Talk) (result : Dest × Bool) :
    t.trace <+: (t.after result).trace :=
  List.prefix_append _ _

theorem complete_extends (env : ℕ → Moment) (target : Target) (t : Talk) (csid : ℕ)
    (cs : ChunkStream) : t.trace <+: (complete env target t csid cs).1.trace := by
  unfold complete
  dsimp only
  split
  · exact List.prefix_rfl
  split
  · exact (List.prefix_append t.trace [_]).trans (after_extends (t.note [_]) _)
  · exact List.prefix_rfl

theorem payloadStep_extends (env : ℕ → Moment) (target : Target) (t : Talk) (csid : ℕ)
    (cs : ChunkStream) (bytes : List UInt8) :
    t.trace <+: (payloadStep env target t csid cs bytes).talk.trace := by
  unfold payloadStep
  dsimp only
  generalize advance t.dest.reader csid cs (bytes.take (wanted t.dest.reader cs)) = r
  split
  · have hcomplete := complete_extends env target (t.withReader (finish r)) csid
      (copied cs (bytes.take (wanted t.dest.reader cs)))
    split
    · rename_i heq
      rw [heq] at hcomplete
      exact hcomplete
    · rename_i heq
      rw [heq] at hcomplete
      exact hcomplete
  · exact List.prefix_rfl

theorem loopStep_extends (env : ℕ → Moment) (target : Target) (t : Talk) (bytes : List UInt8) :
    t.trace <+: (loopStep env target t bytes).talk.trace := by
  unfold loopStep
  dsimp only
  split
  · split
    · exact List.prefix_rfl
    · exact payloadStep_extends env target t _ _ bytes
  · split
    · exact List.prefix_rfl
    · exact List.prefix_rfl
    · rename_i r csid cs h _
      rw [Step.after_talk]
      exact payloadStep_extends env target (t.withReader r) csid cs (bytes.drop h)

/-- The loop begins with a pass over what is left, unless nothing is. -/
theorem feedLoop_pass {fuel : ℕ} (hrest : ∀ t bytes,
    t.trace <+: (feedLoop env target fuel t bytes).1.trace) (t : Talk) (hne : bytes ≠ []) :
    t.trace ++ [.pass bytes.length] <+: (feedLoop env target (fuel + 1) t bytes).1.trace := by
  rw [feedLoop, if_neg hne]
  have hstep := loopStep_extends env target (t.note [.pass bytes.length]) bytes
  generalize loopStep env target (t.note [.pass bytes.length]) bytes = step at hstep ⊢
  cases step with
  | stop t' => exact hstep
  | fail t' n => exact hstep
  | next t' n => exact hstep.trans (hrest t' _)

theorem feedLoop_extends (env : ℕ → Moment) (target : Target) (fuel : ℕ) (t : Talk)
    (bytes : List UInt8) : t.trace <+: (feedLoop env target fuel t bytes).1.trace := by
  induction fuel generalizing t bytes with
  | zero => exact List.prefix_rfl
  | succ fuel ih =>
    by_cases hne : bytes = []
    · rw [feedLoop, if_pos hne]
    · exact (List.prefix_append _ _).trans (feedLoop_pass ih t hne)

theorem moved_extends (t : Talk) (consumed : ℕ) : t.trace <+: (t.moved consumed).trace := by
  unfold Talk.moved
  split
  · exact List.prefix_rfl
  · exact List.prefix_append _ _

theorem chunkPart_extends (env : ℕ → Moment) (target : Target) (t : Talk) :
    t.trace <+: (chunkPart env target t).1.trace := by
  unfold chunkPart
  split
  · exact List.prefix_rfl
  · have hfeed := feedLoop_extends env target (2 * (inBuffer t.dest).length + 2) t (inBuffer t.dest)
    rw [← feed] at hfeed
    generalize feed env target t (inBuffer t.dest) = r at hfeed ⊢
    obtain ⟨t', consumed, rc⟩ := r
    dsimp only
    split
    · exact hfeed.trans (after_extends _ _)
    · exact hfeed.trans (moved_extends _ _)

theorem answerHandshake_extends (env : ℕ → Moment) (target : Target) (t : Talk) :
    t.trace <+: (answerHandshake env target t).1.trace := by
  unfold answerHandshake
  split
  · exact after_extends _ _
  · exact List.prefix_rfl

theorem handshakePart_extends (env : ℕ → Moment) (target : Target) (t : Talk) :
    t.trace <+: (handshakePart env target t).1.trace := by
  unfold handshakePart
  split
  · exact List.prefix_rfl
  · generalize handshakeFeed t.dest.handshake (inBuffer t.dest) = r
    obtain ⟨hs, consumed, rc⟩ := r
    dsimp only
    have hmoved := moved_extends { t with dest := { t.dest with handshake := hs } } consumed
    generalize Talk.moved _ consumed = t' at hmoved ⊢
    have hanswered := answerHandshake_extends env target t'
    generalize answerHandshake env target t' = answered at hanswered ⊢
    split
    · exact hmoved.trans (after_extends _ _)
    · obtain ⟨t'', returned⟩ := answered
      cases returned with
      | true => exact hmoved.trans hanswered
      | false =>
        dsimp only
        split
        · exact hmoved.trans hanswered
        · exact hmoved.trans hanswered

theorem leave_extends (env : ℕ → Moment) (t : Talk) : t.trace <+: (t.leave env).trace := by
  unfold Talk.leave
  split
  · exact after_extends _ _
  · exact List.prefix_rfl

theorem readLoop_extends (env : ℕ → Moment) (target : Target) (script : List Recv) (t : Talk) :
    t.trace <+: (readLoop env target script t).trace := by
  induction script generalizing t with
  | nil => exact leave_extends env t
  | cons recv rest ih =>
    rw [readLoop.eq_def]
    dsimp only
    split
    · exact after_extends _ _
    cases recv with
    | again => exact leave_extends env t
    | closed => exact after_extends _ _
    | data bytes =>
      dsimp only
      split
      · exact after_extends _ _
      have hreceived := List.prefix_append t.trace
        [.length (t.dest.pendingLen +
          (bytes.take (minus readBuffer t.dest.pendingLen)).length)]
      have hhandshake := hreceived.trans (handshakePart_extends env target
        (t.receive (bytes.take (minus readBuffer t.dest.pendingLen))))
      generalize handshakePart env target _ = r at hhandshake ⊢
      obtain ⟨t', returned⟩ := r
      cases returned with
      | true => exact hhandshake
      | false =>
        have hchunk := hhandshake.trans (chunkPart_extends env target t')
        dsimp only
        generalize chunkPart env target t' = r at hchunk ⊢
        obtain ⟨t'', returned⟩ := r
        cases returned with
        | true => exact hchunk
        | false =>
          have hflush := hchunk.trans (after_extends t'' (flush (env t''.clock) t''.dest))
          dsimp only
          split
          · exact hflush
          · exact hflush.trans (ih _)

def rounds (t : Talk) (bytes : List UInt8) : ℕ :=
  2 * bytes.length + if t.dest.reader.pendingRemaining > 0 then 1 else 0

theorem complete_remaining (env : ℕ → Moment) (target : Target) (t : Talk) (csid : ℕ)
    (cs : ChunkStream) (h : t.dest.reader.pendingRemaining = 0) :
    (complete env target t csid cs).1.dest.reader.pendingRemaining = 0 := by
  unfold complete
  dsimp only
  split
  · exact h
  · rename_i payload _
    have hcontrol := control_pending
      (setCs { t.dest.reader with buffered := t.dest.reader.buffered - cs.allocated } csid
        { cs with payload := none, allocated := 0 }) cs (payload.take cs.length)
    split
    · rename_i r heq
      rw [heq] at hcontrol
      have hhandled := onMessage_handled (env t.clock) target (setReader t.dest r) cs.type
        (payload.take cs.length)
      generalize onMessage (env t.clock) target (setReader t.dest r) cs.type
        (payload.take cs.length) = answered at hhandled ⊢
      cases hhandled with
      | kept d' hsame =>
        change d'.reader.pendingRemaining = 0
        rw [hsame.reader]
        exact hcontrol.trans h
      | released d' hlen hreader _ _ =>
        change d'.reader.pendingRemaining = 0
        rw [hreader]
        rfl
    · rename_i r _ _ heq
      rw [heq] at hcontrol
      exact hcontrol.trans h

theorem payloadStep_progress (h : payloadStep env target t csid cs bytes = .next t' n) :
    n = 0 → bytes = [] ∨ t'.dest.reader.pendingRemaining = 0 ∨
      t.dest.reader.pendingRemaining = 0 := by
  intro hzero
  unfold payloadStep at h
  dsimp only at h
  split at h
  · have hremaining := complete_remaining env target (t.withReader (finish (advance t.dest.reader
      csid cs (bytes.take (wanted t.dest.reader cs))))) csid
      (copied cs (bytes.take (wanted t.dest.reader cs))) rfl
    split at h
    · rename_i heq
      rw [heq] at hremaining
      cases h
      exact Or.inr (Or.inl hremaining)
    · cases h
  · rename_i hend
    cases h
    rw [copied_received, copied_length, List.length_take, wanted] at hend
    rw [List.length_take, wanted] at hzero
    rw [← List.length_eq_zero_iff]
    omega

theorem payloadStep_consumed (h : payloadStep env target t csid cs bytes = .next t' n) :
    n ≤ bytes.length := by
  have hpart : (bytes.take (wanted t.dest.reader cs)).length ≤ bytes.length := by
    rw [List.length_take]
    exact Nat.min_le_right _ _
  unfold payloadStep at h
  dsimp only at h
  split at h
  · split at h
    · cases h
      exact hpart
    · cases h
  · cases h
    exact hpart

theorem loopStep_progress (hne : bytes ≠ []) (h : loopStep env target t bytes = .next t' n) :
    rounds t' (bytes.drop n) < rounds t bytes := by
  have hpos := List.length_pos_iff.mpr hne
  have hrounds : ∀ k, k ≤ bytes.length → rounds t' (bytes.drop k) ≤ 2 * (bytes.length - k) + 1 := by
    intro k _
    rw [rounds, List.length_drop]
    split_ifs <;> omega
  unfold loopStep at h
  dsimp only at h
  split at h
  · rename_i hpending
    split at h
    · cases h
    · rename_i cs _
      have hle := payloadStep_consumed h
      have hprogress := payloadStep_progress h
      by_cases hzero : n = 0
      · subst hzero
        have hdone : t'.dest.reader.pendingRemaining = 0 := by
          rcases hprogress rfl with hnil | hdone | hnone
          · exact absurd hnil hne
          · exact hdone
          · omega
        rw [rounds, rounds, hdone, if_pos hpending, List.drop_zero]
        exact Nat.lt_succ_self _
      · have hbound := hrounds n hle
        have hself : rounds t bytes = 2 * bytes.length + 1 := by rw [rounds, if_pos hpending]
        omega
  · rename_i hpending
    split at h
    · cases h
    · cases h
    · rename_i r csid cs k hready
      obtain ⟨hk, hkle⟩ := parseHeader_size hne hready
      rcases hs : payloadStep env target (t.withReader r) csid cs (bytes.drop k) with
        _ | _ | ⟨t'', i⟩
      · rw [hs] at h
        cases h
      · rw [hs] at h
        cases h
      · rw [hs] at h
        cases h
        have hle := payloadStep_consumed hs
        rw [List.length_drop] at hle
        have hbound := hrounds (k + i) (by omega)
        have hself : rounds t bytes = 2 * bytes.length := by rw [rounds, if_neg hpending, Nat.add_zero]
        omega

/-- More rounds than the loop may make change nothing: it ends for itself. -/
theorem feedLoop_enough (fuel : ℕ) (t : Talk) (bytes : List UInt8) (h : rounds t bytes < fuel) :
    feedLoop env target (fuel + 1) t bytes = feedLoop env target fuel t bytes := by
  induction fuel generalizing t bytes with
  | zero => exact absurd h (Nat.not_lt_zero _)
  | succ fuel ih =>
    rw [feedLoop, feedLoop]
    by_cases hne : bytes = []
    · rw [if_pos hne, if_pos hne]
    · rw [if_neg hne, if_neg hne]
      cases hstep : loopStep env target (t.note [.pass bytes.length]) bytes with
      | stop t' => rfl
      | fail t' n => rfl
      | next t' n =>
        have hless := loopStep_progress hne hstep
        change _ < rounds t bytes at hless
        dsimp only
        rw [ih t' (bytes.drop n) (by omega)]

/-- The loop of a feed ends for itself, whatever the server sends. -/
theorem feed_enough (t : Talk) (bytes : List UInt8) (more : ℕ) :
    feedLoop env target (2 * bytes.length + 2 + more) t bytes = feed env target t bytes := by
  induction more with
  | zero => rfl
  | succ more ih =>
    have hrounds : rounds t bytes < 2 * bytes.length + 2 + more := by
      unfold rounds
      split_ifs <;> omega
    exact (feedLoop_enough _ t bytes hrounds).trans ih

end RtmpReplies
