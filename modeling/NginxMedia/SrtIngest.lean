import NginxMedia.SlotTable
import NginxMedia.TsDemux

/-! The hand-off between the SRT ingest thread and the worker, `ngx_media_srt_ingest.c`, the
payload queue of `ngx_media_ts_ingest.c` and `ngx_media_srt_handler()`. A step is one access to
what the two threads share: a queue under its lock, the session table under its lock, the flag
or the eventfd. A ring is the list of what it holds, and the counters do not wrap. -/
namespace SrtIngest

def maxSessions : ℕ := 16

instance : NeZero maxSessions := ⟨by decide⟩

def chunkMax : ℕ := 65536

/-- How many events or chunks the handler takes at a time. -/
def batchMax : ℕ := 16

inductive EventType where
  | ready
  | failed
  | opened
  | closed
  deriving DecidableEq, Repr

structure Event where
  type : EventType
  sessionId : ℕ
  bytes : ℕ
  chunks : ℕ
  streamid : List UInt8
  deriving DecidableEq, Repr

structure Chunk where
  sessionId : ℕ
  data : List UInt8
  deriving DecidableEq, Repr

structure Payload where
  chunks : List Chunk
  maxChunks : ℕ
  maxBytes : ℕ
  bytes : ℕ
  chunksDropped : ℕ
  deriving DecidableEq, Repr

/-- `ngx_media_srt_session_state_t`, less the transport session. -/
structure SessionState where
  id : ℕ
  bytes : ℕ
  chunks : ℕ
  closeRequested : Bool
  deriving DecidableEq, Repr

structure Ingest where
  payload : Payload
  events : List Event
  eventsCapacity : ℕ
  eventsDropped : ℕ
  notifyFd : ℕ
  notified : Bool
  sessions : Fin maxSessions → Option SessionState
  sessionsOpened : ℕ
  sessionsAccepted : ℕ
  sessionsDropped : ℕ

def Payload.full (p : Payload) (len : ℕ) : Bool :=
  p.chunks.length ≥ p.maxChunks ∨ p.bytes + len > p.maxBytes

def Payload.write (p : Payload) (chunk : Chunk) : Payload :=
  if chunk.data.length = 0 ∨ chunk.data.length > chunkMax then p
  else if p.full chunk.data.length then { p with chunksDropped := p.chunksDropped + 1 }
  else { p with chunks := p.chunks ++ [chunk], bytes := p.bytes + chunk.data.length }

/-- `ngx_media_ts_ingest_read()`: what is left, and what is handed out. -/
def Payload.read (p : Payload) (max : ℕ) : Payload × List Chunk :=
  let out := p.chunks.take max
  ({ p with
      chunks := p.chunks.drop max, bytes := p.bytes - (out.map fun c => c.data.length).sum }, out)

def Ingest.eventsFull (g : Ingest) : Bool := g.events.length ≥ g.eventsCapacity

def eventPush (g : Ingest) (event : Event) : Ingest :=
  if g.eventsFull then { g with eventsDropped := g.eventsDropped + 1 }
  else { g with events := g.events ++ [event] }

def eventRead (g : Ingest) (max : ℕ) : Ingest × List Event :=
  ({ g with events := g.events.drop max }, g.events.take max)

def sessionStateRelease (g : Ingest) (i : Fin maxSessions) : Ingest :=
  { g with sessions := Function.update g.sessions i none }

def closeSession (g : Ingest) (sessionId : ℕ) : Ingest :=
  match SlotTable.find g.sessions fun state => state.id = sessionId with
  | none => g
  | some i =>
    { g with sessions := Function.update g.sessions i
               ((g.sessions i).map fun state => { state with closeRequested := true }) }

inductive ThreadPc where
  | start
  | poll
  | opening (i : Fin maxSessions) (streamid : List UInt8)
  | refused (i : Fin maxSessions)
  | closing (i : Fin maxSessions)
  | releasing (i : Fin maxSessions)
  | notify
  | set
  | write
  | unset
  deriving DecidableEq, Repr

/-- Where the worker is in `ngx_media_srt_handler()`, with what is left of a batch it took. -/
inductive WorkerPc where
  | idle
  | taken
  | events (batch : List Event)
  | chunks (batch : List Chunk)
  deriving DecidableEq, Repr

/-- `ngx_media_srt_slot_t`: what was fed to its demultiplexer is kept as a history. -/
structure Slot where
  id : ℕ
  demux : TsDemux.Demux
  fed : List (List UInt8)
  deriving DecidableEq

structure World where
  ingest : Ingest
  listening : Bool
  thread : ThreadPc
  worker : WorkerPc
  slots : Fin maxSessions → Option Slot
  pushed : List Event
  queued : List Chunk
  handled : List Event
  transportClosed : List ℕ
  closedSlots : List Slot

/-- What the environment decides: whether the listener could be polled, what a socket brings,
what the worker asks for, and whether a write to the eventfd succeeds. `requested i` is one
turn of `ngx_media_srt_sessions_close_requested()`. -/
inductive Call where
  | listen (ok : Bool)
  | accept (streamid : List UInt8)
  | receive (i : Fin maxSessions) (data : List UInt8)
  | disconnect (i : Fin maxSessions)
  | requested (i : Fin maxSessions)
  | closeSession (sessionId : ℕ)
  | thread (written : Bool)
  | worker
  deriving DecidableEq, Repr

def openEvent (id : ℕ) (streamid : List UInt8) : Event := ⟨.opened, id, 0, 0, streamid⟩

def closeEvent (state : SessionState) : Event := ⟨.closed, state.id, state.bytes, state.chunks, []⟩

def World.push (w : World) (event : Event) (pc : ThreadPc) : World :=
  { w with
    ingest := eventPush w.ingest event, thread := pc
    pushed := if w.ingest.eventsFull then w.pushed else w.pushed ++ [event] }

def listen (w : World) (ok : Bool) : World :=
  { w.push ⟨if ok then .ready else .failed, 0, 0, 0, []⟩ .notify with listening := ok }

/-- `ngx_media_srt_session_open()` up to the push of its event. -/
def sessionOpen (w : World) (streamid : List UInt8) : World :=
  match SlotTable.alloc w.ingest.sessions with
  | none =>
    { w with ingest := { w.ingest with sessionsDropped := w.ingest.sessionsDropped + 1 } }
  | some i =>
    let id := w.ingest.sessionsOpened + 1
    { w with
      ingest := { w.ingest with
        sessionsOpened := id
        sessions := Function.update w.ingest.sessions i (some ⟨id, 0, 0, false⟩) }
      thread := .opening i streamid }

def Payload.accepts (p : Payload) (data : List UInt8) : Bool :=
  data ≠ [] ∧ data.length ≤ chunkMax ∧ p.full data.length = false

def receive (w : World) (i : Fin maxSessions) (state : SessionState) (data : List UInt8) : World :=
  if data = [] ∨ data.length > chunkMax then w
  else
    { w with
      ingest := { w.ingest with
        payload := w.ingest.payload.write ⟨state.id, data⟩
        sessions := Function.update w.ingest.sessions i
          (some { state with bytes := state.bytes + data.length, chunks := state.chunks + 1 }) }
      thread := .notify
      queued :=
        if w.ingest.payload.accepts data then w.queued ++ [⟨state.id, data⟩] else w.queued }

def sessionFinish (w : World) (i : Fin maxSessions) (state : SessionState) : World :=
  w.push (closeEvent state) (.closing i)

def threadStep (w : World) (written : Bool) : World :=
  match w.thread with
  | .start | .poll => w
  | .opening i streamid =>
    match w.ingest.sessions i with
    | none => w
    | some state =>
      if w.ingest.eventsFull then w.push (openEvent state.id streamid) (.refused i)
      else
        let w := w.push (openEvent state.id streamid) .notify
        { w with ingest := { w.ingest with sessionsAccepted := w.ingest.sessionsAccepted + 1 } }
  | .refused i =>
    let ingest := sessionStateRelease w.ingest i
    { w with
      ingest := { ingest with sessionsDropped := ingest.sessionsDropped + 1 }, thread := .poll
      transportClosed := w.transportClosed ++ ((w.ingest.sessions i).map SessionState.id).toList }
  | .closing i =>
    { w with
      thread := .releasing i
      transportClosed := w.transportClosed ++ ((w.ingest.sessions i).map SessionState.id).toList }
  | .releasing i => { w with ingest := sessionStateRelease w.ingest i, thread := .notify }
  | .notify => { w with thread := if w.ingest.notified then .poll else .set }
  | .set => { w with ingest := { w.ingest with notified := true }, thread := .write }
  | .write =>
    if written then
      { w with
        ingest := { w.ingest with notifyFd := w.ingest.notifyFd + 1 }, thread := .poll }
    else { w with thread := .unset }
  | .unset => { w with ingest := { w.ingest with notified := false }, thread := .poll }

section Worker

variable (mem : TsDemux.Memory) (admits : ℕ → Bool)

def demuxStart : TsDemux.Demux := TsDemux.Demux.init 8 (1024 * 1024)

def slotFind (w : World) (id : ℕ) : Option (Fin maxSessions) :=
  SlotTable.find w.slots fun slot => slot.id = id

/-- An OPEN: `admits` is whether the key names an SRT source and `ngx_media_srt_slot_open()` gets
past the slot itself. -/
def slotOpen (w : World) (event : Event) : World :=
  match SlotTable.alloc w.slots with
  | some i =>
    if event.streamid ≠ [] ∧ admits event.sessionId then
      { w with slots := Function.update w.slots i (some ⟨event.sessionId, demuxStart, []⟩) }
    else { w with ingest := closeSession w.ingest event.sessionId }
  | none => { w with ingest := closeSession w.ingest event.sessionId }

def Slot.flush (slot : Slot) : Slot :=
  { slot with demux := { slot.demux with core := TsDemux.flush mem slot.demux.core } }

def slotClose (w : World) (id : ℕ) : World :=
  match slotFind w id with
  | none => w
  | some i =>
    { w with
      slots := Function.update w.slots i none
      closedSlots := w.closedSlots ++ ((w.slots i).map (Slot.flush mem)).toList }

def handleEvent (w : World) (event : Event) : World :=
  match event.type with
  | .ready | .failed => w
  | .opened => slotOpen admits w event
  | .closed => slotClose mem w event.sessionId

def Slot.feed (slot : Slot) (data : List UInt8) : Slot :=
  { slot with demux := TsDemux.feed mem slot.demux data, fed := slot.fed ++ [data] }

def handleChunk (w : World) (chunk : Chunk) : World :=
  match slotFind w chunk.sessionId with
  | none => w
  | some i =>
    { w with slots :=
        Function.update w.slots i ((w.slots i).map fun slot => slot.feed mem chunk.data) }

/-- The next step of `ngx_media_srt_handler()`: the byte is taken, the flag cleared, the events
drained until a read brings none, then the chunks. -/
def workerStep (w : World) : World :=
  match w.worker with
  | .idle => { w with ingest := { w.ingest with notifyFd := 0 }, worker := .taken }
  | .taken => { w with ingest := { w.ingest with notified := false }, worker := .events [] }
  | .events [] =>
    let (ingest, batch) := eventRead w.ingest batchMax
    { w with ingest, worker := if batch = [] then .chunks [] else .events batch }
  | .events (event :: rest) =>
    { handleEvent mem admits w event with
      worker := .events rest, handled := w.handled ++ [event] }
  | .chunks [] =>
    let (payload, batch) := w.ingest.payload.read batchMax
    { w with
      ingest := { w.ingest with payload }
      worker := if batch = [] then .idle else .chunks batch }
  | .chunks (chunk :: rest) => { handleChunk mem w chunk with worker := .chunks rest }

def step (w : World) : Call → World
  | .listen ok => if w.thread = .start then listen w ok else w
  | .accept streamid =>
    if w.listening ∧ w.thread = .poll then sessionOpen w streamid else w
  | .receive i data =>
    match w.ingest.sessions i with
    | none => w
    | some state => if w.thread = .poll then receive w i state data else w
  | .disconnect i =>
    match w.ingest.sessions i with
    | none => w
    | some state => if w.thread = .poll then sessionFinish w i state else w
  | .requested i =>
    match w.ingest.sessions i with
    | none => w
    | some state =>
      if w.thread = .poll ∧ state.closeRequested then sessionFinish w i state else w
  | .closeSession id => { w with ingest := closeSession w.ingest id }
  | .thread written => threadStep w written
  | .worker => workerStep mem admits w

def start (eventsCapacity maxChunks maxBytes : ℕ) : World where
  ingest := {
    payload := ⟨[], maxChunks, maxBytes, 0, 0⟩
    events := [], eventsCapacity, eventsDropped := 0, notifyFd := 0, notified := false
    sessions := fun _ => none, sessionsOpened := 0, sessionsAccepted := 0, sessionsDropped := 0 }
  listening := false
  thread := .start
  worker := .idle
  slots := fun _ => none
  pushed := []
  queued := []
  handled := []
  transportClosed := []
  closedSlots := []

def run (w : World) (calls : List Call) : World := calls.foldl (step mem admits) w

end Worker

def World.eventBatch (w : World) : List Event :=
  match w.worker with
  | .events batch => batch
  | _ => []

def World.chunkBatch (w : World) : List Chunk :=
  match w.worker with
  | .chunks batch => batch
  | _ => []

theorem closeSession_frame (g : Ingest) (id : ℕ) :
    closeSession g id = { g with sessions := (closeSession g id).sessions } := by
  unfold closeSession
  split <;> rfl

theorem handleEvent_frame (mem : TsDemux.Memory) (admits : ℕ → Bool) (w : World) (event : Event) :
    ∃ sessions slots closedSlots, handleEvent mem admits w event =
      { w with ingest := { w.ingest with sessions }, slots, closedSlots } := by
  have hclose : ∀ id, ∃ sessions slots closedSlots,
      { w with ingest := closeSession w.ingest id } =
        { w with ingest := { w.ingest with sessions }, slots, closedSlots } := by
    intro id
    rw [closeSession_frame]
    exact ⟨_, w.slots, w.closedSlots, rfl⟩
  unfold handleEvent
  split
  · exact ⟨w.ingest.sessions, w.slots, w.closedSlots, rfl⟩
  · exact ⟨w.ingest.sessions, w.slots, w.closedSlots, rfl⟩
  · unfold slotOpen
    split
    · split
      · exact ⟨w.ingest.sessions, _, w.closedSlots, rfl⟩
      · exact hclose _
    · exact hclose _
  · unfold slotClose
    split
    · exact ⟨w.ingest.sessions, w.slots, w.closedSlots, rfl⟩
    · exact ⟨w.ingest.sessions, _, _, rfl⟩

theorem handleChunk_frame (mem : TsDemux.Memory) (w : World) (chunk : Chunk) :
    ∃ slots, handleChunk mem w chunk = { w with slots } := by
  unfold handleChunk
  split
  · exact ⟨w.slots, rfl⟩
  · exact ⟨_, rfl⟩

theorem workerStep_eventRead (mem : TsDemux.Memory) (admits : ℕ → Bool) {w : World}
    (hpc : w.worker = .events []) :
    (w.ingest.events = [] ∧ workerStep mem admits w = { w with worker := .chunks [] }) ∨
    ∃ event batch rest, w.ingest.events = event :: batch ++ rest ∧
      workerStep mem admits w =
        { w with ingest := { w.ingest with events := rest }, worker := .events (event :: batch) } := by
  obtain ⟨ingest, listening, thread, worker, slots, pushed, queued, handled, closed, done⟩ := w
  obtain ⟨payload, events, cap, dropped, fd, notified, sessions, opened, accepted, refused⟩ := ingest
  simp only at hpc
  subst worker
  cases events with
  | nil => exact Or.inl ⟨rfl, rfl⟩
  | cons event rest =>
    refine Or.inr ⟨event, rest.take 15, rest.drop 15, ?_, rfl⟩
    rw [List.cons_append, List.take_append_drop]

theorem workerStep_chunkRead (mem : TsDemux.Memory) (admits : ℕ → Bool) {w : World}
    (hpc : w.worker = .chunks []) :
    (w.ingest.payload.chunks = [] ∧ workerStep mem admits w = { w with worker := .idle }) ∨
    ∃ chunk batch rest bytes, w.ingest.payload.chunks = chunk :: batch ++ rest ∧
      workerStep mem admits w =
        { w with
          ingest := { w.ingest with payload := { w.ingest.payload with chunks := rest, bytes } }
          worker := .chunks (chunk :: batch) } := by
  obtain ⟨ingest, listening, thread, worker, slots, pushed, queued, handled, closed, done⟩ := w
  obtain ⟨payload, events, cap, dropped, fd, notified, sessions, opened, accepted, refused⟩ := ingest
  obtain ⟨chunks, maxChunks, maxBytes, bytes, chunksDropped⟩ := payload
  simp only at hpc
  subst worker
  cases chunks with
  | nil => exact Or.inl ⟨rfl, rfl⟩
  | cons chunk rest =>
    refine Or.inr ⟨chunk, rest.take 15, rest.drop 15, _, ?_, rfl⟩
    rw [List.cons_append, List.take_append_drop]

end SrtIngest
