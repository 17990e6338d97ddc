import NginxMedia.DoublyLinked
import NginxMedia.IndexedHeap
import NginxMedia.RtmpReplies

/-! What a worker keeps of its RTMP destinations: the slots, the list of those that can be served
and the heap of those to look after. The timer of the maintenance event and the figures of a visit
are not part of it. -/
namespace RtmpWorker

open MediaTypes RtmpFanout RtmpOutput RtmpPrepare RtmpDestination
open DoublyLinked (Links Linked)
open IndexedHeap (Heap)

def destMax : ℕ := 1000
def schedDests : ℕ := 64
def reportInterval : ℕ := 1000
def stageLimit : ℕ := 5000

structure Slot where
  dest : Dest
  stream : ℕ
  queued : Bool
  deadline : ℕ
  lastReport : ℕ
  maintenanceAt : ℕ

/-- A slot after `ngx_memzero()`, with a reader and a writer as the next owner gets them. -/
def Slot.blank : Slot where
  dest :=
    { used := false
      prepared := false
      state := .idle
      phase := .connect
      connection := false
      handshake := .init
      replySent := false
      reader := .init
      pending := []
      pendingLen := 0
      streamId := 0
      out := .init
      writeBlocked := false
      cursor := 0
      announced := false
      metadataSent := false
      batch := none
      lastSample := 0
      retryAt := 0
      transportErrors := 0
      backpressureEvents := 0
      sent := [] }
  stream := 0
  queued := false
  deadline := 0
  lastReport := 0
  maintenanceAt := 0

structure Worker where
  now : ℕ
  exiting : Bool
  slots : ℕ → Slot
  preps : ℕ → Prepare
  destinations : ℕ → List ℕ
  run : Links ℕ
  runnable : ℕ
  initialized : Bool
  posted : Bool
  running : Bool
  heap : Heap ℕ

def Worker.init (preps : ℕ → Prepare) : Worker where
  now := 0
  exiting := false
  slots := fun _ => .blank
  preps := preps
  destinations := fun _ => []
  run := .empty
  runnable := 0
  initialized := false
  posted := false
  running := false
  heap := ⟨[], fun _ => 0⟩

def Worker.dest (w : Worker) (i : ℕ) : Dest := (w.slots i).dest

def Worker.modify (w : Worker) (i : ℕ) (f : Slot → Slot) : Worker :=
  { w with slots := Function.update w.slots i (f (w.slots i)) }

def Worker.setDest (w : Worker) (i : ℕ) (d : Dest) : Worker :=
  w.modify i fun s => { s with dest := d }

def Worker.before (w : Worker) (a b : ℕ) : Bool :=
  decide ((w.slots a).maintenanceAt < (w.slots b).maintenanceAt)

def maintenanceRemove (i : ℕ) (w : Worker) : Worker :=
  { w with heap := IndexedHeap.remove w.before destMax w.heap i }

def maintenanceInsert (i : ℕ) (w : Worker) : Worker :=
  { w with heap := IndexedHeap.insert w.before destMax w.heap i }

/-- The states with a deadline, from `CONNECTING` to `COMMANDS`. -/
def Staged (state : State) : Prop := state ≠ .idle ∧ state ≠ .publishing

instance (state : State) : Decidable (Staged state) := inferInstanceAs (Decidable (_ ∧ _))

def dueAt (s : Slot) : ℕ :=
  let due := s.lastReport + reportInterval
  let due := if s.dest.retryAt ≠ 0 ∧ s.dest.retryAt < due then s.dest.retryAt else due
  if s.deadline ≠ 0 ∧ Staged s.dest.state ∧ s.deadline + stageLimit < due then
    s.deadline + stageLimit
  else due

def maintenanceUpdate (i : ℕ) (w : Worker) : Worker :=
  let w := maintenanceRemove i w
  if (w.dest i).used then
    maintenanceInsert i (w.modify i fun s => { s with maintenanceAt := dueAt s })
  else w

/-- What keeps `ngx_media_rtmp_dest_schedule()` from putting a destination into the list. -/
def Unfit (w : Worker) (i : ℕ) : Prop :=
  (w.dest i).used = false ∨ (w.dest i).connection = false ∨ (w.dest i).state ≠ .publishing ∨
    (w.slots i).queued = true ∨ (w.dest i).writeBlocked = true ∨ (w.dest i).out.out ≠ [] ∨
    w.exiting = true

instance (w : Worker) (i : ℕ) : Decidable (Unfit w i) := by unfold Unfit; infer_instance

def enqueue (i : ℕ) (w : Worker) : Worker :=
  if Unfit w i then w
  else
    { w.modify i fun s => { s with queued := true } with
      run := w.run.pushBack i
      runnable := w.runnable + 1
      posted := w.posted || !w.running }

def schedule (i : ℕ) (w : Worker) : Worker :=
  let d := w.dest i
  if d.state = .publishing ∧ d.retryAt ≠ 0 then
    if d.retryAt > w.now then w
    else enqueue i (maintenanceUpdate i (w.setDest i { d with retryAt := 0 }))
  else enqueue i w

def unschedule (i : ℕ) (w : Worker) : Worker :=
  if (w.slots i).queued = false then w
  else
    { w.modify i fun s => { s with queued := false } with
      run := w.run.unlink i
      runnable := w.runnable - 1 }

def release (i : ℕ) (w : Worker) : Worker :=
  let w := unschedule i w
  maintenanceUpdate i
    (w.modify i fun s => { s with dest := s.dest.release w.now, deadline := 0 })

def fail (i : ℕ) (w : Worker) : Worker :=
  release i (w.setDest i
    { w.dest i with transportErrors := (w.dest i).transportErrors + 1 })

def flush (socket : Option ℕ) (i : ℕ) (w : Worker) : Worker :=
  let d := w.dest i
  if d.connection = false ∨ d.out.out = [] then w
  else
    match socket with
    | none => fail i w
    | some n =>
      let out := RtmpOutput.flush n d.out
      w.setDest i { d with out := out, writeBlocked := !out.out.isEmpty }

/-- What becomes of an attempt to connect. `refused` is also a connection that the event loop does
not take. -/
inductive Connect where
  | declined
  | unavailable
  | refused
  | inProgress
  | connected (raw : Bool) (packet : List UInt8) (socket : Option ℕ)

def connected (raw : Bool) (packet : List UInt8) (socket : Option ℕ) (i : ℕ) (w : Worker) :
    Worker :=
  let w := maintenanceUpdate i (w.modify i fun s =>
    { s with dest := { s.dest with state := .handshake }, deadline := w.now })
  match queueRaw destLimits raw (w.dest i).out packet with
  | (out, .ok) => flush socket i (w.setDest i { w.dest i with out := out })
  | _ => fail i w

def connect (c : Connect) (i : ℕ) (w : Worker) : Worker × Rc :=
  let opened := w.setDest i { w.dest i with connection := true }
  match c with
  | .declined => (w, .declined)
  | .unavailable => (w, .error)
  | .refused => (release i opened, .error)
  | .inProgress =>
    (opened.modify i fun s =>
      { s with dest := { s.dest with state := .connecting }, deadline := w.now }, .ok)
  | .connected raw packet socket =>
    let w := connected raw packet socket i opened
    (w, if (w.dest i).state = .handshake then .ok else .error)

end RtmpWorker
