import NginxMedia.RtmpReading

/-! The events of a worker with RTMP destinations: media that arrives, the visits of the scheduler
and of the maintenance event, what the sockets report, and destinations that come and go. -/
namespace RtmpVisits

open MediaTypes RtmpFanout RtmpOutput RtmpPrepare RtmpDestination RtmpWorker
open RtmpReplies (Moment Target Recv)

def pumped (i : ℕ) (p : Pumped) (w : Worker) : Worker :=
  Worker.modify { w with preps := Function.update w.preps (w.slots i).stream p.prep } i fun s =>
    { s with dest := p.dest, deadline := if p.dest.connection then s.deadline else 0 }

def pump (env : Pump) (units bytes : ℕ) (i : ℕ) (w : Worker) : Worker × Pumped :=
  let p := RtmpDestination.pump { env with now := w.now } units bytes
    (w.preps (w.slots i).stream) (w.dest i)
  (if p.dest.retryAt = (w.dest i).retryAt then pumped i p w
    else maintenanceUpdate i (pumped i p w), p)

def serve (env : Pump) (units bytes : ℕ) (i : ℕ) (w : Worker) : Worker × Pumped :=
  let (w, p) := pump env units bytes i w
  (if p.more then schedule i w else w, p)

structure Visit where
  env : ℕ → Pump
  late : ℕ → Bool

def Skipped (d : Dest) : Prop :=
  d.used = false ∨ d.state ≠ .publishing ∨ d.connection = false ∨ d.writeBlocked = true ∨
    d.out.out ≠ []

instance (d : Dest) : Decidable (Skipped d) := by unfold Skipped; infer_instance

/-- The `while` of the scheduler, with what it has done so far. -/
def visitLoop (v : Visit) : ℕ → ℕ → ℕ → ℕ → Worker × List Note → Worker × List Note
  | 0, _, _, _, r => r
  | n + 1, served, units, bytes, (w, notes) =>
    match w.run.head with
    | none => (w, notes)
    | some i =>
      if served ≥ schedDests ∨ units ≥ schedUnits ∨ bytes ≥ schedBytes then (w, notes)
      else
        let w := unschedule i w
        if Skipped (w.dest i) then visitLoop v n served units bytes (w, notes)
        else
          let notes := notes ++ [.pump w i (v.env served)]
          let (w, p) := serve (v.env served) (schedUnits - units) (schedBytes - bytes) i w
          if p.exhausted ∨ v.late served then (w, notes)
          else visitLoop v n (served + 1) (units + p.units) (bytes + p.bytes) (w, notes)

/-- `ngx_media_rtmp_scheduler_handler()`. A round takes one destination off the list, and puts it
back at most as often as it serves one. -/
def schedulerHandler (v : Visit) (w : Worker) : Worker × List Note :=
  let (w, notes) := visitLoop v (w.runnable + schedDests + 1) 0 0 0 ({ w with running := true }, [])
  ({ w with running := false, posted := w.posted || w.run.head.isSome }, notes)

def TimedOut (now : ℕ) (s : Slot) : Prop :=
  s.deadline ≠ 0 ∧ Staged s.dest.state ∧ now - s.deadline ≥ stageLimit

instance (now : ℕ) (s : Slot) : Decidable (TimedOut now s) := inferInstanceAs (Decidable (_ ∧ _))

def Retries (state : State) (now : ℕ) (d : Dest) : Prop :=
  d.used = true ∧ d.state = state ∧ d.retryAt ≠ 0 ∧ now ≥ d.retryAt

instance (state : State) (now : ℕ) (d : Dest) : Decidable (Retries state now d) :=
  inferInstanceAs (Decidable (_ ∧ _))

def reconnect (c : Connect) (i : ℕ) (w : Worker) : Worker :=
  let (w, rc) := connect c i (w.setDest i { w.dest i with retryAt := 0 })
  if rc = .ok then w
  else
    w.setDest i
      { w.dest i with
        transportErrors := (w.dest i).transportErrors + 1
        retryAt := w.now + retryDelay }

def resume (i : ℕ) (w : Worker) : Worker := schedule i (w.setDest i { w.dest i with retryAt := 0 })

def reported (i : ℕ) (w : Worker) : Worker :=
  w.modify i fun s =>
    { s with
      dest := { s.dest with transportErrors := 0, backpressureEvents := 0 }
      lastReport := w.now }

def attend (c : Connect) (i : ℕ) (w : Worker) : Worker :=
  let w := if TimedOut w.now (w.slots i) then fail i w else w
  let w := if Retries .idle w.now (w.dest i) then reconnect c i w else w
  let w := if Retries .publishing w.now (w.dest i) then resume i w else w
  let w := if w.now - (w.slots i).lastReport ≥ reportInterval then reported i w else w
  maintenanceUpdate i w

def maintenanceLoop (connects : ℕ → Connect) : ℕ → ℕ → Worker → Worker
  | 0, _, w => w
  | n + 1, processed, w =>
    match w.heap.items.head? with
    | none => w
    | some i =>
      if (w.slots i).maintenanceAt > w.now ∨ processed ≥ schedDests then w
      else
        let w := maintenanceRemove i w
        if (w.dest i).used = false then maintenanceLoop connects n processed w
        else maintenanceLoop connects n (processed + 1) (attend (connects processed) i w)

def maintenanceHandler (connects : ℕ → Connect) (w : Worker) : Worker :=
  maintenanceLoop connects (w.heap.items.length + schedDests + 1) 0 w

def mediaReady (stream : ℕ) (w : Worker) : Worker :=
  if w.initialized = false then w
  else
    (w.destinations stream).foldl (fun w i =>
      if (w.dest i).used = true ∧ (w.slots i).stream = stream then schedule i w else w) w

def pushed (stream : ℕ) (units : List Push) (w : Worker) : Worker :=
  let prep := w.preps stream
  { w with
    preps := Function.update w.preps stream { prep with fan := units.foldl push prep.fan } }

def mediaArrives (stream : ℕ) (units : List Push) (w : Worker) : Worker :=
  mediaReady stream (pushed stream units w)

def writeHandler (failed raw : Bool) (packet : List UInt8) (socket : Option ℕ) (i : ℕ)
    (w : Worker) : Worker :=
  if (w.dest i).connection = false then w
  else if (w.dest i).state = .connecting then
    if failed then fail i w else connected raw packet socket i w
  else
    let w := flush socket i w
    let d := w.dest i
    if d.connection = true ∧ d.state = .publishing ∧ d.writeBlocked = false then schedule i w else w

/-- `ngx_memzero()` of a slot, with its neighbours and its place. -/
def wipe (i : ℕ) (w : Worker) : Worker :=
  { w with
    slots := Function.update w.slots i .blank
    run := w.run.clear i
    heap := ⟨w.heap.items, Function.update w.heap.index i 0⟩ }

def freeSlot (w : Worker) : Option ℕ := (List.range destMax).find? fun i => !(w.dest i).used

def alloc (i : ℕ) (w : Worker) : Worker :=
  let w := wipe i w
  { w.setDest i { w.dest i with used := true } with
    heap := ⟨w.heap.items, Function.update w.heap.index i destMax⟩ }

/-- A destination is set up in its slot; `prepared` says whether there is a preparation to share. -/
def configure (stream : ℕ) (prepared : Bool) (i : ℕ) (w : Worker) : Worker :=
  w.modify i fun s =>
    { s with dest := { s.dest with prepared := prepared }, stream := stream, lastReport := w.now }

def enlist (stream i : ℕ) (w : Worker) : Worker :=
  { w with
    destinations := Function.update w.destinations stream (w.destinations stream ++ [i]) }

/-- What follows the attempt to connect: a host that is no address frees the slot again. -/
def admitted (stream : ℕ) (rc : Rc) (i : ℕ) (w : Worker) : Worker :=
  if rc = .declined then wipe i w
  else
    let d := w.dest i
    let w := if rc = .ok then w
      else
        w.setDest i
          { d with
            transportErrors := d.transportErrors + 1
            retryAt := if d.retryAt = 0 then w.now + retryDelay else d.retryAt }
    maintenanceUpdate i (enlist stream i w)

/-- `ngx_media_rtmp_destination_add()` of a destination with a host and a port. -/
def add (stream : ℕ) (prepared pool : Bool) (c : Connect) (w : Worker) : Worker :=
  match freeSlot w with
  | none => w
  | some i =>
    let w := { alloc i w with initialized := true }
    if pool = false then wipe i w
    else
      let (w, rc) := connect c i (configure stream prepared i w)
      admitted stream rc i w

def remove (i : ℕ) (w : Worker) : Worker :=
  if (w.dest i).used = false then w
  else
    let stream := (w.slots i).stream
    let w := unschedule i (w.setDest i { w.dest i with used := false })
    let w := wipe i (release i (maintenanceRemove i w))
    { w with
      destinations := Function.update w.destinations stream ((w.destinations stream).erase i) }

inductive Event where
  | time (now : ℕ)
  | exit
  | media (stream : ℕ) (units : List Push)
  | visit (v : Visit)
  | maintenance (connects : ℕ → Connect)
  | write (i : ℕ) (failed raw : Bool) (packet : List UInt8) (socket : Option ℕ)
  | read (i : ℕ) (env : ℕ → Moment) (target : Target) (script : List Recv)
  | add (stream : ℕ) (prepared pool : Bool) (c : Connect)
  | remove (i : ℕ)

def perform (w : Worker) : Event → Worker × List Note
  | .time now => ({ w with now := now }, [])
  | .exit => ({ w with exiting := true }, [])
  | .media stream units => (mediaArrives stream units w, [])
  | .visit v => if w.posted then schedulerHandler v { w with posted := false } else (w, [])
  | .maintenance connects => (maintenanceHandler connects w, [])
  | .write i failed raw packet socket => (writeHandler failed raw packet socket i w, [])
  | .read i env target script =>
    let t := RtmpReading.readHandler env target i script w
    (t.worker, t.notes)
  | .add stream prepared pool c => (add stream prepared pool c w, [])
  | .remove i => (remove i w, [])

def step (w : Worker) (e : Event) : Worker := (perform w e).1

def run (preps : ℕ → Prepare) (events : List Event) : Worker :=
  events.foldl step (Worker.init preps)

end RtmpVisits
