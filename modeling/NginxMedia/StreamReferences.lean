import NginxMedia.ObjectHeap
import NginxMedia.StepRun
import Mathlib.Data.List.Range
import Mathlib.Data.List.Perm.Basic

/-! The objects of a worker's graph and who keeps each of them alive: a stream is held by its
sources, its destinations and outside holders, a source by its stream's list, its leases and
outside holders, a destination by its stream's list and outside holders. -/
namespace StreamReferences

open ObjectHeap

abbrev Str := List UInt8

def graphMaxName : ℕ := 256
def graphMaxPath : ℕ := 4096
def uint32Max : ℕ := 4294967295
def streamLimitDefault : ℕ := 256

/-- `holders` counts the retains an outside holder has not undone. No function of the program
reads it. -/
structure Source where
  stream : ℕ
  id : Str
  type : ℕ
  priority : ℕ
  references : ℤ := 1
  writers : ℕ := 0
  pendingRemove : Bool := false
  holders : ℕ := 0

structure Destination where
  stream : ℕ
  id : Str
  type : ℕ
  references : ℤ := 1
  holders : ℕ := 0

structure Stream where
  application : Str
  name : Str
  references : ℤ := 0
  running : Bool := true
  sources : List ℕ := []
  destinations : List ℕ := []
  holders : ℕ := 0

def Stream.listSource (y : Stream) (a : ℕ) : Stream := { y with sources := y.sources ++ [a] }

def Stream.unlistSource (y : Stream) (a : ℕ) : Stream := { y with sources := y.sources.erase a }

def Stream.listDestination (y : Stream) (d : ℕ) : Stream :=
  { y with destinations := y.destinations ++ [d] }

def Stream.unlistDestination (y : Stream) (d : ℕ) : Stream :=
  { y with destinations := y.destinations.erase d }

def Source.marked (x : Source) : Source := { x with pendingRemove := true }

structure Models where
  streams : ℤ := 0
  sources : ℤ := 0
  destinations : ℤ := 0

structure Limits where
  streams : ℕ
  sources : ℕ
  destinations : ℕ

structure State where
  streams : List (Option Stream) := []
  sources : List (Option Source) := []
  destinations : List (Option Destination) := []
  entries : List ℕ := []
  draining : List ℕ := []
  count : ℤ := 0
  drainingCount : ℤ := 0
  models : Models := {}
  released : List (ℕ × ℤ) := []

def onStream (st : State) (s : ℕ) (f : Stream → Stream) : State :=
  { st with streams := modify st.streams s f }

def onSource (st : State) (a : ℕ) (f : Source → Source) : State :=
  { st with sources := modify st.sources a f }

def onDestination (st : State) (d : ℕ) (f : Destination → Destination) : State :=
  { st with destinations := modify st.destinations d f }

/-- The counter is read as an unsigned word. -/
def modelRoom (limit : ℕ) (objects : ℤ) : ℕ := limit - (objects % 18446744073709551616).toNat

def streamRetain (st : State) (s : ℕ) : State :=
  onStream st s fun y => { y with references := y.references + 1 }

def streamRelease (st : State) (s : ℕ) : State :=
  onStream st s fun y => { y with references := y.references - 1 }

def sourceRetain (st : State) (a : ℕ) : State :=
  onSource st a fun x => { x with references := x.references + 1 }

def sourceRelease (st : State) (a : ℕ) : State :=
  match get st.sources a with
  | none => st
  | some x =>
    if x.references = 0 then st
    else if x.references - 1 ≠ 0 then
      onSource st a fun x => { x with references := x.references - 1 }
    else
      let st := { st with sources := free st.sources a
                          models := { st.models with sources := st.models.sources - 1 } }
      streamRelease st x.stream

def destinationRetain (st : State) (d : ℕ) : State :=
  onDestination st d fun x => { x with references := x.references + 1 }

def destinationRelease (st : State) (d : ℕ) : State :=
  match get st.destinations d with
  | none => st
  | some x =>
    let old := x.references
    let st := onDestination st d fun x => { x with references := x.references - 1 }
    if old ≠ 1 then st
    else
      let st := { st with
        destinations := free st.destinations d
        models := { st.models with destinations := st.models.destinations - 1 } }
      streamRelease st x.stream

def sourceFind (st : State) (y : Stream) (id : Str) : Option ℕ :=
  y.sources.find? fun a => (get st.sources a).any fun x => x.id = id

def destinationFind (st : State) (y : Stream) (id : Str) : Option ℕ :=
  y.destinations.find? fun d => (get st.destinations d).any fun x => x.id = id

def stringSet (src : Str) (memory : Bool) : Option Str :=
  if src.length > graphMaxPath then none
  else if src.length ≠ 0 ∧ memory = false then none
  else some src

structure SourceMemory where
  object : Bool
  id : Bool
  preroll : Bool

def sourceAdd (limits : Limits) (st : State) (s : ℕ) (id : Str) (type priority : ℕ)
    (memory : SourceMemory) : State :=
  match get st.streams s with
  | none => st
  | some y =>
    if y.running = false ∨ id.length = 0 ∨ id.length > graphMaxName ∨ priority > uint32Max then st
    else if (sourceFind st y id).isSome then st
    else if modelRoom limits.sources st.models.sources = 0 then st
    else
      let st := { st with models := { st.models with sources := st.models.sources + 1 } }
      let undone := { st with models := { st.models with sources := st.models.sources - 1 } }
      if memory.object = false then undone
      else
        match stringSet id memory.id with
        | none => undone
        | some copy =>
          let a := st.sources.length
          let st := { st with
            sources := alloc st.sources { stream := s, id := copy, type, priority } }
          let st := streamRetain st s
          if memory.preroll = false then sourceRelease st a
          else onStream st s fun y => y.listSource a

def sourceRemove (st : State) (s a : ℕ) : State :=
  match get st.sources a with
  | none => st
  | some x =>
    if x.stream ≠ s ∨ x.pendingRemove = true then st
    else
      let st := onSource st a Source.marked
      let st := onStream st s fun y => y.unlistSource a
      sourceRelease st a

def sourceLeaseBegin (st : State) (a : ℕ) : State :=
  sourceRetain (onSource st a fun x => { x with writers := x.writers + 1 }) a

def sourceLeaseEnd (st : State) (a : ℕ) : State :=
  match get st.sources a with
  | none => st
  | some x =>
    if x.writers > 0 then
      sourceRelease (onSource st a fun x => { x with writers := x.writers - 1 }) a
    else st

def streamLeaseBegin (st : State) (s a : ℕ) : State :=
  match get st.streams s, get st.sources a with
  | some y, some x =>
    if x.stream ≠ s ∨ y.running = false ∨ x.pendingRemove = true then st
    else sourceLeaseBegin st a
  | _, _ => st

structure DestinationMemory where
  object : Bool
  id : Bool

def destinationAdd (limits : Limits) (st : State) (s : ℕ) (id : Str) (type : ℕ)
    (memory : DestinationMemory) : State :=
  match get st.streams s with
  | none => st
  | some y =>
    if y.running = false ∨ id.length = 0 then st
    else if (destinationFind st y id).isSome then st
    else if modelRoom limits.destinations st.models.destinations = 0 then st
    else
      let st := { st with
        models := { st.models with destinations := st.models.destinations + 1 } }
      let undone := { st with
        models := { st.models with destinations := st.models.destinations - 1 } }
      if memory.object = false then undone
      else
        match stringSet id memory.id with
        | none => undone
        | some copy =>
          let d := st.destinations.length
          let st := { st with
            destinations := alloc st.destinations { stream := s, id := copy, type } }
          let st := streamRetain st s
          onStream st s fun y => y.listDestination d

def destinationRemove (st : State) (s d : ℕ) : State :=
  match get st.destinations d with
  | none => st
  | some x =>
    if x.stream ≠ s then st
    else
      let st := onStream st s fun y => y.unlistDestination d
      destinationRelease st d

def destinationsOf (st : State) (s : ℕ) : List ℕ :=
  ((get st.streams s).map (·.destinations)).getD []

def sourcesOf (st : State) (s : ℕ) : List ℕ := ((get st.streams s).map (·.sources)).getD []

def streamRetire (st : State) (s : ℕ) : State :=
  let st := onStream st s fun y => { y with running := false }
  let st := (destinationsOf st s).foldl (fun st d => destinationRemove st s d) st
  let st := onStream st s fun y => { y with destinations := [] }
  let st := (sourcesOf st s).foldl (fun st a => sourceRemove st s a) st
  onStream st s fun y => { y with sources := [], running := false }

def entryRelease (st : State) (i : ℕ) : State :=
  let st := streamRetire st i
  match get st.streams i with
  | none => st
  | some y =>
    { st with
      streams := free st.streams i
      models := { st.models with streams := st.models.streams - 1 }
      released := st.released ++ [(i, y.references)] }

structure Readers where
  pull : ℕ
  ingest : ℕ
  srt : ℕ

def Readers.Gone (r : Readers) : Prop := r.pull = 0 ∧ r.ingest = 0 ∧ r.srt = 0

instance (r : Readers) : Decidable r.Gone := inferInstanceAs (Decidable (_ ∧ _ ∧ _))

def referencesOf (st : State) (i : ℕ) : ℤ := ((get st.streams i).map (·.references)).getD 0

structure EntryMemory where
  entry : Bool
  pool : Bool
  init : Bool

def streamStage (limits : Limits) (st : State) (application name : Str) (memory : EntryMemory) :
    State :=
  if application.length = 0 ∨ application.length > graphMaxName ∨ name.length = 0 ∨
      name.length > graphMaxName then st
  else if modelRoom (min limits.streams streamLimitDefault) st.models.streams = 0 then st
  else
    let st := { st with models := { st.models with streams := st.models.streams + 1 } }
    let undone := { st with models := { st.models with streams := st.models.streams - 1 } }
    if memory.entry = false then undone
    else if memory.pool = false then undone
    else if memory.init = false then undone
    else
      { st with
        streams := alloc st.streams { application, name }
        entries := st.entries ++ [st.streams.length]
        count := st.count + 1 }

def registryStream (st : State) (application name : Str) : Option ℕ :=
  if name.length = 0 then none
  else st.entries.find? fun i =>
    (get st.streams i).any fun y => y.name = name ∧ y.application = application

def streamCreate (limits : Limits) (st : State) (application name : Str) (memory : EntryMemory) :
    State :=
  if application.length = 0 ∨ application.length > graphMaxName ∨ name.length = 0 ∨
      name.length > graphMaxName then st
  else if (registryStream st application name).isSome then st
  else streamStage limits st application name memory

def drainEntry (readers : ℕ → Readers) (st : State) (i : ℕ) : State :=
  if ¬(readers i).Gone ∨ referencesOf st i ≠ 0 then st
  else
    entryRelease { st with draining := st.draining.erase i
                           drainingCount := st.drainingCount - 1 } i

def registryDrain (readers : ℕ → Readers) (st : State) : State :=
  st.draining.foldl (drainEntry readers) st

/-- One entry of a queue at shutdown, and whether it stays; `live` tells the registry's queue
from the draining one. -/
def releaseEntry (live : Bool) (acc : State × ℤ) (i : ℕ) : State × ℤ :=
  let (st, retained) := acc
  let st := streamRetire st i
  if referencesOf st i ≠ 0 then
    (if live then { st with entries := st.entries.erase i, draining := st.draining ++ [i] } else st,
      retained + 1)
  else
    let st := if live then { st with entries := st.entries.erase i }
      else { st with draining := st.draining.erase i }
    (entryRelease st i, retained)

def releaseQueue (live : Bool) (st : State) : State × ℤ :=
  (if live then st.entries else st.draining).foldl (releaseEntry live) (st, 0)

def registryDestroy (st : State) : State :=
  let (st, retained) := releaseQueue false st
  let st := { st with drainingCount := retained }
  let (st, retained) := releaseQueue true st
  { st with drainingCount := st.drainingCount + retained, count := 0 }

inductive Call where
  | streamRetain (s : ℕ)
  | streamRelease (s : ℕ)
  | sourceAdd (s : ℕ) (id : Str) (type priority : ℕ) (memory : SourceMemory)
  | sourceRemove (s a : ℕ)
  | sourceRetain (a : ℕ)
  | sourceRelease (a : ℕ)
  | leaseBegin (s a : ℕ)
  | leaseEnd (a : ℕ)
  | destinationAdd (s : ℕ) (id : Str) (type : ℕ) (memory : DestinationMemory)
  | destinationRemove (s : ℕ) (id : Str)
  | destinationRetain (d : ℕ)
  | destinationRelease (d : ℕ)

def call (limits : Limits) (st : State) : Call → State
  | .streamRetain s =>
    onStream (streamRetain st s) s fun y => { y with holders := y.holders + 1 }
  | .streamRelease s =>
    match get st.streams s with
    | none => st
    | some y =>
      if y.holders = 0 then st
      else streamRelease (onStream st s fun y => { y with holders := y.holders - 1 }) s
  | .sourceAdd s id type priority memory => sourceAdd limits st s id type priority memory
  | .sourceRemove s a => sourceRemove st s a
  | .sourceRetain a =>
    onSource (sourceRetain st a) a fun x => { x with holders := x.holders + 1 }
  | .sourceRelease a =>
    match get st.sources a with
    | none => st
    | some x =>
      if x.holders = 0 then st
      else sourceRelease (onSource st a fun x => { x with holders := x.holders - 1 }) a
  | .leaseBegin s a => streamLeaseBegin st s a
  | .leaseEnd a => sourceLeaseEnd st a
  | .destinationAdd s id type memory => destinationAdd limits st s id type memory
  | .destinationRemove s id =>
    match get st.streams s with
    | none => st
    | some y =>
      match destinationFind st y id with
      | none => st
      | some d => destinationRemove st s d
  | .destinationRetain d =>
    onDestination (destinationRetain st d) d fun x => { x with holders := x.holders + 1 }
  | .destinationRelease d =>
    match get st.destinations d with
    | none => st
    | some x =>
      if x.holders = 0 then st
      else destinationRelease (onDestination st d fun x => { x with holders := x.holders - 1 }) d

def streamRemove (limits : Limits) (st : State) (s : ℕ) (first closing : List Call)
    (readers : Readers) : State :=
  if s ∉ st.entries then st
  else
    let st := first.foldl (call limits) st
    let st := onStream st s fun y => { y with running := false }
    let st := closing.foldl (call limits) st
    let st := streamRetire st s
    let st := { st with entries := st.entries.erase s, count := st.count - 1 }
    if readers.Gone ∧ referencesOf st s = 0 then entryRelease st s
    else { st with draining := st.draining ++ [s], drainingCount := st.drainingCount + 1 }

inductive Event where
  | call (c : Call)
  | create (application name : Str) (memory : EntryMemory)
  | stage (application name : Str) (memory : EntryMemory)
  | remove (s : ℕ) (first closing : List Call) (readers : Readers)
  | drain (readers : ℕ → Readers)
  | destroy

def next (limits : Limits) (st : State) : Event → State
  | .call c => call limits st c
  | .create application name memory => streamCreate limits st application name memory
  | .stage application name memory => streamStage limits st application name memory
  | .remove s first closing readers => streamRemove limits st s first closing readers
  | .drain readers => registryDrain readers st
  | .destroy => registryDestroy st

def run (limits : Limits) (events : List Event) : State := events.foldl (next limits) {}

end StreamReferences
