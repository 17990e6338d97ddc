import NginxMedia.MediaTypes

/-! The replicated graph of `ngx_media_graph.c` with the registry and the tombstone ring it
works on: what `ngx_media_graph_apply()` does to one worker's desired state. Runtime state
(feeds, readers, draining memory) is not part of the graph; where the runtime answers an
operation, the answer is a field of `Env`. -/
namespace MediaGraph

open MediaTypes

abbrev Str := List UInt8

structure Tombstone where
  hash : UInt64
  revision : ℕ
  deriving DecidableEq, Repr

def tombstones : ℕ := 256

structure TombstoneRing where
  slots : ℕ → Tombstone
  next : ℕ
  count : ℕ

def tombstoneInit : TombstoneRing := ⟨fun _ => ⟨0, 0⟩, 0, 0⟩

def tombstoneAdd (ring : TombstoneRing) (hash : UInt64) (revision : ℕ) : TombstoneRing :=
  { slots := Function.update ring.slots ring.next ⟨hash, revision⟩
    next := (ring.next + 1) % tombstones
    count := if ring.count < tombstones then ring.count + 1 else ring.count }

def tombstoneHas (ring : TombstoneRing) (hash : UInt64) (revision : ℕ) : Bool :=
  (List.range ring.count).any fun i =>
    (ring.slots i).hash == hash && decide (revision ≤ (ring.slots i).revision)

/-- The desired half of `ngx_media_source_t`. -/
structure Source where
  id : Str
  type : ℕ
  priority : ℕ
  path : Str
  caFile : Str
  keySet : Bool
  keyHash : Str
  keyPrint : Str
  keyNonceSet : Bool
  keyNonce : Str
  enabled : Bool
  revision : ℕ
  deriving DecidableEq, Repr

def Source.new (id : Str) (type priority : ℕ) : Source :=
  ⟨id, type, priority, [], [], false, [], [], false, [], true, 0⟩

/-- The desired half of `ngx_media_stream_t`; of its destinations only the number matters
here. -/
structure Stream where
  failureTimeout : ℕ
  recoveryTimeout : ℕ
  mediaMode : ℕ
  incarnation : ℕ
  revision : ℕ
  sources : List Source
  destinations : ℕ
  deriving DecidableEq, Repr

def failureTimeoutDefault : ℕ := 1500
def recoveryTimeoutDefault : ℕ := 10000
def mediaSource : ℕ := 0
def mediaProfile : ℕ := 1

def Stream.new (incarnation : ℕ) : Stream :=
  ⟨failureTimeoutDefault, recoveryTimeoutDefault, mediaSource, incarnation, 0, [], 0⟩

/-- `ngx_media_registry_entry_t`; the handle stands for the object's address. -/
structure Entry where
  handle : ℕ
  application : Str
  name : Str
  stream : Stream
  deriving DecidableEq, Repr

structure Registry where
  entries : List Entry
  fresh : ℕ
  tombs : TombstoneRing
  count : ℕ

def Registry.empty : Registry := ⟨[], 0, tombstoneInit, 0⟩

def ownerHash (application name : Str) : UInt64 :=
  let mix := fun (hash : UInt64) (byte : UInt8) => (hash ^^^ byte.toUInt64) * 1099511628211
  name.foldl mix (mix (application.foldl mix 14695981039346656037) 47)

inductive Kind where
  | streamSet
  | streamDelete
  | sourceSet
  | sourceDelete
  deriving DecidableEq, Repr

structure Op where
  kind : Kind
  revision : ℕ
  incarnation : ℕ
  sourceRevision : ℕ
  type : ℕ
  priority : ℕ
  enabled : Bool
  failureTimeout : ℕ
  recoveryTimeout : ℕ
  mediaMode : ℕ
  application : Str
  name : Str
  id : Str
  path : Str
  caFile : Str
  keySet : Bool
  keyHash : Str
  keyPrint : Str
  keyNonceSet : Bool
  keyNonce : Str
  deriving DecidableEq, Repr

def maxName : ℕ := 256
def maxPath : ℕ := 4096

/-- What `ngx_media_graph_decode()` lets through. -/
structure Op.Decoded (op : Op) : Prop where
  application_pos : op.application ≠ []
  name_pos : op.name ≠ []
  application_le : op.application.length ≤ maxName
  name_le : op.name.length ≤ maxName
  id_le : op.id.length ≤ maxName
  path_le : op.path.length ≤ maxPath
  caFile_le : op.caFile.length ≤ maxPath
  incarnation_pos : op.kind ≠ .streamDelete → op.incarnation ≠ 0
  mediaMode_le : op.mediaMode ≤ mediaProfile
  priority_lt : op.priority < 2 ^ 32

/-- What the rest of the worker answers while one operation is applied. -/
structure Env where
  owns : Bool
  admits : Bool
  stages : Bool
  adds : Bool
  opens : Bool
  copies : Bool
  incarnation : ℕ
  shared : ℕ → ℕ

def revisionNext (shared revision : ℕ) : ℕ := if shared > revision then shared else revision + 1

def registryStream (reg : Registry) (application name : Str) : Option Entry :=
  reg.entries.find? fun e => decide (e.name = name ∧ e.application = application)

def update (reg : Registry) (handle : ℕ) (f : Stream → Stream) : Registry :=
  { reg with
    entries := reg.entries.map fun e =>
      if e.handle = handle then { e with stream := f e.stream } else e }

def streamStage (env : Env) (reg : Registry) (application name : Str) :
    Option (Entry × Registry) :=
  if application = [] ∨ application.length > maxName ∨ name = [] ∨ name.length > maxName then none
  else if env.stages = false then none
  else
    let entry := ⟨reg.fresh, application, name, Stream.new env.incarnation⟩
    some (entry,
      { reg with
        entries := reg.entries ++ [entry]
        fresh := reg.fresh + 1
        count := reg.count + 1 })

def streamCreate (env : Env) (reg : Registry) (application name : Str) :
    Option (Entry × Registry) :=
  if application = [] ∨ application.length > maxName ∨ name = [] ∨ name.length > maxName then none
  else
    match registryStream reg application name with
    | some e => some (e, reg)
    | none => streamStage env reg application name

def retiredRevision (env : Env) (st : Stream) : ℕ :=
  (List.range st.destinations).foldl (fun rev k => revisionNext (env.shared k) rev) st.revision

def streamRemove (env : Env) (reg : Registry) (handle : ℕ) (remember : Bool) : Registry × Rc :=
  match reg.entries.find? fun e => decide (e.handle = handle) with
  | none => (reg, .error)
  | some e =>
    ({ reg with
        entries := reg.entries.filter fun e => decide (e.handle ≠ handle)
        count := reg.count - 1
        tombs :=
          if remember then
            tombstoneAdd reg.tombs (ownerHash e.application e.name) (retiredRevision env e.stream)
          else reg.tombs }, .ok)

def graphStream (env : Env) (reg : Registry) (op : Op) : Option (Entry × Registry) :=
  match registryStream reg op.application op.name with
  | some e => some (e, reg)
  | none =>
    match streamStage env reg op.application op.name with
    | none => none
    | some (e, reg) =>
      if op.incarnation ≠ 0 then
        some ({ e with stream := { e.stream with incarnation := op.incarnation } },
          update reg e.handle fun st => { st with incarnation := op.incarnation })
      else some (e, reg)

def setFields (op : Op) (st : Stream) : Stream :=
  { st with
    incarnation := op.incarnation
    failureTimeout := op.failureTimeout
    recoveryTimeout := op.recoveryTimeout
    mediaMode := op.mediaMode
    revision := op.revision }

def Env.refuses (env : Env) : Bool := env.owns && !env.admits

def streamSet (env : Env) (reg : Registry) (op : Op) (stream : Option Entry) : Registry × Rc :=
  match stream.filter fun e => decide (e.stream.incarnation ≠ op.incarnation) with
  | some old =>
    -- another incarnation: a replacement is staged before the old object goes
    if op.revision ≤ old.stream.revision then (reg, .ok)
    else
      match streamStage env reg op.application op.name with
      | none => (reg, .error)
      | some (replacement, reg) =>
        let reg := update reg replacement.handle fun st =>
          { st with
            incarnation := op.incarnation
            failureTimeout := op.failureTimeout
            recoveryTimeout := op.recoveryTimeout
            mediaMode := op.mediaMode }
        if env.refuses then ((streamRemove env reg replacement.handle false).1, .error)
        else
          match streamRemove env reg old.handle true with
          | (reg, .ok) =>
            (update reg replacement.handle fun st => { st with revision := op.revision }, .ok)
          | (reg, _) => ((streamRemove env reg replacement.handle false).1, .error)
  | none =>
    match graphStream env reg op with
    | none => (reg, .error)
    | some (e, reg) =>
      let previous := e.stream
      let reg := update reg e.handle (setFields op)
      if env.refuses then
        -- the incarnation is not restored
        let reg := update reg e.handle fun st =>
          { st with
            failureTimeout := previous.failureTimeout
            recoveryTimeout := previous.recoveryTimeout
            mediaMode := previous.mediaMode
            revision := previous.revision }
        (if stream.isNone then (streamRemove env reg e.handle false).1 else reg, .error)
      else (reg, .ok)

/-- Another object lifetime than the operation's, which only a deletion may leave open. -/
def foreign (op : Op) (e : Entry) : Bool :=
  op.incarnation != 0 && e.stream.incarnation != op.incarnation

def streamDelete (env : Env) (reg : Registry) (op : Op) : Option Entry → Registry × Rc
  | none =>
    ({ reg with
        tombs := tombstoneAdd reg.tombs (ownerHash op.application op.name) op.revision }, .ok)
  | some e =>
    if foreign op e then (reg, .ok)
    else
      let reg :=
        if op.revision > e.stream.revision then
          update reg e.handle fun st => { st with revision := op.revision }
        else reg
      streamRemove env reg e.handle true

def sourceFind (st : Stream) (id : Str) : Option Source :=
  st.sources.find? fun s => decide (s.id = id)

def hasReader (type : ℕ) : Bool := type == 3 || type == 4 || type == 5

def sourceOpen (env : Env) (op : Op) : Option Source :=
  if op.id = [] ∨ op.id.length > maxName ∨ op.priority > 2 ^ 32 - 1 ∨
      op.path.length > maxPath ∨ op.caFile.length > maxPath then none
  else if env.owns ∧ hasReader op.type ∧ op.path ≠ [] ∧ env.opens = false then none
  else if env.adds = false then none
  else some (Source.new op.id op.type op.priority)

def sourcePathsSet (env : Env) (op : Op) (s : Source) : Option Source :=
  if (s.path ≠ op.path ∨ s.caFile ≠ op.caFile) ∧ env.copies = false then none
  else some { s with path := op.path, caFile := op.caFile }

def setSource (op : Op) (s : Source) : Source :=
  { s with
    path := op.path
    caFile := op.caFile
    priority := op.priority
    keySet := op.keySet || s.keySet
    keyHash := if op.keySet then op.keyHash else s.keyHash
    keyPrint := if op.keySet then op.keyPrint else s.keyPrint
    keyNonceSet := op.keyNonceSet || s.keyNonceSet
    keyNonce := if op.keyNonceSet then op.keyNonce else s.keyNonce
    enabled := op.enabled
    revision := op.sourceRevision }

def setSourceIn (op : Op) (st : Stream) : Stream :=
  { st with
    sources := st.sources.map fun s => if s.id = op.id then setSource op s else s
    revision := op.revision }

def addSource (s : Source) (st : Stream) : Stream := { st with sources := st.sources ++ [s] }

def removeSource (id : Str) (st : Stream) : Stream :=
  { st with sources := st.sources.filter fun s => decide (s.id ≠ id) }

def sourceSet (env : Env) (reg : Registry) (op : Op) (stream : Option Entry) : Registry × Rc :=
  if stream.any fun e => decide (e.stream.incarnation ≠ op.incarnation) then (reg, .ok)
  else if op.id = [] then (reg, .error)
  else
    match graphStream env reg op with
    | none => (reg, .error)
    | some (e, reg) =>
      let undo := fun reg : Registry =>
        if stream.isNone then (streamRemove env reg e.handle false).1 else reg
      let reg := update reg e.handle fun st => { st with incarnation := op.incarnation }
      match sourceFind e.stream op.id with
      | some s =>
        if s.type ≠ op.type then (reg, .error)
        else
          match sourcePathsSet env op s with
          | none => (undo reg, .error)
          | some _ => (update reg e.handle (setSourceIn op), .ok)
      | none =>
        match sourceOpen env op with
        | none => (undo reg, .error)
        | some s =>
          let reg := update reg e.handle (addSource s)
          match sourcePathsSet env op s with
          | none => (undo (update reg e.handle (removeSource op.id)), .error)
          | some _ => (update reg e.handle (setSourceIn op), .ok)

def sourceDelete (reg : Registry) (op : Op) : Option Entry → Registry × Rc
  | none => (reg, .ok)
  | some e =>
    if foreign op e then (reg, .ok)
    else if op.id = [] then (reg, .ok)
    else
      (update reg e.handle fun st => { removeSource op.id st with revision := op.revision }, .ok)

/-- `ngx_media_graph_apply()` on a decoded operation. -/
def apply (env : Env) (reg : Registry) (op : Op) : Registry × Rc :=
  if tombstoneHas reg.tombs (ownerHash op.application op.name) op.revision then (reg, .ok)
  else
    let stream := registryStream reg op.application op.name
    if stream.any fun e => decide (e.stream.revision > op.revision) then (reg, .ok)
    else
      match op.kind with
      | .streamSet => streamSet env reg op stream
      | .streamDelete => streamDelete env reg op stream
      | .sourceSet => sourceSet env reg op stream
      | .sourceDelete => sourceDelete reg op stream

/-- A worker receives operations, each with what its environment answers. -/
def receive (reg : Registry) (deliveries : List (Op × Env)) : Registry :=
  deliveries.foldl (fun reg d => (apply d.2 reg d.1).1) reg

end MediaGraph
