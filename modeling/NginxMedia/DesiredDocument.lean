import NginxMedia.DesiredGraph

/-! The desired document: `GET /media/api/v1/desired` prints the graph, `PUT` applies what such a
document says. -/
namespace DesiredGraph

open ByteString ApiJson
open SourceRequests (sourceType sameText mediaMode keyed keyMax pathSafe atoi typeFile typeHlsPull
  typeHlsPush typeSrt)
open MediaGraph (maxName maxPath mediaSource mediaProfile)

def redactUrl (url : Str) (cap : ℕ) : Str :=
  if url = [] ∨ cap < 2 then []
  else
    let shown := url.takeWhile (· ≠ 63)
    let user := shown.takeWhile (· ≠ 64)
    let scheme := user.takeWhile (· ≠ 47)
    if 64 ∈ shown ∧ 47 ∈ user ∧ scheme.length + 1 + 3 < cap then scheme ++ 47 :: ascii "***"
    else if shown.length ≥ cap then shown.take (cap - 1)
    else shown

def safeHost (d : Destination) : Str := redactUrl d.host 512

def sourceValue (x : Source) : List (Str × Value) :=
  [(ascii "id", .string x.id), (ascii "type", .number x.type),
    (ascii "priority", .number x.priority), (ascii "path", .string x.path)] ++
  (if x.caFile ≠ [] then [(ascii "ca_file", .string x.caFile)] else []) ++
  [(ascii "enabled", .flag x.enabled), (ascii "revision", .number x.revision)]

def destinationValue (d : Destination) : List (Str × Value) :=
  [(ascii "id", .string d.id), (ascii "type", .number d.type), (ascii "host", .string (safeHost d)),
    (ascii "port", .number d.port), (ascii "enabled", .flag d.enabled),
    (ascii "revision", .number d.revision)]

def bucketUpperMs : List Value :=
  (List.range 15).map (fun i => .number (2 ^ i)) ++ [.null]

def fanoutValue (f : Fanout) : List (Str × Value) :=
  [(ascii "fanout_ms", .object
    [(ascii "p50", .number f.p50), (ascii "p95", .number f.p95), (ascii "p99", .number f.p99),
      (ascii "max", .number f.max), (ascii "bucket_upper_ms", .array bucketUpperMs),
      (ascii "bucket_counts", .array (f.buckets.map .number))]),
    (ascii "dispatched", .number f.dispatched)]

def streamValue (s : Stream) : List (Str × Value) :=
  [(ascii "application", .string s.application), (ascii "name", .string s.name),
    (ascii "revision", .number s.revision),
    (ascii "media", .string (ascii (if s.mediaMode = mediaProfile then "profile" else "source"))),
    (ascii "sources", .array (s.sources.map fun x => .object (sourceValue x))),
    (ascii "destinations", .array (s.destinations.map fun d => .object (destinationValue d)))] ++
  fanoutValue s.fanout

def document (reg : Registry) : List (Str × Value) :=
  [(ascii "streams", .array (reg.map fun s => .object (streamValue s))),
    (ascii "count", .number reg.length)]

def bufSize : ℕ := 64 * 1024
def bufMaxSize : ℕ := 64 * 1024 * 1024

/-- One more object of `ngx_media_api_response_capacity()`; nothing once the largest buffer is
needed. -/
def grow (weight : ℕ) (capacity : Option ℕ) (label : ℕ) : Option ℕ :=
  match capacity with
  | none => none
  | some capacity =>
    if capacity > bufMaxSize - 4096 then none
    else if label > (bufMaxSize - (capacity + 4096)) / weight then none
    else some (capacity + 4096 + label * weight)

def streamCapacity (capacity : Option ℕ) (s : Stream) : Option ℕ :=
  let label := s.application.length + s.name.length
  let own := grow 34 capacity label
  let sources := s.sources.foldl (fun c x => grow 24 c (label + x.id.length)) own
  s.destinations.foldl (fun c d => grow 6 c d.id.length) sources

/-- `ngx_media_api_response_capacity()` of a read of the document. -/
def responseCapacity (reg : Registry) : ℕ :=
  (reg.foldl streamCapacity (some bufSize)).getD bufMaxSize

/-- `ngx_media_api_desired_get()`: a write that does not fit fails or leaves the buffer full, so
only the length of the whole counts. -/
def desiredGet (reg : Registry) : Option Str :=
  let text := (Value.object (document reg)).text
  if text.length + 1 < responseCapacity reg then some text else none

inductive Rc where
  | ok
  | declined
  | error
  | busy
  deriving DecidableEq, Repr

def items (array : Str) : List Str := (jsonObjects array).1

def whole (array : Str) : Bool := (jsonObjects array).2

def within (body : Str) (key : String) (most : ℕ) : Bool :=
  ((field body key).map fun text => decide (text.length ≤ most)).getD true

def sourceBounds (source : Str) : Bool :=
  ((field source "id").map fun id => decide (id ≠ [] ∧ id.length ≤ maxName)).getD false &&
    within source "path" maxPath && within source "ca_file" maxPath &&
    (priorityField source).isSome

def streamBounds (item : Str) : Bool :=
  match field item "application", field item "name" with
  | some application, some name =>
    decide (application ≠ [] ∧ name ≠ [] ∧ application.length ≤ maxName ∧ name.length ≤ maxName) &&
      match jsonArray item (ascii "sources") with
      | none => true
      | some sources => (items sources).all sourceBounds && whole sources
  | _, _ => false

def desiredBounds (streams : Str) : Bool := (items streams).all streamBounds && whole streams

inductive Kind where
  | stream
  | source
  | destination
  deriving DecidableEq, Repr

/-- What a replay would add to the model. -/
structure Delta where
  kind : Kind
  application : Str
  name : Str
  id : Str
  deriving DecidableEq, Repr

def childDeltas (kind : Kind) (application name : Str) (known : Str → Bool) (array : Str) :
    Option (List Delta) :=
  if whole array = false then none
  else
    ((items array).mapM fun child => (field child "id").filter fun id => decide (id ≠ [])).map
      fun ids => (ids.filter fun id => !known id).map fun id => ⟨kind, application, name, id⟩

def streamDeltas (env : Env) (reg : Registry) (item : Str) : Option (List Delta) :=
  match field item "application", field item "name" with
  | some application, some name =>
    let stream := streamFind reg application name
    let own := if stream.isSome then [] else [⟨.stream, application, name, []⟩]
    let sources :=
      match jsonArray item (ascii "sources") with
      | none => some []
      | some array =>
        childDeltas .source application name
          (fun id => stream.any fun s => (sourceFind s id).isSome) array
    let destinations :=
      if env.owns application name = false then some []
      else
        match jsonArray item (ascii "destinations") with
        | none => some []
        | some array =>
          childDeltas .destination application name
            (fun id => stream.any fun s => (destinationFind s id).isSome) array
    match sources, destinations with
    | some sources, some destinations => some (own ++ (sources ++ destinations))
    | _, _ => none
  | _, _ => none

def room (env : Env) : Kind → ℕ
  | .stream => env.streamRoom
  | .source => env.sourceRoom
  | .destination => env.destinationRoom

/-- `ngx_media_api_desired_capacity()`; sorting brings equal identities together, so that each
counts once. -/
def desiredCapacity (env : Env) (reg : Registry) (streams : Str) : Rc :=
  if whole streams = false then .declined
  else
    match (items streams).mapM (streamDeltas env reg) with
    | none => .declined
    | some deltas =>
      let needed := deltas.flatten.dedup
      if [Kind.stream, .source, .destination].all fun kind =>
          decide ((needed.filter fun d => decide (d.kind = kind)).length ≤ room env kind) then .ok
      else .busy

structure Applied where
  stream : Stream
  created : ℕ
  rc : Rc

/-- One source of `ngx_media_api_desired_children()`. -/
def applySource (env : Env) (s : Stream) (created : ℕ) (child : Str) : Applied :=
  match (field child "id").filter fun id => decide (id ≠ []) with
  | none => ⟨s, created, .error⟩
  | some id =>
    match typeField sourceTypeValue child with
    | none => ⟨s, created, .error⟩
    | some type =>
      let path := (field child "path").getD []
      let caFile := (field child "ca_file").getD []
      if path.length > maxPath ∨ caFile.length > maxPath then ⟨s, created, .error⟩
      else if (type = typeFile ∨ type = typeHlsPush ∨ type = typeHlsPull) ∧ path = [] then
        ⟨s, created, .error⟩
      else
        match sourceFind s id with
        | some x =>
          if path ≠ [] ∨ caFile ≠ [] then
            match graphSourceSet env s x (some path) (some caFile) with
            | none => ⟨s, created, .error⟩
            | some x => ⟨setSource s x, created, .ok⟩
          else ⟨s, created, .ok⟩
        | none =>
          let priority := ((field child "priority").bind atoi).getD 0
          match sourceOpen env s id type priority path caFile with
          | none => ⟨s, created, .error⟩
          | some x =>
            match graphSourceSet env s (touchSource env x) (some path) (some caFile) with
            | none => ⟨s, created, .error⟩
            | some x => ⟨{ s with sources := s.sources ++ [x] }, created + 1, .ok⟩

/-- One destination of `ngx_media_api_desired_children()`. -/
def applyDestination (env : Env) (s : Stream) (created : ℕ) (child : Str) : Applied :=
  match (field child "id").filter fun id => decide (id ≠ []) with
  | none => ⟨s, created, .error⟩
  | some id =>
    if (destinationFind s id).isSome then ⟨s, created, .ok⟩
    else if env.owns s.application s.name = false then ⟨s, created, .declined⟩
    else
      let (s, reply) := destinationCreateValue env s child
      if reply.status = 201 then ⟨s, created + 1, .ok⟩
      else if reply.status = 200 then ⟨s, created, .ok⟩
      else ⟨s, created, .error⟩

/-- The objects of an array, one after another until one fails. -/
def applyAll (apply : Stream → ℕ → Str → Applied) (complete : Bool) :
    Stream → ℕ → List Str → Applied
  | s, created, [] => ⟨s, created, if complete then .ok else .error⟩
  | s, created, child :: rest =>
    let next := apply s created child
    if next.rc = .ok then applyAll apply complete next.stream next.created rest else next

def applyArray (apply : Stream → ℕ → Str → Applied) (s : Stream) (created : ℕ)
    (array : Option Str) : Applied :=
  match array with
  | none => ⟨s, created, .ok⟩
  | some array => applyAll apply (whole array) s created (items array)

def desiredChildren (env : Env) (s : Stream) (created : ℕ) (item : Str) : Applied :=
  let sources := applyArray (applySource env) s created (jsonArray item (ascii "sources"))
  if sources.rc ≠ .ok then sources
  else
    applyArray (applyDestination env) sources.stream sources.created
      (jsonArray item (ascii "destinations"))

def applyStream (transforms : Bool) (env : Env) (reg : Registry) (created : ℕ) (item : Str) :
    Registry × ℕ × Option Reply :=
  match field item "application", field item "name" with
  | some application, some name =>
    if application = [] ∨ name = [] then
      (reg, created, some ⟨400, "stream_needs_application_and_name", "", 0, 0⟩)
    else
      match mediaField transforms item with
      | .error e => (reg, created, some ⟨400, e, "", 0, 0⟩)
      | .ok mode =>
        let existed := (streamFind reg application name).isSome
        match registryCreate env reg application name with
        | none => (reg, created, some ⟨500, "stream_create_failed", "", 0, 0⟩)
        | some (s, made) =>
          let s := if mode.getD s.mediaMode ≠ s.mediaMode then
            touchStream env { s with mediaMode := mode.getD s.mediaMode } else s
          let children := desiredChildren env s created item
          if children.rc = .declined then
            (update made children.stream, children.created,
              some ⟨409, "destination_needs_owner", "", 0, 0⟩)
          else if children.rc ≠ .ok then
            (if existed then update made children.stream else discard made application name,
              children.created, some ⟨400, "child_apply_failed", "", 0, 0⟩)
          else if env.admits application name = false then
            (if existed then update made children.stream else discard made application name,
              children.created, some ⟨500, "runtime_output_capacity", "", 0, 0⟩)
          else (update made children.stream, children.created, none)
  | _, _ => (reg, created, some ⟨400, "stream_needs_application_and_name", "", 0, 0⟩)

def applyStreams (transforms : Bool) (env : Env) :
    Registry → ℕ → ℕ → List Str → Registry × Reply
  | reg, applied, created, [] => (reg, ⟨200, "", "", applied, created⟩)
  | reg, applied, created, item :: rest =>
    match applyStream transforms env reg created item with
    | (reg, _, some reply) => (reg, reply)
    | (reg, created, none) => applyStreams transforms env reg (applied + 1) created rest

/-- `ngx_media_api_desired_put()`; the checks before the loop have walked the whole array. -/
def desiredPut (transforms : Bool) (env : Env) (reg : Registry) (content : Str) :
    Registry × Reply :=
  match readBody content with
  | none => (reg, ⟨400, "body_too_large", "", 0, 0⟩)
  | some body =>
    match jsonArray body (ascii "streams") with
    | none => (reg, ⟨400, "streams_array_required", "", 0, 0⟩)
    | some streams =>
      if desiredBounds streams = false then (reg, ⟨400, "graph_bounds_exceeded", "", 0, 0⟩)
      else
        match desiredCapacity env reg streams with
        | .ok => applyStreams transforms env reg 0 0 (items streams)
        | .busy => (reg, ⟨503, "model_capacity_or_invalid_document", "", 0, 0⟩)
        | _ => (reg, ⟨400, "model_capacity_or_invalid_document", "", 0, 0⟩)

/-- A request; one that names a stream by its path is refused where there is none. `traffic` is
what the media makes of a feed's statistics. -/
inductive Request where
  | streamCreate (content : Str)
  | streamPatch (application name content : Str)
  | streamDelete (application name : Str) (revision : Option Str)
  | sourceCreate (application name content : Str)
  | sourceDelete (application name id : Str)
  | sourceSetEnabled (application name id : Str) (enabled : Bool)
  | destinationCreate (application name content : Str)
  | destinationDelete (application name id : Str)
  | desiredPut (content : Str)
  | traffic (application name : Str) (fanout : Fanout)

def onStream (reg : Registry) (application name : Str) (f : Stream → Stream × Reply) :
    Registry × Reply :=
  if application.length > maxName ∨ name.length > maxName then
    (reg, ⟨400, "graph_name_too_long", "", 0, 0⟩)
  else
    match streamFind reg application name with
    | none => (reg, ⟨404, "stream_not_found", "", 0, 0⟩)
    | some s => (update reg (f s).1, (f s).2)

def owned (env : Env) (f : Stream → Stream × Reply) (s : Stream) : Stream × Reply :=
  if env.owns s.application s.name = false then (s, ⟨409, "not_owner", "", 0, 0⟩) else f s

def serve (transforms : Bool) (env : Env) (reg : Registry) : Request → Registry × Reply
  | .streamCreate content => streamCreate transforms env reg content
  | .streamPatch application name content => streamPatch transforms env reg application name content
  | .streamDelete application name revision => streamDelete env reg application name revision
  | .sourceCreate application name content =>
    onStream reg application name fun s => sourceCreate env s content
  | .sourceDelete application name id =>
    onStream reg application name fun s => sourceDelete env s id
  | .sourceSetEnabled application name id enabled =>
    onStream reg application name fun s => sourceSetEnabled env s id enabled
  | .destinationCreate application name content =>
    onStream reg application name (owned env fun s => destinationCreate env s content)
  | .destinationDelete application name id =>
    onStream reg application name (owned env fun s => destinationDelete env s id)
  | .desiredPut content => desiredPut transforms env reg content
  | .traffic application name fanout =>
    onStream reg application name fun s => ({ s with fanout }, ⟨200, "", "", 0, 0⟩)

def run (transforms : Bool) (requests : List (Env × Request)) : Registry :=
  requests.foldl (fun reg request => (serve transforms request.1 reg request.2).1) []

end DesiredGraph
