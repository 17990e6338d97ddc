import NginxMedia.ApiJson
import NginxMedia.SourceRequests

/-! The control requests of `ngx_media_api_module.c` that build a worker's graph, as far as the
desired document shows it: streams, sources and destinations. Keys and what the transports do are
answers of the environment. -/
namespace DesiredGraph

open ByteString ApiJson
open SourceRequests (sourceType sameText mediaMode keyed keyMax pathSafe atoi typeFile typeHlsPull
  typeHlsPush typeSrt)
open MediaGraph (maxName maxPath mediaSource mediaProfile failureTimeoutDefault
  recoveryTimeoutDefault)

def maxPayload : ℕ := 64 * 1024 - 96
def uint32Max : ℕ := 4294967295

def destSrt : ℕ := 1
def destRtmp : ℕ := 2
def destHlsPush : ℕ := 3
def destRecord : ℕ := 4

structure Source where
  id : Str
  type : ℕ
  priority : ℕ
  path : Str := []
  caFile : Str := []
  enabled : Bool := true
  revision : ℕ := 0
  deriving DecidableEq, Repr

structure Settings where
  segmentDurationMs : ℕ := 0
  segmentMaxMs : ℕ := 0
  playlistWindow : ℕ := 0
  method : ℕ := 0
  deleteExpired : Option Bool := none
  deriving DecidableEq, Repr

structure Destination where
  id : Str
  type : ℕ
  host : Str
  port : ℕ
  streamid : Str := []
  path : Str := []
  caFile : Str := []
  profile : Str := []
  settings : Settings := {}
  enabled : Bool := true
  revision : ℕ := 0
  deriving DecidableEq, Repr

/-- The feed's statistics that a stream is shown with. -/
structure Fanout where
  p50 : ℕ := 0
  p95 : ℕ := 0
  p99 : ℕ := 0
  max : ℕ := 0
  buckets : List ℕ := List.replicate 16 0
  dispatched : ℕ := 0
  deriving DecidableEq, Repr

structure Stream where
  application : Str
  name : Str
  revision : ℕ := 0
  mediaMode : ℕ := mediaSource
  failureTimeout : ℕ := failureTimeoutDefault
  recoveryTimeout : ℕ := recoveryTimeoutDefault
  sources : List Source := []
  destinations : List Destination := []
  fanout : Fanout := {}
  deriving DecidableEq, Repr

/-- The registry's entries, oldest first. -/
abbrev Registry := List Stream

/-- What the rest of the process answers while one request is served: the rooms left in the model,
which allocations, broadcasts, readers and backends succeed, and the revision that follows
another. -/
structure Env where
  owns : Str → Str → Bool
  streamRoom : ℕ
  sourceRoom : ℕ
  destinationRoom : ℕ
  stages : Str → Str → Bool
  claims : Bool
  admits : Str → Str → Bool
  opens : Str → Str → Str → Bool
  sends : Str → Str → Str → Bool
  nonce : Bool
  derives : Bool
  keyFree : Bool
  adds : Str → Str → Str → Bool
  stores : Str → Str → Str → Bool
  starts : Str → Str → Str → Bool
  revision : ℕ → ℕ

structure Reply where
  status : ℕ
  error : String := ""
  detail : String := ""
  applied : ℕ := 0
  created : ℕ := 0
  deriving DecidableEq, Repr

def readBody (content : Str) : Option Str :=
  if content.length > maxPayload then none else some content

def field (body : Str) (key : String) : Option Str := (jsonField true body (ascii key)).value?

def streamFind (reg : Registry) (application name : Str) : Option Stream :=
  reg.find? fun s => decide (s.name = name ∧ s.application = application)

def update (reg : Registry) (s : Stream) : Registry :=
  reg.map fun t => if t.name = s.name ∧ t.application = s.application then s else t

def discard (reg : Registry) (application name : Str) : Registry :=
  reg.filter fun s => decide ¬(s.name = name ∧ s.application = application)

def sourceFind (s : Stream) (id : Str) : Option Source :=
  s.sources.find? fun x => decide (x.id = id)

def destinationFind (s : Stream) (id : Str) : Option Destination :=
  s.destinations.find? fun d => decide (d.id = id)

def touchStream (env : Env) (s : Stream) : Stream := { s with revision := env.revision s.revision }

def touchSource (env : Env) (x : Source) : Source := { x with revision := env.revision x.revision }

def registryCreate (env : Env) (reg : Registry) (application name : Str) :
    Option (Stream × Registry) :=
  if application = [] ∨ application.length > maxName ∨ name = [] ∨ name.length > maxName then none
  else
    match streamFind reg application name with
    | some s => some (s, reg)
    | none =>
      if env.stages application name = false then none
      else some ({ application, name }, reg ++ [{ application, name }])

def mediaField (transforms : Bool) (body : Str) : Except String (Option ℕ) :=
  match field body "media" with
  | none => .ok none
  | some text =>
    match mediaMode text with
    | none => .error "unknown_media_mode"
    | some mode =>
      if mode = mediaProfile ∧ transforms = false then .error "transform_unavailable"
      else .ok (some mode)

def streamOpen (env : Env) (reg : Registry) (application name : Str) (mode : Option ℕ) :
    Registry × Reply :=
  let existed := (streamFind reg application name).isSome
  if existed = false ∧ env.streamRoom = 0 then (reg, ⟨503, "stream_capacity", "", 0, 0⟩)
  else
    match registryCreate env reg application name with
    | none => (reg, ⟨500, "stream_create_failed", "", 0, 0⟩)
    | some (s, created) =>
      if env.claims = false then (reg, ⟨503, "owner_claim_failed", "", 0, 0⟩)
      else
        let chosen := { s with mediaMode := mode.getD s.mediaMode }
        let s := if chosen.mediaMode ≠ s.mediaMode ∨ existed = false then touchStream env chosen
          else chosen
        if env.admits application name = false then
          (reg, ⟨500, "runtime_output_capacity", "", 0, 0⟩)
        else (update created s, ⟨if existed then 200 else 201, "", "", 0, 0⟩)

def streamCreate (transforms : Bool) (env : Env) (reg : Registry) (content : Str) :
    Registry × Reply :=
  match readBody content with
  | none => (reg, ⟨400, "body_too_large", "", 0, 0⟩)
  | some body =>
    match field body "application", field body "name" with
    | some application, some name =>
      if application = [] ∨ name = [] then
        (reg, ⟨400, "application_and_name_required", "", 0, 0⟩)
      else if application.length > maxName ∨ name.length > maxName then
        (reg, ⟨400, "graph_name_too_long", "", 0, 0⟩)
      else
        match mediaField transforms body with
        | .error e => (reg, ⟨400, e, "", 0, 0⟩)
        | .ok mode => streamOpen env reg application name mode
    | _, _ => (reg, ⟨400, "application_and_name_required", "", 0, 0⟩)

def streamDelete (env : Env) (reg : Registry) (application name : Str) (revision : Option Str) :
    Registry × Reply :=
  match streamFind reg application name with
  | none =>
    if env.admits application name = false then (reg, ⟨503, "graph_admission_failed", "", 0, 0⟩)
    else (reg, ⟨200, "", "", 0, 0⟩)
  | some s =>
    match revision.bind atoi with
    | some stated =>
      if stated ≠ s.revision then (reg, ⟨409, "stale_revision", "", 0, 0⟩)
      else if env.admits application name = false then
        (reg, ⟨503, "graph_admission_failed", "", 0, 0⟩)
      else (discard reg application name, ⟨200, "", "", 0, 0⟩)
    | none =>
      if env.admits application name = false then (reg, ⟨503, "graph_admission_failed", "", 0, 0⟩)
      else (discard reg application name, ⟨200, "", "", 0, 0⟩)

def timeoutField (body : Str) (key : String) (standing : ℕ) : Option (ℕ × Bool) :=
  match field body key with
  | none => some (standing, false)
  | some text =>
    match atoi text with
    | none => none
    | some n => if n < 1 ∨ n > uint32Max then none else some (n, true)

def streamPatch (transforms : Bool) (env : Env) (reg : Registry) (application name content : Str) :
    Registry × Reply :=
  match streamFind reg application name with
  | none => (reg, ⟨404, "no_stream", "", 0, 0⟩)
  | some s =>
    match readBody content with
    | none => (reg, ⟨400, "body_too_large", "", 0, 0⟩)
    | some body =>
      match (field body "revision").bind atoi with
      | some stated =>
        if stated ≠ s.revision then (reg, ⟨409, "stale_revision", "", 0, 0⟩)
        else patched s body
      | none => patched s body
where
  patched (s : Stream) (body : Str) : Registry × Reply :=
    match mediaField transforms body with
    | .error e => (reg, ⟨400, e, "", 0, 0⟩)
    | .ok mode =>
      match timeoutField body "failure_timeout_ms" s.failureTimeout with
      | none => (reg, ⟨400, "bad_failure_timeout", "", 0, 0⟩)
      | some (failureTimeout, failureSet) =>
        match timeoutField body "recovery_timeout_ms" s.recoveryTimeout with
        | none => (reg, ⟨400, "bad_recovery_timeout", "", 0, 0⟩)
        | some (recoveryTimeout, recoverySet) =>
          let mediaMode := mode.getD s.mediaMode
          let changed := failureSet = true ∨ recoverySet = true ∨ s.mediaMode ≠ mediaMode
          let next := if changed then
            touchStream env { s with mediaMode, failureTimeout, recoveryTimeout } else s
          if env.admits application name = false then
            (reg, ⟨503, "graph_admission_failed", "", 0, 0⟩)
          else (update reg next, ⟨200, "", "", 0, 0⟩)

def sourceOpen (env : Env) (s : Stream) (id : Str) (type priority : ℕ) (path caFile : Str) :
    Option Source :=
  if id = [] ∨ id.length > maxName ∨ priority > uint32Max ∨ path.length > maxPath ∨
      caFile.length > maxPath then none
  else if (sourceFind s id).isSome then none
  else if env.opens s.application s.name id = false then none
  else some { id, type, priority }

def graphSourceSet (env : Env) (s : Stream) (x : Source) (path caFile : Option Str) :
    Option Source :=
  if s.application = [] ∨ s.name = [] ∨ s.application.length > maxName ∨
      s.name.length > maxName ∨ x.id = [] ∨ x.id.length > maxName ∨ x.priority > uint32Max ∨
      (path.getD []).length > maxPath ∨ (caFile.getD []).length > maxPath then none
  else if env.sends s.application s.name x.id = false then none
  else some { x with path := path.getD x.path, caFile := caFile.getD x.caFile }

def setSource (s : Stream) (x : Source) : Stream :=
  { s with sources := s.sources.map fun y => if y.id = x.id then x else y }

def sourcePaths (body : Str) (type : ℕ) : Except String (Str × Str) :=
  let path := (field body "path").getD []
  if type = typeFile then
    if path = [] then .error "path_required_for_file_source" else .ok (path, [])
  else if type = typeHlsPush then
    if path = [] then .error "path_required_for_hls_push" else .ok (path, [])
  else if type = typeHlsPull then
    if path = [] then .error "path_required_for_hls_pull"
    else .ok (path, (field body "ca_file").getD [])
  else .ok ([], [])

def keyRefusal (env : Env) (body : Str) (type : ℕ) : Option (ℕ × String) :=
  match (field body "key").filter fun given => !keyed type || decide (given ≠ []) with
  | some given =>
    if keyed type = false then some (400, "key_not_supported")
    else if given.length ≥ keyMax then some (400, "key_too_long")
    else if type = typeHlsPush ∧ (given.head? = some 46 ∨ given.all pathSafe = false) then
      some (400, "key_not_path_safe")
    else if env.keyFree = false then some (400, "key_in_use")
    else none
  | none =>
    if keyed type = false then none
    else if env.nonce = false then some (500, "key_nonce_failed")
    else if env.derives = false then some (500, "key_derive_failed")
    else if env.keyFree = false then some (400, "key_in_use")
    else none

def typeField (typeOf : Str → ℕ) (body : Str) : Option ℕ :=
  match field body "type" with
  | none => some typeSrt
  | some text => if typeOf text = 0 then none else some (typeOf text)

def priorityField (body : Str) : Option ℕ :=
  match field body "priority" with
  | none => some 0
  | some text => (atoi text).filter fun n => decide (n ≤ uint32Max)

/-- The rest of `ngx_media_api_source_create()`, once the request has been read. -/
def sourceAdd (env : Env) (s : Stream) (body id : Str) (type priority : ℕ) : Stream × Reply :=
  match sourcePaths body type with
  | .error e => (s, ⟨400, e, "", 0, 0⟩)
  | .ok (path, caFile) =>
    if path.length > maxPath ∨ caFile.length > maxPath then
      (s, ⟨400, "graph_path_too_long", "", 0, 0⟩)
    else if env.sourceRoom = 0 then (s, ⟨503, "source_capacity", "", 0, 0⟩)
    else
      match keyRefusal env body type with
      | some (status, e) => (s, ⟨status, e, "", 0, 0⟩)
      | none =>
        match sourceOpen env s id type priority path caFile with
        | none =>
          if env.owns s.application s.name then (s, ⟨400, "source_open_failed", "", 0, 0⟩)
          else (s, ⟨500, "source_create_failed", "", 0, 0⟩)
        | some x =>
          match graphSourceSet env s (touchSource env x) (some path) (some caFile) with
          | none => (s, ⟨503, "graph_admission_failed", "", 0, 0⟩)
          | some x =>
            ({ touchStream env s with sources := s.sources ++ [x] }, ⟨201, "", "", 0, 0⟩)

def sourceCreate (env : Env) (s : Stream) (content : Str) : Stream × Reply :=
  match readBody content with
  | none => (s, ⟨400, "body_too_large", "", 0, 0⟩)
  | some body =>
    match field body "id" with
    | none => (s, ⟨400, "id_required", "", 0, 0⟩)
    | some id =>
      if id = [] then (s, ⟨400, "id_required", "", 0, 0⟩)
      else if id.length > maxName then (s, ⟨400, "graph_name_too_long", "", 0, 0⟩)
      else
        match typeField sourceType body with
        | none => (s, ⟨400, "unknown_source_type", "", 0, 0⟩)
        | some type =>
          match priorityField body with
          | none => (s, ⟨400, "bad_priority", "", 0, 0⟩)
          | some priority =>
            if (sourceFind s id).isSome then (s, ⟨200, "", "", 0, 0⟩)
            else sourceAdd env s body id type priority

def sourceDelete (env : Env) (s : Stream) (id : Str) : Stream × Reply :=
  match sourceFind s id with
  | none => (s, ⟨200, "", "", 0, 0⟩)
  | some _ =>
    if env.sends s.application s.name id = false then
      (s, ⟨503, "graph_admission_failed", "", 0, 0⟩)
    else
      ({ touchStream env s with sources := s.sources.filter fun x => decide (x.id ≠ id) },
        ⟨200, "", "", 0, 0⟩)

def sourceSetEnabled (env : Env) (s : Stream) (id : Str) (enabled : Bool) : Stream × Reply :=
  match sourceFind s id with
  | none => (s, ⟨404, "source_not_found", "", 0, 0⟩)
  | some x =>
    match graphSourceSet env s (touchSource env { x with enabled }) none none with
    | none => (s, ⟨503, "graph_admission_failed", "", 0, 0⟩)
    | some x => (setSource (touchStream env s) x, ⟨200, "", "", 0, 0⟩)

def destType (text : Str) : ℕ :=
  if sameText text "srt" then destSrt
  else if sameText text "rtmp" then destRtmp
  else if sameText text "hls_push" then destHlsPush
  else if sameText text "record" then destRecord
  else 0

def sourceTypeValue (text : Str) : ℕ :=
  if sourceType text ≠ 0 then sourceType text
  else
    match atoi text with
    | some n => if typeSrt ≤ n ∧ n ≤ typeHlsPush then n else 0
    | none => 0

def destTypeValue (text : Str) : ℕ :=
  if destType text ≠ 0 then destType text
  else
    match atoi text with
    | some n => if destSrt ≤ n ∧ n ≤ destRecord then n else 0
    | none => 0

structure Profile where
  name : String
  httpsRequired : Bool
  minSegmentMs : ℕ
  maxSegmentMs : ℕ
  maxWindow : ℕ
  defaultSegmentMs : ℕ
  defaultMethod : ℕ
  deleteExpired : Bool

def hlsPushPut : ℕ := 1
def hlsPushPost : ℕ := 2

def profiles : List Profile :=
  [{ name := "youtube_live", httpsRequired := true, minSegmentMs := 1000, maxSegmentMs := 4000
     maxWindow := 5, defaultSegmentMs := 2000, defaultMethod := hlsPushPost
     deleteExpired := false }]

def profileFind (name : Str) : Option Profile :=
  if name = [] then none else profiles.find? fun p => decide (ascii p.name = name)

/-- `ngx_media_hls_profile_apply()`: the settings with their defaults, or why they are refused. -/
def profileApply (profile : Option Profile) (url : Str) (settings : Settings) :
    Except String Settings :=
  let least := (profile.map (·.minSegmentMs)).getD 1000
  let most := (profile.map (·.maxSegmentMs)).getD 30000
  let window := (profile.map (·.maxWindow)).getD 32
  if (profile.map (·.httpsRequired)).getD false = true ∧
      (url.length < 8 ∨ sameText (url.take 8) "https://" = false) then
    .error "the profile requires an https endpoint"
  else if settings.segmentDurationMs ≠ 0 ∧
      (settings.segmentDurationMs < least ∨ settings.segmentDurationMs > most) then
    .error (if profile.isSome then "segment duration is outside the profile's range"
      else "segment duration must be 1000-30000 ms")
  else if settings.playlistWindow > window then
    .error (if profile.isSome then "playlist window exceeds the profile's maximum"
      else "playlist window must be 1-32 segments")
  else
    let duration := if settings.segmentDurationMs = 0 then
      (profile.map (·.defaultSegmentMs)).getD 0 else settings.segmentDurationMs
    .ok { segmentDurationMs := duration
          segmentMaxMs := (profile.map (·.maxSegmentMs)).getD (duration * 2)
          playlistWindow := if settings.playlistWindow = 0 then
            (profile.map (·.maxWindow)).getD 0 else settings.playlistWindow
          method := if settings.method = 0 then
            (profile.map (·.defaultMethod)).getD hlsPushPut else settings.method
          deleteExpired := some (settings.deleteExpired.getD
            ((profile.map (·.deleteExpired)).getD true)) }

def settingField (input : Str) (key complaint : String) : ℕ × Option String :=
  match field input key with
  | none => (0, none)
  | some text =>
    match atoi text with
    | some n => (n, none)
    | none => (0, some complaint)

def methodField (input : Str) : ℕ × Option String :=
  match field input "method" with
  | none => (0, none)
  | some text =>
    if sameText text "put" then (hlsPushPut, none)
    else if sameText text "post" then (hlsPushPost, none)
    else (0, some "method must be PUT or POST")

def expiryField (input : Str) : Option Bool × Option String :=
  match field input "delete_expired" with
  | none => (none, none)
  | some text =>
    if text = ascii "true" then (some true, none)
    else if text = ascii "false" then (some false, none)
    else (none, some "delete_expired must be true or false")

def hlsSettings (profile : Option Profile) (host input : Str) : Except String Settings :=
  let (duration, why1) := settingField input "segment_duration_ms"
    "segment_duration_ms must be a number of milliseconds"
  let (window, why2) := settingField input "playlist_window"
    "playlist_window must be a number of segments"
  let (method, why3) := methodField input
  let (expired, why4) := expiryField input
  match why4.or (why3.or (why2.or why1)) with
  | some why => .error why
  | none =>
    profileApply profile host
      { segmentDurationMs := duration, playlistWindow := window, method, deleteExpired := expired }

def portField (input : Str) (type : ℕ) : Except String ℕ :=
  match field input "port" with
  | some text =>
    match (atoi text).filter fun n => decide (1 ≤ n ∧ n ≤ 65535) with
    | some port => .ok port
    | none => .error "bad_port"
  | none => if type = destHlsPush then .ok 0 else .error "port_required"

/-- `ngx_media_destination_start()`: a recording has no engine of its own. -/
def destinationStart (env : Env) (s : Stream) (d : Destination) : Bool :=
  decide (d.type = destSrt ∨ d.type = destRtmp ∨ d.type = destHlsPush) && d.enabled &&
    env.starts s.application s.name d.id

def destinationSettings (d : Destination) (input : Str) :
    Except (String × String) Destination :=
  if d.type ≠ destHlsPush then .ok d
  else
    let name := (field input "profile").getD []
    let profile := profileFind name
    if name ≠ [] ∧ profile.isNone then .error ("unknown_profile", "")
    else
      match hlsSettings profile d.host input with
      | .error why =>
        .error (if profile.isSome then "profile_violation" else "invalid_hls_push", why)
      | .ok settings => .ok { d with settings, profile := if profile.isSome then name else [] }

/-- The rest of `ngx_media_api_destination_create_value()`, once the request has been read: the
destination is listed first, and taken out again where something fails. -/
def destinationAdd (env : Env) (s : Stream) (input id : Str) (type : ℕ) (host : Str) (port : ℕ) :
    Stream × Reply :=
  let streamid := (field input "streamid").getD []
  let path := (field input "path").getD []
  let caFile := (field input "ca_file").getD []
  if env.destinationRoom = 0 then (s, ⟨503, "destination_capacity", "", 0, 0⟩)
  else if id.length > maxPath ∨ env.adds s.application s.name id = false then
    (s, ⟨500, "destination_create_failed", "", 0, 0⟩)
  else if host.length > maxPath ∨ streamid.length > maxPath ∨ path.length > maxPath ∨
      caFile.length > maxPath ∨ env.stores s.application s.name id = false then
    (s, ⟨500, "out_of_memory", "", 0, 0⟩)
  else
    match destinationSettings { id, type, host, port, streamid, path, caFile } input with
    | .error (e, why) =>
      (if e = "unknown_profile" then touchStream env (touchStream env s) else s,
        ⟨400, e, why, 0, 0⟩)
    | .ok d =>
      if destinationStart env s d = false then (s, ⟨500, "destination_start_failed", "", 0, 0⟩)
      else
        ({ touchStream env s with destinations := s.destinations ++ [{ d with revision := 1 }] },
          ⟨201, "", "", 0, 0⟩)

def destinationCreateValue (env : Env) (s : Stream) (input : Str) : Stream × Reply :=
  match field input "id" with
  | none => (s, ⟨400, "id_required", "", 0, 0⟩)
  | some id =>
    if id = [] then (s, ⟨400, "id_required", "", 0, 0⟩)
    else
      match field input "type" with
      | none => (s, ⟨400, "type_required", "", 0, 0⟩)
      | some text =>
        if destTypeValue text = 0 then (s, ⟨400, "unknown_destination_type", "", 0, 0⟩)
        else
          match field input "host" with
          | none => (s, ⟨400, "host_required", "", 0, 0⟩)
          | some host =>
            if host = [] then (s, ⟨400, "host_required", "", 0, 0⟩)
            else
              match portField input (destTypeValue text) with
              | .error e => (s, ⟨400, e, "", 0, 0⟩)
              | .ok port =>
                if (destinationFind s id).isSome then (s, ⟨200, "", "", 0, 0⟩)
                else destinationAdd env s input id (destTypeValue text) host port

def destinationCreate (env : Env) (s : Stream) (content : Str) : Stream × Reply :=
  match readBody content with
  | none => (s, ⟨400, "body_too_large", "", 0, 0⟩)
  | some body => destinationCreateValue env s body

def destinationDelete (env : Env) (s : Stream) (id : Str) : Stream × Reply :=
  match destinationFind s id with
  | none => (s, ⟨200, "", "", 0, 0⟩)
  | some _ =>
    ({ touchStream env s with
        destinations := s.destinations.filter fun d => decide (d.id ≠ id) }, ⟨200, "", "", 0, 0⟩)

end DesiredGraph
