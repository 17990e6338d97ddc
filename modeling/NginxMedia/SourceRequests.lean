import NginxMedia.GraphWire
import NginxMedia.HlsPush

/-! The requests of `ngx_media_api_module.c` that create a programme's sources and give them
their ingest keys: what one worker does to its own replica of the graph, and the operation it
then broadcasts. OpenSSL's digests are parameters. -/
namespace SourceRequests

open ByteString MediaGraph

structure Crypto where
  sha256 : Str → Str
  hmac : Str → Str → Option Str

def keySecretBytes : ℕ := 26
def keyMax : ℕ := keySecretBytes + 8
def keyPrintBytes : ℕ := 12

def keyAlphabet : Str := ascii "0123456789ABCDEFGHJKMNPQRSTVWXYZ"

def hexDigits : Str := ascii "0123456789abcdef"

def keyPrint (hash : Str) : Str :=
  (hash.take (keyPrintBytes / 2)).flatMap fun byte =>
    [hexDigits.getD (byte.toNat / 16) 0, hexDigits.getD (byte.toNat % 16) 0]

structure Key where
  text : Str
  hash : Str
  print : Str
  nonce : Option Str
  deriving DecidableEq, Repr

def keyGiven (crypto : Crypto) (text : Str) : Key :=
  ⟨text, crypto.sha256 text, keyPrint (crypto.sha256 text), none⟩

def keyDerive (crypto : Crypto) (master id nonce : Str) : Option Key :=
  if master = [] ∨ id.length > 256 then none
  else
    (crypto.hmac master (putWord 4 id.length ++ (id ++ nonce))).map fun mac =>
      let text := (List.range keySecretBytes).map fun i =>
        keyAlphabet.getD ((mac.getD (i % mac.length) 0).toNat % 32) 0
      { keyGiven crypto text with nonce := some nonce }

/-- What the rest of the worker answers while one request is served; `nonces` are what
`ngx_media_key_nonce()` gives until it fails. -/
structure ApiEnv where
  graph : Env
  master : Str
  nonces : List Str
  available : Bool
  transforms : Bool
  claims : Bool
  allocs : Bool
  journals : Bool

inductive Reply where
  | failed (status : ℕ) (error : String)
  | stream (status : ℕ) (revision : ℕ)
  | source (status : ℕ) (id : Str) (key : Option (Str × Str)) (revision : ℕ)
  | deleted (id : Str) (present : Bool)
  deriving DecidableEq, Repr

structure Served where
  reply : Reply
  registry : Registry
  sent : Option Op

def refuse (reg : Registry) (status : ℕ) (error : String) : Served :=
  ⟨.failed status error, reg, none⟩

/-- `ngx_media_graph_send()`, as far as it can refuse. -/
def graphSend (env : ApiEnv) (op : Op) : Option Op :=
  if (GraphWire.encode op env.allocs).isNone ∨ env.journals = false then none else some op

def streamOp (application name : Str) (st : Stream) : Op :=
  { kind := .streamSet
    revision := st.revision
    incarnation := st.incarnation
    sourceRevision := 0
    type := 0
    priority := 0
    enabled := false
    failureTimeout := st.failureTimeout
    recoveryTimeout := st.recoveryTimeout
    mediaMode := st.mediaMode
    application := application
    name := name
    id := []
    path := []
    caFile := []
    keySet := false
    keyHash := []
    keyPrint := []
    keyNonceSet := false
    keyNonce := [] }

def sourceOp (application name : Str) (st : Stream) (s : Source) (path caFile : Str) : Op :=
  { kind := .sourceSet
    revision := st.revision
    incarnation := st.incarnation
    sourceRevision := s.revision
    type := s.type
    priority := s.priority
    enabled := s.enabled
    failureTimeout := 0
    recoveryTimeout := 0
    mediaMode := 0
    application := application
    name := name
    id := s.id
    path := path
    caFile := caFile
    keySet := s.keySet
    keyHash := s.keyHash
    keyPrint := s.keyPrint
    keyNonceSet := s.keyNonceSet
    keyNonce := s.keyNonce }

def sourceDeleteOp (application name : Str) (st : Stream) (id : Str) (revision : ℕ) : Op :=
  { streamOp application name st with
    kind := .sourceDelete
    revision := revision
    failureTimeout := 0
    recoveryTimeout := 0
    mediaMode := 0
    id := id }

def graphStreamSet (env : ApiEnv) (application name : Str) (st : Stream) : Option Op :=
  if env.graph.refuses then none else graphSend env (streamOp application name st)

def graphSourceSet (env : ApiEnv) (application name : Str) (st : Stream) (s : Source)
    (path caFile : Str) : Option Op :=
  if application = [] ∨ name = [] ∨ application.length > maxName ∨ name.length > maxName ∨
      s.id = [] ∨ s.id.length > maxName ∨ s.priority > 2 ^ 32 - 1 ∨
      path.length > maxPath ∨ caFile.length > maxPath then none
  else if (path ≠ s.path ∨ caFile ≠ s.caFile) ∧ env.graph.copies = false then none
  else graphSend env (sourceOp application name st s path caFile)

def touchSource (env : ApiEnv) (s : Source) : Source :=
  { s with revision := revisionNext (env.graph.shared 0) s.revision }

def touchStream (env : ApiEnv) (st : Stream) : Stream :=
  { st with revision := revisionNext (env.graph.shared 1) st.revision }

def keyMatches (hash : Str) (s : Source) : Bool := s.keySet && decide (s.keyHash = hash)

def allSources (reg : Registry) : List (Entry × Source) :=
  reg.entries.flatMap fun e => e.stream.sources.map fun s => (e, s)

def sourceByKey (reg : Registry) (hash : Str) : Option (Entry × Source) :=
  (allSources reg).find? fun p => keyMatches hash p.2

structure StreamRequest where
  fits : Bool
  application : Option Str
  name : Option Str
  media : Option Str
  deriving DecidableEq, Repr

/-- `ngx_strncasecmp()` over texts of one length. -/
def sameText (text : Str) (word : String) : Bool := decide (text.map HlsPush.lower = ascii word)

def mediaMode (text : Str) : Option ℕ :=
  if sameText text "source" then some mediaSource
  else if sameText text "profile" then some mediaProfile
  else none

def streamOpen (env : ApiEnv) (reg : Registry) (application name : Str) (mode : Option ℕ) :
    Served :=
  let existed := (registryStream reg application name).isSome
  if existed = false ∧ env.available = false then refuse reg 503 "stream_capacity"
  else
    match streamCreate env.graph reg application name with
    | none => refuse reg 500 "stream_create_failed"
    | some (e, created) =>
      let back := if existed then reg else (streamRemove env.graph created e.handle false).1
      if env.claims = false then refuse back 503 "owner_claim_failed"
      else
        let chosen := { e.stream with mediaMode := mode.getD e.stream.mediaMode }
        let st :=
          if chosen.mediaMode ≠ e.stream.mediaMode ∨ existed = false then touchStream env chosen
          else chosen
        match graphStreamSet env application name st with
        | none => refuse back 500 "runtime_output_capacity"
        | some op =>
          ⟨.stream (if existed then 200 else 201) st.revision,
            update created e.handle fun _ => st, some op⟩

def streamPost (env : ApiEnv) (reg : Registry) (request : StreamRequest) : Served :=
  if request.fits = false then refuse reg 400 "body_too_large"
  else
    match request.application, request.name with
    | some application, some name =>
      if application = [] ∨ name = [] then refuse reg 400 "application_and_name_required"
      else if application.length > maxName ∨ name.length > maxName then
        refuse reg 400 "graph_name_too_long"
      else
        match request.media with
        | none => streamOpen env reg application name none
        | some text =>
          match mediaMode text with
          | none => refuse reg 400 "unknown_media_mode"
          | some mode =>
            if mode = mediaProfile ∧ env.transforms = false then
              refuse reg 400 "transform_unavailable"
            else streamOpen env reg application name (some mode)
    | _, _ => refuse reg 400 "application_and_name_required"

/-- The body of a request for a source, as `ngx_media_api_json_field()` finds its fields. -/
structure SourceRequest where
  fits : Bool
  id : Option Str
  type : Option Str
  priority : Option Str
  path : Option Str
  caFile : Option Str
  key : Option Str
  deriving DecidableEq, Repr

def typeSrt : ℕ := 1
def typeRtmp : ℕ := 2
def typeFile : ℕ := 3
def typeHlsPull : ℕ := 4
def typeHlsPush : ℕ := 5

def sourceType (text : Str) : ℕ :=
  if sameText text "srt" then typeSrt
  else if sameText text "rtmp" then typeRtmp
  else if sameText text "file" then typeFile
  else if sameText text "hls_pull" then typeHlsPull
  else if sameText text "hls_push" then typeHlsPush
  else 0

/-- The transports that a publisher connects to with a key. -/
def keyed (type : ℕ) : Bool := type == typeSrt || type == typeRtmp || type == typeHlsPush

def atoi (text : Str) : Option ℕ :=
  if text = [] ∨ ¬ (text.all fun c => decide (48 ≤ c ∧ c ≤ 57)) ∨
      decimalValue text > 2 ^ 63 - 1 then none
  else some (decimalValue text)

/-- The characters of a key that is also a directory's name. -/
def pathSafe (c : UInt8) : Bool :=
  decide (97 ≤ c ∧ c ≤ 122 ∨ 65 ≤ c ∧ c ≤ 90 ∨ 48 ≤ c ∧ c ≤ 57) || c == 45 || c == 95 || c == 46

def sourcePaths (request : SourceRequest) (type : ℕ) : Except String (Str × Str) :=
  let path := request.path.getD []
  if type = typeFile then
    if path = [] then .error "path_required_for_file_source" else .ok (path, [])
  else if type = typeHlsPush then
    if path = [] then .error "path_required_for_hls_push" else .ok (path, [])
  else if type = typeHlsPull then
    if path = [] then .error "path_required_for_hls_pull"
    else .ok (path, request.caFile.getD [])
  else .ok ([], [])

def givenKey (request : SourceRequest) (type : ℕ) : Option Str :=
  request.key.filter fun key => !keyed type || decide (key ≠ [])

def chooseKey (crypto : Crypto) (env : ApiEnv) (request : SourceRequest) (type : ℕ) (id : Str) :
    Except (ℕ × String) (Option Key) :=
  match givenKey request type with
  | some key =>
    if keyed type = false then .error (400, "key_not_supported")
    else if key.length ≥ keyMax then .error (400, "key_too_long")
    else if type = typeHlsPush ∧ (key.head? = some 46 ∨ ¬ key.all pathSafe) then
      .error (400, "key_not_path_safe")
    else .ok (some (keyGiven crypto key))
  | none =>
    if keyed type = false then .ok none
    else
      match env.nonces with
      | [] => .error (500, "key_nonce_failed")
      | nonce :: _ =>
        match keyDerive crypto env.master id nonce with
        | none => .error (500, "key_derive_failed")
        | some key => .ok (some key)

def setKey (key : Key) (s : Source) : Source :=
  { s with
    keySet := true
    keyHash := key.hash
    keyPrint := key.print
    keyNonceSet := s.keyNonceSet || key.nonce.isSome
    keyNonce := key.nonce.getD s.keyNonce }

def newSource (env : ApiEnv) (s : Source) (key : Option Key) : Source :=
  touchSource env (key.elim s fun k => setKey k s)

def sourceOpenAs (env : ApiEnv) (reg : Registry) (e : Entry) (id : Str) (type priority : ℕ)
    (path caFile : Str) (key : Option Key) : Served :=
  let wanted := sourceOp e.application e.name e.stream (Source.new id type priority) path caFile
  match sourceOpen env.graph wanted with
  | none =>
    if env.graph.owns then refuse reg 400 "source_open_failed"
    else refuse reg 500 "source_create_failed"
  | some opened =>
    let s := newSource env opened key
    let st := touchStream env e.stream
    match graphSourceSet env e.application e.name st s path caFile with
    | none => refuse reg 503 "graph_admission_failed"
    | some op =>
      ⟨.source 201 id (key.map fun k => (k.text, k.print)) s.revision,
        update reg e.handle fun old =>
          touchStream env (addSource { s with path := path, caFile := caFile } old),
        some op⟩

def sourceAdd (crypto : Crypto) (env : ApiEnv) (reg : Registry) (e : Entry)
    (request : SourceRequest) (id : Str) (type priority : ℕ) : Served :=
  match sourceFind e.stream id with
  | some s => ⟨.source 200 s.id none s.revision, reg, none⟩
  | none =>
    match sourcePaths request type with
    | .error error => refuse reg 400 error
    | .ok (path, caFile) =>
      if path.length > maxPath ∨ caFile.length > maxPath then refuse reg 400 "graph_path_too_long"
      else if env.available = false then refuse reg 503 "source_capacity"
      else
        match chooseKey crypto env request type id with
        | .error (status, error) => refuse reg status error
        | .ok key =>
          -- the one look at what other sources answer to
          if key.any fun k => (sourceByKey reg k.hash).isSome then refuse reg 400 "key_in_use"
          else sourceOpenAs env reg e id type priority path caFile key

def sourcePost (crypto : Crypto) (env : ApiEnv) (reg : Registry) (application name : Str)
    (request : SourceRequest) : Served :=
  match registryStream reg application name with
  | none => refuse reg 404 "stream_not_found"
  | some e =>
    if request.fits = false then refuse reg 400 "body_too_large"
    else
      match request.id with
      | none => refuse reg 400 "id_required"
      | some id =>
        if id = [] then refuse reg 400 "id_required"
        else if id.length > maxName then refuse reg 400 "graph_name_too_long"
        else
          let type := request.type.elim typeSrt sourceType
          if type = 0 then refuse reg 400 "unknown_source_type"
          else
            match request.priority with
            | none => sourceAdd crypto env reg e request id type 0
            | some text =>
              match atoi text with
              | none => refuse reg 400 "bad_priority"
              | some priority =>
                if priority > 2 ^ 32 - 1 then refuse reg 400 "bad_priority"
                else sourceAdd crypto env reg e request id type priority

def changeSource (env : ApiEnv) (id : Str) (f : Source → Source) (st : Stream) : Stream :=
  touchStream env
    { st with sources := st.sources.map fun s => if s.id = id then touchSource env (f s) else s }

def sourceChange (env : ApiEnv) (reg : Registry) (e : Entry) (s : Source) (f : Source → Source)
    (key : Option (Str × Str)) : Served :=
  let changed := touchSource env (f s)
  match graphSourceSet env e.application e.name (touchStream env e.stream) changed s.path
      s.caFile with
  | none => refuse reg 503 "graph_admission_failed"
  | some op =>
    ⟨.source 200 s.id key changed.revision, update reg e.handle (changeSource env s.id f), some op⟩

def drawKey (crypto : Crypto) (reg : Registry) (master id : Str) :
    List Str → Except String Key
  | [] => .error "key_nonce_failed"
  | nonce :: rest =>
    match keyDerive crypto master id nonce with
    | none => .error "key_derive_failed"
    | some key =>
      if (sourceByKey reg key.hash).isSome then drawKey crypto reg master id rest else .ok key

def sourceRotate (crypto : Crypto) (env : ApiEnv) (reg : Registry) (application name id : Str) :
    Served :=
  match registryStream reg application name with
  | none => refuse reg 404 "stream_not_found"
  | some e =>
    match sourceFind e.stream id with
    | none => refuse reg 404 "source_not_found"
    | some s =>
      if keyed s.type = false then refuse reg 400 "key_not_supported"
      else
        match drawKey crypto reg env.master s.id env.nonces with
        | .error error => refuse reg 500 error
        | .ok key => sourceChange env reg e s (setKey key) (some (key.text, key.print))

def sourceSetEnabled (env : ApiEnv) (reg : Registry) (application name id : Str)
    (enabled : Bool) : Served :=
  match registryStream reg application name with
  | none => refuse reg 404 "stream_not_found"
  | some e =>
    match sourceFind e.stream id with
    | none => refuse reg 404 "source_not_found"
    | some s => sourceChange env reg e s (fun s => { s with enabled := enabled }) none

def sourceDelete (env : ApiEnv) (reg : Registry) (application name id : Str) : Served :=
  match registryStream reg application name with
  | none => refuse reg 404 "stream_not_found"
  | some e =>
    match sourceFind e.stream id with
    | none => ⟨.deleted id false, reg, none⟩
    | some _ =>
      let st := touchStream env e.stream
      match graphSend env (sourceDeleteOp application name e.stream id st.revision) with
      | none => refuse reg 503 "graph_admission_failed"
      | some op =>
        ⟨.deleted id true,
          update reg e.handle fun old => touchStream env (removeSource id old), some op⟩

end SourceRequests
