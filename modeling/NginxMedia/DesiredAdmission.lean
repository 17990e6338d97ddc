import NginxMedia.DesiredReading

/-! What a replay asks of the model's admission. The two passes over a document that come first
count what it would add; the pass that applies it asks admission object by object. -/
namespace DesiredGraph

open ByteString ApiJson
open SourceRequests (atoi typeFile typeHlsPull typeHlsPush)
open MediaGraph (maxName maxPath)

structure Model where
  limit : Kind → ℕ
  count : Kind → ℕ
  refused : List Delta

def Model.room (m : Model) (kind : Kind) : ℕ := m.limit kind - m.count kind

def Model.admit (m : Model) (d : Delta) : Model :=
  if m.room d.kind = 0 then { m with refused := m.refused ++ [d] }
  else { m with count := Function.update m.count d.kind (m.count d.kind + 1) }

def Env.under (env : Env) (m : Model) : Env :=
  { env with
    streamRoom := m.room .stream
    sourceRoom := m.room .source
    destinationRoom := m.room .destination
    stages := fun application name =>
      decide (m.room .stream ≠ 0) && env.stages application name
    opens := fun application name id =>
      decide (m.room .source ≠ 0) && env.opens application name id }

def streamAsk (reg : Registry) (application name : Str) : Option Delta :=
  if application.length > maxName ∨ name.length > maxName then none
  else if (streamFind reg application name).isSome then none
  else some ⟨.stream, application, name, []⟩

def sourceAsk (s : Stream) (child : Str) : Option Delta :=
  match (field child "id").filter fun id => decide (id ≠ []), typeField sourceTypeValue child with
  | some id, some type =>
    let path := (field child "path").getD []
    let caFile := (field child "ca_file").getD []
    if path.length > maxPath ∨ caFile.length > maxPath then none
    else if (type = typeFile ∨ type = typeHlsPush ∨ type = typeHlsPull) ∧ path = [] then none
    else if (sourceFind s id).isSome then none
    else if id.length > maxName ∨ ((field child "priority").bind atoi).getD 0 > uint32Max then none
    else some ⟨.source, s.application, s.name, id⟩
  | _, _ => none

def destinationAsk (env : Env) (s : Stream) (child : Str) : Option Delta :=
  match (field child "id").filter fun id => decide (id ≠ []), field child "type",
      field child "host" with
  | some id, some type, some host =>
    if (destinationFind s id).isSome ∨ env.owns s.application s.name = false then none
    else if destTypeValue type = 0 ∨ host = [] then none
    else
      match portField child (destTypeValue type) with
      | .error _ => none
      | .ok _ => some ⟨.destination, s.application, s.name, id⟩
  | _, _, _ => none

def Model.asked (m : Model) (ask : Option Delta) : Model := ask.elim m m.admit

def meterSource (env : Env) (s : Stream) (created : ℕ) (m : Model) (child : Str) :
    Applied × Model :=
  (applySource (env.under m) s created child, m.asked (sourceAsk s child))

def meterDestination (env : Env) (s : Stream) (created : ℕ) (m : Model) (child : Str) :
    Applied × Model :=
  (applyDestination (env.under m) s created child, m.asked (destinationAsk env s child))

/-- The objects of an array, one after another until one fails. -/
def meterAll (meter : Stream → ℕ → Model → Str → Applied × Model) (complete : Bool) :
    Stream → ℕ → Model → List Str → Applied × Model
  | s, created, m, [] => (⟨s, created, if complete then .ok else .error⟩, m)
  | s, created, m, child :: rest =>
    let next := meter s created m child
    if next.1.rc = .ok then meterAll meter complete next.1.stream next.1.created next.2 rest
    else next

def meterArray (meter : Stream → ℕ → Model → Str → Applied × Model) (s : Stream) (created : ℕ)
    (m : Model) (array : Option Str) : Applied × Model :=
  match array with
  | none => (⟨s, created, .ok⟩, m)
  | some array => meterAll meter (whole array) s created m (items array)

def meterChildren (env : Env) (s : Stream) (created : ℕ) (m : Model) (item : Str) :
    Applied × Model :=
  let sources := meterArray (meterSource env) s created m (jsonArray item (ascii "sources"))
  if sources.1.rc ≠ .ok then sources
  else
    meterArray (meterDestination env) sources.1.stream sources.1.created sources.2
      (jsonArray item (ascii "destinations"))

def settleStream (env : Env) (existed : Bool) (made : Registry) (application name : Str)
    (children : Applied) : Registry × ℕ × Option Reply :=
  if children.rc = .declined then
    (update made children.stream, children.created,
      some ⟨409, "destination_needs_owner", "", 0, 0⟩)
  else if children.rc ≠ .ok then
    (if existed then update made children.stream else discard made application name,
      children.created, some ⟨400, "child_apply_failed", "", 0, 0⟩)
  else if env.admits application name = false then
    (if existed then update made children.stream else discard made application name,
      children.created, some ⟨500, "runtime_output_capacity", "", 0, 0⟩)
  else (update made children.stream, children.created, none)

def meterStream (transforms : Bool) (env : Env) (reg : Registry) (created : ℕ) (m : Model)
    (item : Str) : (Registry × ℕ × Option Reply) × Model :=
  match field item "application", field item "name" with
  | some application, some name =>
    if application = [] ∨ name = [] then
      ((reg, created, some ⟨400, "stream_needs_application_and_name", "", 0, 0⟩), m)
    else
      match mediaField transforms item with
      | .error e => ((reg, created, some ⟨400, e, "", 0, 0⟩), m)
      | .ok mode =>
        let asked := m.asked (streamAsk reg application name)
        match registryCreate (env.under m) reg application name with
        | none => ((reg, created, some ⟨500, "stream_create_failed", "", 0, 0⟩), asked)
        | some (s, made) =>
          let s := if mode.getD s.mediaMode ≠ s.mediaMode then
            touchStream env { s with mediaMode := mode.getD s.mediaMode } else s
          let children := meterChildren env s created asked item
          (settleStream env (streamFind reg application name).isSome made application name
            children.1, children.2)
  | _, _ => ((reg, created, some ⟨400, "stream_needs_application_and_name", "", 0, 0⟩), m)

def meterStreams (transforms : Bool) (env : Env) :
    Registry → ℕ → ℕ → Model → List Str → (Registry × Reply) × Model
  | reg, applied, created, m, [] => ((reg, ⟨200, "", "", applied, created⟩), m)
  | reg, applied, created, m, item :: rest =>
    match meterStream transforms env reg created m item with
    | ((reg, _, some reply), m) => ((reg, reply), m)
    | ((reg, created, none), m) => meterStreams transforms env reg (applied + 1) created m rest

def meterPut (transforms : Bool) (env : Env) (reg : Registry) (m : Model) (content : Str) :
    (Registry × Reply) × Model :=
  match readBody content with
  | none => ((reg, ⟨400, "body_too_large", "", 0, 0⟩), m)
  | some body =>
    match jsonArray body (ascii "streams") with
    | none => ((reg, ⟨400, "streams_array_required", "", 0, 0⟩), m)
    | some streams =>
      if desiredBounds streams = false then
        ((reg, ⟨400, "graph_bounds_exceeded", "", 0, 0⟩), m)
      else
        match desiredCapacity (env.under m) reg streams with
        | .ok => meterStreams transforms env reg 0 0 m (items streams)
        | .busy => ((reg, ⟨503, "model_capacity_or_invalid_document", "", 0, 0⟩), m)
        | _ => ((reg, ⟨400, "model_capacity_or_invalid_document", "", 0, 0⟩), m)

variable {transforms : Bool} {env : Env} {reg : Registry} {s t : Stream} {created : ℕ}
  {m m' m₀ : Model} {child application name id : Str}

theorem applySource_under (h : sourceAsk s child ≠ none →
    m.room .source ≠ 0 ∧ m'.room .source ≠ 0) :
    applySource (env.under m) s created child = applySource (env.under m') s created child := by
  have hopen : ∀ id type priority path caFile,
      (id ≠ [] → sourceFind s id = none → id.length ≤ maxName → priority ≤ uint32Max →
        m.room .source ≠ 0 ∧ m'.room .source ≠ 0) →
      sourceOpen (env.under m) s id type priority path caFile =
        sourceOpen (env.under m') s id type priority path caFile := by
    intro id type priority path caFile hroom
    unfold sourceOpen
    split
    · rfl
    rename_i hbounds
    simp only [not_or, not_lt] at hbounds
    split
    · rfl
    rename_i hnew
    obtain ⟨hm, hm'⟩ := hroom hbounds.1 (Option.not_isSome_iff_eq_none.mp hnew) hbounds.2.1
      hbounds.2.2.1
    have hopens : (env.under m).opens = (env.under m').opens := by
      funext application name id
      simp only [Env.under, hm, hm', ne_eq, not_false_eq_true, decide_true]
    rw [hopens]
  unfold sourceAsk at h
  unfold applySource
  cases hid : (field child "id").filter fun id => decide (id ≠ []) with
  | none => rfl
  | some id =>
    cases htype : typeField sourceTypeValue child with
    | none => rfl
    | some type =>
      rw [hid, htype] at h
      dsimp only at h ⊢
      split
      · rfl
      rename_i hlong
      rw [if_neg hlong] at h
      split
      · rfl
      rename_i hpath
      rw [if_neg hpath] at h
      cases hfind : sourceFind s id with
      | some x => rfl
      | none =>
        rw [hfind] at h
        dsimp only
        rw [hopen id type _ _ _ fun _ _ hlen hpriority => ?_]
        · rfl
        · refine h ?_
          rw [if_neg nofun, if_neg]
          · nofun
          · rw [not_or, not_lt, not_lt]
            exact ⟨hlen, hpriority⟩

theorem applyDestination_under (h : destinationAsk env s child ≠ none →
    m.room .destination ≠ 0 ∧ m'.room .destination ≠ 0) :
    applyDestination (env.under m) s created child =
      applyDestination (env.under m') s created child := by
  unfold destinationAsk at h
  unfold applyDestination
  cases hid : (field child "id").filter fun id => decide (id ≠ []) with
  | none => rfl
  | some id =>
    rw [hid] at h
    dsimp only
    split
    · rfl
    rename_i hnew
    change (if env.owns s.application s.name = false then _ else _) =
      if env.owns s.application s.name = false then _ else _
    split
    · rfl
    rename_i howns
    have hcreate : destinationCreateValue (env.under m) s child =
        destinationCreateValue (env.under m') s child := by
      unfold destinationCreateValue
      cases hfield : field child "id" with
      | none => rfl
      | some id' =>
        dsimp only
        split
        · rfl
        cases htype : field child "type" with
        | none => rfl
        | some type =>
          dsimp only
          split
          · rfl
          rename_i hknown
          cases hhost : field child "host" with
          | none => rfl
          | some host =>
            dsimp only
            split
            · rfl
            rename_i hne
            cases hport : portField child (destTypeValue type) with
            | error e => rfl
            | ok port =>
              dsimp only
              split
              · rfl
              have hrooms : m.room .destination ≠ 0 ∧ m'.room .destination ≠ 0 := by
                refine h ?_
                rw [htype, hhost]
                dsimp only
                rw [if_neg (not_or.mpr ⟨hnew, howns⟩), if_neg (not_or.mpr ⟨hknown, hne⟩), hport]
                nofun
              unfold destinationAdd
              dsimp only
              rw [if_neg (show ¬(env.under m).destinationRoom = 0 from hrooms.1),
                if_neg (show ¬(env.under m').destinationRoom = 0 from hrooms.2)]
              rfl
    rw [hcreate]

theorem registryCreate_under (h : streamAsk reg application name ≠ none →
    m.room .stream ≠ 0 ∧ m'.room .stream ≠ 0) :
    registryCreate (env.under m) reg application name =
      registryCreate (env.under m') reg application name := by
  unfold registryCreate
  unfold streamAsk at h
  split
  · rfl
  rename_i hbounds
  simp only [not_or, not_lt] at hbounds
  cases hfind : streamFind reg application name with
  | some s => rfl
  | none =>
    rw [hfind, if_neg, if_neg nofun] at h
    · obtain ⟨hm, hm'⟩ := h nofun
      have hstages : (env.under m).stages = (env.under m').stages := by
        funext application name
        simp only [Env.under, hm, hm', ne_eq, not_false_eq_true, decide_true]
      rw [hstages]
    · rw [not_or, not_lt, not_lt]
      exact ⟨hbounds.2.1, hbounds.2.2.2⟩

def Stream.Holds (s : Stream) (d : Delta) : Prop :=
  match d.kind with
  | .stream => True
  | .source => d.id ∈ s.sources.map (·.id)
  | .destination => d.id ∈ s.destinations.map (·.id)

def Present (reg : Registry) (d : Delta) : Prop :=
  ∃ s, streamFind reg d.application d.name = some s ∧ s.Holds d

structure Gains (s t : Stream) : Prop where
  key : t.key = s.key
  holds : ∀ d, s.Holds d → t.Holds d

theorem Gains.refl (s : Stream) : Gains s s := ⟨rfl, fun _ h => h⟩

theorem Gains.trans {u : Stream} (h : Gains s t) (h' : Gains t u) : Gains s u :=
  ⟨h'.key.trans h.key, fun d hd => h'.holds d (h.holds d hd)⟩

theorem gains_of_eq (hkey : t.key = s.key) (hsources : t.sources.map (·.id) = s.sources.map (·.id))
    (hdestinations : t.destinations.map (·.id) = s.destinations.map (·.id)) : Gains s t := by
  refine ⟨hkey, fun d hd => ?_⟩
  unfold Stream.Holds at hd ⊢
  split
  · trivial
  · rename_i hkind
    rw [hkind] at hd
    exact hsources ▸ hd
  · rename_i hkind
    rw [hkind] at hd
    exact hdestinations ▸ hd

theorem gains_touch (env : Env) (s : Stream) : Gains s (touchStream env s) :=
  gains_of_eq rfl rfl rfl

theorem gains_setSource (s : Stream) (x : Source) : Gains s (setSource s x) := by
  refine gains_of_eq rfl ?_ rfl
  rw [setSource, List.map_map]
  refine List.map_congr_left fun y _ => ?_
  rw [Function.comp_apply]
  split
  · rename_i hid
    exact hid.symm
  · rfl

theorem gains_addSource (s : Stream) (x : Source) :
    Gains s { s with sources := s.sources ++ [x] } := by
  refine ⟨rfl, fun d hd => ?_⟩
  unfold Stream.Holds at hd ⊢
  split
  · trivial
  · rename_i hkind
    rw [hkind] at hd
    rw [List.map_append]
    exact List.mem_append_left _ hd
  · rename_i hkind
    rw [hkind] at hd
    exact hd

theorem gains_addDestination (s : Stream) (x : Destination) :
    Gains s { s with destinations := s.destinations ++ [x] } := by
  refine ⟨rfl, fun d hd => ?_⟩
  unfold Stream.Holds at hd ⊢
  split
  · trivial
  · rename_i hkind
    rw [hkind] at hd
    exact hd
  · rename_i hkind
    rw [hkind] at hd
    rw [List.map_append]
    exact List.mem_append_left _ hd

theorem sourceAsk_spec {d : Delta} (h : sourceAsk s child = some d) :
    ∃ id, (field child "id").filter (fun id => decide (id ≠ [])) = some id ∧
      sourceFind s id = none ∧ d = ⟨.source, s.application, s.name, id⟩ := by
  unfold sourceAsk at h
  cases hid : (field child "id").filter fun id => decide (id ≠ []) with
  | none =>
    rw [hid] at h
    cases h
  | some id =>
    refine ⟨id, rfl, ?_⟩
    rw [hid] at h
    cases htype : typeField sourceTypeValue child with
    | none =>
      rw [htype] at h
      cases h
    | some type =>
      rw [htype] at h
      dsimp only at h
      split at h
      · cases h
      split at h
      · cases h
      split at h
      · cases h
      rename_i hnew
      split at h
      · cases h
      · cases h
        exact ⟨Option.not_isSome_iff_eq_none.mp hnew, rfl⟩

theorem destinationAsk_spec {d : Delta} (h : destinationAsk env s child = some d) :
    ∃ id, (field child "id").filter (fun id => decide (id ≠ [])) = some id ∧
      destinationFind s id = none ∧ env.owns s.application s.name = true ∧
      d = ⟨.destination, s.application, s.name, id⟩ := by
  unfold destinationAsk at h
  cases hid : (field child "id").filter fun id => decide (id ≠ []) with
  | none =>
    rw [hid] at h
    cases h
  | some id =>
    refine ⟨id, rfl, ?_⟩
    cases htype : field child "type" with
    | none =>
      rw [hid, htype] at h
      cases h
    | some type =>
      cases hhost : field child "host" with
      | none =>
        rw [hid, htype, hhost] at h
        cases h
      | some host =>
        rw [hid, htype, hhost] at h
        dsimp only at h
        split at h
        · cases h
        rename_i hnew
        rw [not_or, Bool.not_eq_false] at hnew
        split at h
        · cases h
        split at h
        · cases h
        · cases h
          exact ⟨Option.not_isSome_iff_eq_none.mp hnew.1, hnew.2, rfl⟩

theorem applySource_gains (env : Env) (s : Stream) (created : ℕ) (child : Str) :
    Gains s (applySource env s created child).stream ∧
      ((applySource env s created child).rc = .ok →
        ∀ d ∈ sourceAsk s child, (applySource env s created child).stream.Holds d) := by
  unfold applySource sourceAsk
  cases hid : (field child "id").filter fun id => decide (id ≠ []) with
  | none => exact ⟨.refl s, nofun⟩
  | some id =>
    cases htype : typeField sourceTypeValue child with
    | none => exact ⟨.refl s, nofun⟩
    | some type =>
      dsimp only
      split
      · exact ⟨.refl s, nofun⟩
      split
      · exact ⟨.refl s, nofun⟩
      cases hfind : sourceFind s id with
      | some x =>
        refine ⟨?_, fun _ d hd => by cases hd⟩
        dsimp only
        split
        · split
          · exact .refl s
          · exact gains_setSource s _
        · exact .refl s
      | none =>
        dsimp only
        cases hopen : sourceOpen env s id type (((field child "priority").bind atoi).getD 0)
            ((field child "path").getD []) ((field child "ca_file").getD []) with
        | none => exact ⟨.refl s, nofun⟩
        | some x =>
          dsimp only
          have hx : x.id = id := by
            unfold sourceOpen at hopen
            split at hopen
            · cases hopen
            split at hopen
            · cases hopen
            split at hopen
            · cases hopen
            · cases hopen
              rfl
          cases hset : graphSourceSet env s (touchSource env x)
              (some ((field child "path").getD [])) (some ((field child "ca_file").getD [])) with
          | none => exact ⟨.refl s, nofun⟩
          | some y =>
            refine ⟨gains_addSource s y, fun _ d hd => ?_⟩
            rw [if_neg nofun] at hd
            split at hd
            · cases hd
            · cases hd
              have hy : y.id = id := (graphSourceSet_spec hset).1.trans hx
              change id ∈ (s.sources ++ [y]).map (·.id)
              rw [List.map_append, List.map_singleton, hy]
              exact List.mem_append_right _ (List.mem_singleton_self id)

theorem destinationAdd_gains (env : Env) (s : Stream) (input id : Str) (type : ℕ) (host : Str)
    (port : ℕ) : Gains s (destinationAdd env s input id type host port).1 ∧
      ((destinationAdd env s input id type host port).2.status = 201 →
        id ∈ (destinationAdd env s input id type host port).1.destinations.map (·.id)) ∧
      (destinationAdd env s input id type host port).2.status ≠ 200 := by
  unfold destinationAdd
  dsimp only
  split
  · exact ⟨.refl s, nofun, nofun⟩
  split
  · exact ⟨.refl s, nofun, nofun⟩
  split
  · exact ⟨.refl s, nofun, nofun⟩
  split
  · refine ⟨?_, nofun, nofun⟩
    split
    · exact (gains_touch env s).trans (gains_touch env _)
    · exact .refl s
  · rename_i d hsettings
    split
    · exact ⟨.refl s, nofun, nofun⟩
    · obtain ⟨settings, profile, rfl⟩ := destinationSettings_spec hsettings
      refine ⟨(gains_addDestination s _).trans (gains_touch env _), fun _ => ?_, nofun⟩
      rw [List.map_append]
      exact List.mem_append_right _ (List.mem_singleton_self id)

theorem destinationCreateValue_gains (env : Env) (s : Stream) (input : Str) :
    Gains s (destinationCreateValue env s input).1 ∧
      ∀ id, field input "id" = some id → destinationFind s id = none →
        (destinationCreateValue env s input).2.status ≠ 200 ∧
          ((destinationCreateValue env s input).2.status = 201 →
            id ∈ (destinationCreateValue env s input).1.destinations.map (·.id)) := by
  unfold destinationCreateValue
  cases hid : field input "id" with
  | none => exact ⟨.refl s, nofun⟩
  | some id =>
    dsimp only
    split
    · exact ⟨.refl s, fun _ _ _ => ⟨nofun, nofun⟩⟩
    cases htype : field input "type" with
    | none => exact ⟨.refl s, fun _ _ _ => ⟨nofun, nofun⟩⟩
    | some type =>
      dsimp only
      split
      · exact ⟨.refl s, fun _ _ _ => ⟨nofun, nofun⟩⟩
      cases hhost : field input "host" with
      | none => exact ⟨.refl s, fun _ _ _ => ⟨nofun, nofun⟩⟩
      | some host =>
        dsimp only
        split
        · exact ⟨.refl s, fun _ _ _ => ⟨nofun, nofun⟩⟩
        cases hport : portField input (destTypeValue type) with
        | error e => exact ⟨.refl s, fun _ _ _ => ⟨nofun, nofun⟩⟩
        | ok port =>
          dsimp only
          split
          · rename_i hfind
            refine ⟨.refl s, fun _ h hnone => ?_⟩
            cases h
            rw [hnone] at hfind
            cases hfind
          · obtain ⟨hgains, hmade, hother⟩ :=
              destinationAdd_gains env s input id (destTypeValue type) host port
            refine ⟨hgains, fun _ h _ => ⟨hother, ?_⟩⟩
            cases h
            exact hmade

theorem applyDestination_gains (env' : Env) (s : Stream) (created : ℕ) (child : Str) :
    Gains s (applyDestination env' s created child).stream ∧
      ((applyDestination env' s created child).rc = .ok →
        ∀ d ∈ destinationAsk env s child,
          (applyDestination env' s created child).stream.Holds d) := by
  unfold applyDestination
  cases hid : (field child "id").filter fun id => decide (id ≠ []) with
  | none => exact ⟨.refl s, nofun⟩
  | some id =>
    have hask : ∀ d ∈ destinationAsk env s child,
        destinationFind s id = none ∧ d = ⟨.destination, s.application, s.name, id⟩ := by
      intro d hd
      obtain ⟨id', hid', hnew, -, rfl⟩ := destinationAsk_spec hd
      cases hid.symm.trans hid'
      exact ⟨hnew, rfl⟩
    have hfield : field child "id" = some id := (Option.filter_eq_some_iff.mp hid).1
    obtain ⟨hgains, hmade⟩ := destinationCreateValue_gains env' s child
    dsimp only
    split
    · rename_i hfind
      refine ⟨.refl s, fun _ d hd => ?_⟩
      rw [(hask d hd).1] at hfind
      cases hfind
    rename_i hfind
    obtain ⟨hother, hthere⟩ := hmade id hfield (Option.not_isSome_iff_eq_none.mp hfind)
    split
    · exact ⟨.refl s, nofun⟩
    split
    · rename_i hstatus
      refine ⟨hgains, fun _ d hd => ?_⟩
      rw [(hask d hd).2]
      exact hthere hstatus
    · exact ⟨hgains, nofun⟩

structure Foreseen (env : Env) (reg : Registry) (needed : List Delta)
    (item application name : Str) : Prop where
  stream : ¬Present reg ⟨.stream, application, name, []⟩ → ⟨.stream, application, name, []⟩ ∈ needed
  sources : ∀ array ∈ jsonArray item (ascii "sources"), ∀ child ∈ items array,
    ∀ id ∈ (field child "id").filter fun id => decide (id ≠ []),
    ¬Present reg ⟨.source, application, name, id⟩ → ⟨.source, application, name, id⟩ ∈ needed
  destinations : env.owns application name = true →
    ∀ array ∈ jsonArray item (ascii "destinations"), ∀ child ∈ items array,
    ∀ id ∈ (field child "id").filter fun id => decide (id ≠ []),
    ¬Present reg ⟨.destination, application, name, id⟩ →
      ⟨.destination, application, name, id⟩ ∈ needed

theorem mem_of_mapM {α β : Type*} {f : α → Option β} {as : List α} {bs : List β}
    (h : as.mapM f = some bs) {a : α} (ha : a ∈ as) : ∃ b ∈ bs, f a = some b := by
  induction as generalizing bs with
  | nil => cases ha
  | cons first rest ih =>
    rw [List.mapM_cons] at h
    obtain ⟨b, hb, hrest⟩ := Option.bind_eq_some_iff.mp h
    obtain ⟨cs, hcs, heq⟩ := Option.bind_eq_some_iff.mp hrest
    cases heq
    rcases List.mem_cons.mp ha with rfl | ha
    · exact ⟨b, List.mem_cons_self, hb⟩
    · obtain ⟨c, hc, hfc⟩ := ih hcs ha
      exact ⟨c, List.mem_cons_of_mem _ hc, hfc⟩

theorem childDeltas_mem {kind : Kind} {known : Str → Bool} {array : Str} {ds : List Delta}
    (h : childDeltas kind application name known array = some ds) (hchild : child ∈ items array)
    (hid : (field child "id").filter (fun id => decide (id ≠ [])) = some id)
    (hnew : known id = false) : ⟨kind, application, name, id⟩ ∈ ds := by
  unfold childDeltas at h
  split at h
  · cases h
  obtain ⟨ids, hids, rfl⟩ := Option.map_eq_some_iff.mp h
  obtain ⟨id', hmem, hread⟩ := mem_of_mapM hids hchild
  cases hid.symm.trans hread
  refine List.mem_map.mpr ⟨id, List.mem_filter.mpr ⟨hmem, ?_⟩, rfl⟩
  rw [hnew]
  rfl

theorem streamDeltas_foreseen {item : Str} {ds : List Delta}
    (h : streamDeltas env reg item = some ds)
    (happlication : field item "application" = some application)
    (hname : field item "name" = some name) : Foreseen env reg ds item application name := by
  unfold streamDeltas at h
  rw [happlication, hname] at h
  dsimp only at h
  split at h
  case h_2 => cases h
  rename_i sources destinations hsources hdestinations
  cases h
  have hfound : ∀ s d, streamFind reg application name = some s →
      d.application = application → d.name = name → s.Holds d → Present reg d := by
    rintro s d hs rfl rfl hd
    exact ⟨s, hs, hd⟩
  refine ⟨fun hnew => ?_, fun array harray child hchild id hid hnew => ?_,
    fun howns array harray child hchild id hid hnew => ?_⟩
  · cases hfind : streamFind reg application name with
    | none => exact List.mem_append_left _ (List.mem_singleton_self _)
    | some s => exact (hnew (hfound s _ hfind rfl rfl trivial)).elim
  · refine List.mem_append_right _ (List.mem_append_left _ ?_)
    rw [harray] at hsources
    refine childDeltas_mem hsources hchild hid (Bool.eq_false_iff.mpr fun hknown => ?_)
    obtain ⟨s, hs, hsome⟩ := (Option.any_eq_true _ _).mp hknown
    obtain ⟨x, hx⟩ := Option.isSome_iff_exists.mp hsome
    obtain ⟨hmem, rfl⟩ := sourceFind_some hx
    exact hnew (hfound s _ hs rfl rfl (List.mem_map_of_mem hmem))
  · refine List.mem_append_right _ (List.mem_append_right _ ?_)
    rw [if_neg (by rw [howns]; nofun), harray] at hdestinations
    refine childDeltas_mem hdestinations hchild hid (Bool.eq_false_iff.mpr fun hknown => ?_)
    obtain ⟨s, hs, hsome⟩ := (Option.any_eq_true _ _).mp hknown
    obtain ⟨x, hx⟩ := Option.isSome_iff_exists.mp hsome
    refine hnew (hfound s _ hs rfl rfl ?_)
    have hid' : x.id = id := by simpa using List.find?_some hx
    exact hid' ▸ List.mem_map_of_mem (List.mem_of_find?_eq_some hx)

def Fits (needed : List Delta) (m : Model) : Prop :=
  ∀ kind, (ofKind kind needed.dedup).length ≤ m.room kind

theorem desiredCapacity_fits {streams : Str}
    (h : desiredCapacity (env.under m) reg streams = .ok) :
    ∃ needed, Fits needed m ∧ ∀ item ∈ items streams, ∃ application name,
      field item "application" = some application ∧ field item "name" = some name ∧
        Foreseen env reg needed item application name := by
  unfold desiredCapacity at h
  split at h
  · cases h
  cases hdeltas : (items streams).mapM (streamDeltas (env.under m) reg) with
  | none =>
    rw [hdeltas] at h
    cases h
  | some deltas =>
    rw [hdeltas] at h
    dsimp only at h
    split at h
    case isFalse => cases h
    rename_i hall
    refine ⟨deltas.flatten, fun kind => ?_, fun item hitem => ?_⟩
    · have hkind := List.all_eq_true.mp hall kind (by cases kind <;> decide)
      have hroom : room (env.under m) kind = m.room kind := by cases kind <;> rfl
      rw [← hroom]
      exact of_decide_eq_true hkind
    · obtain ⟨ds, hds, hread⟩ := mem_of_mapM hdeltas hitem
      have hnames : ∃ application name, field item "application" = some application ∧
          field item "name" = some name := by
        unfold streamDeltas at hread
        split at hread
        · rename_i application name happlication hname
          exact ⟨application, name, happlication, hname⟩
        · cases hread
      obtain ⟨application, name, happlication, hname⟩ := hnames
      refine ⟨application, name, happlication, hname, ?_⟩
      have hforeseen := streamDeltas_foreseen hread happlication hname
      have hsub : ∀ d ∈ ds, d ∈ deltas.flatten := fun d hd =>
        List.mem_flatten.mpr ⟨ds, hds, hd⟩
      exact ⟨fun hnew => hsub _ (hforeseen.stream hnew),
        fun array ha child hc id hi hnew => hsub _ (hforeseen.sources array ha child hc id hi hnew),
        fun howns array ha child hc id hi hnew =>
          hsub _ (hforeseen.destinations howns array ha child hc id hi hnew)⟩

structure Charged (reg : Registry) (needed : List Delta) (m₀ : Model) (present : Delta → Prop)
    (m : Model) : Prop where
  limit : m.limit = m₀.limit
  refused : m.refused = m₀.refused
  old : ∀ d, Present reg d → present d
  asked : ∃ asked : List Delta, asked.Nodup ∧ (∀ d ∈ asked, d ∈ needed ∧ present d) ∧
    ∀ kind, m.count kind = m₀.count kind + (ofKind kind asked).length

variable {needed : List Delta} {present present' : Delta → Prop} {d : Delta} {ask : Option Delta}

theorem charged_start (reg : Registry) (needed : List Delta) (m : Model) :
    Charged reg needed m (Present reg) m :=
  ⟨rfl, rfl, fun _ h => h, [], List.nodup_nil, nofun, fun _ => rfl⟩

theorem Charged.mono (h : Charged reg needed m₀ present m) (hkeep : ∀ d, present d → present' d) :
    Charged reg needed m₀ present' m := by
  obtain ⟨asked, hnodup, hasked, hcount⟩ := h.asked
  exact ⟨h.limit, h.refused, fun d hd => hkeep d (h.old d hd), asked, hnodup,
    fun d hd => ⟨(hasked d hd).1, hkeep d (hasked d hd).2⟩, hcount⟩

theorem ofKind_concat (kind : Kind) (asked : List Delta) (d : Delta) :
    (ofKind kind (asked.concat d)).length =
      (ofKind kind asked).length + if d.kind = kind then 1 else 0 := by
  rw [List.concat_eq_append, ofKind, List.filter_append, List.length_append, ofKind]
  by_cases hkind : d.kind = kind
  · simp [hkind]
  · simp [hkind]

theorem Charged.room (h : Charged reg needed m₀ present m) (hfits : Fits needed m₀)
    (hneed : d ∈ needed) (hnew : ¬present d) : m.room d.kind ≠ 0 ∧ m₀.room d.kind ≠ 0 := by
  obtain ⟨asked, hnodup, hasked, hcount⟩ := h.asked
  have hd : d ∉ asked := fun hmem => hnew (hasked d hmem).2
  have hsub : ofKind d.kind (asked.concat d) ⊆ ofKind d.kind needed.dedup := by
    intro e he
    obtain ⟨hmem, hkind⟩ := List.mem_filter.mp he
    refine List.mem_filter.mpr ⟨List.mem_dedup.mpr ?_, hkind⟩
    rw [List.concat_eq_append, List.mem_append] at hmem
    rcases hmem with hmem | hmem
    · exact (hasked e hmem).1
    · rwa [List.mem_singleton.mp hmem]
  have hless : (ofKind d.kind (asked.concat d)).length ≤ (ofKind d.kind needed.dedup).length :=
    List.Nodup.length_le_of_subset ((List.Nodup.concat hd hnodup).filter _) hsub
  have hfit := hless.trans (hfits d.kind)
  rw [ofKind_concat, if_pos rfl] at hfit
  have hcountd := hcount d.kind
  unfold Model.room at hfit ⊢
  rw [h.limit, hcountd]
  omega

theorem Charged.askedFor (h : Charged reg needed m₀ present m) (hfits : Fits needed m₀)
    (hask : ∀ d ∈ ask, d ∈ needed ∧ ¬present d) :
    (m.asked ask).refused = m₀.refused ∧
      ((∀ d, present d → present' d) → (∀ d ∈ ask, present' d) →
        Charged reg needed m₀ present' (m.asked ask)) := by
  cases ask with
  | none => exact ⟨h.refused, fun hkeep _ => h.mono hkeep⟩
  | some d =>
    obtain ⟨hneed, hnew⟩ := hask d rfl
    have hroom := (h.room hfits hneed hnew).1
    have hasked : m.asked (some d) =
        { m with count := Function.update m.count d.kind (m.count d.kind + 1) } := if_neg hroom
    rw [hasked]
    refine ⟨h.refused, fun hkeep hthere => ?_⟩
    obtain ⟨asked, hnodup, hasked, hcount⟩ := h.asked
    have hd : d ∉ asked := fun hmem => hnew (hasked d hmem).2
    refine ⟨h.limit, h.refused, fun e he => hkeep e (h.old e he), asked.concat d,
      List.Nodup.concat hd hnodup, fun e he => ?_, fun kind => ?_⟩
    · rw [List.concat_eq_append, List.mem_append] at he
      rcases he with he | he
      · exact ⟨(hasked e he).1, hkeep e (hasked e he).2⟩
      · rw [List.mem_singleton.mp he]
        exact ⟨hneed, hthere d rfl⟩
    · dsimp only
      rw [ofKind_concat]
      by_cases hkind : d.kind = kind
      · subst kind
        rw [Function.update_self, hcount, if_pos rfl, Nat.add_assoc]
      · rw [Function.update_of_ne (Ne.symm hkind), hcount, if_neg hkind, Nat.add_zero]

def Within (made : Registry) (s : Stream) (d : Delta) : Prop :=
  if (d.application, d.name) = s.key then s.Holds d else Present made d

theorem within_own {made : Registry} {d : Delta} (hkey : (d.application, d.name) = s.key)
    (hd : s.Holds d) : Within made s d := by
  unfold Within
  rwa [if_pos hkey]

theorem Gains.within {made : Registry} (h : Gains s t) (hd : Within made s d) :
    Within made t d := by
  unfold Within at hd ⊢
  rw [h.key]
  split at hd
  · rename_i hkey
    rw [if_pos hkey]
    exact h.holds d hd
  · rename_i hkey
    rwa [if_neg hkey]

structure Serves (reg : Registry) (needed : List Delta) (m₀ : Model) (made : Registry) (s : Stream)
    (plain : Applied) (r : Applied × Model) : Prop where
  same : r.1 = plain
  refused : r.2.refused = m₀.refused
  gains : Gains s r.1.stream
  charged : r.1.rc = .ok → Charged reg needed m₀ (Within made r.1.stream) r.2

variable {made : Registry}

theorem serves_refl (h : Charged reg needed m₀ (Within made s) m) (rc : Rc) :
    Serves reg needed m₀ made s ⟨s, created, rc⟩ (⟨s, created, rc⟩, m) :=
  ⟨rfl, h.refused, .refl s, fun _ => h⟩

theorem meterAll_serves {apply : Stream → ℕ → Str → Applied}
    {meter : Stream → ℕ → Model → Str → Applied × Model} {complete : Bool} {children : List Str}
    (hstep : ∀ t created m, ∀ child ∈ children, Gains s t →
      Charged reg needed m₀ (Within made t) m →
      Serves reg needed m₀ made t (apply t created child) (meter t created m child))
    (hst : Gains s t) (h : Charged reg needed m₀ (Within made t) m) :
    Serves reg needed m₀ made t (applyAll apply complete t created children)
      (meterAll meter complete t created m children) := by
  induction children generalizing t created m with
  | nil => exact serves_refl h _
  | cons child rest ih =>
    have hnext := hstep t created m child List.mem_cons_self hst h
    rw [applyAll, meterAll, ← hnext.same]
    split
    · rename_i hrc
      have hrest := @ih _ (meter t created m child).1.created _
        (fun t created m child hchild => hstep t created m child (List.mem_cons_of_mem _ hchild))
        (hst.trans hnext.gains) (hnext.charged hrc)
      exact ⟨hrest.same, hrest.refused, hnext.gains.trans hrest.gains, hrest.charged⟩
    · exact ⟨rfl, hnext.refused, hnext.gains, hnext.charged⟩

theorem meterArray_serves {apply : Stream → ℕ → Str → Applied}
    {meter : Stream → ℕ → Model → Str → Applied × Model} {array : Option Str}
    (hstep : ∀ t created m, ∀ text ∈ array, ∀ child ∈ items text, Gains s t →
      Charged reg needed m₀ (Within made t) m →
      Serves reg needed m₀ made t (apply t created child) (meter t created m child))
    (hst : Gains s t) (h : Charged reg needed m₀ (Within made t) m) :
    Serves reg needed m₀ made t (applyArray apply t created array)
      (meterArray meter t created m array) := by
  cases array with
  | none => exact serves_refl h _
  | some text =>
    exact meterAll_serves (fun t created m child => hstep t created m text rfl child) hst h

theorem asked_serves {plain next : Applied} (hfits : Fits needed m₀)
    (h : Charged reg needed m₀ (Within made t) m)
    (hask : ∀ d ∈ ask, (d.application, d.name) = t.key ∧ ¬t.Holds d ∧
      (¬Present reg d → d ∈ needed))
    (hsame : (∀ d ∈ ask, m.room d.kind ≠ 0 ∧ m₀.room d.kind ≠ 0) → next = plain)
    (hgains : Gains t next.stream)
    (hmade : next.rc = .ok → ∀ d ∈ ask, next.stream.Holds d) :
    Serves reg needed m₀ made t plain (next, m.asked ask) := by
  have hnew : ∀ d ∈ ask, d ∈ needed ∧ ¬Within made t d := by
    intro d hd
    obtain ⟨hkey, hout, hneed⟩ := hask d hd
    have hout' : ¬Within made t d := by
      unfold Within
      rwa [if_pos hkey]
    exact ⟨hneed fun hold => hout' (h.old d hold), hout'⟩
  obtain ⟨hrefused, hcharged⟩ := h.askedFor hfits hnew
  refine ⟨hsame fun d hd => h.room hfits (hnew d hd).1 (hnew d hd).2, hrefused, hgains,
    fun hrc => hcharged (fun d hd => hgains.within hd) fun d hd => ?_⟩
  exact within_own ((hask d hd).1.trans hgains.key.symm) (hmade hrc d hd)

theorem meterChildren_serves (hfits : Fits needed m₀) {item : Str}
    (hkey : s.key = (application, name)) (hforeseen : Foreseen env reg needed item application name)
    (h : Charged reg needed m₀ (Within made s) m) (created : ℕ) :
    Serves reg needed m₀ made s (desiredChildren (env.under m₀) s created item)
      (meterChildren env s created m item) := by
  have hnames : ∀ t, Gains s t → t.application = application ∧ t.name = name := fun t ht =>
    Prod.mk.injEq .. ▸ ht.key.trans hkey
  have hsources : Serves reg needed m₀ made s
      (applyArray (applySource (env.under m₀)) s created (jsonArray item (ascii "sources")))
      (meterArray (meterSource env) s created m (jsonArray item (ascii "sources"))) := by
    refine meterArray_serves (fun t created m array harray child hchild hst ht => ?_) (.refl s) h
    obtain ⟨happlication, hname⟩ := hnames t hst
    obtain ⟨hgains, hmade⟩ := applySource_gains (env.under m) t created child
    refine asked_serves hfits ht (fun d hd => ?_) (fun hroom => ?_) hgains hmade
    · obtain ⟨id, hid, hnew, rfl⟩ := sourceAsk_spec hd
      refine ⟨rfl, sourceFind_none hnew, ?_⟩
      rw [happlication, hname]
      exact hforeseen.sources array harray child hchild id hid
    · refine applySource_under fun hsome => ?_
      obtain ⟨d, hd⟩ := Option.ne_none_iff_exists'.mp hsome
      obtain ⟨id, -, -, rfl⟩ := sourceAsk_spec hd
      exact hroom _ hd
  unfold desiredChildren meterChildren
  dsimp only
  rw [← hsources.same]
  split
  · exact ⟨rfl, hsources.refused, hsources.gains, hsources.charged⟩
  rename_i hrc
  rw [ne_eq, not_not] at hrc
  generalize meterArray (meterSource env) s created m (jsonArray item (ascii "sources")) = r
    at hsources hrc ⊢
  have hdestinations : Serves reg needed m₀ made r.1.stream
      (applyArray (applyDestination (env.under m₀)) r.1.stream r.1.created
        (jsonArray item (ascii "destinations")))
      (meterArray (meterDestination env) r.1.stream r.1.created r.2
        (jsonArray item (ascii "destinations"))) := by
    refine meterArray_serves (fun t created m array harray child hchild hst ht => ?_)
      hsources.gains (hsources.charged hrc)
    obtain ⟨happlication, hname⟩ := hnames t hst
    obtain ⟨hgains, hmade⟩ := applyDestination_gains (env.under m) t created child
    refine asked_serves hfits ht (fun d hd => ?_) (fun hroom => ?_) hgains hmade
    · obtain ⟨id, hid, hnew, howns, rfl⟩ := destinationAsk_spec hd
      refine ⟨rfl, destinationFind_none hnew, ?_⟩
      rw [happlication, hname] at howns ⊢
      exact hforeseen.destinations howns array harray child hchild id hid
    · refine applyDestination_under fun hsome => ?_
      obtain ⟨d, hd⟩ := Option.ne_none_iff_exists'.mp hsome
      obtain ⟨id, -, -, -, rfl⟩ := destinationAsk_spec hd
      exact hroom _ hd
  exact ⟨hdestinations.same, hdestinations.refused, hsources.gains.trans hdestinations.gains,
    hdestinations.charged⟩

theorem streamFind_update (made : Registry) (s : Stream) (application name : Str) :
    streamFind (update made s) application name = (streamFind made application name).map fun t =>
      if t.name = s.name ∧ t.application = s.application then s else t := by
  unfold streamFind update
  rw [List.find?_map]
  refine congrArg (Option.map _) (congrArg (made.find? ·) (funext fun t => ?_))
  rw [Function.comp_apply, decide_eq_decide]
  split
  · rename_i hsame
    rw [hsame.1, hsame.2]
  · rfl

theorem present_update (hin : (streamFind made s.application s.name).isSome)
    (hd : Within made s d) : Present (update made s) d := by
  unfold Within at hd
  unfold Present
  rw [streamFind_update]
  split at hd
  · rename_i hkey
    obtain ⟨happlication, hname⟩ := Prod.mk.injEq .. ▸ hkey
    rw [happlication, hname]
    obtain ⟨t, ht⟩ := Option.isSome_iff_exists.mp hin
    obtain ⟨happlication', hname'⟩ := Prod.mk.injEq .. ▸ (streamFind_some ht).2
    exact ⟨s, by rw [ht, Option.map_some, if_pos ⟨hname', happlication'⟩], hd⟩
  · rename_i hkey
    obtain ⟨t, ht, hholds⟩ := hd
    obtain ⟨happlication, hname⟩ := Prod.mk.injEq .. ▸ (streamFind_some ht).2
    refine ⟨t, ?_, hholds⟩
    rw [ht, Option.map_some, if_neg]
    rintro ⟨hn, ha⟩
    exact hkey (Prod.ext (happlication.symm.trans ha) (hname.symm.trans hn))

theorem within_found (hfind : streamFind reg application name = some s) (hd : Present reg d) :
    Within reg s d := by
  unfold Within
  split
  · rename_i hkey
    obtain ⟨t, ht, hholds⟩ := hd
    obtain ⟨happlication, hname⟩ :=
      Prod.mk.injEq .. ▸ hkey.trans (streamFind_some hfind).2
    rw [happlication, hname, hfind] at ht
    cases ht
    exact hholds
  · exact hd

theorem streamFind_append (reg : Registry) (s : Stream) (application name : Str) :
    streamFind (reg ++ [s]) application name = (streamFind reg application name).or
      (streamFind [s] application name) := List.find?_append

theorem within_new (hfind : streamFind reg application name = none)
    (hkey : s.key = (application, name)) (hd : Present reg d) : Within (reg ++ [s]) s d := by
  obtain ⟨t, ht, hholds⟩ := hd
  unfold Within
  rw [if_neg]
  · exact ⟨t, by rw [streamFind_append, ht, Option.some_or], hholds⟩
  · intro hsame
    obtain ⟨happlication, hname⟩ := Prod.mk.injEq .. ▸ hsame.trans hkey
    rw [happlication, hname, hfind] at ht
    cases ht

theorem streamAsk_spec (h : streamAsk reg application name = some d) :
    d = ⟨.stream, application, name, []⟩ ∧ streamFind reg application name = none := by
  unfold streamAsk at h
  split at h
  · cases h
  split at h
  · cases h
  · rename_i hnew
    cases h
    exact ⟨rfl, Option.not_isSome_iff_eq_none.mp hnew⟩

theorem registryCreate_serves (hfits : Fits needed m₀)
    (hneed : ¬Present reg ⟨.stream, application, name, []⟩ →
      ⟨.stream, application, name, []⟩ ∈ needed) {now : Registry}
    (h : Charged reg needed m₀ (Present now) m) :
    registryCreate (env.under m) now application name =
        registryCreate (env.under m₀) now application name ∧
      (m.asked (streamAsk now application name)).refused = m₀.refused ∧
      ∀ s made, registryCreate (env.under m) now application name = some (s, made) →
        s.key = (application, name) ∧ (streamFind made application name).isSome ∧
          Charged reg needed m₀ (Within made s) (m.asked (streamAsk now application name)) := by
  have hask : ∀ d ∈ streamAsk now application name, d ∈ needed ∧ ¬Present now d := by
    intro d hd
    obtain ⟨rfl, hfind⟩ := streamAsk_spec hd
    have hnew : ¬Present now ⟨.stream, application, name, []⟩ := by
      rintro ⟨s, hs, -⟩
      cases hfind.symm.trans hs
    exact ⟨hneed fun hold => hnew (h.old _ hold), hnew⟩
  refine ⟨registryCreate_under fun hsome => ?_,
    (@Charged.askedFor _ _ _ _ _ (Present now) _ h hfits hask).1, fun s made hmade => ?_⟩
  · obtain ⟨d, hd⟩ := Option.ne_none_iff_exists'.mp hsome
    have hroom := h.room hfits (hask d hd).1 (hask d hd).2
    obtain ⟨rfl, -⟩ := streamAsk_spec hd
    exact hroom
  · obtain ⟨happlication, hname, ⟨hfind, rfl⟩ | ⟨hfind, rfl, rfl⟩⟩ := registryCreate_cases hmade
    · refine ⟨(streamFind_some hfind).2, by rw [hfind]; rfl, ?_⟩
      have hnone : streamAsk made application name = none := by
        unfold streamAsk
        rw [hfind, if_pos (Option.isSome_some)]
        exact ite_self _
      rw [hnone]
      exact h.mono fun d hd => within_found hfind hd
    · refine ⟨rfl, ?_, ?_⟩
      · rw [streamFind_append, hfind, Option.none_or]
        exact List.find?_isSome.mpr ⟨_, List.mem_singleton_self _, decide_eq_true ⟨rfl, rfl⟩⟩
      · refine (h.askedFor hfits hask).2 (fun d hd => within_new hfind rfl hd) fun d hd => ?_
        obtain ⟨rfl, -⟩ := streamAsk_spec hd
        exact within_own rfl trivial

def OverBudget (r : Reply) : Prop :=
  r.error = "graph_bounds_exceeded" ∨ r.error = "model_capacity_or_invalid_document"

instance (r : Reply) : Decidable (OverBudget r) := inferInstanceAs (Decidable (_ ∨ _))

theorem mediaField_error {body : Str} {e : String} (h : mediaField transforms body = .error e) :
    e = "unknown_media_mode" ∨ e = "transform_unavailable" := by
  unfold mediaField at h
  split at h
  · cases h
  split at h
  · cases h
    exact Or.inl rfl
  split at h
  · cases h
    exact Or.inr rfl
  · cases h

structure Carries (reg : Registry) (needed : List Delta) (m₀ : Model)
    (plain : Registry × ℕ × Option Reply) (r : (Registry × ℕ × Option Reply) × Model) : Prop where
  same : r.1 = plain
  refused : r.2.refused = m₀.refused
  charged : r.1.2.2 = none → Charged reg needed m₀ (Present r.1.1) r.2
  replies : ∀ reply ∈ r.1.2.2, ¬OverBudget reply

theorem carries_reply {now : Registry} (h : m.refused = m₀.refused) {reply : Reply}
    (hreply : ¬OverBudget reply) : Carries reg needed m₀ (now, created, some reply)
      ((now, created, some reply), m) :=
  ⟨rfl, h, nofun, fun r hr => by cases hr; exact hreply⟩

theorem settleStream_carries {existed : Bool} {children : Applied}
    (hin : (streamFind made application name).isSome)
    (hkey : children.stream.key = (application, name)) (hrefused : m.refused = m₀.refused)
    (h : children.rc = .ok → Charged reg needed m₀ (Within made children.stream) m) :
    Carries reg needed m₀ (settleStream env existed made application name children)
      (settleStream env existed made application name children, m) := by
  unfold settleStream
  split
  · exact carries_reply hrefused (by decide)
  split
  · exact carries_reply hrefused (by decide)
  rename_i hrc
  rw [ne_eq, not_not] at hrc
  split
  · exact carries_reply hrefused (by decide)
  · refine ⟨rfl, hrefused, fun _ => (h hrc).mono fun d hd => present_update ?_ hd, nofun⟩
    obtain ⟨happlication, hname⟩ := Prod.mk.injEq .. ▸ hkey
    rwa [happlication, hname]

theorem meterStream_carries (hfits : Fits needed m₀) {item : Str}
    (happlication : field item "application" = some application)
    (hname : field item "name" = some name)
    (hforeseen : Foreseen env reg needed item application name) {now : Registry}
    (h : Charged reg needed m₀ (Present now) m) (created : ℕ) :
    Carries reg needed m₀ (applyStream transforms (env.under m₀) now created item)
      (meterStream transforms env now created m item) := by
  unfold applyStream meterStream
  rw [happlication, hname]
  dsimp only
  split
  · exact carries_reply h.refused (by decide)
  cases hmode : mediaField transforms item with
  | error e =>
    refine carries_reply h.refused ?_
    rcases mediaField_error hmode with rfl | rfl <;> decide
  | ok mode =>
    obtain ⟨hsame, hrefused, hmade⟩ :=
      @registryCreate_serves env reg m m₀ application name needed hfits hforeseen.stream now h
    dsimp only
    rw [← hsame]
    cases hcreate : registryCreate (env.under m) now application name with
    | none => exact carries_reply hrefused (by decide)
    | some r =>
      obtain ⟨s, made⟩ := r
      obtain ⟨hkey, hin, hcharged⟩ := hmade s made hcreate
      dsimp only
      have hmedia : Gains s (if mode.getD s.mediaMode ≠ s.mediaMode then
          touchStream env { s with mediaMode := mode.getD s.mediaMode } else s) := by
        split
        · exact gains_of_eq rfl rfl rfl
        · exact .refl s
      change Carries reg needed m₀ (settleStream env (streamFind now application name).isSome made
        application name (desiredChildren (env.under m₀)
          (if mode.getD s.mediaMode ≠ s.mediaMode then
            touchStream env { s with mediaMode := mode.getD s.mediaMode } else s) created item)) _
      generalize (if mode.getD s.mediaMode ≠ s.mediaMode then
        touchStream env { s with mediaMode := mode.getD s.mediaMode } else s) = t at hmedia ⊢
      have hserves := meterChildren_serves hfits (hmedia.key.trans hkey) hforeseen
        (hcharged.mono fun d hd => hmedia.within hd) created
      rw [← hserves.same]
      exact settleStream_carries hin (hserves.gains.key.trans (hmedia.key.trans hkey))
        hserves.refused hserves.charged

theorem meterStreams_carries (hfits : Fits needed m₀) {texts : List Str}
    (hforeseen : ∀ item ∈ texts, ∃ application name,
      field item "application" = some application ∧ field item "name" = some name ∧
        Foreseen env reg needed item application name) {now : Registry}
    (h : Charged reg needed m₀ (Present now) m) (applied created : ℕ) :
    (meterStreams transforms env now applied created m texts).1 =
        applyStreams transforms (env.under m₀) now applied created texts ∧
      (meterStreams transforms env now applied created m texts).2.refused = m₀.refused ∧
      ¬OverBudget (meterStreams transforms env now applied created m texts).1.2 := by
  induction texts generalizing now m applied created with
  | nil =>
    have hdone : ¬(("" : String) = "graph_bounds_exceeded" ∨
        ("" : String) = "model_capacity_or_invalid_document") := by decide
    exact ⟨rfl, h.refused, hdone⟩
  | cons item rest ih =>
    obtain ⟨application, name, happlication, hname, hitem⟩ :=
      hforeseen item List.mem_cons_self
    have hnext := @meterStream_carries transforms _ _ _ _ _ _ _ hfits _ happlication hname hitem
      _ h created
    rw [applyStreams, meterStreams, ← hnext.same]
    generalize meterStream transforms env now created m item = r at hnext ⊢
    obtain ⟨⟨now', created', reply⟩, m'⟩ := r
    cases reply with
    | some reply => exact ⟨rfl, hnext.refused, hnext.replies reply rfl⟩
    | none =>
      exact ih (fun item hi => hforeseen item (List.mem_cons_of_mem _ hi)) (hnext.charged rfl) _ _

/-- A replay that is over budget changes nothing, and in any other replay admission refuses
nothing that is asked of it: it goes as `desiredPut` says. -/
theorem replay_admitted (transforms : Bool) (env : Env) (reg : Registry) (m : Model)
    (content : Str) :
    (OverBudget (meterPut transforms env reg m content).1.2 →
        meterPut transforms env reg m content =
          ((reg, (meterPut transforms env reg m content).1.2), m)) ∧
      (meterPut transforms env reg m content).2.refused = m.refused ∧
      (meterPut transforms env reg m content).1 =
        desiredPut transforms (env.under m) reg content := by
  unfold meterPut desiredPut
  cases readBody content with
  | none => exact ⟨fun _ => rfl, rfl, rfl⟩
  | some body =>
    dsimp only
    cases jsonArray body (ascii "streams") with
    | none => exact ⟨fun _ => rfl, rfl, rfl⟩
    | some streams =>
      dsimp only
      split
      · exact ⟨fun _ => rfl, rfl, rfl⟩
      cases hcapacity : desiredCapacity (env.under m) reg streams with
      | ok =>
        obtain ⟨needed, hfits, hforeseen⟩ := desiredCapacity_fits hcapacity
        obtain ⟨hsame, hrefused, hwithin⟩ := meterStreams_carries hfits
          hforeseen (charged_start reg needed m) 0 0
        exact ⟨fun hover => (hwithin hover).elim, hrefused, hsame⟩
      | declined => exact ⟨fun _ => rfl, rfl, rfl⟩
      | error => exact ⟨fun _ => rfl, rfl, rfl⟩
      | busy => exact ⟨fun _ => rfl, rfl, rfl⟩

end DesiredGraph
