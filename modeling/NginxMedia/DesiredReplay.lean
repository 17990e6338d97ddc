import NginxMedia.DesiredLength
import Mathlib.Data.List.TakeWhile

/-! A replay of the desired document against an empty registry: when the whole of it is accepted
and gives back the graph it was printed from. -/
namespace DesiredGraph

open ByteString ApiJson
open SourceRequests (sourceType atoi typeFile typeHlsPull typeHlsPush typeSrt)
open MediaGraph (maxName maxPath mediaSource mediaProfile)

variable {transforms : Bool} {env : Env} {reg : Registry} {s t : Stream} {created : ℕ}

structure CarriedSource where
  id : Str
  type : ℕ
  priority : ℕ
  path : Str
  caFile : Str
  enabled : Bool
  deriving DecidableEq, Repr

structure CarriedDestination where
  id : Str
  type : ℕ
  host : Str
  port : ℕ
  enabled : Bool
  deriving DecidableEq, Repr

structure CarriedStream where
  application : Str
  name : Str
  mediaMode : ℕ
  sources : List CarriedSource
  destinations : List CarriedDestination
  deriving DecidableEq, Repr

def Source.carried (x : Source) : CarriedSource :=
  ⟨x.id, x.type, x.priority, x.path, x.caFile, x.enabled⟩

def Destination.carried (d : Destination) : CarriedDestination :=
  ⟨d.id, d.type, d.host, d.port, d.enabled⟩

def Stream.carried (s : Stream) : CarriedStream :=
  ⟨s.application, s.name, s.mediaMode, s.sources.map (·.carried), s.destinations.map (·.carried)⟩

def carried (reg : Registry) : List CarriedStream := reg.map (·.carried)

/-- The document, sent to an empty registry, is accepted and yields the same graph. -/
def Restored (transforms : Bool) (env : Env) (reg : Registry) : Prop :=
  ∃ document, desiredGet reg = some document ∧
    (desiredPut transforms env [] document).2.status = 200 ∧
    carried (desiredPut transforms env [] document).1 = carried reg

def SafeHost (host : Str) : Prop := 63 ∉ host ∧ 64 ∉ host

def SafeHosts (reg : Registry) : Prop := ∀ s ∈ reg, ∀ d ∈ s.destinations, SafeHost d.host

def Source.Pathless (x : Source) : Prop :=
  (x.type = typeFile ∨ x.type = typeHlsPush ∨ x.type = typeHlsPull) ∧ x.path = []

instance (x : Source) : Decidable x.Pathless := by
  unfold Source.Pathless
  infer_instance

structure Replayable (reg : Registry) : Prop where
  length : documentLength reg ≤ maxPayload
  enabled : ∀ s ∈ reg, ∀ x ∈ s.sources, x.enabled = true
  paths : ∀ s ∈ reg, ∀ x ∈ s.sources, ¬x.Pathless
  ports : ∀ s ∈ reg, ∀ d ∈ s.destinations, d.port ≠ 0
  hosts : ∀ s ∈ reg, ∀ d ∈ s.destinations, d.host.length < 512

def Source.replayed (x : Source) : CarriedSource := { x.carried with enabled := true }

def Destination.replayed (d : Destination) : CarriedDestination :=
  { d.carried with host := safeHost d }

def Stream.replayed (s : Stream) : CarriedStream :=
  ⟨s.application, s.name, s.mediaMode, s.sources.map (·.replayed),
    s.destinations.map (·.replayed)⟩

theorem redactUrl_plain {url : Str} (h : SafeHost url) (hne : url ≠ []) :
    redactUrl url 512 = if url.length ≥ 512 then url.take 511 else url := by
  have hshown : url.takeWhile (· ≠ 63) = url :=
    List.takeWhile_eq_self_iff.mpr fun c hc =>
      decide_eq_true fun heq => h.1 (heq ▸ hc)
  have hcap : ¬(url = [] ∨ 512 < 2) := by
    rintro (hnil | hless)
    · exact hne hnil
    · omega
  rw [redactUrl, if_neg hcap]
  simp only [hshown]
  rw [if_neg fun huser => h.2 huser.1]

theorem safeHost_spec {d : Destination} (h : SafeHost d.host) (hd : d.Sound) :
    (safeHost d = d.host ↔ d.host.length < 512) ∧ safeHost d ≠ [] ∧
      (safeHost d).length ≤ maxPath := by
  rw [safeHost, redactUrl_plain h hd.hosted]
  split
  · rename_i hlong
    have hlength : (d.host.take 511).length = 511 := by
      rw [List.length_take]
      omega
    refine ⟨⟨fun heq => ?_, fun hless => ?_⟩, ?_, ?_⟩
    · rw [heq] at hlength
      omega
    · omega
    · intro hnil
      rw [hnil] at hlength
      cases hlength
    · rw [hlength]
      decide
  · rename_i hshort
    exact ⟨⟨fun _ => by omega, fun _ => rfl⟩, hd.hosted, hd.host⟩

def Grown (s t : Stream) (sources : List CarriedSource)
    (destinations : List CarriedDestination) : Prop :=
  ∃ revision newSources newDestinations,
    t = { s with revision, sources := s.sources ++ newSources
                 destinations := s.destinations ++ newDestinations } ∧
      newSources.map (·.carried) = sources ∧ newDestinations.map (·.carried) = destinations

theorem Grown.refl (s : Stream) : Grown s s [] [] := by
  refine ⟨s.revision, [], [], ?_, rfl, rfl⟩
  simp only [List.append_nil]

theorem Grown.trans {u : Stream} {xs ys : List CarriedSource} {ds es : List CarriedDestination}
    (h : Grown s t xs ds) (h' : Grown t u ys es) : Grown s u (xs ++ ys) (ds ++ es) := by
  obtain ⟨_, newSources, newDestinations, rfl, rfl, rfl⟩ := h
  obtain ⟨revision, laterSources, laterDestinations, rfl, rfl, rfl⟩ := h'
  refine ⟨revision, newSources ++ laterSources, newDestinations ++ laterDestinations, ?_, ?_, ?_⟩
  · simp only [List.append_assoc]
  · rw [List.map_append]
  · rw [List.map_append]

theorem sourceFind_fresh {id : Str} (h : id ∉ s.sources.map (·.id)) : sourceFind s id = none :=
  List.find?_eq_none.mpr fun x hx heq =>
    h (List.mem_map.mpr ⟨x, hx, of_decide_eq_true heq⟩)

theorem destinationFind_fresh {id : Str} (h : id ∉ s.destinations.map (·.id)) :
    destinationFind s id = none :=
  List.find?_eq_none.mpr fun d hd heq =>
    h (List.mem_map.mpr ⟨d, hd, of_decide_eq_true heq⟩)

theorem streamFind_fresh {application name : Str} (h : (application, name) ∉ reg.map Stream.key) :
    streamFind reg application name = none := by
  refine List.find?_eq_none.mpr fun s hs heq => ?_
  obtain ⟨hname, happlication⟩ := of_decide_eq_true heq
  exact h (List.mem_map.mpr ⟨s, hs, Prod.ext happlication hname⟩)

theorem applyAll_printed {α : Type*} {apply : Stream → ℕ → Str → Applied} {text : α → Str}
    (Ready : Stream → List α → Prop) (Refused : α → Prop)
    (Made : Stream → List α → Stream → Prop) (hnil : ∀ s, Made s [] s)
    (hstep : ∀ s created a rest, Ready s (a :: rest) →
      ((apply s created (text a)).rc = .error ∧ Refused a) ∨
      ((apply s created (text a)).rc = .ok ∧ ¬Refused a ∧
        Ready (apply s created (text a)).stream rest ∧
        ∀ t, Made (apply s created (text a)).stream rest t → Made s (a :: rest) t))
    {as : List α} (hready : Ready s as) :
    ((applyAll apply true s created (as.map text)).rc = .error ∧ ∃ a ∈ as, Refused a) ∨
      ((applyAll apply true s created (as.map text)).rc = .ok ∧ (∀ a ∈ as, ¬Refused a) ∧
        Made s as (applyAll apply true s created (as.map text)).stream) := by
  induction as generalizing s created with
  | nil => exact Or.inr ⟨rfl, nofun, hnil s⟩
  | cons a rest ih =>
    rw [List.map_cons, applyAll]
    rcases hstep s created a rest hready with ⟨hrc, hrefused⟩ | ⟨hrc, hgood, hnext, hmade⟩
    · have hne : ¬(apply s created (text a)).rc = .ok := by
        rw [hrc]
        decide
      simp only [if_neg hne]
      exact Or.inl ⟨hrc, a, List.mem_cons_self, hrefused⟩
    · simp only [if_pos hrc]
      rcases ih hnext with ⟨herror, b, hb, hrefused⟩ | ⟨hok, hall, hrest⟩
      · exact Or.inl ⟨herror, b, List.mem_cons_of_mem a hb, hrefused⟩
      · refine Or.inr ⟨hok, ?_, hmade _ hrest⟩
        intro b hb
        rcases List.mem_cons.mp hb with rfl | hb
        · exact hgood
        · exact hall b hb

def Stream.Named (s : Stream) : Prop :=
  (s.application ≠ [] ∧ s.application.length ≤ maxName) ∧ s.name ≠ [] ∧ s.name.length ≤ maxName

structure ReadySources (s : Stream) (xs : List Source) : Prop where
  named : s.Named
  sound : ∀ x ∈ xs, x.Sound
  ids : ((s.sources ++ xs).map (·.id)).Nodup

theorem graphSourceSet_ok {x : Source} (hs : s.Named) (hx : x.Sound)
    (hsends : ∀ application name id, env.sends application name id = true) {path caFile : Str}
    (hpath : path.length ≤ maxPath) (hca : caFile.length ≤ maxPath) :
    graphSourceSet env s x (some path) (some caFile) = some { x with path, caFile } := by
  obtain ⟨⟨happlication, happlicationLe⟩, hname, hnameLe⟩ := hs
  rw [graphSourceSet, if_neg, hsends]
  · rfl
  · simp only [Option.getD_some, not_or, not_lt]
    exact ⟨happlication, hname, happlicationLe, hnameLe, hx.named, hx.id, hx.priority, hpath, hca⟩

theorem sourceOpen_ok {x : Source} (hx : x.Sound) (hnew : sourceFind s x.id = none)
    (hopens : ∀ application name id, env.opens application name id = true) :
    sourceOpen env s x.id x.type x.priority x.path x.caFile =
      some { id := x.id, type := x.type, priority := x.priority } := by
  rw [sourceOpen, if_neg, hnew, hopens]
  · rfl
  · simp only [not_or, not_lt]
    exact ⟨hx.named, hx.id, hx.priority, hx.path, hx.caFile⟩

def Source.reopened (env : Env) (x : Source) : Source :=
  { touchSource env { id := x.id, type := x.type, priority := x.priority } with
    path := x.path, caFile := x.caFile }

@[simp] theorem Source.reopened_id (env : Env) (x : Source) : (x.reopened env).id = x.id := rfl

theorem applySource_sourceText {x : Source} (henv : env.Smooth reg) (hs : s.Named) (hx : x.Sound)
    (hnew : sourceFind s x.id = none) :
    applySource env s created (sourceText x) =
      if x.Pathless then ⟨s, created, .error⟩
      else ⟨{ s with sources := s.sources ++ [x.reopened env] }, created + 1, .ok⟩ := by
  obtain ⟨hid, htype, hpriority, hpath, hca⟩ := field_sourceText x
  have hrange := hx.type
  have hne : ¬x.type = 0 := by
    intro hzero
    rw [hzero] at hrange
    exact absurd hrange.1 (by decide)
  have htypeField : typeField sourceTypeValue (sourceText x) = some x.type := by
    rw [typeField, htype]
    simp only [sourceTypeValue_decimal hrange, hne, if_false]
  have hatoi := atoi_decimal (n := x.priority) (hx.priority.trans (by decide))
  have hlong : ¬(x.path.length > maxPath ∨ x.caFile.length > maxPath) := by
    simp only [not_or, not_lt]
    exact ⟨hx.path, hx.caFile⟩
  have hopen := sourceOpen_ok hx hnew henv.opens
  have hopened : (touchSource env { id := x.id, type := x.type, priority := x.priority }).Sound :=
    ⟨hx.named, hx.id, hx.type, hx.priority, Nat.zero_le _, Nat.zero_le _⟩
  have hset : graphSourceSet env s (touchSource env
      { id := x.id, type := x.type, priority := x.priority }) (some x.path) (some x.caFile) =
        some (x.reopened env) := graphSourceSet_ok hs hopened henv.sends hx.path hx.caFile
  have hnamed : (some x.id).filter (fun id => decide (id ≠ [])) = some x.id := by
    simp [hx.named]
  simp only [applySource, hid, hnamed, htypeField, hpath, hca, Option.getD_some, hlong, if_false,
    hnew, hpriority, Option.bind_some, hatoi, hopen, hset]
  by_cases hpathless : x.Pathless
  · rw [if_pos hpathless]
    exact if_pos hpathless
  · rw [if_neg hpathless]
    exact if_neg hpathless

theorem applySources (created : ℕ) (henv : env.Smooth reg) {xs : List Source}
    (hready : ReadySources s xs) :
    ((applyAll (applySource env) true s created (xs.map sourceText)).rc = .error ∧
        ∃ x ∈ xs, x.Pathless) ∨
      ((applyAll (applySource env) true s created (xs.map sourceText)).rc = .ok ∧
        (∀ x ∈ xs, ¬x.Pathless) ∧
        Grown s (applyAll (applySource env) true s created (xs.map sourceText)).stream
          (xs.map (·.replayed)) []) := by
  refine applyAll_printed ReadySources Source.Pathless
    (fun s xs t => Grown s t (xs.map (·.replayed)) []) Grown.refl ?_ hready
  intro s created x rest h
  have hx := h.sound x List.mem_cons_self
  have hids := h.ids
  rw [List.map_append, List.map_cons, List.nodup_middle, List.nodup_cons] at hids
  have hnew : sourceFind s x.id = none :=
    sourceFind_fresh fun hmem => hids.1 (List.mem_append_left _ hmem)
  rw [applySource_sourceText henv h.named hx hnew]
  by_cases hpathless : x.Pathless
  · rw [if_pos hpathless]
    exact Or.inl ⟨rfl, hpathless⟩
  · rw [if_neg hpathless]
    refine Or.inr ⟨rfl, hpathless, ⟨h.named, fun y hy => h.sound y (List.mem_cons_of_mem x hy),
      ?_⟩, fun t ht => ?_⟩
    · have hids := h.ids
      simpa using hids
    · have hfirst : Grown s { s with sources := s.sources ++ [x.reopened env] } [x.replayed] [] :=
        ⟨s.revision, [x.reopened env], [], by simp only [List.append_nil], rfl, rfl⟩
      exact hfirst.trans ht

structure ReadyDestinations (env : Env) (s : Stream) (ds : List Destination) : Prop where
  sound : ∀ d ∈ ds, d.Sound
  safe : ∀ d ∈ ds, SafeHost d.host
  room : ds ≠ [] → env.destinationRoom ≠ 0
  ids : ((s.destinations ++ ds).map (·.id)).Nodup

theorem portField_destinationText {d : Destination} (hd : d.Sound) :
    portField (destinationText d) d.type =
      if d.port = 0 then .error "bad_port" else .ok d.port := by
  have hport := hd.port
  have hatoi := atoi_decimal (n := d.port) (hport.trans (by decide))
  rw [portField, (field_destinationText d).2.2.2]
  simp only [hatoi]
  by_cases hzero : d.port = 0
  · rw [hzero]
    rfl
  · have hrange : 1 ≤ d.port ∧ d.port ≤ 65535 := ⟨Nat.one_le_iff_ne_zero.mpr hzero, hport⟩
    rw [Option.filter_some, if_pos (decide_eq_true hrange), if_neg hzero]

def Destination.recreated (d : Destination) (settings : Settings) (profile : Str) : Destination :=
  { id := d.id, type := d.type, host := safeHost d, port := d.port, settings, profile }

theorem destinationAdd_ok {d : Destination} (henv : env.Smooth reg) (hd : d.Sound)
    (hsafe : SafeHost d.host) (hroom : env.destinationRoom ≠ 0) :
    ∃ t, destinationAdd env s (destinationText d) d.id d.type (safeHost d) d.port =
        (t, ⟨201, "", "", 0, 0⟩) ∧ Grown s t [] [d.replayed] ∧
      t.destinations.map (·.id) = s.destinations.map (·.id) ++ [d.id] := by
  obtain ⟨-, -, hhost⟩ := safeHost_spec hsafe hd
  have hnone := field_destinationText_none d
  have hstated : ∀ key ∈ ["streamid", "path", "ca_file"],
      (field (destinationText d) key).getD [] = [] := by
    intro key hkey
    rw [hnone key (List.mem_append_left ["profile", "segment_duration_ms", "playlist_window",
      "method", "delete_expired"] hkey)]
    rfl
  have hid : ¬(d.id.length > maxPath ∨ env.adds s.application s.name d.id = false) := by
    simp only [henv.adds, Bool.true_eq_false, or_false, not_lt]
    exact hd.id
  have hlong : ¬((safeHost d).length > maxPath ∨ ([] : Str).length > maxPath ∨
      ([] : Str).length > maxPath ∨ ([] : Str).length > maxPath ∨
      env.stores s.application s.name d.id = false) := by
    simp only [henv.stores, Bool.true_eq_false, or_false, List.length_nil, not_or, not_lt]
    exact ⟨hhost, Nat.zero_le _, Nat.zero_le _, Nat.zero_le _⟩
  obtain ⟨settings, profile, hsettings⟩ := destinationSettings_document d
    { id := d.id, type := d.type, host := safeHost d, port := d.port }
  have htype : d.type = destSrt ∨ d.type = destRtmp ∨ d.type = destHlsPush := by
    have hrange := hd.type
    simp only [destSrt, destRtmp, destHlsPush] at hrange ⊢
    omega
  have hstart : destinationStart env s (d.recreated settings profile) = true := by
    simp only [destinationStart, Destination.recreated, htype, henv.starts, decide_true,
      Bool.and_self]
  have hcarried : (d.recreated settings profile).carried = d.replayed := by
    simp only [Destination.recreated, Destination.carried, Destination.replayed, hd.enabled]
  refine ⟨{ touchStream env s with
    destinations := s.destinations ++ [{ d.recreated settings profile with revision := 1 }] }, ?_,
    ⟨env.revision s.revision, [], [{ d.recreated settings profile with revision := 1 }], ?_, rfl,
      ?_⟩, ?_⟩
  · simp only [destinationAdd, hstated "streamid" (by decide), hstated "path" (by decide),
      hstated "ca_file" (by decide), if_neg hroom, if_neg hid, if_neg hlong]
    rw [hsettings]
    exact if_neg fun hfailed => Bool.noConfusion (hstart.symm.trans hfailed)
  · simp only [touchStream, List.append_nil]
  · exact congrArg (· :: []) hcarried
  · rw [List.map_append]
    rfl

theorem applyDestination_destinationText (created : ℕ) {d : Destination} (henv : env.Smooth reg)
    (hd : d.Sound) (hsafe : SafeHost d.host) (hroom : env.destinationRoom ≠ 0)
    (hnew : destinationFind s d.id = none) :
    (d.port = 0 ∧ (applyDestination env s created (destinationText d)).rc = .error) ∨
      (d.port ≠ 0 ∧ (applyDestination env s created (destinationText d)).rc = .ok ∧
        Grown s (applyDestination env s created (destinationText d)).stream [] [d.replayed] ∧
        (applyDestination env s created (destinationText d)).stream.destinations.map (·.id) =
          s.destinations.map (·.id) ++ [d.id]) := by
  obtain ⟨hid, htype, hhost, -⟩ := field_destinationText d
  obtain ⟨-, hhosted, -⟩ := safeHost_spec hsafe hd
  have hnamed : (some d.id).filter (fun id => decide (id ≠ [])) = some d.id := by
    simp [hd.named]
  have hne : ¬d.type = 0 := by
    intro hzero
    have hrange := hd.type
    rw [hzero] at hrange
    exact absurd hrange.1 (by decide)
  have hvalue : destinationCreateValue env s (destinationText d) =
      if d.port = 0 then (s, ⟨400, "bad_port", "", 0, 0⟩)
      else destinationAdd env s (destinationText d) d.id d.type (safeHost d) d.port := by
    simp only [destinationCreateValue, hid, htype, hhost, hd.named, hhosted, hnew,
      destTypeValue_decimal hd.type, hne, portField_destinationText hd, if_false]
    by_cases hzero : d.port = 0
    · simp only [hzero, if_true]
    · simp only [hzero, if_false, Option.isSome_none, Bool.false_eq_true]
  have happly : applyDestination env s created (destinationText d) =
      if (destinationCreateValue env s (destinationText d)).2.status = 201 then
        ⟨(destinationCreateValue env s (destinationText d)).1, created + 1, .ok⟩
      else if (destinationCreateValue env s (destinationText d)).2.status = 200 then
        ⟨(destinationCreateValue env s (destinationText d)).1, created, .ok⟩
      else ⟨(destinationCreateValue env s (destinationText d)).1, created, .error⟩ := by
    simp only [applyDestination, hid, hnamed, hnew, Option.isSome_none, Bool.false_eq_true,
      if_false, henv.owns, Bool.true_eq_false]
  by_cases hzero : d.port = 0
  · rw [if_pos hzero] at hvalue
    rw [happly, hvalue]
    exact Or.inl ⟨hzero, rfl⟩
  · rw [if_neg hzero] at hvalue
    obtain ⟨t, hadd, hgrown, hids⟩ := destinationAdd_ok (s := s) henv hd hsafe hroom
    rw [happly, hvalue, hadd]
    exact Or.inr ⟨hzero, rfl, hgrown, hids⟩

theorem applyDestinations (created : ℕ) (henv : env.Smooth reg) {ds : List Destination}
    (hready : ReadyDestinations env s ds) :
    ((applyAll (applyDestination env) true s created (ds.map destinationText)).rc = .error ∧
        ∃ d ∈ ds, d.port = 0) ∨
      ((applyAll (applyDestination env) true s created (ds.map destinationText)).rc = .ok ∧
        (∀ d ∈ ds, ¬d.port = 0) ∧
        Grown s (applyAll (applyDestination env) true s created (ds.map destinationText)).stream
          [] (ds.map (·.replayed))) := by
  refine applyAll_printed (ReadyDestinations env) (fun d => d.port = 0)
    (fun s ds t => Grown s t [] (ds.map (·.replayed))) Grown.refl ?_ hready
  intro s created d rest h
  have hids := h.ids
  rw [List.map_append, List.map_cons, List.nodup_middle, List.nodup_cons] at hids
  have hnew : destinationFind s d.id = none :=
    destinationFind_fresh fun hmem => hids.1 (List.mem_append_left _ hmem)
  have hroom := h.room (List.cons_ne_nil d rest)
  rcases applyDestination_destinationText created henv (h.sound d List.mem_cons_self)
      (h.safe d List.mem_cons_self) hroom hnew with ⟨hzero, hrc⟩ | ⟨hport, hrc, hgrown, hnext⟩
  · exact Or.inl ⟨hrc, hzero⟩
  · refine Or.inr ⟨hrc, hport, ⟨fun e he => h.sound e (List.mem_cons_of_mem d he),
      fun e he => h.safe e (List.mem_cons_of_mem d he), fun _ => hroom, ?_⟩, fun t ht => ?_⟩
    · have hids := h.ids
      rw [List.map_append, hnext]
      simpa using hids
    · exact hgrown.trans ht

structure Stream.Accepted (s : Stream) : Prop where
  paths : ∀ x ∈ s.sources, ¬x.Pathless
  ports : ∀ d ∈ s.destinations, d.port ≠ 0

theorem desiredChildren_streamText (created : ℕ) (henv : env.Smooth reg) (h : s.Sound transforms)
    (hsafe : ∀ d ∈ s.destinations, SafeHost d.host)
    (hroom : s.destinations ≠ [] → env.destinationRoom ≠ 0) (hnamed : t.Named)
    (hsources : t.sources = []) (hdestinations : t.destinations = []) :
    ((desiredChildren env t created (streamText s)).rc = .error ∧ ¬s.Accepted) ∨
      ((desiredChildren env t created (streamText s)).rc = .ok ∧ s.Accepted ∧
        Grown t (desiredChildren env t created (streamText s)).stream
          (s.sources.map (·.replayed)) (s.destinations.map (·.replayed))) := by
  obtain ⟨sources, harray, hitems, hwhole⟩ := array_sources s
  obtain ⟨destinations, hdarray, hditems, hdwhole⟩ := array_destinations s
  have hready : ReadySources t s.sources :=
    ⟨hnamed, h.sources, by rw [hsources, List.nil_append]; exact h.sourceIds⟩
  have hfirst := applySources created henv hready
  rw [desiredChildren, harray, hdarray]
  simp only [applyArray, hitems, hwhole, hditems, hdwhole]
  generalize applyAll (applySource env) true t created (s.sources.map sourceText) = first at *
  rcases hfirst with ⟨hrc, x, hx, hpathless⟩ | ⟨hrc, hpaths, hgrown⟩
  · have hne : first.rc ≠ .ok := by
      rw [hrc]
      decide
    rw [if_pos hne]
    exact Or.inl ⟨hrc, fun haccepted => haccepted.paths x hx hpathless⟩
  · rw [if_neg (not_not.mpr hrc)]
    have hnone : first.stream.destinations = [] := by
      obtain ⟨_, _, newDestinations, heq, -, hmap⟩ := hgrown
      rw [heq, hdestinations, List.nil_append]
      exact List.map_eq_nil_iff.mp hmap
    have hready' : ReadyDestinations env first.stream s.destinations :=
      ⟨h.destinations, hsafe, hroom, by rw [hnone, List.nil_append]; exact h.destinationIds⟩
    rcases applyDestinations first.created henv hready' with
      ⟨hrc', d, hd, hzero⟩ | ⟨hrc', hports, hgrown'⟩
    · exact Or.inl ⟨hrc', fun haccepted => haccepted.ports d hd hzero⟩
    · refine Or.inr ⟨hrc', ⟨hpaths, hports⟩, ?_⟩
      have hboth := hgrown.trans hgrown'
      rw [List.append_nil, List.nil_append] at hboth
      exact hboth

theorem update_last {u v : Stream} (hkey : v.key = u.key)
    (hnew : u.key ∉ reg.map Stream.key) : update (reg ++ [u]) v = reg ++ [v] := by
  obtain ⟨happlication, hname⟩ := Prod.mk.injEq .. ▸ hkey
  rw [update, List.map_append]
  have hold : reg.map (fun w => if w.name = v.name ∧ w.application = v.application then v else w) =
      reg := by
    refine (List.map_congr_left fun w hw => ?_).trans (List.map_id reg)
    refine if_neg fun hsame => hnew (List.mem_map.mpr ⟨w, hw, ?_⟩)
    rw [← hkey]
    exact Prod.ext hsame.2 hsame.1
  rw [hold, List.map_singleton, if_pos ⟨hname.symm, happlication.symm⟩]

theorem applyStream_streamText (henv : env.Smooth reg) (h : s.Sound transforms)
    (hsafe : ∀ d ∈ s.destinations, SafeHost d.host)
    (hroom : s.destinations ≠ [] → env.destinationRoom ≠ 0) {before : Registry}
    (hnew : s.key ∉ before.map Stream.key) :
    (¬s.Accepted ∧ ∃ reg' created' reply,
        applyStream transforms env before created (streamText s) = (reg', created', some reply) ∧
          reply.status = 400) ∨
      (s.Accepted ∧ ∃ t created',
        applyStream transforms env before created (streamText s) =
          (before ++ [t], created', none) ∧ t.carried = s.replayed) := by
  obtain ⟨happlication, hname, -⟩ := field_streamText s
  have hfind : streamFind before s.application s.name = none := streamFind_fresh hnew
  have hcreate : registryCreate env before s.application s.name =
      some ({ application := s.application, name := s.name },
        before ++ [{ application := s.application, name := s.name }]) := by
    rw [registryCreate, if_neg, hfind, henv.stages]
    · rfl
    · simp only [not_or, not_lt]
      exact ⟨h.application.1, h.application.2, h.name.1, h.name.2⟩
  obtain ⟨revision, hmode⟩ : ∃ revision, (if s.mediaMode ≠ mediaSource then touchStream env
      { application := s.application, name := s.name, mediaMode := s.mediaMode }
      else { application := s.application, name := s.name }) =
        ({ application := s.application, name := s.name, mediaMode := s.mediaMode
           revision } : Stream) := by
    by_cases hsource : s.mediaMode = mediaSource
    · rw [if_neg (not_not.mpr hsource), hsource]
      exact ⟨0, rfl⟩
    · rw [if_pos hsource]
      exact ⟨env.revision 0, rfl⟩
  have hnamed : ¬(s.application = [] ∨ s.name = []) := not_or.mpr ⟨h.application.1, h.name.1⟩
  have hmedia := mediaField_streamText h
  simp only [applyStream, happlication, hname, hnamed, if_false, hmedia, hfind, hcreate,
    Option.getD_some]
  rw [hmode]
  have hchildren := desiredChildren_streamText created henv h hsafe hroom
    (t := { application := s.application, name := s.name, revision, mediaMode := s.mediaMode })
    ⟨h.application, h.name⟩ rfl rfl
  generalize desiredChildren env
    { application := s.application, name := s.name, revision, mediaMode := s.mediaMode } created
    (streamText s) = children at *
  rcases hchildren with ⟨hrc, hrefused⟩ | ⟨hrc, haccepted, hgrown⟩
  · refine Or.inl ⟨hrefused, discard (before ++ [{ application := s.application, name := s.name }])
      s.application s.name, children.created, ⟨400, "child_apply_failed", "", 0, 0⟩, ?_, rfl⟩
    have hdeclined : ¬children.rc = .declined := by
      rw [hrc]
      decide
    have hok : children.rc ≠ .ok := by
      rw [hrc]
      decide
    rw [if_neg hdeclined, if_pos hok]
    rfl
  · refine Or.inr ⟨haccepted, children.stream, children.created, ?_, ?_⟩
    · have hdeclined : ¬children.rc = .declined := by
        rw [hrc]
        decide
      have hkey : children.stream.key = s.key := by
        obtain ⟨_, _, _, heq, -, -⟩ := hgrown
        rw [heq]
        rfl
      have hlast : update (before ++ [{ application := s.application, name := s.name }])
          children.stream = before ++ [children.stream] := update_last hkey hnew
      rw [if_neg hdeclined, if_neg (not_not.mpr hrc), if_neg (by rw [henv.admits]; decide), hlast]
    · obtain ⟨_, sources, destinations, heq, hsources, hdestinations⟩ := hgrown
      rw [heq, Stream.carried, Stream.replayed, ← hsources, ← hdestinations]
      rfl

theorem applyStreams_document (henv : env.Smooth reg) {rest before : Registry}
    (h : ∀ s ∈ rest, s.Sound transforms ∧ (∀ d ∈ s.destinations, SafeHost d.host) ∧
      (s.destinations ≠ [] → env.destinationRoom ≠ 0))
    (hkeys : ((before ++ rest).map Stream.key).Nodup) {applied : ℕ} :
    ((∃ s ∈ rest, ¬s.Accepted) ∧
        (applyStreams transforms env before applied created (rest.map streamText)).2.status =
          400) ∨
      ((∀ s ∈ rest, s.Accepted) ∧
        (applyStreams transforms env before applied created (rest.map streamText)).2.status = 200 ∧
        carried (applyStreams transforms env before applied created (rest.map streamText)).1 =
          carried before ++ rest.map (·.replayed)) := by
  induction rest generalizing before applied created with
  | nil => exact Or.inr ⟨nofun, rfl, (List.append_nil _).symm⟩
  | cons s rest ih =>
    obtain ⟨hsound, hsafe, hroom⟩ := h s List.mem_cons_self
    have hfresh := hkeys
    rw [List.map_append, List.map_cons, List.nodup_middle, List.nodup_cons] at hfresh
    have hnew : s.key ∉ before.map Stream.key :=
      fun hmem => hfresh.1 (List.mem_append_left _ hmem)
    rw [List.map_cons, applyStreams]
    rcases applyStream_streamText henv hsound hsafe hroom hnew with
      ⟨hrefused, reg', created', reply, hstep, hstatus⟩ | ⟨haccepted, t, created', hstep, ht⟩
    · rw [hstep]
      exact Or.inl ⟨⟨s, List.mem_cons_self, hrefused⟩, hstatus⟩
    · rw [hstep]
      have hkey : t.key = s.key := by
        have happlication := congrArg CarriedStream.application ht
        have hname := congrArg CarriedStream.name ht
        exact Prod.ext happlication hname
      have hnext : ((before ++ [t] ++ rest).map Stream.key).Nodup := by
        have hsame : (before ++ [t] ++ rest).map Stream.key =
            (before ++ s :: rest).map Stream.key := by
          simp only [List.map_append, List.map_cons, hkey, List.append_assoc, List.cons_append,
            List.nil_append]
        exact hsame ▸ hkeys
      rcases ih (fun u hu => h u (List.mem_cons_of_mem s hu)) hnext with
        ⟨⟨u, hu, hrefused⟩, hstatus⟩ | ⟨hall, hstatus, hcarried⟩
      · exact Or.inl ⟨⟨u, List.mem_cons_of_mem s hu, hrefused⟩, hstatus⟩
      · refine Or.inr ⟨?_, hstatus, ?_⟩
        · intro u hu
          rcases List.mem_cons.mp hu with rfl | hu
          · exact haccepted
          · exact hall u hu
        · refine hcarried.trans ?_
          simp only [carried, List.map_append, List.map_cons, List.map_nil, ht, List.append_assoc,
            List.cons_append, List.nil_append]

/-- A document that fits a request is accepted unless something in it is refused, and then every
object is there again as a replay makes it. -/
theorem desiredPut_document (h : Built transforms reg) (henv : env.Smooth reg)
    (hsafe : SafeHosts reg) (hlength : (documentText reg).length ≤ maxPayload) :
    ((∃ s ∈ reg, ¬s.Accepted) ∧
        (desiredPut transforms env [] (documentText reg)).2.status = 400) ∨
      ((∀ s ∈ reg, s.Accepted) ∧
        (desiredPut transforms env [] (documentText reg)).2.status = 200 ∧
        carried (desiredPut transforms env [] (documentText reg)).1 = reg.map (·.replayed)) := by
  obtain ⟨streams, harray, hitems, hwhole⟩ := array_streams reg
  have hbounds := desiredBounds_document h hitems hwhole
  have hcapacity := desiredCapacity_document h henv hitems hwhole
  have hroom : ∀ s ∈ reg, s.destinations ≠ [] → env.destinationRoom ≠ 0 := by
    intro s hs hne hzero
    obtain ⟨d, hd⟩ := List.exists_mem_of_ne_nil _ hne
    have hrooms := henv.rooms .destination
    have hpos : 0 < (reg.flatMap (·.destinations)).length :=
      List.length_pos_of_mem (List.mem_flatMap.mpr ⟨s, hs, hd⟩)
    simp only [room, listed, hzero] at hrooms
    omega
  have hput : desiredPut transforms env [] (documentText reg) =
      applyStreams transforms env [] 0 0 (reg.map streamText) := by
    simp only [desiredPut, readBody, if_neg (not_lt.mpr hlength), harray, hbounds,
      Bool.true_eq_false, if_false, hcapacity, hitems]
  have hkeys : (([] ++ reg : Registry).map Stream.key).Nodup := h.keys
  rw [hput]
  exact applyStreams_document henv (fun s hs => ⟨h.streams s hs, hsafe s hs, hroom s hs⟩) hkeys

theorem replayed_eq_carried (h : Built transforms reg) (hsafe : SafeHosts reg) :
    reg.map (·.replayed) = carried reg ↔
      (∀ s ∈ reg, ∀ x ∈ s.sources, x.enabled = true) ∧
        ∀ s ∈ reg, ∀ d ∈ s.destinations, d.host.length < 512 := by
  have hsource : ∀ x : Source, x.replayed = x.carried ↔ x.enabled = true := by
    intro x
    simp only [Source.replayed, Source.carried, CarriedSource.mk.injEq, true_and]
    exact eq_comm
  have hdestination : ∀ s ∈ reg, ∀ d ∈ s.destinations,
      (d.replayed = d.carried ↔ d.host.length < 512) := by
    intro s hs d hd
    rw [← (safeHost_spec (hsafe s hs d hd) ((h.streams s hs).destinations d hd)).1]
    simp only [Destination.replayed, Destination.carried, CarriedDestination.mk.injEq, true_and,
      and_true]
  have hstream : ∀ s : Stream, s.replayed = s.carried ↔
      (∀ x ∈ s.sources, x.replayed = x.carried) ∧
        ∀ d ∈ s.destinations, d.replayed = d.carried := by
    intro s
    simp only [Stream.replayed, Stream.carried, CarriedStream.mk.injEq, true_and,
      List.map_inj_left]
  rw [carried, List.map_inj_left]
  constructor
  · intro hall
    exact ⟨fun s hs x hx => (hsource x).mp (((hstream s).mp (hall s hs)).1 x hx),
      fun s hs d hd => (hdestination s hs d hd).mp (((hstream s).mp (hall s hs)).2 d hd)⟩
  · rintro ⟨henabled, hhosts⟩ s hs
    exact (hstream s).mpr ⟨fun x hx => (hsource x).mpr (henabled s hs x hx),
      fun d hd => (hdestination s hs d hd).mpr (hhosts s hs d hd)⟩

theorem plainHosts (h : Built transforms reg) (hsafe : SafeHosts reg)
    (hhosts : ∀ s ∈ reg, ∀ d ∈ s.destinations, d.host.length < 512) :
    ∀ s ∈ reg, PlainHosts s := fun s hs d hd =>
  (safeHost_spec (hsafe s hs d hd) ((h.streams s hs).destinations d hd)).1.mpr (hhosts s hs d hd)

theorem restored_iff (h : Built transforms reg) (henv : env.Smooth reg) (hsafe : SafeHosts reg) :
    Restored transforms env reg ↔ Replayable reg := by
  constructor
  · rintro ⟨document, hget, hstatus, hcarried⟩
    obtain rfl := desiredGet_some hget
    have hlength : (documentText reg).length ≤ maxPayload := by
      by_contra hlong
      have hput : desiredPut transforms env [] (documentText reg) =
          ([], ⟨400, "body_too_large", "", 0, 0⟩) := by
        simp only [desiredPut, readBody, if_pos (not_le.mp hlong)]
      rw [hput] at hstatus
      cases hstatus
    rcases desiredPut_document h henv hsafe hlength with ⟨-, hbad⟩ | ⟨haccepted, -, hreplayed⟩
    · rw [hstatus] at hbad
      cases hbad
    · obtain ⟨henabled, hhosts⟩ :=
        (replayed_eq_carried h hsafe).mp (hreplayed.symm.trans hcarried)
      refine ⟨?_, henabled, fun s hs => (haccepted s hs).paths, fun s hs => (haccepted s hs).ports,
        hhosts⟩
      rw [← length_documentText (plainHosts h hsafe hhosts)]
      exact hlength
  · intro hreplayable
    have hlength : (documentText reg).length ≤ maxPayload := by
      rw [length_documentText (plainHosts h hsafe hreplayable.hosts)]
      exact hreplayable.length
    refine ⟨documentText reg, desiredGet_of_length hlength, ?_⟩
    rcases desiredPut_document h henv hsafe hlength with
      ⟨⟨s, hs, hrefused⟩, -⟩ | ⟨-, hstatus, hreplayed⟩
    · exact absurd ⟨hreplayable.paths s hs, hreplayable.ports s hs⟩ hrefused
    · exact ⟨hstatus, hreplayed.trans
        ((replayed_eq_carried h hsafe).mpr ⟨hreplayable.enabled, hreplayable.hosts⟩)⟩

/-- Whatever control requests built the graph, its document restores it exactly when the graph is
replayable. -/
theorem run_restored_iff (transforms : Bool) (requests : List (Env × Request)) (env : Env)
    (henv : env.Smooth (run transforms requests)) (hsafe : SafeHosts (run transforms requests)) :
    Restored transforms env (run transforms requests) ↔
      Replayable (run transforms requests) :=
  restored_iff (built_run transforms requests) henv hsafe

/-- An environment in which everything succeeds, with room for eight objects of a kind. -/
def willing : Env where
  owns := fun _ _ => true
  streamRoom := 8
  sourceRoom := 8
  destinationRoom := 8
  stages := fun _ _ => true
  claims := true
  admits := fun _ _ => true
  opens := fun _ _ _ => true
  sends := fun _ _ _ => true
  nonce := true
  derives := true
  keyFree := true
  adds := fun _ _ _ => true
  stores := fun _ _ _ => true
  starts := fun _ _ _ => true
  revision := (· + 1)

theorem willing_smooth (h : ∀ kind, listed reg kind ≤ 8) : willing.Smooth reg where
  owns := fun _ _ => rfl
  stages := fun _ _ => rfl
  admits := fun _ _ => rfl
  opens := fun _ _ _ => rfl
  sends := fun _ _ _ => rfl
  adds := fun _ _ _ => rfl
  stores := fun _ _ _ => rfl
  starts := fun _ _ _ => rfl
  rooms := fun kind => (h kind).trans (by cases kind <;> decide)

def oneOfEach : List (Env × Request) :=
  [(willing, .streamCreate (Value.object [(ascii "application", .string (ascii "live")),
      (ascii "name", .string (ascii "news"))]).text),
    (willing, .sourceCreate (ascii "live") (ascii "news")
      (Value.object [(ascii "id", .string (ascii "studio")), (ascii "type", .string (ascii "file")),
        (ascii "path", .string (ascii "/a.ts"))]).text),
    (willing, .destinationCreate (ascii "live") (ascii "news")
      (Value.object [(ascii "id", .string (ascii "relay")), (ascii "type", .string (ascii "srt")),
        (ascii "host", .string (ascii "cdn")), (ascii "port", .string (ascii "9000"))]).text)]

theorem run_oneOfEach : run false oneOfEach =
    [{ application := ascii "live", name := ascii "news", revision := 3
       sources := [{ id := ascii "studio", type := 3, priority := 0, path := ascii "/a.ts"
                     revision := 1 }]
       destinations := [{ id := ascii "relay", type := 1, host := ascii "cdn", port := 9000
                          revision := 1 }] }] := by
  decide +kernel

theorem oneOfEach_spec :
    willing.Smooth (run false oneOfEach) ∧ SafeHosts (run false oneOfEach) := by
  rw [run_oneOfEach]
  refine ⟨willing_smooth fun kind => by cases kind <;> decide, ?_⟩
  simp only [SafeHosts, List.forall_mem_singleton]
  exact ⟨by decide, by decide⟩

theorem oneOfEach_restored_iff : Restored false willing (run false oneOfEach) ↔
    Replayable (run false oneOfEach) :=
  run_restored_iff false oneOfEach willing oneOfEach_spec.1 oneOfEach_spec.2

/-- A source that is switched off is listed as such and comes back switched on. -/
theorem disabled_not_restored :
    let requests := oneOfEach ++
      [(willing, .sourceSetEnabled (ascii "live") (ascii "news") (ascii "studio") false)]
    willing.Smooth (run false requests) ∧ SafeHosts (run false requests) ∧
      ¬Restored false willing (run false requests) := by
  intro requests
  have hrun : run false requests =
      [{ application := ascii "live", name := ascii "news", revision := 4
         sources := [{ id := ascii "studio", type := 3, priority := 0, path := ascii "/a.ts"
                       enabled := false, revision := 2 }]
         destinations := [{ id := ascii "relay", type := 1, host := ascii "cdn", port := 9000
                            revision := 1 }] }] := by
    decide +kernel
  have hbuilt := built_run false requests
  have hsmooth : willing.Smooth (run false requests) := by
    rw [hrun]
    exact willing_smooth fun kind => by cases kind <;> decide
  have hsafe : SafeHosts (run false requests) := by
    rw [hrun]
    simp only [SafeHosts, List.forall_mem_singleton]
    exact ⟨by decide, by decide⟩
  refine ⟨hsmooth, hsafe, fun hrestored => ?_⟩
  have henabled := ((restored_iff hbuilt hsmooth hsafe).mp hrestored).enabled
  rw [hrun] at henabled
  exact absurd (henabled _ List.mem_cons_self _ List.mem_cons_self) (by decide)

end DesiredGraph
