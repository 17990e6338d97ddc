import NginxMedia.DesiredDocument
import Mathlib.Data.List.Nodup

/-! What every graph is like that control requests build: names, paths and numbers within their
bounds, streams and their children told apart by name. -/
namespace DesiredGraph

open ByteString ApiJson
open SourceRequests (sourceType mediaMode atoi typeSrt typeHlsPush)
open MediaGraph (maxName maxPath mediaSource mediaProfile)

variable {transforms : Bool} {env : Env} {reg made : Registry} {s s' : Stream}
variable {application name id path caFile body host : Str} {type priority port created : ℕ}

structure Source.Sound (x : Source) : Prop where
  named : x.id ≠ []
  id : x.id.length ≤ maxName
  type : typeSrt ≤ x.type ∧ x.type ≤ typeHlsPush
  priority : x.priority ≤ uint32Max
  path : x.path.length ≤ maxPath
  caFile : x.caFile.length ≤ maxPath

structure Destination.Sound (d : Destination) : Prop where
  named : d.id ≠ []
  id : d.id.length ≤ maxPath
  type : destSrt ≤ d.type ∧ d.type ≤ destHlsPush
  hosted : d.host ≠ []
  host : d.host.length ≤ maxPath
  port : d.port ≤ 65535
  enabled : d.enabled = true

structure Stream.Sound (transforms : Bool) (s : Stream) : Prop where
  application : s.application ≠ [] ∧ s.application.length ≤ maxName
  name : s.name ≠ [] ∧ s.name.length ≤ maxName
  media : s.mediaMode = mediaSource ∨ s.mediaMode = mediaProfile ∧ transforms = true
  sources : ∀ x ∈ s.sources, x.Sound
  sourceIds : (s.sources.map (·.id)).Nodup
  destinations : ∀ d ∈ s.destinations, d.Sound
  destinationIds : (s.destinations.map (·.id)).Nodup

def Stream.key (s : Stream) : Str × Str := (s.application, s.name)

structure Built (transforms : Bool) (reg : Registry) : Prop where
  streams : ∀ s ∈ reg, s.Sound transforms
  keys : (reg.map Stream.key).Nodup

structure Follows (transforms : Bool) (s s' : Stream) : Prop where
  key : s'.key = s.key
  sound : s.Sound transforms → s'.Sound transforms

theorem Follows.refl (s : Stream) : Follows transforms s s := ⟨rfl, id⟩

theorem Follows.trans {s t u : Stream} (h : Follows transforms s t) (h' : Follows transforms t u) :
    Follows transforms s u :=
  ⟨h'.key.trans h.key, fun hs => h'.sound (h.sound hs)⟩

theorem streamFind_some (h : streamFind reg application name = some s) :
    s ∈ reg ∧ s.key = (application, name) := by
  refine ⟨List.mem_of_find?_eq_some h, ?_⟩
  obtain ⟨hname, happlication⟩ : s.name = name ∧ s.application = application := by
    simpa using List.find?_some h
  rw [Stream.key, hname, happlication]

theorem streamFind_none (h : streamFind reg application name = none) :
    (application, name) ∉ reg.map Stream.key := by
  rintro hmem
  obtain ⟨s, hs, hkey⟩ := List.mem_map.mp hmem
  obtain ⟨happlication, hname⟩ := Prod.mk.injEq .. ▸ hkey
  exact of_decide_eq_false (Bool.eq_false_iff.mpr (List.find?_eq_none.mp h s hs))
    ⟨hname, happlication⟩

theorem sourceFind_some {x : Source} (h : sourceFind s id = some x) : x ∈ s.sources ∧ x.id = id :=
  ⟨List.mem_of_find?_eq_some h, by simpa using List.find?_some h⟩

theorem sourceFind_none (h : sourceFind s id = none) : id ∉ s.sources.map (·.id) := by
  rintro hmem
  obtain ⟨x, hx, rfl⟩ := List.mem_map.mp hmem
  exact List.find?_eq_none.mp h x hx (decide_eq_true rfl)

theorem destinationFind_none (h : destinationFind s id = none) :
    id ∉ s.destinations.map (·.id) := by
  rintro hmem
  obtain ⟨d, hd, rfl⟩ := List.mem_map.mp hmem
  exact List.find?_eq_none.mp h d hd (decide_eq_true rfl)

theorem follows_touch (env : Env) (s : Stream) : Follows transforms s (touchStream env s) :=
  ⟨rfl, fun h => ⟨h.1, h.2, h.3, h.4, h.5, h.6, h.7⟩⟩

theorem follows_media {mode : ℕ} (hmode : mode = mediaSource ∨ mode = mediaProfile ∧
    transforms = true) : Follows transforms s { s with mediaMode := mode } :=
  ⟨rfl, fun h => ⟨h.1, h.2, hmode, h.4, h.5, h.6, h.7⟩⟩

theorem follows_setSource {x : Source} (hx : s.Sound transforms → x.Sound) :
    Follows transforms s (setSource s x) := by
  refine ⟨rfl, fun h => ⟨h.application, h.name, h.media, ?_, ?_, h.destinations,
    h.destinationIds⟩⟩
  · intro y hy
    obtain ⟨z, hz, rfl⟩ := List.mem_map.mp hy
    split
    · exact hx h
    · exact h.sources z hz
  · have hids : (s.sources.map fun y => if y.id = x.id then x else y).map (·.id) =
        s.sources.map (·.id) := by
      rw [List.map_map]
      refine List.map_congr_left fun y _ => ?_
      simp only [Function.comp_apply]
      split
      · rename_i heq
        exact heq.symm
      · rfl
    exact hids ▸ h.sourceIds

theorem follows_addSource {x : Source} (hx : x.Sound) (hnew : sourceFind s x.id = none) :
    Follows transforms s { s with sources := s.sources ++ [x] } := by
  refine ⟨rfl, fun h => ⟨h.application, h.name, h.media, ?_, ?_, h.destinations,
    h.destinationIds⟩⟩
  · intro y hy
    rcases List.mem_append.mp hy with hy | hy
    · exact h.sources y hy
    · exact List.mem_singleton.mp hy ▸ hx
  · rw [List.map_append, List.map_singleton, ← List.concat_eq_append]
    exact List.Nodup.concat (sourceFind_none hnew) h.sourceIds

theorem follows_dropSource (id : Str) :
    Follows transforms s { s with sources := s.sources.filter fun x => decide (x.id ≠ id) } :=
  ⟨rfl, fun h => ⟨h.application, h.name, h.media,
    fun x hx => h.sources x (List.mem_filter.mp hx).1,
    h.sourceIds.sublist (List.filter_sublist.map _), h.destinations, h.destinationIds⟩⟩

theorem follows_addDestination {d : Destination} (hd : d.Sound)
    (hnew : destinationFind s d.id = none) :
    Follows transforms s { s with destinations := s.destinations ++ [d] } := by
  refine ⟨rfl, fun h => ⟨h.application, h.name, h.media, h.sources, h.sourceIds, ?_, ?_⟩⟩
  · intro e he
    rcases List.mem_append.mp he with he | he
    · exact h.destinations e he
    · exact List.mem_singleton.mp he ▸ hd
  · rw [List.map_append, List.map_singleton, ← List.concat_eq_append]
    exact List.Nodup.concat (destinationFind_none hnew) h.destinationIds

theorem follows_dropDestination (id : Str) : Follows transforms s
    { s with destinations := s.destinations.filter fun d => decide (d.id ≠ id) } :=
  ⟨rfl, fun h => ⟨h.application, h.name, h.media, h.sources, h.sourceIds,
    fun d hd => h.destinations d (List.mem_filter.mp hd).1,
    h.destinationIds.sublist (List.filter_sublist.map _)⟩⟩

theorem Built.update (h : Built transforms reg) (hs : s ∈ reg) (hnext : Follows transforms s s') :
    Built transforms (update reg s') := by
  refine ⟨?_, ?_⟩
  · intro u hu
    obtain ⟨v, hv, rfl⟩ := List.mem_map.mp hu
    split
    · exact hnext.sound (h.streams s hs)
    · exact h.streams v hv
  · have hkeys : (DesiredGraph.update reg s').map Stream.key = reg.map Stream.key := by
      rw [DesiredGraph.update, List.map_map]
      refine List.map_congr_left fun v _ => ?_
      simp only [Function.comp_apply]
      split
      · rename_i heq
        rw [Stream.key, Stream.key, heq.1, heq.2]
      · rfl
    exact hkeys ▸ h.keys

theorem Built.discard (h : Built transforms reg) (application name : Str) :
    Built transforms (discard reg application name) :=
  ⟨fun s hs => h.streams s (List.mem_filter.mp hs).1,
    h.keys.sublist (List.filter_sublist.map _)⟩

theorem registryCreate_cases
    (h : registryCreate env reg application name = some (s, made)) :
    (application ≠ [] ∧ application.length ≤ maxName) ∧ (name ≠ [] ∧ name.length ≤ maxName) ∧
      (streamFind reg application name = some s ∧ made = reg ∨
        streamFind reg application name = none ∧ s = { application, name } ∧
          made = reg ++ [s]) := by
  rw [registryCreate] at h
  split at h
  · cases h
  rename_i hnames
  simp only [not_or, not_lt] at hnames
  refine ⟨⟨hnames.1, hnames.2.1⟩, hnames.2.2, ?_⟩
  split at h
  · rename_i found hfound
    cases h
    exact Or.inl ⟨hfound, rfl⟩
  · rename_i hfound
    split at h
    · cases h
    · cases h
      exact Or.inr ⟨hfound, rfl, rfl⟩

theorem sound_new (happlication : application ≠ [] ∧ application.length ≤ maxName)
    (hname : name ≠ [] ∧ name.length ≤ maxName) :
    Stream.Sound transforms { application, name } :=
  ⟨happlication, hname, Or.inl rfl, nofun, List.nodup_nil, nofun, List.nodup_nil⟩

theorem Built.registryCreate (h : Built transforms reg)
    (hmade : registryCreate env reg application name = some (s, made)) :
    Built transforms made ∧ s ∈ made ∧ s.key = (application, name) := by
  obtain ⟨happlication, hname, ⟨hfound, rfl⟩ | ⟨hfound, rfl, rfl⟩⟩ := registryCreate_cases hmade
  · exact ⟨h, streamFind_some hfound⟩
  · refine ⟨⟨?_, ?_⟩, List.mem_append_right _ List.mem_cons_self, rfl⟩
    · intro t ht
      rcases List.mem_append.mp ht with ht | ht
      · exact h.streams t ht
      · exact List.mem_singleton.mp ht ▸ sound_new happlication hname
    · rw [List.map_append, List.map_singleton, ← List.concat_eq_append]
      exact List.Nodup.concat (streamFind_none hfound) h.keys

theorem sourceType_le (text : Str) : sourceType text ≤ typeHlsPush := by
  unfold sourceType
  split_ifs <;> decide

theorem sourceTypeValue_le (text : Str) : sourceTypeValue text ≤ typeHlsPush := by
  unfold sourceTypeValue
  split
  · exact sourceType_le text
  · split
    · split
      · rename_i h
        exact h.2
      · exact Nat.zero_le _
    · exact Nat.zero_le _

theorem typeField_range {typeOf : Str → ℕ} (hle : ∀ text, typeOf text ≤ typeHlsPush)
    (h : typeField typeOf body = some type) : typeSrt ≤ type ∧ type ≤ typeHlsPush := by
  unfold typeField at h
  split at h
  · cases h
    decide
  · rename_i text _
    split at h
    · cases h
    · rename_i hne
      cases h
      exact ⟨Nat.one_le_iff_ne_zero.mpr hne, hle text⟩

theorem portField_le (h : portField body type = .ok port) : port ≤ 65535 := by
  unfold portField at h
  split at h
  · split at h
    · rename_i text _ port' hport
      cases h
      obtain ⟨-, hrange⟩ := Option.filter_eq_some_iff.mp hport
      exact (of_decide_eq_true hrange).2
    · cases h
  · split at h
    · cases h
      exact Nat.zero_le _
    · cases h

theorem mediaField_allowed {mode : ℕ} (h : mediaField transforms body = .ok (some mode)) :
    mode = mediaSource ∨ mode = mediaProfile ∧ transforms = true := by
  unfold mediaField at h
  split at h
  · cases h
  · split at h
    · cases h
    · rename_i hmode
      split at h
      · cases h
      · rename_i hallowed
        cases h
        unfold mediaMode at hmode
        split at hmode
        · cases hmode
          exact Or.inl rfl
        · split at hmode
          · cases hmode
            refine Or.inr ⟨rfl, ?_⟩
            simpa using hallowed
          · cases hmode

theorem follows_mode {mode : Option ℕ} (h : mediaField transforms body = .ok mode) :
    Follows transforms s { s with mediaMode := mode.getD s.mediaMode } := by
  cases mode with
  | none => exact Follows.refl s
  | some mode => exact follows_media (mediaField_allowed h)

theorem sourceOpen_spec {x : Source} (htype : typeSrt ≤ type ∧ type ≤ typeHlsPush)
    (h : sourceOpen env s id type priority path caFile = some x) :
    x.id = id ∧ x.Sound ∧ sourceFind s id = none := by
  unfold sourceOpen at h
  split at h
  · cases h
  rename_i hbounds
  simp only [not_or, not_lt] at hbounds
  split at h
  · cases h
  rename_i hnew
  split at h
  · cases h
  cases h
  exact ⟨rfl, ⟨hbounds.1, hbounds.2.1, htype, hbounds.2.2.1, Nat.zero_le _, Nat.zero_le _⟩,
    Option.not_isSome_iff_eq_none.mp hnew⟩

theorem graphSourceSet_spec {x y : Source} {path caFile : Option Str}
    (h : graphSourceSet env s x path caFile = some y) :
    y.id = x.id ∧ (x.Sound → y.Sound) ∧ y = { x with
      path := path.getD x.path, caFile := caFile.getD x.caFile } := by
  unfold graphSourceSet at h
  split at h
  · cases h
  rename_i hbounds
  simp only [not_or, not_lt] at hbounds
  split at h
  · cases h
  cases h
  refine ⟨rfl, fun hx => ⟨hx.named, hx.id, hx.type, hx.priority, ?_, ?_⟩, rfl⟩
  · cases path with
    | none => exact hx.path
    | some path => exact hbounds.2.2.2.2.2.2.2.1
  · cases caFile with
    | none => exact hx.caFile
    | some caFile => exact hbounds.2.2.2.2.2.2.2.2

theorem Source.Sound.touch {x : Source} (h : x.Sound) (env : Env) : (touchSource env x).Sound :=
  ⟨h.1, h.2, h.3, h.4, h.5, h.6⟩

theorem follows_opened {x y : Source} {paths caFiles : Option Str}
    (htype : typeSrt ≤ type ∧ type ≤ typeHlsPush)
    (hopen : sourceOpen env s id type priority path caFile = some x)
    (hset : graphSourceSet env s (touchSource env x) paths caFiles = some y) :
    Follows transforms s { s with sources := s.sources ++ [y] } := by
  obtain ⟨hid, hx, hnew⟩ := sourceOpen_spec htype hopen
  obtain ⟨hyid, hy, -⟩ := graphSourceSet_spec hset
  have hfind : sourceFind s y.id = none := by rw [hyid, touchSource, hid, hnew]
  exact follows_addSource (hy (hx.touch env)) hfind

theorem follows_sourceAdd (htype : typeSrt ≤ type ∧ type ≤ typeHlsPush) :
    Follows transforms s (sourceAdd env s body id type priority).1 := by
  unfold sourceAdd
  split
  · exact Follows.refl s
  split
  · exact Follows.refl s
  split
  · exact Follows.refl s
  split
  · exact Follows.refl s
  split
  · split <;> exact Follows.refl s
  rename_i x hopen
  split
  · exact Follows.refl s
  · rename_i y hset
    exact (follows_opened htype hopen hset).trans (follows_touch env _)

theorem follows_sourceCreate (content : Str) :
    Follows transforms s (sourceCreate env s content).1 := by
  unfold sourceCreate
  split
  · exact Follows.refl s
  split
  · exact Follows.refl s
  split
  · exact Follows.refl s
  split
  · exact Follows.refl s
  split
  · exact Follows.refl s
  rename_i type htype
  split
  · exact Follows.refl s
  split
  · exact Follows.refl s
  · exact follows_sourceAdd (typeField_range sourceType_le htype)

theorem follows_sourceDelete (id : Str) : Follows transforms s (sourceDelete env s id).1 := by
  unfold sourceDelete
  split
  · exact Follows.refl s
  split
  · exact Follows.refl s
  · exact (follows_dropSource id).trans (follows_touch env _)

theorem follows_sourceSetEnabled (id : Str) (enabled : Bool) :
    Follows transforms s (sourceSetEnabled env s id enabled).1 := by
  unfold sourceSetEnabled
  split
  · exact Follows.refl s
  rename_i x hfind
  split
  · exact Follows.refl s
  · rename_i y hset
    obtain ⟨-, hy, -⟩ := graphSourceSet_spec hset
    refine (follows_touch env s).trans (follows_setSource fun hs => hy ?_)
    have hx := hs.sources x (sourceFind_some hfind).1
    exact ⟨hx.1, hx.2, hx.3, hx.4, hx.5, hx.6⟩

theorem destinationSettings_spec {d d' : Destination} {input : Str}
    (h : destinationSettings d input = .ok d') :
    ∃ settings profile, d' = { d with settings, profile } := by
  unfold destinationSettings at h
  split at h
  · cases h
    exact ⟨d.settings, d.profile, rfl⟩
  · simp only at h
    split at h
    · cases h
    · split at h
      · cases h
      · cases h
        exact ⟨_, _, rfl⟩

theorem destinationStart_type {d : Destination} (h : destinationStart env s d = true) :
    (destSrt ≤ d.type ∧ d.type ≤ destHlsPush) ∧ d.enabled = true := by
  simp only [destinationStart, Bool.and_eq_true, decide_eq_true_eq] at h
  refine ⟨?_, h.1.2⟩
  rcases h.1.1 with h | h | h <;> rw [h] <;> decide

theorem follows_destinationAdd {input : Str} (hid : id ≠ []) (hhost : host ≠ [])
    (hport : port ≤ 65535) (hnew : destinationFind s id = none) :
    Follows transforms s (destinationAdd env s input id type host port).1 := by
  unfold destinationAdd
  simp only
  split
  · exact Follows.refl s
  split
  · exact Follows.refl s
  rename_i hidLe
  split
  · exact Follows.refl s
  rename_i hbounds
  simp only [not_or, not_lt] at hidLe hbounds
  split
  · split
    · exact (follows_touch env s).trans (follows_touch env _)
    · exact Follows.refl s
  · rename_i d hsettings
    split
    · exact Follows.refl s
    · rename_i hstart
      obtain ⟨settings, profile, rfl⟩ := destinationSettings_spec hsettings
      obtain ⟨htype, henabled⟩ := destinationStart_type (Bool.not_eq_false _ ▸ hstart)
      refine (follows_addDestination ?_ ?_).trans (follows_touch env _)
      · exact ⟨hid, hidLe.1, htype, hhost, hbounds.1, hport, henabled⟩
      · exact hnew

theorem follows_destinationCreateValue (input : Str) :
    Follows transforms s (destinationCreateValue env s input).1 := by
  unfold destinationCreateValue
  split
  · exact Follows.refl s
  split
  · exact Follows.refl s
  rename_i hid
  split
  · exact Follows.refl s
  split
  · exact Follows.refl s
  split
  · exact Follows.refl s
  split
  · exact Follows.refl s
  rename_i hhost
  split
  · exact Follows.refl s
  rename_i hport
  split
  · exact Follows.refl s
  · rename_i hnew
    exact follows_destinationAdd hid hhost (portField_le hport)
      (Option.not_isSome_iff_eq_none.mp hnew)

theorem follows_destinationCreate (content : Str) :
    Follows transforms s (destinationCreate env s content).1 := by
  unfold destinationCreate
  split
  · exact Follows.refl s
  · exact follows_destinationCreateValue _

theorem follows_destinationDelete (id : Str) :
    Follows transforms s (destinationDelete env s id).1 := by
  unfold destinationDelete
  split
  · exact Follows.refl s
  · exact (follows_dropDestination id).trans (follows_touch env _)

theorem follows_owned {f : Stream → Stream × Reply} (h : Follows transforms s (f s).1) :
    Follows transforms s (owned env f s).1 := by
  unfold owned
  split
  · exact Follows.refl s
  · exact h

theorem built_streamOpen {mode : Option ℕ} (h : Built transforms reg)
    (hmode : mediaField transforms body = .ok mode) :
    Built transforms (streamOpen env reg application name mode).1 := by
  unfold streamOpen
  simp only
  split
  · exact h
  split
  · exact h
  rename_i s made hmade
  obtain ⟨hmadeBuilt, hs, -⟩ := h.registryCreate hmade
  split
  · exact h
  split
  · exact h
  refine hmadeBuilt.update hs ((follows_mode hmode).trans ?_)
  split
  · exact follows_touch env _
  · exact Follows.refl _

theorem built_streamCreate (h : Built transforms reg) (content : Str) :
    Built transforms (streamCreate transforms env reg content).1 := by
  unfold streamCreate
  split
  · exact h
  split
  · split
    · exact h
    split
    · exact h
    split
    · exact h
    · rename_i hmode
      exact built_streamOpen h hmode
  · exact h

theorem built_streamDelete (h : Built transforms reg) (revision : Option Str) :
    Built transforms (streamDelete env reg application name revision).1 := by
  unfold streamDelete
  split
  · split <;> exact h
  split
  · split
    · exact h
    split
    · exact h
    · exact h.discard application name
  · split
    · exact h
    · exact h.discard application name

theorem built_patched (h : Built transforms reg) (hs : s ∈ reg) :
    Built transforms (streamPatch.patched transforms env reg application name s body).1 := by
  unfold streamPatch.patched
  split
  · exact h
  rename_i hmode
  split
  · exact h
  split
  · exact h
  simp only
  split
  · exact h
  refine h.update hs ?_
  split
  · refine Follows.trans ?_ (follows_touch env _)
    have hmedia := follows_mode (s := s) hmode
    exact ⟨rfl, fun hs => ⟨hs.1, hs.2, (hmedia.sound hs).3, hs.4, hs.5, hs.6, hs.7⟩⟩
  · exact Follows.refl s

theorem built_streamPatch (h : Built transforms reg) (content : Str) :
    Built transforms (streamPatch transforms env reg application name content).1 := by
  unfold streamPatch
  split
  · exact h
  rename_i s hfind
  have hs := (streamFind_some hfind).1
  split
  · exact h
  split
  · split
    · exact h
    · exact built_patched h hs
  · exact built_patched h hs

theorem built_onStream {f : Stream → Stream × Reply} (h : Built transforms reg)
    (hf : ∀ s, Follows transforms s (f s).1) :
    Built transforms (onStream reg application name f).1 := by
  unfold onStream
  split
  · exact h
  split
  · exact h
  · rename_i s hfind
    exact h.update (streamFind_some hfind).1 (hf s)

theorem follows_applySource (child : Str) :
    Follows transforms s (applySource env s created child).stream := by
  unfold applySource
  split
  · exact Follows.refl s
  split
  · exact Follows.refl s
  rename_i type htype
  simp only
  split
  · exact Follows.refl s
  split
  · exact Follows.refl s
  split
  · rename_i x hfind
    split
    · split
      · exact Follows.refl s
      · rename_i y hset
        obtain ⟨-, hy, -⟩ := graphSourceSet_spec hset
        exact follows_setSource fun hs => hy (hs.sources x (sourceFind_some hfind).1)
    · exact Follows.refl s
  · split
    · exact Follows.refl s
    rename_i x hopen
    split
    · exact Follows.refl s
    · rename_i y hset
      exact follows_opened (typeField_range sourceTypeValue_le htype) hopen hset

theorem follows_applyDestination (child : Str) :
    Follows transforms s (applyDestination env s created child).stream := by
  unfold applyDestination
  split
  · exact Follows.refl s
  split
  · exact Follows.refl s
  split
  · exact Follows.refl s
  simp only
  split
  · exact follows_destinationCreateValue child
  · split <;> exact follows_destinationCreateValue child

theorem follows_applyAll {apply : Stream → ℕ → Str → Applied} {complete : Bool}
    (happly : ∀ s created child, Follows transforms s (apply s created child).stream)
    (children : List Str) :
    Follows transforms s (applyAll apply complete s created children).stream := by
  induction children generalizing s created with
  | nil => exact Follows.refl s
  | cons child rest ih =>
    rw [applyAll]
    split
    · exact (happly s created child).trans ih
    · exact happly s created child

theorem follows_applyArray {apply : Stream → ℕ → Str → Applied}
    (happly : ∀ s created child, Follows transforms s (apply s created child).stream)
    (array : Option Str) : Follows transforms s (applyArray apply s created array).stream := by
  cases array with
  | none => exact Follows.refl s
  | some array => exact follows_applyAll happly (items array)

theorem follows_desiredChildren (item : Str) :
    Follows transforms s (desiredChildren env s created item).stream := by
  have hsources : Follows transforms s
      (applyArray (applySource env) s created (jsonArray item (ascii "sources"))).stream :=
    follows_applyArray (fun _ _ child => follows_applySource child) _
  unfold desiredChildren
  simp only
  split
  · exact hsources
  · exact hsources.trans
      (follows_applyArray (fun _ _ child => follows_applyDestination child) _)

theorem built_applyStream (h : Built transforms reg) (item : Str) :
    Built transforms (applyStream transforms env reg created item).1 := by
  unfold applyStream
  split
  · split
    · exact h
    split
    · exact h
    rename_i mode hmode
    simp only
    split
    · exact h
    rename_i s made hmade
    obtain ⟨hmadeBuilt, hs, -⟩ := h.registryCreate hmade
    have hnext : ∀ t : Stream, Follows transforms s t →
        Built transforms (update made (desiredChildren env t created item).stream) :=
      fun t ht => hmadeBuilt.update hs (ht.trans (follows_desiredChildren item))
    have hmedia : Follows transforms s
        (if mode.getD s.mediaMode ≠ s.mediaMode then
          touchStream env { s with mediaMode := mode.getD s.mediaMode } else s) := by
      split
      · exact (follows_mode hmode).trans (follows_touch env _)
      · exact Follows.refl s
    revert hmedia
    generalize (if mode.getD s.mediaMode ≠ s.mediaMode then
      touchStream env { s with mediaMode := mode.getD s.mediaMode } else s) = t
    intro hmedia
    split
    · exact hnext _ hmedia
    split
    · split
      · exact hnext _ hmedia
      · exact hmadeBuilt.discard _ _
    split
    · split
      · exact hnext _ hmedia
      · exact hmadeBuilt.discard _ _
    · exact hnext _ hmedia
  · exact h

theorem built_applyStreams (h : Built transforms reg) {applied : ℕ} (items : List Str) :
    Built transforms (applyStreams transforms env reg applied created items).1 := by
  induction items generalizing reg applied created with
  | nil => exact h
  | cons item rest ih =>
    rw [applyStreams]
    have hstep : Built transforms (applyStream transforms env reg created item).1 :=
      built_applyStream h item
    split
    · rename_i heq
      rw [heq] at hstep
      exact hstep
    · rename_i heq
      rw [heq] at hstep
      exact ih hstep

theorem built_desiredPut (h : Built transforms reg) (content : Str) :
    Built transforms (desiredPut transforms env reg content).1 := by
  unfold desiredPut
  split
  · exact h
  split
  · exact h
  split
  · exact h
  split
  · exact built_applyStreams h _
  · exact h
  · exact h

theorem built_serve (h : Built transforms reg) (request : Request) :
    Built transforms (serve transforms env reg request).1 := by
  cases request with
  | streamCreate content => exact built_streamCreate h content
  | streamPatch application name content => exact built_streamPatch h content
  | streamDelete application name revision => exact built_streamDelete h revision
  | sourceCreate application name content =>
    exact built_onStream h fun s => follows_sourceCreate content
  | sourceDelete application name id => exact built_onStream h fun s => follows_sourceDelete id
  | sourceSetEnabled application name id enabled =>
    exact built_onStream h fun s => follows_sourceSetEnabled id enabled
  | destinationCreate application name content =>
    exact built_onStream h fun s => follows_owned (follows_destinationCreate content)
  | destinationDelete application name id =>
    exact built_onStream h fun s => follows_owned (follows_destinationDelete id)
  | desiredPut content => exact built_desiredPut h content
  | traffic application name fanout =>
    exact built_onStream h fun s => ⟨rfl, fun hs => ⟨hs.1, hs.2, hs.3, hs.4, hs.5, hs.6, hs.7⟩⟩

theorem built_run (transforms : Bool) (requests : List (Env × Request)) :
    Built transforms (run transforms requests) := by
  have hempty : Built transforms [] := ⟨fun _ h => absurd h List.not_mem_nil, List.nodup_nil⟩
  have hstep : ∀ (reg : Registry) (request : Env × Request), Built transforms reg →
      Built transforms (serve transforms request.1 reg request.2).1 :=
    fun _ request h => built_serve h request.2
  exact StepRun.invariant hstep hempty requests

end DesiredGraph
