import NginxMedia.ApiJsonWalk
import NginxMedia.DesiredBuilt
import Mathlib.Data.List.Dedup

/-! What a replay reads from the document of a graph: each field comes back as it was printed, and
the checks before the replay let the whole document pass. -/
namespace DesiredGraph

open ByteString ApiJson
open SourceRequests (sourceType sameText mediaMode atoi typeSrt typeHlsPush)
open MediaGraph (maxName maxPath mediaSource mediaProfile)

variable {transforms : Bool} {env : Env} {reg : Registry} {s : Stream}

def listed (reg : Registry) : Kind → ℕ
  | .stream => reg.length
  | .source => (reg.flatMap (·.sources)).length
  | .destination => (reg.flatMap (·.destinations)).length

/-- The graph fits into what the model has left, and nothing that is tried with it fails. -/
structure Env.Smooth (env : Env) (reg : Registry) : Prop where
  owns : ∀ application name, env.owns application name = true
  stages : ∀ application name, env.stages application name = true
  admits : ∀ application name, env.admits application name = true
  opens : ∀ application name id, env.opens application name id = true
  sends : ∀ application name id, env.sends application name id = true
  adds : ∀ application name id, env.adds application name id = true
  stores : ∀ application name id, env.stores application name id = true
  starts : ∀ application name id, env.starts application name id = true
  rooms : ∀ kind, listed reg kind ≤ room env kind

def shown : Value → Str
  | .string text => text
  | v => v.text

theorem field_object (key : String) {ms : List (Str × Value)} (hkey : (ascii key).length < 64)
    (hms : ∀ m ∈ ms, m.1.length ≤ 64) :
    field (Value.object ms).text key = (ms.lookup (ascii key)).map shown := by
  rw [field, jsonField_object true hkey hms]
  cases ms.lookup (ascii key) with
  | none => rfl
  | some v => cases v <;> rfl

theorem atoi_decimal {n : ℕ} (hn : n ≤ 2 ^ 63 - 1) : atoi (decimal n) = some n := by
  have hdigits : ∀ c ∈ decimal n, 48 ≤ c ∧ c ≤ 57 := by
    intro c hc
    obtain ⟨d, hd, rfl⟩ := mem_decimal hc
    have hten : ∀ d < 10, (48 : UInt8) ≤ UInt8.ofNat (48 + d) ∧ UInt8.ofNat (48 + d) ≤ 57 := by
      decide +kernel
    exact hten d hd
  have hall : (decimal n).all (fun c => decide (48 ≤ c ∧ c ≤ 57)) = true :=
    List.all_eq_true.mpr fun c hc => decide_eq_true (hdigits c hc)
  rw [atoi, decimalValue_decimal, if_neg]
  rintro (hnil | hall' | hbig)
  · exact decimal_ne_nil n hnil
  · exact hall' hall
  · omega

theorem decimal_digit {n : ℕ} (hpos : 0 < n) (hn : n < 10) :
    decimal n = [UInt8.ofNat (48 + n)] := by
  rw [decimal, if_neg (by omega), Nat.digits_of_lt 10 n (by omega) hn]
  rfl

theorem sourceTypeValue_decimal {n : ℕ} (h : typeSrt ≤ n ∧ n ≤ typeHlsPush) :
    sourceTypeValue (decimal n) = n := by
  have hword : ∀ n < 6, sourceType [UInt8.ofNat (48 + n)] = 0 := by decide
  have hsix : n < 6 := Nat.lt_succ_of_le h.2
  have hatoi := atoi_decimal (n := n) (by omega)
  rw [decimal_digit h.1 (by omega)] at hatoi ⊢
  simp only [sourceTypeValue, hword n hsix, hatoi, ne_eq, not_true_eq_false, if_false, h.1, h.2,
    and_self, if_true]

theorem destTypeValue_decimal {n : ℕ} (h : destSrt ≤ n ∧ n ≤ destHlsPush) :
    destTypeValue (decimal n) = n := by
  have hword : ∀ n < 4, destType [UInt8.ofNat (48 + n)] = 0 := by decide
  have hfour : n < 4 := Nat.lt_succ_of_le h.2
  have hatoi := atoi_decimal (n := n) (by omega)
  have hrecord : n ≤ destRecord := Nat.le_succ_of_le h.2
  rw [decimal_digit h.1 (by omega)] at hatoi ⊢
  simp only [destTypeValue, hword n hfour, hatoi, ne_eq, not_true_eq_false, if_false, h.1,
    hrecord, and_self, if_true]

def sourceText (x : Source) : Str := (Value.object (sourceValue x)).text

theorem sourceValue_keys (x : Source) : ∀ m ∈ sourceValue x, m.1.length ≤ 64 := by
  unfold sourceValue
  split <;> simp [ascii]

theorem field_sourceText (x : Source) :
    field (sourceText x) "id" = some x.id ∧
      field (sourceText x) "type" = some (decimal x.type) ∧
      field (sourceText x) "priority" = some (decimal x.priority) ∧
      field (sourceText x) "path" = some x.path ∧
      (field (sourceText x) "ca_file").getD [] = x.caFile := by
  have hfield : ∀ key, (ascii key).length < 64 →
      field (sourceText x) key = ((sourceValue x).lookup (ascii key)).map shown :=
    fun key hkey => field_object key hkey (sourceValue_keys x)
  refine ⟨?_, ?_, ?_, ?_, ?_⟩
  · rw [hfield "id" (by decide)]
    rfl
  · rw [hfield "type" (by decide)]
    rfl
  · rw [hfield "priority" (by decide)]
    rfl
  · rw [hfield "path" (by decide)]
    rfl
  · rw [hfield "ca_file" (by decide), sourceValue]
    split
    · rfl
    · rename_i hempty
      rw [not_not.mp hempty]
      rfl

def destinationText (d : Destination) : Str := (Value.object (destinationValue d)).text

theorem destinationValue_keys (d : Destination) : ∀ m ∈ destinationValue d, m.1.length ≤ 64 := by
  simp [destinationValue, ascii]

theorem field_destinationText (d : Destination) :
    field (destinationText d) "id" = some d.id ∧
      field (destinationText d) "type" = some (decimal d.type) ∧
      field (destinationText d) "host" = some (safeHost d) ∧
      field (destinationText d) "port" = some (decimal d.port) := by
  have hfield : ∀ key, (ascii key).length < 64 →
      field (destinationText d) key = ((destinationValue d).lookup (ascii key)).map shown :=
    fun key hkey => field_object key hkey (destinationValue_keys d)
  refine ⟨?_, ?_, ?_, ?_⟩
  · rw [hfield "id" (by decide)]
    rfl
  · rw [hfield "type" (by decide)]
    rfl
  · rw [hfield "host" (by decide)]
    rfl
  · rw [hfield "port" (by decide)]
    rfl

theorem field_destinationText_none (d : Destination) : ∀ key ∈ ["streamid", "path", "ca_file",
    "profile", "segment_duration_ms", "playlist_window", "method", "delete_expired"],
    field (destinationText d) key = none := by
  intro key hkey
  have hshort : (ascii key).length < 64 := by
    revert key
    decide
  rw [destinationText, field_object key hshort (destinationValue_keys d), destinationValue,
    List.lookup_eq_none_iff.mpr]
  · rfl
  · have hother : ∀ key ∈ ["streamid", "path", "ca_file", "profile", "segment_duration_ms",
        "playlist_window", "method", "delete_expired"], ∀ known ∈ ["id", "type", "host", "port",
        "enabled", "revision"], (ascii key != ascii known) = true := by decide
    simpa using hother key hkey

theorem destinationSettings_document (d d' : Destination) :
    ∃ settings profile, destinationSettings d' (destinationText d) =
      .ok { d' with settings, profile } := by
  have hnone := field_destinationText_none d
  have hsettings : hlsSettings none d'.host (destinationText d) =
      profileApply none d'.host { segmentDurationMs := 0, playlistWindow := 0 } := by
    simp only [hlsSettings, settingField, methodField, expiryField,
      hnone "segment_duration_ms" (by decide), hnone "playlist_window" (by decide),
      hnone "method" (by decide), hnone "delete_expired" (by decide)]
    rfl
  have hok : ∃ settings, hlsSettings none d'.host (destinationText d) = .ok settings := by
    rw [hsettings]
    exact ⟨_, rfl⟩
  obtain ⟨settings, hok⟩ := hok
  have hprofile : (field (destinationText d) "profile").getD [] = [] := by
    rw [hnone "profile" (by decide)]
    rfl
  have hfind : profileFind [] = none := rfl
  rw [destinationSettings]
  split
  · exact ⟨d'.settings, d'.profile, rfl⟩
  · simp only [hprofile, hfind, hok, ne_eq, not_true_eq_false, false_and, if_false]
    exact ⟨settings, [], rfl⟩

def streamText (s : Stream) : Str := (Value.object (streamValue s)).text

def documentText (reg : Registry) : Str := (Value.object (document reg)).text

theorem streamValue_keys (s : Stream) : ∀ m ∈ streamValue s, m.1.length ≤ 64 := by
  simp [streamValue, fanoutValue, ascii]

theorem field_streamText (s : Stream) :
    field (streamText s) "application" = some s.application ∧
      field (streamText s) "name" = some s.name ∧
      field (streamText s) "media" =
        some (ascii (if s.mediaMode = mediaProfile then "profile" else "source")) := by
  have hfield : ∀ key, (ascii key).length < 64 →
      field (streamText s) key = ((streamValue s).lookup (ascii key)).map shown :=
    fun key hkey => field_object key hkey (streamValue_keys s)
  refine ⟨?_, ?_, ?_⟩
  · rw [hfield "application" (by decide)]
    rfl
  · rw [hfield "name" (by decide)]
    rfl
  · rw [hfield "media" (by decide)]
    rfl

theorem mediaField_streamText (h : s.Sound transforms) :
    mediaField transforms (streamText s) = .ok (some s.mediaMode) := by
  have hsource : mediaMode (ascii "source") = some mediaSource := by decide
  have hprofile : mediaMode (ascii "profile") = some mediaProfile := by decide
  rw [mediaField, (field_streamText s).2.2]
  rcases h.media with hmode | ⟨hmode, rfl⟩
  · have hne : ¬mediaSource = mediaProfile := by decide
    simp only [hmode, hne, if_false, hsource, false_and]
  · simp only [hmode, if_true, hprofile, Bool.true_eq_false, and_false, if_false]

theorem walk_elements (objects : List (List (Str × Value))) :
    items (elements (objects.map .object)) = objects.map (fun ms => (Value.object ms).text) ∧
      whole (elements (objects.map .object)) = true := by
  rw [items, whole, jsonObjects_elements]
  exact ⟨rfl, rfl⟩

theorem array_member {α : Type*} {ms : List (Str × Value)} {key : String} {as : List α}
    {value : α → List (Str × Value)} (hkey : (ascii key).length < 64)
    (hms : ∀ m ∈ ms, m.1.length ≤ 64)
    (hmember : ms.lookup (ascii key) = some (.array (as.map fun a => .object (value a)))) :
    ∃ array, jsonArray (Value.object ms).text (ascii key) = some array ∧
      items array = as.map (fun a => (Value.object (value a)).text) ∧ whole array = true := by
  have hmap : (as.map fun a => Value.object (value a)) = (as.map value).map .object := by
    rw [List.map_map]
    rfl
  obtain ⟨hitems, hwhole⟩ := walk_elements (as.map value)
  rw [hmap] at hmember
  exact ⟨_, jsonArray_array hkey hms hmember, hitems.trans List.map_map, hwhole⟩

theorem array_sources (s : Stream) : ∃ array, jsonArray (streamText s) (ascii "sources") =
    some array ∧ items array = s.sources.map sourceText ∧ whole array = true :=
  array_member (by decide) (streamValue_keys s) rfl

theorem array_destinations (s : Stream) : ∃ array, jsonArray (streamText s) (ascii "destinations") =
    some array ∧ items array = s.destinations.map destinationText ∧ whole array = true :=
  array_member (by decide) (streamValue_keys s) rfl

theorem array_streams (reg : Registry) : ∃ array, jsonArray (documentText reg) (ascii "streams") =
    some array ∧ items array = reg.map streamText ∧ whole array = true :=
  array_member (by decide) (by simp [document, ascii]) rfl

theorem priorityField_sourceText {x : Source} (hx : x.Sound) :
    priorityField (sourceText x) = some x.priority := by
  have hpriority := hx.priority
  have hatoi := atoi_decimal (n := x.priority) (hpriority.trans (by decide))
  rw [priorityField, (field_sourceText x).2.2.1]
  simp only [hatoi, Option.filter_some, hpriority, decide_true, if_true]

theorem within_caFile {x : Source} (hx : x.Sound) :
    within (sourceText x) "ca_file" maxPath = true := by
  obtain ⟨-, -, -, -, hca⟩ := field_sourceText x
  rw [within]
  cases hfield : field (sourceText x) "ca_file" with
  | none => rfl
  | some caFile =>
    rw [hfield, Option.getD_some] at hca
    exact decide_eq_true (hca ▸ hx.caFile)

theorem sourceBounds_sourceText {x : Source} (hx : x.Sound) :
    sourceBounds (sourceText x) = true := by
  obtain ⟨hid, -, -, hpath, -⟩ := field_sourceText x
  simp only [sourceBounds, hid, Option.map_some, Option.getD_some, hx.named, hx.id, ne_eq,
    not_false_eq_true, and_self, decide_true, Bool.true_and, within, hpath, hx.path,
    priorityField_sourceText hx, Option.isSome_some, Bool.and_true]
  exact within_caFile hx

theorem streamBounds_streamText (h : s.Sound transforms) : streamBounds (streamText s) = true := by
  obtain ⟨happlication, hname, -⟩ := field_streamText s
  obtain ⟨array, harray, hitems, hwhole⟩ := array_sources s
  have hsources : (items array).all sourceBounds = true := by
    rw [hitems, List.all_map]
    exact List.all_eq_true.mpr fun x hx => sourceBounds_sourceText (h.sources x hx)
  simp only [streamBounds, happlication, hname, harray, hsources, hwhole, Bool.and_self,
    Bool.and_true]
  exact decide_eq_true ⟨h.application.1, h.name.1, h.application.2, h.name.2⟩

theorem mapM_printed {α β : Type*} {text : α → Str} {read : Str → Option β} {value : α → β}
    {as : List α} (h : ∀ a ∈ as, read (text a) = some (value a)) :
    (as.map text).mapM read = some (as.map value) := by
  induction as with
  | nil => rfl
  | cons a as ih =>
    rw [List.map_cons, List.mapM_cons, h a List.mem_cons_self,
      ih fun b hb => h b (List.mem_cons_of_mem a hb)]
    rfl

theorem childDeltas_printed {α : Type*} (kind : Kind) (application name : Str)
    (known : Str → Bool) (hknown : ∀ id, known id = false) {array : Str} {text : α → Str}
    {id : α → Str} {as : List α} (hitems : items array = as.map text)
    (hwhole : whole array = true)
    (hid : ∀ a ∈ as, field (text a) "id" = some (id a) ∧ id a ≠ []) :
    childDeltas kind application name known array =
      some (as.map fun a => ⟨kind, application, name, id a⟩) := by
  have hread : ∀ a ∈ as, (field (text a) "id").filter (fun id => decide (id ≠ [])) =
      some (id a) := by
    intro a ha
    obtain ⟨hfield, hne⟩ := hid a ha
    simp [hfield, hne]
  rw [childDeltas, if_neg (by simp [hwhole]), hitems, mapM_printed hread]
  simp [hknown]

def planned (s : Stream) : List Delta :=
  ⟨.stream, s.application, s.name, []⟩ ::
    ((s.sources.map fun x => ⟨.source, s.application, s.name, x.id⟩) ++
      s.destinations.map fun d => ⟨.destination, s.application, s.name, d.id⟩)

theorem streamDeltas_streamText (h : s.Sound transforms) (howns : ∀ application name,
    env.owns application name = true) :
    streamDeltas env [] (streamText s) = some (planned s) := by
  obtain ⟨happlication, hname, -⟩ := field_streamText s
  obtain ⟨sources, hsources, hitems, hwhole⟩ := array_sources s
  obtain ⟨destinations, hdestinations, hditems, hdwhole⟩ := array_destinations s
  have hnew : streamFind [] s.application s.name = none := rfl
  have hchildren := childDeltas_printed .source s.application s.name
    (fun id => (none : Option Stream).any fun s => (sourceFind s id).isSome) (fun _ => rfl) hitems
    hwhole fun x hx => ⟨(field_sourceText x).1, (h.sources x hx).named⟩
  have houtputs := childDeltas_printed .destination s.application s.name
    (fun id => (none : Option Stream).any fun s => (destinationFind s id).isSome) (fun _ => rfl)
    hditems hdwhole fun d hd => ⟨(field_destinationText d).1, (h.destinations d hd).named⟩
  simp only [streamDeltas, happlication, hname, hsources, hdestinations, howns, hnew, hchildren,
    houtputs, Bool.true_eq_false, if_false]
  rfl

def ofKind (kind : Kind) (deltas : List Delta) : List Delta :=
  deltas.filter fun d => decide (d.kind = kind)

theorem ofKind_planned (kind : Kind) (reg : Registry) :
    (ofKind kind (reg.map planned).flatten).length = listed reg kind := by
  induction reg with
  | nil => cases kind <;> rfl
  | cons s reg ih =>
    have hsplit : ofKind kind ((s :: reg).map planned).flatten =
        ofKind kind (planned s) ++ ofKind kind (reg.map planned).flatten := by
      rw [List.map_cons, List.flatten_cons, ofKind, List.filter_append]
      rfl
    rw [hsplit, List.length_append, ih]
    cases kind with
    | stream =>
      have hown : (ofKind .stream (planned s)).length = 1 := by
        simp [ofKind, planned, List.filter_map, Function.comp_def]
      rw [hown, listed, listed, List.length_cons, Nat.add_comm]
    | source =>
      have hown : (ofKind .source (planned s)).length = s.sources.length := by
        simp [ofKind, planned, List.filter_map, Function.comp_def]
      rw [hown, listed, listed, List.flatMap_cons, List.length_append]
    | destination =>
      have hown : (ofKind .destination (planned s)).length = s.destinations.length := by
        simp [ofKind, planned, List.filter_map, Function.comp_def]
      rw [hown, listed, listed, List.flatMap_cons, List.length_append]

theorem desiredCapacity_document {streams : Str} (h : Built transforms reg)
    (henv : env.Smooth reg) (hitems : items streams = reg.map streamText)
    (hwhole : whole streams = true) : desiredCapacity env [] streams = .ok := by
  have hdeltas : (items streams).mapM (streamDeltas env []) = some (reg.map planned) := by
    rw [hitems]
    exact mapM_printed fun s hs => streamDeltas_streamText (h.streams s hs) henv.owns
  have hroom : ∀ kind, (ofKind kind (reg.map planned).flatten.dedup).length ≤ room env kind := by
    intro kind
    have hless : (ofKind kind (reg.map planned).flatten.dedup).length ≤
        (ofKind kind (reg.map planned).flatten).length :=
      ((List.dedup_sublist _).filter _).length_le
    exact hless.trans ((ofKind_planned kind reg).trans_le (henv.rooms kind))
  rw [desiredCapacity, if_neg (by simp [hwhole]), hdeltas]
  exact if_pos (List.all_eq_true.mpr fun kind _ => decide_eq_true (hroom kind))

theorem desiredBounds_document {streams : Str} (h : Built transforms reg)
    (hitems : items streams = reg.map streamText) (hwhole : whole streams = true) :
    desiredBounds streams = true := by
  rw [desiredBounds, hitems, hwhole, List.all_map, Bool.and_true]
  exact List.all_eq_true.mpr fun s hs => streamBounds_streamText (h.streams s hs)

end DesiredGraph
