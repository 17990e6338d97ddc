import NginxMedia.DesiredGraph

/-! A request of `ngx_media_api_module.c` for a new destination, step by step: the object is listed
first, and each exit that follows takes it out again by hand. -/
namespace DestinationRequests

open ByteString ApiJson DesiredGraph
open MediaGraph (maxPath)

/-- A stream with the counters that its destinations are charged to. -/
structure World where
  stream : Stream
  admitted : ℕ
  egressRecords : ℕ
  deriving DecidableEq, Repr

/-- What the rest of the process answers: the limit of the model and whether the last room is still
free when it is taken, which allocations succeed, the egress manager, the backends with what they
say to a new destination, and the next revision. -/
structure Answers where
  running : Bool
  limit : ℕ
  admits : Bool
  object : Bool
  idStored : Bool
  hostStored : Bool
  streamidStored : Bool
  pathStored : Bool
  caFileStored : Bool
  profileStored : Bool
  egressAdmits : Bool
  backend : ℕ → Option Bool
  revisionNext : ℕ → ℕ
  rises : ∀ local', local' < revisionNext local'

def stringSet (stored : Bool) (src : Str) : Option Str :=
  if src.length > maxPath then none
  else if src ≠ [] ∧ stored = false then none
  else some src

def stringField (stored : Bool) (input : Str) (key : String) : Option Str :=
  match field input key with
  | none => some []
  | some text => stringSet stored text

def touch (a : Answers) (w : World) : World :=
  { w with stream := { w.stream with revision := a.revisionNext w.stream.revision } }

def destinationAdd (a : Answers) (w : World) (id : Str) (type : ℕ) : Option World :=
  if a.running = false ∨ id = [] then none
  else if (destinationFind w.stream id).isSome then none
  else if w.admitted ≥ a.limit ∨ a.admits = false then none
  else if a.object = false then none
  else
    match stringSet a.idStored id with
    | none => none
    | some id =>
      some (touch a { w with
        admitted := w.admitted + 1
        stream := { w.stream with
          destinations := w.stream.destinations ++ [{ id, type, host := [], port := 0 }] } })

/-- The members of the listed object are set. -/
def put (w : World) (d : Destination) : World :=
  { w with stream := { w.stream with
      destinations := w.stream.destinations.map fun other => if other.id = d.id then d else other } }

def destinationRemove (a : Answers) (w : World) (id : Str) : World :=
  touch a { w with
    admitted := w.admitted - 1
    stream := { w.stream with
      destinations := w.stream.destinations.filter fun d => decide (d.id ≠ id) } }

def undo (a : Answers) (w : World) (id : Str) (revision : ℕ) : World :=
  let w := destinationRemove a w id
  { w with stream := { w.stream with revision } }

def fill (a : Answers) (input id : Str) (type : ℕ) (host : Str) (port : ℕ) : Option Destination :=
  match stringSet a.hostStored host, stringField a.streamidStored input "streamid",
    stringField a.pathStored input "path", stringField a.caFileStored input "ca_file" with
  | some host, some streamid, some path, some caFile =>
    some { id, type, host, port, streamid, path, caFile }
  | _, _, _, _ => none

def destinationStart (a : Answers) (w : World) (d : Destination) : Option World :=
  if d.enabled = false then none
  else
    match a.backend d.type with
    | none => none
    | some added =>
      if ¬(d.type = destSrt ∨ d.type = destRtmp ∨ d.type = destHlsPush) then none
      else if a.egressAdmits = false then none
      else if added = false then none
      else some { w with egressRecords := w.egressRecords + 1 }

/-- The part of `ngx_media_api_destination_create_value()` behind the look-up of the id. -/
def destinationCreateNew (a : Answers) (w : World) (input id : Str) (type : ℕ) (host : Str)
    (port : ℕ) : World × Reply :=
  if w.admitted ≥ a.limit then (w, ⟨503, "destination_capacity", "", 0, 0⟩)
  else
    let revision := w.stream.revision
    match destinationAdd a w id type with
    | none => (w, ⟨500, "destination_create_failed", "", 0, 0⟩)
    | some w =>
      match fill a input id type host port with
      | none => (undo a w id revision, ⟨500, "out_of_memory", "", 0, 0⟩)
      | some d =>
        let w := put w d
        match destinationSettings d input with
        | .error (e, why) =>
          if e = "unknown_profile" then (destinationRemove a w id, ⟨400, e, why, 0, 0⟩)
          else (undo a w id revision, ⟨400, e, why, 0, 0⟩)
        | .ok d =>
          match stringSet a.profileStored d.profile with
          | none => (undo a w id revision, ⟨500, "out_of_memory", "", 0, 0⟩)
          | some _ =>
            match destinationStart a (put w d) d with
            | none => (undo a w id revision, ⟨500, "destination_start_failed", "", 0, 0⟩)
            | some w => (put w { d with revision := d.revision + 1 }, ⟨201, "", "", 0, 0⟩)

def destinationCreateValue (a : Answers) (w : World) (input : Str) : World × Reply :=
  match field input "id" with
  | none => (w, ⟨400, "id_required", "", 0, 0⟩)
  | some id =>
    if id = [] then (w, ⟨400, "id_required", "", 0, 0⟩)
    else
      match field input "type" with
      | none => (w, ⟨400, "type_required", "", 0, 0⟩)
      | some text =>
        if destTypeValue text = 0 then (w, ⟨400, "unknown_destination_type", "", 0, 0⟩)
        else
          match field input "host" with
          | none => (w, ⟨400, "host_required", "", 0, 0⟩)
          | some host =>
            if host = [] then (w, ⟨400, "host_required", "", 0, 0⟩)
            else
              match portField input (destTypeValue text) with
              | .error e => (w, ⟨400, e, "", 0, 0⟩)
              | .ok port =>
                if (destinationFind w.stream id).isSome then (w, ⟨200, "", "", 0, 0⟩)
                else destinationCreateNew a w input id (destTypeValue text) host port

variable {a : Answers} {w added : World} {input id host : Str} {type port : ℕ} {d : Destination}

theorem stringSet_some {stored : Bool} {src text : Str} (h : stringSet stored src = some text) :
    text = src := by
  unfold stringSet at h
  split_ifs at h
  exact (Option.some.inj h).symm

theorem fill_some (h : fill a input id type host port = some d) :
    d.id = id ∧ d.type = type ∧ d.host = host ∧ d.profile = [] := by
  unfold fill at h
  split at h
  · next host' streamid path caFile hhost _ _ _ =>
    rw [← Option.some.inj h]
    exact ⟨rfl, rfl, stringSet_some hhost, rfl⟩
  · cases h

theorem destinationAdd_some (h : destinationAdd a w id type = some added) :
    added = touch a { w with
      admitted := w.admitted + 1
      stream := { w.stream with
        destinations := w.stream.destinations ++ [{ id, type, host := [], port := 0 }] } } ∧
    destinationFind w.stream id = none := by
  unfold destinationAdd at h
  split_ifs at h with hrun hfind hlimit hobject
  split at h
  · cases h
  · next text htext =>
    rw [stringSet_some htext] at h
    exact ⟨(Option.some.inj h).symm, Option.not_isSome_iff_eq_none.mp hfind⟩

theorem not_listed (h : destinationFind w.stream id = none) :
    ∀ d ∈ w.stream.destinations, d.id ≠ id := by
  intro d hd heq
  exact List.find?_eq_none.mp h d hd (decide_eq_true heq)

theorem filter_listed (h : destinationFind w.stream id = none) :
    (w.stream.destinations.filter fun d => decide (d.id ≠ id)) = w.stream.destinations :=
  List.filter_eq_self.mpr fun d hd => decide_eq_true (not_listed h d hd)

theorem remove_put (h : d.id = id) :
    destinationRemove a (put w d) id = destinationRemove a w id := by
  subst h
  have hfilter : ∀ l : List Destination,
      (l.map fun other => if other.id = d.id then d else other).filter
        (fun other => decide (other.id ≠ d.id)) =
      l.filter fun other => decide (other.id ≠ d.id) := by
    intro l
    induction l with
    | nil => rfl
    | cons other rest ih =>
      rw [List.map_cons, List.filter_cons, List.filter_cons, ih]
      by_cases hsame : other.id = d.id
      · simp [hsame]
      · simp [hsame]
  unfold destinationRemove put
  simp only [hfilter]

theorem remove_added (h : destinationAdd a w id type = some added) :
    destinationRemove a added id = touch a (touch a w) := by
  obtain ⟨rfl, hfind⟩ := destinationAdd_some h
  have hlist : ((w.stream.destinations ++ [({ id, type, host := [], port := 0 } :
      Destination)]).filter fun d => decide (d.id ≠ id)) = w.stream.destinations := by
    rw [List.filter_append, filter_listed hfind]
    simp
  unfold destinationRemove touch
  simp only [hlist, Nat.add_sub_cancel]

theorem undo_added (h : destinationAdd a w id type = some added) :
    undo a added id w.stream.revision = w := by
  rw [undo, remove_added h]
  rfl

theorem undo_put (hd : d.id = id) (revision : ℕ) : undo a (put w d) id revision =
    undo a w id revision := by
  rw [undo, undo, remove_put hd]

def Stored (stored : Bool) (text : Str) : Prop := text.length ≤ maxPath ∧ (text = [] ∨ stored = true)

theorem stringSet_none_iff (stored : Bool) (text : Str) :
    stringSet stored text = none ↔ ¬Stored stored text := by
  unfold stringSet Stored
  cases stored <;> split_ifs <;> simp_all

theorem stringField_none_iff (stored : Bool) (input : Str) (key : String) :
    stringField stored input key = none ↔
      ¬∀ text, field input key = some text → Stored stored text := by
  unfold stringField
  cases field input key with
  | none => simp
  | some text => simp [stringSet_none_iff]

theorem destinationAdd_isSome (hid : id ≠ []) (hfind : destinationFind w.stream id = none) :
    (destinationAdd a w id type).isSome ↔
      a.running = true ∧ w.admitted < a.limit ∧ a.admits = true ∧ a.object = true ∧
        Stored a.idStored id := by
  unfold destinationAdd
  rw [hfind]
  have hstored := stringSet_none_iff a.idStored id
  cases hset : stringSet a.idStored id with
  | none =>
    have hnot : ¬Stored a.idStored id := hstored.mp hset
    split_ifs <;> simp [hnot]
  | some text =>
    have hyes : Stored a.idStored id := by
      by_contra hnot
      rw [hstored.mpr hnot] at hset
      cases hset
    cases a.running <;> cases a.admits <;> cases a.object <;> simp [hid, hyes]

theorem fill_isSome :
    (fill a input id type host port).isSome ↔
      Stored a.hostStored host ∧
        (∀ text, field input "streamid" = some text → Stored a.streamidStored text) ∧
        (∀ text, field input "path" = some text → Stored a.pathStored text) ∧
        ∀ text, field input "ca_file" = some text → Stored a.caFileStored text := by
  have hhost := stringSet_none_iff a.hostStored host
  have hstreamid := stringField_none_iff a.streamidStored input "streamid"
  have hpath := stringField_none_iff a.pathStored input "path"
  have hca := stringField_none_iff a.caFileStored input "ca_file"
  unfold fill
  cases h1 : stringSet a.hostStored host with
  | none => simp [hhost.mp h1]
  | some _ =>
    rw [h1] at hhost
    cases h2 : stringField a.streamidStored input "streamid" with
    | none => simp [hstreamid.mp h2]
    | some _ =>
      rw [h2] at hstreamid
      cases h3 : stringField a.pathStored input "path" with
      | none => simp [hpath.mp h3]
      | some _ =>
        rw [h3] at hpath
        cases h4 : stringField a.caFileStored input "ca_file" with
        | none => simp [hca.mp h4]
        | some _ =>
          rw [h4] at hca
          simp only [reduceCtorEq, false_iff, not_not] at hhost hstreamid hpath hca
          exact ⟨fun _ => ⟨hhost, hstreamid, hpath, hca⟩, fun _ => rfl⟩

def UnknownProfile (input : Str) : Prop :=
  ∃ profile, field input "profile" = some profile ∧ profile ≠ [] ∧ profileFind profile = none

structure Misnamed (a : Answers) (w : World) (input id host : Str) : Prop where
  fresh : destinationFind w.stream id = none
  listed : a.running = true ∧ w.admitted < a.limit ∧ a.admits = true ∧ a.object = true ∧
    Stored a.idStored id
  filled : Stored a.hostStored host ∧
    (∀ text, field input "streamid" = some text → Stored a.streamidStored text) ∧
    (∀ text, field input "path" = some text → Stored a.pathStored text) ∧
    ∀ text, field input "ca_file" = some text → Stored a.caFileStored text
  unknown : UnknownProfile input

theorem unknownProfile_iff (input : Str) :
    UnknownProfile input ↔ (field input "profile").getD [] ≠ [] ∧
      (profileFind ((field input "profile").getD [])).isNone := by
  unfold UnknownProfile
  cases field input "profile" with
  | none => simp
  | some profile => simp

theorem settings_unknown (htype : d.type = destHlsPush) (h : UnknownProfile input) :
    destinationSettings d input = .error ("unknown_profile", "") := by
  rw [destinationSettings, if_neg (not_not.mpr htype)]
  exact if_pos ((unknownProfile_iff input).mp h)

theorem settings_known (h : ¬(d.type = destHlsPush ∧ UnknownProfile input)) :
    (∃ e why, destinationSettings d input = .error (e, why) ∧ e ≠ "unknown_profile") ∨
      ∃ d', destinationSettings d input = .ok d' := by
  by_cases htype : d.type = destHlsPush
  · have hknown := fun hbad => h ⟨htype, (unknownProfile_iff input).mpr hbad⟩
    rw [destinationSettings, if_neg (not_not.mpr htype)]
    dsimp only
    rw [if_neg hknown]
    cases hlsSettings (profileFind ((field input "profile").getD [])) d.host input with
    | error why =>
      refine Or.inl ⟨_, why, rfl, ?_⟩
      split_ifs <;> decide
    | ok settings => exact Or.inr ⟨_, rfl⟩
  · rw [destinationSettings, if_pos htype]
    exact Or.inr ⟨d, rfl⟩

/-- What becomes of a request for a new destination: refused with everything as it was, refused
for its profile with two revisions gone, or done. -/
theorem createNew_cases (hid : id ≠ []) (hfind : destinationFind w.stream id = none) :
    ¬(type = destHlsPush ∧ Misnamed a w input id host) ∧
      ((destinationCreateNew a w input id type host port).1 = w ∧
          400 ≤ (destinationCreateNew a w input id type host port).2.status ∨
        (destinationCreateNew a w input id type host port).2.status = 201) ∨
    (type = destHlsPush ∧ Misnamed a w input id host) ∧
      (destinationCreateNew a w input id type host port).1 = touch a (touch a w) ∧
      (destinationCreateNew a w input id type host port).2.status = 400 := by
  unfold destinationCreateNew
  by_cases hroom : w.admitted ≥ a.limit
  · rw [if_pos hroom]
    refine Or.inl ⟨?_, Or.inl ⟨rfl, Nat.le_of_ble_eq_true rfl⟩⟩
    rintro ⟨-, hm⟩
    exact absurd hm.listed.2.1 (Nat.not_lt.mpr hroom)
  rw [if_neg hroom]
  dsimp only
  cases hadd : destinationAdd a w id type with
  | none =>
    refine Or.inl ⟨?_, Or.inl ⟨rfl, Nat.le_of_ble_eq_true rfl⟩⟩
    rintro ⟨-, hm⟩
    have := (@destinationAdd_isSome a w id type hid hfind).mpr hm.listed
    rw [hadd] at this
    cases this
  | some added =>
    have hlisted := (destinationAdd_isSome hid hfind).mp (Option.isSome_of_eq_some hadd)
    dsimp only
    cases hfill : fill a input id type host port with
    | none =>
      refine Or.inl ⟨?_, Or.inl ⟨undo_added hadd, Nat.le_of_ble_eq_true rfl⟩⟩
      rintro ⟨-, hm⟩
      have := (@fill_isSome a input id host type port).mpr hm.filled
      rw [hfill] at this
      cases this
    | some d =>
      have hfilled := fill_isSome.mp (Option.isSome_of_eq_some hfill)
      obtain ⟨hdid, hdtype, -, -⟩ := fill_some hfill
      have hundo : undo a (put added d) id w.stream.revision = w := by
        rw [undo_put hdid, undo_added hadd]
      dsimp only
      by_cases hbad : d.type = destHlsPush ∧ UnknownProfile input
      · rw [settings_unknown hbad.1 hbad.2]
        dsimp only
        rw [if_pos rfl]
        refine Or.inr ⟨⟨hdtype ▸ hbad.1, ⟨hfind, hlisted, hfilled, hbad.2⟩⟩, ?_, rfl⟩
        rw [remove_put hdid, remove_added hadd]
      · have hknown : ¬(type = destHlsPush ∧ Misnamed a w input id host) := fun hm =>
          hbad ⟨hdtype.trans hm.1, hm.2.unknown⟩
        refine Or.inl ⟨hknown, ?_⟩
        rcases settings_known hbad with ⟨e, why, hset, hother⟩ | ⟨d', hset⟩
        · rw [hset]
          dsimp only
          rw [if_neg hother]
          exact Or.inl ⟨hundo, Nat.le_of_ble_eq_true rfl⟩
        · rw [hset]
          dsimp only
          cases stringSet a.profileStored d'.profile with
          | none => exact Or.inl ⟨hundo, Nat.le_of_ble_eq_true rfl⟩
          | some _ =>
            dsimp only
            cases destinationStart a (put (put added d) d') d' with
            | none => exact Or.inl ⟨hundo, Nat.le_of_ble_eq_true rfl⟩
            | some started => exact Or.inr rfl

structure Unchanged (w w' : World) : Prop where
  destinations : w'.stream.destinations = w.stream.destinations
  revision : w'.stream.revision = w.stream.revision
  admitted : w'.admitted = w.admitted

/-- A refused request leaves no trace, nor does one for a destination that there is. -/
def Traceless (w : World) (out : World × Reply) : Prop :=
  (400 ≤ out.2.status → Unchanged w out.1) ∧ (out.2.status = 200 → Unchanged w out.1)

def Slips (a : Answers) (w : World) (input : Str) : Prop :=
  ∃ id text host port, field input "id" = some id ∧ id ≠ [] ∧ field input "type" = some text ∧
    destTypeValue text = destHlsPush ∧ field input "host" = some host ∧ host ≠ [] ∧
    portField input destHlsPush = .ok port ∧ Misnamed a w input id host

theorem Unchanged.refl (w : World) : Unchanged w w := ⟨rfl, rfl, rfl⟩

theorem traceless_same (w : World) (reply : Reply) : Traceless w (w, reply) :=
  ⟨fun _ => Unchanged.refl w, fun _ => Unchanged.refl w⟩

theorem touched_twice : ¬Unchanged w (touch a (touch a w)) := by
  intro h
  have hfirst := a.rises w.stream.revision
  have hsecond := a.rises (a.revisionNext w.stream.revision)
  have hsame := h.revision
  change a.revisionNext (a.revisionNext w.stream.revision) = w.stream.revision at hsame
  omega

/-- A refused request leaves no trace exactly when it is not one for a new and otherwise acceptable
HLS push destination with an unknown profile. -/
theorem refusal_traceless_iff (a : Answers) (w : World) (input : Str) :
    Traceless w (destinationCreateValue a w input) ↔ ¬Slips a w input := by
  have hearly : ∀ reply, ¬Slips a w input → (Traceless w (w, reply) ↔ ¬Slips a w input) :=
    fun reply h => iff_of_true (traceless_same w reply) h
  unfold destinationCreateValue
  cases hid : field input "id" with
  | none =>
    apply hearly
    rintro ⟨_, _, _, _, hid', -⟩
    rw [hid] at hid'
    cases hid'
  | some id =>
    dsimp only
    by_cases hnamed : id = []
    · rw [if_pos hnamed]
      apply hearly
      rintro ⟨_, _, _, _, hid', hne, -⟩
      rw [hid] at hid'
      exact hne (Option.some.inj hid' ▸ hnamed)
    rw [if_neg hnamed]
    cases htype : field input "type" with
    | none =>
      apply hearly
      rintro ⟨_, _, _, _, -, -, htype', -⟩
      rw [htype] at htype'
      cases htype'
    | some text =>
      dsimp only
      by_cases hzero : destTypeValue text = 0
      · rw [if_pos hzero]
        apply hearly
        rintro ⟨_, _, _, _, -, -, htype', hhls, -⟩
        rw [htype] at htype'
        obtain rfl := Option.some.inj htype'
        rw [hhls] at hzero
        exact absurd hzero (by decide)
      rw [if_neg hzero]
      cases hhost : field input "host" with
      | none =>
        apply hearly
        rintro ⟨_, _, _, _, -, -, -, -, hhost', -⟩
        rw [hhost] at hhost'
        cases hhost'
      | some host =>
        dsimp only
        by_cases hhosted : host = []
        · rw [if_pos hhosted]
          apply hearly
          rintro ⟨_, _, _, _, -, -, -, -, hhost', hne, -⟩
          rw [hhost] at hhost'
          exact hne (Option.some.inj hhost' ▸ hhosted)
        rw [if_neg hhosted]
        cases hport : portField input (destTypeValue text) with
        | error e =>
          apply hearly
          rintro ⟨_, _, _, _, -, -, htype', hhls, -, -, hport', -⟩
          rw [htype] at htype'
          obtain rfl := Option.some.inj htype'
          rw [hhls, hport'] at hport
          cases hport
        | ok port =>
          dsimp only
          have hslips : Slips a w input ↔
              destTypeValue text = destHlsPush ∧ Misnamed a w input id host := by
            constructor
            · rintro ⟨id', text', host', port', hid', -, htype', hhls, hhost', -, -, hm⟩
              rw [hid] at hid'
              rw [htype] at htype'
              rw [hhost] at hhost'
              obtain rfl := Option.some.inj hid'
              obtain rfl := Option.some.inj htype'
              obtain rfl := Option.some.inj hhost'
              exact ⟨hhls, hm⟩
            · rintro ⟨hhls, hm⟩
              rw [hhls] at hport
              exact ⟨id, text, host, port, hid, hnamed, htype, hhls, hhost, hhosted, hport, hm⟩
          by_cases hfound : (destinationFind w.stream id).isSome = true
          · rw [if_pos hfound]
            apply hearly
            rw [hslips]
            rintro ⟨-, hm⟩
            rw [hm.fresh] at hfound
            cases hfound
          · rw [if_neg hfound, hslips]
            rcases @createNew_cases a w input id host (destTypeValue text) port hnamed
                (Option.not_isSome_iff_eq_none.mp hfound) with
              ⟨hgood, ⟨hsame, hstatus⟩ | hcreated⟩ | ⟨hbad, htouched, hstatus⟩
            · refine iff_of_true ⟨fun _ => ?_, fun _ => ?_⟩ hgood
              · rw [hsame]
                exact Unchanged.refl w
              · rw [hsame]
                exact Unchanged.refl w
            · refine iff_of_true ⟨fun hrefused => ?_, fun hok => ?_⟩ hgood
              · rw [hcreated] at hrefused
                omega
              · rw [hcreated] at hok
                omega
            · refine iff_of_false (fun htrace => ?_) (not_not.mpr hbad)
              have hsame := htrace.1 (by rw [hstatus])
              rw [htouched] at hsame
              exact touched_twice hsame

def granted : Answers where
  running := true
  limit := 8
  admits := true
  object := true
  idStored := true
  hostStored := true
  streamidStored := true
  pathStored := true
  caFileStored := true
  profileStored := true
  egressAdmits := true
  backend := fun _ => some true
  revisionNext := (· + 1)
  rises := Nat.lt_succ_self

def liveNews : World := ⟨{ application := ascii "live", name := ascii "news", revision := 5 }, 0, 0⟩

def misspelt : Str :=
  (Value.object [(ascii "id", .string (ascii "out")), (ascii "type", .string (ascii "hls_push")),
    (ascii "host", .string (ascii "https://example.com/")), (ascii "path", .string (ascii "/hls")),
    (ascii "profile", .string (ascii "youtube"))]).text

theorem misspelt_profile_counted :
    ¬∀ a w input, Traceless w (destinationCreateValue a w input) := by
  intro h
  have hstatus : (destinationCreateValue granted liveNews misspelt).2.status = 400 := by
    decide +kernel
  have hrevision : (destinationCreateValue granted liveNews misspelt).1.stream.revision = 7 := by
    decide +kernel
  have hsame := ((h granted liveNews misspelt).1 (by rw [hstatus])).revision
  rw [hrevision] at hsame
  exact absurd hsame (by decide)

structure Agrees (a : Answers) (w : World) (env : Env) : Prop where
  room : env.destinationRoom = a.limit - w.admitted
  revision : env.revision = a.revisionNext
  adds : ∀ id, env.adds w.stream.application w.stream.name id =
    (a.running && a.admits && a.object && a.idStored)
  stores : ∀ id, env.stores w.stream.application w.stream.name id = true
  memory : a.hostStored = true ∧ a.streamidStored = true ∧ a.pathStored = true ∧
    a.caFileStored = true ∧ a.profileStored = true
  starts : ∀ id type, env.starts w.stream.application w.stream.name id =
    (a.egressAdmits && a.backend type == some true)

/-- What the answers are to the graph. -/
def Answers.env (a : Answers) (w : World) : Env where
  owns := fun _ _ => true
  streamRoom := 0
  sourceRoom := 0
  destinationRoom := a.limit - w.admitted
  stages := fun _ _ => true
  claims := true
  admits := fun _ _ => true
  opens := fun _ _ _ => true
  sends := fun _ _ _ => true
  nonce := true
  derives := true
  keyFree := true
  adds := fun _ _ _ => a.running && a.admits && a.object && a.idStored
  stores := fun _ _ _ => true
  starts := fun _ _ _ => a.egressAdmits
  revision := a.revisionNext

end DestinationRequests
