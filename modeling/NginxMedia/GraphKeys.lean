import NginxMedia.GraphReplica
import NginxMedia.SourceRequests

/-! What ingest keys name while several workers serve requests and apply each other's
operations. Each worker looks for a key in its own replica only, so two requests that cross can
give one key to two sources; the model keeps, beside the replicas and the operations in flight,
which keys operators gave and which nonces the issued ones had. -/
namespace GraphKeys

open ByteString MediaGraph SourceRequests

/-- Application, stream and source id. -/
abbrev Place := Str × Str × Str

/-- `given` and `issued` remember the hashes of the keys that operators gave and the nonces and
hashes of those issued; nothing reads them. -/
structure World (n : ℕ) where
  registries : Fin n → Registry
  flight : List (Fin n × Op)
  given : List Str
  issued : List (Str × Str)

inductive Call (n : ℕ) where
  | streamPost (worker : Fin n) (request : StreamRequest) (env : ApiEnv)
  | sourcePost (worker : Fin n) (application name : Str) (request : SourceRequest) (env : ApiEnv)
  | sourceRotate (worker : Fin n) (application name id : Str) (env : ApiEnv)
  | sourceSetEnabled (worker : Fin n) (application name id : Str) (enabled : Bool) (env : ApiEnv)
  | sourceDelete (worker : Fin n) (application name id : Str) (env : ApiEnv)
  | deliver (index : ℕ) (again : Bool) (env : Env)

variable {n : ℕ}

def initial (n : ℕ) : World n := ⟨fun _ => Registry.empty, [], [], []⟩

def World.serve (w : World n) (worker : Fin n) (served : Served) : World n :=
  { w with
    registries := Function.update w.registries worker served.registry
    flight := w.flight ++ served.sent.toList.flatMap fun op =>
      ((List.finRange n).filter fun i => decide (i ≠ worker)).map fun i => (i, op) }

/-- `ngx_media_graph_decode()` lets the operation through. -/
def decodes (op : Op) : Bool :=
  decide (op.application ≠ [] ∧ op.name ≠ [] ∧ op.application.length ≤ maxName ∧
    op.name.length ≤ maxName ∧ op.id.length ≤ maxName ∧ op.path.length ≤ maxPath ∧
    op.caFile.length ≤ maxPath ∧ (op.kind ≠ .streamDelete → op.incarnation ≠ 0) ∧
    op.mediaMode ≤ mediaProfile ∧ op.priority < 2 ^ 32)

def World.deliver (w : World n) (index : ℕ) (again : Bool) (env : Env) : World n :=
  match w.flight[index]? with
  | none => w
  | some (worker, op) =>
    { w with
      registries :=
        if decodes op then
          Function.update w.registries worker (apply env (w.registries worker) op).1
        else w.registries
      flight := if again then w.flight else w.flight.eraseIdx index }

def requestType (request : SourceRequest) : ℕ := request.type.elim typeSrt sourceType

def World.record (w : World n) (given : Bool) (sent : Option Op) : World n :=
  match sent.filter Op.keySet with
  | none => w
  | some op =>
    if given then { w with given := w.given ++ [op.keyHash] }
    else { w with issued := w.issued ++ [(op.keyNonce, op.keyHash)] }

def step (crypto : Crypto) (w : World n) : Call n → World n
  | .streamPost worker request env =>
    w.serve worker (streamPost env (w.registries worker) request)
  | .sourcePost worker application name request env =>
    let served := sourcePost crypto env (w.registries worker) application name request
    (w.serve worker served).record (givenKey request (requestType request)).isSome served.sent
  | .sourceRotate worker application name id env =>
    let served := sourceRotate crypto env (w.registries worker) application name id
    (w.serve worker served).record false served.sent
  | .sourceSetEnabled worker application name id enabled env =>
    w.serve worker (sourceSetEnabled env (w.registries worker) application name id enabled)
  | .sourceDelete worker application name id env =>
    w.serve worker (SourceRequests.sourceDelete env (w.registries worker) application name id)
  | .deliver index again env => w.deliver index again env

def run (crypto : Crypto) (calls : List (Call n)) : World n :=
  calls.foldl (step crypto) (initial n)

/-- The keys that the sources of one replica answer to. -/
def held (reg : Registry) : List (Place × Str) :=
  ((allSources reg).filter fun p => p.2.keySet).map fun p =>
    ((p.1.application, p.1.name, p.2.id), p.2.keyHash)

def carried (op : Op) : Option (Place × Str) :=
  if op.kind = .sourceSet ∧ op.keySet then some ((op.application, op.name, op.id), op.keyHash)
  else none

def World.held (w : World n) : List (Place × Str) :=
  ((List.finRange n).flatMap fun i => GraphKeys.held (w.registries i)) ++
    w.flight.filterMap fun m => carried m.2

def OneSource (reg : Registry) : Prop :=
  ((held reg).map Prod.snd).Nodup ∧
    ∀ hash, ∀ p ∈ allSources reg, keyMatches hash p.2 → sourceByKey reg hash = some p

/-- On every worker and in flight, the key is this source's or nobody's. -/
def World.Free (w : World n) (place : Place) (hash : Str) : Prop :=
  ∀ c ∈ w.held, c.2 = hash → c.1 = place

def World.Unused (crypto : Crypto) (w : World n) (master id nonce : Str) : Prop :=
  ∀ key ∈ keyDerive crypto master id nonce,
    nonce ∉ w.issued.map Prod.fst ∧ key.hash ∉ w.given

def adds (reg : Registry) (application name id : Str) (request : SourceRequest) : Bool :=
  keyed (requestType request) &&
    (registryStream reg application name).any fun e => (sourceFind e.stream id).isNone

def World.KeyOk (crypto : Crypto) (w : World n) (worker : Fin n) (place : Place)
    (request : SourceRequest) (env : ApiEnv) : Prop :=
  match givenKey request (requestType request) with
  | some key =>
    sourceByKey (w.registries worker) (crypto.sha256 key) = none →
      w.Free place (crypto.sha256 key)
  | none => ∀ nonce ∈ env.nonces.head?, w.Unused crypto env.master place.2.2 nonce

def Ok (crypto : Crypto) (w : World n) : Call n → Prop
  | .sourcePost worker application name request env =>
    ∀ id ∈ request.id, adds (w.registries worker) application name id request = true →
      w.KeyOk crypto worker (application, name, id) request env
  | .sourceRotate _ _ _ id env => ∀ nonce ∈ env.nonces, w.Unused crypto env.master id nonce
  | _ => True

instance (w : World n) (place : Place) (hash : Str) : Decidable (w.Free place hash) :=
  inferInstanceAs (Decidable (∀ c ∈ w.held, _))

instance (crypto : Crypto) (w : World n) (master id nonce : Str) :
    Decidable (w.Unused crypto master id nonce) :=
  inferInstanceAs (Decidable (∀ key ∈ keyDerive crypto master id nonce, _))

instance (crypto : Crypto) (w : World n) (worker : Fin n) (place : Place)
    (request : SourceRequest) (env : ApiEnv) :
    Decidable (w.KeyOk crypto worker place request env) :=
  match h : givenKey request (requestType request) with
  | some key =>
    decidable_of_iff (sourceByKey (w.registries worker) (crypto.sha256 key) = none →
      w.Free place (crypto.sha256 key)) (by rw [World.KeyOk, h])
  | none =>
    decidable_of_iff (∀ nonce ∈ env.nonces.head?, w.Unused crypto env.master place.2.2 nonce)
      (by rw [World.KeyOk, h])

instance (crypto : Crypto) (w : World n) (call : Call n) : Decidable (Ok crypto w call) :=
  match call with
  | .sourcePost worker application name request env =>
    inferInstanceAs (Decidable (∀ id ∈ request.id,
      adds (w.registries worker) application name id request = true →
        w.KeyOk crypto worker (application, name, id) request env))
  | .sourceRotate _ _ _ _ env => inferInstanceAs (Decidable (∀ nonce ∈ env.nonces, _))
  | .streamPost .. | .sourceSetEnabled .. | .sourceDelete .. | .deliver .. =>
    inferInstanceAs (Decidable True)

def Call.issues (crypto : Crypto) : Call n → List (Str × Str)
  | .sourcePost _ _ _ request env =>
    (env.nonces.take 1).filterMap fun nonce =>
      (keyDerive crypto env.master (request.id.getD []) nonce).map fun key => (nonce, key.hash)
  | .sourceRotate _ _ _ id env =>
    env.nonces.filterMap fun nonce =>
      (keyDerive crypto env.master id nonce).map fun key => (nonce, key.hash)
  | _ => []

/-- Issued keys of different nonces are different. -/
def Apart (crypto : Crypto) (calls : List (Call n)) : Prop :=
  ∀ a ∈ calls.flatMap (Call.issues crypto), ∀ b ∈ calls.flatMap (Call.issues crypto),
    a.1 ≠ b.1 → a.2 ≠ b.2

instance (crypto : Crypto) (calls : List (Call n)) : Decidable (Apart crypto calls) :=
  inferInstanceAs (Decidable (∀ a ∈ _, ∀ b ∈ _, _ → _))

structure Kept (P : Str → Str → Prop) (st : Stream) : Prop where
  ids : (st.sources.map Source.id).Nodup
  keys : ∀ s ∈ st.sources, s.keySet = true → P s.id s.keyHash

variable {P : Str → Str → Prop} {st st' : Stream} {s : Source} {op : Op} {env : Env}

theorem Kept.of_sources (h : Kept P st) (he : st'.sources = st.sources) : Kept P st' := by
  constructor
  · rw [he]
    exact h.ids
  · rw [he]
    exact h.keys

theorem Kept.new (incarnation : ℕ) : Kept P (Stream.new incarnation) :=
  ⟨List.nodup_nil, fun _ hs => absurd hs List.not_mem_nil⟩

theorem sourceFind_none {id : Str} (h : sourceFind st id = none) : ∀ x ∈ st.sources, x.id ≠ id := by
  intro x hx
  simpa using List.find?_eq_none.mp h x hx

theorem sourceFind_some {id : Str} (h : sourceFind st id = some s) : s ∈ st.sources ∧ s.id = id :=
  ⟨List.mem_of_find?_eq_some h, by simpa using List.find?_some h⟩

theorem Kept.add (h : Kept P st) (hf : sourceFind st s.id = none)
    (hs : s.keySet = true → P s.id s.keyHash) : Kept P (addSource s st) := by
  constructor
  · rw [addSource, List.map_append, List.nodup_append]
    refine ⟨h.ids, by simp, ?_⟩
    intro a ha b hb
    obtain ⟨x, hx, rfl⟩ := List.mem_map.mp ha
    obtain rfl : b = s.id := by simpa using hb
    exact sourceFind_none hf x hx
  · intro x hx
    rcases List.mem_append.mp hx with hx | hx
    · exact h.keys x hx
    · rw [List.mem_singleton.mp hx]
      exact hs

theorem Kept.remove (h : Kept P st) (id : Str) : Kept P (removeSource id st) := by
  refine ⟨(List.Sublist.map _ List.filter_sublist).nodup h.ids, fun x hx => ?_⟩
  exact h.keys x (List.mem_filter.mp hx).1

theorem Kept.assign (h : Kept P st) {id : Str} {f : Source → Source}
    (hid : ∀ x, (f x).id = x.id)
    (hkey : ∀ x ∈ st.sources, x.id = id → (f x).keySet = true → P id (f x).keyHash)
    (he : st'.sources = st.sources.map fun x => if x.id = id then f x else x) : Kept P st' := by
  constructor
  · rw [he, List.map_map]
    have hsame : (Source.id ∘ fun x => if x.id = id then f x else x) = Source.id := by
      funext x
      simp only [Function.comp_apply]
      split_ifs
      · exact hid x
      · rfl
    rw [hsame]
    exact h.ids
  · rw [he]
    intro y hy hset
    obtain ⟨x, hx, rfl⟩ := List.mem_map.mp hy
    by_cases hxid : x.id = id
    · rw [if_pos hxid] at hset ⊢
      rw [hid, hxid]
      exact hkey x hx hxid hset
    · rw [if_neg hxid] at hset ⊢
      exact h.keys x hx hset

open GraphCell

theorem sourceTarget_kept (h : Kept P st) (ht : sourceTarget env st op = some st') :
    Kept P st' := by
  unfold sourceTarget at ht
  cases hf : sourceFind st op.id with
  | some s =>
    rw [hf] at ht
    dsimp only at ht
    split_ifs at ht
    rw [← Option.some.inj ht]
    exact h
  | none =>
    rw [hf] at ht
    dsimp only at ht
    cases ho : sourceOpen env op with
    | none =>
      rw [ho] at ht
      cases ht
    | some s =>
      have hid := sourceOpen_id ho
      have hkey : s.keySet = false := by
        unfold sourceOpen at ho
        split_ifs at ho
        rw [← Option.some.inj ho]
        rfl
      rw [ho] at ht
      dsimp only at ht
      split_ifs at ht
      rw [← Option.some.inj ht]
      refine h.add (by rw [hid]; exact hf) fun hset => ?_
      rw [hkey] at hset
      cases hset

theorem setSourceIn_kept (h : Kept P st) (hop : op.keySet = true → P op.id op.keyHash) :
    Kept P (setSourceIn op st) := by
  refine @Kept.assign P st _ h op.id (setSource op) (fun _ => rfl) ?_ rfl
  intro x hx hxid hset
  simp only [setSource, Bool.or_eq_true] at hset
  cases hk : op.keySet with
  | true =>
    simp only [setSource, hk, if_true]
    exact hop hk
  | false =>
    rw [hk] at hset
    simp only [setSource, hk, Bool.false_eq_true, if_false]
    rw [← hxid]
    exact h.keys x hx (hset.resolve_left Bool.false_ne_true)

theorem cell_kept {c : Cell} (h : ∀ st ∈ c.stream, Kept P st)
    (hop : op.kind = .sourceSet → op.keySet = true → P op.id op.keyHash) :
    ∀ st ∈ (c.apply env op).stream, Kept P st := by
  by_cases ha : GraphReplica.Accepts c op
  · rw [GraphReplica.apply_of_accepts ha]
    cases hk : op.kind with
    | streamSet =>
      dsimp only
      unfold cellStreamSet
      cases hs : c.stream with
      | none =>
        dsimp only
        split_ifs
        · exact h
        · rintro st ⟨⟩
          exact (Kept.new op.incarnation).of_sources rfl
      | some old =>
        dsimp only
        split_ifs
        · exact h
        · rintro st ⟨⟩
          exact (Kept.new op.incarnation).of_sources rfl
        · exact h
        · rintro st ⟨⟩
          exact (h old hs).of_sources rfl
    | streamDelete =>
      dsimp only
      unfold cellStreamDelete
      cases hs : c.stream with
      | none =>
        intro st hst
        cases hst
      | some old =>
        dsimp only
        split_ifs
        · exact h
        all_goals
          intro st hst
          cases hst
    | sourceSet =>
      dsimp only
      unfold cellSourceSet
      split_ifs
      · exact h
      · exact h
      · have hfrom : Kept P (c.stream.getD (Stream.new op.incarnation)) := by
          cases hs : c.stream with
          | none => exact Kept.new op.incarnation
          | some old => exact h old hs
        cases ht : sourceTarget env (c.stream.getD (Stream.new op.incarnation)) op with
        | none => exact h
        | some st' =>
          rintro st ⟨⟩
          exact setSourceIn_kept (sourceTarget_kept hfrom ht) (hop hk)
    | sourceDelete =>
      dsimp only
      unfold cellSourceDelete
      cases hs : c.stream with
      | none =>
        intro st hst
        rw [hs] at hst
        cases hst
      | some old =>
        dsimp only
        split_ifs
        · exact h
        · rintro st ⟨⟩
          exact ((h old hs).remove op.id).of_sources rfl
  · rw [GraphReplica.apply_of_not_accepts ha]
    exact h

structure Good (Q : Place × Str → Prop) (reg : Registry) : Prop where
  inv : GraphCell.Inv reg
  kept : ∀ application name, ∀ st ∈ (cell reg application name).stream,
    Kept (fun id hash => Q ((application, name, id), hash)) st

variable {Q : Place × Str → Prop} {reg reg' : Registry} {application name : Str}
  {g : Cell → Cell}

theorem Good.effect (h : Good Q reg) (he : Effect application name reg reg' g)
    (hnew : ∀ st ∈ (g (cell reg application name)).stream,
      Kept (fun id hash => Q ((application, name, id), hash)) st) : Good Q reg' := by
  refine ⟨he.inv h.inv, fun a m st hst => ?_⟩
  by_cases hsame : name = m ∧ application = a
  · obtain ⟨rfl, rfl⟩ := hsame
    rw [he.own_stream h.inv] at hst
    exact hnew st hst
  · rw [cell, he.lookup_other h.inv hsame] at hst
    exact h.kept a m st hst

theorem Good.apply (h : Good Q reg) (hd : op.Decoded) (hop : ∀ c ∈ carried op, Q c) :
    Good Q (MediaGraph.apply env reg op).1 := by
  obtain ⟨g, he, hg⟩ := @apply_does reg env op h.inv hd
  refine h.effect he ?_
  rw [hg]
  refine cell_kept (h.kept op.application op.name) fun hk hset => hop _ ?_
  rw [carried, if_pos ⟨hk, hset⟩]
  rfl

theorem mem_allSources {p : Entry × Source} :
    p ∈ allSources reg ↔ p.1 ∈ reg.entries ∧ p.2 ∈ p.1.stream.sources := by
  obtain ⟨e, s⟩ := p
  simp [allSources]

theorem mem_held {c : Place × Str} :
    c ∈ held reg ↔ ∃ e ∈ reg.entries, ∃ s ∈ e.stream.sources, s.keySet = true ∧
      ((e.application, e.name, s.id), s.keyHash) = c := by
  simp only [held, List.mem_map, List.mem_filter, mem_allSources, Prod.exists]
  constructor
  · rintro ⟨e, s, ⟨⟨he, hs⟩, hset⟩, heq⟩
    exact ⟨e, he, s, hs, hset, heq⟩
  · rintro ⟨e, he, s, hs, hset, heq⟩
    exact ⟨e, s, ⟨⟨he, hs⟩, hset⟩, heq⟩

theorem cell_of_mem (h : GraphCell.Inv reg) {e : Entry} (he : e ∈ reg.entries) :
    (cell reg e.application e.name).stream = some e.stream := by
  rw [cell, h.lookup_mem he]
  rfl

theorem Good.held_sub (h : Good Q reg) : ∀ c ∈ held reg, Q c := by
  intro c hc
  obtain ⟨e, he, s, hs, hset, rfl⟩ := mem_held.mp hc
  exact (h.kept _ _ e.stream (cell_of_mem h.inv he)).keys s hs hset

theorem Good.mono {Q' : Place × Str → Prop} (h : Good Q reg) (hsub : ∀ c ∈ held reg, Q' c) :
    Good Q' reg := by
  refine ⟨h.inv, fun a m st hst => ⟨(h.kept a m st hst).ids, fun s hs hset => hsub _ ?_⟩⟩
  obtain ⟨e, hl, rfl⟩ := Option.map_eq_some_iff.mp hst
  obtain ⟨he, rfl, rfl⟩ := lookup_some hl
  exact mem_held.mpr ⟨e, he, s, hs, hset, rfl⟩

theorem Good.empty : Good Q Registry.empty :=
  ⟨empty_inv, fun _ _ _ hst => by cases hst⟩

/-- The entries' own streams, without the lookup. -/
theorem Good.entry (h : Good Q reg) {e : Entry} (he : e ∈ reg.entries) :
    Kept (fun id hash => Q ((e.application, e.name, id), hash)) e.stream :=
  h.kept _ _ e.stream (cell_of_mem h.inv he)

theorem places_nodup (h : Good Q reg) :
    ((allSources reg).map fun p => (p.1.application, p.1.name, p.2.id)).Nodup := by
  rw [allSources, List.map_flatMap, List.nodup_flatMap]
  constructor
  · intro e he
    rw [List.map_map]
    have hids := (h.entry he).ids
    have hmap : (fun p : Entry × Source => (p.1.application, p.1.name, p.2.id)) ∘ (fun s => (e, s)) =
        (fun id => (e.application, e.name, id)) ∘ Source.id := rfl
    rw [hmap, ← List.map_map]
    exact hids.map fun a b hab => by simpa using hab
  · have hentries : reg.entries.Pairwise fun a b =>
        (a.application, a.name) ≠ (b.application, b.name) := by
      have hid := h.inv.identities
      rwa [List.Nodup, List.pairwise_map] at hid
    refine hentries.imp ?_
    intro a b hne
    simp only [Function.onFun, List.disjoint_left, List.map_map, List.mem_map, Function.comp_apply]
    rintro x ⟨s, _, rfl⟩ ⟨t, _, ht⟩
    simp only [Prod.mk.injEq] at ht
    exact hne (by rw [ht.1, ht.2.1])

theorem Good.oneSource (h : Good Q reg)
    (hone : ∀ a ∈ held reg, ∀ b ∈ held reg, a.2 = b.2 → a.1 = b.1) : OneSource reg := by
  have hplaces := places_nodup h
  have hsource : ∀ p ∈ allSources reg, p.2.keySet = true →
      ((p.1.application, p.1.name, p.2.id), p.2.keyHash) ∈ held reg := by
    intro p hp hset
    exact mem_held.mpr ⟨p.1, (mem_allSources.mp hp).1, p.2, (mem_allSources.mp hp).2, hset, rfl⟩
  constructor
  · have hfirst : ((held reg).map Prod.fst).Nodup := by
      rw [held, List.map_map]
      exact (List.Sublist.map _ List.filter_sublist).nodup hplaces
    have hnodup := List.Nodup.of_map _ hfirst
    refine hnodup.map_on ?_
    intro a ha b hb hab
    exact Prod.ext (hone a ha b hb hab) hab
  · intro hash p hp hm
    have hmatch : ∀ {x : Entry × Source}, keyMatches hash x.2 = true →
        x.2.keySet = true ∧ x.2.keyHash = hash := by
      intro x hx
      simpa [keyMatches] using hx
    cases hf : sourceByKey reg hash with
    | none =>
      have := List.find?_eq_none.mp hf p hp
      exact absurd hm this
    | some q =>
      have hq := List.mem_of_find?_eq_some hf
      have hmq : keyMatches hash q.2 = true :=
        List.find?_some (p := fun x : Entry × Source => keyMatches hash x.2) hf
      have hplace := hone _ (hsource q hq (hmatch hmq).1) _ (hsource p hp (hmatch hm).1)
        ((hmatch hmq).2.trans (hmatch hm).2.symm)
      rw [List.inj_on_of_nodup_map hplaces hq hp hplace]

inductive Serves (reg : Registry) : Served → Prop where
  | nothing (reply : Reply) (fresh : ℕ) : reg.fresh ≤ fresh →
      Serves reg ⟨reply, { reg with fresh := fresh }, none⟩
  | sends (reply : Reply) (reg' : Registry) (op : Op) (g : Cell → Cell) :
      Effect op.application op.name reg reg' g →
      (∀ P : Str → Str → Prop, (∀ st ∈ (cell reg op.application op.name).stream, Kept P st) →
        (op.kind = .sourceSet → op.keySet = true → P op.id op.keyHash) →
        ∀ st ∈ (g (cell reg op.application op.name)).stream, Kept P st) →
      Serves reg ⟨reply, reg', some op⟩

theorem Serves.good {served : Served} (hs : Serves reg served) (h : Good Q reg)
    (hsent : ∀ op ∈ served.sent, ∀ c ∈ carried op, Q c) : Good Q served.registry := by
  cases hs with
  | nothing reply fresh hfresh =>
    exact h.effect (Effect.keep fresh hfresh : Effect [] [] reg _ id) (h.kept [] [])
  | sends reply reg' op g he hkept =>
    refine h.effect he (hkept _ (h.kept _ _) fun hk hset => hsent op rfl _ ?_)
    rw [carried, if_pos ⟨hk, hset⟩]
    rfl

theorem serves_same (reg : Registry) (reply : Reply) : Serves reg ⟨reply, reg, none⟩ :=
  .nothing reply reg.fresh (Nat.le_refl _)

theorem serves_change {e : Entry} (hl : registryStream reg application name = some e)
    (reply : Reply) {f : Stream → Stream} (happ : op.application = application)
    (hname : op.name = name)
    (hf : ∀ P : Str → Str → Prop, Kept P e.stream →
      (op.kind = .sourceSet → op.keySet = true → P op.id op.keyHash) → Kept P (f e.stream)) :
    Serves reg ⟨reply, update reg e.handle f, some op⟩ := by
  subst happ hname
  refine .sends reply _ op _ (Effect.change e f hl) fun P hkept hop => ?_
  rw [cell_some hl] at hkept ⊢
  rintro st ⟨⟩
  exact hf P (hkept e.stream rfl) hop

variable {apiEnv : ApiEnv} {crypto : Crypto}

theorem graphSend_some {sent : Op} (h : graphSend apiEnv op = some sent) : sent = op := by
  unfold graphSend at h
  split_ifs at h
  exact (Option.some.inj h).symm

theorem graphStreamSet_some (h : graphStreamSet apiEnv application name st = some op) :
    op = streamOp application name st := by
  unfold graphStreamSet at h
  split_ifs at h
  exact graphSend_some h

theorem graphSourceSet_some {path caFile : Str}
    (h : graphSourceSet apiEnv application name st s path caFile = some op) :
    op = sourceOp application name st s path caFile := by
  unfold graphSourceSet at h
  split_ifs at h
  exact graphSend_some h

theorem streamOpen_serves (h : GraphCell.Inv reg) (mode : Option ℕ) :
    Serves reg (streamOpen apiEnv reg application name mode) := by
  unfold streamOpen
  cases hl : registryStream reg application name with
  | some e =>
    have hcreate : streamCreate apiEnv.graph reg application name = some (e, reg) ∨
        streamCreate apiEnv.graph reg application name = none := by
      unfold streamCreate
      split_ifs
      · exact Or.inr rfl
      · rw [hl]
        exact Or.inl rfl
    rcases hcreate with hc | hc
    · rw [hc]
      simp only [Option.isSome_some, Bool.true_eq_false, false_and, if_false, if_true]
      split_ifs
      · exact serves_same reg _
      all_goals
        split
        · exact serves_same reg _
        · next hsent =>
          have hop := graphStreamSet_some hsent
          refine serves_change hl _ (by rw [hop]; rfl) (by rw [hop]; rfl) fun P hk _ => ?_
          exact hk.of_sources rfl
    · rw [hc]
      simp only [Option.isSome_some, Bool.true_eq_false, false_and, if_false]
      exact serves_same reg _
  | none =>
    have hcreate : streamCreate apiEnv.graph reg application name =
          some (⟨reg.fresh, application, name, Stream.new apiEnv.graph.incarnation⟩,
            withNew reg application name (Stream.new apiEnv.graph.incarnation)) ∨
        streamCreate apiEnv.graph reg application name = none := by
      unfold streamCreate
      split_ifs with hbad
      · exact Or.inr rfl
      · rw [hl]
        unfold streamStage
        dsimp only
        rw [if_neg hbad]
        split_ifs
        · exact Or.inr rfl
        · exact Or.inl rfl
    have hback : ∀ reply, Serves reg ⟨reply, (streamRemove apiEnv.graph
        (withNew reg application name (Stream.new apiEnv.graph.incarnation)) reg.fresh false).1,
        none⟩ := by
      intro reply
      rw [discard_withNew h]
      exact .nothing reply _ (Nat.le_succ _)
    simp only [Option.isSome_none, true_and]
    by_cases havail : apiEnv.available = false
    · rw [if_pos havail]
      exact serves_same reg _
    · rw [if_neg havail]
      rcases hcreate with hc | hc
      · rw [hc]
        simp only [Bool.false_eq_true, if_false, or_true, if_true]
        by_cases hclaims : apiEnv.claims = false
        · rw [if_pos hclaims]
          exact hback _
        · rw [if_neg hclaims]
          split
          · exact hback _
          · next hsent =>
            have hop := graphStreamSet_some hsent
            rw [update_withNew h]
            subst hop
            refine .sends _ _ _ _ (Effect.create _ hl) fun P _ _ => ?_
            rintro st ⟨⟩
            exact (Kept.new apiEnv.graph.incarnation).of_sources rfl
      · rw [hc]
        exact serves_same reg _

theorem streamPost_serves (h : GraphCell.Inv reg) (request : StreamRequest) :
    Serves reg (streamPost apiEnv reg request) := by
  unfold streamPost
  split_ifs
  · exact serves_same reg _
  · split
    · split_ifs
      · exact serves_same reg _
      · exact serves_same reg _
      · split
        · exact streamOpen_serves h none
        · split
          · exact serves_same reg _
          · split_ifs
            · exact serves_same reg _
            · exact streamOpen_serves h _
    · exact serves_same reg _

structure Adding (crypto : Crypto) (apiEnv : ApiEnv) (reg : Registry) (application name : Str)
    (request : SourceRequest) (e : Entry) (id : Str) (key : Option Key) : Prop where
  here : registryStream reg application name = some e
  named : request.id = some id
  absent : sourceFind e.stream id = none
  chosen : chooseKey crypto apiEnv request (requestType request) id = .ok key
  unheld : ∀ k ∈ key, sourceByKey reg k.hash = none

variable {request : SourceRequest} {e : Entry} {id : Str} {key : Option Key}

inductive Posted (crypto : Crypto) (apiEnv : ApiEnv) (reg : Registry) (application name : Str)
    (request : SourceRequest) : Served → Prop where
  | same (reply : Reply) : Posted crypto apiEnv reg application name request ⟨reply, reg, none⟩
  | opened (e : Entry) (id : Str) (priority : ℕ) (path caFile : Str) (key : Option Key) :
      Adding crypto apiEnv reg application name request e id key →
      Posted crypto apiEnv reg application name request
        (sourceOpenAs apiEnv reg e id (requestType request) priority path caFile key)

theorem sourceAdd_posted (hl : registryStream reg application name = some e)
    (hid : request.id = some id) (priority : ℕ) :
    Posted crypto apiEnv reg application name request
      (sourceAdd crypto apiEnv reg e request id (requestType request) priority) := by
  unfold sourceAdd
  cases hf : sourceFind e.stream id with
  | some s => exact .same _
  | none =>
    dsimp only
    cases hp : sourcePaths request (requestType request) with
    | error error => exact .same _
    | ok paths =>
      dsimp only
      by_cases hlong : paths.1.length > maxPath ∨ paths.2.length > maxPath
      · rw [if_pos hlong]
        exact .same _
      · rw [if_neg hlong]
        by_cases havail : apiEnv.available = false
        · rw [if_pos havail]
          exact .same _
        · rw [if_neg havail]
          cases hc : chooseKey crypto apiEnv request (requestType request) id with
          | error error => exact .same _
          | ok key =>
            dsimp only
            by_cases hused : (key.any fun k => (sourceByKey reg k.hash).isSome) = true
            · rw [if_pos hused]
              exact .same _
            · rw [if_neg hused]
              refine .opened e id priority _ _ key ⟨hl, hid, hf, hc, ?_⟩
              rintro k ⟨⟩
              simpa using hused

theorem sourcePost_posted :
    Posted crypto apiEnv reg application name request
      (sourcePost crypto apiEnv reg application name request) := by
  have htype : request.type.elim typeSrt sourceType = requestType request := rfl
  unfold sourcePost
  cases hl : registryStream reg application name with
  | none => exact .same _
  | some e =>
    dsimp only
    by_cases hfits : request.fits = false
    · rw [if_pos hfits]
      exact .same _
    · rw [if_neg hfits]
      cases hid : request.id with
      | none => exact .same _
      | some id =>
        dsimp only
        split_ifs
        · exact .same _
        · exact .same _
        · exact .same _
        · rw [htype]
          cases request.priority with
          | none => exact sourceAdd_posted hl hid 0
          | some text =>
            dsimp only
            cases atoi text with
            | none => exact .same _
            | some priority =>
              dsimp only
              split_ifs
              · exact .same _
              · exact sourceAdd_posted hl hid priority

theorem sourceOpenAs_cases {type priority : ℕ} {path caFile : Str} :
    (∃ reply, sourceOpenAs apiEnv reg e id type priority path caFile key = ⟨reply, reg, none⟩) ∨
    ∃ reply, sourceOpenAs apiEnv reg e id type priority path caFile key =
      ⟨reply,
        update reg e.handle fun old =>
          touchStream apiEnv (addSource { newSource apiEnv (Source.new id type priority) key with
            path := path, caFile := caFile } old),
        some (sourceOp e.application e.name (touchStream apiEnv e.stream)
          (newSource apiEnv (Source.new id type priority) key) path caFile)⟩ := by
  unfold sourceOpenAs
  dsimp only
  cases ho : sourceOpen apiEnv.graph (sourceOp e.application e.name e.stream
      (Source.new id type priority) path caFile) with
  | none =>
    dsimp only
    split_ifs
    · exact Or.inl ⟨_, rfl⟩
    · exact Or.inl ⟨_, rfl⟩
  | some opened =>
    have hopened : opened = Source.new id type priority := by
      unfold sourceOpen at ho
      split_ifs at ho
      exact (Option.some.inj ho).symm
    subst hopened
    dsimp only
    cases hg : graphSourceSet apiEnv e.application e.name (touchStream apiEnv e.stream)
        (newSource apiEnv (Source.new id type priority) key) path caFile with
    | none => exact Or.inl ⟨_, rfl⟩
    | some op =>
      rw [graphSourceSet_some hg]
      exact Or.inr ⟨_, rfl⟩

theorem newSource_id {type priority : ℕ} :
    (newSource apiEnv (Source.new id type priority) key).id = id := by
  cases key <;> rfl

theorem sourcePost_serves :
    Serves reg (sourcePost crypto apiEnv reg application name request) := by
  have hposted := @sourcePost_posted reg application name apiEnv crypto request
  generalize sourcePost crypto apiEnv reg application name request = served at hposted ⊢
  cases hposted with
  | same reply => exact serves_same reg reply
  | opened e id priority path caFile key hadding =>
    obtain ⟨_, happ, hname⟩ := lookup_some hadding.here
    rcases @sourceOpenAs_cases reg apiEnv e id key (requestType request) priority path caFile with
      ⟨reply, heq⟩ | ⟨reply, heq⟩
    · rw [heq]
      exact serves_same reg reply
    · rw [heq]
      refine serves_change hadding.here reply happ hname fun P hk hop => ?_
      refine Kept.of_sources (hk.add ?_ ?_) rfl
      · exact (@newSource_id apiEnv id key (requestType request) priority).symm ▸ hadding.absent
      · exact hop rfl

structure NewKey (crypto : Crypto) (apiEnv : ApiEnv) (reg : Registry) (application name : Str)
    (request : SourceRequest) (op : Op) (id : Str) (key : Key) : Prop where
  adding : ∃ e, Adding crypto apiEnv reg application name request e id (some key)
  carries : carried op = some ((application, name, id), key.hash)
  hash : op.keyHash = key.hash
  nonce : op.keyNonce = key.nonce.getD []

theorem sourcePost_key {op : Op}
    (hsent : (sourcePost crypto apiEnv reg application name request).sent = some op)
    (hset : op.keySet = true) :
    ∃ id key, NewKey crypto apiEnv reg application name request op id key := by
  have hposted := @sourcePost_posted reg application name apiEnv crypto request
  generalize sourcePost crypto apiEnv reg application name request = served at hposted hsent
  cases hposted with
  | same reply => cases hsent
  | opened e id priority path caFile key hadding =>
    obtain ⟨_, happ, hname⟩ := lookup_some hadding.here
    rcases @sourceOpenAs_cases reg apiEnv e id key (requestType request) priority path caFile with
      ⟨reply, heq⟩ | ⟨reply, heq⟩
    · rw [heq] at hsent
      cases hsent
    · rw [heq] at hsent
      obtain rfl := Option.some.inj hsent
      cases key with
      | none => cases hset
      | some key =>
        refine ⟨id, key, ⟨e, hadding⟩, ?_, rfl, rfl⟩
        rw [← happ, ← hname]
        rfl

theorem sourceChange_serves (hl : registryStream reg application name = some e)
    (hf : sourceFind e.stream id = some s) (f : Source → Source) (hid : ∀ x, (f x).id = x.id)
    (issued : Option (Str × Str)) :
    Serves reg (sourceChange apiEnv reg e s f issued) := by
  obtain ⟨_, happ, hname⟩ := lookup_some hl
  obtain ⟨hmem, hsid⟩ := sourceFind_some hf
  unfold sourceChange
  dsimp only
  cases hg : graphSourceSet apiEnv e.application e.name (touchStream apiEnv e.stream)
      (touchSource apiEnv (f s)) s.path s.caFile with
  | none => exact serves_same reg _
  | some op =>
    rw [graphSourceSet_some hg]
    refine serves_change hl _ happ hname fun P hk hop => ?_
    have hfid : (f s).id = s.id := hid s
    refine @Kept.assign P e.stream _ hk s.id (fun x => touchSource apiEnv (f x)) hid ?_ rfl
    intro x hx hxid hset
    -- names are unique, so the source changed is the one found
    have hxs : x = s := List.inj_on_of_nodup_map hk.ids hx hmem hxid
    subst hxs
    exact hfid ▸ hop rfl hset

theorem sourceChange_sent {f : Source → Source} {issued : Option (Str × Str)}
    (hsent : (sourceChange apiEnv reg e s f issued).sent = some op) :
    op = sourceOp e.application e.name (touchStream apiEnv e.stream) (touchSource apiEnv (f s))
      s.path s.caFile := by
  unfold sourceChange at hsent
  dsimp only at hsent
  cases hg : graphSourceSet apiEnv e.application e.name (touchStream apiEnv e.stream)
      (touchSource apiEnv (f s)) s.path s.caFile with
  | none =>
    rw [hg] at hsent
    cases hsent
  | some sent =>
    rw [hg] at hsent
    obtain rfl := Option.some.inj hsent
    exact graphSourceSet_some hg

theorem keyDerive_nonce {master nonce : Str} {key : Key}
    (h : keyDerive crypto master id nonce = some key) : key.nonce = some nonce := by
  unfold keyDerive at h
  split_ifs at h
  obtain ⟨mac, _, rfl⟩ := Option.map_eq_some_iff.mp h
  rfl

theorem drawKey_ok {master : Str} {nonces : List Str} {key : Key}
    (h : drawKey crypto reg master id nonces = .ok key) :
    ∃ nonce ∈ nonces, keyDerive crypto master id nonce = some key := by
  induction nonces with
  | nil => cases h
  | cons nonce rest ih =>
    unfold drawKey at h
    cases hk : keyDerive crypto master id nonce with
    | none =>
      rw [hk] at h
      cases h
    | some drawn =>
      rw [hk] at h
      dsimp only at h
      split_ifs at h
      · obtain ⟨later, hmem, hlater⟩ := ih h
        exact ⟨later, List.mem_cons_of_mem _ hmem, hlater⟩
      · cases h
        exact ⟨nonce, List.mem_cons_self, hk⟩

theorem sourceRotate_cases :
    (∃ reply, sourceRotate crypto apiEnv reg application name id = ⟨reply, reg, none⟩) ∨
    ∃ e s key issued, registryStream reg application name = some e ∧
      sourceFind e.stream id = some s ∧
      (∃ nonce ∈ apiEnv.nonces, keyDerive crypto apiEnv.master id nonce = some key) ∧
      sourceRotate crypto apiEnv reg application name id =
        sourceChange apiEnv reg e s (setKey key) issued := by
  unfold sourceRotate
  cases hl : registryStream reg application name with
  | none => exact Or.inl ⟨_, rfl⟩
  | some e =>
    dsimp only
    cases hf : sourceFind e.stream id with
    | none => exact Or.inl ⟨_, rfl⟩
    | some s =>
      dsimp only
      by_cases hkeyed : keyed s.type = false
      · rw [if_pos hkeyed]
        exact Or.inl ⟨_, rfl⟩
      · rw [if_neg hkeyed]
        cases hd : drawKey crypto reg apiEnv.master s.id apiEnv.nonces with
        | error error => exact Or.inl ⟨_, rfl⟩
        | ok key =>
          have hdrawn := drawKey_ok hd
          rw [(sourceFind_some hf).2] at hdrawn
          exact Or.inr ⟨e, s, key, _, rfl, hf, hdrawn, rfl⟩

theorem sourceRotate_serves :
    Serves reg (sourceRotate crypto apiEnv reg application name id) := by
  rcases @sourceRotate_cases reg application name apiEnv crypto id with
    ⟨reply, heq⟩ | ⟨e, s, key, issued, hl, hf, _, heq⟩
  · rw [heq]
    exact serves_same reg reply
  · rw [heq]
    exact sourceChange_serves hl hf (setKey key) (fun _ => rfl) issued

theorem sourceRotate_key
    (hsent : (sourceRotate crypto apiEnv reg application name id).sent = some op) :
    ∃ nonce ∈ apiEnv.nonces, ∃ key, keyDerive crypto apiEnv.master id nonce = some key ∧
      carried op = some ((application, name, id), key.hash) ∧ op.keyHash = key.hash ∧
      op.keyNonce = nonce ∧ op.keySet = true := by
  rcases @sourceRotate_cases reg application name apiEnv crypto id with
    ⟨reply, heq⟩ | ⟨e, s, key, issued, hl, hf, ⟨nonce, hmem, hderive⟩, heq⟩
  · rw [heq] at hsent
    cases hsent
  · rw [heq] at hsent
    obtain ⟨_, happ, hname⟩ := lookup_some hl
    have hnonce := keyDerive_nonce hderive
    rw [sourceChange_sent hsent]
    refine ⟨nonce, hmem, key, hderive, ?_, rfl, ?_, rfl⟩
    · rw [← happ, ← hname, ← (sourceFind_some hf).2]
      rfl
    · change key.nonce.getD s.keyNonce = nonce
      rw [hnonce]
      rfl

theorem sourceSetEnabled_cases (enabled : Bool) :
    (∃ reply, sourceSetEnabled apiEnv reg application name id enabled = ⟨reply, reg, none⟩) ∨
    ∃ e s, registryStream reg application name = some e ∧ sourceFind e.stream id = some s ∧
      sourceSetEnabled apiEnv reg application name id enabled =
        sourceChange apiEnv reg e s (fun s => { s with enabled := enabled }) none := by
  unfold sourceSetEnabled
  cases hl : registryStream reg application name with
  | none => exact Or.inl ⟨_, rfl⟩
  | some e =>
    dsimp only
    cases hf : sourceFind e.stream id with
    | none => exact Or.inl ⟨_, rfl⟩
    | some s => exact Or.inr ⟨e, s, rfl, hf, rfl⟩

theorem sourceSetEnabled_serves (enabled : Bool) :
    Serves reg (sourceSetEnabled apiEnv reg application name id enabled) := by
  rcases @sourceSetEnabled_cases reg application name apiEnv id enabled with
    ⟨reply, heq⟩ | ⟨e, s, hl, hf, heq⟩
  · rw [heq]
    exact serves_same reg reply
  · rw [heq]
    exact sourceChange_serves hl hf (fun s => { s with enabled := enabled }) (fun _ => rfl) none

theorem sourceSetEnabled_key {enabled : Bool} {c : Place × Str}
    (hsent : (sourceSetEnabled apiEnv reg application name id enabled).sent = some op)
    (hc : carried op = some c) : c ∈ held reg := by
  rcases @sourceSetEnabled_cases reg application name apiEnv id enabled with
    ⟨reply, heq⟩ | ⟨e, s, hl, hf, heq⟩
  · rw [heq] at hsent
    cases hsent
  · rw [heq] at hsent
    rw [sourceChange_sent hsent, carried] at hc
    split_ifs at hc with hset
    obtain rfl := Option.some.inj hc
    exact mem_held.mpr ⟨e, (lookup_some hl).1, s, (sourceFind_some hf).1, hset.2, rfl⟩

theorem sourceDelete_cases :
    (∃ reply, SourceRequests.sourceDelete apiEnv reg application name id = ⟨reply, reg, none⟩) ∨
    ∃ e reply, registryStream reg application name = some e ∧
      SourceRequests.sourceDelete apiEnv reg application name id =
        ⟨reply, update reg e.handle fun old => touchStream apiEnv (removeSource id old),
          some (sourceDeleteOp application name e.stream id
            (touchStream apiEnv e.stream).revision)⟩ := by
  unfold SourceRequests.sourceDelete
  cases hl : registryStream reg application name with
  | none => exact Or.inl ⟨_, rfl⟩
  | some e =>
    dsimp only
    cases sourceFind e.stream id with
    | none => exact Or.inl ⟨_, rfl⟩
    | some s =>
      dsimp only
      cases hg : graphSend apiEnv (sourceDeleteOp application name e.stream id
          (touchStream apiEnv e.stream).revision) with
      | none => exact Or.inl ⟨_, rfl⟩
      | some op =>
        rw [graphSend_some hg]
        exact Or.inr ⟨e, _, rfl, rfl⟩

theorem sourceDelete_serves :
    Serves reg (SourceRequests.sourceDelete apiEnv reg application name id) := by
  rcases @sourceDelete_cases reg application name apiEnv id with ⟨reply, heq⟩ | ⟨e, reply, hl, heq⟩
  · rw [heq]
    exact serves_same reg reply
  · rw [heq]
    exact serves_change hl reply rfl rfl fun P hk _ => (hk.remove id).of_sources rfl

theorem sourceDelete_key
    (hsent : (SourceRequests.sourceDelete apiEnv reg application name id).sent = some op) :
    carried op = none := by
  rcases @sourceDelete_cases reg application name apiEnv id with ⟨reply, heq⟩ | ⟨e, reply, hl, heq⟩
  · rw [heq] at hsent
    cases hsent
  · rw [heq] at hsent
    obtain rfl := Option.some.inj hsent
    rfl

theorem streamOpen_key {mode : Option ℕ}
    (hsent : (streamOpen apiEnv reg application name mode).sent = some op) :
    carried op = none := by
  unfold streamOpen at hsent
  dsimp only at hsent
  split at hsent
  · cases hsent
  · split at hsent
    · cases hsent
    · split at hsent
      · cases hsent
      · split at hsent
        · cases hsent
        · next hset =>
          obtain rfl := Option.some.inj hsent
          rw [graphStreamSet_some hset]
          rfl

theorem streamPost_key {request : StreamRequest}
    (hsent : (streamPost apiEnv reg request).sent = some op) : carried op = none := by
  unfold streamPost at hsent
  split at hsent
  · cases hsent
  · split at hsent
    · split at hsent
      · cases hsent
      · split at hsent
        · cases hsent
        · split at hsent
          · exact streamOpen_key hsent
          · split at hsent
            · cases hsent
            · split at hsent
              · cases hsent
              · exact streamOpen_key hsent
    · cases hsent

structure Inv (issues : List (Str × Str)) (w : World n) : Prop where
  good : ∀ i, Good (fun c => c ∈ w.held) (w.registries i)
  one : ∀ a ∈ w.held, ∀ b ∈ w.held, a.2 = b.2 → a.1 = b.1
  known : ∀ c ∈ w.held, c.2 ∈ w.given ∨ c.2 ∈ w.issued.map Prod.snd
  issued : ∀ p ∈ w.issued, p ∈ issues

variable {w w' : World n} {issues : List (Str × Str)} {worker : Fin n} {served : Served}

theorem mem_worldHeld {c : Place × Str} :
    c ∈ w.held ↔ (∃ i, c ∈ held (w.registries i)) ∨ ∃ m ∈ w.flight, carried m.2 = some c := by
  simp [World.held]

theorem initial_inv : Inv issues (initial n) := by
  have hnone : ∀ c, c ∉ (initial n).held := by
    intro c hc
    rcases mem_worldHeld.mp hc with ⟨i, hi⟩ | ⟨m, hm, _⟩
    · cases hi
    · cases hm
  constructor
  · exact fun i => Good.empty
  · exact fun a ha => absurd ha (hnone a)
  · exact fun c hc => absurd hc (hnone c)
  · intro p hp
    cases hp

/-- Everything held afterwards was held before, but for one key that is free. -/
theorem Inv.grow (h : Inv issues w) (new : Option (Place × Str))
    (hgood : ∀ i, Good (fun c => c ∈ w.held ∨ c ∈ new) (w'.registries i))
    (hflight : ∀ m ∈ w'.flight, ∀ c ∈ carried m.2, c ∈ w.held ∨ c ∈ new)
    (hfree : ∀ c ∈ new, w.Free c.1 c.2)
    (hgiven : w.given ⊆ w'.given) (hissued : w.issued ⊆ w'.issued)
    (hknown : ∀ c ∈ new, c.2 ∈ w'.given ∨ c.2 ∈ w'.issued.map Prod.snd)
    (hall : ∀ p ∈ w'.issued, p ∈ issues) : Inv issues w' := by
  have hsub : ∀ c ∈ w'.held, c ∈ w.held ∨ c ∈ new := by
    intro c hc
    rcases mem_worldHeld.mp hc with ⟨i, hi⟩ | ⟨m, hm, hcm⟩
    · exact (hgood i).held_sub c hi
    · exact hflight m hm c hcm
  constructor
  · exact fun i => (hgood i).mono fun c hc => mem_worldHeld.mpr (Or.inl ⟨i, hc⟩)
  · intro a ha b hb hab
    rcases hsub a ha with ha | ha
    · rcases hsub b hb with hb | hb
      · exact h.one a ha b hb hab
      · exact hfree b hb a ha hab
    · rcases hsub b hb with hb | hb
      · exact (hfree a ha b hb hab.symm).symm
      · obtain rfl : a = b := Option.some.inj (ha.symm.trans hb)
        rfl
  · intro c hc
    rcases hsub c hc with hc | hc
    · rcases h.known c hc with hk | hk
      · exact Or.inl (hgiven hk)
      · obtain ⟨p, hp, hpc⟩ := List.mem_map.mp hk
        exact Or.inr (List.mem_map.mpr ⟨p, hissued hp, hpc⟩)
    · exact hknown c hc
  · exact hall

theorem Inv.serve (h : Inv issues w) (hs : Serves (w.registries worker) served)
    (hregs : w'.registries = (w.serve worker served).registries)
    (hflight : w'.flight = (w.serve worker served).flight)
    (hfree : ∀ c ∈ served.sent.bind carried, w.Free c.1 c.2)
    (hgiven : w.given ⊆ w'.given) (hissued : w.issued ⊆ w'.issued)
    (hknown : ∀ c ∈ served.sent.bind carried, c.2 ∈ w'.given ∨ c.2 ∈ w'.issued.map Prod.snd)
    (hall : ∀ p ∈ w'.issued, p ∈ issues) : Inv issues w' := by
  have hsent : ∀ op ∈ served.sent, ∀ c ∈ carried op, c ∈ served.sent.bind carried := by
    intro op hop c hc
    rw [Option.mem_def.mp hop]
    exact hc
  have hold : ∀ i, Good (fun c => c ∈ w.held ∨ c ∈ served.sent.bind carried)
      (w.registries i) := by
    intro i
    exact (h.good i).mono fun c hc => Or.inl (mem_worldHeld.mpr (Or.inl ⟨i, hc⟩))
  refine h.grow _ (fun i => ?_) (fun m hm c hc => ?_) hfree hgiven hissued hknown hall
  · rw [hregs, World.serve]
    dsimp only
    by_cases hi : i = worker
    · subst hi
      rw [Function.update_self]
      exact hs.good (hold i) fun op hop c hc => Or.inr (hsent op hop c hc)
    · rw [Function.update_of_ne hi]
      exact hold i
  · rw [hflight, World.serve] at hm
    rcases List.mem_append.mp hm with hm | hm
    · exact Or.inl (mem_worldHeld.mpr (Or.inr ⟨m, hm, hc⟩))
    · obtain ⟨op, hop, hm⟩ := List.mem_flatMap.mp hm
      obtain ⟨i, _, rfl⟩ := List.mem_map.mp hm
      exact Or.inr (hsent op (by simpa using hop) c hc)

theorem Inv.serve_keyless (h : Inv issues w) (hs : Serves (w.registries worker) served)
    (hkey : ∀ c ∈ served.sent.bind carried, c ∈ w.held) : Inv issues (w.serve worker served) := by
  refine h.serve hs rfl rfl ?_ (fun _ hx => hx) (fun _ hx => hx) ?_ h.issued
  · intro c hc d hd hdc
    exact h.one d hd c (hkey c hc) hdc
  · intro c hc
    exact h.known c (hkey c hc)

theorem decodes_decoded (h : decodes op = true) : op.Decoded := by
  obtain ⟨h1, h2, h3, h4, h5, h6, h7, h8, h9, h10⟩ := of_decide_eq_true h
  exact ⟨h1, h2, h3, h4, h5, h6, h7, h8, h9, h10⟩

theorem Inv.deliver (h : Inv issues w) (index : ℕ) (again : Bool) (env : Env) :
    Inv issues (w.deliver index again env) := by
  unfold World.deliver
  cases hm : w.flight[index]? with
  | none => exact h
  | some m =>
    obtain ⟨worker, op⟩ := m
    have hmem : (worker, op) ∈ w.flight := List.mem_of_getElem? hm
    have hold : ∀ i, Good (fun c => c ∈ w.held ∨ c ∈ (none : Option (Place × Str)))
        (w.registries i) := by
      intro i
      exact (h.good i).mono fun c hc => Or.inl (mem_worldHeld.mpr (Or.inl ⟨i, hc⟩))
    refine h.grow none (fun i => ?_) (fun m hm c hc => ?_) (fun _ hc => by cases hc) (fun _ hx => hx)
      (fun _ hx => hx) (fun _ hc => by cases hc) h.issued
    · dsimp only
      by_cases hd : decodes op = true
      · rw [if_pos hd]
        by_cases hi : i = worker
        · subst hi
          rw [Function.update_self]
          exact (hold i).apply (decodes_decoded hd) fun c hc =>
            Or.inl (mem_worldHeld.mpr (Or.inr ⟨_, hmem, hc⟩))
        · rw [Function.update_of_ne hi]
          exact hold i
      · rw [if_neg hd]
        exact hold i
    · refine Or.inl (mem_worldHeld.mpr (Or.inr ⟨m, ?_, hc⟩))
      dsimp only at hm
      split_ifs at hm
      · exact hm
      · exact List.mem_of_mem_eraseIdx hm

theorem chooseKey_some {type : ℕ} {key : Key}
    (h : chooseKey crypto apiEnv request type id = .ok (some key)) :
    keyed type = true ∧
      ((∃ text, givenKey request type = some text ∧ key = keyGiven crypto text) ∨
        (givenKey request type = none ∧ ∃ nonce, apiEnv.nonces.head? = some nonce ∧
          keyDerive crypto apiEnv.master id nonce = some key)) := by
  unfold chooseKey at h
  cases hg : givenKey request type with
  | some text =>
    rw [hg] at h
    dsimp only at h
    split_ifs at h with hkeyed hlong hsafe
    cases h
    exact ⟨by simpa using hkeyed, Or.inl ⟨text, rfl, rfl⟩⟩
  | none =>
    rw [hg] at h
    dsimp only at h
    by_cases hkeyed : keyed type = false
    · rw [if_pos hkeyed] at h
      cases h
    · rw [if_neg hkeyed] at h
      cases hn : apiEnv.nonces with
      | nil =>
        rw [hn] at h
        cases h
      | cons nonce rest =>
        rw [hn] at h
        dsimp only at h
        cases hd : keyDerive crypto apiEnv.master id nonce with
        | none =>
          rw [hd] at h
          cases h
        | some drawn =>
          rw [hd] at h
          cases h
          exact ⟨by simpa using hkeyed, Or.inr ⟨rfl, nonce, rfl, hd⟩⟩

theorem Inv.unused_free (h : Inv issues w) (hapart : ∀ a ∈ issues, ∀ b ∈ issues,
    a.1 ≠ b.1 → a.2 ≠ b.2) {master nonce : Str} {key : Key}
    (hunused : w.Unused crypto master id nonce)
    (hderive : keyDerive crypto master id nonce = some key)
    (hmem : (nonce, key.hash) ∈ issues) (place : Place) : w.Free place key.hash := by
  intro d hd hdk
  obtain ⟨hnonce, hgiven⟩ := hunused key hderive
  exfalso
  rcases h.known d hd with hk | hk
  · exact hgiven (hdk ▸ hk)
  · obtain ⟨p, hp, hpd⟩ := List.mem_map.mp hk
    have hne : p.1 ≠ nonce := fun he => hnonce (List.mem_map.mpr ⟨p, hp, he⟩)
    exact hapart p (h.issued p hp) _ hmem hne (hpd.trans hdk)

theorem carried_keySet {c : Place × Str} (h : carried op = some c) : op.keySet = true := by
  unfold carried at h
  split_ifs at h with hset
  exact hset.2

/-- A request that sends one new key, remembered with those given or with those issued. -/
theorem Inv.record (h : Inv issues w) (hs : Serves (w.registries worker) served) (given : Bool)
    (hkey : ∀ op ∈ served.sent, op.keySet = true → ∀ c ∈ carried op,
      c.2 = op.keyHash ∧ w.Free c.1 c.2 ∧
        (given = false → (op.keyNonce, op.keyHash) ∈ issues))
    (hcarries : ∀ op ∈ served.sent, op.keySet = true → (carried op).isSome) :
    Inv issues ((w.serve worker served).record given served.sent) := by
  cases hsent : served.sent.filter Op.keySet with
  | none =>
    have hquiet : ∀ c, c ∉ served.sent.bind carried := by
      intro c hc
      obtain ⟨op, hop, hcop⟩ := Option.bind_eq_some_iff.mp hc
      rw [hop, Option.filter_some, if_pos (carried_keySet hcop)] at hsent
      cases hsent
    rw [World.record, hsent]
    exact h.serve_keyless hs fun c hc => absurd hc (hquiet c)
  | some op =>
    obtain ⟨hop, hset⟩ := Option.filter_eq_some_iff.mp hsent
    have hbind : ∀ c ∈ served.sent.bind carried, c ∈ carried op := by
      intro c hc
      rwa [hop] at hc
    rw [World.record, hsent]
    dsimp only
    cases given with
    | true =>
      rw [if_pos rfl]
      refine h.serve hs rfl rfl (fun c hc => ?_) (fun x hx => ?_) (fun x hx => hx)
        (fun c hc => ?_) h.issued
      · exact (hkey op hop hset c (hbind c hc)).2.1
      · exact List.mem_append_left _ hx
      · rw [(hkey op hop hset c (hbind c hc)).1]
        exact Or.inl (List.mem_append_right _ List.mem_cons_self)
    | false =>
      obtain ⟨d, hd⟩ := Option.isSome_iff_exists.mp (hcarries op hop hset)
      rw [if_neg Bool.false_ne_true]
      refine h.serve hs rfl rfl (fun c hc => ?_) (fun x hx => hx) (fun x hx => ?_)
        (fun c hc => ?_) (fun p hp => ?_)
      · exact (hkey op hop hset c (hbind c hc)).2.1
      · exact List.mem_append_left _ hx
      · rw [(hkey op hop hset c (hbind c hc)).1]
        exact Or.inr (List.mem_map.mpr ⟨_, List.mem_append_right _ List.mem_cons_self, rfl⟩)
      · rcases List.mem_append.mp hp with hp | hp
        · exact h.issued p hp
        · rw [List.mem_singleton.mp hp]
          exact (hkey op hop hset d hd).2.2 rfl

theorem Inv.sourcePost (h : Inv issues w)
    (hapart : ∀ a ∈ issues, ∀ b ∈ issues, a.1 ≠ b.1 → a.2 ≠ b.2)
    (hok : Ok crypto w (.sourcePost worker application name request apiEnv))
    (hissues : ∀ p ∈ Call.issues crypto (.sourcePost worker application name request apiEnv),
      p ∈ issues) :
    Inv issues (step crypto w (.sourcePost worker application name request apiEnv)) := by
  refine h.record sourcePost_serves _ (fun op hop hset c hc => ?_) (fun op hop hset => ?_)
  · obtain ⟨id, key, hnew⟩ := sourcePost_key hop hset
    obtain ⟨e, hadding⟩ := hnew.adding
    obtain ⟨hkeyed, hkey⟩ := chooseKey_some hadding.chosen
    have hadds : adds (w.registries worker) application name id request = true := by
      rw [adds, hkeyed, hadding.here, Option.any_some, hadding.absent]
      rfl
    have hmeets := hok id hadding.named hadds
    unfold World.KeyOk at hmeets
    obtain rfl := Option.some.inj (hnew.carries.symm.trans hc)
    refine ⟨hnew.hash.symm, ?_⟩
    rcases hkey with ⟨text, hgiven, rfl⟩ | ⟨hgiven, nonce, hnonce, hderive⟩
    · rw [hgiven] at hmeets ⊢
      exact ⟨hmeets (hadding.unheld _ rfl), fun hf => by cases hf⟩
    · rw [hgiven] at hmeets
      have hmem : (nonce, key.hash) ∈ issues := by
        apply hissues
        have htake : nonce ∈ apiEnv.nonces.take 1 := by
          cases hn : apiEnv.nonces with
          | nil => simp [hn] at hnonce
          | cons x rest =>
            rw [hn] at hnonce
            simpa using hnonce.symm
        refine List.mem_filterMap.mpr ⟨nonce, htake, ?_⟩
        rw [hadding.named, Option.getD_some, hderive]
        rfl
      refine ⟨h.unused_free hapart (hmeets nonce hnonce) hderive hmem _, fun _ => ?_⟩
      rw [hnew.hash, hnew.nonce, keyDerive_nonce hderive]
      exact hmem
  · obtain ⟨id, key, hnew⟩ := sourcePost_key hop hset
    rw [hnew.carries]
    rfl

theorem Inv.sourceRotate (h : Inv issues w)
    (hapart : ∀ a ∈ issues, ∀ b ∈ issues, a.1 ≠ b.1 → a.2 ≠ b.2)
    (hok : Ok crypto w (.sourceRotate worker application name id apiEnv))
    (hissues : ∀ p ∈ Call.issues crypto (.sourceRotate worker application name id apiEnv),
      p ∈ issues) :
    Inv issues (step crypto w (.sourceRotate worker application name id apiEnv)) := by
  refine h.record sourceRotate_serves _ (fun op hop hset c hc => ?_) (fun op hop hset => ?_)
  · obtain ⟨nonce, hnonce, key, hderive, hcarries, hhash, hopNonce, _⟩ := sourceRotate_key hop
    have hmem : (nonce, key.hash) ∈ issues := by
      apply hissues
      refine List.mem_filterMap.mpr ⟨nonce, hnonce, ?_⟩
      rw [hderive]
      rfl
    obtain rfl := Option.some.inj (hcarries.symm.trans hc)
    refine ⟨hhash.symm, h.unused_free hapart (hok nonce hnonce) hderive hmem _, fun _ => ?_⟩
    rw [hhash, hopNonce]
    exact hmem
  · obtain ⟨_, _, _, _, hcarries, _⟩ := sourceRotate_key hop
    rw [hcarries]
    rfl

theorem Inv.step (h : Inv issues w)
    (hapart : ∀ a ∈ issues, ∀ b ∈ issues, a.1 ≠ b.1 → a.2 ≠ b.2) {call : Call n}
    (hok : Ok crypto w call) (hissues : ∀ p ∈ call.issues crypto, p ∈ issues) :
    Inv issues (step crypto w call) := by
  cases call with
  | streamPost worker request env =>
    refine h.serve_keyless (streamPost_serves (h.good worker).inv request) fun c hc => ?_
    obtain ⟨op, hop, hcop⟩ := Option.bind_eq_some_iff.mp hc
    rw [streamPost_key hop] at hcop
    cases hcop
  | sourcePost worker application name request env => exact h.sourcePost hapart hok hissues
  | sourceRotate worker application name id env => exact h.sourceRotate hapart hok hissues
  | sourceSetEnabled worker application name id enabled env =>
    refine h.serve_keyless (sourceSetEnabled_serves enabled) fun c hc => ?_
    obtain ⟨op, hop, hcop⟩ := Option.bind_eq_some_iff.mp hc
    exact mem_worldHeld.mpr (Or.inl ⟨worker, sourceSetEnabled_key hop hcop⟩)
  | sourceDelete worker application name id env =>
    refine h.serve_keyless sourceDelete_serves fun c hc => ?_
    obtain ⟨op, hop, hcop⟩ := Option.bind_eq_some_iff.mp hc
    rw [sourceDelete_key hop] at hcop
    cases hcop
  | deliver index again env => exact h.deliver index again env

theorem run_inv {calls : List (Call n)} (hapart : Apart crypto calls)
    (hmeets : StepRun.Meets (GraphKeys.step crypto) (Ok crypto) (initial n) calls) :
    Inv (calls.flatMap (Call.issues crypto)) (run crypto calls) := by
  have hgo : ∀ rest : List (Call n), (∀ call ∈ rest, call ∈ calls) → ∀ w,
      Inv (calls.flatMap (Call.issues crypto)) w →
      StepRun.Meets (GraphKeys.step crypto) (Ok crypto) w rest →
      Inv (calls.flatMap (Call.issues crypto)) (rest.foldl (GraphKeys.step crypto) w) := by
    intro rest
    induction rest with
    | nil => exact fun _ _ h _ => h
    | cons call rest ih =>
      intro hsub w h hm
      refine ih (fun c hc => hsub c (List.mem_cons_of_mem _ hc)) _ ?_ hm.2
      refine h.step hapart hm.1 fun p hp => ?_
      exact List.mem_flatMap.mpr ⟨call, hsub call List.mem_cons_self, hp⟩
  exact hgo calls (fun _ h => h) _ initial_inv hmeets

/-- While keys that operators give are free on every worker and issued keys come from new
nonces, no two sources of any replica carry one key. -/
theorem key_names_one_source (crypto : Crypto) (calls : List (Call n))
    (hapart : Apart crypto calls)
    (hmeets : StepRun.Meets (GraphKeys.step crypto) (Ok crypto) (initial n) calls)
    (worker : Fin n) : OneSource ((run crypto calls).registries worker) := by
  have h := run_inv hapart hmeets
  refine (h.good worker).oneSource fun a ha b hb hab => ?_
  exact h.one a (mem_worldHeld.mpr (Or.inl ⟨worker, ha⟩)) b (mem_worldHeld.mpr (Or.inl ⟨worker, hb⟩))
    hab

def digests : Crypto where
  sha256 := fun text =>
    if text = ascii "studio-1" then
      [93, 108, 204, 165, 178, 77, 56, 15, 95, 38, 27, 114, 64, 164, 174, 223, 67, 109, 202, 70,
        112, 94, 209, 36, 153, 190, 177, 238, 26, 174, 205, 205]
    else if text = ascii "FT1CM2CXX27G1CD8WT0AEGQBMY" then
      [60, 136, 11, 34, 6, 14, 109, 23, 148, 13, 29, 124, 98, 176, 74, 8, 154, 141, 173, 64, 120,
        93, 170, 68, 55, 135, 130, 30, 135, 160, 49, 225]
    else if text = ascii "32WQQHPPMNDEZYWAD0VKWWV9T7" then
      [39, 149, 175, 11, 216, 103, 138, 181, 168, 233, 120, 70, 177, 49, 97, 125, 251, 140, 54, 82,
        154, 173, 86, 218, 146, 207, 249, 160, 58, 116, 74, 24]
    else []
  hmac := fun key text =>
    if key ≠ ascii "media-ingest-secret" then none
    else if text = [1, 0, 0, 0, 98, 1, 2, 3, 4, 5, 6, 7, 8, 9, 10, 11, 12, 13, 14, 15, 16] then
      some [47, 186, 161, 236, 148, 98, 204, 189, 157, 34, 39, 48, 33, 12, 173, 232, 252, 26, 160,
        106, 206, 16, 55, 235, 20, 30, 175, 126, 245, 242, 153, 148]
    else if text = [1, 0, 0, 0, 97, 17, 18, 19, 20, 21, 22, 23, 24, 25, 26, 27, 28, 29, 30, 31,
        32] then
      some [67, 194, 92, 183, 247, 17, 246, 22, 212, 149, 141, 46, 255, 190, 188, 74, 205, 32, 187,
        211, 124, 124, 219, 169, 186, 199, 47, 182, 252, 205, 16, 25]
    else none

def smooth (owns : Bool) (revision : ℕ) (nonces : List Str) : ApiEnv where
  graph := ⟨owns, true, true, true, true, true, 7, fun _ => revision⟩
  master := ascii "media-ingest-secret"
  nonces := nonces
  available := true
  transforms := true
  claims := true
  allocs := true
  journals := true

def newStream (name : String) : StreamRequest :=
  ⟨true, some (ascii "live"), some (ascii name), none⟩

def newSrt (id : String) (key : Option String) : SourceRequest :=
  ⟨true, some (ascii id), none, none, none, none, key.map ascii⟩

def programmes : List (Call 2) :=
  [.streamPost 0 (newStream "news") (smooth true 1 []), .deliver 0 false (smooth false 0 []).graph,
    .streamPost 1 (newStream "sport") (smooth true 2 []),
    .deliver 0 false (smooth false 0 []).graph]

/-- One key is pasted for two sources, on two workers, before either has heard of the other. -/
def crossing : List (Call 2) :=
  programmes ++
    [.sourcePost 0 (ascii "live") (ascii "news") (newSrt "a" (some "studio-1")) (smooth true 3 []),
      .sourcePost 1 (ascii "live") (ascii "sport") (newSrt "b" (some "studio-1"))
        (smooth true 4 []),
      .deliver 0 false (smooth false 0 []).graph, .deliver 0 false (smooth false 0 []).graph]

theorem key_given_twice :
    Apart digests crossing ∧ ∀ i, ¬ OneSource ((run digests crossing).registries i) := by
  refine ⟨by decide +kernel, fun i h => ?_⟩
  have htwice : ∀ i, ¬ ((held ((run digests crossing).registries i)).map Prod.snd).Nodup := by
    decide +kernel
  exact htwice i h.1

/-- A key given, another issued on the other worker, and the first one rotated. -/
def provisioned : List (Call 2) :=
  programmes ++
    [.sourcePost 0 (ascii "live") (ascii "news") (newSrt "a" (some "studio-1")) (smooth true 3 []),
      .sourcePost 1 (ascii "live") (ascii "sport") (newSrt "b" none)
        (smooth true 4 [[1, 2, 3, 4, 5, 6, 7, 8, 9, 10, 11, 12, 13, 14, 15, 16]]),
      .deliver 0 false (smooth false 0 []).graph,
      .sourceRotate 1 (ascii "live") (ascii "news") (ascii "a")
        (smooth false 5 [[17, 18, 19, 20, 21, 22, 23, 24, 25, 26, 27, 28, 29, 30, 31, 32]]),
      .deliver 1 false (smooth false 0 []).graph, .deliver 0 true (smooth false 0 []).graph]

theorem key_names_one_source_provisioned :
    OneSource ((run digests provisioned).registries 0) ∧
      (held ((run digests provisioned).registries 0)).length = 2 :=
  ⟨key_names_one_source digests provisioned (by decide +kernel) (by decide +kernel) 0,
    by decide +kernel⟩

end GraphKeys
