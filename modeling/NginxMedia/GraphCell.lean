import Mathlib.Data.List.Nodup
import NginxMedia.MediaGraph

/-! One identity's share of a registry: its stream, if there is one, and the revisions of
its remembered deletions. `Cell.apply` says what an operation means for that share alone;
`apply_cell` shows that the registry's `apply` does exactly that to the identity it names,
and `apply_other` that it leaves every other identity alone. -/
namespace GraphCell

open MediaTypes MediaGraph

@[ext] structure Cell where
  stream : Option Stream
  buried : List ℕ

def Cell.refuses (c : Cell) (revision : ℕ) : Bool := c.buried.any fun b => decide (revision ≤ b)

def cellStreamSet (env : Env) (c : Cell) (op : Op) : Cell :=
  match c.stream with
  | none =>
    if env.stages = false ∨ env.refuses then c
    else ⟨some (setFields op (Stream.new op.incarnation)), c.buried⟩
  | some st =>
    if st.incarnation ≠ op.incarnation then
      if op.revision ≤ st.revision ∨ env.stages = false ∨ env.refuses then c
      else ⟨some (setFields op (Stream.new op.incarnation)), c.buried ++ [retiredRevision env st]⟩
    else if env.refuses then c
    else ⟨some (setFields op st), c.buried⟩

def cellStreamDelete (env : Env) (c : Cell) (op : Op) : Cell :=
  match c.stream with
  | none => ⟨none, c.buried ++ [op.revision]⟩
  | some st =>
    if op.incarnation ≠ 0 ∧ st.incarnation ≠ op.incarnation then c
    else ⟨none, c.buried ++ [retiredRevision env
      (if op.revision > st.revision then { st with revision := op.revision } else st)]⟩

def sourceTarget (env : Env) (st : Stream) (op : Op) : Option Stream :=
  match sourceFind st op.id with
  | some s => if s.type ≠ op.type ∨ (sourcePathsSet env op s).isNone then none else some st
  | none =>
    match sourceOpen env op with
    | none => none
    | some s => if (sourcePathsSet env op s).isNone then none else some (addSource s st)

def cellSourceSet (env : Env) (c : Cell) (op : Op) : Cell :=
  if c.stream.any (fun st => decide (st.incarnation ≠ op.incarnation)) ∨ op.id = [] then c
  else if c.stream.isNone ∧ env.stages = false then c
  else
    match sourceTarget env (c.stream.getD (Stream.new op.incarnation)) op with
    | none => c
    | some st => ⟨some (setSourceIn op st), c.buried⟩

def cellSourceDelete (c : Cell) (op : Op) : Cell :=
  match c.stream with
  | none => c
  | some st =>
    if (op.incarnation ≠ 0 ∧ st.incarnation ≠ op.incarnation) ∨ op.id = [] then c
    else ⟨some { removeSource op.id st with revision := op.revision }, c.buried⟩

def Cell.apply (env : Env) (c : Cell) (op : Op) : Cell :=
  if c.refuses op.revision then c
  else if c.stream.any fun st => decide (st.revision > op.revision) then c
  else
    match op.kind with
    | .streamSet => cellStreamSet env c op
    | .streamDelete => cellStreamDelete env c op
    | .sourceSet => cellSourceSet env c op
    | .sourceDelete => cellSourceDelete c op

def buriedOf (ring : TombstoneRing) (hash : UInt64) : List ℕ :=
  (((List.range ring.count).map ring.slots).filter fun t => t.hash == hash).map Tombstone.revision

def cell (reg : Registry) (application name : Str) : Cell :=
  ⟨(registryStream reg application name).map Entry.stream,
    buriedOf reg.tombs (ownerHash application name)⟩

theorem tombstoneHas_eq (ring : TombstoneRing) (hash : UInt64) (revision : ℕ) :
    tombstoneHas ring hash revision =
      (buriedOf ring hash).any fun b => decide (revision ≤ b) := by
  rw [tombstoneHas, buriedOf, List.any_map, List.any_filter, List.any_map]
  rfl

structure RingOk (ring : TombstoneRing) : Prop where
  next_eq : ring.next = ring.count
  count_lt : ring.count < tombstones

theorem buriedOf_add {ring : TombstoneRing} (h : RingOk ring) (hash added : UInt64)
    (revision : ℕ) :
    buriedOf (tombstoneAdd ring added revision) hash =
      buriedOf ring hash ++ if added = hash then [revision] else [] := by
  have hcount : (tombstoneAdd ring added revision).count = ring.count + 1 := by
    simp [tombstoneAdd, h.count_lt]
  have hold : (List.range ring.count).map (tombstoneAdd ring added revision).slots =
      (List.range ring.count).map ring.slots := by
    apply List.map_congr_left
    intro i hi
    have hne : i ≠ ring.next := by
      rw [h.next_eq]
      exact Nat.ne_of_lt (List.mem_range.mp hi)
    simp [tombstoneAdd, Function.update_of_ne hne]
  have hnew : (tombstoneAdd ring added revision).slots ring.count = ⟨added, revision⟩ := by
    simp [tombstoneAdd, h.next_eq]
  rw [buriedOf, hcount, List.range_succ, List.map_append, hold, List.map_singleton, hnew,
    List.filter_append, List.map_append, buriedOf]
  by_cases he : added = hash
  · simp [he]
  · simp [he]

theorem RingOk.add {ring : TombstoneRing} (h : RingOk ring) (hash : UInt64) (revision : ℕ)
    (hlt : (tombstoneAdd ring hash revision).count < tombstones) :
    RingOk (tombstoneAdd ring hash revision) := by
  have hc := h.count_lt
  refine ⟨?_, hlt⟩
  simp only [tombstoneAdd, if_pos hc] at hlt ⊢
  rw [h.next_eq]
  exact Nat.mod_eq_of_lt hlt

structure Inv (reg : Registry) : Prop where
  handles : (reg.entries.map Entry.handle).Nodup
  fresh : ∀ e ∈ reg.entries, e.handle < reg.fresh
  identities : (reg.entries.map fun e => (e.application, e.name)).Nodup

theorem empty_inv : Inv Registry.empty := by
  constructor <;> simp [Registry.empty]

theorem empty_ring : RingOk Registry.empty.tombs := ⟨rfl, by decide⟩

theorem lookup_some {reg : Registry} {application name : Str} {e : Entry}
    (h : registryStream reg application name = some e) :
    e ∈ reg.entries ∧ e.application = application ∧ e.name = name := by
  refine ⟨List.mem_of_find?_eq_some h, ?_⟩
  have hp := List.find?_some h
  simp only [decide_eq_true_eq] at hp
  exact ⟨hp.2, hp.1⟩

theorem lookup_none {reg : Registry} {application name : Str}
    (h : registryStream reg application name = none) {e : Entry} (he : e ∈ reg.entries) :
    ¬ (e.name = name ∧ e.application = application) := by
  have := List.find?_eq_none.mp h e he
  simpa using this

theorem Inv.handle_inj {reg : Registry} (h : Inv reg) {a b : Entry} (ha : a ∈ reg.entries)
    (hb : b ∈ reg.entries) (he : a.handle = b.handle) : a = b :=
  List.inj_on_of_nodup_map h.handles ha hb he

theorem Inv.identity_inj {reg : Registry} (h : Inv reg) {a b : Entry} (ha : a ∈ reg.entries)
    (hb : b ∈ reg.entries) (happ : a.application = b.application) (hname : a.name = b.name) :
    a = b :=
  List.inj_on_of_nodup_map h.identities ha hb (by rw [happ, hname])

theorem Inv.lookup_mem {reg : Registry} (h : Inv reg) {e : Entry} (he : e ∈ reg.entries) :
    registryStream reg e.application e.name = some e := by
  cases hl : registryStream reg e.application e.name with
  | none => exact absurd ⟨rfl, rfl⟩ (lookup_none hl he)
  | some e' =>
    obtain ⟨hm, ha, hn⟩ := lookup_some hl
    rw [h.identity_inj hm he ha hn]

def withNew (reg : Registry) (application name : Str) (st : Stream) : Registry :=
  { reg with
    entries := reg.entries ++ [⟨reg.fresh, application, name, st⟩]
    fresh := reg.fresh + 1
    count := reg.count + 1 }

def without (reg : Registry) (handle : ℕ) : Registry :=
  { reg with
    entries := reg.entries.filter fun e => decide (e.handle ≠ handle)
    count := reg.count - 1 }

theorem Inv.after_update {reg : Registry} (h : Inv reg) (handle : ℕ) (f : Stream → Stream) :
    Inv (update reg handle f) := by
  have hmap : ∀ {β : Type} (g : Entry → β), (∀ e st, g { e with stream := st } = g e) →
      (update reg handle f).entries.map g = reg.entries.map g := by
    intro β g hg
    rw [update, List.map_map]
    apply List.map_congr_left
    intro e _
    simp only [Function.comp_apply]
    split_ifs
    · exact hg e _
    · rfl
  constructor
  · rw [hmap Entry.handle fun _ _ => rfl]
    exact h.handles
  · intro e he
    obtain ⟨e', he', rfl⟩ := List.mem_map.mp he
    have := h.fresh e' he'
    split_ifs <;> exact this
  · rw [hmap (fun e => (e.application, e.name)) fun _ _ => rfl]
    exact h.identities

theorem Inv.after_withNew {reg : Registry} (h : Inv reg) {application name : Str} (st : Stream)
    (hnone : registryStream reg application name = none) :
    Inv (withNew reg application name st) := by
  constructor
  · rw [withNew, List.map_append, List.nodup_append]
    refine ⟨h.handles, by simp, ?_⟩
    intro a ha b hb
    obtain ⟨e, he, rfl⟩ := List.mem_map.mp ha
    obtain rfl : b = reg.fresh := by simpa using hb
    exact Nat.ne_of_lt (h.fresh e he)
  · intro e he
    rcases List.mem_append.mp he with he | he
    · exact Nat.lt_succ_of_lt (h.fresh e he)
    · rw [List.mem_singleton.mp he]
      exact Nat.lt_succ_self _
  · rw [withNew, List.map_append, List.nodup_append]
    refine ⟨h.identities, by simp, ?_⟩
    intro a ha b hb heq
    obtain ⟨e, he, rfl⟩ := List.mem_map.mp ha
    obtain rfl : b = (application, name) := by simpa using hb
    obtain ⟨happ, hname⟩ := Prod.mk.inj heq
    exact lookup_none hnone he ⟨hname, happ⟩

theorem Inv.after_without {reg : Registry} (h : Inv reg) (handle : ℕ) :
    Inv (without reg handle) := by
  refine ⟨(List.Sublist.map _ List.filter_sublist).nodup h.handles, fun e he => ?_,
    (List.Sublist.map _ List.filter_sublist).nodup h.identities⟩
  exact h.fresh e (List.mem_filter.mp he).1

theorem Inv.of_entries {reg reg' : Registry} (h : Inv reg) (he : reg'.entries = reg.entries)
    (hf : reg.fresh ≤ reg'.fresh) : Inv reg' := by
  constructor
  · rw [he]
    exact h.handles
  · intro e hm
    rw [he] at hm
    exact Nat.lt_of_lt_of_le (h.fresh e hm) hf
  · rw [he]
    exact h.identities

theorem lookup_update (reg : Registry) (handle : ℕ) (f : Stream → Stream)
    (application name : Str) :
    registryStream (update reg handle f) application name =
      (registryStream reg application name).map fun e =>
        if e.handle = handle then { e with stream := f e.stream } else e := by
  rw [registryStream, update, List.find?_map, registryStream]
  congr 2
  funext e
  simp only [Function.comp_apply]
  split_ifs <;> rfl

theorem lookup_withNew (reg : Registry) (application name : Str) (st : Stream) (a n : Str) :
    registryStream (withNew reg application name st) a n =
      (registryStream reg a n).or
        (if name = n ∧ application = a then some ⟨reg.fresh, application, name, st⟩ else none) := by
  rw [registryStream, withNew, List.find?_append, registryStream, List.find?_singleton]
  simp only [decide_eq_true_eq]

theorem lookup_without {reg : Registry} (h : Inv reg) (handle : ℕ) (a n : Str) :
    registryStream (without reg handle) a n =
      (registryStream reg a n).filter fun e => decide (e.handle ≠ handle) := by
  have hw := h.after_without handle
  cases hl : registryStream reg a n with
  | none =>
    rw [Option.filter_none]
    apply List.find?_eq_none.mpr
    intro e he
    have := lookup_none hl (List.mem_filter.mp he).1
    simpa using this
  | some x =>
    obtain ⟨hm, ha, hn⟩ := lookup_some hl
    rw [Option.filter_some]
    split_ifs with hx
    · have hmem : x ∈ (without reg handle).entries := List.mem_filter.mpr ⟨hm, hx⟩
      have := hw.lookup_mem hmem
      rwa [ha, hn] at this
    · apply List.find?_eq_none.mpr
      intro e he hp
      obtain ⟨hme, hne⟩ := List.mem_filter.mp he
      simp only [decide_eq_true_eq] at hp
      have : e = x := h.identity_inj hme hm (hp.2.trans ha.symm) (hp.1.trans hn.symm)
      rw [this] at hne
      exact hx hne

inductive Effect (application name : Str) (reg : Registry) :
    Registry → (Cell → Cell) → Prop where
  | keep (n : ℕ) : reg.fresh ≤ n →
      Effect application name reg { reg with fresh := n } id
  | change (e : Entry) (f : Stream → Stream) : registryStream reg application name = some e →
      Effect application name reg (update reg e.handle f)
        fun c => ⟨c.stream.map f, c.buried⟩
  | create (st : Stream) : registryStream reg application name = none →
      Effect application name reg (withNew reg application name st)
        fun c => ⟨some st, c.buried⟩
  | bury (v : ℕ) :
      Effect application name reg
        { reg with tombs := tombstoneAdd reg.tombs (ownerHash application name) v }
        fun c => ⟨c.stream, c.buried ++ [v]⟩
  | remove (e : Entry) (v : ℕ) : registryStream reg application name = some e →
      Effect application name reg
        { without reg e.handle with
          tombs := tombstoneAdd reg.tombs (ownerHash application name) v }
        fun c => ⟨none, c.buried ++ [v]⟩
  | replace (e : Entry) (st : Stream) (v : ℕ) : registryStream reg application name = some e →
      Effect application name reg
        { withNew (without reg e.handle) application name st with
          count := reg.count
          tombs := tombstoneAdd reg.tombs (ownerHash application name) v }
        fun c => ⟨some st, c.buried ++ [v]⟩

variable {application name : Str} {reg reg' : Registry} {g : Cell → Cell}

theorem lookup_after_without (h : Inv reg) {e : Entry}
    (he : registryStream reg application name = some e) :
    registryStream (without reg e.handle) application name = none := by
  rw [lookup_without h, he, Option.filter_some]
  simp

theorem Effect.inv (he : Effect application name reg reg' g) (h : Inv reg) : Inv reg' := by
  cases he with
  | keep n hn => exact h.of_entries rfl hn
  | change e f _ => exact h.after_update e.handle f
  | create st hnone => exact h.after_withNew st hnone
  | bury v => exact h.of_entries rfl (Nat.le_refl _)
  | remove e v _ => exact (h.after_without e.handle).of_entries rfl (Nat.le_refl _)
  | replace e st v hl =>
    exact ((h.after_without e.handle).after_withNew st
      (lookup_after_without h hl)).of_entries rfl (Nat.le_refl _)

theorem Effect.count_le (he : Effect application name reg reg' g) :
    reg.tombs.count ≤ reg'.tombs.count := by
  have hadd : ∀ hash v, reg.tombs.count ≤ (tombstoneAdd reg.tombs hash v).count := by
    intro hash v
    simp only [tombstoneAdd]
    split_ifs <;> omega
  cases he with
  | keep => exact Nat.le_refl _
  | change => exact Nat.le_refl _
  | create => exact Nat.le_refl _
  | bury => exact hadd _ _
  | remove => exact hadd _ _
  | replace => exact hadd _ _

theorem Effect.count_growth (he : Effect application name reg reg' g) (c : Cell) :
    reg'.tombs.count + c.buried.length ≤ reg.tombs.count + (g c).buried.length := by
  have hadd : ∀ hash v, (tombstoneAdd reg.tombs hash v).count ≤ reg.tombs.count + 1 := by
    intro hash v
    simp only [tombstoneAdd]
    split_ifs <;> omega
  cases he with
  | keep => exact Nat.le_refl _
  | change => exact Nat.le_refl _
  | create => exact Nat.le_refl _
  | bury v =>
    have := hadd (ownerHash application name) v
    simp only [List.length_append, List.length_singleton]
    omega
  | remove e v =>
    have := hadd (ownerHash application name) v
    simp only [List.length_append, List.length_singleton]
    omega
  | replace e st v =>
    have := hadd (ownerHash application name) v
    simp only [List.length_append, List.length_singleton]
    omega

theorem Effect.ring (he : Effect application name reg reg' g) (h : RingOk reg.tombs)
    (hlt : reg'.tombs.count < tombstones) : RingOk reg'.tombs := by
  cases he with
  | keep => exact h
  | change => exact h
  | create => exact h
  | bury => exact h.add _ _ hlt
  | remove => exact h.add _ _ hlt
  | replace => exact h.add _ _ hlt

theorem Effect.own_stream (he : Effect application name reg reg' g) (h : Inv reg) :
    (cell reg' application name).stream = (g (cell reg application name)).stream := by
  cases he with
  | keep => rfl
  | change e f hl =>
    simp only [cell, lookup_update, hl]
    simp
  | create st hl =>
    simp only [cell, lookup_withNew, hl]
    simp
  | bury v => rfl
  | remove e v hl =>
    change (registryStream (without reg e.handle) application name).map Entry.stream = none
    rw [lookup_after_without h hl]
    rfl
  | replace e st v hl =>
    change (registryStream (withNew (without reg e.handle) application name st) application
      name).map Entry.stream = some st
    rw [lookup_withNew, lookup_after_without h hl]
    simp

theorem Effect.own (he : Effect application name reg reg' g) (h : Inv reg)
    (hr : RingOk reg.tombs) : cell reg' application name = g (cell reg application name) := by
  have hadd : ∀ v, buriedOf (tombstoneAdd reg.tombs (ownerHash application name) v)
      (ownerHash application name) = buriedOf reg.tombs (ownerHash application name) ++ [v] := by
    intro v
    rw [buriedOf_add hr, if_pos rfl]
  apply Cell.ext
  · exact he.own_stream h
  · cases he with
    | keep => rfl
    | change e f hl => rfl
    | create st hl => rfl
    | bury v => exact hadd v
    | remove e v hl => exact hadd v
    | replace e st v hl => exact hadd v

theorem Effect.lookup_other (he : Effect application name reg reg' g) (h : Inv reg) {a n : Str}
    (hne : ¬ (name = n ∧ application = a)) : registryStream reg' a n = registryStream reg a n := by
  -- the entry found for another identity sits at another address
  have haddr : ∀ {e x : Entry}, registryStream reg application name = some e →
      registryStream reg a n = some x → x.handle ≠ e.handle := by
    intro e x hl hx heq
    obtain ⟨hme, hae, hne'⟩ := lookup_some hl
    obtain ⟨hmx, hax, hnx⟩ := lookup_some hx
    have := h.handle_inj hmx hme heq
    subst this
    exact hne ⟨hne'.symm.trans hnx, hae.symm.trans hax⟩
  have hwithout : ∀ {e : Entry}, registryStream reg application name = some e →
      registryStream (without reg e.handle) a n = registryStream reg a n := by
    intro e hl
    rw [lookup_without h]
    cases hx : registryStream reg a n with
    | none => rfl
    | some x =>
      rw [Option.filter_some, if_pos (decide_eq_true (haddr hl hx))]
  cases he with
  | keep => rfl
  | change e f hl =>
    rw [lookup_update]
    cases hx : registryStream reg a n with
    | none => rfl
    | some x => rw [Option.map_some, if_neg (haddr hl hx)]
  | create st hl => rw [lookup_withNew, if_neg hne, Option.or_none]
  | bury v => rfl
  | remove e v hl => exact hwithout hl
  | replace e st v hl =>
    have hlook : registryStream (withNew (without reg e.handle) application name st) a n =
        registryStream reg a n := by
      rw [lookup_withNew, hwithout hl, if_neg hne, Option.or_none]
    exact hlook

theorem Effect.other (he : Effect application name reg reg' g) (h : Inv reg)
    (hr : RingOk reg.tombs) {a n : Str} (hne : ¬ (name = n ∧ application = a))
    (hhash : ownerHash application name ≠ ownerHash a n) : cell reg' a n = cell reg a n := by
  have hadd : ∀ v, buriedOf (tombstoneAdd reg.tombs (ownerHash application name) v)
      (ownerHash a n) = buriedOf reg.tombs (ownerHash a n) := by
    intro v
    rw [buriedOf_add hr, if_neg hhash, List.append_nil]
  apply Cell.ext
  · exact congrArg (Option.map Entry.stream) (he.lookup_other h hne)
  · cases he with
    | keep => rfl
    | change => rfl
    | create => rfl
    | bury v => exact hadd v
    | remove e v _ => exact hadd v
    | replace e st v _ => exact hadd v

variable {env : Env} {op : Op}

theorem update_update (reg : Registry) (handle : ℕ) (f f' : Stream → Stream) :
    update (update reg handle f) handle f' = update reg handle (f' ∘ f) := by
  simp only [update, List.map_map]
  congr 1
  apply List.map_congr_left
  intro e _
  simp only [Function.comp_apply]
  split_ifs <;> simp_all

theorem update_withNew (h : Inv reg) (st : Stream) (f : Stream → Stream) :
    update (withNew reg application name st) reg.fresh f =
      withNew reg application name (f st) := by
  have hold : reg.entries.map (fun e =>
      if e.handle = reg.fresh then { e with stream := f e.stream } else e) = reg.entries := by
    rw [← List.map_id reg.entries, List.map_map]
    apply List.map_congr_left
    intro e he
    have := h.fresh e (by simpa using he)
    simp only [Function.comp_apply, id_eq, if_neg (Nat.ne_of_lt this)]
  simp only [update, withNew, List.map_append, hold, List.map_singleton, if_true]

theorem update_replacement (h : Inv reg) (handle : ℕ) (st : Stream) (f : Stream → Stream)
    (count : ℕ) (tombs : TombstoneRing) :
    update { withNew (without reg handle) application name st with
        count := count, tombs := tombs } reg.fresh f =
      { withNew (without reg handle) application name (f st) with
        count := count, tombs := tombs } := by
  have hup := @update_withNew application name _ (h.after_without handle) st f
  exact congrArg (fun r : Registry => { r with count := count, tombs := tombs }) hup

theorem find_handle (h : Inv reg) {e : Entry} (he : e ∈ reg.entries) :
    (reg.entries.find? fun x => decide (x.handle = e.handle)) = some e := by
  cases hf : reg.entries.find? fun x => decide (x.handle = e.handle) with
  | none =>
    have := List.find?_eq_none.mp hf e he
    simp at this
  | some x =>
    have hx := List.find?_some hf
    rw [h.handle_inj (List.mem_of_find?_eq_some hf) he (of_decide_eq_true hx)]

theorem discard_withNew (h : Inv reg) (st : Stream) :
    (streamRemove env (withNew reg application name st) reg.fresh false).1 =
      { reg with fresh := reg.fresh + 1 } := by
  have hmem : (⟨reg.fresh, application, name, st⟩ : Entry) ∈
      (withNew reg application name st).entries := by simp [withNew]
  have hkeep : reg.entries.filter (fun e => decide (e.handle ≠ reg.fresh)) = reg.entries := by
    apply List.filter_eq_self.mpr
    intro e he
    exact decide_eq_true (Nat.ne_of_lt (h.fresh e he))
  unfold streamRemove
  split
  · next hf =>
    have := List.find?_eq_none.mp hf _ hmem
    simp at this
  · simp only [withNew, List.filter_append, hkeep]
    simp

theorem destroy_update (h : Inv reg) {e : Entry} (he : e ∈ reg.entries) (f : Stream → Stream) :
    streamRemove env (update reg e.handle f) e.handle true =
      ({ without reg e.handle with
          tombs := tombstoneAdd reg.tombs (ownerHash e.application e.name)
            (retiredRevision env (f e.stream)) }, .ok) := by
  have hmem : { e with stream := f e.stream } ∈ (update reg e.handle f).entries := by
    refine List.mem_map.mpr ⟨e, he, ?_⟩
    rw [if_pos rfl]
  have hfind := find_handle (h.after_update e.handle f) hmem
  have hfilter : (update reg e.handle f).entries.filter (fun x => decide (x.handle ≠ e.handle)) =
      reg.entries.filter fun x => decide (x.handle ≠ e.handle) := by
    rw [update, List.filter_map]
    have hpred : ((fun x : Entry => decide (x.handle ≠ e.handle)) ∘ fun x =>
        if x.handle = e.handle then { x with stream := f x.stream } else x) =
        fun x => decide (x.handle ≠ e.handle) := by
      funext x
      simp only [Function.comp_apply]
      split_ifs <;> rfl
    rw [hpred, ← List.map_id (List.filter _ reg.entries), List.map_map]
    apply List.map_congr_left
    intro x hx
    have hne : x.handle ≠ e.handle := of_decide_eq_true (List.mem_filter.mp hx).2
    simp only [Function.comp_apply, id_eq, if_neg hne]
  unfold streamRemove
  dsimp only at hfind
  rw [hfind]
  simp only [hfilter, if_true]
  rfl

theorem destroy (h : Inv reg) {e : Entry} (he : e ∈ reg.entries) :
    streamRemove env reg e.handle true =
      ({ without reg e.handle with
          tombs := tombstoneAdd reg.tombs (ownerHash e.application e.name)
            (retiredRevision env e.stream) }, .ok) := by
  have hself : update reg e.handle id = reg := by
    have : reg.entries.map (fun x =>
        if x.handle = e.handle then { x with stream := id x.stream } else x) = reg.entries := by
      rw [← List.map_id reg.entries, List.map_map]
      apply List.map_congr_left
      intro x _
      simp
    simp only [update, this]
  have := @destroy_update reg env h e he id
  rwa [hself] at this

theorem destroy_withNew (h : Inv reg) {e : Entry} (he : e ∈ reg.entries) (st : Stream) :
    streamRemove env (withNew reg application name st) e.handle true =
      ({ withNew (without reg e.handle) application name st with
          count := reg.count
          tombs := tombstoneAdd reg.tombs (ownerHash e.application e.name)
            (retiredRevision env e.stream) }, .ok) := by
  have hfind : ((withNew reg application name st).entries.find? fun x =>
      decide (x.handle = e.handle)) = some e := by
    rw [withNew, List.find?_append, find_handle h he]
    rfl
  have hne : reg.fresh ≠ e.handle := Nat.ne_of_gt (h.fresh e he)
  unfold streamRemove
  rw [hfind]
  simp [withNew, without, hne]

theorem streamStage_eq (hd : op.Decoded) :
    streamStage env reg op.application op.name =
      if env.stages = false then none
      else some (⟨reg.fresh, op.application, op.name, Stream.new env.incarnation⟩,
        withNew reg op.application op.name (Stream.new env.incarnation)) := by
  have happ := hd.application_le
  have hname := hd.name_le
  unfold streamStage
  rw [if_neg]
  · rfl
  · rintro (h | h | h | h)
    · exact hd.application_pos h
    · omega
    · exact hd.name_pos h
    · omega

theorem graphStream_none (h : Inv reg) (hd : op.Decoded) (hinc : op.incarnation ≠ 0)
    (hl : registryStream reg op.application op.name = none) :
    graphStream env reg op =
      if env.stages = false then none
      else some (⟨reg.fresh, op.application, op.name, Stream.new op.incarnation⟩,
        withNew reg op.application op.name (Stream.new op.incarnation)) := by
  unfold graphStream
  rw [hl, streamStage_eq hd]
  dsimp only
  split_ifs with hs
  · rfl
  · dsimp only
    rw [update_withNew h]
    rfl

theorem graphStream_some {e : Entry} (hl : registryStream reg op.application op.name = some e) :
    graphStream env reg op = some (e, reg) := by
  rw [graphStream, hl]

def Does (reg reg' : Registry) (op : Op) (c : Cell) : Prop :=
  ∃ g, Effect op.application op.name reg reg' g ∧ g (cell reg op.application op.name) = c

theorem does_nothing (reg : Registry) (op : Op) :
    Does reg reg op (cell reg op.application op.name) :=
  ⟨id, Effect.keep reg.fresh (Nat.le_refl _), rfl⟩

theorem does_discard (h : Inv reg) (st : Stream) :
    Does reg (streamRemove env (withNew reg application name st) reg.fresh false).1 op
      (cell reg op.application op.name) := by
  rw [discard_withNew h]
  exact ⟨id, Effect.keep _ (Nat.le_succ _), rfl⟩

theorem does_change {e : Entry} (hl : registryStream reg op.application op.name = some e)
    (f : Stream → Stream) :
    Does reg (update reg e.handle f) op
      ⟨some (f e.stream), (cell reg op.application op.name).buried⟩ := by
  refine ⟨_, Effect.change e f hl, ?_⟩
  simp [cell, hl]

theorem does_create (hl : registryStream reg op.application op.name = none) (st : Stream) :
    Does reg (withNew reg op.application op.name st) op
      ⟨some st, (cell reg op.application op.name).buried⟩ :=
  ⟨_, Effect.create st hl, rfl⟩

theorem cell_some {e : Entry} (hl : registryStream reg op.application op.name = some e) :
    (cell reg op.application op.name).stream = some e.stream := by
  simp [cell, hl]

theorem cell_none (hl : registryStream reg op.application op.name = none) :
    (cell reg op.application op.name).stream = none := by
  simp [cell, hl]

theorem does_unchanged {e : Entry} (hl : registryStream reg op.application op.name = some e)
    (f : Stream → Stream) (hf : f e.stream = e.stream) :
    Does reg (update reg e.handle f) op (cell reg op.application op.name) := by
  have hc := does_change hl f
  rw [hf] at hc
  have hself : (⟨some e.stream, (cell reg op.application op.name).buried⟩ : Cell) =
      cell reg op.application op.name := by
    rw [← cell_some hl]
  rwa [hself] at hc

theorem streamDelete_does (h : Inv reg) :
    Does reg (streamDelete env reg op (registryStream reg op.application op.name)).1 op
      (cellStreamDelete env (cell reg op.application op.name) op) := by
  cases hl : registryStream reg op.application op.name with
  | none =>
    refine ⟨_, Effect.bury op.revision, ?_⟩
    rw [cellStreamDelete, cell_none hl]
  | some e =>
    obtain ⟨hm, ha, hn⟩ := lookup_some hl
    simp only [streamDelete, cellStreamDelete, cell_some hl, foreign, Bool.and_eq_true, bne_iff_ne]
    split_ifs with hforeign hrev
    · exact does_nothing reg op
    · rw [destroy_update h hm, ha, hn]
      exact ⟨_, Effect.remove e _ hl, rfl⟩
    · rw [destroy h hm, ha, hn]
      exact ⟨_, Effect.remove e _ hl, rfl⟩

theorem streamSet_does (h : Inv reg) (hd : op.Decoded) (hinc : op.incarnation ≠ 0) :
    Does reg (streamSet env reg op (registryStream reg op.application op.name)).1 op
      (cellStreamSet env (cell reg op.application op.name) op) := by
  cases hl : registryStream reg op.application op.name with
  | none =>
    simp only [streamSet, cellStreamSet, cell_none hl, Option.filter_none,
      graphStream_none h hd hinc hl]
    by_cases hs : env.stages = false
    · rw [if_pos hs, if_pos (Or.inl hs)]
      exact does_nothing reg op
    · rw [if_neg hs]
      dsimp only
      by_cases hr : env.refuses = true
      · rw [if_pos hr, if_pos (Or.inr hr)]
        simp only [Option.isNone_none, if_true, update_withNew h]
        exact does_discard h _
      · rw [if_neg hr, if_neg (not_or.mpr ⟨hs, hr⟩)]
        simp only [update_withNew h]
        exact does_create hl _
  | some e =>
    obtain ⟨hm, ha, hn⟩ := lookup_some hl
    simp only [streamSet, cellStreamSet, cell_some hl, Option.filter_some, decide_eq_true_eq]
    by_cases hi : e.stream.incarnation ≠ op.incarnation
    · rw [if_pos hi, if_pos hi]
      dsimp only
      by_cases hrev : op.revision ≤ e.stream.revision
      · rw [if_pos hrev, if_pos (Or.inl hrev)]
        exact does_nothing reg op
      · rw [if_neg hrev, streamStage_eq hd]
        by_cases hs : env.stages = false
        · rw [if_pos hs, if_pos (Or.inr (Or.inl hs))]
          exact does_nothing reg op
        · rw [if_neg hs]
          dsimp only
          rw [update_withNew h]
          by_cases hr : env.refuses = true
          · rw [if_pos hr, if_pos (Or.inr (Or.inr hr))]
            exact does_discard h _
          · rw [if_neg hr, if_neg (not_or.mpr ⟨hrev, not_or.mpr ⟨hs, hr⟩⟩),
              destroy_withNew h hm, ha, hn]
            dsimp only
            -- the revision is written to the replacement last
            rw [update_replacement h]
            exact ⟨_, Effect.replace e (setFields op (Stream.new op.incarnation))
              (retiredRevision env e.stream) hl, rfl⟩
    · rw [if_neg hi, if_neg hi, graphStream_some hl]
      dsimp only
      by_cases hr : env.refuses = true
      · rw [if_pos hr, if_pos hr, if_neg (by simp), update_update]
        refine does_unchanged hl _ ?_
        simp only [Function.comp_apply, setFields]
        rw [← not_not.mp hi]
      · rw [if_neg hr, if_neg hr]
        exact does_change hl _

theorem sourceDelete_does :
    Does reg (sourceDelete reg op (registryStream reg op.application op.name)).1 op
      (cellSourceDelete (cell reg op.application op.name) op) := by
  cases hl : registryStream reg op.application op.name with
  | none =>
    rw [cellSourceDelete, cell_none hl]
    exact does_nothing reg op
  | some e =>
    simp only [sourceDelete, cellSourceDelete, cell_some hl, foreign, Bool.and_eq_true, bne_iff_ne]
    by_cases hforeign : op.incarnation ≠ 0 ∧ e.stream.incarnation ≠ op.incarnation
    · rw [if_pos hforeign, if_pos (Or.inl hforeign)]
      exact does_nothing reg op
    · by_cases hid : op.id = []
      · rw [if_neg hforeign, if_pos hid, if_pos (Or.inr hid)]
        exact does_nothing reg op
      · rw [if_neg hforeign, if_neg hid, if_neg (not_or.mpr ⟨hforeign, hid⟩)]
        exact does_change hl fun st => { removeSource op.id st with revision := op.revision }

theorem removeSource_addSource {st : Stream} {s : Source} (hf : sourceFind st s.id = none) :
    removeSource s.id (addSource s st) = st := by
  have hkeep : st.sources.filter (fun x => decide (x.id ≠ s.id)) = st.sources := by
    apply List.filter_eq_self.mpr
    intro x hx
    have := List.find?_eq_none.mp hf x hx
    simpa using this
  simp only [removeSource, addSource, List.filter_append, hkeep]
  simp

theorem sourceOpen_id {s : Source} (h : sourceOpen env op = some s) : s.id = op.id := by
  unfold sourceOpen at h
  split_ifs at h
  rw [← Option.some.inj h]
  rfl

/-- The assignment that SOURCE_SET starts with. -/
def takeIncarnation (op : Op) (st : Stream) : Stream := { st with incarnation := op.incarnation }

theorem sourceSet_some_does {e : Entry} (hid : op.id ≠ [])
    (hl : registryStream reg op.application op.name = some e)
    (hi : e.stream.incarnation = op.incarnation) :
    Does reg (sourceSet env reg op (some e)).1 op
      (match sourceTarget env e.stream op with
        | none => cell reg op.application op.name
        | some st => ⟨some (setSourceIn op st), (cell reg op.application op.name).buried⟩) := by
  have hsame : takeIncarnation op e.stream = e.stream := by
    rw [takeIncarnation, ← hi]
  have hgraph : graphStream env reg op = some (e, reg) := graphStream_some hl
  unfold sourceSet sourceTarget
  rw [if_neg (by simp [hi]), if_neg hid, hgraph]
  dsimp only
  cases hf : sourceFind e.stream op.id with
  | some s =>
    dsimp only
    by_cases ht : s.type ≠ op.type
    · rw [if_pos ht, if_pos (Or.inl ht)]
      exact does_unchanged hl (takeIncarnation op) hsame
    · rw [if_neg ht]
      cases hp : sourcePathsSet env op s with
      | none =>
        rw [if_pos (Or.inr (by rfl))]
        exact does_unchanged hl (takeIncarnation op) hsame
      | some s' =>
        dsimp only
        rw [update_update, if_neg (not_or.mpr ⟨ht, by simp⟩)]
        have hc := does_change hl (setSourceIn op ∘ takeIncarnation op)
        rw [Function.comp_apply, hsame] at hc
        exact hc
  | none =>
    dsimp only
    cases ho : sourceOpen env op with
    | none => exact does_unchanged hl (takeIncarnation op) hsame
    | some s =>
      have hs := sourceOpen_id ho
      dsimp only
      cases hp : sourcePathsSet env op s with
      | none =>
        dsimp only
        rw [if_neg (by simp), if_pos (by rfl), update_update, update_update]
        refine does_unchanged hl (removeSource op.id ∘ addSource s ∘ takeIncarnation op) ?_
        rw [Function.comp_apply, Function.comp_apply, hsame, ← hs]
        exact removeSource_addSource (by rw [hs]; exact hf)
      | some s' =>
        dsimp only
        rw [update_update, update_update]
        have hc := does_change hl (setSourceIn op ∘ addSource s ∘ takeIncarnation op)
        rw [Function.comp_apply, Function.comp_apply, hsame] at hc
        exact hc

theorem sourceSet_none_does (h : Inv reg) (hd : op.Decoded) (hinc : op.incarnation ≠ 0)
    (hid : op.id ≠ []) (hl : registryStream reg op.application op.name = none) :
    Does reg (sourceSet env reg op none).1 op
      (if env.stages = false then cell reg op.application op.name
      else
        match sourceTarget env (Stream.new op.incarnation) op with
        | none => cell reg op.application op.name
        | some st => ⟨some (setSourceIn op st), (cell reg op.application op.name).buried⟩) := by
  have hgraph := @graphStream_none reg env op h hd hinc hl
  unfold sourceSet sourceTarget
  rw [if_neg (by simp), if_neg hid, hgraph]
  by_cases hs : env.stages = false
  · rw [if_pos hs, if_pos hs]
    exact does_nothing reg op
  · rw [if_neg hs, if_neg hs]
    dsimp only
    have hfind : sourceFind (Stream.new op.incarnation) op.id = none := rfl
    rw [hfind, update_withNew h]
    dsimp only
    cases ho : sourceOpen env op with
    | none => exact does_discard h _
    | some s =>
      dsimp only
      cases hp : sourcePathsSet env op s with
      | none =>
        dsimp only
        rw [if_pos (by rfl), if_pos (by rfl), update_withNew h, update_withNew h]
        exact does_discard h _
      | some s' =>
        dsimp only
        rw [update_withNew h, update_withNew h]
        exact does_create hl _

theorem sourceSet_does (h : Inv reg) (hd : op.Decoded) (hinc : op.incarnation ≠ 0) :
    Does reg (sourceSet env reg op (registryStream reg op.application op.name)).1 op
      (cellSourceSet env (cell reg op.application op.name) op) := by
  cases hl : registryStream reg op.application op.name with
  | none =>
    unfold cellSourceSet
    rw [cell_none hl]
    by_cases hid : op.id = []
    · rw [if_pos (Or.inr hid), sourceSet, if_neg (by simp), if_pos hid]
      exact does_nothing reg op
    · rw [if_neg (by simp [hid])]
      have hdoes := @sourceSet_none_does reg env op h hd hinc hid hl
      simpa using hdoes
  | some e =>
    unfold cellSourceSet
    rw [cell_some hl]
    by_cases hi : e.stream.incarnation = op.incarnation
    · by_cases hid : op.id = []
      · rw [if_pos (Or.inr hid), sourceSet, if_neg (by simp [hi]), if_pos hid]
        exact does_nothing reg op
      · rw [if_neg (by simp [hid, hi]), if_neg (by simp)]
        exact sourceSet_some_does hid hl hi
    · rw [if_pos (Or.inl (by simpa using hi)), sourceSet, if_pos (by simpa using hi)]
      exact does_nothing reg op

theorem apply_does (h : Inv reg) (hd : op.Decoded) :
    Does reg (apply env reg op).1 op ((cell reg op.application op.name).apply env op) := by
  have hhas : tombstoneHas reg.tombs (ownerHash op.application op.name) op.revision =
      (cell reg op.application op.name).refuses op.revision := tombstoneHas_eq _ _ _
  have hstale : ((registryStream reg op.application op.name).any fun e =>
      decide (e.stream.revision > op.revision)) =
      ((cell reg op.application op.name).stream.any fun st =>
        decide (st.revision > op.revision)) := by
    rw [cell, Option.any_map]
  unfold MediaGraph.apply Cell.apply
  rw [hhas]
  by_cases hr : (cell reg op.application op.name).refuses op.revision = true
  · rw [if_pos hr, if_pos hr]
    exact does_nothing reg op
  · rw [if_neg hr, if_neg hr]
    dsimp only
    rw [hstale]
    by_cases hst : ((cell reg op.application op.name).stream.any fun st =>
        decide (st.revision > op.revision)) = true
    · rw [if_pos hst, if_pos hst]
      exact does_nothing reg op
    · rw [if_neg hst, if_neg hst]
      cases hk : op.kind with
      | streamSet => exact streamSet_does h hd (hd.incarnation_pos (by simp [hk]))
      | streamDelete => exact streamDelete_does h
      | sourceSet => exact sourceSet_does h hd (hd.incarnation_pos (by simp [hk]))
      | sourceDelete => exact sourceDelete_does

theorem apply_count_le (h : Inv reg) (hd : op.Decoded) :
    reg.tombs.count ≤ (apply env reg op).1.tombs.count := by
  obtain ⟨g, he, _⟩ := @apply_does reg env op h hd
  exact he.count_le

theorem apply_inv (env : Env) (h : Inv reg) (hd : op.Decoded) : Inv (apply env reg op).1 := by
  obtain ⟨g, he, _⟩ := @apply_does reg env op h hd
  exact he.inv h

theorem receive_count_le (h : Inv reg) (deliveries : List (Op × Env))
    (hd : ∀ d ∈ deliveries, d.1.Decoded) :
    reg.tombs.count ≤ (receive reg deliveries).tombs.count := by
  induction deliveries generalizing reg with
  | nil => exact Nat.le_refl _
  | cons d rest ih =>
    have hhere := hd d List.mem_cons_self
    have hrest := ih (apply_inv d.2 h hhere) fun x hx => hd x (List.mem_cons_of_mem _ hx)
    exact Nat.le_trans (apply_count_le h hhere) hrest

/-- The delivery is for the stream of that identity. -/
def concerns (application name : Str) (d : Op × Env) : Bool :=
  decide (d.1.application = application ∧ d.1.name = name)

def Cell.receive (c : Cell) (deliveries : List (Op × Env)) : Cell :=
  deliveries.foldl (fun c d => c.apply d.2 d.1) c

/-- A run of a registry, seen at one identity, is the run of its cell over the deliveries
that name it. Deliveries to other identities only have to differ in the owner hash. -/
theorem receive_cell (h : Inv reg) (hr : RingOk reg.tombs) (deliveries : List (Op × Env))
    (hd : ∀ d ∈ deliveries, d.1.Decoded)
    (hapart : ∀ d ∈ deliveries, concerns application name d = false →
      ownerHash d.1.application d.1.name ≠ ownerHash application name)
    (hlt : (receive reg deliveries).tombs.count < tombstones) :
    cell (receive reg deliveries) application name =
      (cell reg application name).receive (deliveries.filter (concerns application name)) := by
  induction deliveries generalizing reg with
  | nil => rfl
  | cons d rest ih =>
    have hhere := hd d List.mem_cons_self
    have hdrest : ∀ x ∈ rest, x.1.Decoded := fun x hx => hd x (List.mem_cons_of_mem _ hx)
    obtain ⟨g, he, hg⟩ := @apply_does reg d.2 d.1 h hhere
    have hi := he.inv h
    have hcount : (apply d.2 reg d.1).1.tombs.count < tombstones :=
      Nat.lt_of_le_of_lt (receive_count_le hi rest hdrest) hlt
    have hrun := ih hi (he.ring hr hcount) hdrest
      (fun x hx => hapart x (List.mem_cons_of_mem _ hx)) hlt
    have hstep : receive reg (d :: rest) = receive (apply d.2 reg d.1).1 rest := rfl
    rw [hstep, hrun]
    cases hc : concerns application name d with
    | true =>
      rw [List.filter_cons_of_pos hc]
      obtain ⟨rfl, rfl⟩ : d.1.application = application ∧ d.1.name = name := of_decide_eq_true hc
      rw [he.own h hr, hg]
      rfl
    | false =>
      have hne : ¬ (d.1.name = name ∧ d.1.application = application) := by
        intro hboth
        exact of_decide_eq_false hc hboth.symm
      rw [List.filter_cons_of_neg (by simp [hc]),
        he.other h hr hne (hapart d List.mem_cons_self hc)]

end GraphCell
