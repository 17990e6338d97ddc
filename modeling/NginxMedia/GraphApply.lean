import NginxMedia.GraphReplica

/-! One call of `ngx_media_graph_apply()` on the whole registry. `apply_outcome` lists what a
call can do, each outcome with its return code; from the list follow the roll-back of a call
that fails, the repetition of one that succeeds, and the registry's own bookkeeping. -/
namespace GraphApply

open MediaTypes MediaGraph GraphCell GraphReplica

variable {env : Env} {reg reg' : Registry} {op : Op}

def Again (reg : Registry) (op : Op) : Prop := ∀ env, (MediaGraph.apply env reg op).1 = reg

def Holds (op : Op) (st : Stream) : Prop :=
  match op.kind with
  | .streamSet => setFields op st = st
  | .streamDelete => False
  | .sourceSet =>
    st.incarnation = op.incarnation ∧ op.id ≠ [] ∧ setSourceIn op st = st ∧
      ∃ s, sourceFind st op.id = some s ∧ s.type = op.type ∧ s.path = op.path ∧
        s.caFile = op.caFile
  | .sourceDelete => { removeSource op.id st with revision := op.revision } = st

inductive Outcome (reg : Registry) (op : Op) : Registry → Rc → Prop where
  | failed (n : ℕ) : reg.fresh ≤ n → Outcome reg op { reg with fresh := n } .error
  | dropped : Again reg op → Outcome reg op reg .ok
  | wrote (e : Entry) (f : Stream → Stream) :
      registryStream reg op.application op.name = some e →
      e.stream.revision ≤ (f e.stream).revision → Holds op (f e.stream) →
      Outcome reg op (update reg e.handle f) .ok
  | created (st : Stream) : registryStream reg op.application op.name = none → Holds op st →
      Outcome reg op (withNew reg op.application op.name st) .ok
  | buried : registryStream reg op.application op.name = none →
      Outcome reg op { reg with
        tombs := tombstoneAdd reg.tombs (ownerHash op.application op.name) op.revision } .ok
  | removed (e : Entry) (v : ℕ) : registryStream reg op.application op.name = some e →
      op.revision ≤ v →
      Outcome reg op { without reg e.handle with
        tombs := tombstoneAdd reg.tombs (ownerHash op.application op.name) v } .ok
  | replaced (e : Entry) (st : Stream) (v : ℕ) :
      registryStream reg op.application op.name = some e →
      e.stream.revision ≤ st.revision → Holds op st →
      Outcome reg op { withNew (without reg e.handle) op.application op.name st with
        count := reg.count
        tombs := tombstoneAdd reg.tombs (ownerHash op.application op.name) v } .ok

theorem update_same (h : Inv reg) {e : Entry} (he : e ∈ reg.entries) {f : Stream → Stream}
    (hf : f e.stream = e.stream) : update reg e.handle f = reg := by
  have hmap : (reg.entries.map fun x =>
      if x.handle = e.handle then { x with stream := f x.stream } else x) = reg.entries := by
    rw [← List.map_id reg.entries, List.map_map]
    apply List.map_congr_left
    intro x hx
    simp only [Function.comp_apply, id_eq]
    split_ifs with hh
    · rw [h.handle_inj (by simpa using hx) he hh, hf]
    · rfl
  rw [update, hmap]

theorem again_of_buried
    (hb : tombstoneHas reg.tombs (ownerHash op.application op.name) op.revision = true) :
    Again reg op := by
  intro env
  rw [MediaGraph.apply, if_pos hb]

theorem again_of_stale
    (hs : ((registryStream reg op.application op.name).any fun e =>
      decide (e.stream.revision > op.revision)) = true) : Again reg op := by
  intro env
  unfold MediaGraph.apply
  by_cases hb : tombstoneHas reg.tombs (ownerHash op.application op.name) op.revision = true
  · rw [if_pos hb]
  · rw [if_neg hb, if_pos hs]

/-- What the dispatch on the kind leaves alone, the call leaves alone. -/
theorem again_of_dispatch
    (h : ∀ env,
      (match op.kind with
        | .streamSet => streamSet env reg op (registryStream reg op.application op.name)
        | .streamDelete => streamDelete env reg op (registryStream reg op.application op.name)
        | .sourceSet => sourceSet env reg op (registryStream reg op.application op.name)
        | .sourceDelete => sourceDelete reg op (registryStream reg op.application op.name)).1 =
      reg) : Again reg op := by
  intro env
  unfold MediaGraph.apply
  dsimp only
  split_ifs
  · rfl
  · rfl
  · exact h env

theorem streamSet_holds (h : Inv reg) {e : Entry}
    (hl : registryStream reg op.application op.name = some e)
    (hf : setFields op e.stream = e.stream) (env : Env) :
    (streamSet env reg op (some e)).1 = reg := by
  obtain ⟨hm, -, -⟩ := lookup_some hl
  have hi : e.stream.incarnation = op.incarnation := (congrArg Stream.incarnation hf).symm
  unfold streamSet
  rw [Option.filter_some, if_neg (by simp [hi]), graphStream_some hl]
  dsimp only
  rw [update_same h hm hf]
  by_cases hr : env.refuses = true
  · -- what is restored is what was never changed
    rw [if_pos hr, if_neg (by simp)]
    dsimp only
    apply update_same h hm
    rfl
  · rw [if_neg hr]

theorem sourceSet_holds (h : Inv reg) {e : Entry} {s : Source}
    (hl : registryStream reg op.application op.name = some e)
    (hi : e.stream.incarnation = op.incarnation) (hid : op.id ≠ [])
    (hset : setSourceIn op e.stream = e.stream) (hs : sourceFind e.stream op.id = some s)
    (htype : s.type = op.type) (hpath : s.path = op.path) (hca : s.caFile = op.caFile)
    (env : Env) : (sourceSet env reg op (some e)).1 = reg := by
  obtain ⟨hm, -, -⟩ := lookup_some hl
  have htake : takeIncarnation op e.stream = e.stream := by
    rw [takeIncarnation, ← hi]
  have hpaths : sourcePathsSet env op s = some { s with path := op.path, caFile := op.caFile } := by
    rw [sourcePathsSet, if_neg (by simp [hpath, hca])]
  unfold sourceSet
  rw [if_neg (by simp [hi]), if_neg hid, graphStream_some hl]
  dsimp only
  have hsame : update reg e.handle (fun st => { st with incarnation := op.incarnation }) = reg :=
    update_same h hm htake
  rw [hs, hsame]
  dsimp only
  rw [if_neg (by simp [htype]), hpaths]
  exact update_same h hm hset

theorem sourceDelete_holds (h : Inv reg) {e : Entry}
    (hl : registryStream reg op.application op.name = some e)
    (hf : { removeSource op.id e.stream with revision := op.revision } = e.stream) :
    (sourceDelete reg op (some e)).1 = reg := by
  obtain ⟨hm, -, -⟩ := lookup_some hl
  unfold sourceDelete
  dsimp only
  by_cases hforeign : foreign op e = true
  · rw [if_pos hforeign]
  · by_cases hid : op.id = []
    · rw [if_neg hforeign, if_pos hid]
    · rw [if_neg hforeign, if_neg hid]
      exact @update_same reg h e hm
        (fun st => { removeSource op.id st with revision := op.revision }) hf

theorem again_of_holds (h : Inv reg) {e : Entry}
    (hl : registryStream reg op.application op.name = some e) (hh : Holds op e.stream) :
    Again reg op := by
  apply again_of_dispatch
  intro env
  rw [hl]
  unfold Holds at hh
  cases hk : op.kind with
  | streamSet =>
    rw [hk] at hh
    exact streamSet_holds h hl hh env
  | streamDelete =>
    rw [hk] at hh
    exact hh.elim
  | sourceSet =>
    rw [hk] at hh
    obtain ⟨hi, hid, hset, s, hs, htype, hpath, hca⟩ := hh
    exact sourceSet_holds h hl hi hid hset hs htype hpath hca env
  | sourceDelete =>
    rw [hk] at hh
    exact sourceDelete_holds h hl hh

theorem setSource_again (op : Op) (s : Source) :
    setSource op (setSource op s) = setSource op s := by
  simp only [setSource, ← Bool.or_assoc, Bool.or_self]
  split_ifs <;> rfl

theorem setSourceIn_again (op : Op) (st : Stream) :
    setSourceIn op (setSourceIn op st) = setSourceIn op st := by
  simp only [setSourceIn, List.map_map]
  congr 1
  apply List.map_congr_left
  intro s _
  simp only [Function.comp_apply]
  by_cases hs : s.id = op.id
  · have hid : (setSource op s).id = op.id := hs
    rw [if_pos hs, if_pos hid, setSource_again]
  · rw [if_neg hs, if_neg hs]

theorem sourceFind_setSourceIn (op : Op) (st : Stream) :
    sourceFind (setSourceIn op st) op.id = (sourceFind st op.id).map (setSource op) := by
  have hpred : ((fun s : Source => decide (s.id = op.id)) ∘ fun s =>
      if s.id = op.id then setSource op s else s) = fun s => decide (s.id = op.id) := by
    funext s
    simp only [Function.comp_apply]
    split_ifs <;> rfl
  simp only [sourceFind, setSourceIn, List.find?_map, hpred]
  cases hf : st.sources.find? fun s => decide (s.id = op.id) with
  | none => rfl
  | some s =>
    have hs := List.find?_some hf
    rw [decide_eq_true_eq] at hs
    rw [Option.map_some, Option.map_some, if_pos hs]

theorem holds_setSourceIn (hk : op.kind = .sourceSet) (hid : op.id ≠ []) {st : Stream}
    {s : Source} (hi : st.incarnation = op.incarnation) (hs : sourceFind st op.id = some s)
    (htype : s.type = op.type) : Holds op (setSourceIn op st) := by
  unfold Holds
  rw [hk]
  refine ⟨hi, hid, setSourceIn_again op st, setSource op s, ?_, htype, rfl, rfl⟩
  rw [sourceFind_setSourceIn, hs]
  rfl

theorem sourceFind_addSource {st : Stream} {s : Source} (hf : sourceFind st s.id = none) :
    sourceFind (addSource s st) s.id = some s := by
  rw [sourceFind, addSource, List.find?_append]
  rw [sourceFind] at hf
  rw [hf]
  simp

theorem sourceOpen_type {s : Source} (h : sourceOpen env op = some s) : s.type = op.type := by
  unfold sourceOpen at h
  split_ifs at h
  rw [← Option.some.inj h]
  rfl

theorem le_revisionNext (shared revision : ℕ) : revision ≤ revisionNext shared revision := by
  unfold revisionNext
  split_ifs with h <;> omega

theorem le_retiredRevision (env : Env) (st : Stream) : st.revision ≤ retiredRevision env st := by
  have hfold : ∀ (ks : List ℕ) (r : ℕ),
      r ≤ ks.foldl (fun rev k => revisionNext (env.shared k) rev) r := by
    intro ks
    induction ks with
    | nil => exact fun r => Nat.le_refl r
    | cons k ks ih => exact fun r => Nat.le_trans (le_revisionNext _ _) (ih _)
  exact hfold _ _

theorem streamSet_outcome (h : Inv reg) (hd : op.Decoded) (hk : op.kind = .streamSet)
    (hold : ∀ e, registryStream reg op.application op.name = some e →
      e.stream.revision ≤ op.revision) :
    Outcome reg op (streamSet env reg op (registryStream reg op.application op.name)).1
      (streamSet env reg op (registryStream reg op.application op.name)).2 := by
  have hinc : op.incarnation ≠ 0 := hd.incarnation_pos (by simp [hk])
  have hholds : ∀ st, Holds op (setFields op st) := by
    intro st
    unfold Holds
    rw [hk]
    rfl
  cases hl : registryStream reg op.application op.name with
  | none =>
    simp only [streamSet, Option.filter_none, graphStream_none h hd hinc hl]
    by_cases hs : env.stages = false
    · rw [if_pos hs]
      exact Outcome.failed reg.fresh (Nat.le_refl _)
    · rw [if_neg hs]
      dsimp only
      rw [update_withNew h]
      by_cases hr : env.refuses = true
      · simp only [if_pos hr, Option.isNone_none, if_true, update_withNew h, discard_withNew h]
        exact Outcome.failed _ (Nat.le_succ _)
      · rw [if_neg hr]
        exact Outcome.created _ hl (hholds _)
  | some e =>
    obtain ⟨hm, ha, hn⟩ := lookup_some hl
    simp only [streamSet, Option.filter_some, decide_eq_true_eq]
    by_cases hi : e.stream.incarnation ≠ op.incarnation
    · rw [if_pos hi]
      dsimp only
      by_cases hrev : op.revision ≤ e.stream.revision
      · rw [if_pos hrev]
        apply Outcome.dropped
        apply again_of_dispatch
        intro env
        simp only [hk, hl, streamSet, Option.filter_some, decide_eq_true_eq]
        rw [if_pos hi]
        dsimp only
        rw [if_pos hrev]
      · rw [if_neg hrev, streamStage_eq hd]
        by_cases hs : env.stages = false
        · rw [if_pos hs]
          exact Outcome.failed reg.fresh (Nat.le_refl _)
        · rw [if_neg hs]
          dsimp only
          rw [update_withNew h]
          by_cases hr : env.refuses = true
          · rw [if_pos hr, discard_withNew h]
            exact Outcome.failed _ (Nat.le_succ _)
          · rw [if_neg hr, destroy_withNew h hm, ha, hn]
            dsimp only
            -- the revision is written to the replacement last
            rw [update_replacement h]
            exact Outcome.replaced e (setFields op (Stream.new op.incarnation))
              (retiredRevision env e.stream) hl (hold e hl) (hholds _)
    · rw [if_neg hi, graphStream_some hl]
      dsimp only
      by_cases hr : env.refuses = true
      · rw [if_pos hr, if_neg (by simp), update_update]
        have hsame : update reg e.handle ((fun st => { st with
            failureTimeout := e.stream.failureTimeout
            recoveryTimeout := e.stream.recoveryTimeout
            mediaMode := e.stream.mediaMode
            revision := e.stream.revision }) ∘ setFields op) = reg := by
          apply update_same h hm
          simp only [Function.comp_apply, setFields]
          rw [← not_not.mp hi]
        rw [hsame]
        exact Outcome.failed reg.fresh (Nat.le_refl _)
      · rw [if_neg hr]
        exact Outcome.wrote e _ hl (hold e hl) (hholds _)

theorem streamDelete_outcome (h : Inv reg) (hk : op.kind = .streamDelete) :
    Outcome reg op (streamDelete env reg op (registryStream reg op.application op.name)).1
      (streamDelete env reg op (registryStream reg op.application op.name)).2 := by
  cases hl : registryStream reg op.application op.name with
  | none => exact Outcome.buried hl
  | some e =>
    obtain ⟨hm, ha, hn⟩ := lookup_some hl
    unfold streamDelete
    dsimp only
    by_cases hforeign : foreign op e = true
    · rw [if_pos hforeign]
      apply Outcome.dropped
      apply again_of_dispatch
      intro env
      simp only [hk, hl, streamDelete, if_pos hforeign]
    · rw [if_neg hforeign]
      by_cases hrev : op.revision > e.stream.revision
      · rw [if_pos hrev, destroy_update h hm, ha, hn]
        exact Outcome.removed e _ hl (le_retiredRevision env { e.stream with revision := op.revision })
      · rw [if_neg hrev, destroy h hm, ha, hn]
        exact Outcome.removed e _ hl
          (Nat.le_trans (Nat.le_of_not_lt hrev) (le_retiredRevision env e.stream))

theorem sourceDelete_outcome (hk : op.kind = .sourceDelete)
    (hold : ∀ e, registryStream reg op.application op.name = some e →
      e.stream.revision ≤ op.revision) :
    Outcome reg op (sourceDelete reg op (registryStream reg op.application op.name)).1
      (sourceDelete reg op (registryStream reg op.application op.name)).2 := by
  cases hl : registryStream reg op.application op.name with
  | none =>
    apply Outcome.dropped
    apply again_of_dispatch
    intro env
    simp only [hk, hl, sourceDelete]
  | some e =>
    unfold sourceDelete
    dsimp only
    by_cases hforeign : foreign op e = true
    · rw [if_pos hforeign]
      apply Outcome.dropped
      apply again_of_dispatch
      intro env
      simp only [hk, hl, sourceDelete, if_pos hforeign]
    · by_cases hid : op.id = []
      · rw [if_neg hforeign, if_pos hid]
        apply Outcome.dropped
        apply again_of_dispatch
        intro env
        simp only [hk, hl, sourceDelete, if_neg hforeign, if_pos hid]
      · rw [if_neg hforeign, if_neg hid]
        refine Outcome.wrote e (fun st => { removeSource op.id st with revision := op.revision })
          hl (hold e hl) ?_
        unfold Holds
        rw [hk]
        simp [removeSource]

theorem sourceSet_some_outcome (h : Inv reg) (hk : op.kind = .sourceSet) (hid : op.id ≠ [])
    {e : Entry} (hl : registryStream reg op.application op.name = some e)
    (hi : e.stream.incarnation = op.incarnation) (hold : e.stream.revision ≤ op.revision) :
    Outcome reg op (sourceSet env reg op (some e)).1 (sourceSet env reg op (some e)).2 := by
  obtain ⟨hm, -, -⟩ := lookup_some hl
  have hsame : update reg e.handle (fun st => { st with incarnation := op.incarnation }) = reg := by
    apply update_same h hm
    rw [← hi]
  unfold sourceSet
  rw [if_neg (by simp [hi]), if_neg hid, graphStream_some hl]
  dsimp only
  rw [hsame]
  cases hf : sourceFind e.stream op.id with
  | some s =>
    dsimp only
    by_cases ht : s.type ≠ op.type
    · rw [if_pos ht]
      exact Outcome.failed reg.fresh (Nat.le_refl _)
    · rw [if_neg ht]
      cases hp : sourcePathsSet env op s with
      | none => exact Outcome.failed reg.fresh (Nat.le_refl _)
      | some s' =>
        exact Outcome.wrote e (setSourceIn op) hl hold
          (holds_setSourceIn hk hid hi hf (not_not.mp ht))
  | none =>
    dsimp only
    cases ho : sourceOpen env op with
    | none => exact Outcome.failed reg.fresh (Nat.le_refl _)
    | some s =>
      have hs := sourceOpen_id ho
      dsimp only
      cases hp : sourcePathsSet env op s with
      | none =>
        dsimp only
        have hundo : update reg e.handle (removeSource op.id ∘ addSource s) = reg := by
          apply update_same h hm
          rw [Function.comp_apply, ← hs]
          exact removeSource_addSource (by rw [hs]; exact hf)
        rw [if_neg (by simp), update_update, hundo]
        exact Outcome.failed reg.fresh (Nat.le_refl _)
      | some s' =>
        dsimp only
        rw [update_update]
        refine Outcome.wrote e (setSourceIn op ∘ addSource s) hl hold
          (holds_setSourceIn hk hid hi ?_ (sourceOpen_type ho))
        rw [← hs] at hf ⊢
        exact sourceFind_addSource hf

theorem sourceSet_none_outcome (h : Inv reg) (hd : op.Decoded) (hk : op.kind = .sourceSet)
    (hid : op.id ≠ []) (hl : registryStream reg op.application op.name = none) :
    Outcome reg op (sourceSet env reg op none).1 (sourceSet env reg op none).2 := by
  have hinc : op.incarnation ≠ 0 := hd.incarnation_pos (by simp [hk])
  unfold sourceSet
  rw [if_neg (by simp), if_neg hid, graphStream_none h hd hinc hl]
  by_cases hs : env.stages = false
  · rw [if_pos hs]
    exact Outcome.failed reg.fresh (Nat.le_refl _)
  · rw [if_neg hs]
    dsimp only
    have hfind : sourceFind (Stream.new op.incarnation) op.id = none := rfl
    rw [hfind, update_withNew h]
    dsimp only
    cases ho : sourceOpen env op with
    | none =>
      dsimp only
      rw [if_pos (by rfl), discard_withNew h]
      exact Outcome.failed _ (Nat.le_succ _)
    | some s =>
      have hid' := sourceOpen_id ho
      dsimp only
      cases hp : sourcePathsSet env op s with
      | none =>
        dsimp only
        rw [if_pos (by rfl), update_withNew h, update_withNew h, discard_withNew h]
        exact Outcome.failed _ (Nat.le_succ _)
      | some s' =>
        dsimp only
        rw [update_withNew h, update_withNew h]
        refine Outcome.created _ hl (holds_setSourceIn hk hid rfl ?_ (sourceOpen_type ho))
        rw [← hid']
        exact sourceFind_addSource rfl

theorem sourceSet_outcome (h : Inv reg) (hd : op.Decoded) (hk : op.kind = .sourceSet)
    (hold : ∀ e, registryStream reg op.application op.name = some e →
      e.stream.revision ≤ op.revision) :
    Outcome reg op (sourceSet env reg op (registryStream reg op.application op.name)).1
      (sourceSet env reg op (registryStream reg op.application op.name)).2 := by
  cases hl : registryStream reg op.application op.name with
  | none =>
    by_cases hid : op.id = []
    · rw [sourceSet, if_neg (by simp), if_pos hid]
      exact Outcome.failed reg.fresh (Nat.le_refl _)
    · exact sourceSet_none_outcome h hd hk hid hl
  | some e =>
    by_cases hi : e.stream.incarnation = op.incarnation
    · by_cases hid : op.id = []
      · rw [sourceSet, if_neg (by simp [hi]), if_pos hid]
        exact Outcome.failed reg.fresh (Nat.le_refl _)
      · exact sourceSet_some_outcome h hk hid hl hi (hold e hl)
    · have hdrop : ∀ env, sourceSet env reg op (some e) = (reg, .ok) := by
        intro env
        rw [sourceSet, if_pos (by simpa using hi)]
      rw [hdrop env]
      apply Outcome.dropped
      apply again_of_dispatch
      intro env
      simp only [hk, hl, hdrop env]

theorem apply_outcome (env : Env) (h : Inv reg) (hd : op.Decoded) :
    Outcome reg op (MediaGraph.apply env reg op).1 (MediaGraph.apply env reg op).2 := by
  unfold MediaGraph.apply
  by_cases hb : tombstoneHas reg.tombs (ownerHash op.application op.name) op.revision = true
  · rw [if_pos hb]
    exact Outcome.dropped (again_of_buried hb)
  · rw [if_neg hb]
    dsimp only
    by_cases hs : ((registryStream reg op.application op.name).any fun e =>
        decide (e.stream.revision > op.revision)) = true
    · rw [if_pos hs]
      exact Outcome.dropped (again_of_stale hs)
    · have hold : ∀ e, registryStream reg op.application op.name = some e →
          e.stream.revision ≤ op.revision := by
        intro e he
        rw [he, Option.any_some, decide_eq_true_eq] at hs
        exact Nat.le_of_not_lt hs
      rw [if_neg hs]
      cases hk : op.kind with
      | streamSet => exact streamSet_outcome h hd hk hold
      | streamDelete => exact streamDelete_outcome h hk
      | sourceSet => exact sourceSet_outcome h hd hk hold
      | sourceDelete => exact sourceDelete_outcome hk hold

structure RingWf (ring : TombstoneRing) : Prop where
  next_lt : ring.next < tombstones
  count_le : ring.count ≤ tombstones
  next_eq : ring.count < tombstones → ring.next = ring.count

theorem RingWf.add {ring : TombstoneRing} (h : RingWf ring) (hash : UInt64) (revision : ℕ) :
    RingWf (tombstoneAdd ring hash revision) := by
  obtain ⟨hn, hc, he⟩ := h
  have hpos : 0 < tombstones := by decide
  constructor
  · exact Nat.mod_lt _ hpos
  · simp only [tombstoneAdd]
    split_ifs <;> omega
  · simp only [tombstoneAdd]
    split_ifs with hlt
    · intro hlt'
      rw [he hlt, Nat.mod_eq_of_lt hlt']
    · exact fun hlt' => absurd hlt' hlt

theorem RingWf.has_add {ring : TombstoneRing} (h : RingWf ring) (hash : UInt64) {revision v : ℕ}
    (hv : revision ≤ v) : tombstoneHas (tombstoneAdd ring hash v) hash revision = true := by
  obtain ⟨hn, hc, he⟩ := h
  have hin : ring.next < (tombstoneAdd ring hash v).count := by
    simp only [tombstoneAdd]
    split_ifs with hlt
    · rw [he hlt]
      exact Nat.lt_succ_self _
    · omega
  refine List.any_eq_true.mpr ⟨ring.next, List.mem_range.mpr hin, ?_⟩
  simp [tombstoneAdd, hv]

structure WellFormed (reg : Registry) : Prop extends Inv reg where
  counted : reg.count = reg.entries.length
  ring : RingWf reg.tombs

theorem length_without (h : Inv reg) {e : Entry} (he : e ∈ reg.entries) :
    (without reg e.handle).entries.length + 1 = reg.entries.length := by
  have hnodup : reg.entries.Nodup := List.Nodup.of_map _ h.handles
  have herase : (without reg e.handle).entries = reg.entries.erase e := by
    rw [hnodup.erase_eq_filter, without]
    apply List.filter_congr
    intro x hx
    by_cases hxe : x = e
    · simp [hxe]
    · have hne : x.handle ≠ e.handle := fun hh => hxe (h.handle_inj hx he hh)
      simp [hxe, hne]
  rw [herase, List.length_erase_of_mem he]
  have := List.length_pos_of_mem he
  omega

theorem empty_wellFormed : WellFormed Registry.empty :=
  ⟨empty_inv, rfl, by decide, by decide, fun _ => rfl⟩

theorem WellFormed.after_update (h : WellFormed reg) (handle : ℕ) (f : Stream → Stream) :
    WellFormed (update reg handle f) := by
  refine ⟨h.toInv.after_update handle f, ?_, h.ring⟩
  simp only [update, List.length_map]
  exact h.counted

theorem WellFormed.after_bury (h : WellFormed reg) (hash : UInt64) (v : ℕ) :
    WellFormed { reg with tombs := tombstoneAdd reg.tombs hash v } :=
  ⟨h.toInv.of_entries rfl (Nat.le_refl _), h.counted, h.ring.add hash v⟩

theorem WellFormed.after_without (h : WellFormed reg) {e : Entry} (he : e ∈ reg.entries) :
    WellFormed (without reg e.handle) := by
  refine ⟨h.toInv.after_without e.handle, ?_, h.ring⟩
  have hlen := length_without h.toInv he
  have hcount := h.counted
  simp only [without] at hlen ⊢
  omega

theorem WellFormed.after_withNew (h : WellFormed reg) {application name : Str} (st : Stream)
    (hnone : registryStream reg application name = none) :
    WellFormed (withNew reg application name st) := by
  refine ⟨h.toInv.after_withNew st hnone, ?_, h.ring⟩
  simp only [withNew, List.length_append, List.length_singleton]
  rw [h.counted]

theorem Outcome.wellFormed {rc : Rc} (ho : Outcome reg op reg' rc) (h : WellFormed reg) :
    WellFormed reg' := by
  cases ho with
  | failed n hn => exact ⟨h.toInv.of_entries rfl hn, h.counted, h.ring⟩
  | dropped => exact h
  | wrote e f => exact h.after_update e.handle f
  | created st hl => exact h.after_withNew st hl
  | buried => exact h.after_bury _ _
  | removed e v hl => exact (h.after_without (lookup_some hl).1).after_bury _ v
  | replaced e st v hl =>
    have hm := (lookup_some hl).1
    have hnew := ((h.after_without hm).after_withNew st
      (lookup_after_without h.toInv hl)).after_bury (ownerHash op.application op.name) v
    have hcount : (withNew (without reg e.handle) op.application op.name st).count =
        reg.count := by
      have := List.length_pos_of_mem hm
      have := h.counted
      simp only [withNew, without]
      omega
    rw [← hcount]
    exact hnew

/-- The registries a worker can come to hold: graph operations from its peers, and what its
own API and runtime do to the registry and through the stream pointers it gave out. -/
inductive Held : Registry → Prop where
  | empty : Held Registry.empty
  | apply (env : Env) {reg : Registry} {op : Op} : Held reg → op.Decoded →
      Held (MediaGraph.apply env reg op).1
  | create (env : Env) {reg reg' : Registry} {e : Entry} {application name : Str} : Held reg →
      streamCreate env reg application name = some (e, reg') → Held reg'
  | remove (env : Env) {reg : Registry} (handle : ℕ) (remember : Bool) : Held reg →
      Held (streamRemove env reg handle remember).1
  | write {reg : Registry} (handle : ℕ) (f : Stream → Stream) : Held reg →
      Held (update reg handle f)
  | bury {reg : Registry} (hash : UInt64) (v : ℕ) : Held reg →
      Held { reg with tombs := tombstoneAdd reg.tombs hash v }

theorem WellFormed.after_create (h : WellFormed reg) {e : Entry} {application name : Str}
    (hc : streamCreate env reg application name = some (e, reg')) : WellFormed reg' := by
  unfold streamCreate at hc
  split_ifs at hc
  cases hl : registryStream reg application name with
  | some x =>
    simp only [hl, Option.some.injEq, Prod.mk.injEq] at hc
    rw [← hc.2]
    exact h
  | none =>
    simp only [hl] at hc
    unfold streamStage at hc
    split_ifs at hc
    simp only [Option.some.injEq, Prod.mk.injEq] at hc
    rw [← hc.2]
    exact h.after_withNew (Stream.new env.incarnation) hl

theorem WellFormed.after_remove (h : WellFormed reg) (handle : ℕ) (remember : Bool) :
    WellFormed (streamRemove env reg handle remember).1 := by
  unfold streamRemove
  cases hf : reg.entries.find? fun e => decide (e.handle = handle) with
  | none => exact h
  | some e =>
    have hhandle : e.handle = handle := by
      have := List.find?_some hf
      rwa [decide_eq_true_eq] at this
    subst hhandle
    have hgone := h.after_without (List.mem_of_find?_eq_some hf)
    dsimp only
    cases remember with
    | false => exact hgone
    | true => exact hgone.after_bury _ _

theorem Held.wellFormed (hr : Held reg) : WellFormed reg := by
  induction hr with
  | empty => exact empty_wellFormed
  | apply env _ hd ih => exact (apply_outcome env ih.toInv hd).wellFormed ih
  | create env _ hc ih => exact ih.after_create hc
  | remove env handle remember _ ih => exact ih.after_remove handle remember
  | write handle f _ ih => exact ih.after_update handle f
  | bury hash v _ ih => exact ih.after_bury hash v

/-- The streams with all their fields and sources, the remembered deletions and the count;
only addresses may have been used up. -/
structure SameState (reg reg' : Registry) : Prop where
  entries : reg'.entries = reg.entries
  tombs : reg'.tombs = reg.tombs
  count : reg'.count = reg.count

theorem Outcome.same (ho : Outcome reg op reg' .error) : SameState reg reg' := by
  cases ho with
  | failed n hn => exact ⟨rfl, rfl, rfl⟩

theorem Outcome.again (ho : Outcome reg op reg' .ok) (h : WellFormed reg) : Again reg' op := by
  have h' : WellFormed reg' := ho.wellFormed h
  cases ho with
  | dropped hagain => exact hagain
  | wrote e f hl _ hh =>
    refine @again_of_holds _ op h'.toInv { e with stream := f e.stream } ?_ hh
    rw [lookup_update, hl, Option.map_some, if_pos rfl]
  | created st hl hh =>
    refine @again_of_holds _ op h'.toInv ⟨reg.fresh, op.application, op.name, st⟩ ?_ hh
    rw [lookup_withNew, hl, if_pos ⟨rfl, rfl⟩]
    rfl
  | buried hl => exact again_of_buried (h.ring.has_add _ (Nat.le_refl _))
  | removed e v hl hv => exact again_of_buried (h.ring.has_add _ hv)
  | replaced e st v hl _ hh =>
    refine @again_of_holds _ op h'.toInv ⟨reg.fresh, op.application, op.name, st⟩ ?_ hh
    have hlook : registryStream (withNew (without reg e.handle) op.application op.name st)
        op.application op.name = some ⟨reg.fresh, op.application, op.name, st⟩ := by
      rw [lookup_withNew, lookup_after_without h.toInv hl, if_pos ⟨rfl, rfl⟩]
      rfl
    exact hlook

theorem Outcome.effect {rc : Rc} (ho : Outcome reg op reg' rc) :
    ∃ g, Effect op.application op.name reg reg' g := by
  cases ho with
  | failed n hn => exact ⟨_, Effect.keep n hn⟩
  | dropped => exact ⟨_, Effect.keep reg.fresh (Nat.le_refl _)⟩
  | wrote e f hl => exact ⟨_, Effect.change e f hl⟩
  | created st hl => exact ⟨_, Effect.create st hl⟩
  | buried => exact ⟨_, Effect.bury op.revision⟩
  | removed e v hl => exact ⟨_, Effect.remove e v hl⟩
  | replaced e st v hl => exact ⟨_, Effect.replace e st v hl⟩

end GraphApply
