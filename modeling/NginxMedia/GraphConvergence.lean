import Mathlib.Data.Finset.Max
import NginxMedia.GraphReplica

/-! When two replicas that receive the same operations agree. All operations on a stream are
ordered by the one revision the stream keeps, so an operation that arrives after a newer one
is dropped, also when the two are about different sources. `Convergent` says which sets of
operations survive that, and `replicas_agree_iff` that it is exactly those. -/
namespace GraphConvergence

open MediaTypes MediaGraph GraphCell GraphReplica

@[ext] structure SourceView where
  type : ℕ
  priority : ℕ
  path : Str
  key : Option Str
  enabled : Bool

@[ext] structure StreamView where
  failureTimeout : ℕ
  recoveryTimeout : ℕ
  mediaMode : ℕ
  revision : ℕ
  sources : Str → Option SourceView

def sourceView (s : Source) : SourceView :=
  ⟨s.type, s.priority, s.path, if s.keySet then some s.keyHash else none, s.enabled⟩

def streamView (st : Stream) : StreamView :=
  ⟨st.failureTimeout, st.recoveryTimeout, st.mediaMode, st.revision,
    fun id => (sourceFind st id).map sourceView⟩

def desired (reg : Registry) (application name : Str) : Option StreamView :=
  (registryStream reg application name).map fun e => streamView e.stream

theorem desired_eq (reg : Registry) (application name : Str) :
    desired reg application name = (cell reg application name).stream.map streamView := by
  rw [desired, cell, Option.map_map]
  rfl

/-- The stream an accepted operation leaves where it found `st`; nothing when it stops at an
error. -/
def writes (op : Op) (st : Stream) : Option Stream :=
  match op.kind with
  | .streamSet => some (setFields op st)
  | .streamDelete => none
  | .sourceSet =>
    if op.id = [] then none
    else
      match sourceFind st op.id with
      | some s => if s.type ≠ op.type then none else some (setSourceIn op st)
      | none => some (setSourceIn op (addSource (Source.new op.id op.type op.priority) st))
  | .sourceDelete =>
    if op.id = [] then none else some { removeSource op.id st with revision := op.revision }

def base (op : Op) (c : Cell) : Option Stream :=
  match c.stream with
  | some st => some st
  | none => if op.kind = .sourceDelete then none else some (Stream.new op.incarnation)

variable {env : Env} {c : Cell} {op m : Op}

theorem sourceTarget_willing (he : Willing env) (hd : op.Decoded) (hid : op.id ≠ []) (st : Stream) :
    (sourceTarget env st op).map (setSourceIn op) =
      match sourceFind st op.id with
      | some s => if s.type ≠ op.type then none else some (setSourceIn op st)
      | none => some (setSourceIn op (addSource (Source.new op.id op.type op.priority) st)) := by
  have hpaths : ∀ s, (sourcePathsSet env op s).isNone = false := by
    intro s
    simp [sourcePathsSet, he.copies]
  have hopen : sourceOpen env op = some (Source.new op.id op.type op.priority) := by
    have hpri := hd.priority_lt
    have hidle := hd.id_le
    have hpath := hd.path_le
    have hca := hd.caFile_le
    unfold sourceOpen
    rw [if_neg, if_neg (by simp [he.opens]), if_neg (by simp [he.adds])]
    rintro (h | h | h | h | h)
    · exact hid h
    · omega
    · omega
    · omega
    · omega
  unfold sourceTarget
  cases hf : sourceFind st op.id with
  | some s =>
    dsimp only
    by_cases ht : s.type ≠ op.type
    · rw [if_pos (Or.inl ht), if_pos ht]
      rfl
    · rw [if_neg (by simp [hpaths, not_not.mp ht]), if_neg ht]
      rfl
  | none =>
    rw [hopen]
    dsimp only
    rw [if_neg (by simp [hpaths])]
    rfl

theorem apply_writes (he : Willing env) (hd : op.Decoded) (ha : Accepts c op)
    (hinc : ∀ st ∈ c.stream, st.incarnation = op.incarnation) (hk : op.kind ≠ .streamDelete) :
    c.apply env op =
      match (base op c).bind (writes op) with
      | none => c
      | some st => ⟨some st, c.buried⟩ := by
  have hrefuse : env.refuses = false := by simp [Env.refuses, he.admits]
  rw [apply_of_accepts ha]
  unfold base writes
  cases hkind : op.kind with
  | streamDelete => exact absurd hkind hk
  | streamSet =>
    dsimp only
    unfold cellStreamSet
    cases hs : c.stream with
    | none => simp [he.stages, hrefuse]
    | some st => simp [hrefuse, hinc st hs]
  | sourceSet =>
    dsimp only
    unfold cellSourceSet
    have hmatch : c.stream.any (fun st => decide (st.incarnation ≠ op.incarnation)) = false := by
      cases hs : c.stream with
      | none => rfl
      | some st => simp [hinc st hs]
    by_cases hid : op.id = []
    · rw [if_pos (Or.inr hid)]
      cases hs : c.stream <;> simp [hid]
    · rw [if_neg (not_or.mpr ⟨by rw [hmatch]; simp, hid⟩), if_neg (by simp [he.stages])]
      have ht := sourceTarget_willing he hd hid (c.stream.getD (Stream.new op.incarnation))
      cases hs : c.stream with
      | none =>
        rw [hs] at ht
        simp only [Option.getD_none] at ht ⊢
        simp only [reduceCtorEq, if_false, Option.bind_some, if_neg hid, ← ht]
        cases sourceTarget env (Stream.new op.incarnation) op <;> rfl
      | some st =>
        rw [hs] at ht
        simp only [Option.getD_some] at ht ⊢
        simp only [Option.bind_some, if_neg hid, ← ht]
        cases sourceTarget env st op <;> rfl
  | sourceDelete =>
    dsimp only
    unfold cellSourceDelete
    cases hs : c.stream with
    | none => simp
    | some st =>
      by_cases hid : op.id = []
      · simp [hid]
      · simp [hid, hinc st hs]

theorem apply_deletes (ha : Accepts c op)
    (hst : ∀ st ∈ c.stream, st.incarnation = op.incarnation ∧ st.destinations = 0)
    (hk : op.kind = .streamDelete) : c.apply env op = ⟨none, c.buried ++ [op.revision]⟩ := by
  rw [apply_of_accepts ha, hk]
  dsimp only
  unfold cellStreamDelete
  cases hs : c.stream with
  | none => rfl
  | some st =>
    obtain ⟨hinc, hdest⟩ := hst st hs
    have hle := ha.stale st hs
    dsimp only
    rw [if_neg (by simp [hinc])]
    split_ifs with hgt
    · rw [retiredRevision_eq (by exact hdest)]
    · rw [retiredRevision_eq hdest, Nat.le_antisymm hle (Nat.le_of_not_lt hgt)]

def Effective (op : Op) : Prop := op.kind = .sourceSet ∨ op.kind = .sourceDelete → op.id ≠ []

def DefaultFields (op : Op) : Prop :=
  op.failureTimeout = failureTimeoutDefault ∧ op.recoveryTimeout = recoveryTimeoutDefault ∧
    op.mediaMode = mediaSource

def AgreesWith (m : Op) (ops : Finset Op) : Prop :=
  match m.kind with
  | .streamDelete => True
  | .streamSet => ∀ op ∈ ops, op.kind = .sourceSet → op.id = []
  | .sourceSet => ∀ op ∈ ops,
      (op.kind = .streamSet → DefaultFields op) ∧
        (op.kind = .sourceSet → op.id ≠ [] →
          op.id = m.id ∧ op.type = m.type ∧ (op.keySet = true → m.keySet = true))
  | .sourceDelete => ∀ op ∈ ops, op.kind ≠ .streamSet ∧ (op.kind = .sourceSet → op.id = [])

structure Newest (m : Op) (ops : Finset Op) : Prop where
  mem : m ∈ ops
  effective : Effective m
  newest : ∀ op ∈ ops, Effective op → op.revision ≤ m.revision

def Convergent (ops : Finset Op) : Prop := ∀ m, Newest m ops → AgreesWith m ops

structure OneLifetime (application name : Str) (incarnation : ℕ) (ops : Finset Op) : Prop where
  decoded : ∀ op ∈ ops, op.Decoded
  identity : ∀ op ∈ ops, op.application = application ∧ op.name = name
  incarnation : ∀ op ∈ ops, op.incarnation = incarnation
  revision_pos : ∀ op ∈ ops, op.revision ≠ 0
  revision_inj : ∀ op ∈ ops, ∀ op' ∈ ops, op.revision = op'.revision → op = op'

def deletions (deliveries : List (Op × Env)) : ℕ :=
  deliveries.countP fun d => decide (d.1.kind = .streamDelete)

/-- A run that delivers exactly these operations, each at least once, with enough memory. -/
structure Delivers (ops : Finset Op) (deliveries : List (Op × Env)) : Prop where
  mem : ∀ op, op ∈ deliveries.map Prod.fst ↔ op ∈ ops
  willing : ∀ d ∈ deliveries, Willing d.2
  deletions_lt : deletions deliveries < tombstones

section Run

variable {application name : Str} {incarnation : ℕ} {ops : Finset Op}

structure Lives (incarnation : ℕ) (c : Cell) : Prop where
  stream : ∀ st ∈ c.stream, st.incarnation = incarnation ∧ st.destinations = 0

theorem writes_spec {st st' : Stream} (h : writes op st = some st') :
    st'.revision = op.revision ∧ st'.destinations = st.destinations ∧
      (st'.incarnation = op.incarnation ∨ st'.incarnation = st.incarnation) := by
  unfold writes at h
  cases hk : op.kind with
  | streamSet =>
    rw [hk] at h
    rw [← Option.some.inj h]
    exact ⟨rfl, rfl, Or.inl rfl⟩
  | streamDelete => simp [hk] at h
  | sourceSet =>
    rw [hk] at h
    dsimp only at h
    split_ifs at h
    split at h
    · split_ifs at h
      rw [← Option.some.inj h]
      exact ⟨rfl, rfl, Or.inr rfl⟩
    · rw [← Option.some.inj h]
      exact ⟨rfl, rfl, Or.inr rfl⟩
  | sourceDelete =>
    rw [hk] at h
    dsimp only at h
    split_ifs at h
    rw [← Option.some.inj h]
    exact ⟨rfl, rfl, Or.inr rfl⟩

theorem step_cases (he : Willing env) (hd : op.Decoded) (hl : Lives op.incarnation c) :
    c.apply env op = c ∨
      (Accepts c op ∧ op.kind = .streamDelete ∧
        c.apply env op = ⟨none, c.buried ++ [op.revision]⟩) ∨
      ∃ st st', Accepts c op ∧ base op c = some st ∧ writes op st = some st' ∧
        c.apply env op = ⟨some st', c.buried⟩ := by
  by_cases ha : Accepts c op
  · by_cases hk : op.kind = .streamDelete
    · exact Or.inr (Or.inl ⟨ha, hk, apply_deletes ha hl.stream hk⟩)
    · have hw := apply_writes he hd ha (fun st hst => (hl.stream st hst).1) hk
      cases hb : base op c with
      | none =>
        rw [hb] at hw
        exact Or.inl hw
      | some st =>
        rw [hb, Option.bind_some] at hw
        cases hst : writes op st with
        | none =>
          rw [hst] at hw
          exact Or.inl hw
        | some st' =>
          rw [hst] at hw
          exact Or.inr (Or.inr ⟨st, st', ha, rfl, hst, hw⟩)
  · exact Or.inl (apply_of_not_accepts ha)

theorem base_cases {st : Stream} (h : base op c = some st) :
    c.stream = some st ∨
      (c.stream = none ∧ op.kind ≠ .sourceDelete ∧ st = Stream.new op.incarnation) := by
  unfold base at h
  cases hs : c.stream with
  | some st' =>
    rw [hs] at h
    exact Or.inl h
  | none =>
    rw [hs] at h
    dsimp only at h
    split_ifs at h with hk
    exact Or.inr ⟨rfl, hk, (Option.some.inj h).symm⟩

theorem Lives.step (hl : Lives op.incarnation c) (he : Willing env) (hd : op.Decoded) :
    Lives op.incarnation (c.apply env op) := by
  rcases step_cases he hd hl with h | ⟨_, _, h⟩ | ⟨st, st', _, hb, hw, h⟩
  · rw [h]
    exact hl
  · rw [h]
    constructor
    rintro _ ⟨⟩
  · rw [h]
    constructor
    rintro _ ⟨⟩
    obtain ⟨_, hdest, hinc⟩ := writes_spec hw
    have hst : st.incarnation = op.incarnation ∧ st.destinations = 0 := by
      rcases base_cases hb with hs | ⟨_, _, rfl⟩
      · exact hl.stream st hs
      · exact ⟨rfl, rfl⟩
    refine ⟨?_, hdest.trans hst.2⟩
    rcases hinc with hinc | hinc
    · exact hinc
    · exact hinc.trans hst.1

theorem buried_le_deletions (hl : Lives incarnation c) (deliveries : List (Op × Env))
    (hd : ∀ d ∈ deliveries, d.1.Decoded ∧ d.1.incarnation = incarnation ∧ Willing d.2) :
    (c.receive deliveries).buried.length ≤ c.buried.length + deletions deliveries := by
  induction deliveries generalizing c with
  | nil => exact Nat.le_refl _
  | cons d rest ih =>
    obtain ⟨hdec, rfl, he⟩ := hd d List.mem_cons_self
    have hrest := ih (hl.step he hdec) fun x hx => hd x (List.mem_cons_of_mem _ hx)
    have hstep : (c.apply d.2 d.1).buried.length ≤
        c.buried.length + if d.1.kind = .streamDelete then 1 else 0 := by
      rcases step_cases he hdec hl with h | ⟨_, hk, h⟩ | ⟨st, st', _, _, _, h⟩
      · rw [h]
        exact Nat.le_add_right _ _
      · rw [h, if_pos hk]
        simp
      · rw [h]
        exact Nat.le_add_right _ _
    have hcount : deletions (d :: rest) =
        deletions rest + if d.1.kind = .streamDelete then 1 else 0 := by
      simp only [deletions, List.countP_cons, decide_eq_true_eq]
    have hrun : c.receive (d :: rest) = (c.apply d.2 d.1).receive rest := rfl
    rw [hrun, hcount]
    omega

def Cell.fresh : Cell := ⟨none, []⟩

theorem fresh_lives (incarnation : ℕ) : Lives incarnation Cell.fresh := by
  constructor
  rintro _ ⟨⟩

theorem cell_empty (application name : Str) : cell Registry.empty application name = Cell.fresh :=
  rfl

theorem desired_receive (ho : OneLifetime application name incarnation ops)
    {deliveries : List (Op × Env)} (hd : Delivers ops deliveries) :
    desired (receive Registry.empty deliveries) application name =
      (Cell.fresh.receive deliveries).stream.map streamView := by
  have hmem : ∀ d ∈ deliveries, d.1 ∈ ops := by
    intro d h
    exact (hd.mem d.1).mp (List.mem_map_of_mem h)
  have hdec : ∀ d ∈ deliveries, d.1.Decoded := fun d h => ho.decoded d.1 (hmem d h)
  have hcon : ∀ d ∈ deliveries, concerns application name d = true := by
    intro d h
    exact decide_eq_true (ho.identity d.1 (hmem d h))
  have hbury := buried_le_deletions (fresh_lives incarnation) deliveries fun d h =>
    ⟨hdec d h, ho.incarnation d.1 (hmem d h), hd.willing d h⟩
  have hlt : (receive Registry.empty deliveries).tombs.count < tombstones := by
    apply receive_count_lt empty_inv empty_ring deliveries hdec
      (fun d h => ho.identity d.1 (hmem d h))
    rw [cell_empty]
    have := hd.deletions_lt
    have hzero : Registry.empty.tombs.count = 0 := rfl
    omega
  have hfilter : deliveries.filter (concerns application name) = deliveries :=
    List.filter_eq_self.mpr hcon
  rw [desired_eq, receive_cell empty_inv empty_ring deliveries hdec ?_ hlt, hfilter, cell_empty]
  intro d h hc
  rw [hcon d h] at hc
  cases hc

theorem ineffective_step (h : ¬ Effective op) : c.apply env op = c := by
  obtain ⟨hk, hid⟩ := Classical.not_imp.mp h
  rw [not_not] at hid
  by_cases ha : Accepts c op
  · rw [apply_of_accepts ha]
    rcases hk with hk | hk
    · rw [hk]
      dsimp only
      rw [cellSourceSet, if_pos (Or.inr hid)]
    · rw [hk]
      dsimp only
      unfold cellSourceDelete
      cases hs : c.stream with
      | none => rfl
      | some st =>
        dsimp only
        rw [if_pos (Or.inr hid)]
  · exact apply_of_not_accepts ha

/-- Nothing newer than the newest operation has come, and the stream is `ok`. -/
structure Before (ok : Stream → Prop) (m : Op) (c : Cell) : Prop where
  lives : Lives m.incarnation c
  buried_lt : ∀ b ∈ c.buried, b < m.revision
  stream : ∀ st ∈ c.stream, st.revision ≤ m.revision ∧ ok st

structure Respects (ok : Stream → Prop) (m op : Op) : Prop where
  decoded : op.Decoded
  incarnation : op.incarnation = m.incarnation
  older : Effective op → op.revision ≤ m.revision
  deletes : op.kind = .streamDelete → op.revision < m.revision
  fresh : op.kind ≠ .sourceDelete → ok (Stream.new op.incarnation)
  writes : ∀ st st', ok st → writes op st = some st' → ok st'

variable {ok : Stream → Prop} {view : StreamView}

theorem Respects.base {st : Stream} (hr : Respects ok m op) (h : Before ok m c)
    (hb : base op c = some st) : ok st := by
  rcases base_cases hb with hs | ⟨_, hk, rfl⟩
  · exact (h.stream st hs).2
  · exact hr.fresh hk

theorem Before.step (h : Before ok m c) (hr : Respects ok m op) (he : Willing env) :
    Before ok m (c.apply env op) := by
  have hl : Lives op.incarnation c := hr.incarnation ▸ h.lives
  have hlives : Lives m.incarnation (c.apply env op) := hr.incarnation ▸ hl.step he hr.decoded
  by_cases heff : Effective op
  · rcases step_cases he hr.decoded hl with hs | ⟨_, hk, hs⟩ | ⟨st, st', _, hb, hw, hs⟩
    · rw [hs]
      exact h
    · rw [hs] at hlives ⊢
      refine ⟨hlives, ?_, ?_⟩
      · intro b hb
        rcases List.mem_append.mp hb with hb | hb
        · exact h.buried_lt b hb
        · rw [List.mem_singleton.mp hb]
          exact hr.deletes hk
      · rintro _ ⟨⟩
    · rw [hs] at hlives ⊢
      refine ⟨hlives, h.buried_lt, ?_⟩
      rintro _ ⟨⟩
      refine ⟨?_, hr.writes st st' (hr.base h hb) hw⟩
      rw [(writes_spec hw).1]
      exact hr.older heff
  · rw [ineffective_step heff]
    exact h

/-- The newest operation has come and decides what the replica shows. -/
def After (ok : Stream → Prop) (m : Op) (view : StreamView) (c : Cell) : Prop :=
  Before ok m c ∧ ∃ st ∈ c.stream, st.revision = m.revision ∧ streamView st = view

theorem Before.newest (h : Before ok m c) (hr : Respects ok m m) (he : Willing env)
    (hk : m.kind ≠ .streamDelete) (hk' : m.kind ≠ .sourceDelete)
    (hview : ∀ st, ok st → ∃ st', GraphConvergence.writes m st = some st' ∧ streamView st' = view) :
    After ok m view (c.apply env m) := by
  have ha : Accepts c m := ⟨refuses_false.mpr h.buried_lt, fun st hst => (h.stream st hst).1⟩
  have hw := apply_writes he hr.decoded ha (fun st hst => (h.lives.stream st hst).1) hk
  refine ⟨h.step hr he, ?_⟩
  obtain ⟨st, hb⟩ : ∃ st, base m c = some st := by
    unfold base
    cases c.stream with
    | some st => exact ⟨st, rfl⟩
    | none => exact ⟨_, if_neg hk'⟩
  obtain ⟨st', hst, hv⟩ := hview st (hr.base h hb)
  rw [hb, Option.bind_some, hst] at hw
  rw [hw]
  exact ⟨st', rfl, (writes_spec hst).1, hv⟩

theorem newest_stays {st : Stream} (hs : c.stream = some st) (hrev : st.revision = m.revision)
    (hlt : Effective op → op.revision < m.revision) : c.apply env op = c := by
  by_cases heff : Effective op
  · apply apply_of_not_accepts
    intro ha
    have hle := ha.stale st hs
    have := hlt heff
    omega
  · exact ineffective_step heff

theorem Newest.lt (hn : Newest m ops) (ho : OneLifetime application name incarnation ops)
    (hop : op ∈ ops) (hne : op ≠ m) (heff : Effective op) : op.revision < m.revision := by
  have hle := hn.newest op hop heff
  have : op.revision ≠ m.revision := fun h => hne (ho.revision_inj op hop m hn.mem h)
  omega

/-- If every operation respects `ok` and the newest one decides the view on every stream
that is `ok`, then every run ends with that view. -/
theorem receive_view (ok : Stream → Prop) (ho : OneLifetime application name incarnation ops) (hn : Newest m ops)
    (hk : m.kind ≠ .streamDelete) (hk' : m.kind ≠ .sourceDelete)
    (hfresh : ok (Stream.new incarnation))
    (hwrites : ∀ op ∈ ops, ∀ st st', ok st → writes op st = some st' → ok st')
    (hview : ∀ st, ok st → ∃ st', writes m st = some st' ∧ streamView st' = view)
    {deliveries : List (Op × Env)} (hd : Delivers ops deliveries) :
    (Cell.fresh.receive deliveries).stream.map streamView = some view := by
  have hmem : ∀ d ∈ deliveries, d.1 ∈ ops := by
    intro d h
    exact (hd.mem d.1).mp (List.mem_map_of_mem h)
  have hinc := ho.incarnation m hn.mem
  have hresp : ∀ op ∈ ops, Respects ok m op := by
    intro op hop
    refine ⟨ho.decoded op hop, (ho.incarnation op hop).trans hinc.symm, hn.newest op hop, ?_, ?_,
      hwrites op hop⟩
    · intro hdel
      refine hn.lt ho hop ?_ ?_
      · rintro rfl
        exact hk hdel
      · intro hsource
        rw [hdel] at hsource
        rcases hsource with h | h <;> cases h
    · intro _
      rw [ho.incarnation op hop]
      exact hfresh
  obtain ⟨x, hx, rfl⟩ := List.mem_map.mp ((hd.mem m).mpr hn.mem)
  have hafter : After ok x.1 view (Cell.fresh.receive deliveries) := by
    refine StepRun.settles (I := Before ok x.1) ?_ ?_ ?_ ?_ hx
    · intro c d h hb
      exact hb.step (hresp d.1 (hmem d h)) (hd.willing d h)
    · intro c hb
      exact hb.newest (hresp x.1 hn.mem) (hd.willing x hx) hk hk' hview
    · intro c d h ha
      by_cases hne : d.1 = x.1
      · rw [hne]
        exact ha.1.newest (hresp x.1 hn.mem) (hd.willing d h) hk hk' hview
      · obtain ⟨hb, st, hst, hrev, hv⟩ := ha
        rw [newest_stays hst hrev (hn.lt ho (hmem d h) hne)]
        exact ⟨hb, st, hst, hrev, hv⟩
    · refine ⟨fresh_lives _, ?_, ?_⟩
      · intro b hb
        cases hb
      · rintro _ ⟨⟩
  obtain ⟨_, st, hst, _, hv⟩ := hafter
  rw [hst, Option.map_some, hv]

theorem streamSet_view (ho : OneLifetime application name incarnation ops) (hn : Newest m ops)
    (hk : m.kind = .streamSet) (ha : ∀ op ∈ ops, op.kind = .sourceSet → op.id = [])
    {deliveries : List (Op × Env)} (hd : Delivers ops deliveries) :
    (Cell.fresh.receive deliveries).stream.map streamView =
      some ⟨m.failureTimeout, m.recoveryTimeout, m.mediaMode, m.revision, fun _ => none⟩ := by
  refine receive_view (fun st => st.sources = []) ho hn (by simp [hk]) (by simp [hk]) rfl
    ?_ ?_ hd
  · intro op hop st st' hst hw
    unfold writes at hw
    cases hkind : op.kind with
    | streamSet =>
      rw [hkind] at hw
      rw [← Option.some.inj hw]
      exact hst
    | streamDelete => simp [hkind] at hw
    | sourceSet => simp [hkind, ha op hop hkind] at hw
    | sourceDelete =>
      rw [hkind] at hw
      dsimp only at hw
      split_ifs at hw
      rw [← Option.some.inj hw]
      simp [removeSource, hst]
  · intro st hst
    refine ⟨setFields m st, by simp [writes, hk], ?_⟩
    simp [streamView, setFields, sourceFind, hst]

structure Sole (m : Op) (st : Stream) : Prop where
  failureTimeout : st.failureTimeout = failureTimeoutDefault
  recoveryTimeout : st.recoveryTimeout = recoveryTimeoutDefault
  mediaMode : st.mediaMode = mediaSource
  sources : st.sources = [] ∨ ∃ s, st.sources = [s] ∧ s.id = m.id ∧ s.type = m.type ∧
    (s.keySet = true → m.keySet = true)

theorem Sole.source {st : Stream} (h : Sole m st) (hk : op.kind = .sourceSet) (hid : op.id ≠ [])
    (heq : op.id = m.id) (ht : op.type = m.type) :
    ∃ s, writes op st = some { st with sources := [setSource op s], revision := op.revision } ∧
      s.id = m.id ∧ s.type = m.type ∧ (s.keySet = true → m.keySet = true) := by
  unfold writes
  rw [hk]
  dsimp only
  rw [if_neg hid]
  rcases h.sources with hs | ⟨s, hs, hsid, hst, hkey⟩
  · refine ⟨Source.new op.id op.type op.priority, ?_, heq, ht, ?_⟩
    · simp [sourceFind, setSourceIn, addSource, hs, Source.new]
    · intro h
      cases h
  · refine ⟨s, ?_, hsid, hst, hkey⟩
    simp [sourceFind, setSourceIn, hs, hsid, heq, hst, ht]

theorem sourceSet_view (ho : OneLifetime application name incarnation ops) (hn : Newest m ops)
    (hk : m.kind = .sourceSet)
    (ha : ∀ op ∈ ops, (op.kind = .streamSet → DefaultFields op) ∧
      (op.kind = .sourceSet → op.id ≠ [] →
        op.id = m.id ∧ op.type = m.type ∧ (op.keySet = true → m.keySet = true)))
    {deliveries : List (Op × Env)} (hd : Delivers ops deliveries) :
    (Cell.fresh.receive deliveries).stream.map streamView =
      some ⟨failureTimeoutDefault, recoveryTimeoutDefault, mediaSource, m.revision,
        fun id => if m.id = id then
          some ⟨m.type, m.priority, m.path, if m.keySet then some m.keyHash else none, m.enabled⟩
          else none⟩ := by
  have hid : m.id ≠ [] := hn.effective (Or.inl hk)
  refine receive_view (Sole m) ho hn (by simp [hk]) (by simp [hk])
    ⟨rfl, rfl, rfl, Or.inl rfl⟩ ?_ ?_ hd
  · intro op hop st st' hst hw
    obtain ⟨hdefault, hsole⟩ := ha op hop
    cases hkind : op.kind with
    | streamSet =>
      obtain ⟨hf, hrec, hmode⟩ := hdefault hkind
      simp only [writes, hkind, Option.some.injEq] at hw
      rw [← hw]
      exact ⟨hf, hrec, hmode, hst.sources⟩
    | streamDelete => simp [writes, hkind] at hw
    | sourceSet =>
      by_cases hempty : op.id = []
      · simp [writes, hkind, hempty] at hw
      · obtain ⟨hsame, htype, hkey⟩ := hsole hkind hempty
        obtain ⟨s, hs, hsid, hstype, hskey⟩ := hst.source hkind hempty hsame htype
        rw [hs] at hw
        rw [← Option.some.inj hw]
        refine ⟨hst.failureTimeout, hst.recoveryTimeout, hst.mediaMode, Or.inr ⟨_, rfl, hsid,
          hstype, ?_⟩⟩
        intro hset
        rcases Bool.or_eq_true_iff.mp hset with h | h
        · exact hkey h
        · exact hskey h
    | sourceDelete =>
      simp only [writes, hkind] at hw
      split_ifs at hw
      rw [← Option.some.inj hw]
      refine ⟨hst.failureTimeout, hst.recoveryTimeout, hst.mediaMode, ?_⟩
      rcases hst.sources with hs | ⟨s, hs, hrest⟩
      · left
        simp [removeSource, hs]
      · by_cases hrm : s.id = op.id
        · left
          simp [removeSource, hs, hrm]
        · right
          exact ⟨s, by simp [removeSource, hs, hrm], hrest⟩
  · intro st hst
    obtain ⟨s, hs, hsid, hstype, hskey⟩ := hst.source hk hid rfl rfl
    refine ⟨_, hs, ?_⟩
    have hsv : sourceView (setSource m s) = ⟨m.type, m.priority, m.path,
        if m.keySet then some m.keyHash else none, m.enabled⟩ := by
      apply SourceView.ext
      · exact hstype
      · rfl
      · rfl
      · by_cases hm : m.keySet = true
        · simp [sourceView, setSource, hm]
        · have : ¬ s.keySet = true := fun h => hm (hskey h)
          simp [sourceView, setSource, hm, this]
      · rfl
    have hsource : (setSource m s).id = m.id := hsid
    apply StreamView.ext
    · exact hst.failureTimeout
    · exact hst.recoveryTimeout
    · exact hst.mediaMode
    · rfl
    · funext id
      by_cases heq : m.id = id
      · simp [streamView, sourceFind, hsource, heq, hsv]
      · simp [streamView, sourceFind, hsource, heq]

theorem absent_view (ho : OneLifetime application name incarnation ops)
    (ha : ∀ op ∈ ops, op.kind ≠ .streamSet ∧ (op.kind = .sourceSet → op.id = []))
    {deliveries : List (Op × Env)} (hd : Delivers ops deliveries) :
    (Cell.fresh.receive deliveries).stream.map streamView = none := by
  have hrun : ∀ rest : List (Op × Env), (∀ d ∈ rest, d ∈ deliveries) → ∀ c : Cell,
      c.stream = none → (c.receive rest).stream = none := by
    intro rest
    induction rest with
    | nil => exact fun _ _ h => h
    | cons d rest ih =>
      intro hsub c hc
      have hdm := hsub d List.mem_cons_self
      have hop : d.1 ∈ ops := (hd.mem d.1).mp (List.mem_map_of_mem hdm)
      refine ih (fun x hx => hsub x (List.mem_cons_of_mem _ hx)) _ ?_
      have hl : Lives d.1.incarnation c := by
        constructor
        intro st hst
        rw [hc] at hst
        cases hst
      dsimp only
      rcases step_cases (hd.willing d hdm) (ho.decoded d.1 hop) hl with
        h | ⟨_, _, h⟩ | ⟨st, st', _, hb, hw, h⟩
      · rw [h]
        exact hc
      · rw [h]
      · -- only a stream operation or an effective source operation writes without a stream
        obtain ⟨hset, hsource⟩ := ha d.1 hop
        cases hk : d.1.kind with
        | streamSet => exact absurd hk hset
        | streamDelete => simp [writes, hk] at hw
        | sourceSet => simp [writes, hk, hsource hk] at hw
        | sourceDelete => simp [base, hc, hk] at hb
  rw [hrun deliveries (fun _ h => h) Cell.fresh rfl]
  rfl

theorem deleted_view (ho : OneLifetime application name incarnation ops) (hn : Newest m ops)
    (hk : m.kind = .streamDelete) {deliveries : List (Op × Env)} (hd : Delivers ops deliveries) :
    (Cell.fresh.receive deliveries).stream.map streamView = none := by
  have hmem : ∀ d ∈ deliveries, d.1 ∈ ops := by
    intro d h
    exact (hd.mem d.1).mp (List.mem_map_of_mem h)
  obtain ⟨x, hx, rfl⟩ := List.mem_map.mp ((hd.mem m).mpr hn.mem)
  have hends : ∀ op ∈ ops, Ends x.1 op.incarnation := by
    intro op hop
    exact Or.inr ((ho.incarnation op hop).trans (ho.incarnation x.1 hn.mem).symm)
  have hgone : Gone x.1 (Cell.fresh.receive deliveries) := by
    refine StepRun.settles (I := fun c => Open x.1 c ∨ Gone x.1 c) ?_ ?_ ?_
      (open_or_gone_of_absent rfl) hx
    · intro c d h hc
      by_cases heff : Effective d.1
      · have hle := hn.newest d.1 (hmem d h) heff
        rcases hc with hc | hc
        · exact hc.step hle fun _ => hends d.1 (hmem d h)
        · rw [hc.step hle]
          exact Or.inr hc
      · rw [ineffective_step heff]
        exact hc
    · intro c hc
      rcases hc with hc | hc
      · exact hc.deletion hk
      · rw [hc.step (Nat.le_refl _)]
        exact hc
    · intro c d h hc
      by_cases heff : Effective d.1
      · rw [hc.step (hn.newest d.1 (hmem d h) heff)]
        exact hc
      · rw [ineffective_step heff]
        exact hc
  rw [hgone.1]
  rfl

/-- Everything but the newest operation, on a worker with memory. -/
noncomputable def rest (ops : Finset Op) (m : Op) : List (Op × Env) :=
  (ops.erase m).toList.map fun op => (op, replica)

theorem mem_rest {d : Op × Env} (h : d ∈ rest ops m) : d.1 ∈ ops ∧ d.1 ≠ m ∧ d.2 = replica := by
  obtain ⟨op, hop, rfl⟩ := List.mem_map.mp h
  have := Finset.mem_erase.mp (Finset.mem_toList.mp hop)
  exact ⟨this.2, this.1, rfl⟩

theorem deletions_rest :
    deletions (rest ops m) ≤ (ops.filter fun op => op.kind = .streamDelete).card := by
  have hcount : deletions (rest ops m) =
      ((ops.erase m).toList.filter fun op => decide (op.kind = .streamDelete)).length := by
    rw [deletions, rest, List.countP_map, List.countP_eq_length_filter]
    rfl
  have hnodup : ((ops.erase m).toList.filter fun op =>
      decide (op.kind = .streamDelete)).Nodup := (Finset.nodup_toList _).filter _
  rw [hcount, ← List.toFinset_card_of_nodup hnodup]
  apply Finset.card_le_card
  intro op hop
  rw [List.mem_toFinset, List.mem_filter, Finset.mem_toList, Finset.mem_erase] at hop
  exact Finset.mem_filter.mpr ⟨hop.1.2, of_decide_eq_true hop.2⟩

/-- The newest operation, after `first`, and then all the others. -/
noncomputable def run (ops : Finset Op) (m : Op) (first : List Op) : List (Op × Env) :=
  (first ++ [m]).map (fun op => (op, replica)) ++ rest ops m

theorem run_delivers (first : List Op) (hm : m ∈ ops)
    (hfirst : ∀ op ∈ first, op ∈ ops ∧ op.kind ≠ .streamDelete) (hk : m.kind ≠ .streamDelete)
    (hlt : (ops.filter fun op => op.kind = .streamDelete).card < tombstones) :
    Delivers ops (run ops m first) := by
  constructor
  · intro op
    have hops : (run ops m first).map Prod.fst = (first ++ [m]) ++ (ops.erase m).toList := by
      simp [run, rest, Function.comp_def]
    rw [hops, List.mem_append, List.mem_append, List.mem_singleton, Finset.mem_toList,
      Finset.mem_erase]
    constructor
    · rintro ((hop | rfl) | hop)
      · exact (hfirst op hop).1
      · exact hm
      · exact hop.2
    · intro hop
      by_cases heq : op = m
      · exact Or.inl (Or.inr heq)
      · exact Or.inr ⟨heq, hop⟩
  · intro d hd
    have : d.2 = replica := by
      rcases List.mem_append.mp hd with hd | hd
      · obtain ⟨op, _, rfl⟩ := List.mem_map.mp hd
        rfl
      · exact (mem_rest hd).2.2
    rw [this]
    exact replica_willing
  · have hzero : deletions ((first ++ [m]).map fun op => (op, replica)) = 0 := by
      apply List.countP_eq_zero.mpr
      intro d hd
      obtain ⟨op, hop, rfl⟩ := List.mem_map.mp hd
      rw [decide_eq_true_eq]
      rcases List.mem_append.mp hop with hop | hop
      · exact (hfirst op hop).2
      · rwa [List.mem_singleton.mp hop]
    have hsum : deletions (run ops m first) =
        deletions ((first ++ [m]).map fun op => (op, replica)) + deletions (rest ops m) :=
      List.countP_append
    have := @deletions_rest m ops
    omega

theorem rest_settled (ho : OneLifetime application name incarnation ops) (hn : Newest m ops)
    {st : Stream} (hs : c.stream = some st) (hrev : st.revision = m.revision) :
    c.receive (rest ops m) = c := by
  have hrun : ∀ l : List (Op × Env), (∀ d ∈ l, d ∈ rest ops m) → c.receive l = c := by
    intro l
    induction l with
    | nil => exact fun _ => rfl
    | cons d l ih =>
      intro hsub
      obtain ⟨hop, hne, _⟩ := mem_rest (hsub d List.mem_cons_self)
      have hstep : c.apply d.2 d.1 = c := newest_stays hs hrev (hn.lt ho hop hne)
      have : c.receive (d :: l) = (c.apply d.2 d.1).receive l := rfl
      rw [this, hstep]
      exact ih fun x hx => hsub x (List.mem_cons_of_mem _ hx)
  exact hrun _ fun _ h => h

theorem rest_below (ho : OneLifetime application name incarnation ops) (hn : Newest m ops)
    (hl : Lives incarnation c) (hlt : ∀ st ∈ c.stream, st.revision < m.revision) :
    ∀ st ∈ (c.receive (rest ops m)).stream, st.revision < m.revision := by
  have hrun : ∀ l : List (Op × Env), (∀ d ∈ l, d ∈ rest ops m) → ∀ c : Cell,
      Lives incarnation c → (∀ st ∈ c.stream, st.revision < m.revision) →
      ∀ st ∈ (c.receive l).stream, st.revision < m.revision := by
    intro l
    induction l with
    | nil => exact fun _ _ _ h => h
    | cons d l ih =>
      intro hsub c hl hlt
      obtain ⟨hop, hne, hrep⟩ := mem_rest (hsub d List.mem_cons_self)
      have he : Willing d.2 := hrep ▸ replica_willing
      have hinc := ho.incarnation d.1 hop
      have hl' : Lives d.1.incarnation c := hinc.symm ▸ hl
      refine ih (fun x hx => hsub x (List.mem_cons_of_mem _ hx)) _
        (hinc ▸ hl'.step he (ho.decoded d.1 hop)) ?_
      dsimp only
      by_cases heff : Effective d.1
      · rcases step_cases he (ho.decoded d.1 hop) hl' with h | ⟨_, _, h⟩ | ⟨st, st', _, _, hw, h⟩
        · rw [h]
          exact hlt
        · rw [h]
          rintro _ ⟨⟩
        · rw [h]
          rintro _ ⟨⟩
          rw [(writes_spec hw).1]
          exact hn.lt ho hop hne heff
      · rw [ineffective_step heff]
        exact hlt
  exact hrun _ (fun _ h => h) c hl hlt

theorem fresh_accepts : Accepts Cell.fresh op := by
  constructor
  · rfl
  · rintro _ ⟨⟩

theorem first_write {st : Stream} (hd : op.Decoded) (hk : op.kind ≠ .streamDelete)
    (hk' : op.kind ≠ .sourceDelete) (hw : writes op (Stream.new op.incarnation) = some st) :
    Cell.fresh.apply replica op = ⟨some st, []⟩ := by
  have h := apply_writes replica_willing hd (@fresh_accepts op) (by rintro _ ⟨⟩) hk
  have hb : base op Cell.fresh = some (Stream.new op.incarnation) := if_neg hk'
  rw [hb, Option.bind_some, hw] at h
  exact h

theorem second_write {st : Stream} (hd : m.Decoded) (hk : m.kind ≠ .streamDelete)
    (hrev : st.revision ≤ m.revision) (hinc : st.incarnation = m.incarnation) :
    (⟨some st, []⟩ : Cell).apply replica m = ⟨some ((writes m st).getD st), []⟩ := by
  have ha : Accepts ⟨some st, []⟩ m := by
    constructor
    · rfl
    · rintro _ ⟨⟩
      exact hrev
  have h := apply_writes replica_willing hd ha (by rintro _ ⟨⟩; exact hinc) hk
  rw [h]
  simp only [base, Option.bind_some]
  cases writes m st <;> rfl

/-- Both runs of a set whose orders all agree, at the level of the cell: the newest operation
first, and the newest operation after `x`. -/
theorem runs_agree (ho : OneLifetime application name incarnation ops) (hn : Newest m ops)
    (hlt : (ops.filter fun op => op.kind = .streamDelete).card < tombstones)
    (hagree : ∀ d d', Delivers ops d → Delivers ops d' →
      desired (receive Registry.empty d) application name =
        desired (receive Registry.empty d') application name)
    (hk : m.kind ≠ .streamDelete) {x : Op} (hx : x ∈ ops) (hkx : x.kind ≠ .streamDelete) :
    ((Cell.fresh.apply replica m).receive (rest ops m)).stream.map streamView =
      (((Cell.fresh.apply replica x).apply replica m).receive (rest ops m)).stream.map
        streamView := by
  have hfirst := run_delivers [] hn.mem (by simp) hk hlt
  have hsecond := run_delivers [x] hn.mem (by simpa using ⟨hx, hkx⟩) hk hlt
  have h := hagree _ _ hfirst hsecond
  rw [desired_receive ho hfirst, desired_receive ho hsecond] at h
  exact h

theorem writes_open {st : Stream} (hk : op.kind = .sourceSet) (hid : op.id ≠ [])
    (hf : sourceFind st op.id = none) :
    writes op st =
      some (setSourceIn op (addSource (Source.new op.id op.type op.priority) st)) := by
  simp [writes, hk, hid, hf]

/-- Where `x` wrote the only stream there is, and the newest operation cannot write it. -/
theorem below_after (ho : OneLifetime application name incarnation ops) (hn : Newest m ops)
    {x : Op} (hx : x ∈ ops) (hne : x ≠ m) (heff : Effective x) {w : Stream}
    (hw : writes x (Stream.new x.incarnation) = some w) :
    ∀ st ∈ ((⟨some w, []⟩ : Cell).receive (rest ops m)).stream, st.revision < m.revision := by
  obtain ⟨hrev, hdest, hinc⟩ := writes_spec hw
  have hxinc := ho.incarnation x hx
  refine rest_below ho hn ⟨?_⟩ ?_
  · rintro _ ⟨⟩
    refine ⟨?_, hdest⟩
    rcases hinc with h | h
    · exact h.trans hxinc
    · exact h.trans hxinc
  · rintro _ ⟨⟩
    rw [hrev]
    exact hn.lt ho hx hne heff

variable (ho : OneLifetime application name incarnation ops) (hn : Newest m ops)
  (hlt : (ops.filter fun op => op.kind = .streamDelete).card < tombstones)
  (hagree : ∀ d d', Delivers ops d → Delivers ops d' →
    desired (receive Registry.empty d) application name =
      desired (receive Registry.empty d') application name)

include ho hn hlt hagree

theorem views_agree (hk : m.kind ≠ .streamDelete) (hk' : m.kind ≠ .sourceDelete) {x : Op}
    (hx : x ∈ ops) (hkx : x.kind ≠ .streamDelete) (hkx' : x.kind ≠ .sourceDelete)
    (heff : Effective x) {a b w : Stream} (ha : writes m (Stream.new m.incarnation) = some a)
    (hw : writes x (Stream.new x.incarnation) = some w) (hb : writes m w = some b) :
    streamView a = streamView b := by
  have hm := ho.decoded m hn.mem
  have hinc : x.incarnation = m.incarnation :=
    (ho.incarnation x hx).trans (ho.incarnation m hn.mem).symm
  obtain ⟨hrev, _, hwinc⟩ := writes_spec hw
  have hwinc' : w.incarnation = m.incarnation := by
    rcases hwinc with h | h
    · exact h.trans hinc
    · exact h.trans hinc
  have h := runs_agree ho hn hlt hagree hk hx hkx
  rw [first_write hm hk hk' ha, first_write (ho.decoded x hx) hkx hkx' hw,
    second_write hm hk (hrev.trans_le (hn.newest x hx heff)) hwinc', hb, Option.getD_some,
    @rest_settled ⟨some a, []⟩ m application name incarnation ops ho hn a rfl (writes_spec ha).1,
    @rest_settled ⟨some b, []⟩ m application name incarnation ops ho hn b rfl
      (writes_spec hb).1] at h
  exact Option.some.inj h

theorem streamSet_necessary (hk : m.kind = .streamSet) {x : Op} (hx : x ∈ ops)
    (hkx : x.kind = .sourceSet) : x.id = [] := by
  by_contra hid
  have hw : writes x (Stream.new x.incarnation) = some _ := writes_open hkx hid rfl
  have hset : ∀ st, writes m st = some (setFields m st) := fun st => by simp only [writes, hk]
  have h := views_agree ho hn hlt hagree (by simp [hk]) (by simp [hk]) hx (by simp [hkx])
    (by simp [hkx]) (fun _ => hid) (hset _) hw (hset _)
  have hsources := congrFun (congrArg StreamView.sources h) x.id
  simp [streamView, sourceFind, setFields, Stream.new, setSourceIn, addSource, Source.new,
    setSource] at hsources

theorem sourceSet_default_necessary (hk : m.kind = .sourceSet) {x : Op} (hx : x ∈ ops)
    (hkx : x.kind = .streamSet) : DefaultFields x := by
  have hid : m.id ≠ [] := hn.effective (Or.inl hk)
  have hw : writes x (Stream.new x.incarnation) =
      some (setFields x (Stream.new x.incarnation)) := by
    simp only [writes, hkx]
  have h := views_agree ho hn hlt hagree (by simp [hk]) (by simp [hk]) hx (by simp [hkx])
    (by simp [hkx]) (by simp [Effective, hkx]) (writes_open hk hid rfl) hw
    (writes_open hk hid rfl)
  exact ⟨(congrArg StreamView.failureTimeout h).symm, (congrArg StreamView.recoveryTimeout h).symm,
    (congrArg StreamView.mediaMode h).symm⟩

theorem sourceSet_id_necessary (hk : m.kind = .sourceSet) {x : Op} (hx : x ∈ ops)
    (hkx : x.kind = .sourceSet) (hidx : x.id ≠ []) : x.id = m.id := by
  by_contra hne
  have hid : m.id ≠ [] := hn.effective (Or.inl hk)
  have hw : writes x (Stream.new x.incarnation) = some _ := writes_open hkx hidx rfl
  have hfind : sourceFind (setSourceIn x (addSource (Source.new x.id x.type x.priority)
      (Stream.new x.incarnation))) m.id = none := by
    simp [sourceFind, setSourceIn, addSource, Stream.new, setSource, Source.new, hne]
  have h := views_agree ho hn hlt hagree (by simp [hk]) (by simp [hk]) hx (by simp [hkx])
    (by simp [hkx]) (fun _ => hidx) (writes_open hk hid rfl) hw (writes_open hk hid hfind)
  have hsources := congrFun (congrArg StreamView.sources h) x.id
  simp [streamView, sourceFind, Stream.new, setSourceIn, addSource, Source.new, setSource, hne,
    Ne.symm hne] at hsources

theorem sourceSet_type_necessary (hk : m.kind = .sourceSet) {x : Op} (hx : x ∈ ops)
    (hkx : x.kind = .sourceSet) (hidx : x.id ≠ []) (hid : x.id = m.id) : x.type = m.type := by
  by_contra hne
  have hidm : m.id ≠ [] := hid ▸ hidx
  have hm := ho.decoded m hn.mem
  have hw : writes x (Stream.new x.incarnation) = some _ := writes_open hkx hidx rfl
  have hstuck : writes m (setSourceIn x (addSource (Source.new x.id x.type x.priority)
      (Stream.new x.incarnation))) = none := by
    simp [writes, hk, hidm, sourceFind, setSourceIn, addSource, Stream.new, setSource, Source.new,
      hid, hne]
  have hle : x.revision ≤ m.revision := hn.newest x hx fun _ => hidx
  have hinc : x.incarnation = m.incarnation :=
    (ho.incarnation x hx).trans (ho.incarnation m hn.mem).symm
  have hnew := @writes_open m (Stream.new m.incarnation) hk hidm rfl
  have h := runs_agree ho hn hlt hagree (by simp [hk]) hx (by simp [hkx])
  rw [first_write hm (by simp [hk]) (by simp [hk]) hnew,
    first_write (ho.decoded x hx) (by simp [hkx]) (by simp [hkx]) hw,
    second_write hm (by simp [hk]) hle hinc, hstuck, Option.getD_none] at h
  have hbelow := below_after ho hn hx (fun he => hne (by rw [he])) (fun _ => hidx) hw
  rw [@rest_settled _ m application name incarnation ops ho hn _ rfl (writes_spec hnew).1,
    Option.map_some] at h
  obtain ⟨st, hst, hview⟩ := Option.map_eq_some_iff.mp h.symm
  have hrev : st.revision = m.revision := congrArg StreamView.revision hview
  exact absurd hrev (Nat.ne_of_lt (hbelow st hst))

theorem sourceSet_key_necessary (hk : m.kind = .sourceSet) {x : Op} (hx : x ∈ ops)
    (hkx : x.kind = .sourceSet) (hidx : x.id ≠ []) (hid : x.id = m.id) (ht : x.type = m.type)
    (hkey : x.keySet = true) : m.keySet = true := by
  by_contra hm
  have hidm : m.id ≠ [] := hid ▸ hidx
  have hw : writes x (Stream.new x.incarnation) = some _ := writes_open hkx hidx rfl
  have hfound : writes m (setSourceIn x (addSource (Source.new x.id x.type x.priority)
      (Stream.new x.incarnation))) =
      some (setSourceIn m (setSourceIn x (addSource (Source.new x.id x.type x.priority)
        (Stream.new x.incarnation)))) := by
    simp [writes, hk, hidm, sourceFind, setSourceIn, addSource, Stream.new, setSource, Source.new,
      hid, ht]
  have h := views_agree ho hn hlt hagree (by simp [hk]) (by simp [hk]) hx (by simp [hkx])
    (by simp [hkx]) (fun _ => hidx) (writes_open hk hidm rfl) hw hfound
  have hsources := congrFun (congrArg StreamView.sources h) m.id
  simp [streamView, sourceFind, sourceView, Stream.new, setSourceIn, addSource, Source.new,
    setSource, hid, hkey, hm] at hsources

theorem sourceDelete_necessary (hk : m.kind = .sourceDelete) {x : Op} (hx : x ∈ ops)
    (hkx : x.kind = .streamSet ∨ x.kind = .sourceSet) (heff : Effective x) : False := by
  have hidm : m.id ≠ [] := hn.effective (Or.inr hk)
  have hm := ho.decoded m hn.mem
  have hkd : x.kind ≠ .streamDelete := by rcases hkx with h | h <;> simp [h]
  have hks : x.kind ≠ .sourceDelete := by rcases hkx with h | h <;> simp [h]
  obtain ⟨w, hw⟩ : ∃ w, writes x (Stream.new x.incarnation) = some w := by
    rcases hkx with h | h
    · exact ⟨setFields x (Stream.new x.incarnation), by simp only [writes, h]⟩
    · exact ⟨_, writes_open h (heff (Or.inl h)) rfl⟩
  have hremove : writes m w = some { removeSource m.id w with revision := m.revision } := by
    simp [writes, hk, hidm]
  have hinc : x.incarnation = m.incarnation :=
    (ho.incarnation x hx).trans (ho.incarnation m hn.mem).symm
  obtain ⟨hrev, _, hwinc⟩ := writes_spec hw
  have hwinc' : w.incarnation = m.incarnation := by
    rcases hwinc with h | h
    · exact h.trans hinc
    · exact h.trans hinc
  have hfirst : Cell.fresh.apply replica m = Cell.fresh := by
    have := apply_writes replica_willing hm (@fresh_accepts m) (by rintro _ ⟨⟩) (by simp [hk])
    simpa [base, hk, Cell.fresh] using this
  have h := runs_agree ho hn hlt hagree (by simp [hk]) hx hkd
  rw [hfirst, first_write (ho.decoded x hx) hkd hks hw,
    second_write hm (by simp [hk]) (hrev.trans_le (hn.newest x hx heff)) hwinc', hremove,
    Option.getD_some,
    @rest_settled ⟨some { removeSource m.id w with revision := m.revision }, []⟩ m application name
      incarnation ops ho hn _ rfl rfl] at h
  have hbelow := rest_below ho hn (fresh_lives incarnation) (by rintro _ ⟨⟩)
  obtain ⟨st, hst, hview⟩ := Option.map_eq_some_iff.mp h
  have hsame : st.revision = m.revision := congrArg StreamView.revision hview
  exact absurd hsame (Nat.ne_of_lt (hbelow st hst))

theorem convergent_necessary : AgreesWith m ops := by
  unfold AgreesWith
  cases hk : m.kind with
  | streamDelete => trivial
  | streamSet =>
    intro x hx hkx
    exact streamSet_necessary ho hn hlt hagree hk hx hkx
  | sourceSet =>
    intro x hx
    refine ⟨fun hkx => sourceSet_default_necessary ho hn hlt hagree hk hx hkx, ?_⟩
    intro hkx hidx
    have hid := sourceSet_id_necessary ho hn hlt hagree hk hx hkx hidx
    have ht := sourceSet_type_necessary ho hn hlt hagree hk hx hkx hidx hid
    exact ⟨hid, ht, sourceSet_key_necessary ho hn hlt hagree hk hx hkx hidx hid ht⟩
  | sourceDelete =>
    intro x hx
    constructor
    · intro hkx
      exact sourceDelete_necessary ho hn hlt hagree hk hx (Or.inl hkx) (by simp [Effective, hkx])
    · intro hkx
      by_contra hidx
      exact sourceDelete_necessary ho hn hlt hagree hk hx (Or.inr hkx) fun _ => hidx

end Run

/-- Two replicas that start empty and receive the same operations of one lifetime, in any two
orders and with any duplicates, end alike exactly when the set is `Convergent`. -/
theorem replicas_agree_iff {application name : Str} {incarnation : ℕ} {ops : Finset Op}
    (ho : OneLifetime application name incarnation ops)
    (hlt : (ops.filter fun op => op.kind = .streamDelete).card < tombstones) :
    (∀ d d', Delivers ops d → Delivers ops d' →
      desired (receive Registry.empty d) application name =
        desired (receive Registry.empty d') application name) ↔ Convergent ops := by
  constructor
  · intro hagree m hn
    exact convergent_necessary ho hn hlt hagree
  · intro hc d d' hd hd'
    rw [desired_receive ho hd, desired_receive ho hd']
    by_cases hex : ∃ m, Newest m ops
    · obtain ⟨m, hn⟩ := hex
      have ha := hc m hn
      unfold AgreesWith at ha
      cases hk : m.kind with
      | streamDelete => rw [deleted_view ho hn hk hd, deleted_view ho hn hk hd']
      | streamSet =>
        rw [hk] at ha
        rw [streamSet_view ho hn hk ha hd, streamSet_view ho hn hk ha hd']
      | sourceSet =>
        rw [hk] at ha
        rw [sourceSet_view ho hn hk ha hd, sourceSet_view ho hn hk ha hd']
      | sourceDelete =>
        rw [hk] at ha
        rw [absent_view ho ha hd, absent_view ho ha hd']
    · -- no effective operation at all: nothing builds a stream
      have hnone : ∀ op ∈ ops, ¬ Effective op := by
        intro op hop heff
        classical
        obtain ⟨m, hm, hmax⟩ := Finset.exists_max_image (ops.filter fun op => Effective op)
          Op.revision ⟨op, Finset.mem_filter.mpr ⟨hop, heff⟩⟩
        obtain ⟨hmem, hmeff⟩ := Finset.mem_filter.mp hm
        exact hex ⟨m, hmem, hmeff, fun x hx hxeff =>
          hmax x (Finset.mem_filter.mpr ⟨hx, hxeff⟩)⟩
      have ha : ∀ op ∈ ops, op.kind ≠ .streamSet ∧ (op.kind = .sourceSet → op.id = []) := by
        intro op hop
        constructor
        · intro hk
          exact hnone op hop (by simp [Effective, hk])
        · intro hk
          by_contra hid
          exact hnone op hop fun _ => hid
      rw [absent_view ho ha hd, absent_view ho ha hd']

theorem onCam_pair_lifetime {k k' : Kind} {id id' : Str} (hid : id.length ≤ maxName)
    (hid' : id'.length ≤ maxName) :
    OneLifetime [108, 105, 118, 101] [99, 97, 109] 1 {onCam k 1 1 id, onCam k' 2 1 id'} := by
  have hcases : ∀ op ∈ ({onCam k 1 1 id, onCam k' 2 1 id'} : Finset Op),
      op = onCam k 1 1 id ∨ op = onCam k' 2 1 id' := by
    intro op hop
    simpa using hop
  constructor
  · intro op hop
    rcases hcases op hop with rfl | rfl
    · exact onCam_decoded _ _ (by decide) hid
    · exact onCam_decoded _ _ (by decide) hid'
  · intro op hop
    rcases hcases op hop with rfl | rfl <;> exact ⟨rfl, rfl⟩
  · intro op hop
    rcases hcases op hop with rfl | rfl <;> rfl
  · intro op hop
    rcases hcases op hop with rfl | rfl <;> exact Nat.noConfusion
  · intro op hop op' hop' heq
    rcases hcases op hop with rfl | rfl <;> rcases hcases op' hop' with rfl | rfl
    · rfl
    · cases heq
    · cases heq
    · rfl

theorem onCam_pair_delivers {a b : Op} {d : List (Op × Env)}
    (hd : d.map Prod.fst = [a, b] ∨ d.map Prod.fst = [b, a]) (he : ∀ x ∈ d, x.2 = replica)
    (hlt : deletions d < tombstones) : Delivers {a, b} d := by
  constructor
  · intro op
    rcases hd with hd | hd
    · rw [hd]
      simp
    · rw [hd]
      simp [or_comm]
  · intro x hx
    rw [he x hx]
    exact replica_willing
  · exact hlt

theorem replicas_agree_on_deleted_stream :
    desired (receive Registry.empty [(onCam .streamSet 1 1 [], replica),
      (onCam .streamDelete 2 1 [], replica)]) [108, 105, 118, 101] [99, 97, 109] =
    desired (receive Registry.empty [(onCam .streamDelete 2 1 [], replica),
      (onCam .streamSet 1 1 [], replica)]) [108, 105, 118, 101] [99, 97, 109] := by
  refine (replicas_agree_iff (onCam_pair_lifetime (by decide) (by decide)) (by decide)).mpr ?_
    _ _ (onCam_pair_delivers (Or.inl rfl) (by simp) (by decide))
    (onCam_pair_delivers (Or.inr rfl) (by simp) (by decide))
  intro m hn
  have hm : m = onCam .streamSet 1 1 [] ∨ m = onCam .streamDelete 2 1 [] := by
    simpa using hn.mem
  rcases hm with rfl | rfl
  · have := hn.newest (onCam .streamDelete 2 1 []) (by simp) (by simp [Effective, onCam])
    exact absurd this (by decide)
  · trivial

/-- Two sources of one stream: the worker that hears of the second one first never takes the
first. -/
theorem replicas_disagree_on_two_sources :
    let a := onCam .sourceSet 1 1 [97]
    let b := onCam .sourceSet 2 1 [98]
    let d := [(a, replica), (b, replica)]
    let d' := [(b, replica), (a, replica)]
    OneLifetime [108, 105, 118, 101] [99, 97, 109] 1 {a, b} ∧ Delivers {a, b} d ∧
      Delivers {a, b} d' ∧
      desired (receive Registry.empty d) [108, 105, 118, 101] [99, 97, 109] ≠
        desired (receive Registry.empty d') [108, 105, 118, 101] [99, 97, 109] := by
  intro a b d d'
  refine ⟨onCam_pair_lifetime (by decide) (by decide), ?_, ?_, ?_⟩
  · exact onCam_pair_delivers (Or.inl rfl) (by simp [d]) (by decide)
  · exact onCam_pair_delivers (Or.inr rfl) (by simp [d']) (by decide)
  · intro h
    have hfirst := congrArg (fun v => (v.bind fun v : StreamView => v.sources [97]).isSome) h
    revert hfirst
    decide +kernel

end GraphConvergence
