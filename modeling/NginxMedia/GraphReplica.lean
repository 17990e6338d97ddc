import Mathlib.Data.Finset.Card
import NginxMedia.StepRun
import NginxMedia.GraphCell

/-! What replicas of the graph agree on. Workers receive the same operations on one identity
in different orders, some of them again. A deletion that outranks every other operation wins
in every order as long as it names the lifetime it meets; the other operations share one
revision per stream, and `Convergent` says for which sets of operations that is enough. -/
namespace GraphReplica

open MediaTypes MediaGraph GraphCell

variable {env : Env} {c : Cell} {op m : Op}

structure Accepts (c : Cell) (op : Op) : Prop where
  refuses : c.refuses op.revision = false
  stale : ∀ st ∈ c.stream, st.revision ≤ op.revision

theorem refuses_false {r : ℕ} : c.refuses r = false ↔ ∀ b ∈ c.buried, b < r := by
  simp [Cell.refuses]

theorem stale_false :
    (c.stream.any fun st => decide (st.revision > op.revision)) = false ↔
      ∀ st ∈ c.stream, st.revision ≤ op.revision := by
  cases c.stream <;> simp

theorem apply_of_not_accepts (h : ¬ Accepts c op) : c.apply env op = c := by
  unfold Cell.apply
  by_cases hr : c.refuses op.revision = true
  · rw [if_pos hr]
  · rw [if_neg hr]
    by_cases hs : (c.stream.any fun st => decide (st.revision > op.revision)) = true
    · rw [if_pos hs]
    · exact absurd ⟨Bool.not_eq_true _ ▸ hr, stale_false.mp (Bool.not_eq_true _ ▸ hs)⟩ h

theorem apply_of_accepts (h : Accepts c op) :
    c.apply env op =
      match op.kind with
      | .streamSet => cellStreamSet env c op
      | .streamDelete => cellStreamDelete env c op
      | .sourceSet => cellSourceSet env c op
      | .sourceDelete => cellSourceDelete c op := by
  have hrefused : ¬ c.refuses op.revision = true := by
    rw [h.refuses]
    simp
  have hstale : ¬ (c.stream.any fun st => decide (st.revision > op.revision)) = true := by
    rw [stale_false.mpr h.stale]
    simp
  exact (if_neg hrefused).trans (if_neg hstale)

structure Written (c : Cell) (op : Op) (st : Stream) : Prop where
  revision : st.revision = op.revision
  incarnation : (op.kind = .streamSet ∨ op.kind = .sourceSet) ∧ st.incarnation = op.incarnation ∨
    ∃ old ∈ c.stream, st.incarnation = old.incarnation
  destinations : st.destinations = 0 ∨ ∃ old ∈ c.stream, st.destinations = old.destinations

inductive Outcome (env : Env) (c : Cell) (op : Op) : Cell → Prop where
  | keep : Outcome env c op c
  | write (st : Stream) : Written c op st → Outcome env c op ⟨some st, c.buried⟩
  | replace (old st : Stream) : old ∈ c.stream → old.revision < op.revision → Written c op st →
      st.incarnation = op.incarnation → op.kind = .streamSet → st.destinations = 0 →
      Outcome env c op ⟨some st, c.buried ++ [retiredRevision env old]⟩
  | bury : op.kind = .streamDelete → c.stream = none →
      Outcome env c op ⟨none, c.buried ++ [op.revision]⟩
  | remove (old : Stream) : op.kind = .streamDelete → old ∈ c.stream →
      Outcome env c op ⟨none, c.buried ++ [retiredRevision env { old with revision := op.revision }]⟩

theorem setSourceIn_written {st : Stream} (hk : op.kind = .sourceSet)
    (hst : st.incarnation = op.incarnation)
    (hdest : st.destinations = 0 ∨ ∃ old ∈ c.stream, st.destinations = old.destinations) :
    Written c op (setSourceIn op st) := by
  constructor
  · rfl
  · exact Or.inl ⟨Or.inr hk, hst⟩
  · exact hdest

theorem cellStreamSet_outcome (hk : op.kind = .streamSet) :
    Outcome env c op (cellStreamSet env c op) := by
  unfold cellStreamSet
  cases hs : c.stream with
  | none =>
    dsimp only
    split_ifs
    · exact .keep
    · exact .write _ ⟨rfl, Or.inl ⟨Or.inl hk, rfl⟩, Or.inl rfl⟩
  | some st =>
    dsimp only
    split_ifs with hi hrev hr
    · exact .keep
    · have hlt : st.revision < op.revision := by
        by_contra hle
        exact hrev (Or.inl (Nat.le_of_not_lt hle))
      exact .replace st _ hs hlt ⟨rfl, Or.inl ⟨Or.inl hk, rfl⟩, Or.inl rfl⟩ rfl hk rfl
    · exact .keep
    · exact .write _ ⟨rfl, Or.inl ⟨Or.inl hk, rfl⟩, Or.inr ⟨st, hs, rfl⟩⟩

theorem cellStreamDelete_outcome (hk : op.kind = .streamDelete) (ha : Accepts c op) :
    Outcome env c op (cellStreamDelete env c op) := by
  unfold cellStreamDelete
  cases hs : c.stream with
  | none => exact .bury hk hs
  | some st =>
    have hle := ha.stale st hs
    have hrev : (if op.revision > st.revision then { st with revision := op.revision } else st) =
        { st with revision := op.revision } := by
      split_ifs with h
      · rfl
      · rw [Nat.le_antisymm (Nat.le_of_not_lt h) hle]
    dsimp only
    rw [hrev]
    split_ifs
    · exact .keep
    · exact .remove st hk hs

theorem sourceTarget_spec {st st' : Stream} (h : sourceTarget env st op = some st') :
    st'.incarnation = st.incarnation ∧ st'.destinations = st.destinations := by
  unfold sourceTarget at h
  cases hf : sourceFind st op.id with
  | some s =>
    rw [hf] at h
    dsimp only at h
    split_ifs at h
    rw [← Option.some.inj h]
    exact ⟨rfl, rfl⟩
  | none =>
    rw [hf] at h
    cases ho : sourceOpen env op with
    | none => simp [ho] at h
    | some s =>
      rw [ho] at h
      dsimp only at h
      split_ifs at h
      rw [← Option.some.inj h]
      exact ⟨rfl, rfl⟩

theorem cellSourceSet_outcome (hk : op.kind = .sourceSet) :
    Outcome env c op (cellSourceSet env c op) := by
  unfold cellSourceSet
  by_cases hstop : c.stream.any (fun st => decide (st.incarnation ≠ op.incarnation)) ∨ op.id = []
  · rw [if_pos hstop]
    exact .keep
  · rw [if_neg hstop]
    by_cases hstage : c.stream.isNone ∧ env.stages = false
    · rw [if_pos hstage]
      exact .keep
    · rw [if_neg hstage]
      cases ht : sourceTarget env (c.stream.getD (Stream.new op.incarnation)) op with
      | none => exact .keep
      | some st =>
        obtain ⟨hinc, hdest⟩ := sourceTarget_spec ht
        refine .write _ (setSourceIn_written hk ?_ ?_)
        · rw [hinc]
          cases hs : c.stream with
          | none => rfl
          | some old =>
            have : ¬ old.incarnation ≠ op.incarnation := by
              intro hne
              exact hstop (Or.inl (by simp [hs, hne]))
            exact not_not.mp this
        · cases hs : c.stream with
          | none =>
            rw [hs] at hdest
            exact Or.inl hdest
          | some old =>
            rw [hs] at hdest
            exact Or.inr ⟨old, rfl, hdest⟩

theorem cellSourceDelete_outcome : Outcome env c op (cellSourceDelete c op) := by
  unfold cellSourceDelete
  cases hs : c.stream with
  | none => exact .keep
  | some st =>
    dsimp only
    split_ifs
    · exact .keep
    · exact .write _ ⟨rfl, Or.inr ⟨st, hs, rfl⟩, Or.inr ⟨st, hs, rfl⟩⟩

theorem apply_outcome (env : Env) (c : Cell) (op : Op) : Outcome env c op (c.apply env op) := by
  by_cases ha : Accepts c op
  · rw [apply_of_accepts ha]
    cases hk : op.kind with
    | streamSet => exact cellStreamSet_outcome hk
    | streamDelete => exact cellStreamDelete_outcome hk ha
    | sourceSet => exact cellSourceSet_outcome hk
    | sourceDelete => exact cellSourceDelete_outcome
  · rw [apply_of_not_accepts ha]
    exact .keep

theorem apply_buried_le (env : Env) (c : Cell) (op : Op) :
    c.buried.length ≤ (c.apply env op).buried.length := by
  have hout := apply_outcome env c op
  generalize c.apply env op = c' at hout ⊢
  cases hout with
  | keep => exact Nat.le_refl _
  | write => exact Nat.le_refl _
  | replace => simp
  | bury => simp
  | remove => simp

theorem receive_buried_le (c : Cell) (deliveries : List (Op × Env)) :
    c.buried.length ≤ (c.receive deliveries).buried.length := by
  apply StepRun.related (I := fun _ => True) (R := fun c c' : Cell =>
    c.buried.length ≤ c'.buried.length)
  · exact fun _ => Nat.le_refl _
  · exact fun _ _ _ h h' => Nat.le_trans h h'
  · exact fun c d _ => ⟨trivial, apply_buried_le d.2 c d.1⟩
  · trivial

theorem receive_count_lt {reg : Registry} {application name : Str} (h : Inv reg)
    (hr : RingOk reg.tombs) (deliveries : List (Op × Env))
    (hd : ∀ d ∈ deliveries, d.1.Decoded)
    (hown : ∀ d ∈ deliveries, d.1.application = application ∧ d.1.name = name)
    (hlt : reg.tombs.count + ((cell reg application name).receive deliveries).buried.length <
      tombstones + (cell reg application name).buried.length) :
    (receive reg deliveries).tombs.count < tombstones := by
  induction deliveries generalizing reg with
  | nil => exact hr.count_lt
  | cons d rest ih =>
    obtain ⟨rfl, rfl⟩ := hown d List.mem_cons_self
    obtain ⟨g, he, hg⟩ := @apply_does reg d.2 d.1 h (hd d List.mem_cons_self)
    have hcell := he.own h hr
    have hgrow := he.count_growth (cell reg d.1.application d.1.name)
    rw [hg] at hcell hgrow
    have hrun : (cell reg d.1.application d.1.name).receive (d :: rest) =
        ((cell reg d.1.application d.1.name).apply d.2 d.1).receive rest := rfl
    rw [hrun] at hlt
    have hle := receive_buried_le ((cell reg d.1.application d.1.name).apply d.2 d.1) rest
    refine @ih (apply d.2 reg d.1).1 (he.inv h) (he.ring hr (by omega))
      (fun x hx => hd x (List.mem_cons_of_mem _ hx))
      (fun x hx => hown x (List.mem_cons_of_mem _ hx)) ?_
    rw [hcell]
    omega

/-- The deletion may end a lifetime of this incarnation. -/
def Ends (m : Op) (incarnation : ℕ) : Prop := m.incarnation = 0 ∨ incarnation = m.incarnation

/-- The deletion, when it comes, is neither refused nor about another lifetime. -/
structure Open (m : Op) (c : Cell) : Prop where
  buried_lt : ∀ b ∈ c.buried, b < m.revision
  stream : ∀ st ∈ c.stream,
    st.revision ≤ m.revision ∧ Ends m st.incarnation ∧ st.destinations = 0

/-- The deletion, or one that outranks it, is remembered. -/
def Gone (m : Op) (c : Cell) : Prop := c.stream = none ∧ ∃ b ∈ c.buried, m.revision ≤ b

theorem retiredRevision_eq {st : Stream} (h : st.destinations = 0) :
    retiredRevision env st = st.revision := by
  rw [retiredRevision, h]
  rfl

theorem open_or_gone_of_absent (h : c.stream = none) : Open m c ∨ Gone m c := by
  by_cases hb : ∃ b ∈ c.buried, m.revision ≤ b
  · exact Or.inr ⟨h, hb⟩
  · refine Or.inl ⟨?_, ?_⟩
    · intro b hmem
      by_contra hle
      exact hb ⟨b, hmem, Nat.le_of_not_lt hle⟩
    · intro st hst
      rw [h] at hst
      cases hst

theorem Gone.step (h : Gone m c) (hle : op.revision ≤ m.revision) : c.apply env op = c := by
  obtain ⟨_, b, hb, hmb⟩ := h
  apply apply_of_not_accepts
  intro ha
  have := refuses_false.mp ha.refuses b hb
  omega

theorem Written.open {st : Stream} (hw : Written c op st) (h : Open m c)
    (hle : op.revision ≤ m.revision)
    (hends : op.kind = .streamSet ∨ op.kind = .sourceSet → Ends m op.incarnation) :
    st.revision ≤ m.revision ∧ Ends m st.incarnation ∧ st.destinations = 0 := by
  refine ⟨hw.revision ▸ hle, ?_, ?_⟩
  · rcases hw.incarnation with ⟨hk, hinc⟩ | ⟨old, hold, hinc⟩
    · rw [hinc]
      exact hends hk
    · rw [hinc]
      exact (h.stream old hold).2.1
  · rcases hw.destinations with hd | ⟨old, hold, hd⟩
    · exact hd
    · rw [hd]
      exact (h.stream old hold).2.2

theorem Open.step (h : Open m c) (hle : op.revision ≤ m.revision)
    (hends : op.kind = .streamSet ∨ op.kind = .sourceSet → Ends m op.incarnation) :
    Open m (c.apply env op) ∨ Gone m (c.apply env op) := by
  have hout := apply_outcome env c op
  generalize c.apply env op = c' at hout ⊢
  cases hout with
  | keep => exact Or.inl h
  | write st hw =>
    refine Or.inl ⟨h.buried_lt, ?_⟩
    rintro _ ⟨⟩
    exact hw.open h hle hends
  | replace old st hold hlt hw _ _ _ =>
    refine Or.inl ⟨?_, ?_⟩
    · intro b hb
      rcases List.mem_append.mp hb with hb | hb
      · exact h.buried_lt b hb
      · rw [List.mem_singleton.mp hb, retiredRevision_eq (h.stream old hold).2.2]
        exact Nat.lt_of_lt_of_le hlt hle
    · rintro _ ⟨⟩
      exact hw.open h hle hends
  | bury => exact open_or_gone_of_absent rfl
  | remove => exact open_or_gone_of_absent rfl

/-- The deletion itself finds the way open and leaves its tombstone. -/
theorem Open.deletion (h : Open m c) (hk : m.kind = .streamDelete) : Gone m (c.apply env m) := by
  have ha : Accepts c m := ⟨refuses_false.mpr h.buried_lt, fun st hst => (h.stream st hst).1⟩
  have hends : ∀ st ∈ c.stream, ¬ (m.incarnation ≠ 0 ∧ st.incarnation ≠ m.incarnation) := by
    rintro st hst ⟨h0, hne⟩
    rcases (h.stream st hst).2.1 with hz | heq
    · exact h0 hz
    · exact hne heq
  rw [apply_of_accepts ha, hk]
  dsimp only
  unfold cellStreamDelete
  cases hs : c.stream with
  | none => exact ⟨rfl, m.revision, by simp, Nat.le_refl _⟩
  | some st =>
    obtain ⟨hle, _, hdest⟩ := h.stream st hs
    dsimp only
    rw [if_neg (hends st hs)]
    refine ⟨rfl, _, List.mem_append_right _ List.mem_cons_self, ?_⟩
    split_ifs with hgt
    · rw [retiredRevision_eq (by exact hdest)]
    · rw [retiredRevision_eq hdest]
      exact Nat.le_of_not_lt hgt

/-- A deletion that outranks every operation on its identity and names the lifetime of every one
that builds or fills the stream leaves the identity without a stream, in every order, with any
duplicates and whatever the environment answers. -/
theorem deletion_wins {reg : Registry} (h : Inv reg) (hr : RingOk reg.tombs)
    {deliveries : List (Op × Env)} (hd : ∀ d ∈ deliveries, d.1.Decoded)
    (hapart : ∀ d ∈ deliveries, concerns m.application m.name d = false →
      ownerHash d.1.application d.1.name ≠ ownerHash m.application m.name)
    (hlt : (receive reg deliveries).tombs.count < tombstones)
    (hm : m ∈ deliveries.map Prod.fst) (hk : m.kind = .streamDelete)
    (hmax : ∀ d ∈ deliveries, concerns m.application m.name d = true →
      d.1.revision ≤ m.revision)
    (hends : ∀ d ∈ deliveries, concerns m.application m.name d = true →
      d.1.kind = .streamSet ∨ d.1.kind = .sourceSet → Ends m d.1.incarnation)
    (hstart : ∀ e, registryStream reg m.application m.name = some e →
      e.stream.revision ≤ m.revision ∧ Ends m e.stream.incarnation ∧ e.stream.destinations = 0 ∧
        tombstoneHas reg.tombs (ownerHash m.application m.name) m.revision = false) :
    registryStream (receive reg deliveries) m.application m.name = none := by
  have hopen : Open m (cell reg m.application m.name) ∨
      Gone m (cell reg m.application m.name) := by
    cases hl : registryStream reg m.application m.name with
    | none => exact open_or_gone_of_absent (cell_none hl)
    | some e =>
      obtain ⟨hrev, hinc, hdest, hhas⟩ := hstart e hl
      rw [tombstoneHas_eq] at hhas
      refine Or.inl ⟨refuses_false.mp hhas, ?_⟩
      intro st hst
      rw [cell_some hl] at hst
      cases hst
      exact ⟨hrev, hinc, hdest⟩
  have hgone : Gone m (cell (receive reg deliveries) m.application m.name) := by
    rw [receive_cell h hr deliveries hd hapart hlt]
    obtain ⟨d, hdm, rfl⟩ := List.mem_map.mp hm
    have hown : concerns d.1.application d.1.name d = true := decide_eq_true ⟨rfl, rfl⟩
    refine StepRun.settles (I := fun c => Open d.1 c ∨ Gone d.1 c) ?_ ?_ ?_ hopen
      (List.mem_filter.mpr ⟨hdm, hown⟩)
    · intro c x hx hc
      obtain ⟨hmem, hcon⟩ := List.mem_filter.mp hx
      rcases hc with hc | hc
      · exact hc.step (hmax x hmem hcon) (hends x hmem hcon)
      · rw [hc.step (hmax x hmem hcon)]
        exact Or.inr hc
    · intro c hc
      rcases hc with hc | hc
      · exact hc.deletion hk
      · rw [hc.step (Nat.le_refl _)]
        exact hc
    · intro c x hx hc
      obtain ⟨hmem, hcon⟩ := List.mem_filter.mp hx
      rw [hc.step (hmax x hmem hcon)]
      exact hc
  have hnone := hgone.1
  rwa [cell, Option.map_eq_none_iff] at hnone

/-- Everything the operation asks of the worker succeeds. -/
structure Willing (env : Env) : Prop where
  admits : env.admits = true
  stages : env.stages = true
  adds : env.adds = true
  opens : env.opens = true
  copies : env.copies = true

/-- A worker that owns nothing and has memory for everything. -/
def replica : Env := ⟨false, true, true, true, true, true, 7, fun _ => 0⟩

theorem replica_willing : Willing replica := ⟨rfl, rfl, rfl, rfl, rfl⟩

/-- An operation on the program `live/cam`; every other field as the decoder leaves it. -/
def onCam (kind : Kind) (revision incarnation : ℕ) (id : Str) : Op :=
  ⟨kind, revision, incarnation, revision, 1, 0, true, failureTimeoutDefault,
    recoveryTimeoutDefault, mediaSource, [108, 105, 118, 101], [99, 97, 109], id, [], [], false,
    [], [], false, []⟩

theorem onCam_decoded (kind : Kind) (revision : ℕ) {incarnation : ℕ} (hi : incarnation ≠ 0)
    {id : Str} (hid : id.length ≤ maxName) : (onCam kind revision incarnation id).Decoded := by
  constructor
  case incarnation_pos => exact fun _ => hi
  case id_le => exact hid
  all_goals simp [onCam, maxName, maxPath, mediaSource]

theorem deletion_wins_over_late_set :
    registryStream (receive Registry.empty
      [(onCam .streamDelete 2 1 [], replica), (onCam .streamSet 1 1 [], replica)])
      [108, 105, 118, 101] [99, 97, 109] = none := by
  refine deletion_wins (m := onCam .streamDelete 2 1 []) empty_inv empty_ring ?_ ?_ ?_ ?_ rfl
    ?_ ?_ ?_
  · intro d hd
    rcases List.mem_pair.mp hd with rfl | rfl <;>
      exact onCam_decoded _ _ (by decide) (by decide)
  · intro d hd hc
    rcases List.mem_pair.mp hd with rfl | rfl <;> simp [concerns, onCam] at hc
  · decide +kernel
  · decide
  · decide
  · intro d _ _ _
    right
    rcases List.mem_pair.mp ‹_› with rfl | rfl <;> rfl
  · intro e he
    cases he

/-- A deletion of another lifetime passes the stream by, although nothing outranks it. -/
theorem deletion_of_another_lifetime :
    let deliveries := [(onCam .streamSet 1 2 [], replica), (onCam .streamDelete 2 1 [], replica)]
    (∀ d ∈ deliveries, d.1.Decoded ∧ d.1.revision ≤ 2) ∧
      onCam .streamDelete 2 1 [] ∈ deliveries.map Prod.fst ∧
      (receive Registry.empty deliveries).tombs.count = 0 ∧
      (registryStream (receive Registry.empty deliveries)
        [108, 105, 118, 101] [99, 97, 109]).isSome = true := by
  refine ⟨?_, by decide, by decide +kernel, by decide +kernel⟩
  intro d hd
  rcases List.mem_pair.mp hd with rfl | rfl
  · exact ⟨onCam_decoded _ _ (by decide) (by decide), by decide⟩
  · exact ⟨onCam_decoded _ _ (by decide) (by decide), by decide⟩

end GraphReplica
