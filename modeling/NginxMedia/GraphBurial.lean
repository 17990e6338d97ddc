import Mathlib.Order.Monotone.Basic
import NginxMedia.GraphApply

/-! What a deletion buries. Taking a stream down removes its destinations, each of which draws
a number of the shared revision sequence for the stream, and the tombstone is written from the
stream's revision afterwards. `apply_tombs` says what every call remembers; a run of one worker
follows deliveries and local changes of one identity with the sequence they draw from. -/
namespace GraphBurial

open MediaTypes MediaGraph GraphCell GraphReplica GraphApply

variable {env : Env} {reg reg' : Registry} {op op' : Op} {application name : Str}

/-- Neither guard of `ngx_media_graph_apply()` drops the operation. -/
def Admitted (reg : Registry) (op : Op) : Prop :=
  tombstoneHas reg.tombs (ownerHash op.application op.name) op.revision = false ∧
    ∀ e, registryStream reg op.application op.name = some e → e.stream.revision ≤ op.revision

def TearsDown (env : Env) (reg : Registry) (op : Op) (e : Entry) : Prop :=
  Admitted reg op ∧ registryStream reg op.application op.name = some e ∧
    (op.kind = .streamDelete ∧ foreign op e = false ∨
      op.kind = .streamSet ∧ e.stream.incarnation ≠ op.incarnation ∧
        e.stream.revision < op.revision ∧ env.stages = true ∧ env.refuses = false)

def carried (op : Op) (e : Entry) : Stream :=
  if op.kind = .streamDelete then { e.stream with revision := op.revision } else e.stream

inductive Remembered (env : Env) (reg : Registry) (op : Op) : TombstoneRing → Prop where
  | nothing : (∀ e, ¬TearsDown env reg op e) → Remembered env reg op reg.tombs
  | absent : registryStream reg op.application op.name = none →
      Remembered env reg op
        (tombstoneAdd reg.tombs (ownerHash op.application op.name) op.revision)
  | torn (e : Entry) : TearsDown env reg op e →
      Remembered env reg op (tombstoneAdd reg.tombs (ownerHash op.application op.name)
        (retiredRevision env (carried op e)))

@[simp] theorem update_tombs (handle : ℕ) (f : Stream → Stream) :
    (update reg handle f).tombs = reg.tombs := rfl

@[simp] theorem discard_tombs (handle : ℕ) :
    (streamRemove env reg handle false).1.tombs = reg.tombs := by
  unfold streamRemove
  split <;> rfl

@[simp] theorem undo_tombs (new : Prop) [Decidable new] (handle : ℕ) :
    (if new then (streamRemove env reg handle false).1 else reg).tombs = reg.tombs := by
  split_ifs
  · exact discard_tombs handle
  · rfl

theorem streamStage_tombs {e : Entry} (h : streamStage env reg application name = some (e, reg')) :
    reg'.tombs = reg.tombs := by
  unfold streamStage at h
  split_ifs at h
  simp only [Option.some.injEq, Prod.mk.injEq] at h
  rw [← h.2]

theorem graphStream_tombs {e : Entry} (h : graphStream env reg op = some (e, reg')) :
    reg'.tombs = reg.tombs := by
  unfold graphStream at h
  split at h
  · simp only [Option.some.injEq, Prod.mk.injEq] at h
    rw [h.2]
  · cases hs : streamStage env reg op.application op.name with
    | none => simp [hs] at h
    | some staged =>
      simp only [hs] at h
      split_ifs at h
      all_goals
        have hstage := streamStage_tombs hs
        simp only [Option.some.injEq, Prod.mk.injEq] at h
        rw [← h.2]
        exact hstage

theorem sourceSet_tombs (stream : Option Entry) :
    (sourceSet env reg op stream).1.tombs = reg.tombs := by
  unfold sourceSet
  by_cases hforeign : (stream.any fun e => decide (e.stream.incarnation ≠ op.incarnation)) = true
  · rw [if_pos hforeign]
  · rw [if_neg hforeign]
    by_cases hid : op.id = []
    · rw [if_pos hid]
    · rw [if_neg hid]
      cases hg : graphStream env reg op with
      | none => rfl
      | some found =>
        have hsame := graphStream_tombs hg
        dsimp only
        cases sourceFind found.1.stream op.id with
        | some s =>
          dsimp only
          by_cases htype : s.type ≠ op.type
          · rw [if_pos htype]
            exact hsame
          · rw [if_neg htype]
            cases sourcePathsSet env op s <;> simp [hsame]
        | none =>
          cases sourceOpen env op with
          | none => simp [hsame]
          | some s =>
            dsimp only
            cases sourcePathsSet env op s <;> simp [hsame]

theorem sourceDelete_tombs (stream : Option Entry) :
    (sourceDelete reg op stream).1.tombs = reg.tombs := by
  unfold sourceDelete
  split
  · rfl
  · split_ifs <;> rfl

theorem Remembered.of_kind (hd : op.kind ≠ .streamDelete) (hs : op.kind ≠ .streamSet)
    {ring : TombstoneRing} (h : ring = reg.tombs) : Remembered env reg op ring := by
  rw [h]
  apply Remembered.nothing
  rintro e ⟨-, -, ⟨hk, -⟩ | ⟨hk, -⟩⟩
  · exact hd hk
  · exact hs hk

theorem streamDelete_tombs (h : Inv reg) (hk : op.kind = .streamDelete)
    (ha : Admitted reg op) :
    Remembered env reg op
      (streamDelete env reg op (registryStream reg op.application op.name)).1.tombs := by
  cases hl : registryStream reg op.application op.name with
  | none => exact Remembered.absent hl
  | some e =>
    obtain ⟨hm, happ, hname⟩ := lookup_some hl
    have hle := ha.2 e hl
    unfold streamDelete
    dsimp only
    by_cases hf : foreign op e = true
    · rw [if_pos hf]
      apply Remembered.nothing
      rintro x ⟨-, hx, ⟨-, hown⟩ | ⟨hset, -⟩⟩
      · rw [Option.some.inj (hl.symm.trans hx), hown] at hf
        cases hf
      · rw [hk] at hset
        cases hset
    · have htorn : TearsDown env reg op e :=
        ⟨ha, hl, Or.inl ⟨hk, Bool.not_eq_true _ ▸ hf⟩⟩
      have hcarried : carried op e = { e.stream with revision := op.revision } := if_pos hk
      have hring := Remembered.torn e htorn
      rw [hcarried] at hring
      rw [if_neg hf]
      by_cases hrev : op.revision > e.stream.revision
      · rw [if_pos hrev, destroy_update h hm, happ, hname]
        exact hring
      · have heq : e.stream.revision = op.revision := Nat.le_antisymm hle (Nat.le_of_not_lt hrev)
        rw [← heq] at hring
        rw [if_neg hrev, destroy h hm, happ, hname]
        exact hring

theorem streamSet_tombs (h : Inv reg) (hd : op.Decoded) (hk : op.kind = .streamSet)
    (ha : Admitted reg op) :
    Remembered env reg op
      (streamSet env reg op (registryStream reg op.application op.name)).1.tombs := by
  have hinc : op.incarnation ≠ 0 := hd.incarnation_pos (by simp [hk])
  have hnodelete : op.kind ≠ .streamDelete := by simp [hk]
  cases hl : registryStream reg op.application op.name with
  | none =>
    have hnothing : Remembered env reg op reg.tombs := by
      apply Remembered.nothing
      rintro x ⟨-, hx, -⟩
      rw [hl] at hx
      cases hx
    simp only [streamSet, Option.filter_none, graphStream_none h hd hinc hl]
    by_cases hs : env.stages = false
    · rw [if_pos hs]
      exact hnothing
    · rw [if_neg hs]
      dsimp only
      by_cases hr : env.refuses = true
      · rw [if_pos hr]
        simpa [withNew] using hnothing
      · rw [if_neg hr]
        exact hnothing
  | some e =>
    obtain ⟨hm, happ, hname⟩ := lookup_some hl
    have hnothing : ¬(e.stream.incarnation ≠ op.incarnation ∧ e.stream.revision < op.revision ∧
        env.stages = true ∧ env.refuses = false) → Remembered env reg op reg.tombs := by
      intro hnot
      apply Remembered.nothing
      rintro x ⟨-, hx, ⟨hdel, -⟩ | ⟨-, hset⟩⟩
      · exact hnodelete hdel
      · rw [← Option.some.inj (hl.symm.trans hx)] at hset
        exact hnot hset
    simp only [streamSet, Option.filter_some, decide_eq_true_eq]
    by_cases hi : e.stream.incarnation ≠ op.incarnation
    · rw [if_pos hi]
      dsimp only
      by_cases hrev : op.revision ≤ e.stream.revision
      · rw [if_pos hrev]
        exact hnothing fun hset => Nat.not_lt.mpr hrev hset.2.1
      · rw [if_neg hrev, streamStage_eq hd]
        by_cases hs : env.stages = false
        · rw [if_pos hs]
          exact hnothing fun hset => by simp [hs] at hset
        · rw [if_neg hs]
          dsimp only
          rw [update_withNew h]
          by_cases hr : env.refuses = true
          · rw [if_pos hr, discard_withNew h]
            exact hnothing fun hset => by simp [hr] at hset
          · have htorn : TearsDown env reg op e := by
              refine ⟨ha, hl, Or.inr ⟨hk, hi, Nat.lt_of_not_le hrev, ?_, ?_⟩⟩
              · simpa using hs
              · simpa using hr
            have hcarried : carried op e = e.stream := if_neg hnodelete
            have hring := Remembered.torn e htorn
            rw [hcarried] at hring
            rw [if_neg hr, destroy_withNew h hm, happ, hname]
            exact hring
    · have hkept := hnothing fun hset => hi hset.1
      rw [if_neg hi, graphStream_some hl]
      dsimp only
      by_cases hr : env.refuses = true
      · rw [if_pos hr]
        exact hkept
      · rw [if_neg hr]
        exact hkept

theorem apply_tombs (env : Env) (h : Inv reg) (hd : op.Decoded) :
    Remembered env reg op (MediaGraph.apply env reg op).1.tombs := by
  have hdropped : ¬Admitted reg op → Remembered env reg op reg.tombs :=
    fun hnot => Remembered.nothing fun _ htorn => hnot htorn.1
  unfold MediaGraph.apply
  by_cases hb : tombstoneHas reg.tombs (ownerHash op.application op.name) op.revision = true
  · rw [if_pos hb]
    exact hdropped fun ha => by simp [ha.1] at hb
  · rw [if_neg hb]
    dsimp only
    by_cases hs : ((registryStream reg op.application op.name).any fun e =>
        decide (e.stream.revision > op.revision)) = true
    · rw [if_pos hs]
      apply hdropped
      intro ha
      cases hl : registryStream reg op.application op.name with
      | none => simp [hl] at hs
      | some e =>
        rw [hl, Option.any_some, decide_eq_true_eq] at hs
        exact Nat.not_lt.mpr (ha.2 e hl) hs
    · have ha : Admitted reg op := by
        refine ⟨Bool.not_eq_true _ ▸ hb, fun e he => ?_⟩
        rw [he, Option.any_some, decide_eq_true_eq] at hs
        exact Nat.le_of_not_lt hs
      rw [if_neg hs]
      cases hk : op.kind with
      | streamSet => exact streamSet_tombs h hd hk ha
      | streamDelete => exact streamDelete_tombs h hk ha
      | sourceSet => exact Remembered.of_kind (by simp [hk]) (by simp [hk]) (sourceSet_tombs _)
      | sourceDelete =>
        exact Remembered.of_kind (by simp [hk]) (by simp [hk]) (sourceDelete_tombs _)

def Leaves (reg reg' : Registry) (t : Tombstone) : Prop :=
  reg'.tombs = tombstoneAdd reg.tombs t.hash t.revision

def Recalls (ring : TombstoneRing) (t : Tombstone) : Prop := ∃ i < ring.count, ring.slots i = t

def Buried (reg : Registry) (t : Tombstone) (op : Op) : Prop :=
  Recalls reg.tombs t ∧ t.hash = ownerHash op.application op.name ∧ op.revision ≤ t.revision

theorem tombstoneAdd_inj {ring : TombstoneRing} {hash hash' : UInt64} {v v' : ℕ}
    (h : tombstoneAdd ring hash v = tombstoneAdd ring hash' v') : hash = hash' ∧ v = v' := by
  have hslot := congrFun (congrArg TombstoneRing.slots h) ring.next
  simpa [tombstoneAdd] using hslot

theorem tombstoneAdd_ne {ring : TombstoneRing} (h : RingWf ring) (hash : UInt64) (v : ℕ) :
    tombstoneAdd ring hash v ≠ ring := by
  intro heq
  have hnext : (ring.next + 1) % tombstones = ring.next := congrArg TombstoneRing.next heq
  have hlt := h.next_lt
  unfold tombstones at hnext hlt
  omega

theorem retiredRevision_drawn {st : Stream} (hahead : ∀ k, st.revision < env.shared k)
    (hgrows : StrictMono env.shared) :
    retiredRevision env st =
      if st.destinations = 0 then st.revision else env.shared (st.destinations - 1) := by
  have hfold : ∀ n, (List.range n).foldl (fun rev k => revisionNext (env.shared k) rev)
      st.revision = if n = 0 then st.revision else env.shared (n - 1) := by
    intro n
    induction n with
    | zero => rfl
    | succ n ih =>
      have hlt : (if n = 0 then st.revision else env.shared (n - 1)) < env.shared n := by
        split_ifs with hn
        · exact hahead n
        · exact hgrows (by omega)
      rw [List.range_succ, List.foldl_append, ih, List.foldl_cons, List.foldl_nil,
        if_neg (Nat.succ_ne_zero n)]
      exact if_pos hlt
  exact hfold st.destinations

theorem carried_destinations (op : Op) (e : Entry) :
    (carried op e).destinations = e.stream.destinations := by
  unfold carried
  split_ifs <;> rfl

theorem TearsDown.carried_le {e : Entry} (h : TearsDown env reg op e) :
    (carried op e).revision ≤ op.revision := by
  unfold carried
  split_ifs
  · exact Nat.le_refl _
  · exact h.1.2 e h.2.1

structure World where
  registry : Registry
  /-- the numbers the shared revision sequence has given out, to every worker -/
  drawn : ℕ

inductive Event where
  | deliver (op : Op) (env : Env)
  /-- a local change of the stream, such as a destination attached -/
  | change (f : Stream → Stream) (number : ℕ)
  /-- numbers drawn by other objects and other workers -/
  | elsewhere (number : ℕ)

/-- A change followed by `ngx_media_stream_touch()`. -/
def touched (f : Stream → Stream) (number : ℕ) (st : Stream) : Stream :=
  { f st with revision := revisionNext number st.revision }

def changeStream (application name : Str) (f : Stream → Stream) (reg : Registry) : Registry :=
  match registryStream reg application name with
  | none => reg
  | some e => update reg e.handle f

def drawnAfter (application name : Str) (env : Env) (w : World) : ℕ :=
  match registryStream w.registry application name with
  | none => w.drawn
  | some e => if e.stream.destinations = 0 then w.drawn else env.shared (e.stream.destinations - 1)

def step (application name : Str) (w : World) : Event → World
  | .deliver op env => ⟨(MediaGraph.apply env w.registry op).1, drawnAfter application name env w⟩
  | .change f number => ⟨changeStream application name (touched f number) w.registry, number⟩
  | .elsewhere number => ⟨w.registry, max w.drawn number⟩

def Allowed (application name : Str) (w : World) : Event → Prop
  | .deliver op env =>
    op.application = application ∧ op.name = name ∧ op.Decoded ∧ op.revision ≤ w.drawn ∧
      (∀ k, w.drawn < env.shared k) ∧ StrictMono env.shared
  | .change _ number => w.drawn < number
  | .elsewhere _ => True

structure Sequenced (application name : Str) (w : World) : Prop where
  held : Held w.registry
  behind : ∀ e, registryStream w.registry application name = some e →
    e.stream.revision ≤ w.drawn

theorem le_drawnAfter {w : World} (hahead : ∀ k, w.drawn < env.shared k) :
    w.drawn ≤ drawnAfter application name env w := by
  unfold drawnAfter
  split
  · exact Nat.le_refl _
  · split_ifs
    · exact Nat.le_refl _
    · exact Nat.le_of_lt (hahead _)

theorem Holds.revision {st : Stream} (h : Holds op st) : st.revision = op.revision := by
  unfold Holds at h
  cases hk : op.kind with
  | streamSet =>
    rw [hk] at h
    exact (congrArg Stream.revision h).symm
  | streamDelete =>
    rw [hk] at h
    exact h.elim
  | sourceSet =>
    rw [hk] at h
    exact (congrArg Stream.revision h.2.2.1).symm
  | sourceDelete =>
    rw [hk] at h
    exact (congrArg Stream.revision h).symm

theorem apply_revision (env : Env) (h : Inv reg) (hd : op.Decoded) {e' : Entry}
    (he : registryStream (MediaGraph.apply env reg op).1 op.application op.name = some e') :
    registryStream reg op.application op.name = some e' ∨ e'.stream.revision = op.revision := by
  have ho := GraphApply.apply_outcome env h hd
  generalize (MediaGraph.apply env reg op).1 = reg' at he ho
  generalize (MediaGraph.apply env reg op).2 = rc at ho
  cases ho with
  | failed n hn => exact Or.inl he
  | dropped => exact Or.inl he
  | wrote x f hl _ hh =>
    rw [lookup_update, hl, Option.map_some, if_pos rfl] at he
    rw [← Option.some.inj he]
    exact Or.inr (Holds.revision hh)
  | created st hl hh =>
    rw [lookup_withNew, hl, if_pos ⟨rfl, rfl⟩] at he
    rw [← Option.some.inj he]
    exact Or.inr (Holds.revision hh)
  | buried => exact Or.inl he
  | removed x v hl =>
    have hnone : registryStream (without reg x.handle) op.application op.name = some e' := he
    rw [lookup_after_without h hl] at hnone
    cases hnone
  | replaced x st v hl _ hh =>
    have hnew : registryStream (withNew (without reg x.handle) op.application op.name st)
        op.application op.name = some e' := he
    rw [lookup_withNew, lookup_after_without h hl, if_pos ⟨rfl, rfl⟩] at hnew
    rw [← Option.some.inj hnew]
    exact Or.inr (Holds.revision hh)

theorem Sequenced.step {w : World} (h : Sequenced application name w) (event : Event)
    (ha : Allowed application name w event) :
    Sequenced application name (step application name w event) := by
  cases event with
  | deliver op env =>
    obtain ⟨happ, hname, hd, hrev, hahead, -⟩ := ha
    refine ⟨h.held.apply env hd, fun e he => ?_⟩
    have hle := @le_drawnAfter env application name w hahead
    rw [← happ, ← hname] at he
    rcases apply_revision env h.held.wellFormed.toInv hd he with hold | hop
    · rw [happ, hname] at hold
      exact Nat.le_trans (h.behind e hold) hle
    · rw [hop]
      exact Nat.le_trans hrev hle
  | change f number =>
    have hlt : w.drawn < number := ha
    unfold GraphBurial.step changeStream
    dsimp only
    cases hl : registryStream w.registry application name with
    | none =>
      refine ⟨h.held, fun e he => ?_⟩
      rw [hl] at he
      cases he
    | some x =>
      refine ⟨h.held.write x.handle _, fun e he => ?_⟩
      have hx := h.behind x hl
      dsimp only at he
      rw [lookup_update, hl, Option.map_some, if_pos rfl] at he
      rw [← Option.some.inj he]
      simp only [touched, revisionNext]
      split_ifs
      · exact Nat.le_refl _
      · omega
  | elsewhere number =>
    exact ⟨h.held, fun e he => Nat.le_trans (h.behind e he) (Nat.le_max_left _ _)⟩

variable {w : World} {events : List Event}

def run (application name : Str) (w : World) (events : List Event) : World :=
  events.foldl (step application name) w

def Newer (reg : Registry) (op op' : Op) : Prop :=
  op.revision < op'.revision ∧
    ∀ e, registryStream reg op.application op.name = some e → e.stream.revision < op'.revision

def Splits (events first : List Event) (op : Op) (env : Env) (later : List Event) (op' : Op) :
    Prop :=
  ∃ env' rest, events = first ++ .deliver op env :: (later ++ .deliver op' env' :: rest)

/-- Whatever tombstone a call writes, no newer operation is dropped for it later. -/
def BuriesNothingNewer (application name : Str) (w : World) (events : List Event) : Prop :=
  ∀ first op env later op', Splits events first op env later op' →
    ∀ t, Leaves (run application name w first).registry
        (MediaGraph.apply env (run application name w first).registry op).1 t →
      Newer (run application name w first).registry op op' →
      ¬Buried (run application name w (first ++ .deliver op env :: later)).registry t op'

def Spared (application name : Str) (w : World) (events : List Event) : Prop :=
  ∀ first op env later op', Splits events first op env later op' →
    ∀ e, TearsDown env (run application name w first).registry op e →
      Newer (run application name w first).registry op op' →
      e.stream.destinations = 0 ∨ env.shared (e.stream.destinations - 1) < op'.revision ∨
        ¬Recalls (run application name w (first ++ .deliver op env :: later)).registry.tombs
          ⟨ownerHash application name, env.shared (e.stream.destinations - 1)⟩

theorem torn_revision {e : Entry}
    (ha : Allowed application name w (.deliver op env))
    (ht : TearsDown env w.registry op e) :
    retiredRevision env (carried op e) =
      if e.stream.destinations = 0 then (carried op e).revision
      else env.shared (e.stream.destinations - 1) := by
  obtain ⟨-, -, -, hrev, hahead, hgrows⟩ := ha
  rw [← carried_destinations op e]
  apply retiredRevision_drawn
  · intro k
    exact Nat.lt_of_le_of_lt (Nat.le_trans ht.carried_le hrev) (hahead k)
  · exact hgrows

theorem torn_leaves {e : Entry} (hs : Sequenced application name w)
    (ha : Allowed application name w (.deliver op env))
    (ht : TearsDown env w.registry op e) (hdest : e.stream.destinations ≠ 0) :
    Leaves w.registry (MediaGraph.apply env w.registry op).1
      ⟨ownerHash application name, env.shared (e.stream.destinations - 1)⟩ := by
  have hrevision := torn_revision ha ht
  obtain ⟨happ, hname, hd, -⟩ := ha
  have hring := apply_tombs env hs.held.wellFormed.toInv hd
  rw [if_neg hdest] at hrevision
  unfold Leaves
  generalize (MediaGraph.apply env w.registry op).1.tombs = ring at hring
  cases hring with
  | nothing hnot => exact absurd ht (hnot e)
  | absent hnone =>
    rw [ht.2.1] at hnone
    cases hnone
  | torn x hx =>
    rw [← Option.some.inj (ht.2.1.symm.trans hx.2.1), hrevision, happ, hname]

theorem buried_torn {t : Tombstone} {reg' : Registry} (hs : Sequenced application name w)
    (ha : Allowed application name w (.deliver op env))
    (hl : Leaves w.registry (MediaGraph.apply env w.registry op).1 t)
    (hn : Newer w.registry op op') (hb : Buried reg' t op') :
    ∃ e, TearsDown env w.registry op e ∧ e.stream.destinations ≠ 0 ∧
      t = ⟨ownerHash application name, env.shared (e.stream.destinations - 1)⟩ := by
  have hrevision := fun e => @torn_revision env op application name w e ha
  obtain ⟨happ, hname, hd, -⟩ := ha
  have hring := apply_tombs env hs.held.wellFormed.toInv hd
  have hle := hb.2.2
  rw [hl] at hring
  generalize hadd : tombstoneAdd w.registry.tombs t.hash t.revision = ring at hring
  cases hring with
  | nothing => exact absurd hadd (tombstoneAdd_ne hs.held.wellFormed.ring _ _)
  | absent =>
    obtain ⟨-, hv⟩ := tombstoneAdd_inj hadd
    have := hn.1
    omega
  | torn e he =>
    obtain ⟨hhash, hv⟩ := tombstoneAdd_inj hadd
    rw [hrevision e he] at hv
    refine ⟨e, he, ?_, ?_⟩
    · intro hdest
      rw [if_pos hdest] at hv
      have hcarried := he.carried_le
      have := hn.1
      omega
    · by_cases hdest : e.stream.destinations = 0
      · rw [if_pos hdest] at hv
        have hcarried := he.carried_le
        have := hn.1
        omega
      · rw [if_neg hdest] at hv
        rw [← hv, ← happ, ← hname, ← hhash]

theorem run_sequenced (h : Sequenced application name w)
    (hm : StepRun.Meets (step application name) (Allowed application name) w events) :
    Sequenced application name (run application name w events) :=
  StepRun.invariant_of_meets (fun _ event hs ha => hs.step event ha) h hm

/-- In a run over one identity, nothing newer than a deletion is dropped as older than it
exactly when no newer operation meets the tombstone of a stream whose destinations drew past
that operation. -/
theorem buries_nothing_newer_iff (hs : Sequenced application name w)
    (hm : StepRun.Meets (step application name) (Allowed application name) w events) :
    BuriesNothingNewer application name w events ↔ Spared application name w events := by
  have hat : ∀ first op env later op', Splits events first op env later op' →
      Sequenced application name (run application name w first) ∧
        Allowed application name (run application name w first) (.deliver op env) ∧
        op'.application = application ∧ op'.name = name := by
    rintro first op env later op' ⟨env', rest, rfl⟩
    obtain ⟨hfirst, hop, hrest⟩ := StepRun.meets_append.mp hm
    obtain ⟨-, hlater, -⟩ := StepRun.meets_append.mp hrest
    exact ⟨run_sequenced hs hfirst, hop, hlater.1, hlater.2.1⟩
  constructor
  · intro hnothing first op env later op' hsplit e ht hn
    obtain ⟨hseq, hop, happ, hname⟩ := hat first op env later op' hsplit
    by_cases hdest : e.stream.destinations = 0
    · exact Or.inl hdest
    · refine Or.inr (or_iff_not_imp_left.mpr fun hnotlt hrecalls => ?_)
      apply hnothing first op env later op' hsplit _ (torn_leaves hseq hop ht hdest) hn
      exact ⟨hrecalls, by rw [happ, hname], Nat.le_of_not_lt hnotlt⟩
  · intro hspared first op env later op' hsplit t hl hn hb
    obtain ⟨hseq, hop, -⟩ := hat first op env later op' hsplit
    obtain ⟨e, ht, hdest, rfl⟩ := buried_torn hseq hop hl hn hb
    rcases hspared first op env later op' hsplit e ht hn with hnone | hlt | hlost
    · exact hdest hnone
    · exact Nat.not_lt.mpr hb.2.2 hlt
    · exact hlost hb.1

def attach (st : Stream) : Stream := { st with destinations := st.destinations + 1 }

def drawing (number : ℕ) : Env := { replica with shared := fun k => number + k }

/-- `live/cam` with one destination, and a sequence that has come to 8. -/
def attached : List Event :=
  [.elsewhere 1, .deliver (onCam .streamSet 1 1 []) (drawing 2), .change attach 2, .elsewhere 8]

def live : Str := [108, 105, 118, 101]
def cam : Str := [99, 97, 109]

theorem drawing_allowed {number : ℕ} (hlt : w.drawn < number) {kind : Kind} {revision : ℕ}
    (hrev : revision ≤ w.drawn) :
    Allowed live cam w (.deliver (onCam kind revision 1 []) (drawing number)) := by
  refine ⟨rfl, rfl, onCam_decoded _ _ (by decide) (by decide), hrev, fun k => ?_, ?_⟩
  · exact Nat.lt_of_lt_of_le hlt (Nat.le_add_right number k)
  · exact fun j k hjk => Nat.add_lt_add_left hjk number

theorem attached_meets :
    StepRun.Meets (step live cam) (Allowed live cam) ⟨Registry.empty, 0⟩ attached :=
  ⟨trivial, drawing_allowed (by decide +kernel) (by decide +kernel),
    show (1 : ℕ) < 2 by decide, trivial, trivial⟩

theorem empty_sequenced : Sequenced application name ⟨Registry.empty, 0⟩ :=
  ⟨Held.empty, fun _ he => by cases he⟩

def attachedEntry : Entry :=
  ⟨0, live, cam, touched attach 2 (setFields (onCam .streamSet 1 1 []) (Stream.new 1))⟩

theorem attached_entry :
    registryStream (run live cam ⟨Registry.empty, 0⟩ attached).registry live cam =
      some attachedEntry := by
  decide +kernel

theorem attached_tearsDown (number : ℕ) :
    TearsDown (drawing number) (run live cam ⟨Registry.empty, 0⟩ attached).registry
      (onCam .streamDelete 5 1 []) attachedEntry := by
  refine ⟨⟨by decide +kernel, fun e he => ?_⟩, attached_entry, Or.inl ⟨rfl, by decide⟩⟩
  rw [← Option.some.inj (attached_entry.symm.trans he)]
  decide

/-- A deletion, and a stream set again by an operation that was issued after it but before the
destination was removed here. -/
theorem newer_operation_buried :
    let events := attached ++ [.deliver (onCam .streamDelete 5 1 []) (drawing 9),
      .deliver (onCam .streamSet 7 1 []) (drawing 20)]
    StepRun.Meets (step live cam) (Allowed live cam) ⟨Registry.empty, 0⟩ events ∧
      registryStream (run live cam ⟨Registry.empty, 0⟩ events).registry live cam = none ∧
      ¬BuriesNothingNewer live cam ⟨Registry.empty, 0⟩ events := by
  have hw := run_sequenced empty_sequenced attached_meets
  have hdelete : Allowed live cam (run live cam ⟨Registry.empty, 0⟩ attached)
      (.deliver (onCam .streamDelete 5 1 []) (drawing 9)) :=
    drawing_allowed (by decide +kernel) (by decide +kernel)
  refine ⟨?_, by decide +kernel, fun hnothing => ?_⟩
  · refine StepRun.meets_append.mpr ⟨attached_meets, hdelete, ?_, trivial⟩
    exact drawing_allowed (by decide +kernel) (by decide +kernel)
  · refine hnothing attached _ _ [] _ ⟨_, [], rfl⟩ ⟨ownerHash live cam, 9⟩ ?_ ?_ ?_
    · exact torn_leaves hw hdelete (attached_tearsDown 9) (by decide)
    · refine ⟨by decide, fun e he => ?_⟩
      rw [← Option.some.inj (attached_entry.symm.trans he)]
      decide
    · exact ⟨⟨0, by decide +kernel, by decide +kernel⟩, rfl, by decide⟩

/-- The same deletion spares an operation that was issued once the destination was gone. -/
theorem buries_nothing_newer_iff_later :
    BuriesNothingNewer live cam (run live cam ⟨Registry.empty, 0⟩ attached)
      [.deliver (onCam .streamDelete 5 1 []) (drawing 9), .elsewhere 12,
        .deliver (onCam .streamSet 12 1 []) (drawing 20)] := by
  have hw := run_sequenced empty_sequenced attached_meets
  refine (buries_nothing_newer_iff hw ?_).mpr ?_
  · exact ⟨drawing_allowed (by decide +kernel) (by decide +kernel), trivial,
      drawing_allowed (by decide +kernel) (by decide +kernel), trivial⟩
  · rintro first op env later op' ⟨env', rest, hsplit⟩ e ht hn
    obtain _ | ⟨a, _ | ⟨b, _ | ⟨c, first⟩⟩⟩ := first <;> simp at hsplit
    obtain ⟨⟨rfl, rfl⟩, hsplit⟩ := hsplit
    obtain _ | ⟨b, _ | ⟨c, later⟩⟩ := later <;> simp at hsplit
    obtain ⟨rfl, ⟨rfl, rfl⟩, rfl⟩ := hsplit
    rw [← Option.some.inj (attached_entry.symm.trans ht.2.1)]
    exact Or.inr (Or.inl (by decide))

end GraphBurial
