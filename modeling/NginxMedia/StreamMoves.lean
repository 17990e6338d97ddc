import NginxMedia.MediaStream

/-! What an operation on a stream can do to it, in elementary moves, and the invariant the
moves keep. Every operation of `MediaStream` is a chain of moves; the invariant is proved
once for each move. A chain carries a condition on the sources it activates. -/
namespace StreamMoves

open MediaTypes MediaStream MediaPreroll

structure Kept (a b : Source) : Prop where
  state : b.state = a.state
  active : b.active = a.active
  pendingRemove : b.pendingRemove = a.pendingRemove
  preroll : b.preroll = a.preroll

theorem Kept.refl (a : Source) : Kept a a := ⟨rfl, rfl, rfl, rfl⟩

/-- Nothing that the gate or the program depends on differs. -/
structure Same (s t : Stream) : Prop where
  sources : t.sources = s.sources
  fresh : t.fresh = s.fresh
  active : t.active = s.active
  writes : t.writes = s.writes
  published : t.published = s.published
  activations : t.activations = s.activations
  generation : t.feed.generation = s.feed.generation
  ring : ∀ units, MediaFeed.Inv s.feed units → MediaFeed.Inv t.feed units
  cell : ∀ r, Kept (s.source r) (t.source r)

def vacate (s : Stream) (a : ℕ) : Stream :=
  splice { alter s a Source.demoted with active := none }

inductive Move (P : Stream → ℕ → Prop) : Stream → Stream → Prop where
  | quiet {s t : Stream} : Same s t → Move P s t
  | add {s : Stream} (src : Source) : src.state = .standby → src.active = false →
      src.pendingRemove = false → MediaPreroll.Inv src.preroll → src.preroll.frames = [] →
      Move P s { s with
        source := Function.update s.source s.fresh src
        sources := s.sources ++ [s.fresh]
        fresh := s.fresh + 1 }
  | note {s : Stream} (r : ℕ) (frame : Frame) :
      Move P s { s with published := s.published ++ [(r, frame)] }
  | cache {s : Stream} (r : ℕ) (frame : Frame) : (r, frame) ∈ s.published →
      Move P s (alter s r fun src =>
        { src with preroll := (MediaPreroll.push src.preroll src.hasVideo frame).1 })
  | await {s : Stream} (r : ℕ) : s.active ≠ some r →
      Move P s (alter s r Source.awaiting)
  | vacate {s : Stream} (a : ℕ) : s.active = some a → Move P s (vacate s a)
  | unlist {s : Stream} (r : ℕ) : s.active ≠ some r →
      Move P s { alter s r Source.removed with sources := s.sources.filter (· ≠ r) }
  | write {s : Stream} (r : ℕ) (frame : Frame) (now : ℕ) : s.active = some r →
      (r, frame) ∈ s.published → Move P s (writeProgram s r frame now).1
  | activate {s : Stream} (r now : ℕ) : s.active = none → r ∈ s.sources → P s r →
      Move P s (activate s r now)

abbrev Moves (P : Stream → ℕ → Prop) : Stream → Stream → Prop := Relation.ReflTransGen (Move P)

structure Inv (s : Stream) : Prop where
  listed : ∀ r, r ∈ s.sources ↔ r < s.fresh ∧ (s.source r).pendingRemove = false
  active_listed : ∀ a, s.active = some a → a ∈ s.sources
  state_iff : ∀ r, (s.source r).state = .active ↔ s.active = some r
  flag_iff : ∀ r, (s.source r).active = true ↔ s.active = some r
  prerolls : ∀ r, MediaPreroll.Inv (s.source r).preroll
  cached : ∀ r, ∀ f ∈ (s.source r).preroll.frames, (r, f) ∈ s.published
  feed : MediaFeed.Inv s.feed (s.writes.map Write.slot)
  wrote : ∀ w ∈ s.writes, w.active = some w.source ∧ (w.source, w.frame) ∈ s.published ∧
    w.slot.frame = { w.frame with pts := w.slot.frame.pts, dts := w.slot.frame.dts }
  bounded : ∀ w ∈ s.writes, w.generation ≤ s.feed.generation ∧ w.activation ≤ s.activations
  current : ∀ w ∈ s.writes, w.generation = s.feed.generation → s.active = some w.source
  sorted : s.writes.Pairwise fun a b => a.generation ≤ b.generation
  uniform : ∀ w ∈ s.writes, ∀ u ∈ s.writes, w.generation = u.generation → w.source = u.source

structure Later (s t : Stream) : Prop where
  generation_le : s.feed.generation ≤ t.feed.generation
  active_eq : t.feed.generation = s.feed.generation → ∀ a, s.active = some a → t.active = some a
  grown : ∃ ws, t.writes = s.writes ++ ws ∧ ∀ w ∈ ws, s.feed.generation ≤ w.generation

theorem Later.of_eq {s t : Stream} (hg : t.feed.generation = s.feed.generation)
    (ha : t.active = s.active) (hw : t.writes = s.writes) : Later s t := by
  refine ⟨hg.ge, fun _ a hsome => ?_, [], ?_, by simp⟩
  · rw [ha]
    exact hsome
  · rw [hw, List.append_nil]

theorem Later.refl (s : Stream) : Later s s := Later.of_eq rfl rfl rfl

theorem Later.trans {s t u : Stream} (h : Later s t) (k : Later t u) : Later s u := by
  have hg := h.generation_le
  have kg := k.generation_le
  refine ⟨by omega, fun he a ha => ?_, ?_⟩
  · exact k.active_eq (by omega) a (h.active_eq (by omega) a ha)
  · obtain ⟨ws, hws, hall⟩ := h.grown
    obtain ⟨vs, hvs, kall⟩ := k.grown
    refine ⟨ws ++ vs, by rw [hvs, hws, List.append_assoc], fun w hw => ?_⟩
    rcases List.mem_append.mp hw with hw | hw
    · exact hall w hw
    · exact hg.trans (kall w hw)

@[simp] theorem alter_source_self (s : Stream) (r : ℕ) (f : Source → Source) :
    (alter s r f).source r = f (s.source r) := by
  simp [alter]

theorem alter_source_ne (s : Stream) {r q : ℕ} (h : q ≠ r) (f : Source → Source) :
    (alter s r f).source q = s.source q := by
  simp [alter, Function.update_of_ne h]

theorem alter_cell (s : Stream) (r : ℕ) (f : Source → Source) (Q : ℕ → Source → Prop)
    (hr : Q r (f (s.source r))) (hne : ∀ q, q ≠ r → Q q (s.source q)) (q : ℕ) :
    Q q ((alter s r f).source q) := by
  by_cases hq : q = r
  · subst q
    rwa [alter_source_self]
  · rw [alter_source_ne s hq]
    exact hne q hq

theorem same_alter (s : Stream) (r : ℕ) {f : Source → Source}
    (hf : Kept (s.source r) (f (s.source r))) : Same s (alter s r f) :=
  ⟨rfl, rfl, rfl, rfl, rfl, rfl, rfl, fun _ h => h,
    alter_cell s r f (fun q src => Kept (s.source q) src) hf fun _ _ => Kept.refl _⟩

theorem Same.refl (s : Stream) : Same s s :=
  ⟨rfl, rfl, rfl, rfl, rfl, rfl, rfl, fun _ h => h, fun _ => Kept.refl _⟩

theorem Same.trans {s t u : Stream} (h : Same s t) (k : Same t u) : Same s u := by
  refine ⟨k.sources.trans h.sources, k.fresh.trans h.fresh, k.active.trans h.active,
    k.writes.trans h.writes, k.published.trans h.published, k.activations.trans h.activations,
    k.generation.trans h.generation, fun units hi => k.ring units (h.ring units hi), fun r => ?_⟩
  have hc := h.cell r
  have kc := k.cell r
  exact ⟨kc.state.trans hc.state, kc.active.trans hc.active,
    kc.pendingRemove.trans hc.pendingRemove, kc.preroll.trans hc.preroll⟩

theorem Same.inv {s t : Stream} (h : Same s t) (hi : Inv s) : Inv t := by
  obtain ⟨hs, hf, ha, hw, hp, hn, hg, hr, hc⟩ := h
  constructor
  · intro r
    rw [hs, hf, (hc r).pendingRemove]
    exact hi.listed r
  · rw [hs, ha]
    exact hi.active_listed
  · intro r
    rw [(hc r).state, ha]
    exact hi.state_iff r
  · intro r
    rw [(hc r).active, ha]
    exact hi.flag_iff r
  · intro r
    rw [(hc r).preroll]
    exact hi.prerolls r
  · intro r
    rw [(hc r).preroll, hp]
    exact hi.cached r
  · rw [hw]
    exact hr _ hi.feed
  · rw [hw, hp]
    exact hi.wrote
  · rw [hw, hg, hn]
    exact hi.bounded
  · rw [hw, hg, ha]
    exact hi.current
  · rw [hw]
    exact hi.sorted
  · rw [hw]
    exact hi.uniform

theorem Same.later {s t : Stream} (h : Same s t) : Later s t :=
  Later.of_eq h.generation h.active h.writes

theorem Inv.not_fresh_active {s : Stream} (h : Inv s) : s.active ≠ some s.fresh := by
  intro ha
  have := ((h.listed s.fresh).mp (h.active_listed _ ha)).1
  omega

theorem Inv.after_add {s : Stream} (h : Inv s) {src : Source} (hst : src.state = .standby)
    (hfl : src.active = false) (hrm : src.pendingRemove = false)
    (hp : MediaPreroll.Inv src.preroll) (hempty : src.preroll.frames = []) :
    Inv { s with
      source := Function.update s.source s.fresh src
      sources := s.sources ++ [s.fresh]
      fresh := s.fresh + 1 } := by
  have hna := h.not_fresh_active
  have hcell : ∀ r, r ≠ s.fresh → Function.update s.source s.fresh src r = s.source r :=
    fun r hr => Function.update_of_ne hr _ _
  refine ⟨fun r => ?_, fun a ha => ?_, fun r => ?_, fun r => ?_, fun r => ?_, fun r => ?_,
    h.feed, h.wrote, h.bounded, h.current, h.sorted, h.uniform⟩
  · have hl := h.listed r
    dsimp only
    by_cases hr : r = s.fresh
    · subst r
      simp [hrm]
    · rw [hcell r hr, List.mem_append, hl, List.mem_singleton]
      constructor
      · rintro (⟨hlt, hp⟩ | he)
        · exact ⟨by omega, hp⟩
        · exact absurd he hr
      · rintro ⟨hlt, hp⟩
        exact Or.inl ⟨by omega, hp⟩
  · exact List.mem_append_left _ (h.active_listed a ha)
  · dsimp only
    by_cases hr : r = s.fresh
    · subst r
      simp [hst, hna]
    · rw [hcell r hr]
      exact h.state_iff r
  · dsimp only
    by_cases hr : r = s.fresh
    · subst r
      simp [hfl, hna]
    · rw [hcell r hr]
      exact h.flag_iff r
  · dsimp only
    by_cases hr : r = s.fresh
    · subst r
      simpa using hp
    · rw [hcell r hr]
      exact h.prerolls r
  · dsimp only
    by_cases hr : r = s.fresh
    · subst r
      simp [hempty]
    · rw [hcell r hr]
      exact h.cached r

theorem Inv.after_note {s : Stream} (h : Inv s) (r : ℕ) (frame : Frame) :
    Inv { s with published := s.published ++ [(r, frame)] } := by
  refine ⟨h.listed, h.active_listed, h.state_iff, h.flag_iff, h.prerolls, fun q f hf => ?_,
    h.feed, fun w hw => ?_, h.bounded, h.current, h.sorted, h.uniform⟩
  · exact List.mem_append_left _ (h.cached q f hf)
  · obtain ⟨ha, hp, hm⟩ := h.wrote w hw
    exact ⟨ha, List.mem_append_left _ hp, hm⟩

theorem Inv.after_alter {s : Stream} (h : Inv s) (r : ℕ) {f : Source → Source}
    (hrm : (f (s.source r)).pendingRemove = (s.source r).pendingRemove)
    (hst : (f (s.source r)).state = .active ↔ s.active = some r)
    (hfl : (f (s.source r)).active = true ↔ s.active = some r)
    (hp : MediaPreroll.Inv (f (s.source r)).preroll)
    (hc : ∀ g ∈ (f (s.source r)).preroll.frames, (r, g) ∈ s.published) :
    Inv (alter s r f) := by
  refine ⟨?_, h.active_listed, ?_, ?_, ?_, ?_, h.feed, h.wrote, h.bounded, h.current, h.sorted,
    h.uniform⟩
  · refine alter_cell s r f
      (fun q src => q ∈ s.sources ↔ q < s.fresh ∧ src.pendingRemove = false) ?_
      fun q _ => h.listed q
    rw [hrm]
    exact h.listed r
  · exact alter_cell s r f (fun q src => src.state = .active ↔ s.active = some q) hst
      fun q _ => h.state_iff q
  · exact alter_cell s r f (fun q src => src.active = true ↔ s.active = some q) hfl
      fun q _ => h.flag_iff q
  · exact alter_cell s r f (fun _ src => MediaPreroll.Inv src.preroll) hp
      fun q _ => h.prerolls q
  · exact alter_cell s r f (fun q src => ∀ g ∈ src.preroll.frames, (q, g) ∈ s.published) hc
      fun q _ => h.cached q

theorem Inv.after_cache {s : Stream} (h : Inv s) (r : ℕ) (frame : Frame)
    (hn : (r, frame) ∈ s.published) :
    Inv (alter s r fun src =>
      { src with preroll := (MediaPreroll.push src.preroll src.hasVideo frame).1 }) := by
  refine h.after_alter r rfl (h.state_iff r) (h.flag_iff r)
    ((h.prerolls r).push_spec _ frame).1 fun g hg => ?_
  rcases (h.prerolls r).push_mem _ frame hg with hg | rfl
  · exact h.cached r g hg
  · exact hn

theorem Inv.after_await {s : Stream} (h : Inv s) {r : ℕ} (ha : s.active ≠ some r) :
    Inv (alter s r Source.awaiting) := by
  refine h.after_alter r rfl ?_ (h.flag_iff r) (h.prerolls r) (h.cached r)
  simp [Source.awaiting, ha]

theorem Inv.after_uncache {s : Stream} (h : Inv s) (r : ℕ) :
    Inv (alter s r fun src => { src with preroll := MediaPreroll.reset src.preroll }) := by
  refine h.after_alter r rfl (h.state_iff r) (h.flag_iff r) (h.prerolls r).after_reset ?_
  intro g hg
  rw [reset_frames] at hg
  simp at hg

theorem Inv.after_vacate {s : Stream} (h : Inv s) {a : ℕ} (ha : s.active = some a) :
    Inv (vacate s a) := by
  have hother : ∀ q, q ≠ a → s.active ≠ some q := by
    intro q hq he
    exact hq (Option.some.inj (he.symm.trans ha))
  refine ⟨?_, fun b hb => by simp [vacate, splice] at hb, ?_, ?_, ?_, ?_,
    h.feed.of_same_ring rfl rfl rfl rfl rfl rfl rfl, h.wrote, fun w hw => ?_, fun w hw hg => ?_,
    h.sorted, h.uniform⟩
  · exact alter_cell s a Source.demoted (fun q src => q ∈ s.sources ↔ q < s.fresh ∧ src.pendingRemove = false)
      (h.listed a) fun q _ => h.listed q
  · refine alter_cell s a Source.demoted (fun q src => src.state = .active ↔ none = some q)
      (by simp [Source.demoted]) ?_
    intro q hq
    rw [h.state_iff q]
    simp [hother q hq]
  · refine alter_cell s a Source.demoted (fun q src => src.active = true ↔ none = some q)
      (by simp [Source.demoted]) ?_
    intro q hq
    rw [h.flag_iff q]
    simp [hother q hq]
  · exact alter_cell s a Source.demoted (fun _ src => MediaPreroll.Inv src.preroll) (h.prerolls a)
      fun q _ => h.prerolls q
  · exact alter_cell s a Source.demoted (fun q src => ∀ g ∈ src.preroll.frames, (q, g) ∈ s.published)
      (h.cached a) fun q _ => h.cached q
  · obtain ⟨hg, hn⟩ := h.bounded w hw
    exact ⟨Nat.le_succ_of_le hg, hn⟩
  · -- no write carries the generation that has just begun
    have hle := (h.bounded w hw).1
    change w.generation = s.feed.generation + 1 at hg
    omega

theorem Inv.after_unlist {s : Stream} (h : Inv s) {r : ℕ} (ha : s.active ≠ some r) :
    Inv { alter s r Source.removed with sources := s.sources.filter (· ≠ r) } := by
  refine ⟨?_, fun b hb => ?_, ?_, ?_, ?_, ?_, h.feed, h.wrote, h.bounded, h.current, h.sorted,
    h.uniform⟩
  · refine alter_cell s r Source.removed
      (fun q src => q ∈ s.sources.filter (· ≠ r) ↔ q < s.fresh ∧ src.pendingRemove = false)
      (by simp [Source.removed]) ?_
    intro q hq
    rw [List.mem_filter, h.listed q]
    simp [hq]
  · refine List.mem_filter.mpr ⟨h.active_listed b hb, decide_eq_true ?_⟩
    rintro rfl
    exact ha hb
  · exact alter_cell s r Source.removed (fun q src => src.state = .active ↔ s.active = some q)
      (h.state_iff r) fun q _ => h.state_iff q
  · exact alter_cell s r Source.removed (fun q src => src.active = true ↔ s.active = some q)
      (h.flag_iff r) fun q _ => h.flag_iff q
  · exact alter_cell s r Source.removed (fun _ src => MediaPreroll.Inv src.preroll) (h.prerolls r)
      fun q _ => h.prerolls q
  · exact alter_cell s r Source.removed (fun q src => ∀ g ∈ src.preroll.frames, (q, g) ∈ s.published)
      (h.cached r) fun q _ => h.cached q

def written (s : Stream) (r : ℕ) (frame : Frame) (now : ℕ) : Write :=
  { source := r
    frame := frame
    slot := ⟨{ frame with
      pts := (MediaTimeline.map s.timeline frame.pts frame.dts).2.1
      dts := (MediaTimeline.map s.timeline frame.pts frame.dts).2.2 }, now⟩
    active := s.active
    generation := s.feed.generation
    activation := s.activations }

theorem pruneLoop_generation (now incoming n : ℕ) (feed : MediaFeed.Feed) :
    (MediaFeed.pruneLoop now incoming n feed).generation = feed.generation := by
  induction n generalizing feed with
  | zero => rfl
  | succ n ih =>
    rw [MediaFeed.pruneLoop]
    split_ifs
    · exact ih _
    · rfl

theorem publish_generation (feed : MediaFeed.Feed) (frame : Frame) (now : ℕ) :
    (MediaFeed.publish feed frame now).1.generation = feed.generation := by
  refine Eq.trans ?_ (pruneLoop_generation now frame.size (feed.head - feed.tail) feed)
  unfold MediaFeed.publish
  dsimp only
  split_ifs <;> rfl

structure Wrote (s t : Stream) (r : ℕ) (frame : Frame) (now : ℕ) : Prop where
  sources : t.sources = s.sources
  fresh : t.fresh = s.fresh
  active : t.active = s.active
  writes : t.writes = s.writes ++ [written s r frame now]
  published : t.published = s.published
  activations : t.activations = s.activations
  generation : t.feed.generation = s.feed.generation
  ring : MediaFeed.Inv t.feed (t.writes.map Write.slot)
  cell : ∀ q, Kept (s.source q) (t.source q)

theorem Inv.writeProgram_wrote {s : Stream} (h : Inv s) (r : ℕ) (frame : Frame) (now : ℕ) :
    Wrote s (writeProgram s r frame now).1 r frame now ∧
      (writeProgram s r frame now).2 = .ok := by
  have hgen := publish_generation s.feed (written s r frame now).slot.frame now
  obtain ⟨hring, hok⟩ := h.feed.after_publish (written s r frame now).slot.frame now
  rcases hp : MediaFeed.publish s.feed (written s r frame now).slot.frame now with ⟨feed, rc⟩
  rw [hp] at hgen hring hok
  dsimp only at hok hgen hring
  subst rc
  simp only [written] at hp
  simp only [writeProgram, hp]
  refine ⟨⟨rfl, rfl, rfl, rfl, rfl, rfl, hgen, ?_, ?_⟩, trivial⟩
  · rw [List.map_append]
    exact hring
  · exact alter_cell s r (fun src => { src with framesOut := src.framesOut + 1 })
      (fun q src => Kept (s.source q) src) ⟨rfl, rfl, rfl, rfl⟩ fun _ _ => Kept.refl _

theorem Inv.after_wrote {s t : Stream} (h : Inv s) {r : ℕ} {frame : Frame} {now : ℕ}
    (hw : Wrote s t r frame now) (ha : s.active = some r)
    (hn : (r, frame) ∈ s.published) : Inv t := by
  obtain ⟨hs, hf, hact, hwr, hp, hac, hg, hring, hc⟩ := hw
  have hnew : ∀ w, w ∈ s.writes ++ [written s r frame now] →
      w ∈ s.writes ∨ w = written s r frame now := by
    intro w hw
    rcases List.mem_append.mp hw with hw | hw
    · exact Or.inl hw
    · exact Or.inr (List.mem_singleton.mp hw)
  have hsame : ∀ w ∈ s.writes, w.generation = s.feed.generation → w.source = r := by
    intro w hw hgen
    exact Option.some.inj ((h.current w hw hgen).symm.trans ha)
  constructor
  · intro q
    rw [hs, hf, (hc q).pendingRemove]
    exact h.listed q
  · rw [hs, hact]
    exact h.active_listed
  · intro q
    rw [(hc q).state, hact]
    exact h.state_iff q
  · intro q
    rw [(hc q).active, hact]
    exact h.flag_iff q
  · intro q
    rw [(hc q).preroll]
    exact h.prerolls q
  · intro q
    rw [(hc q).preroll, hp]
    exact h.cached q
  · exact hring
  · rw [hwr, hp]
    intro w hw
    rcases hnew w hw with hw | rfl
    · exact h.wrote w hw
    · exact ⟨ha, hn, rfl⟩
  · rw [hwr, hg, hac]
    intro w hw
    rcases hnew w hw with hw | rfl
    · exact h.bounded w hw
    · exact ⟨Nat.le_refl _, Nat.le_refl _⟩
  · rw [hwr, hg, hact]
    intro w hw hgen
    rcases hnew w hw with hw | rfl
    · exact h.current w hw hgen
    · exact ha
  · rw [hwr]
    refine List.pairwise_append.mpr ⟨h.sorted, List.pairwise_singleton _ _, ?_⟩
    intro w hw u hu
    rw [List.mem_singleton.mp hu]
    exact (h.bounded w hw).1
  · rw [hwr]
    intro w hw u hu hgen
    rcases hnew w hw with hw | rfl <;> rcases hnew u hu with hu | rfl
    · exact h.uniform w hw u hu hgen
    · exact hsame w hw hgen
    · exact (hsame u hu hgen.symm).symm
    · rfl

structure Replayed (s t : Stream) (r : ℕ) (frames : List Frame) : Prop where
  inv : Inv t
  active : t.active = s.active
  activations : t.activations = s.activations
  generation : t.feed.generation = s.feed.generation
  cell : ∀ q, Kept (s.source q) (t.source q)
  writes : ∃ ws, t.writes = s.writes ++ ws ∧ ws.map Write.frame = frames ∧
    ∀ w ∈ ws, w.source = r ∧ w.activation = s.activations ∧ w.generation = s.feed.generation

theorem Inv.replayed {s : Stream} (h : Inv s) {r : ℕ} (ha : s.active = some r) (now : ℕ)
    (frames : List Frame) (hn : ∀ f ∈ frames, (r, f) ∈ s.published) :
    Replayed s (replay s r now frames) r frames := by
  induction frames generalizing s with
  | nil =>
    exact ⟨h, rfl, rfl, rfl, fun _ => Kept.refl _, [], by simp [replay], rfl, by simp⟩
  | cons f rest ih =>
    have hw := (h.writeProgram_wrote r f now).1
    have hinv := h.after_wrote hw ha (hn f (List.mem_cons_self))
    obtain ⟨hi, hact, hac, hg, hc, ws, hws, hfr, hall⟩ := ih hinv (hw.active.trans ha)
      (fun g hg => by rw [hw.published]; exact hn g (List.mem_cons_of_mem _ hg))
    refine ⟨hi, hact.trans hw.active, hac.trans hw.activations, hg.trans hw.generation, ?_,
      written s r f now :: ws, ?_, ?_, ?_⟩
    · intro q
      have h1 := hw.cell q
      have h2 := hc q
      exact ⟨h2.state.trans h1.state, h2.active.trans h1.active,
        h2.pendingRemove.trans h1.pendingRemove, h2.preroll.trans h1.preroll⟩
    · change (replay (writeProgram s r f now).1 r now rest).writes = _
      rw [hws, hw.writes, List.append_assoc, List.singleton_append]
    · rw [List.map_cons, hfr]
      rfl
    · intro w hw'
      rcases List.mem_cons.mp hw' with rfl | hw'
      · exact ⟨rfl, rfl, rfl⟩
      · rw [← hw.activations, ← hw.generation]
        exact hall w hw'

def installed (s : Stream) (r : ℕ) : Stream :=
  { alter s r Source.promoted with active := some r, activations := s.activations + 1 }

theorem Inv.after_installed {s : Stream} (h : Inv s) (ha : s.active = none) {r : ℕ}
    (hr : r ∈ s.sources) : Inv (installed s r) := by
  have hidle : ∀ w ∈ s.writes, w.generation ≠ s.feed.generation := by
    intro w hw hg
    have := h.current w hw hg
    rw [ha] at this
    exact absurd this (by simp)
  refine ⟨?_, fun b hb => ?_, ?_, ?_, ?_, ?_, h.feed, h.wrote, fun w hw => ?_, fun w hw hg => ?_,
    h.sorted, h.uniform⟩
  · exact alter_cell s r Source.promoted
      (fun q src => q ∈ s.sources ↔ q < s.fresh ∧ src.pendingRemove = false) (h.listed r)
      fun q _ => h.listed q
  · obtain rfl : r = b := Option.some.inj hb
    exact hr
  · refine alter_cell s r Source.promoted (fun q src => src.state = .active ↔ some r = some q)
      (by simp [Source.promoted]) ?_
    intro q hq
    rw [h.state_iff q, ha]
    simp [Ne.symm hq]
  · refine alter_cell s r Source.promoted (fun q src => src.active = true ↔ some r = some q)
      (by simp [Source.promoted]) ?_
    intro q hq
    rw [h.flag_iff q, ha]
    simp [Ne.symm hq]
  · exact alter_cell s r Source.promoted (fun _ src => MediaPreroll.Inv src.preroll)
      (h.prerolls r) fun q _ => h.prerolls q
  · exact alter_cell s r Source.promoted
      (fun q src => ∀ g ∈ src.preroll.frames, (q, g) ∈ s.published) (h.cached r)
      fun q _ => h.cached q
  · obtain ⟨hg, hn⟩ := h.bounded w hw
    exact ⟨hg, Nat.le_succ_of_le hn⟩
  · exact absurd hg (hidle w hw)

structure Activated (s t : Stream) (r : ℕ) : Prop where
  inv : Inv t
  active : t.active = some r
  activations : t.activations = s.activations + 1
  generation : t.feed.generation = s.feed.generation
  state : (t.source r).state = .active
  other : ∀ q, q ≠ r → t.source q = s.source q
  writes : ∃ ws, t.writes = s.writes ++ ws ∧
    ws.map Write.frame = (s.source r).preroll.frames ∧
    ∀ w ∈ ws, w.source = r ∧ w.activation = s.activations + 1 ∧
      w.generation = s.feed.generation

theorem replay_source_ne (s : Stream) {r q : ℕ} (hq : q ≠ r) (now : ℕ) (frames : List Frame) :
    (replay s r now frames).source q = s.source q := by
  induction frames generalizing s with
  | nil => rfl
  | cons f rest ih =>
    refine (ih (writeProgram s r f now).1).trans ?_
    simp only [writeProgram]
    split
    · simp [alter, Function.update_of_ne hq]
    · rfl

theorem Inv.activated {s : Stream} (h : Inv s) (ha : s.active = none) {r : ℕ}
    (hr : r ∈ s.sources) (now : ℕ) : Activated s (activate s r now) r := by
  have hinst := h.after_installed ha hr
  have hcache : ((installed s r).source r).preroll = (s.source r).preroll := by
    simp [installed, alter, Source.promoted]
  obtain ⟨hi, hact, hac, hg, hc, ws, hws, hfr, hall⟩ := hinst.replayed rfl now
    ((installed s r).source r).preroll.frames (fun f hf => hinst.cached r f hf)
  have hdone := hi.after_uncache r
  refine ⟨hdone, hact, hac, hg, (hdone.state_iff r).mpr hact, fun q hq => ?_, ws, hws, ?_, hall⟩
  · unfold activate
    dsimp only
    rw [alter_source_ne _ hq, replay_source_ne _ hq]
    exact alter_source_ne s hq _
  · rw [hfr, hcache]

theorem Move.inv {P : Stream → ℕ → Prop} {s t : Stream} (m : Move P s t) (h : Inv s) :
    Inv t := by
  cases m with
  | quiet hs => exact hs.inv h
  | add src hst hfl hrm hp hempty => exact h.after_add hst hfl hrm hp hempty
  | note r frame => exact h.after_note r frame
  | cache r frame hn => exact h.after_cache r frame hn
  | await r ha => exact h.after_await ha
  | vacate a ha => exact h.after_vacate ha
  | unlist r ha => exact h.after_unlist ha
  | write r frame now ha hn => exact h.after_wrote (h.writeProgram_wrote r frame now).1 ha hn
  | activate r now ha hr _ => exact (h.activated ha hr now).inv

theorem Move.later {P : Stream → ℕ → Prop} {s t : Stream} (m : Move P s t) (h : Inv s) :
    Later s t := by
  cases m with
  | quiet hs => exact hs.later
  | add => exact Later.of_eq rfl rfl rfl
  | note => exact Later.of_eq rfl rfl rfl
  | cache => exact Later.of_eq rfl rfl rfl
  | await => exact Later.of_eq rfl rfl rfl
  | vacate a ha =>
    refine ⟨Nat.le_succ _, fun he => ?_, [], (List.append_nil _).symm, by simp⟩
    exact absurd he (Nat.succ_ne_self _)
  | unlist => exact Later.of_eq rfl rfl rfl
  | write r frame now ha hn =>
    have hw := (h.writeProgram_wrote r frame now).1
    refine ⟨hw.generation.ge, fun _ a hact => ?_, _, hw.writes, fun w hw' => ?_⟩
    · rw [hw.active]
      exact hact
    · rw [List.mem_singleton.mp hw']
      exact Nat.le_refl _
  | activate r now ha hr _ =>
    have hact := h.activated ha hr now
    obtain ⟨ws, hws, _, hall⟩ := hact.writes
    refine ⟨hact.generation.ge, fun _ a hsome => ?_, ws, hws, fun w hw => (hall w hw).2.2.ge⟩
    rw [ha] at hsome
    exact absurd hsome (by simp)

theorem Moves.inv {P : Stream → ℕ → Prop} {s t : Stream} (m : Moves P s t) (h : Inv s) :
    Inv t := by
  induction m with
  | refl => exact h
  | tail _ m ih => exact m.inv ih

theorem Moves.later {P : Stream → ℕ → Prop} {s t : Stream} (m : Moves P s t) (h : Inv s) :
    Later s t := by
  induction m with
  | refl => exact Later.refl s
  | tail hm m ih => exact ih.trans (m.later (Moves.inv hm h))

section Operations

variable {P : Stream → ℕ → Prop} {s : Stream}

theorem Inv.usable_listed (h : Inv s) {r : ℕ} (hu : usable s r = true) : r ∈ s.sources := by
  simp only [usable, Bool.and_eq_true, decide_eq_true_eq, Bool.not_eq_true'] at hu
  exact (h.listed r).mpr ⟨hu.1.1, hu.2⟩

theorem moves_same {t : Stream} (hs : Same s t) : Moves P s t :=
  Relation.ReflTransGen.single (Move.quiet hs)

theorem sourceAdd_moves (id : List UInt8) (type priority : ℕ)
    (admitted allocated : Bool) :
    Moves P s (sourceAdd s id type priority admitted allocated).1 := by
  unfold sourceAdd
  split_ifs
  · exact Relation.ReflTransGen.refl
  · exact Relation.ReflTransGen.refl
  · exact Relation.ReflTransGen.refl
  · split
    · exact Relation.ReflTransGen.refl
    · next preroll hp =>
      refine Relation.ReflTransGen.single (Move.add _ rfl rfl rfl (MediaPreroll.init_inv hp) ?_)
      have hempty := (MediaPreroll.init_inv hp).frames_nil_iff
      unfold MediaPreroll.init at hp
      split_ifs at hp
      obtain rfl := Option.some.inj hp
      exact hempty.mpr rfl

theorem sourceRemove_moves (r : ℕ) : Moves P s (sourceRemove s r) := by
  unfold sourceRemove
  split_ifs with hg
  · dsimp only
    split_ifs with ha
    · have ha' : s.active = some r := ha
      have hv : (vacate s r).active ≠ some r := by simp [vacate, splice]
      refine (Relation.ReflTransGen.single (Move.vacate r ha')).tail ?_
      have hm := Move.unlist (P := P) r hv
      convert hm using 1
      simp [vacate, splice, alter, Source.removed, Source.demoted]
    · exact Relation.ReflTransGen.single (Move.unlist r ha)
  · exact Relation.ReflTransGen.refl

theorem foldl_sourceRemove_moves (refs : List ℕ) : Moves P s (refs.foldl sourceRemove s) := by
  induction refs generalizing s with
  | nil => exact Relation.ReflTransGen.refl
  | cons r rest ih => exact (sourceRemove_moves r).trans ih

theorem sourceRemove_sources (s : Stream) (r q : ℕ) (h : q ∈ (sourceRemove s r).sources)
    (hi : Inv s) : q ∈ s.sources ∧ q ≠ r := by
  unfold sourceRemove at h
  split_ifs at h with hg
  · dsimp only at h
    have hq : q ∈ s.sources.filter (· ≠ r) := by
      split_ifs at h <;> exact h
    obtain ⟨hq, hne⟩ := List.mem_filter.mp hq
    exact ⟨hq, of_decide_eq_true hne⟩
  · refine ⟨h, ?_⟩
    rintro rfl
    exact hg ((hi.listed q).mp h)

theorem foldl_sourceRemove_sources (refs : List ℕ) (h : Inv s) {q : ℕ}
    (hq : q ∈ (refs.foldl sourceRemove s).sources) : q ∈ s.sources ∧ q ∉ refs := by
  induction refs generalizing s with
  | nil => exact ⟨hq, by simp⟩
  | cons r rest ih =>
    have hone : Moves (fun _ _ => True) s (sourceRemove s r) := sourceRemove_moves r
    obtain ⟨hmem, hrest⟩ := ih (hone.inv h) hq
    obtain ⟨hmem, hne⟩ := sourceRemove_sources s r q hmem h
    exact ⟨hmem, by simp [hne, hrest]⟩

theorem retire_moves (h : Inv s) : Moves P s (retire s) := by
  have hstop : Same s { s with running := false } :=
    ⟨rfl, rfl, rfl, rfl, rfl, rfl, rfl, fun _ h => h, fun _ => Kept.refl _⟩
  have hfold : Moves P { s with running := false }
      (s.sources.foldl sourceRemove { s with running := false }) :=
    foldl_sourceRemove_moves s.sources
  have hinv := hfold.inv (hstop.inv h)
  -- every listed source is gone, the active one with them
  have hnil : (s.sources.foldl sourceRemove { s with running := false }).sources = [] := by
    rw [List.eq_nil_iff_forall_not_mem]
    intro q hq
    obtain ⟨hmem, hnot⟩ := foldl_sourceRemove_sources s.sources (hstop.inv h) hq
    exact hnot hmem
  have hidle : (s.sources.foldl sourceRemove { s with running := false }).active = none := by
    cases ha : (s.sources.foldl sourceRemove { s with running := false }).active with
    | none => rfl
    | some a =>
      have := hinv.active_listed a ha
      rw [hnil] at this
      simp at this
  refine ((moves_same hstop).trans hfold).tail (Move.quiet ?_)
  exact ⟨hnil.symm, rfl, hidle.symm, rfl, rfl, rfl, rfl, fun _ h => h, fun _ => Kept.refl _⟩

theorem leaseBegin_same (s : Stream) (r : ℕ) : Same s (leaseBegin s r).1 := by
  unfold leaseBegin
  split_ifs
  · exact same_alter (f := fun src => { src with writers := src.writers + 1 }) s r
      ⟨rfl, rfl, rfl, rfl⟩
  · exact Same.refl s

theorem leaseEnd_same (s : Stream) (r : ℕ) : Same s (leaseEnd s r) := by
  unfold leaseEnd
  split_ifs
  · exact same_alter (f := fun src => { src with writers := src.writers - 1 }) s r
      ⟨rfl, rfl, rfl, rfl⟩
  · exact Same.refl s

def Drained (s : Stream) : Prop := ∀ a, s.active = some a → (s.source a).writers = 0

def OnCache (P : Stream → ℕ → Prop) (s : Stream) (r : ℕ) : Prop :=
  ∀ t : Stream, (t.source r).preroll = (s.source r).preroll → P t r

theorem switchNow_moves {r : ℕ} (hr : r ∈ s.sources) (hne : s.active ≠ some r)
    (now : ℕ) (hP : Drained s → OnCache P s r) : Moves P s (switchNow s r now).1 := by
  unfold switchNow
  cases ha : s.active with
  | none =>
    have hd : Drained s := fun a he => by rw [ha] at he; exact absurd he (by simp)
    exact Relation.ReflTransGen.single (Move.activate r now ha hr (hP hd s rfl))
  | some old =>
    have hold : old ≠ r := by
      rintro rfl
      exact hne ha
    dsimp only
    rw [if_neg hold]
    split_ifs with hw
    · exact Relation.ReflTransGen.refl
    · have hd : Drained s := by
        intro a he
        obtain rfl : old = a := Option.some.inj (ha.symm.trans he)
        omega
      -- the demoted stream is the vacated one with the switch counted
      have hv : Same (vacate s old) { vacate s old with switches := s.switches + 1 } :=
        ⟨rfl, rfl, rfl, rfl, rfl, rfl, rfl, fun _ h => h, fun _ => Kept.refl _⟩
      have hcache : (({ vacate s old with switches := s.switches + 1 } : Stream).source r) =
          s.source r := alter_source_ne s hold.symm _
      have hstep : Move P { vacate s old with switches := s.switches + 1 }
          (activate { vacate s old with switches := s.switches + 1 } r now) :=
        Move.activate r now rfl hr (hP hd _ (by rw [hcache]))
      exact ((Relation.ReflTransGen.single (Move.vacate old ha)).tail (Move.quiet hv)).tail hstep

theorem switchNow_not_drained (hd : ¬ Drained s) {r : ℕ} (hne : s.active ≠ some r) (now : ℕ) :
    (switchNow s r now).1 = s := by
  unfold switchNow
  cases ha : s.active with
  | none =>
    exact absurd (fun a he => by rw [ha] at he; exact absurd he (by simp)) hd
  | some old =>
    dsimp only
    rw [if_neg (by rintro rfl; exact hne ha), if_pos]
    by_contra hw
    refine hd fun a he => ?_
    obtain rfl : old = a := Option.some.inj (ha.symm.trans he)
    omega

theorem switchNow_awaiting (h : Inv s) {r : ℕ} (hr : r ∈ s.sources)
    (hne : s.active ≠ some r) (now : ℕ) {q : ℕ}
    (hq : ((switchNow s r now).1.source q).state = .awaitingSync) :
    (switchNow s r now).1.source q = s.source q := by
  unfold switchNow at hq ⊢
  cases ha : s.active with
  | none =>
    rw [ha] at hq
    have hact := h.activated ha hr now
    by_cases hqr : q = r
    · subst q
      have hst := hact.state.symm.trans hq
      exact absurd hst (by simp)
    · exact hact.other q hqr
  | some old =>
    have hold : old ≠ r := by
      rintro rfl
      exact hne ha
    rw [ha] at hq
    dsimp only at hq ⊢
    rw [if_neg hold] at hq ⊢
    split_ifs at hq ⊢ with hw
    · rfl
    · have hv : Same (vacate s old) { vacate s old with switches := s.switches + 1 } :=
        ⟨rfl, rfl, rfl, rfl, rfl, rfl, rfl, fun _ h => h, fun _ => Kept.refl _⟩
      have hact : Activated { vacate s old with switches := s.switches + 1 }
          (activate (demote s old) r now) r :=
        (hv.inv (h.after_vacate ha)).activated rfl hr now
      by_cases hqr : q = r
      · subst q
        have hst := hact.state.symm.trans hq
        exact absurd hst (by simp)
      · rw [hact.other q hqr] at hq ⊢
        by_cases hqo : q = old
        · subst q
          have hdem : ((vacate s old).source old).state = .standby := by
            simp [vacate, splice, alter, Source.demoted]
          exact absurd (hdem.symm.trans hq) (by simp)
        · exact alter_source_ne s hqo _

theorem resolvable_awaiting {src : Source} (h : resolvable src = true) :
    src.state = .awaitingSync := by
  simp only [resolvable, Bool.and_eq_true, decide_eq_true_eq] at h
  exact h.1.2

theorem switchNow_sources (s : Stream) (r now : ℕ) :
    (switchNow s r now).1.sources = s.sources := by
  have hreplay : ∀ (t : Stream) (frames : List Frame),
      (replay t r now frames).sources = t.sources := by
    intro t frames
    induction frames generalizing t with
    | nil => rfl
    | cons f rest ih =>
      refine (ih (writeProgram t r f now).1).trans ?_
      simp only [writeProgram]
      split <;> rfl
  unfold switchNow
  cases ha : s.active with
  | none => exact hreplay _ _
  | some old =>
    dsimp only
    split_ifs
    · rfl
    · rfl
    · exact hreplay _ _

theorem resolvable_not_active (h : Inv s) {r : ℕ} (hres : resolvable (s.source r) = true) :
    s.active ≠ some r := by
  intro ha
  have hst := (h.state_iff r).mpr ha
  simp [resolvable, hst] at hres

theorem foldl_resolveOne_moves (refs : List ℕ) (h : Inv s) (hrefs : ∀ r ∈ refs, r ∈ s.sources)
    (hP : Drained s → ∀ r ∈ refs, resolvable (s.source r) = true → OnCache P s r) :
    Moves P s (refs.foldl resolveOne s) := by
  induction refs generalizing s with
  | nil => exact Relation.ReflTransGen.refl
  | cons r rest ih =>
    have hr := hrefs r List.mem_cons_self
    have hrest : ∀ q ∈ rest, q ∈ s.sources := fun q hq => hrefs q (List.mem_cons_of_mem _ hq)
    change Moves P s (rest.foldl resolveOne (resolveOne s r))
    unfold resolveOne
    split_ifs with hres
    · have hne := resolvable_not_active h hres
      by_cases hd : Drained s
      · have hone := switchNow_moves (P := P) hr hne (s.source r).lastMedia
          fun hd => hP hd r List.mem_cons_self hres
        refine hone.trans (ih (hone.inv h) ?_ fun _ q hq hqres t ht => ?_)
        · intro q hq
          rw [switchNow_sources]
          exact hrest q hq
        · have hcell := switchNow_awaiting h hr hne _ (resolvable_awaiting hqres)
          rw [hcell] at hqres ht
          exact hP hd q (List.mem_cons_of_mem _ hq) hqres t ht
      · rw [switchNow_not_drained hd hne]
        exact ih h hrest fun hd' => absurd hd' hd
    · exact ih h hrest fun hd q hq => hP hd q (List.mem_cons_of_mem _ hq)

theorem switchResolve_moves (h : Inv s)
    (hP : Drained s → ∀ r ∈ s.sources, resolvable (s.source r) = true → OnCache P s r) :
    Moves P s (switchResolve s) :=
  foldl_resolveOne_moves s.sources h (fun _ hr => hr) hP

theorem promote_moves (h : Inv s) (r : ℕ)
    (hP : usable s r = true → s.active ≠ some r → (s.source r).preroll.ready = true →
      Drained s → OnCache P s r) : Moves P s (promote s r).1 := by
  unfold promote
  split_ifs with hu ha
  · exact moves_same (same_alter (f := fun src => { src with pendingSwitch := false }) s r
      ⟨rfl, rfl, rfl, rfl⟩)
  · have hwait : Move P s (alter s r Source.awaiting) := Move.await r ha
    have hpre : ((alter s r Source.awaiting).source r).preroll = (s.source r).preroll := by
      rw [alter_source_self]
      rfl
    dsimp only
    split_ifs with hready
    · rw [hpre] at hready
      have hlisted : r ∈ (alter s r Source.awaiting).sources := h.usable_listed hu
      refine (Relation.ReflTransGen.single hwait).trans
        (switchNow_moves hlisted ha _ fun hd t ht => ?_)
      refine hP hu ha hready (fun a hact => ?_) t (ht.trans hpre)
      have hne : a ≠ r := by
        rintro rfl
        exact ha hact
      have := hd a hact
      rwa [alter_source_ne s hne] at this
    · exact Relation.ReflTransGen.single hwait
  · exact Relation.ReflTransGen.refl

def recorded (s : Stream) (r : ℕ) (frame : Frame) (now : ℕ) : Stream :=
  { alter s r (fun src => arrived src frame now) with
    published := s.published ++ [(r, frame)] }

def cachedFrame (s : Stream) (r : ℕ) (frame : Frame) (now : ℕ) : Stream :=
  alter (recorded s r frame now) r fun src =>
    { src with preroll := (MediaPreroll.push src.preroll src.hasVideo frame).1 }

theorem recorded_moves (r : ℕ) (frame : Frame) (now : ℕ) :
    Moves P s (recorded s r frame now) := by
  have hquiet : Same s (alter s r fun src => arrived src frame now) :=
    same_alter (f := fun src => arrived src frame now) s r ⟨rfl, rfl, rfl, rfl⟩
  exact (moves_same hquiet).tail (Move.note r frame)

def liveFrame (s : Stream) (r : ℕ) (frame : Frame) (now : ℕ) : Stream :=
  leaseEnd (writeProgram (leaseBegin (recorded s r frame now) r).1 r frame now).1 r

theorem liveFrame_moves {r : ℕ} (ha : s.active = some r) (frame : Frame) (now : ℕ) :
    Moves P s (liveFrame s r frame now) := by
  have hlease := leaseBegin_same (recorded s r frame now) r
  refine (((recorded_moves r frame now).tail (Move.quiet hlease)).tail
    (Move.write r frame now ?_ ?_)).tail (Move.quiet (leaseEnd_same _ r))
  · rw [hlease.active]
    exact ha
  · rw [hlease.published]
    exact List.mem_append_right _ (List.mem_singleton_self _)

theorem writeProgram_source_ne (s : Stream) {r q : ℕ} (hq : q ≠ r) (frame : Frame) (now : ℕ) :
    (writeProgram s r frame now).1.source q = s.source q :=
  replay_source_ne s hq now [frame]

theorem liveFrame_source_ne (s : Stream) {r q : ℕ} (hq : q ≠ r) (frame : Frame) (now : ℕ) :
    (liveFrame s r frame now).source q = s.source q := by
  have hend : ∀ t : Stream, (leaseEnd t r).source q = t.source q := by
    intro t
    unfold leaseEnd
    split_ifs
    · exact alter_source_ne t hq _
    · rfl
  have hbegin : ∀ t : Stream, (leaseBegin t r).1.source q = t.source q := by
    intro t
    unfold leaseBegin
    split_ifs
    · dsimp only
      exact alter_source_ne t hq _
    · rfl
  rw [liveFrame, hend, writeProgram_source_ne _ hq, hbegin, recorded]
  dsimp only
  exact alter_source_ne s hq _

theorem liveFrame_kept (s : Stream) (r : ℕ) (frame : Frame) (now : ℕ) :
    (liveFrame s r frame now).active = s.active ∧ (liveFrame s r frame now).fresh = s.fresh ∧
      (liveFrame s r frame now).sources = s.sources := by
  have hend := leaseEnd_same (writeProgram (leaseBegin (recorded s r frame now) r).1 r frame now).1 r
  have hbegin := leaseBegin_same (recorded s r frame now) r
  have hw : ∀ t : Stream, (writeProgram t r frame now).1.active = t.active ∧
      (writeProgram t r frame now).1.fresh = t.fresh ∧
      (writeProgram t r frame now).1.sources = t.sources := by
    intro t
    simp only [writeProgram]
    split <;> exact ⟨rfl, rfl, rfl⟩
  obtain ⟨hwa, hwf, hws⟩ := hw (leaseBegin (recorded s r frame now) r).1
  exact ⟨hend.active.trans (hwa.trans hbegin.active), hend.fresh.trans (hwf.trans hbegin.fresh),
    hend.sources.trans (hws.trans hbegin.sources)⟩

theorem liveFrame_writers (s : Stream) {r : ℕ} (hu : usable s r = true) (frame : Frame)
    (now : ℕ) : ((liveFrame s r frame now).source r).writers = (s.source r).writers := by
  have hu' : usable (recorded s r frame now) r = true := by
    change (decide (r < s.fresh) && s.running && !((recorded s r frame now).source
      r).pendingRemove) = true
    rw [recorded]
    dsimp only
    rw [alter_source_self]
    exact hu
  have hwrite : ∀ t : Stream, ((writeProgram t r frame now).1.source r).writers =
      (t.source r).writers := by
    intro t
    simp only [writeProgram]
    split <;> simp [alter]
  have hbegin : ((leaseBegin (recorded s r frame now) r).1.source r).writers =
      (s.source r).writers + 1 := by
    rw [leaseBegin, if_pos hu']
    simp [alter, recorded, arrived]
  unfold liveFrame leaseEnd
  rw [if_pos (by rw [hwrite, hbegin]; omega), alter_source_self]
  change (((writeProgram (leaseBegin (recorded s r frame now) r).1 r frame now).1.source
    r).writers) - 1 = _
  rw [hwrite, hbegin]
  rfl

theorem publish_live {r : ℕ} (hu : usable s r = true) (hact : (s.source r).state = .active)
    (frame : Frame) (now : ℕ) :
    (publish s r frame now).1 = switchResolve (liveFrame s r frame now) := by
  have hgate : ((recorded s r frame now).source r).state = .active := by
    simpa [recorded, alter, arrived] using hact
  unfold publish
  rw [if_pos hu]
  dsimp only
  rw [if_pos (by exact hgate)]
  rfl

theorem publish_standby {r : ℕ} (hu : usable s r = true) (hact : (s.source r).state ≠ .active)
    (frame : Frame) (now : ℕ) :
    (publish s r frame now).1 =
      if (s.source r).state = .awaitingSync ∧ frame.keyframe = true then
        (switchNow (cachedFrame s r frame now) r now).1
      else cachedFrame s r frame now := by
  have hgate : ((recorded s r frame now).source r).state = (s.source r).state := by
    simp [recorded, alter, arrived]
  have hstate : ((cachedFrame s r frame now).source r).state = (s.source r).state := by
    simp [cachedFrame, recorded, alter, arrived]
  rw [← hstate]
  unfold publish
  rw [if_pos hu]
  dsimp only
  rw [if_neg (by exact hgate ▸ hact)]
  exact apply_ite Prod.fst _ _ _

theorem publish_live_moves (h : Inv s) {r : ℕ} (hu : usable s r = true)
    (ha : s.active = some r) (frame : Frame) (now : ℕ)
    (hlive : Drained s → ∀ q ∈ s.sources, resolvable (s.source q) = true → OnCache P s q) :
    Moves P s (publish s r frame now).1 := by
  obtain ⟨hactive, _, hsources⟩ := liveFrame_kept s r frame now
  have hmoves := liveFrame_moves (P := P) ha frame now
  have hinv := hmoves.inv h
  rw [publish_live hu ((h.state_iff r).mpr ha)]
  refine hmoves.trans (switchResolve_moves hinv fun hd q hq hres t ht => ?_)
  have hne : q ≠ r := by
    rintro rfl
    exact resolvable_not_active hinv hres (hactive.trans ha)
  have hcell := liveFrame_source_ne s hne frame now
  have hd' : Drained s := by
    intro a hsome
    obtain rfl : r = a := Option.some.inj (ha.symm.trans hsome)
    rw [← liveFrame_writers s hu frame now]
    exact hd r (hactive.trans ha)
  rw [hcell] at ht hres
  rw [hsources] at hq
  exact hlive hd' q hq hres t ht

theorem publish_standby_moves (h : Inv s) {r : ℕ} (hu : usable s r = true)
    (hne : s.active ≠ some r) (frame : Frame) (now : ℕ)
    (hsync : (s.source r).state = .awaitingSync → frame.keyframe = true → Drained s →
      OnCache P (cachedFrame s r frame now) r) :
    Moves P s (publish s r frame now).1 := by
  have hpush : Moves P s (cachedFrame s r frame now) :=
    (recorded_moves r frame now).tail
      (Move.cache r frame (List.mem_append_right _ (List.mem_singleton_self _)))
  rw [publish_standby hu fun hact => hne ((h.state_iff r).mp hact)]
  split_ifs with hk
  · have hlisted : r ∈ (cachedFrame s r frame now).sources := h.usable_listed hu
    refine hpush.trans (switchNow_moves hlisted hne now fun hd => ?_)
    refine hsync hk.1 hk.2 fun a hsome => ?_
    have hne' : a ≠ r := by
      rintro rfl
      exact hne hsome
    have hcell : (cachedFrame s r frame now).source a = s.source a := by
      rw [cachedFrame, alter_source_ne _ hne']
      exact alter_source_ne s hne' fun src => arrived src frame now
    rw [← hcell]
    exact hd a hsome
  · exact hpush

theorem publish_moves (h : Inv s) (r : ℕ) (frame : Frame) (now : ℕ)
    (hlive : usable s r = true → s.active = some r → Drained s → ∀ q ∈ s.sources,
      resolvable (s.source q) = true → OnCache P s q)
    (hsync : usable s r = true → (s.source r).state = .awaitingSync → frame.keyframe = true →
      Drained s → OnCache P (cachedFrame s r frame now) r) :
    Moves P s (publish s r frame now).1 := by
  by_cases hu : usable s r = true
  · by_cases ha : s.active = some r
    · exact publish_live_moves h hu ha frame now (hlive hu ha)
    · exact publish_standby_moves h hu ha frame now (hsync hu)
  · rw [publish, if_neg hu]

theorem evaluateOne_same (program : Option TrackSet) (now : ℕ)
    (acc : Stream × SelectorResult) (r : ℕ) :
    Same acc.1 (evaluateOne program now acc r).1 ∧
      ∀ q, ((evaluateOne program now acc r).1.source q).writers = (acc.1.source q).writers := by
  have hone : (evaluateOne program now acc r).1 =
      alter acc.1 r (refresh program (decide (acc.1.active = some r)) now) := by
    unfold evaluateOne
    dsimp only
    split_ifs <;> rfl
  rw [hone]
  refine ⟨same_alter acc.1 r ⟨rfl, rfl, rfl, rfl⟩, ?_⟩
  exact alter_cell acc.1 r _ (fun q src => src.writers = (acc.1.source q).writers) rfl
    fun _ _ => rfl

theorem selectorEvaluate_same (s : Stream) (now : ℕ) :
    Same s (selectorEvaluate s now).1 ∧
      ∀ q, ((selectorEvaluate s now).1.source q).writers = (s.source q).writers := by
  have hfold : ∀ (program : Option TrackSet) (refs : List ℕ) (acc : Stream × SelectorResult),
      Same acc.1 (refs.foldl (evaluateOne program now) acc).1 ∧
        ∀ q, ((refs.foldl (evaluateOne program now) acc).1.source q).writers =
          (acc.1.source q).writers := by
    intro program refs
    induction refs with
    | nil => exact fun acc => ⟨Same.refl _, fun _ => rfl⟩
    | cons r rest ih =>
      intro acc
      obtain ⟨hs, hw⟩ := evaluateOne_same program now acc r
      obtain ⟨hs', hw'⟩ := ih (evaluateOne program now acc r)
      exact ⟨hs.trans hs', fun q => (hw' q).trans (hw q)⟩
  exact hfold _ s.sources (s, ⟨none, none, 0, true⟩)

def runTarget (s : Stream) (now : ℕ) : Option ℕ :=
  let out := selectorEvaluate s now
  match out.1.active with
  | none => out.2.best.or out.2.emergency
  | some a =>
    if out.2.activeEligible then
      out.2.best.filter fun best => decide ((out.1.source best).priority >
        (out.1.source a).priority ∧ out.1.selector.switchback = .auto)
    else out.2.best.or out.2.emergency

def switchbackTarget (s : Stream) (now : ℕ) : Option ℕ :=
  if s.selector.switchback = .never then none
  else
    let out := selectorEvaluate s now
    match out.1.active with
    | none => out.2.best
    | some a =>
      out.2.best.filter fun best =>
        decide (¬ (out.1.source best).priority ≤ (out.1.source a).priority)

theorem evaluated_promote_moves (h : Inv s) (now r : ℕ) {t : Stream}
    (ht : Same (selectorEvaluate s now).1 t)
    (hw : ∀ q, (t.source q).writers = ((selectorEvaluate s now).1.source q).writers)
    (hP : (s.source r).preroll.ready = true → Drained s → OnCache P s r) :
    Moves P s (promote t r).1 := by
  obtain ⟨hs, hwriters⟩ := selectorEvaluate_same s now
  have hst := hs.trans ht
  refine (moves_same hst).trans (promote_moves (hst.inv h) r fun _ _ hready hd u hu => ?_)
  rw [(hst.cell r).preroll] at hready
  refine hP hready (fun a ha => ?_) u (hu.trans (hst.cell r).preroll)
  rw [← hwriters a, ← hw a]
  exact hd a (hst.active.trans ha)

theorem failover_moves (h : Inv s) (now : ℕ)
    (hP : ∀ r, (selectorEvaluate s now).2.best.or (selectorEvaluate s now).2.emergency = some r →
      (s.source r).preroll.ready = true → Drained s → OnCache P s r) :
    Moves P s (failover (selectorEvaluate s now).1 (selectorEvaluate s now).2).1 := by
  have hcount : Same (selectorEvaluate s now).1 { (selectorEvaluate s now).1 with
      emergencySwitches := (selectorEvaluate s now).1.emergencySwitches + 1 } :=
    ⟨rfl, rfl, rfl, rfl, rfl, rfl, rfl, fun _ h => h, fun _ => Kept.refl _⟩
  unfold failover
  split
  · next best hbest =>
    exact evaluated_promote_moves h now best (Same.refl _) (fun _ => rfl)
      (hP best (by rw [hbest, Option.some_or]))
  · next hbest =>
    split
    · next emergency hemergency =>
      exact evaluated_promote_moves h now emergency hcount (fun _ => rfl)
        (hP emergency (by rw [hbest, hemergency, Option.none_or]))
    · exact moves_same (selectorEvaluate_same s now).1

theorem selectorRun_moves (h : Inv s) (now : ℕ)
    (hP : ∀ r, runTarget s now = some r → (s.source r).preroll.ready = true → Drained s →
      OnCache P s r) :
    Moves P s (selectorRun s now).1 := by
  have hs := (selectorEvaluate_same s now).1
  unfold runTarget at hP
  unfold selectorRun
  dsimp only at hP ⊢
  cases ha : (selectorEvaluate s now).1.active with
  | none =>
    rw [ha] at hP
    exact failover_moves h now hP
  | some a =>
    rw [ha] at hP
    dsimp only at hP ⊢
    split_ifs at hP ⊢ with helig
    · split
      · next best hbest =>
        split_ifs with hprio
        · refine evaluated_promote_moves h now best (Same.refl _) (fun _ => rfl) (hP best ?_)
          rw [hbest, Option.filter_some, if_pos (decide_eq_true hprio)]
        · exact moves_same hs
      · exact moves_same hs
    · exact failover_moves h now hP

theorem selectorSwitchback_moves (h : Inv s) (now : ℕ)
    (hP : ∀ r, switchbackTarget s now = some r → (s.source r).preroll.ready = true →
      Drained s → OnCache P s r) :
    Moves P s (selectorSwitchback s now).1 := by
  have hs := (selectorEvaluate_same s now).1
  unfold switchbackTarget at hP
  unfold selectorSwitchback
  split_ifs at hP ⊢ with hnever
  · exact Relation.ReflTransGen.refl
  · dsimp only at hP ⊢
    split
    · exact moves_same hs
    · next best hbest =>
      split
      · next a ha =>
        rw [ha] at hP
        dsimp only at hP
        split_ifs with hprio
        · exact moves_same hs
        · refine evaluated_promote_moves h now best (Same.refl _) (fun _ => rfl) (hP best ?_)
          rw [hbest, Option.filter_some, if_pos (decide_eq_true hprio)]
      · next ha =>
        rw [ha] at hP
        exact evaluated_promote_moves h now best (Same.refl _) (fun _ => rfl) (hP best hbest)

end Operations

end StreamMoves
