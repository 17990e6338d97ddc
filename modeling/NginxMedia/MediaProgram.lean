import NginxMedia.StreamMoves

/-! Whole runs of a stream with its sources, selector and consumers: which source may
write to the program, what a consumer may read in one go, and where a switch starts. -/
namespace MediaProgram

open MediaTypes MediaStream StreamMoves StepRun

inductive Observation where
  | hasVideo
  | tracks (tracks : TrackSet)
  | healthInit (failureTimeout recoveryTimeout now : ℕ)
  | transport (up : Bool) (now : ℕ)
  | media (dts : ℤ) (now : ℕ)
  | container (errors now : ℕ)
  | enabled (enabled : Bool)
  | priority (priority : ℕ)
  deriving DecidableEq, Repr

def observe (src : Source) : Observation → Source
  | .hasVideo => { src with hasVideo := true }
  | .tracks tracks => { src with tracks := some tracks }
  | .healthInit failure recovery now =>
    { src with health := MediaHealth.init failure recovery now }
  | .transport up now => { src with health := MediaHealth.transport src.health up now }
  | .media dts now => { src with health := MediaHealth.media src.health dts now }
  | .container errors now => { src with health := MediaHealth.container src.health errors now }
  | .enabled enabled => { src with enabled := enabled }
  | .priority priority => { src with priority := priority }

structure Program where
  stream : Stream
  consumers : ℕ → MediaFeed.Consumer

inductive Call where
  | sourceAdd (id : List UInt8) (type priority : ℕ) (admitted allocated : Bool)
  | sourceRemove (r : ℕ)
  | retire
  | leaseBegin (r : ℕ)
  | leaseEnd (r : ℕ)
  | publish (r : ℕ) (frame : Frame) (now : ℕ)
  | promote (r : ℕ)
  | switchResolve
  | selectorRun (now : ℕ)
  | selectorSwitchback (now : ℕ)
  | observe (r : ℕ) (o : Observation)
  | read (i maxUnits maxBytes now : ℕ)
  | cursorInit (i : ℕ)
  | resync (i mode : ℕ)
  deriving DecidableEq, Repr

def streamStep (p : Program) : Call → Stream
  | .sourceAdd id type priority admitted allocated =>
    (sourceAdd p.stream id type priority admitted allocated).1
  | .sourceRemove r => sourceRemove p.stream r
  | .retire => retire p.stream
  | .leaseBegin r => (leaseBegin p.stream r).1
  | .leaseEnd r => leaseEnd p.stream r
  | .publish r frame now => (publish p.stream r frame now).1
  | .promote r => (promote p.stream r).1
  | .switchResolve => switchResolve p.stream
  | .selectorRun now => (selectorRun p.stream now).1
  | .selectorSwitchback now => (selectorSwitchback p.stream now).1
  | .observe r o => alter p.stream r fun src => MediaProgram.observe src o
  | .read i maxUnits maxBytes now =>
    { p.stream with
      feed := (MediaFeed.read p.stream.feed (p.consumers i).cursor maxUnits maxBytes now).feed }
  | .cursorInit _ => p.stream
  | .resync _ _ => p.stream

def consumerStep (p : Program) : Call → ℕ → MediaFeed.Consumer
  | .read i maxUnits maxBytes now =>
    let c := p.consumers i
    let r := MediaFeed.read p.stream.feed c.cursor maxUnits maxBytes now
    Function.update p.consumers i { c with cursor := r.cursor, got := c.got ++ r.frames }
  | .cursorInit i =>
    Function.update p.consumers i ⟨MediaFeed.cursorInit p.stream.feed, p.stream.feed.head, []⟩
  | .resync i mode =>
    match MediaFeed.resync p.stream.feed (p.consumers i).cursor mode with
    | (cursor, .ok) => Function.update p.consumers i ⟨cursor, cursor.nextSequence, []⟩
    | _ => p.consumers
  | _ => p.consumers

def step (p : Program) (call : Call) : Program := ⟨streamStep p call, consumerStep p call⟩

/-- A stream without sources on a fresh feed, and consumers that have not resynchronised. -/
def start (feed : MediaFeed.Feed) (selector : SelectorConf) : Program :=
  ⟨MediaStream.init feed selector, fun _ => ⟨⟨0, 0⟩, 0, []⟩⟩

def run (p : Program) (calls : List Call) : Program := calls.foldl step p

theorem run_append (p : Program) (a b : List Call) : run p (a ++ b) = run (run p a) b :=
  List.foldl_append

theorem defaultPreroll_inv : MediaPreroll.Inv defaultPreroll :=
  ⟨⟨rfl, ⟨10, rfl⟩, by decide, by decide, Nat.zero_le _⟩, rfl,
    fun h0 => absurd h0 (Nat.lt_irrefl 0)⟩

theorem start_inv {conf : MediaFeed.Conf} {allocated : Bool} {feed : MediaFeed.Feed}
    (h : MediaFeed.init conf allocated = some feed) (selector : SelectorConf) :
    Inv (start feed selector).stream := by
  refine ⟨fun r => ?_, fun a ha => ?_, fun r => ?_, fun r => ?_, fun r => defaultPreroll_inv,
    fun r f hf => ?_, MediaFeed.init_inv h, ?_, ?_, ?_, List.Pairwise.nil, ?_⟩
  · simp [start, MediaStream.init]
  · simp [start, MediaStream.init] at ha
  · simp [start, MediaStream.init, Source.new]
  · simp [start, MediaStream.init, Source.new]
  · have hnil : defaultPreroll.frames = [] := rfl
    change f ∈ defaultPreroll.frames at hf
    rw [hnil] at hf
    simp at hf
  all_goals
    intro w hw
    simp [start, MediaStream.init] at hw

def Permits (P : Stream → ℕ → Prop) (s : Stream) : Call → Prop
  | .publish r frame now =>
    (usable s r = true → s.active = some r → Drained s → ∀ q ∈ s.sources,
      resolvable (s.source q) = true → OnCache P s q) ∧
    (usable s r = true → (s.source r).state = .awaitingSync → frame.keyframe = true →
      Drained s → OnCache P (cachedFrame s r frame now) r)
  | .promote r => usable s r = true → s.active ≠ some r →
      (s.source r).preroll.ready = true → Drained s → OnCache P s r
  | .switchResolve => Drained s → ∀ q ∈ s.sources, resolvable (s.source q) = true → OnCache P s q
  | .selectorRun now => ∀ r, runTarget s now = some r → (s.source r).preroll.ready = true →
      Drained s → OnCache P s r
  | .selectorSwitchback now => ∀ r, switchbackTarget s now = some r →
      (s.source r).preroll.ready = true → Drained s → OnCache P s r
  | _ => True

theorem observe_kept (src : Source) (o : Observation) : Kept src (observe src o) := by
  cases o <;> exact ⟨rfl, rfl, rfl, rfl⟩

theorem streamStep_moves {P : Stream → ℕ → Prop} {p : Program} (h : Inv p.stream) (call : Call)
    (hP : Permits P p.stream call) : Moves P p.stream (streamStep p call) := by
  cases call with
  | sourceAdd id type priority admitted allocated => exact sourceAdd_moves _ _ _ _ _
  | sourceRemove r => exact sourceRemove_moves r
  | retire => exact retire_moves h
  | leaseBegin r => exact moves_same (leaseBegin_same _ r)
  | leaseEnd r => exact moves_same (leaseEnd_same _ r)
  | publish r frame now => exact publish_moves h r frame now hP.1 hP.2
  | promote r => exact promote_moves h r hP
  | switchResolve => exact switchResolve_moves h hP
  | selectorRun now => exact selectorRun_moves h now hP
  | selectorSwitchback now => exact selectorSwitchback_moves h now hP
  | observe r o =>
    exact moves_same (same_alter (f := fun src => MediaProgram.observe src o) p.stream r
      (observe_kept _ o))
  | read i maxUnits maxBytes now =>
    refine moves_same ⟨rfl, rfl, rfl, rfl, rfl, rfl, ?_, fun units hu => ?_, fun _ => Kept.refl _⟩
    · simp only [streamStep, MediaFeed.read]
      split_ifs <;> rfl
    · exact (hu.after_read _ maxUnits maxBytes now).1
  | cursorInit i => exact Relation.ReflTransGen.refl
  | resync i mode => exact Relation.ReflTransGen.refl

theorem permits_trivially (s : Stream) (call : Call) : Permits (fun _ _ => True) s call := by
  cases call <;> simp [Permits, OnCache]

theorem step_inv {p : Program} (h : Inv p.stream) (call : Call) :
    Inv (step p call).stream ∧ Later p.stream (step p call).stream := by
  have hm := streamStep_moves h call (permits_trivially p.stream call)
  exact ⟨hm.inv h, hm.later h⟩

theorem run_inv {p : Program} (h : Inv p.stream) (calls : List Call) :
    Inv (run p calls).stream :=
  StepRun.invariant (I := fun p : Program => Inv p.stream) (fun _ call hi => (step_inv hi call).1) h calls

theorem run_later {p : Program} (h : Inv p.stream) (calls : List Call) :
    Later p.stream (run p calls).stream :=
  StepRun.related (I := fun p : Program => Inv p.stream)
    (R := fun p q : Program => Later p.stream q.stream) (fun p => Later.refl p.stream) (fun _ _ _ => Later.trans)
    (fun _ call hi => step_inv hi call) h calls

def GateAgrees (s : Stream) : Prop :=
  ∀ r, ((s.source r).state = .active ↔ (s.source r).active = true) ∧
    ((s.source r).active = true ↔ s.active = some r)

structure OwnFrames (s : Stream) : Prop where
  ring : MediaFeed.Bounded s.feed (s.writes.map Write.slot)
  writer : ∀ w ∈ s.writes, w.active = some w.source ∧ (w.source, w.frame) ∈ s.published
  mapped : ∀ w ∈ s.writes,
    w.slot.frame = { w.frame with pts := w.slot.frame.pts, dts := w.slot.frame.dts }

/-- In every reachable state one source at most is active, on all three records; what is in the
program was published by the source active then; a change of source shows in the generation. -/
theorem single_active_source {conf : MediaFeed.Conf} {allocated : Bool} {feed : MediaFeed.Feed}
    (h : MediaFeed.init conf allocated = some feed) (selector : SelectorConf)
    (calls : List Call) :
    GateAgrees (run (start feed selector) calls).stream ∧
    OwnFrames (run (start feed selector) calls).stream ∧
    ∀ later a b, (run (start feed selector) calls).stream.active = some a →
      (run (start feed selector) (calls ++ later)).stream.active = some b → a ≠ b →
      (run (start feed selector) calls).stream.feed.generation <
        (run (start feed selector) (calls ++ later)).stream.feed.generation := by
  have hinv := run_inv (start_inv h selector) calls
  refine ⟨fun r => ?_, ⟨hinv.feed.bounded, fun w hw => ?_, fun w hw => (hinv.wrote w hw).2.2⟩,
    fun later a b ha hb hne => ?_⟩
  · exact ⟨(hinv.state_iff r).trans (hinv.flag_iff r).symm, hinv.flag_iff r⟩
  · exact ⟨(hinv.wrote w hw).1, (hinv.wrote w hw).2.1⟩
  · rw [run_append] at hb ⊢
    have hlater := run_later hinv later
    have hle := hlater.generation_le
    by_contra hlt
    have hsame := hlater.active_eq (by omega) a ha
    exact hne (Option.some.inj (hsame.symm.trans hb))

def selectorAuto : SelectorConf := ⟨1500, 10000, true, .auto⟩

def videoFrame (keyframe config : Bool) (dts : ℤ) : Frame :=
  { Frame.empty with
    codec := .h264, keyframe := keyframe, config := config, pts := dts, dts := dts,
    payload := some [0, 0, 1, 9] }

def audioFrame (dts : ℤ) : Frame :=
  { Frame.empty with
    mediaType := .audio, codec := .aac, keyframe := true, pts := dts, dts := dts,
    payload := some [255, 241] }

/-- Two sources; the second takes over from its cached keyframe. -/
def takeover : List Call :=
  [.sourceAdd [97] 1 1 true true, .sourceAdd [98] 1 2 true true, .promote 0,
    .publish 0 (videoFrame true false 100) 10, .publish 1 (videoFrame true false 700) 20]

def smallFeed : MediaFeed.Feed := (MediaFeed.init ⟨8, 0, 0⟩ true).get rfl

theorem smallFeed_init : MediaFeed.init ⟨8, 0, 0⟩ true = some smallFeed := rfl

theorem single_active_source_takeover :
    (run (start smallFeed selectorAuto) takeover).stream.active = some 0 ∧
      (run (start smallFeed selectorAuto) (takeover ++ [.promote 1])).stream.active = some 1 ∧
      (run (start smallFeed selectorAuto) takeover).stream.feed.generation <
        (run (start smallFeed selectorAuto) (takeover ++ [.promote 1])).stream.feed.generation := by
  have hrun := single_active_source smallFeed_init selectorAuto takeover
  have hzero : (run (start smallFeed selectorAuto) takeover).stream.active = some 0 := rfl
  have hone : (run (start smallFeed selectorAuto)
    (takeover ++ [.promote 1])).stream.active = some 1 := rfl
  exact ⟨hzero, hone, hrun.2.2 [.promote 1] 0 1 hzero hone (by decide)⟩

def readWrites (s : Stream) (c : MediaFeed.Consumer) : List Write :=
  (s.writes.drop c.start).take c.got.length

structure InGeneration (s : Stream) (c : MediaFeed.Consumer) : Prop where
  follows : c.Follows (s.writes.map Write.slot)
  generation_le : c.cursor.generation ≤ s.feed.generation
  since : ∀ w ∈ s.writes.drop c.start, c.cursor.generation ≤ w.generation
  read : ∀ w ∈ readWrites s c, w.generation = c.cursor.generation

def ResyncCurrent (p : Program) : Call → Prop
  | .resync _ mode => mode = MediaFeed.resyncKeyframe → MediaFeed.keyframeRetained p.stream.feed →
      (p.stream.writes[p.stream.feed.lastKeyframe]?).map Write.generation =
        some p.stream.feed.generation
  | _ => True

theorem InGeneration.start_le {s : Stream} {c : MediaFeed.Consumer} (h : InGeneration s c) :
    c.start + c.got.length ≤ s.writes.length := by
  have := h.follows.within
  rwa [List.length_map] at this

theorem InGeneration.later {s t : Stream} {c : MediaFeed.Consumer} (h : InGeneration s c)
    (hl : Later s t) : InGeneration t c := by
  obtain ⟨ws, hws, hall⟩ := hl.grown
  have hle := h.start_le
  have hdrop : t.writes.drop c.start = s.writes.drop c.start ++ ws := by
    rw [hws, List.drop_append_of_le_length (by omega)]
  refine ⟨⟨h.follows.cursor_eq, ?_, ?_⟩, h.generation_le.trans hl.generation_le, fun w hw => ?_,
    fun w hw => ?_⟩
  · rw [hws, List.map_append, MediaFeed.framesBetween_append h.follows.within]
    exact h.follows.got_eq
  · rw [hws, List.map_append, List.length_append]
    exact h.follows.within.trans (Nat.le_add_right _ _)
  · rw [hdrop] at hw
    rcases List.mem_append.mp hw with hw | hw
    · exact h.since w hw
    · exact h.generation_le.trans (hall w hw)
  · refine h.read w ?_
    rwa [readWrites, hdrop, List.take_append_of_le_length
      (by rw [List.length_drop]; omega)] at hw

theorem inGeneration_fresh {s : Stream} {seq : ℕ} (hseq : seq ≤ s.writes.length)
    (hsince : ∀ w ∈ s.writes.drop seq, s.feed.generation ≤ w.generation) :
    InGeneration s ⟨⟨s.feed.generation, seq⟩, seq, []⟩ := by
  refine ⟨MediaFeed.Consumer.Follows.fresh _ ?_, Nat.le_refl _, hsince, fun w hw => ?_⟩
  · rwa [List.length_map]
  · simp [readWrites] at hw

theorem read_generation (feed : MediaFeed.Feed) (cursor : MediaFeed.Cursor)
    (maxUnits maxBytes now : ℕ) :
    (MediaFeed.read feed cursor maxUnits maxBytes now).cursor.generation = cursor.generation ∧
      ((MediaFeed.read feed cursor maxUnits maxBytes now).frames ≠ [] →
        cursor.generation = feed.generation) := by
  unfold MediaFeed.read
  split_ifs with hgen
  · exact ⟨rfl, fun hne => absurd rfl hne⟩
  · exact ⟨rfl, fun hne => absurd rfl hne⟩
  · exact ⟨rfl, fun hne => absurd rfl hne⟩
  · refine ⟨?_, fun _ => by simpa using hgen⟩
    dsimp only
    split_ifs <;> rfl

theorem InGeneration.after_read {s : Stream} (hi : Inv s) {c : MediaFeed.Consumer}
    (h : InGeneration s c) (maxUnits maxBytes now : ℕ) :
    InGeneration s { c with
      cursor := (MediaFeed.read s.feed c.cursor maxUnits maxBytes now).cursor
      got := c.got ++ (MediaFeed.read s.feed c.cursor maxUnits maxBytes now).frames } := by
  obtain ⟨hgen, hcurrent⟩ := read_generation s.feed c.cursor maxUnits maxBytes now
  refine ⟨h.follows.after_read hi.feed maxUnits maxBytes now, ?_, ?_, fun w hw => ?_⟩
  · rw [hgen]
    exact h.generation_le
  · rw [hgen]
    exact h.since
  · rw [hgen]
    by_cases hnil : (MediaFeed.read s.feed c.cursor maxUnits maxBytes now).frames = []
    · rw [readWrites, hnil, List.append_nil] at hw
      exact h.read w hw
    · -- the cursor is current, and every unit past its start is at least that recent
      have hmem := List.mem_of_mem_take hw
      have hle := (hi.bounded w (List.mem_of_mem_drop hmem)).1
      have hge := h.since w hmem
      have heq := hcurrent hnil
      omega

theorem drop_sorted {s : Stream} (hi : Inv s) {seq : ℕ} {w : Write}
    (hw : s.writes[seq]? = some w) : ∀ u ∈ s.writes.drop seq, w.generation ≤ u.generation := by
  obtain ⟨hlt, rfl⟩ := List.getElem?_eq_some_iff.mp hw
  intro u hu
  rw [List.drop_eq_getElem_cons hlt] at hu
  rcases List.mem_cons.mp hu with rfl | hu
  · exact Nat.le_refl _
  · have hpair := hi.sorted.drop (i := seq)
    rw [List.drop_eq_getElem_cons hlt] at hpair
    exact (List.pairwise_cons.mp hpair).1 u hu

theorem resync_inGeneration {p : Program} (hi : Inv p.stream) {i mode : ℕ}
    {cursor : MediaFeed.Cursor} (hok : ResyncCurrent p (.resync i mode))
    (hr : MediaFeed.resync p.stream.feed (p.consumers i).cursor mode = (cursor, .ok)) :
    InGeneration p.stream ⟨cursor, cursor.nextSequence, []⟩ := by
  have hhead : p.stream.feed.head = p.stream.writes.length := by
    rw [hi.feed.head_eq, List.length_map]
  have hlatest : InGeneration p.stream
      ⟨⟨p.stream.feed.generation, p.stream.feed.head⟩, p.stream.feed.head, []⟩ := by
    refine inGeneration_fresh hhead.le fun w hw => ?_
    rw [hhead, List.drop_length] at hw
    simp at hw
  unfold MediaFeed.resync at hr
  split_ifs at hr with hmode hkey hkept
  · obtain ⟨rfl, -⟩ := Prod.mk.inj hr
    exact hlatest
  · obtain ⟨rfl, -⟩ := Prod.mk.inj hr
    have hcur := hok hkey hkept
    obtain ⟨w, hw, hwg⟩ := Option.map_eq_some_iff.mp hcur
    have hlt := (List.getElem?_eq_some_iff.mp hw).1
    refine inGeneration_fresh hlt.le fun u hu => ?_
    rw [← hwg]
    exact drop_sorted hi hw u hu
  · obtain ⟨rfl, -⟩ := Prod.mk.inj hr
    exact hlatest
  · exact absurd (Prod.mk.inj hr).2 (by simp)

structure SpliceInv (p : Program) : Prop where
  stream : Inv p.stream
  consumers : ∀ i, InGeneration p.stream (p.consumers i)

theorem spliceInv_step (p : Program) (call : Call) (h : SpliceInv p)
    (hok : ResyncCurrent p call) : SpliceInv (step p call) := by
  obtain ⟨hinv, hlater⟩ := step_inv h.stream call
  have hkeep : ∀ i, InGeneration (step p call).stream (p.consumers i) :=
    fun i => (h.consumers i).later hlater
  have hset : ∀ i c, InGeneration (step p call).stream c →
      ∀ j, InGeneration (step p call).stream (Function.update p.consumers i c j) := by
    intro i c hc j
    by_cases hj : j = i
    · subst j
      rwa [Function.update_self]
    · rw [Function.update_of_ne hj]
      exact hkeep j
  refine ⟨hinv, ?_⟩
  cases call with
  | read i maxUnits maxBytes now =>
    exact hset i _ (((h.consumers i).after_read h.stream maxUnits maxBytes now).later hlater)
  | cursorInit i =>
    refine hset i _ (InGeneration.later (s := p.stream) ?_ hlater)
    have hhead : p.stream.feed.head = p.stream.writes.length := by
      rw [h.stream.feed.head_eq, List.length_map]
    refine inGeneration_fresh hhead.le fun w hw => ?_
    rw [hhead, List.drop_length] at hw
    simp at hw
  | resync i mode =>
    intro j
    rcases hr : MediaFeed.resync p.stream.feed (p.consumers i).cursor mode with ⟨cursor, rc⟩
    cases rc with
    | ok =>
      have hc := hset i _ ((resync_inGeneration h.stream hok hr).later hlater) j
      simpa only [step, consumerStep, hr] using hc
    | _ => simpa only [step, consumerStep, hr] using hkeep j
  | _ => exact hkeep

theorem start_spliceInv {conf : MediaFeed.Conf} {allocated : Bool} {feed : MediaFeed.Feed}
    (h : MediaFeed.init conf allocated = some feed) (selector : SelectorConf) :
    SpliceInv (start feed selector) := by
  refine ⟨start_inv h selector, fun i => ⟨MediaFeed.Consumer.Follows.fresh 0 (Nat.zero_le _),
    Nat.zero_le _, fun w _ => Nat.zero_le _, fun w hw => ?_⟩⟩
  simp [readWrites, start] at hw

/-- In every run whose keyframe resynchronisations stay inside the current generation,
what a consumer reads between two resynchronisations comes from one source. -/
theorem no_silent_splice {conf : MediaFeed.Conf} {allocated : Bool} {feed : MediaFeed.Feed}
    (h : MediaFeed.init conf allocated = some feed) (selector : SelectorConf)
    (calls : List Call) (hok : Meets step ResyncCurrent (start feed selector) calls) (i : ℕ) :
    let p := run (start feed selector) calls
    (p.consumers i).got =
      (readWrites p.stream (p.consumers i)).map (fun w => w.slot.frame) ∧
    ∃ r, ∀ w ∈ readWrites p.stream (p.consumers i),
      w.source = r ∧ (r, w.frame) ∈ p.stream.published := by
  intro p
  have hinv : SpliceInv p :=
    StepRun.invariant_of_meets (I := SpliceInv) spliceInv_step (start_spliceInv h selector) hok
  have hone := hinv.consumers i
  refine ⟨?_, ?_⟩
  · rw [hone.follows.got_eq, MediaFeed.framesBetween, Nat.add_sub_cancel_left, readWrites,
      ← List.map_drop, ← List.map_take, List.map_map]
    rfl
  · have hmem : ∀ w ∈ readWrites p.stream (p.consumers i), w ∈ p.stream.writes :=
      fun w hw => List.mem_of_mem_drop (List.mem_of_mem_take hw)
    rcases hread : readWrites p.stream (p.consumers i) with _ | ⟨w, rest⟩
    · exact ⟨0, by simp⟩
    · refine ⟨w.source, fun u hu => ?_⟩
      rw [← hread] at hu
      have hw : w ∈ readWrites p.stream (p.consumers i) := by rw [hread]; exact List.mem_cons_self
      have hsource : u.source = w.source := hinv.stream.uniform u (hmem u hu) w (hmem w hw)
        ((hone.read u hu).trans (hone.read w hw).symm)
      exact ⟨hsource, hsource ▸ (hinv.stream.wrote u (hmem u hu)).2.1⟩

def idleResync : List Call :=
  [.sourceAdd [97] 1 1 true true, .sourceAdd [98] 1 2 true true, .promote 0,
    .publish 0 (videoFrame true false 100) 10, .sourceRemove 0,
    .resync 0 MediaFeed.resyncKeyframe, .promote 1,
    .publish 1 (videoFrame true false 700) 20, .read 0 8 0 30]

theorem silent_splice_after_removal :
    (readWrites (run (start smallFeed selectorAuto) idleResync).stream
      ((run (start smallFeed selectorAuto) idleResync).consumers 0)).map Write.source = [0, 1] ∧
    ¬ Meets step ResyncCurrent (start smallFeed selectorAuto) idleResync := by
  refine ⟨by decide, ?_⟩
  rintro ⟨-, -, -, -, -, hresync, -⟩
  exact absurd (hresync rfl (by decide)) (by decide)

/-- A switch with a cached keyframe, and a consumer that resynchronises to it. -/
theorem no_silent_splice_takeover :
    ((run (start smallFeed selectorAuto) (takeover ++
      [.promote 1, .resync 0 MediaFeed.resyncKeyframe, .read 0 8 0 30])).consumers 0).got.length =
        1 ∧
    ∃ r, ∀ w ∈ readWrites (run (start smallFeed selectorAuto) (takeover ++
        [.promote 1, .resync 0 MediaFeed.resyncKeyframe, .read 0 8 0 30])).stream
        ((run (start smallFeed selectorAuto) (takeover ++
          [.promote 1, .resync 0 MediaFeed.resyncKeyframe, .read 0 8 0 30])).consumers 0),
      w.source = r ∧ (r, w.frame) ∈ (run (start smallFeed selectorAuto) (takeover ++
        [.promote 1, .resync 0 MediaFeed.resyncKeyframe, .read 0 8 0 30])).stream.published := by
  refine ⟨by decide, ?_⟩
  refine (no_silent_splice smallFeed_init selectorAuto _ ?_ 0).2
  exact ⟨trivial, trivial, trivial, trivial, trivial, trivial, fun _ _ => rfl, trivial, trivial⟩

def Opens (f : Frame) : Prop := f.mediaType = .video ∧ f.keyframe = true ∧ f.config = false

def FirstWrite (s : Stream) (w : Write) : Prop :=
  ∃ j : ℕ, s.writes[j]? = some w ∧ ∀ k < j, ∀ u : Write,
    s.writes[k]? = some u → u.activation ≠ w.activation

section Decodable

-- the sources that carry a video track
variable (V : ℕ → Prop)

def CacheClean (s : Stream) (r : ℕ) : Prop :=
  V r → ∀ f, (s.source r).preroll.frames.head? = some f → f.mediaType = .video ∧ f.config = false

def SyncClean (s : Stream) (r : ℕ) (frame : Frame) : Prop :=
  V r →
    (frame.mediaType = .video ∧ frame.config = false ∧
      frame.size ≤ (s.source r).preroll.maxBytes) ∨
    (frame.mediaType ≠ .video ∧ 0 < (s.source r).preroll.head ∧
      MediaPreroll.Fits (s.source r).preroll frame ∧ CacheClean V s r)

def SwitchClean (s : Stream) : Call → Prop
  | .publish r frame _ =>
    (usable s r = true → s.active = some r → Drained s → ∀ q ∈ s.sources,
      resolvable (s.source q) = true → CacheClean V s q) ∧
    (usable s r = true → (s.source r).state = .awaitingSync → frame.keyframe = true →
      Drained s → SyncClean V s r frame)
  | .promote r => usable s r = true → s.active ≠ some r →
      (s.source r).preroll.ready = true → Drained s → CacheClean V s r
  | .switchResolve => Drained s → ∀ q ∈ s.sources, resolvable (s.source q) = true →
      CacheClean V s q
  | .selectorRun now => ∀ r, runTarget s now = some r → (s.source r).preroll.ready = true →
      Drained s → CacheClean V s r
  | .selectorSwitchback now => ∀ r, switchbackTarget s now = some r →
      (s.source r).preroll.ready = true → Drained s → CacheClean V s r
  | _ => True

def CacheOpens (s : Stream) (r : ℕ) : Prop :=
  V r → ∃ f, (s.source r).preroll.frames.head? = some f ∧ Opens f

variable {V}

theorem CacheClean.opens {s : Stream} (hi : Inv s) {r : ℕ} (hc : CacheClean V s r)
    (hready : (s.source r).preroll.ready = true) : OnCache (CacheOpens V) s r := by
  intro t ht hv
  rw [ht]
  have hne := ((hi.prerolls r).ready_iff).mp hready
  obtain ⟨f, rest, hfr⟩ := List.exists_cons_of_ne_nil hne
  have hhead : (s.source r).preroll.frames.head? = some f := by rw [hfr]; rfl
  obtain ⟨hvideo, hconfig⟩ := hc hv f hhead
  exact ⟨f, hhead, hvideo, (hi.prerolls r).head_keyframe hhead hvideo, hconfig⟩

theorem cachedFrame_preroll (s : Stream) (r : ℕ) (frame : Frame) (now : ℕ) :
    ((cachedFrame s r frame now).source r).preroll =
      (MediaPreroll.push (s.source r).preroll (s.source r).hasVideo frame).1 := by
  simp [cachedFrame, recorded, alter, arrived]

theorem SyncClean.opens {s : Stream} (hi : Inv s) {r : ℕ} {frame : Frame}
    (hc : SyncClean V s r frame) (hk : frame.keyframe = true) (now : ℕ) :
    OnCache (CacheOpens V) (cachedFrame s r frame now) r := by
  intro t ht hv
  rw [ht, cachedFrame_preroll]
  have hp := hi.prerolls r
  rcases hc hv with ⟨hvideo, hconfig, hsize⟩ | ⟨hother, hopen, hfit, hclean⟩
  · rw [hp.push_keyframe _ hvideo hk hsize]
    exact ⟨frame, rfl, hvideo, hk, hconfig⟩
  · rw [hp.push_append _ (fun hvideo => absurd hvideo hother) hopen hfit]
    have hready : (s.source r).preroll.ready = true :=
      hp.ready_iff.mpr fun hnil => by have := hp.frames_nil_iff.mp hnil; omega
    obtain ⟨f, hhead, hf⟩ := CacheClean.opens hi hclean hready s rfl hv
    refine ⟨f, ?_, hf⟩
    rw [List.head?_append, hhead]
    rfl

theorem SwitchClean.permits {s : Stream} (hi : Inv s) {call : Call}
    (hc : SwitchClean V s call) : Permits (CacheOpens V) s call := by
  have hready : ∀ q, resolvable (s.source q) = true → (s.source q).preroll.ready = true := by
    intro q hq
    simp only [resolvable, Bool.and_eq_true] at hq
    exact hq.2
  cases call with
  | publish r frame now =>
    refine ⟨fun hu ha hd q hq hres => ?_, fun hu hst hk hd => ?_⟩
    · exact (hc.1 hu ha hd q hq hres).opens hi (hready q hres)
    · exact (hc.2 hu hst hk hd).opens hi hk now
  | promote r => exact fun hu ha hr hd => (hc hu ha hr hd).opens hi hr
  | switchResolve => exact fun hd q hq hres => (hc hd q hq hres).opens hi (hready q hres)
  | selectorRun now => exact fun r ht hr hd => (hc r ht hr hd).opens hi hr
  | selectorSwitchback now => exact fun r ht hr hd => (hc r ht hr hd).opens hi hr
  | _ => trivial

structure FirstOk (V : ℕ → Prop) (s : Stream) : Prop where
  first : ∀ w, FirstWrite s w → V w.source → Opens w.frame
  begun : ∀ a, s.active = some a → V a → ∃ w ∈ s.writes, w.activation = s.activations

theorem FirstOk.of_eq {s t : Stream} (h : FirstOk V s) (hw : t.writes = s.writes)
    (ha : ∀ a, t.active = some a → s.active = some a) (hn : t.activations = s.activations) :
    FirstOk V t := by
  refine ⟨fun w hfirst => ?_, fun a hact hv => ?_⟩
  · rw [FirstWrite, hw] at hfirst
    exact h.first w hfirst
  · rw [hw, hn]
    exact h.begun a (ha a hact) hv

theorem firstWrite_grown {s t : Stream} {ws : List Write} (hw : t.writes = s.writes ++ ws)
    {w : Write} (hfirst : FirstWrite t w) :
    FirstWrite s w ∨ ((∀ u ∈ s.writes, u.activation ≠ w.activation) ∧
      ∃ k : ℕ, ws[k]? = some w ∧ ∀ l < k, ∀ u : Write, ws[l]? = some u →
        u.activation ≠ w.activation) := by
  obtain ⟨j, hj, hbefore⟩ := hfirst
  rw [hw] at hj hbefore
  by_cases hlt : j < s.writes.length
  · rw [List.getElem?_append_left hlt] at hj
    refine Or.inl ⟨j, hj, fun k hk u hu => hbefore k hk u ?_⟩
    rwa [List.getElem?_append_left (by omega)]
  · rw [List.getElem?_append_right (by omega)] at hj
    refine Or.inr ⟨fun u hu => ?_, j - s.writes.length, hj, fun l hl u hu => ?_⟩
    · obtain ⟨k, hk, rfl⟩ := List.getElem_of_mem hu
      refine hbefore k (by omega) _ ?_
      rw [List.getElem?_append_left hk, List.getElem?_eq_getElem hk]
    · refine hbefore (s.writes.length + l) (by omega) u ?_
      rwa [List.getElem?_append_right (by omega), Nat.add_sub_cancel_left]

theorem FirstOk.after_write {s : Stream} (hi : Inv s) (h : FirstOk V s) {r : ℕ}
    (ha : s.active = some r) (frame : Frame) (now : ℕ) :
    FirstOk V (writeProgram s r frame now).1 := by
  have hw := (hi.writeProgram_wrote r frame now).1
  refine ⟨fun w hfirst hv => ?_, fun a hact hv => ?_⟩
  · rcases firstWrite_grown hw.writes hfirst with hold | ⟨hnone, k, hk, _⟩
    · exact h.first w hold hv
    · -- the activation has written already, so this is not its first unit
      obtain rfl : written s r frame now = w := by
        rcases k with _ | k
        · simpa using hk
        · simp at hk
      obtain ⟨u, hu, hact⟩ := h.begun r ha hv
      exact absurd hact (hnone u hu)
  · rw [hw.active] at hact
    obtain ⟨u, hu, hactu⟩ := h.begun a hact hv
    rw [hw.activations, hw.writes]
    exact ⟨u, List.mem_append_left _ hu, hactu⟩

theorem FirstOk.after_activate {s : Stream} (hi : Inv s) (h : FirstOk V s) {r : ℕ}
    (ha : s.active = none) (hr : r ∈ s.sources) (now : ℕ) (hP : CacheOpens V s r) :
    FirstOk V (activate s r now) := by
  have hact := hi.activated ha hr now
  obtain ⟨ws, hws, hfr, hall⟩ := hact.writes
  -- the first unit of the cache is the first write
  have hhead : V r → ∃ w rest, ws = w :: rest ∧ Opens w.frame := by
    intro hv
    obtain ⟨f, hf, hopen⟩ := hP hv
    rcases ws with _ | ⟨w, rest⟩
    · rw [← hfr] at hf
      simp at hf
    · rw [← hfr] at hf
      simp only [List.map_cons, List.head?_cons, Option.some.injEq] at hf
      exact ⟨w, rest, rfl, hf ▸ hopen⟩
  refine ⟨fun w hfirst hv => ?_, fun a hsome hv => ?_⟩
  · rcases firstWrite_grown hws hfirst with hold | ⟨_, k, hk, hbefore⟩
    · exact h.first w hold hv
    · have hmem := List.mem_of_getElem? hk
      rw [(hall w hmem).1] at hv
      obtain ⟨v, rest, rfl, hopen⟩ := hhead hv
      rcases k with _ | k
      · obtain rfl : v = w := by simpa using hk
        exact hopen
      · have hne := hbefore 0 (by omega) v (by simp)
        rw [(hall v List.mem_cons_self).2.1, (hall w hmem).2.1] at hne
        exact absurd rfl hne
  · rw [hact.active] at hsome
    obtain rfl := Option.some.inj hsome
    obtain ⟨v, rest, rfl, _⟩ := hhead hv
    rw [hws, hact.activations]
    exact ⟨v, List.mem_append_right _ List.mem_cons_self, (hall v List.mem_cons_self).2.1⟩

theorem FirstOk.after_move {s t : Stream} (hi : Inv s) (h : FirstOk V s)
    (m : Move (CacheOpens V) s t) : FirstOk V t := by
  cases m with
  | quiet hs => exact h.of_eq hs.writes (fun a ha => hs.active ▸ ha) hs.activations
  | add => exact h.of_eq rfl (fun _ ha => ha) rfl
  | note => exact h.of_eq rfl (fun _ ha => ha) rfl
  | cache => exact h.of_eq rfl (fun _ ha => ha) rfl
  | await => exact h.of_eq rfl (fun _ ha => ha) rfl
  | vacate => exact h.of_eq rfl (fun _ ha => by simp [vacate, splice] at ha) rfl
  | unlist => exact h.of_eq rfl (fun _ ha => ha) rfl
  | write r frame now ha _ => exact h.after_write hi ha frame now
  | activate r now ha hr hP => exact h.after_activate hi ha hr now hP

theorem FirstOk.after_moves {s t : Stream} (hi : Inv s) (h : FirstOk V s)
    (m : Moves (CacheOpens V) s t) : FirstOk V t := by
  induction m with
  | refl => exact h
  | tail hm m ih => exact ih.after_move (Moves.inv hm hi) m

/-- In every run without an unclean switch, a source that carries video enters the program
with a video keyframe, ahead of any audio, configuration or delta frame of it. -/
theorem decodable_switch {conf : MediaFeed.Conf} {allocated : Bool} {feed : MediaFeed.Feed}
    (h : MediaFeed.init conf allocated = some feed) (selector : SelectorConf)
    (calls : List Call)
    (hok : Meets step (fun p call => SwitchClean V p.stream call) (start feed selector) calls) :
    ∀ w, FirstWrite (run (start feed selector) calls).stream w → V w.source →
      Opens w.frame := by
  have hinv : Inv (run (start feed selector) calls).stream ∧
      FirstOk V (run (start feed selector) calls).stream := by
    refine StepRun.invariant_of_meets (I := fun p : Program => Inv p.stream ∧ FirstOk V p.stream)
      (fun p call hp hc => ?_) ⟨start_inv h selector, ?_⟩ hok
    · have hm := streamStep_moves hp.1 call (hc.permits hp.1)
      exact ⟨hm.inv hp.1, hp.2.after_moves hp.1 hm⟩
    · refine ⟨fun w ⟨j, hj, _⟩ => ?_, fun a ha => ?_⟩
      · simp [start, MediaStream.init] at hj
      · simp [start, MediaStream.init] at ha
  exact hinv.2.first

end Decodable

/-- Both activations of a take-over between two video sources are clean. -/
theorem decodable_switch_takeover :
    (run (start smallFeed selectorAuto) (takeover ++ [.promote 1])).stream.activations = 2 ∧
    ∀ w, FirstWrite (run (start smallFeed selectorAuto) (takeover ++ [.promote 1])).stream w →
      Opens w.frame := by
  refine ⟨rfl, fun w hw => ?_⟩
  refine decodable_switch (V := fun _ => True) smallFeed_init selectorAuto _ ?_ w hw trivial
  refine ⟨trivial, trivial, fun _ _ hready => ?_, ⟨fun _ ha => ?_, fun _ _ _ _ _ => ?_⟩,
    ⟨fun _ ha => ?_, fun _ hst => ?_⟩, fun _ _ _ _ _ f hf => ?_, trivial⟩
  · exact absurd hready (by decide)
  · exact absurd ha (by decide)
  · exact Or.inl ⟨rfl, rfl, by decide⟩
  · exact absurd ha (by decide)
  · exact absurd hst (by decide)
  · obtain rfl := Option.some.inj hf
    exact ⟨rfl, rfl⟩

def videoTrack : Track := ⟨.video, .h264, .annexb, 0, 0, 0, 0, 0, 0, 0, 0, none⟩

def audioTrack : Track := ⟨.audio, .aac, .adts, 0, 0, 0, 0, 0, 0, 48000, 2, none⟩

def carriesVideo (src : Source) : Bool :=
  src.tracks.any fun tracks => tracks.any fun t => decide (t.mediaType = .video)

def audioSync : List Call :=
  [.sourceAdd [97] 1 1 true true, .observe 0 .hasVideo,
    .observe 0 (.tracks [videoTrack, audioTrack]), .promote 0,
    .publish 0 (audioFrame 100) 10, .publish 0 (videoFrame false false 200) 20]

theorem undecodable_switch :
    ∃ w, FirstWrite (run (start smallFeed selectorAuto) audioSync).stream w ∧
      carriesVideo ((run (start smallFeed selectorAuto) audioSync).stream.source w.source) ∧
      w.frame.mediaType = .video ∧ w.frame.keyframe = false := by
  refine ⟨_, ⟨0, rfl, fun k hk => absurd hk (Nat.not_lt_zero k)⟩, ?_, ?_, ?_⟩ <;> decide

end MediaProgram
