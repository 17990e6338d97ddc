import NginxMedia.MediaProgram

/-! What the operations of a stream leave alone. Only a publish call puts frames on record, and
while the active source stays only its publish calls move the timeline. -/
namespace StreamSteady

open MediaTypes MediaStream StreamMoves MediaProgram

structure Steady (s t : Stream) : Prop where
  published : t.published = s.published
  generation_le : s.feed.generation ≤ t.feed.generation
  same : t.feed.generation = s.feed.generation → s.active ≠ none →
    t.active = s.active ∧ t.timeline = s.timeline ∧ t.writes = s.writes

theorem Steady.of_eq {s t : Stream} (hp : t.published = s.published)
    (hg : t.feed.generation = s.feed.generation) (ha : t.active = s.active)
    (ht : t.timeline = s.timeline) (hw : t.writes = s.writes) : Steady s t :=
  ⟨hp, hg.ge, fun _ _ => ⟨ha, ht, hw⟩⟩

theorem Steady.refl (s : Stream) : Steady s s := Steady.of_eq rfl rfl rfl rfl rfl

theorem Steady.trans {s t u : Stream} (h : Steady s t) (k : Steady t u) : Steady s u := by
  have hg := h.generation_le
  have kg := k.generation_le
  refine ⟨k.published.trans h.published, hg.trans kg, fun he hsome => ?_⟩
  obtain ⟨ha, ht, hw⟩ := h.same (by omega) hsome
  obtain ⟨ka, kt, kw⟩ := k.same (by omega) (by rw [ha]; exact hsome)
  exact ⟨ka.trans ha, kt.trans ht, kw.trans hw⟩

theorem Steady.of_idle {s t : Stream} (hp : t.published = s.published)
    (hg : s.feed.generation ≤ t.feed.generation) (ha : s.active = none) : Steady s t :=
  ⟨hp, hg, fun _ hsome => absurd ha hsome⟩

theorem Steady.of_next {s t : Stream} (hp : t.published = s.published)
    (hg : s.feed.generation < t.feed.generation) : Steady s t :=
  ⟨hp, hg.le, fun he _ => absurd he hg.ne'⟩

theorem steady_alter (s : Stream) (r : ℕ) (f : Source → Source) : Steady s (alter s r f) :=
  Steady.of_eq rfl rfl rfl rfl rfl

theorem steady_foldl {α : Type*} {f : Stream → α → Stream} (hf : ∀ s a, Steady s (f s a))
    (as : List α) (s : Stream) : Steady s (as.foldl f s) := by
  induction as generalizing s with
  | nil => exact Steady.refl s
  | cons a rest ih => exact (hf s a).trans (ih (f s a))

theorem writeProgram_kept (s : Stream) (r : ℕ) (frame : Frame) (now : ℕ) :
    (writeProgram s r frame now).1.published = s.published ∧
      (writeProgram s r frame now).1.feed.generation = s.feed.generation := by
  have hgen := publish_generation s.feed { frame with
    pts := (MediaTimeline.map s.timeline frame.pts frame.dts).2.1
    dts := (MediaTimeline.map s.timeline frame.pts frame.dts).2.2 } now
  unfold writeProgram
  dsimp only
  rcases hp : MediaFeed.publish s.feed { frame with
    pts := (MediaTimeline.map s.timeline frame.pts frame.dts).2.1
    dts := (MediaTimeline.map s.timeline frame.pts frame.dts).2.2 } now with ⟨feed, rc⟩
  rw [hp] at hgen
  cases rc <;> exact ⟨rfl, hgen⟩

theorem replay_kept (s : Stream) (r now : ℕ) (frames : List Frame) :
    (replay s r now frames).published = s.published ∧
      (replay s r now frames).feed.generation = s.feed.generation := by
  induction frames generalizing s with
  | nil => exact ⟨rfl, rfl⟩
  | cons frame rest ih =>
    obtain ⟨hp, hg⟩ := writeProgram_kept s r frame now
    obtain ⟨kp, kg⟩ := ih (writeProgram s r frame now).1
    exact ⟨kp.trans hp, kg.trans hg⟩

theorem activate_kept (s : Stream) (r now : ℕ) :
    (activate s r now).published = s.published ∧
      (activate s r now).feed.generation = s.feed.generation := by
  unfold activate
  exact replay_kept _ r now _

theorem switchNow_steady (s : Stream) (r now : ℕ) : Steady s (switchNow s r now).1 := by
  unfold switchNow
  cases ha : s.active with
  | none =>
    obtain ⟨hp, hg⟩ := activate_kept s r now
    exact Steady.of_idle hp hg.ge ha
  | some old =>
    dsimp only
    split_ifs
    · exact Steady.of_eq rfl rfl rfl rfl rfl
    · exact Steady.refl s
    · obtain ⟨hp, hg⟩ := activate_kept (demote s old) r now
      have hnext : s.feed.generation < (demote s old).feed.generation :=
        Nat.lt_succ_self s.feed.generation
      exact Steady.of_next (hp.trans rfl) (hnext.trans_eq hg.symm)

theorem switchResolve_steady (s : Stream) : Steady s (switchResolve s) := by
  apply steady_foldl
  intro s r
  unfold resolveOne
  split_ifs
  · exact switchNow_steady s r _
  · exact Steady.refl s

theorem promote_steady (s : Stream) (r : ℕ) : Steady s (promote s r).1 := by
  unfold promote
  split_ifs
  · exact Steady.of_eq rfl rfl rfl rfl rfl
  · dsimp only
    split_ifs
    · exact (steady_alter s r Source.awaiting).trans (switchNow_steady _ r _)
    · exact steady_alter s r _
  · exact Steady.refl s

theorem sourceRemove_steady (s : Stream) (r : ℕ) : Steady s (sourceRemove s r) := by
  unfold sourceRemove
  split_ifs
  · dsimp only
    split_ifs
    · apply Steady.of_next
      · rfl
      · exact Nat.lt_succ_self s.feed.generation
    · exact Steady.of_eq rfl rfl rfl rfl rfl
  · exact Steady.refl s

theorem retire_steady {s : Stream} (h : Inv s) : Steady s (retire s) := by
  have hlater := (retire_moves (P := fun _ _ => True) h).later h
  have hfold := steady_foldl sourceRemove_steady s.sources { s with running := false }
  refine ⟨hfold.published, hfold.generation_le, fun he hsome => ?_⟩
  obtain ⟨a, ha⟩ := Option.ne_none_iff_exists'.mp hsome
  have hnone := hlater.active_eq he a ha
  cases hnone

theorem evaluateOne_steady (program : Option TrackSet) (now : ℕ) (acc : Stream × SelectorResult)
    (r : ℕ) : Steady acc.1 (evaluateOne program now acc r).1 := by
  unfold evaluateOne
  dsimp only
  split_ifs <;> exact steady_alter _ r _

theorem selectorEvaluate_steady (s : Stream) (now : ℕ) : Steady s (selectorEvaluate s now).1 := by
  have hfold : ∀ (program : Option TrackSet) (refs : List ℕ) (acc : Stream × SelectorResult),
      Steady acc.1 (refs.foldl (evaluateOne program now) acc).1 := by
    intro program refs
    induction refs with
    | nil => exact fun acc => Steady.refl acc.1
    | cons r rest ih =>
      intro acc
      exact (evaluateOne_steady program now acc r).trans (ih _)
  exact hfold _ s.sources (s, ⟨none, none, 0, true⟩)

theorem failover_steady (s : Stream) (res : SelectorResult) : Steady s (failover s res).1 := by
  unfold failover
  split
  · exact promote_steady s _
  · split
    · have hcount : Steady s { s with emergencySwitches := s.emergencySwitches + 1 } :=
        Steady.of_eq rfl rfl rfl rfl rfl
      exact hcount.trans (promote_steady _ _)
    · exact Steady.refl s

theorem selectorRun_steady (s : Stream) (now : ℕ) : Steady s (selectorRun s now).1 := by
  have heval := selectorEvaluate_steady s now
  unfold selectorRun
  dsimp only
  split
  · exact heval.trans (failover_steady _ _)
  · split_ifs
    · split
      · split_ifs
        · exact heval.trans (promote_steady _ _)
        · exact heval
      · exact heval
    · exact heval.trans (failover_steady _ _)

theorem selectorSwitchback_steady (s : Stream) (now : ℕ) :
    Steady s (selectorSwitchback s now).1 := by
  have heval := selectorEvaluate_steady s now
  unfold selectorSwitchback
  split_ifs
  · exact Steady.refl s
  · dsimp only
    split
    · exact heval
    · split
      · split_ifs
        · exact heval
        · exact heval.trans (promote_steady _ _)
      · exact heval.trans (promote_steady _ _)

theorem sourceAdd_steady (s : Stream) (id : List UInt8) (type priority : ℕ)
    (admitted allocated : Bool) : Steady s (sourceAdd s id type priority admitted allocated).1 := by
  unfold sourceAdd
  split_ifs
  · exact Steady.refl s
  · exact Steady.refl s
  · exact Steady.refl s
  · split
    · exact Steady.refl s
    · exact Steady.of_eq rfl rfl rfl rfl rfl

theorem leaseBegin_steady (s : Stream) (r : ℕ) : Steady s (leaseBegin s r).1 := by
  unfold leaseBegin
  split_ifs
  · exact Steady.of_eq rfl rfl rfl rfl rfl
  · exact Steady.refl s

theorem leaseEnd_steady (s : Stream) (r : ℕ) : Steady s (leaseEnd s r) := by
  unfold leaseEnd
  split_ifs
  · exact Steady.of_eq rfl rfl rfl rfl rfl
  · exact Steady.refl s

theorem read_feed_generation (feed : MediaFeed.Feed) (cursor : MediaFeed.Cursor)
    (maxUnits maxBytes now : ℕ) :
    (MediaFeed.read feed cursor maxUnits maxBytes now).feed.generation = feed.generation := by
  simp only [MediaFeed.read]
  split_ifs <;> rfl

theorem read_steady (s : Stream) (cursor : MediaFeed.Cursor) (maxUnits maxBytes now : ℕ) :
    Steady s { s with feed := (MediaFeed.read s.feed cursor maxUnits maxBytes now).feed } :=
  Steady.of_eq rfl (read_feed_generation s.feed cursor maxUnits maxBytes now) rfl rfl rfl

theorem publish_idle {s : Stream} (h : Inv s) {r : ℕ} (hu : usable s r = true)
    (ha : s.active ≠ some r) (frame : Frame) (now : ℕ) :
    Steady (recorded s r frame now) (publish s r frame now).1 := by
  have hcache : Steady (recorded s r frame now) (cachedFrame s r frame now) := steady_alter _ r _
  rw [publish_standby hu fun hact => ha ((h.state_iff r).mp hact)]
  split_ifs
  · exact hcache.trans (switchNow_steady _ r now)
  · exact hcache

structure Live (s t : Stream) (r : ℕ) (frame : Frame) (now : ℕ) : Prop where
  published : t.published = s.published ++ [(r, frame)]
  active : t.active = s.active
  generation : t.feed.generation = s.feed.generation
  timeline : t.timeline = (MediaTimeline.map s.timeline frame.pts frame.dts).1
  writes : t.writes = s.writes ++ [written s r frame now]

theorem Inv.liveFrame {s : Stream} (h : Inv s) (r : ℕ) (frame : Frame) (now : ℕ) :
    Live s (liveFrame s r frame now) r frame now := by
  have hbegin := leaseBegin_same (recorded s r frame now) r
  have hinv : Inv (leaseBegin (recorded s r frame now) r).1 :=
    hbegin.inv (Moves.inv (recorded_moves (P := fun _ _ => True) r frame now) h)
  have htime : (leaseBegin (recorded s r frame now) r).1.timeline = s.timeline := by
    unfold leaseBegin
    split_ifs <;> rfl
  have hwrote := (hinv.writeProgram_wrote r frame now).1
  have hend := leaseEnd_same (writeProgram (leaseBegin (recorded s r frame now) r).1 r frame now).1 r
  have hwritten : written (leaseBegin (recorded s r frame now) r).1 r frame now =
      written s r frame now := by
    simp only [written, htime, hbegin.active, hbegin.generation, hbegin.activations]
    rfl
  constructor
  · exact hend.published.trans (hwrote.published.trans hbegin.published)
  · exact hend.active.trans (hwrote.active.trans hbegin.active)
  · exact hend.generation.trans (hwrote.generation.trans hbegin.generation)
  · have hmap : (writeProgram (leaseBegin (recorded s r frame now) r).1 r frame now).1.timeline =
        (MediaTimeline.map s.timeline frame.pts frame.dts).1 := by
      unfold writeProgram
      rw [htime]
      dsimp only
      split <;> rfl
    rw [← hmap]
    unfold StreamMoves.liveFrame leaseEnd
    split_ifs <;> rfl
  · rw [StreamMoves.liveFrame, hend.writes, hwrote.writes, hwritten, hbegin.writes]
    rfl

theorem publish_refused {s : Stream} {r : ℕ} (hu : usable s r ≠ true) (frame : Frame) (now : ℕ) :
    (publish s r frame now).1 = s := by
  unfold publish
  rw [if_neg hu]

def accepted (p : Program) : Call → List (ℕ × Frame)
  | .publish r frame _ => if usable p.stream r then [(r, frame)] else []
  | _ => []

theorem publish_published {s : Stream} (h : Inv s) {r : ℕ} (hu : usable s r = true) (frame : Frame)
    (now : ℕ) : (publish s r frame now).1.published = s.published ++ [(r, frame)] := by
  by_cases ha : s.active = some r
  · rw [publish_live hu ((h.state_iff r).mpr ha)]
    exact (switchResolve_steady _).published.trans (Inv.liveFrame h r frame now).published
  · exact (publish_idle h hu ha frame now).published

theorem quiet_steady {p : Program} (h : Inv p.stream) {call : Call} (hcall : accepted p call = []) :
    Steady p.stream (step p call).stream := by
  cases call with
  | sourceAdd id type priority admitted allocated => exact sourceAdd_steady _ _ _ _ _ _
  | sourceRemove r => exact sourceRemove_steady _ r
  | retire => exact retire_steady h
  | leaseBegin r => exact leaseBegin_steady _ r
  | leaseEnd r => exact leaseEnd_steady _ r
  | publish r frame now =>
    have hu : usable p.stream r ≠ true := by
      intro hu
      simp [accepted, hu] at hcall
    simp only [step, streamStep]
    rw [publish_refused hu]
    exact Steady.refl _
  | promote r => exact promote_steady _ r
  | switchResolve => exact switchResolve_steady _
  | selectorRun now => exact selectorRun_steady _ now
  | selectorSwitchback now => exact selectorSwitchback_steady _ now
  | observe r o => exact Steady.of_eq rfl rfl rfl rfl rfl
  | read i maxUnits maxBytes now => exact read_steady _ _ _ _ _
  | cursorInit i => exact Steady.refl _
  | resync i mode => exact Steady.refl _

theorem step_published {p : Program} (h : Inv p.stream) (call : Call) :
    (step p call).stream.published = p.stream.published ++ accepted p call := by
  by_cases hcall : accepted p call = []
  · rw [hcall, List.append_nil]
    exact (quiet_steady h hcall).published
  · cases call with
    | publish r frame now =>
      have hu : usable p.stream r = true := by
        by_contra hu
        simp [accepted, hu] at hcall
      simp only [accepted, hu, if_true]
      exact publish_published h hu frame now
    | _ => exact absurd rfl hcall

end StreamSteady
