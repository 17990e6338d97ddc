import NginxMedia.MediaPromotion

/-! What `emergency_switches` counts. A run remembers whose promotion an emergency asked for last,
and how many of these promotions have changed the active source. -/
namespace EmergencyCount

open MediaTypes MediaStream StreamMoves MediaProgram MediaPromotion StepRun

/-- `ngx_media_selector_run()` found no compatible source and promotes another one. -/
def urgent (s : Stream) (now : ℕ) : Bool :=
  (selectorEvaluate s now).2.best.isNone && (runTarget s now).isSome

def isEmergency (s : Stream) : Call → Bool
  | .selectorRun now => urgent s now
  | _ => false

/-- The sources that become active while `ngx_media_stream_switch_resolve()` passes over these. -/
def resolved : List ℕ → Stream → List ℕ
  | [], _ => []
  | r :: rest, s =>
    let later := resolved rest (resolveOne s r)
    if s.activations < (resolveOne s r).activations then r :: later else later

/-- The sources that become active in a step, one after the other. -/
def activated (p : Program) (call : Call) : List ℕ :=
  let moved := decide (p.stream.activations < (streamStep p call).activations)
  match call with
  | .switchResolve => resolved p.stream.sources p.stream
  | .publish r frame now =>
    if usable p.stream r && decide ((p.stream.source r).state = .active) then
      resolved (liveFrame p.stream r frame now).sources (liveFrame p.stream r frame now)
    else if moved then [r] else []
  | _ => if moved then (promoted p.stream call).toList else []

structure Counted where
  program : Program
  asked : ℕ → Bool
  effective : ℕ

def asks (m : Counted) (call : Call) : ℕ → Bool :=
  match promoted m.program.stream call with
  | some r => Function.update m.asked r (isEmergency m.program.stream call)
  | none => m.asked

def count (m : Counted) (call : Call) : Counted :=
  let changes := activated m.program call
  { program := step m.program call
    asked := fun r => asks m call r && decide (r ∉ changes)
    effective := m.effective + changes.countP (asks m call) }

def counted (feed : MediaFeed.Feed) (selector : SelectorConf) : Counted :=
  ⟨start feed selector, fun _ => false, 0⟩

/-- The counter says how many emergency failovers have taken effect. -/
def Exact (m : Counted) : Prop := m.program.stream.emergencySwitches = m.effective

/-- A source that a promotion puts on the air at once: it holds a decodable boundary, and no
writer is at work for the active one. -/
def TakesOver (s : Stream) (r : ℕ) : Prop :=
  usable s r = true ∧ s.active ≠ some r ∧ (s.source r).preroll.ready = true ∧ Drained s

def AtOnce (m : Counted) : Call → Prop
  | .selectorRun now => urgent m.program.stream now = true →
    ∀ r ∈ runTarget m.program.stream now, TakesOver m.program.stream r
  | _ => True

def tallies (s : Stream) : ℕ × ℕ := (s.emergencySwitches, s.activations)

variable {s : Stream} {r : ℕ} {m : Counted} {call : Call}

theorem writeProgram_tallies (s : Stream) (r : ℕ) (frame : Frame) (now : ℕ) :
    tallies (writeProgram s r frame now).1 = tallies s := by
  unfold writeProgram
  dsimp only
  split <;> rfl

theorem activate_tallies (s : Stream) (r now : ℕ) :
    tallies (activate s r now) = (s.emergencySwitches, s.activations + 1) :=
  invariant (I := fun t => tallies t = (s.emergencySwitches, s.activations + 1))
    (fun t frame h => (writeProgram_tallies t r frame now).trans h) rfl _

theorem switchNow_tallies (s : Stream) (r now : ℕ) :
    tallies (switchNow s r now).1 = (s.emergencySwitches, s.activations + 1) ∧
        s.active ≠ some r ∧ Drained s ∨
      tallies (switchNow s r now).1 = tallies s ∧ ¬ (s.active ≠ some r ∧ Drained s) := by
  by_cases hne : s.active ≠ some r
  · by_cases hd : Drained s
    · refine Or.inl ⟨?_, hne, hd⟩
      unfold switchNow
      cases ha : s.active with
      | none => exact activate_tallies s r now
      | some old =>
        have hold : old ≠ r := fun h => hne (h ▸ ha)
        dsimp only
        rw [if_neg hold, if_neg (by rw [hd old ha]; exact Nat.lt_irrefl 0)]
        exact activate_tallies _ r now
    · exact Or.inr ⟨by rw [switchNow_not_drained hd hne], fun h => hd h.2⟩
  · refine Or.inr ⟨?_, fun h => hne h.1⟩
    unfold switchNow
    rw [not_not.mp hne]
    dsimp only
    rw [if_pos rfl]
    rfl

theorem switchNow_count (s : Stream) (r now : ℕ) :
    (switchNow s r now).1.emergencySwitches = s.emergencySwitches := by
  rcases switchNow_tallies s r now with ⟨h, -⟩ | ⟨h, -⟩ <;> exact congrArg Prod.fst h

theorem switchResolve_count (s : Stream) :
    (switchResolve s).emergencySwitches = s.emergencySwitches := by
  refine invariant (I := fun t : Stream => t.emergencySwitches = s.emergencySwitches)
    (fun t r h => ?_) rfl s.sources
  unfold resolveOne
  split_ifs
  · exact (switchNow_count t r _).trans h
  · exact h

theorem promote_tallies (s : Stream) (r : ℕ) :
    tallies (promote s r).1 = (s.emergencySwitches, s.activations + 1) ∧ TakesOver s r ∨
      tallies (promote s r).1 = tallies s ∧ ¬ TakesOver s r := by
  unfold promote
  by_cases hu : usable s r = true
  swap
  · rw [if_neg hu]
    exact Or.inr ⟨rfl, fun h => hu h.1⟩
  rw [if_pos hu]
  by_cases hact : s.active = some r
  · rw [if_pos hact]
    exact Or.inr ⟨rfl, fun h => h.2.1 hact⟩
  rw [if_neg hact]
  have hcell := congrArg Source.preroll (Function.update_self r (s.source r).awaiting s.source)
  have hcache : ((alter s r Source.awaiting).source r).preroll = (s.source r).preroll := hcell
  dsimp only
  rw [hcache]
  by_cases hready : (s.source r).preroll.ready = true
  · have hdrained : Drained (alter s r Source.awaiting) ↔ Drained s := by
      refine forall₂_congr fun a ha => ?_
      rw [alter_source_ne s (fun h : a = r => hact (h ▸ ha))]
    rw [if_pos hready]
    rcases switchNow_tallies (alter s r Source.awaiting) r
      ((alter s r Source.awaiting).source r).lastMedia with ⟨h, hne, hd⟩ | ⟨h, hnot⟩
    · exact Or.inl ⟨h, hu, hact, hready, hdrained.mp hd⟩
    · exact Or.inr ⟨h, fun h => hnot ⟨hact, hdrained.mpr h.2.2.2⟩⟩
  · rw [if_neg hready]
    exact Or.inr ⟨rfl, fun h => hready h.2.2.1⟩

theorem promote_count (s : Stream) (r : ℕ) :
    (promote s r).1.emergencySwitches = s.emergencySwitches := by
  rcases promote_tallies s r with ⟨h, -⟩ | ⟨h, -⟩ <;> exact congrArg Prod.fst h

theorem leaseBegin_count (s : Stream) (r : ℕ) :
    (leaseBegin s r).1.emergencySwitches = s.emergencySwitches := by
  unfold leaseBegin
  split_ifs <;> rfl

theorem leaseEnd_count (s : Stream) (r : ℕ) :
    (leaseEnd s r).emergencySwitches = s.emergencySwitches := by
  unfold leaseEnd
  split_ifs <;> rfl

theorem publish_count (s : Stream) (r : ℕ) (frame : Frame) (now : ℕ) :
    (publish s r frame now).1.emergencySwitches = s.emergencySwitches := by
  unfold publish
  split_ifs
  · dsimp only
    split_ifs
    · rw [switchResolve_count, leaseEnd_count]
      exact (congrArg Prod.fst (writeProgram_tallies _ r frame now)).trans (leaseBegin_count _ r)
    · exact switchNow_count _ r now
    · rfl
  · rfl

theorem sourceAdd_count (s : Stream) (id : List UInt8) (type priority : ℕ) (admitted mem : Bool) :
    (sourceAdd s id type priority admitted mem).1.emergencySwitches = s.emergencySwitches := by
  unfold sourceAdd
  split_ifs
  · rfl
  · rfl
  · rfl
  · split <;> rfl

theorem sourceRemove_count (s : Stream) (r : ℕ) :
    (sourceRemove s r).emergencySwitches = s.emergencySwitches := by
  unfold sourceRemove
  dsimp only
  split_ifs <;> rfl

theorem evaluated_kept (s : Stream) (now : ℕ) :
    (selectorEvaluate s now).1.emergencySwitches = s.emergencySwitches ∧
      (selectorEvaluate s now).1.running = s.running := by
  refine invariant (I := fun acc : Stream × SelectorResult =>
    acc.1.emergencySwitches = s.emergencySwitches ∧ acc.1.running = s.running)
    (fun acc r h => ?_) ⟨rfl, rfl⟩ s.sources
  unfold evaluateOne
  dsimp only
  split_ifs <;> exact h

def noted (urgent : Bool) (s : Stream) : Stream :=
  { s with emergencySwitches := s.emergencySwitches + urgent.toNat }

/-- The stream that `ngx_media_selector_run()` makes its promotion in. -/
def decided (s : Stream) (now : ℕ) : Stream := noted (urgent s now) (selectorEvaluate s now).1

theorem failover_noted (s : Stream) (res : SelectorResult) : (failover s res).1 =
    match res.best.or res.emergency with
    | some r => (promote (noted (res.best.isNone && (res.best.or res.emergency).isSome) s) r).1
    | none => s := by
  unfold failover
  cases res.best with
  | some best => rfl
  | none => cases res.emergency <;> rfl

theorem selectorRun_decided (s : Stream) (now : ℕ) : (selectorRun s now).1 =
    match runTarget s now with
    | some r => (promote (decided s now) r).1
    | none => (selectorEvaluate s now).1 := by
  unfold decided urgent runTarget selectorRun
  dsimp only
  cases ha : (selectorEvaluate s now).1.active with
  | none => exact failover_noted _ _
  | some a =>
    dsimp only
    by_cases helig : (selectorEvaluate s now).2.activeEligible = true
    · rw [if_pos helig, if_pos helig]
      cases (selectorEvaluate s now).2.best with
      | none => rfl
      | some best =>
        rw [Option.filter_some]
        dsimp only
        split_ifs with hprio hdecided hdecided
        · rfl
        · exact absurd (decide_eq_true hprio) hdecided
        · exact absurd (of_decide_eq_true hdecided) hprio
        · rfl
    · rw [if_neg helig, if_neg helig]
      exact failover_noted _ _

theorem decided_takesOver {now : ℕ} : TakesOver (decided s now) r ↔ TakesOver s r := by
  obtain ⟨hsame, hwriters⟩ := selectorEvaluate_same s now
  unfold TakesOver usable Drained decided noted
  dsimp only
  rw [hsame.fresh, (evaluated_kept s now).2, (hsame.cell r).pendingRemove, (hsame.cell r).preroll,
    hsame.active]
  simp only [hwriters]

theorem selectorRun_count (s : Stream) (now : ℕ) : (selectorRun s now).1.emergencySwitches =
    s.emergencySwitches + (urgent s now).toNat := by
  have hkept := (evaluated_kept s now).1
  rw [selectorRun_decided]
  cases htarget : runTarget s now with
  | some r => exact (promote_count _ r).trans (congrArg (· + _) hkept)
  | none =>
    rw [urgent, htarget, Option.isSome_none, Bool.and_false]
    exact hkept

theorem switchback_count (s : Stream) (now : ℕ) :
    (selectorSwitchback s now).1.emergencySwitches = s.emergencySwitches := by
  have hkept := (evaluated_kept s now).1
  unfold selectorSwitchback
  split_ifs
  · rfl
  · dsimp only
    split
    · exact hkept
    · split
      · split_ifs
        · exact hkept
        · exact (promote_count _ _).trans hkept
      · exact (promote_count _ _).trans hkept

theorem streamStep_count (p : Program) (call : Call) : (streamStep p call).emergencySwitches =
    p.stream.emergencySwitches + (isEmergency p.stream call).toNat := by
  cases call with
  | selectorRun now => exact selectorRun_count p.stream now
  | selectorSwitchback now => exact switchback_count p.stream now
  | publish r frame now => exact publish_count p.stream r frame now
  | promote r => exact promote_count p.stream r
  | switchResolve => exact switchResolve_count p.stream
  | sourceRemove r => exact sourceRemove_count p.stream r
  | retire =>
    exact invariant (I := fun t : Stream => t.emergencySwitches = p.stream.emergencySwitches)
      (fun t r h => (sourceRemove_count t r).trans h) (s := { p.stream with running := false })
      rfl p.stream.sources
  | leaseBegin r => exact leaseBegin_count p.stream r
  | leaseEnd r => exact leaseEnd_count p.stream r
  | sourceAdd id type priority admitted allocated => exact sourceAdd_count p.stream id _ _ _ _
  | observe | read | cursorInit | resync => rfl

/-- Nothing waits for an emergency, and the counter is exact. -/
structure Settled (m : Counted) : Prop where
  counter : Exact m
  asked : ∀ r, m.asked r = false

theorem count_quiet (h : Settled m) (hquiet : isEmergency m.program.stream call = false) :
    Settled (count m call) := by
  have hasks : ∀ r, asks m call r = false := by
    intro r
    unfold asks
    rw [hquiet]
    cases promoted m.program.stream call with
    | none => exact h.asked r
    | some q =>
      by_cases hr : r = q
      · rw [hr]
        exact Function.update_self q false m.asked
      · exact (Function.update_of_ne hr false m.asked).trans (h.asked r)
  refine ⟨?_, fun r => ?_⟩
  · change (streamStep m.program call).emergencySwitches = m.effective + _
    rw [streamStep_count, hquiet, h.counter, List.countP_eq_zero.mpr]
    · rfl
    · intro r _
      rw [hasks r]
      exact Bool.false_ne_true
  · change (asks m call r && _) = false
    rw [hasks r]
    rfl

/-- An emergency leaves the counter exact just if its source takes over at once. -/
theorem count_emergency (h : Settled m) {now : ℕ} (hurgent : urgent m.program.stream now = true)
    (htarget : runTarget m.program.stream now = some r) :
    (TakesOver m.program.stream r → Settled (count m (.selectorRun now))) ∧
      (Exact (count m (.selectorRun now)) → TakesOver m.program.stream r) := by
  have hasks : asks m (.selectorRun now) = Function.update m.asked r true := by
    unfold asks
    rw [show promoted m.program.stream (.selectorRun now) = some r from htarget,
      show isEmergency m.program.stream (.selectorRun now) = true from hurgent]
  have hcounter : (count m (.selectorRun now)).program.stream.emergencySwitches =
      m.effective + 1 := by
    refine (selectorRun_count m.program.stream now).trans ?_
    rw [hurgent, h.counter]
    rfl
  have hactivated : activated m.program (.selectorRun now) =
      if m.program.stream.activations <
        (tallies (promote (decided m.program.stream now) r).1).2 then [r] else [] := by
    change (if decide (_ < (selectorRun m.program.stream now).1.activations) then
      (runTarget m.program.stream now).toList else []) = _
    rw [selectorRun_decided, htarget]
    exact if_congr decide_eq_true_iff rfl rfl
  have hbefore : (decided m.program.stream now).activations = m.program.stream.activations :=
    (selectorEvaluate_same m.program.stream now).1.activations
  rcases promote_tallies (decided m.program.stream now) r with
    ⟨htallies, hover⟩ | ⟨htallies, hnot⟩
  · rw [htallies, hbefore, if_pos (Nat.lt_succ_self _)] at hactivated
    refine ⟨fun _ => ⟨?_, fun q => ?_⟩, fun _ => decided_takesOver.mp hover⟩
    · refine hcounter.trans ?_
      change _ = m.effective + List.countP _ _
      rw [hactivated, hasks, List.countP_singleton, Function.update_self, if_pos rfl]
    · change (asks m _ q && decide (q ∉ activated m.program _)) = _
      rw [hactivated, hasks]
      by_cases hq : q = r
      · rw [hq, decide_eq_false (fun hr => hr List.mem_cons_self), Bool.and_false]
      · rw [Function.update_of_ne hq, h.asked q, Bool.false_and]
  · rw [htallies, tallies, hbefore, if_neg (Nat.lt_irrefl _)] at hactivated
    refine ⟨fun htakes => absurd (decided_takesOver.mpr htakes) hnot, fun hexact => ?_⟩
    have heffective : (count m (.selectorRun now)).effective = m.effective := by
      change m.effective + List.countP _ _ = _
      rw [hactivated]
      rfl
    rw [Exact, hcounter, heffective] at hexact
    omega

theorem count_step (h : Settled m) (call : Call) :
    (AtOnce m call → Settled (count m call)) ∧ (Exact (count m call) → AtOnce m call) := by
  cases hemergency : isEmergency m.program.stream call with
  | false =>
    refine ⟨fun _ => count_quiet h hemergency, fun _ => ?_⟩
    cases call with
    | selectorRun now =>
      intro hurgent
      exact absurd (hemergency.symm.trans hurgent) Bool.false_ne_true
    | _ => trivial
  | true =>
    cases call with
    | selectorRun now =>
      obtain ⟨r, hr⟩ := Option.isSome_iff_exists.mp (Bool.and_eq_true_iff.mp hemergency).2
      obtain ⟨htakes, hexact⟩ := count_emergency h hemergency hr
      refine ⟨fun hnow => htakes (hnow hemergency r hr), fun hcount _ q hq => ?_⟩
      obtain rfl := Option.some.inj (hr.symm.trans hq)
      exact hexact hcount
    | _ => cases hemergency

/-- The counter is exact in every state of a run if and only if every emergency finds its source
able to take over at once. -/
theorem counter_exact_iff (feed : MediaFeed.Feed) (selector : SelectorConf) (calls : List Call) :
    (∀ m ∈ trace count (counted feed selector) calls, Exact m) ↔
      Meets count AtOnce (counted feed selector) calls := by
  have hrun : ∀ m, Settled m →
      ((∀ n ∈ trace count m calls, Exact n) ↔ Meets count AtOnce m calls) := by
    induction calls with
    | nil =>
      intro m h
      exact iff_of_true (fun n hn => List.mem_singleton.mp hn ▸ h.counter) trivial
    | cons call rest ih =>
      intro m h
      obtain ⟨hsettled, honce⟩ := count_step h call
      rw [trace, List.forall_mem_cons, Meets]
      constructor
      · rintro ⟨-, hrest⟩
        have hnow := honce (hrest _ (by cases rest <;> exact List.mem_cons_self))
        exact ⟨hnow, (ih _ (hsettled hnow)).mp hrest⟩
      · rintro ⟨hnow, hrest⟩
        exact ⟨h.counter, (ih _ (hsettled hnow)).mpr hrest⟩
  exact hrun _ ⟨rfl, fun _ => rfl⟩

/-- The active source fails, and the other one, which carries no video, has to wait for its
keyframe while the selector runs twice. -/
def waiting : List Call :=
  [.sourceAdd [97] 1 1 true true, .sourceAdd [98] 1 2 true true, .observe 0 (.tracks [videoTrack]),
    .observe 1 (.tracks [audioTrack]), .promote 0, .publish 0 (videoFrame true false 100) 10,
    .observe 0 (.healthInit 1500 10000 20), .selectorRun 30, .selectorRun 40,
    .publish 1 (videoFrame true false 700) 50]

theorem waiting_counted_twice :
    (waiting.foldl count (counted smallFeed selectorAuto)).program.stream.emergencySwitches = 2 ∧
      (waiting.foldl count (counted smallFeed selectorAuto)).effective = 1 ∧
      (waiting.foldl count (counted smallFeed selectorAuto)).program.stream.active = some 1 := by
  decide

end EmergencyCount
