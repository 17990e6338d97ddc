import NginxMedia.StepRun

/-! How many workers `ngx_media_egress_manager.c` recommends for an engine: a step by pressure and
quiet for the upload pool, the lanes in use for the SRT senders. Words of 64 bits that may wrap
around are reduced. -/
namespace EgressScaling

def engineSrtShard : ℕ := 1
def engineRtmpEventLoop : ℕ := 2
def engineHlsUploadPool : ℕ := 3
def engineMax : ℕ := 3

/-- What `ngx_media_egress_stats_t` says of a destination that the recommendation reads. -/
structure Stats where
  active : Bool
  engine : ℕ
  placement : ℕ
  backpressureEvents : ℕ
  droppedUnits : ℕ
  queueBytes : ℕ
  queueLagMsec : ℕ
  deriving DecidableEq, Repr

structure Record where
  stats : Stats
  sampledDroppedUnits : ℕ
  sampledBackpressureEvents : ℕ
  sampledQueueBytes : ℕ
  sampledQueueLagMsec : ℕ
  sampledQueueValid : Bool
  deriving DecidableEq, Repr

structure EngineState where
  pressureSamples : ℕ
  quietSamples : ℕ
  lastChangeMsec : ℕ
  deriving DecidableEq, Repr

/-- `ngx_media_egress_resources_t`; the two arrays go by the number of the engine. -/
structure Resources where
  availableCpuMilli : ℕ
  workerCpuPermille : ℕ
  eventLoopLagMsec : ℕ
  sampleValid : Bool
  activeWorkers : ℕ → ℕ
  engineCpuPermille : ℕ → ℕ

structure Manager where
  records : List Record
  resources : Resources
  engines : ℕ → EngineState

def Manager.withEngine (m : Manager) (engine : ℕ) (state : EngineState) : Manager :=
  { m with engines := fun e => if e = engine then state else m.engines e }

def word : ℕ := 2 ^ 64

def engineCpus (resources : Resources) (engine : ℕ) : ℕ :=
  let used := resources.activeWorkers engine * resources.engineCpuPermille engine % word
  (used + 999) % word / 1000

def recordPressure (engine : ℕ) (r : Record) : Bool :=
  r.stats.backpressureEvents > r.sampledBackpressureEvents ∨
  r.stats.droppedUnits > r.sampledDroppedUnits ∨
  if engine = engineHlsUploadPool then
    r.sampledQueueValid ∧ (r.stats.queueLagMsec > r.sampledQueueLagMsec ∨
      r.stats.queueBytes > r.sampledQueueBytes)
  else r.stats.queueLagMsec ≥ 100 ∨ r.stats.queueBytes ≥ 1024 * 1024

/-- What the loop over the records gathers. -/
structure Tally where
  pressureUnits : ℕ
  placementMask : ℕ
  lanesMask : ℕ
  deriving DecidableEq, Repr

def counted (engine : ℕ) (r : Record) : Bool := r.stats.active ∧ r.stats.engine = engine

def tallyRecord (engine : ℕ) (t : Tally) (r : Record) : Tally :=
  if counted engine r = false then t
  else
    let lane := engine = engineSrtShard ∧ r.stats.placement < 64
    let bit := 1 <<< r.stats.placement
    let t := if lane then { t with lanesMask := t.lanesMask ||| bit } else t
    if recordPressure engine r = false then t
    else if lane then
      if t.placementMask &&& bit = 0 then
        { t with placementMask := t.placementMask ||| bit, pressureUnits := t.pressureUnits + 1 }
      else t
    else { t with pressureUnits := t.pressureUnits + 1 }

def tally (engine : ℕ) (records : List Record) : Tally :=
  records.foldl (tallyRecord engine) ⟨0, 0, 0⟩

def sampled (engine : ℕ) (r : Record) : Record :=
  if counted engine r = false then r
  else { r with
    sampledBackpressureEvents := r.stats.backpressureEvents
    sampledDroppedUnits := r.stats.droppedUnits
    sampledQueueBytes := r.stats.queueBytes
    sampledQueueLagMsec := r.stats.queueLagMsec
    sampledQueueValid := true }

def lanesLoop (bit lanes : ℕ) : ℕ :=
  if bit = 0 then lanes else lanesLoop (bit &&& (bit - 1)) (lanes + 1)
termination_by bit
decreasing_by
  have : bit &&& (bit - 1) ≤ bit - 1 := Nat.and_le_right
  omega

def settledFor (state : EngineState) (now wait : ℕ) : Bool :=
  state.lastChangeMsec = 0 ∨ (now + word - state.lastChangeMsec) % word ≥ wait

def srtTarget (resources : Resources) (lanesMask minimum maximum : ℕ) : ℕ :=
  let cpus := resources.availableCpuMilli / 1000
  let cpus := if cpus = 0 then 1 else cpus
  let lanes := lanesLoop lanesMask 0
  let target := if lanes < cpus then lanes else cpus
  let target := if target > maximum then maximum else target
  if target < minimum then minimum else target

def recommendSrt (state : EngineState) (target current now : ℕ) : ℕ × EngineState :=
  let state := { state with pressureSamples := 0, quietSamples := 0 }
  if target ≠ current ∧ settledFor state now 2000 then
    (target, { state with lastChangeMsec := now })
  else (current, state)

/-- The processors that the pool may use; one is left to the event loop. -/
def cpuLimit (resources : Resources) : ℕ :=
  let limit := resources.availableCpuMilli / 1000
  if limit > 0 then limit - 1 else limit

def otherWorkers (resources : Resources) (engine : ℕ) : ℕ :=
  let srt := if engine ≠ engineSrtShard then engineCpus resources engineSrtShard else 0
  let hls := if engine ≠ engineHlsUploadPool then engineCpus resources engineHlsUploadPool else 0
  (srt + hls) % word

def EngineState.pressed (state : EngineState) : EngineState :=
  { state with
    quietSamples := 0
    pressureSamples :=
      if state.pressureSamples < 10 then state.pressureSamples + 1 else state.pressureSamples }

def EngineState.rested (state : EngineState) : EngineState :=
  { state with
    pressureSamples := 0
    quietSamples :=
      if state.quietSamples < 100 then state.quietSamples + 1 else state.quietSamples }

def recommendPool (resources : Resources) (state : EngineState) (engine pressureUnits : ℕ)
    (current minimum maximum now : ℕ) : ℕ × EngineState :=
  let limit := cpuLimit resources
  let used := (current + otherWorkers resources engine) % word
  if used > limit then
    let state := { state with pressureSamples := 0, quietSamples := 0 }
    if current > minimum then (current - 1, { state with lastChangeMsec := now })
    else (current, state)
  else if pressureUnits > current then
    let state := state.pressed
    if state.pressureSamples ≥ 2 ∧ resources.workerCpuPermille < 800 ∧
        resources.eventLoopLagMsec < 250 ∧ resources.availableCpuMilli ≥ 2000 ∧
        current < maximum ∧ used < limit ∧ settledFor state now 2000 then
      (current + 1, { state with lastChangeMsec := now })
    else (current, state)
  else if pressureUnits ≠ 0 then
    (current, { state with pressureSamples := 0, quietSamples := 0 })
  else
    let state := state.rested
    if current > minimum ∧ state.quietSamples ≥ 8 ∧ resources.engineCpuPermille engine < 250 ∧
        settledFor state now 5000 then
      (current - 1, { state with lastChangeMsec := now })
    else (current, state)

def recommendWorkers (m : Manager) (engine current minimum maximum now : ℕ) : ℕ × Manager :=
  if engine = 0 ∨ engine > engineMax ∨ minimum = 0 ∨ maximum < minimum then (current, m)
  else if m.resources.sampleValid = false then (current, m)
  else
    let t := tally engine m.records
    let m := { m with records := m.records.map (sampled engine) }
    let (next, state) :=
      if engine = engineSrtShard then
        recommendSrt (m.engines engine) (srtTarget m.resources t.lanesMask minimum maximum)
          current now
      else
        recommendPool m.resources (m.engines engine) engine t.pressureUnits current minimum
          maximum now
    (next, m.withEngine engine state)

variable {m : Manager} {resources : Resources} {state : EngineState}
variable {engine current minimum maximum now pressureUnits : ℕ}

theorem srtTarget_bounds (resources : Resources) (lanesMask : ℕ) (h : minimum ≤ maximum) :
    minimum ≤ srtTarget resources lanesMask minimum maximum ∧
      srtTarget resources lanesMask minimum maximum ≤ maximum := by
  unfold srtTarget
  dsimp only
  split_ifs <;> omega

theorem recommendSrt_cases (state : EngineState) (target current now : ℕ) :
    (recommendSrt state target current now).1 = current ∨
      (recommendSrt state target current now).1 = target := by
  unfold recommendSrt
  dsimp only
  split_ifs
  · exact Or.inr rfl
  · exact Or.inl rfl

/-- What a recommendation for a pool can be: the same number; one less, above what the processors
allow or without pressure; one more, under pressure and below what they allow. -/
theorem recommendPool_cases (resources : Resources) (state : EngineState)
    (engine pressureUnits current minimum maximum now : ℕ) :
    (recommendPool resources state engine pressureUnits current minimum maximum now).1 =
        current ∨
    (recommendPool resources state engine pressureUnits current minimum maximum now).1 =
        current - 1 ∧ minimum < current ∧
      (cpuLimit resources < (current + otherWorkers resources engine) % word ∨
        pressureUnits = 0) ∨
    (recommendPool resources state engine pressureUnits current minimum maximum now).1 =
        current + 1 ∧ current < maximum ∧ current < pressureUnits ∧
      (current + otherWorkers resources engine) % word < cpuLimit resources := by
  unfold recommendPool
  dsimp only
  split_ifs with hover hmin hpressure hup hsome hdown
  · exact Or.inr (Or.inl ⟨rfl, hmin, Or.inl hover⟩)
  · exact Or.inl rfl
  · exact Or.inr (Or.inr ⟨rfl, hup.2.2.2.2.1, hpressure, hup.2.2.2.2.2.1⟩)
  · exact Or.inl rfl
  · exact Or.inl rfl
  · exact Or.inr (Or.inl ⟨rfl, hdown.1, Or.inr (not_not.mp hsome)⟩)
  · exact Or.inl rfl

structure View where
  active : Bool
  engine : ℕ
  placement : ℕ
  pressure : Bool
  deriving DecidableEq, Repr

def view (engine : ℕ) (r : Record) : View :=
  ⟨r.stats.active, r.stats.engine, r.stats.placement, recordPressure engine r⟩

theorem tally_congr {records other : List Record}
    (h : records.map (view engine) = other.map (view engine)) :
    tally engine records = tally engine other := by
  have hone : ∀ t (r r' : Record), view engine r = view engine r' →
      tallyRecord engine t r = tallyRecord engine t r' := by
    intro t r r' hview
    injection hview with hactive hengine hplacement hpressure
    unfold tallyRecord counted
    rw [hactive, hengine, hplacement, hpressure]
  have hfold : ∀ t, records.foldl (tallyRecord engine) t = other.foldl (tallyRecord engine) t := by
    induction records generalizing other with
    | nil =>
      intro t
      rw [List.map_nil] at h
      rw [List.map_eq_nil_iff.mp h.symm]
    | cons r rest ih =>
      intro t
      cases other with
      | nil => cases h
      | cons r' more =>
        rw [List.map_cons, List.map_cons, List.cons.injEq] at h
        rw [List.foldl_cons, List.foldl_cons, hone t r r' h.1]
        exact ih h.2 _
  exact hfold _

def sample (engine : ℕ) (resources : Resources) : Resources :=
  { resources with
    activeWorkers := fun e => if e = engine then 0 else resources.activeWorkers e }

theorem otherWorkers_sample (resources : Resources) (engine : ℕ) :
    otherWorkers (sample engine resources) engine = otherWorkers resources engine := by
  have hcpus : ∀ e, (if engine ≠ e then engineCpus (sample engine resources) e else 0) =
      if engine ≠ e then engineCpus resources e else 0 := by
    intro e
    split_ifs with he
    · unfold engineCpus sample
      dsimp only
      rw [if_neg (Ne.symm he)]
    · rfl
  rw [otherWorkers, otherWorkers, hcpus, hcpus]

/-- What a call for an engine reads: the records that it finds and the sample. -/
structure Round where
  now : ℕ
  resources : Resources
  records : List Record

/-- Two calls find the same sample, the same records and the same verdict on each of them. -/
def Alike (engine : ℕ) (r r' : Round) : Prop :=
  sample engine r.resources = sample engine r'.resources ∧
    r.records.map (view engine) = r'.records.map (view engine)

def Round.found (r : Round) (m : Manager) : Manager :=
  { m with resources := r.resources, records := r.records }

def Round.target (r : Round) (engine minimum maximum : ℕ) : ℕ :=
  srtTarget r.resources (tally engine r.records).lanesMask minimum maximum

def Round.units (r : Round) (engine : ℕ) : ℕ := (tally engine r.records).pressureUnits

def Round.used (r : Round) (engine current : ℕ) : ℕ :=
  (current + otherWorkers r.resources engine) % word

theorem Alike.symm {r r' : Round} (h : Alike engine r r') : Alike engine r' r :=
  ⟨h.1.symm, h.2.symm⟩

theorem Alike.cpu {r r' : Round} (h : Alike engine r r') :
    r.resources.availableCpuMilli = r'.resources.availableCpuMilli := by
  have hcpu := congrArg Resources.availableCpuMilli h.1
  exact hcpu

theorem Alike.target {r r' : Round} (h : Alike engine r r') (minimum maximum : ℕ) :
    r.target engine minimum maximum = r'.target engine minimum maximum := by
  unfold Round.target srtTarget
  rw [tally_congr h.2, h.cpu]

theorem Alike.units {r r' : Round} (h : Alike engine r r') : r.units engine = r'.units engine := by
  rw [Round.units, Round.units, tally_congr h.2]

theorem Alike.limit {r r' : Round} (h : Alike engine r r') :
    cpuLimit r.resources = cpuLimit r'.resources := by
  rw [cpuLimit, cpuLimit, h.cpu]

theorem Alike.used {r r' : Round} (h : Alike engine r r') (current : ℕ) :
    r.used engine current = r'.used engine current := by
  rw [Round.used, Round.used, ← otherWorkers_sample r.resources, h.1, otherWorkers_sample]

def Round.next (r : Round) (m : Manager) (engine current minimum maximum : ℕ) : ℕ :=
  (recommendWorkers (r.found m) engine current minimum maximum r.now).1

theorem next_cases (r : Round) (m : Manager) (engine current minimum maximum : ℕ) :
    r.next m engine current minimum maximum = current ∨
    minimum ≤ maximum ∧
    (engine = engineSrtShard ∧
        r.next m engine current minimum maximum = r.target engine minimum maximum ∨
      engine ≠ engineSrtShard ∧
        (r.next m engine current minimum maximum = current - 1 ∧ minimum < current ∧
            (cpuLimit r.resources < r.used engine current ∨ r.units engine = 0) ∨
          r.next m engine current minimum maximum = current + 1 ∧ current < maximum ∧
            current < r.units engine ∧ r.used engine current < cpuLimit r.resources)) := by
  unfold Round.next recommendWorkers
  by_cases hrange : engine = 0 ∨ engine > engineMax ∨ minimum = 0 ∨ maximum < minimum
  · rw [if_pos hrange]
    exact Or.inl rfl
  by_cases hvalid : (r.found m).resources.sampleValid = false
  · rw [if_neg hrange, if_pos hvalid]
    exact Or.inl rfl
  rw [if_neg hrange, if_neg hvalid]
  dsimp only
  have hle : minimum ≤ maximum := by omega
  by_cases hsrt : engine = engineSrtShard
  · rw [if_pos hsrt]
    rcases recommendSrt_cases ((r.found m).engines engine) (r.target engine minimum maximum)
        current r.now with hsame | htarget
    · exact Or.inl hsame
    · exact Or.inr ⟨hle, Or.inl ⟨hsrt, htarget⟩⟩
  · rw [if_neg hsrt]
    rcases recommendPool_cases r.resources ((r.found m).engines engine) engine (r.units engine)
        current minimum maximum r.now with hsame | hless | hmore
    · exact Or.inl hsame
    · exact Or.inr ⟨hle, Or.inr ⟨hsrt, Or.inl hless⟩⟩
    · exact Or.inr ⟨hle, Or.inr ⟨hsrt, Or.inr hmore⟩⟩

theorem next_bounds (r : Round) (m : Manager) (engine : ℕ) (hmin : minimum ≤ current)
    (hmax : current ≤ maximum) :
    minimum ≤ r.next m engine current minimum maximum ∧
      r.next m engine current minimum maximum ≤ maximum := by
  rcases next_cases r m engine current minimum maximum with
    hsame | ⟨hle, ⟨-, htarget⟩ | ⟨-, ⟨hless, habove, -⟩ | ⟨hmore, hbelow, -⟩⟩⟩
  · omega
  · rw [htarget]
    exact srtTarget_bounds _ _ hle
  · omega
  · omega

/-- From here on the number does not fall. -/
def Rising (r : Round) (engine minimum maximum current : ℕ) : Prop :=
  if engine = engineSrtShard then current ≤ r.target engine minimum maximum
  else r.used engine current ≤ cpuLimit r.resources ∧ r.units engine ≠ 0

/-- From here on the number does not rise. -/
def Falling (r : Round) (engine minimum maximum current : ℕ) : Prop :=
  if engine = engineSrtShard then r.target engine minimum maximum ≤ current
  else cpuLimit r.resources ≤ r.used engine current ∨ r.units engine = 0

theorem rising_or_falling (r : Round) (engine minimum maximum current : ℕ) :
    Rising r engine minimum maximum current ∨ Falling r engine minimum maximum current := by
  unfold Rising Falling
  split_ifs <;> omega

theorem used_succ (r : Round) (h : r.used engine current < cpuLimit r.resources) :
    r.used engine (current + 1) ≤ cpuLimit r.resources := by
  unfold Round.used word at *
  omega

theorem used_pred (r : Round) (hpos : 0 < current)
    (h : cpuLimit r.resources < r.used engine current) :
    cpuLimit r.resources ≤ r.used engine (current - 1) := by
  unfold Round.used word at *
  omega

theorem Rising.step {r : Round} (h : Rising r engine minimum maximum current) (m : Manager) :
    current ≤ r.next m engine current minimum maximum ∧
      Rising r engine minimum maximum (r.next m engine current minimum maximum) := by
  rcases next_cases r m engine current minimum maximum with
    hsame | ⟨-, ⟨hsrt, htarget⟩ | ⟨hpool, ⟨-, -, hwhy⟩ | ⟨hmore, -, -, hbelow⟩⟩⟩
  · rw [hsame]
    exact ⟨Nat.le_refl _, h⟩
  · unfold Rising at h ⊢
    rw [if_pos hsrt] at h ⊢
    rw [htarget]
    exact ⟨h, Nat.le_refl _⟩
  · unfold Rising at h
    rw [if_neg hpool] at h
    omega
  · unfold Rising at h ⊢
    rw [if_neg hpool] at h ⊢
    rw [hmore]
    exact ⟨Nat.le_succ _, used_succ r hbelow, h.2⟩

theorem Falling.step {r : Round} (h : Falling r engine minimum maximum current) (m : Manager) :
    r.next m engine current minimum maximum ≤ current ∧
      Falling r engine minimum maximum (r.next m engine current minimum maximum) := by
  rcases next_cases r m engine current minimum maximum with
    hsame | ⟨-, ⟨hsrt, htarget⟩ | ⟨hpool, ⟨hless, habove, hwhy⟩ | ⟨-, -, hunits, hbelow⟩⟩⟩
  · rw [hsame]
    exact ⟨Nat.le_refl _, h⟩
  · unfold Falling at h ⊢
    rw [if_pos hsrt] at h ⊢
    rw [htarget]
    exact ⟨h, Nat.le_refl _⟩
  · unfold Falling at h ⊢
    rw [if_neg hpool] at h ⊢
    rw [hless]
    refine ⟨Nat.sub_le _ _, ?_⟩
    rcases hwhy with hover | hnone
    · exact Or.inl (used_pred r (by omega) hover)
    · exact Or.inr hnone
  · unfold Falling at h
    rw [if_neg hpool] at h
    omega

theorem Rising.alike {r r' : Round} (h : Rising r engine minimum maximum current)
    (ha : Alike engine r r') : Rising r' engine minimum maximum current := by
  unfold Rising at h ⊢
  rwa [← ha.target, ← ha.used, ← ha.units, ← ha.limit]

theorem Falling.alike {r r' : Round} (h : Falling r engine minimum maximum current)
    (ha : Alike engine r r') : Falling r' engine minimum maximum current := by
  unfold Falling at h ⊢
  rwa [← ha.target, ← ha.used, ← ha.units, ← ha.limit]

def adapt (engine minimum maximum : ℕ) (s : Manager × ℕ) (r : Round) : Manager × ℕ :=
  let (next, m) := recommendWorkers (r.found s.1) engine s.2 minimum maximum r.now
  (m, next)

/-- The number at first and after each call. -/
def recommendations (engine minimum maximum : ℕ) (m : Manager) (current : ℕ)
    (rounds : List Round) : List ℕ :=
  (StepRun.trace (adapt engine minimum maximum) (m, current) rounds).map Prod.snd

/-- A recommendation stays within its bounds, the one for a pool goes one step at most, and calls
that find the same sample and the same verdicts move the number in one direction only. -/
theorem scaling_settles (engine : ℕ) (hmin : minimum ≤ current) (hmax : current ≤ maximum)
    (m : Manager) :
    (∀ now, let next := (recommendWorkers m engine current minimum maximum now).1
      minimum ≤ next ∧ next ≤ maximum ∧
        (engine ≠ engineSrtShard → next ≤ current + 1 ∧ current ≤ next + 1)) ∧
    ∀ rounds : List Round, (∀ r ∈ rounds, ∀ r' ∈ rounds, Alike engine r r') →
      (recommendations engine minimum maximum m current rounds).Pairwise (· ≤ ·) ∨
      (recommendations engine minimum maximum m current rounds).Pairwise (· ≥ ·) := by
  constructor
  · intro now
    have hbounds := next_bounds ⟨now, m.resources, m.records⟩ m engine hmin hmax
    have hcases := next_cases ⟨now, m.resources, m.records⟩ m engine current minimum maximum
    have hnext : Round.next ⟨now, m.resources, m.records⟩ m engine current minimum maximum =
        (recommendWorkers m engine current minimum maximum now).1 := rfl
    rw [hnext] at hbounds hcases
    refine ⟨hbounds.1, hbounds.2, fun hpool => ?_⟩
    rcases hcases with hsame | ⟨-, ⟨hsrt, -⟩ | ⟨-, ⟨hless, -⟩ | ⟨hmore, -⟩⟩⟩
    · omega
    · exact absurd hsrt hpool
    · omega
    · omega
  · intro rounds halike
    cases rounds with
    | nil => exact Or.inl (List.pairwise_singleton _ _)
    | cons first rest =>
      have hall : ∀ r ∈ first :: rest, Alike engine first r := halike first List.mem_cons_self
      rcases rising_or_falling first engine minimum maximum current with hrise | hfall
      · left
        apply List.pairwise_map.mpr
        refine StepRun.trace_pairwise (s := (m, current)) (R := fun s t => s.2 ≤ t.2)
          (I := fun s => Rising first engine minimum maximum s.2) (fun _ => Nat.le_refl _)
          (fun _ _ _ => Nat.le_trans) ?_ hrise hall
        intro s r hs hr
        obtain ⟨hle, hnext⟩ := (hs.alike hr).step s.1
        exact ⟨hnext.alike hr.symm, hle⟩
      · right
        apply List.pairwise_map.mpr
        refine StepRun.trace_pairwise (s := (m, current)) (R := fun s t => s.2 ≥ t.2)
          (I := fun s => Falling first engine minimum maximum s.2) (fun _ => Nat.le_refl _)
          (fun _ _ _ hst htu => Nat.le_trans htu hst) ?_ hfall hall
        intro s r hs hr
        obtain ⟨hle, hnext⟩ := (hs.alike hr).step s.1
        exact ⟨hnext.alike hr.symm, hle⟩

/-- Two upload workers on eight processors without sampled pressure. -/
def quietPool : Manager where
  records := []
  resources := ⟨8000, 300, 0, true, fun _ => 0, fun _ => 0⟩
  engines := fun _ => ⟨0, 7, 0⟩

theorem scaling_settles_quiet :
    (∀ now, let next := (recommendWorkers quietPool engineHlsUploadPool 3 1 4 now).1
      1 ≤ next ∧ next ≤ 4 ∧
        (engineHlsUploadPool ≠ engineSrtShard → next ≤ 3 + 1 ∧ 3 ≤ next + 1)) ∧
    ∀ rounds : List Round, (∀ r ∈ rounds, ∀ r' ∈ rounds, Alike engineHlsUploadPool r r') →
      (recommendations engineHlsUploadPool 1 4 quietPool 3 rounds).Pairwise (· ≤ ·) ∨
      (recommendations engineHlsUploadPool 1 4 quietPool 3 rounds).Pairwise (· ≥ ·) :=
  scaling_settles engineHlsUploadPool (by decide) (by decide) quietPool

end EgressScaling
