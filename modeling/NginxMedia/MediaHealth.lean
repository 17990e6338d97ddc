import NginxMedia.MediaTypes
import NginxMedia.StepRun

/-! Layered source health of `ngx_media_health.c`: evidence bits, timers with hysteresis,
and the eligibility the selector reads. -/
namespace MediaHealth

open MediaTypes

/-- The `NGX_MEDIA_HEALTH_*` bits of one evidence or requirement word. -/
structure Evidence where
  transportUp : Bool
  dataFlowing : Bool
  containerValid : Bool
  timestampsAdvancing : Bool
  mediaValid : Bool
  tracksCompatible : Bool
  deriving DecidableEq, Repr

def Evidence.nothing : Evidence := ⟨false, false, false, false, false, false⟩

/-- `NGX_MEDIA_HEALTH_REQUIRED`: every layer but track compatibility. -/
def Evidence.requiredLayers : Evidence := ⟨true, true, true, true, true, false⟩

def Evidence.covers (e required : Evidence) : Bool :=
  (!required.transportUp || e.transportUp) && (!required.dataFlowing || e.dataFlowing) &&
  (!required.containerValid || e.containerValid) &&
  (!required.timestampsAdvancing || e.timestampsAdvancing) &&
  (!required.mediaValid || e.mediaValid) &&
  (!required.tracksCompatible || e.tracksCompatible)

structure Health where
  evidence : Evidence
  required : Evidence
  failureTimeout : ℕ
  recoveryTimeout : ℕ
  lastMedia : ℕ
  lastTsProgress : ℕ
  lastContainerError : ℕ
  unhealthySince : ℕ
  healthySince : ℕ
  lastDts : ℤ
  containerErrors : ℕ
  transitions : ℕ
  healthy : Bool
  eligible : Bool
  deriving DecidableEq, Repr

/-- A source's record before `ngx_media_health_init()`. -/
def Health.zero : Health :=
  ⟨.nothing, .nothing, 0, 0, 0, 0, 0, 0, 0, 0, 0, 0, false, false⟩

def init (failureTimeout recoveryTimeout now : ℕ) : Health :=
  { Health.zero with
    required := .requiredLayers
    failureTimeout := failureTimeout
    recoveryTimeout := recoveryTimeout
    lastMedia := now
    lastTsProgress := now
    evidence := { Evidence.nothing with containerValid := true }
    healthy := true
    eligible := true
    healthySince := now }

def transport (h : Health) (up : Bool) (now : ℕ) : Health :=
  if up then { h with evidence := { h.evidence with transportUp := true } }
  else
    { h with
      evidence := .nothing
      healthySince := 0
      unhealthySince := now
      transitions := if h.healthy || h.eligible then h.transitions + 1 else h.transitions
      healthy := false
      eligible := false }

def media (h : Health) (dts : ℤ) (now : ℕ) : Health :=
  let h := { h with lastMedia := now }
  if dts > h.lastDts then { h with lastDts := dts, lastTsProgress := now }
  else if h.lastDts ≠ 0 ∧ h.lastDts - dts > 90000 then
    { h with lastDts := dts, lastTsProgress := now }
  else h

def container (h : Health) (errors now : ℕ) : Health :=
  if errors > h.containerErrors then
    { h with
      containerErrors := errors
      lastContainerError := now
      evidence := { h.evidence with containerValid := false } }
  else h

def tracks (h : Health) (compatible : Bool) : Health :=
  { h with evidence := { h.evidence with tracksCompatible := compatible } }

def observed (h : Health) (now : ℕ) : Evidence :=
  let flowing := h.evidence.transportUp && decide (wrapSub now h.lastMedia ≤ h.failureTimeout)
  { h.evidence with
    dataFlowing := flowing
    mediaValid := flowing
    timestampsAdvancing :=
      h.evidence.transportUp && decide (wrapSub now h.lastTsProgress ≤ h.failureTimeout)
    containerValid :=
      h.evidence.containerValid ||
        decide (wrapSub now h.lastContainerError ≥ h.recoveryTimeout) }

def evaluate (h : Health) (now : ℕ) : Health :=
  let h := { h with evidence := observed h now }
  let h :=
    if h.evidence.covers h.required then
      let h := if h.healthySince = 0 then { h with healthySince := now } else h
      if h.healthy = false ∧ wrapSub now h.healthySince ≥ h.recoveryTimeout then
        { h with healthy := true, transitions := h.transitions + 1, unhealthySince := 0 }
      else h
    else if h.healthy then
      { h with
        healthy := false
        transitions := h.transitions + 1
        healthySince := 0
        unhealthySince := now }
    else h
  { h with eligible := h.healthy }

/-- The verdict of `ngx_media_health_evaluate()` on the evidence of one evaluation. -/
def good (h : Health) (now : ℕ) : Bool := (observed h now).covers h.required

def recoveringSince (h : Health) (now : ℕ) : ℕ :=
  if h.healthySince = 0 then now else h.healthySince

inductive Call where
  | transport (up : Bool) (now : ℕ)
  | media (dts : ℤ) (now : ℕ)
  | container (errors now : ℕ)
  | tracks (compatible : Bool)
  | evaluate (now : ℕ)
  deriving DecidableEq, Repr

/-- A source's health with the time of its last call and, as a ghost, when it was evaluated
and with which verdict. -/
structure Record where
  health : Health
  clock : ℕ
  evaluations : List (ℕ × Bool)
  deriving DecidableEq, Repr

def start (failureTimeout recoveryTimeout now : ℕ) : Record :=
  ⟨MediaHealth.init failureTimeout recoveryTimeout now, now, []⟩

def step (r : Record) : Call → Record
  | .transport up now => { r with health := transport r.health up now, clock := now }
  | .media dts now => { r with health := media r.health dts now, clock := now }
  | .container errors now => { r with health := container r.health errors now, clock := now }
  | .tracks compatible => { r with health := tracks r.health compatible }
  | .evaluate now =>
    { health := evaluate r.health now
      clock := now
      evaluations := r.evaluations ++ [(now, good r.health now)] }

/-- Times are 64-bit milliseconds and do not go back. -/
def Timely (r : Record) : Call → Prop
  | .transport _ now | .media _ now | .container _ now | .evaluate now =>
    r.clock ≤ now ∧ now < 2 ^ 64
  | .tracks _ => True

def Undisturbed (r : Record) : Call → Prop
  | .evaluate now =>
    r.health.healthy = true ∨
      (if good r.health now then
        r.health.healthySince = 0 → ∀ e ∈ r.evaluations, e.2 = false → e.1 < now
      else r.health.healthySince = 0)
  | _ => True

instance (r : Record) : (call : Call) → Decidable (Timely r call)
  | .transport _ now | .media _ now | .container _ now | .evaluate now =>
    inferInstanceAs (Decidable (r.clock ≤ now ∧ now < 2 ^ 64))
  | .tracks _ => .isTrue trivial

instance (r : Record) : (call : Call) → Decidable (Undisturbed r call)
  | .evaluate _ => inferInstanceAs (Decidable (_ ∨ ite _ _ _))
  | .transport .. | .media .. | .container .. | .tracks _ => .isTrue trivial

def ContinuousEvidence (r : Record) (now : ℕ) : Prop :=
  r.health.healthy = false → (evaluate r.health now).healthy = true →
    ∀ e ∈ (step r (.evaluate now)).evaluations,
      now - r.health.recoveryTimeout ≤ e.1 → e.1 ≤ now → e.2 = true

instance (r : Record) (now : ℕ) : Decidable (ContinuousEvidence r now) := by
  unfold ContinuousEvidence
  infer_instance

theorem evaluate_unhealthy {h : Health} (hh : h.healthy = false) (now : ℕ) :
    (evaluate h now).healthy =
        (good h now && decide (wrapSub now (recoveringSince h now) ≥ h.recoveryTimeout)) ∧
      (evaluate h now).healthySince =
        if good h now then recoveringSince h now else h.healthySince := by
  by_cases hg : good h now = true
  · have hcov : (observed h now).covers h.required = true := hg
    by_cases hz : h.healthySince = 0
    · by_cases hr : wrapSub now now ≥ h.recoveryTimeout
      · simp [evaluate, hg, hcov, hz, hh, hr, recoveringSince]
      · simp [evaluate, hg, hcov, hz, hh, hr, recoveringSince]
    · by_cases hr : wrapSub now h.healthySince ≥ h.recoveryTimeout
      · simp [evaluate, hg, hcov, hz, hh, hr, recoveringSince]
      · simp [evaluate, hg, hcov, hz, hh, hr, recoveringSince]
  · have hcov : (observed h now).covers h.required = false := by simpa [good] using hg
    have hbad : good h now = false := by simpa using hg
    simp [evaluate, hcov, hh, hbad]

theorem evaluate_healthy_bad {h : Health} (hh : h.healthy = true) {now : ℕ}
    (hbad : good h now = false) : (evaluate h now).healthySince = 0 := by
  have hcov : (observed h now).covers h.required = false := hbad
  simp [evaluate, hcov, hh]

theorem evaluate_healthy_good {h : Health} (hh : h.healthy = true) {now : ℕ}
    (hg : good h now = true) : (evaluate h now).healthy = true := by
  have hcov : (observed h now).covers h.required = true := hg
  by_cases hz : h.healthySince = 0
  · simp [evaluate, hcov, hh, hz]
  · simp [evaluate, hcov, hh, hz]

structure Recovering (r : Record) : Prop where
  timer : r.health.healthySince ≤ r.clock
  past : ∀ e ∈ r.evaluations, e.1 ≤ r.clock
  clean : r.health.healthy = false → r.health.healthySince ≠ 0 →
    ∀ e ∈ r.evaluations, r.health.healthySince ≤ e.1 → e.2 = true

theorem start_recovering (failureTimeout recoveryTimeout now : ℕ) :
    Recovering (start failureTimeout recoveryTimeout now) := by
  constructor
  · exact Nat.le_refl _
  · intro e he
    simp [start] at he
  · intro hh
    simp [start, MediaHealth.init] at hh

/-- What evaluates nothing and leaves the verdict and the recovery timer alone. -/
theorem Recovering.observed {r : Record} (hr : Recovering r) {h : Health} {now : ℕ}
    (hnow : r.clock ≤ now) (hhealthy : h.healthy = r.health.healthy)
    (hsince : h.healthySince = r.health.healthySince) :
    Recovering { r with health := h, clock := now } := by
  constructor
  · change h.healthySince ≤ now
    rw [hsince]
    exact Nat.le_trans hr.timer hnow
  · exact fun e he => Nat.le_trans (hr.past e he) hnow
  · intro hh hz e he hle
    change h.healthy = false at hh
    change h.healthySince ≠ 0 at hz
    change h.healthySince ≤ e.1 at hle
    rw [hhealthy] at hh
    rw [hsince] at hz hle
    exact hr.clean hh hz e he hle

theorem recovering_evaluate {r : Record} (hr : Recovering r) {now : ℕ} (hnow : r.clock ≤ now)
    (hu : Undisturbed r (.evaluate now)) : Recovering (step r (.evaluate now)) := by
  have hpast : ∀ e ∈ (step r (.evaluate now)).evaluations, e.1 ≤ now := by
    intro e he
    rcases List.mem_append.mp he with he | he
    · exact Nat.le_trans (hr.past e he) hnow
    · obtain rfl := List.mem_singleton.mp he
      exact Nat.le_refl now
  rcases Bool.eq_false_or_eq_true r.health.healthy with hh | hh
  · rcases Bool.eq_false_or_eq_true (good r.health now) with hg | hg
    · refine ⟨?_, hpast, fun hn => absurd (evaluate_healthy_good hh hg) (by simpa [step] using hn)⟩
      change (evaluate r.health now).healthySince ≤ now
      have hcov : (MediaHealth.observed r.health now).covers r.health.required = true := hg
      have ht := Nat.le_trans hr.timer hnow
      by_cases hz : r.health.healthySince = 0
      · simp [evaluate, hcov, hh, hz]
      · simpa [evaluate, hcov, hh, hz] using ht
    · have hzero := evaluate_healthy_bad hh hg
      refine ⟨?_, hpast, fun _ hz => absurd hzero hz⟩
      change (evaluate r.health now).healthySince ≤ now
      omega
  · obtain ⟨-, hsince⟩ := evaluate_unhealthy hh now
    have hu := hu.resolve_left (by rw [hh]; decide)
    rcases Bool.eq_false_or_eq_true (good r.health now) with hg | hg
    · rw [hg, if_pos rfl] at hsince hu
      refine ⟨?_, hpast, fun _ _ e he hle => ?_⟩
      · change (evaluate r.health now).healthySince ≤ now
        rw [hsince, recoveringSince]
        have ht := Nat.le_trans hr.timer hnow
        split_ifs <;> omega
      · change (evaluate r.health now).healthySince ≤ e.1 at hle
        rw [hsince] at hle
        rcases List.mem_append.mp he with he | he
        · by_cases hz : r.health.healthySince = 0
          · rw [recoveringSince, if_pos hz] at hle
            by_contra hbad
            have hlt := hu hz e he (by simpa using hbad)
            omega
          · rw [recoveringSince, if_neg hz] at hle
            exact hr.clean hh hz e he hle
        · rw [List.mem_singleton.mp he]
          exact hg
    · rw [hg, if_neg (by decide)] at hsince hu
      refine ⟨?_, hpast, fun _ hz => absurd (hsince.trans hu) hz⟩
      change (evaluate r.health now).healthySince ≤ now
      omega

theorem recovering_step (r : Record) (call : Call) (hr : Recovering r)
    (ha : Timely r call ∧ Undisturbed r call) : Recovering (step r call) := by
  cases call with
  | transport up now =>
    cases up with
    | true => exact hr.observed ha.1.1 rfl rfl
    | false =>
      have hzero : (transport r.health false now).healthySince = 0 := rfl
      refine ⟨?_, fun e he => Nat.le_trans (hr.past e he) ha.1.1, fun _ hz => absurd hzero hz⟩
      change (transport r.health false now).healthySince ≤ now
      omega
  | media dts now =>
    refine hr.observed ha.1.1 ?_ ?_ <;> · unfold media; dsimp only; split_ifs <;> rfl
  | container errors now =>
    refine hr.observed ha.1.1 ?_ ?_ <;> · unfold container; split_ifs <;> rfl
  | tracks compatible => exact hr.observed (Nat.le_refl _) rfl rfl
  | evaluate now => exact recovering_evaluate hr ha.1.1 ha.2

/-- In a run without a bad evaluation during recovery, an unhealthy source turns healthy only
after a recovery timeout in which every evaluation found good evidence. -/
theorem recovery_hysteresis {failureTimeout recoveryTimeout t0 now : ℕ} {calls : List Call}
    (h : StepRun.Meets step (fun r call => Timely r call ∧ Undisturbed r call)
      (start failureTimeout recoveryTimeout t0) (calls ++ [.evaluate now])) :
    ContinuousEvidence (calls.foldl step (start failureTimeout recoveryTimeout t0)) now := by
  obtain ⟨hrun, ⟨hnow, hword⟩, hu⟩ := StepRun.meets_concat.mp h
  have hr := StepRun.invariant_of_meets recovering_step
    (start_recovering failureTimeout recoveryTimeout t0) hrun
  generalize calls.foldl step (start failureTimeout recoveryTimeout t0) = r at hr hnow hu ⊢
  intro hh hturn e he hfrom _
  obtain ⟨hhealthy, hsince⟩ := evaluate_unhealthy hh now
  rw [hhealthy, Bool.and_eq_true, decide_eq_true_eq] at hturn
  obtain ⟨hg, helapsed⟩ := hturn
  have hu := hu.resolve_left (by rw [hh]; decide)
  rw [hg, if_pos rfl] at hu
  rcases List.mem_append.mp he with he | he
  · by_cases hz : r.health.healthySince = 0
    · by_contra hbad
      have hlt := hu hz e he (by simpa using hbad)
      rw [recoveringSince, if_pos hz] at helapsed
      have : wrapSub now now = 0 := by
        unfold wrapSub
        omega
      omega
    · rw [recoveringSince, if_neg hz] at helapsed
      have ht := hr.timer
      have : wrapSub now r.health.healthySince = now - r.health.healthySince := by
        unfold wrapSub
        omega
      exact hr.clean hh hz e he (by omega)
  · rw [List.mem_singleton.mp he]
    exact hg

/-- A source that fails, recovers and is then evaluated long after. -/
theorem recovery_hysteresis_run :
    ContinuousEvidence
      ([Call.evaluate 1, .transport true 2, .media 1 2, .evaluate 2, .media 2 302].foldl step
        (start 1000 500 0)) 502 :=
  @recovery_hysteresis _ _ _ _ [.evaluate 1, .transport true 2, .media 1 2, .evaluate 2,
    .media 2 302] (by simp only [List.cons_append, List.nil_append, StepRun.Meets]; decide)

/-- Evidence that fails during the recovery period does not restart it. -/
theorem recovery_survives_bad_evidence :
    StepRun.Meets step Timely (start 50 500 0)
        [.evaluate 1, .transport true 2, .media 1 2, .evaluate 2, .evaluate 100, .media 2 502,
          .evaluate 502] ∧
      ¬ ContinuousEvidence
        ([Call.evaluate 1, .transport true 2, .media 1 2, .evaluate 2, .evaluate 100,
          .media 2 502].foldl step (start 50 500 0)) 502 := by
  refine ⟨?_, by decide⟩
  simp only [StepRun.Meets]
  decide

end MediaHealth
