import NginxMedia.MediaHealth
import Mathlib.Order.Nat

/-! Why a source was failed. The observations a health record got are kept beside it, and an
evaluation that turns the record unhealthy is compared with them. The record measures
progress against the largest dts it has seen, so a frame that goes on from a small step back
counts for nothing. -/
namespace HealthFailure

open MediaHealth StepRun

/-- A health record with what its source was observed to do: whether the transport is up,
the media frames with their times and dts, and the times of new container errors. -/
structure Watched where
  record : Record
  up : Bool
  frames : List (ℕ × ℤ)
  errors : List ℕ
  deriving DecidableEq, Repr

def watching (failureTimeout recoveryTimeout now : ℕ) : Watched :=
  ⟨MediaHealth.start failureTimeout recoveryTimeout now, false, [], []⟩

def watch (w : Watched) (call : Call) : Watched :=
  let w' := { w with record := MediaHealth.step w.record call }
  match call with
  | .transport up _ => { w' with up := up }
  | .media dts now => { w' with frames := w.frames ++ [(now, dts)] }
  | .container errors now =>
    if errors > w.record.health.containerErrors then { w' with errors := w.errors ++ [now] }
    else w'
  | .tracks _ | .evaluate _ => w'

/-- A frame with a dts greater than that of the frame before it came at `u`. -/
def Advanced (frames : List (ℕ × ℤ)) (u : ℕ) : Prop :=
  ∃ (i x : ℕ) (d e : ℤ), frames[i]? = some (x, d) ∧ frames[i + 1]? = some (u, e) ∧ d < e

/-- What may turn a source unhealthy at `t`. -/
inductive Justified (w : Watched) (t : ℕ) : Prop where
  | transport : w.up = false → Justified w t
  | container (u : ℕ) : u ∈ w.errors → t < u + w.record.health.recoveryTimeout → Justified w t
  | media : (∀ f ∈ w.frames, f.1 + w.record.health.failureTimeout < t) → Justified w t
  | timestamps : (∀ u, Advanced w.frames u → u + w.record.health.failureTimeout < t) →
      Justified w t

def FailsRightly (w : Watched) (t : ℕ) : Prop :=
  w.record.health.healthy = true → (evaluate w.record.health t).healthy = false → Justified w t

/-- The test by which `ngx_media_health_media()` counts a frame as progress. -/
def counts (h : Health) (dts : ℤ) : Bool :=
  decide (dts > h.lastDts) || (decide (h.lastDts ≠ 0) && decide (h.lastDts - dts > 90000))

def Counted (w : Watched) : Call → Prop
  | .media dts _ => ∀ f ∈ w.frames.getLast?, f.2 < dts → counts w.record.health dts = true
  | _ => True

instance (w : Watched) : (call : Call) → Decidable (Counted w call)
  | .media .. => inferInstanceAs (Decidable (∀ f ∈ w.frames.getLast?, _ → _))
  | .transport .. | .container .. | .tracks _ | .evaluate _ => .isTrue trivial

theorem advanced_concat {frames : List (ℕ × ℤ)} {now u : ℕ} {dts : ℤ}
    (h : Advanced (frames ++ [(now, dts)]) u) :
    Advanced frames u ∨ (u = now ∧ ∃ f ∈ frames.getLast?, f.2 < dts) := by
  obtain ⟨i, x, d, e, hi, hnext, hlt⟩ := h
  have hlen : i + 1 < (frames ++ [(now, dts)]).length :=
    (List.getElem?_eq_some_iff.mp hnext).1
  rw [List.length_append, List.length_singleton] at hlen
  have hleft : frames[i]? = some (x, d) := by
    rw [← hi, List.getElem?_append_left (by omega)]
  by_cases hlast : i + 1 < frames.length
  · left
    exact ⟨i, x, d, e, hleft, by rw [← hnext, List.getElem?_append_left hlast], hlt⟩
  · right
    have hend : i + 1 = frames.length := by omega
    rw [hend, List.getElem?_concat_length, Option.some_inj, Prod.mk.injEq] at hnext
    refine ⟨hnext.1.symm, (x, d), ?_, hnext.2 ▸ hlt⟩
    rw [List.getLast?_eq_getElem?, ← hend]
    exact hleft

theorem not_advanced_nil (u : ℕ) : ¬ Advanced [] u := by
  rintro ⟨i, x, d, e, h, -⟩
  simp at h

structure Observant (w : Watched) : Prop where
  required : w.record.health.required = .requiredLayers
  up : w.record.health.evidence.transportUp = w.up
  media : ∀ f ∈ w.frames, f.1 ≤ w.record.health.lastMedia
  progress : ∀ u, Advanced w.frames u → u ≤ w.record.health.lastTsProgress
  container : w.record.health.healthy = true → w.record.health.evidence.containerValid = false →
    w.record.health.lastContainerError ∈ w.errors
  media_clock : w.record.health.lastMedia ≤ w.record.clock
  progress_clock : w.record.health.lastTsProgress ≤ w.record.clock
  container_clock : w.record.health.lastContainerError ≤ w.record.clock

theorem watching_observant (failureTimeout recoveryTimeout now : ℕ) :
    Observant (watching failureTimeout recoveryTimeout now) where
  required := rfl
  up := rfl
  media := fun f hf => absurd hf List.not_mem_nil
  progress := fun u hu => absurd hu (not_advanced_nil u)
  container := fun _ h => by simp [watching, MediaHealth.start, MediaHealth.init] at h
  media_clock := Nat.le_refl _
  progress_clock := Nat.le_refl _
  container_clock := Nat.zero_le _

theorem media_eq (h : Health) (dts : ℤ) (now : ℕ) :
    media h dts now =
      if counts h dts then { h with lastMedia := now, lastDts := dts, lastTsProgress := now }
      else { h with lastMedia := now } := by
  have htest : counts h dts = true ↔
      dts > h.lastDts ∨ (h.lastDts ≠ 0 ∧ h.lastDts - dts > 90000) := by
    simp [counts]
  unfold media
  dsimp only
  by_cases hahead : dts > h.lastDts
  · rw [if_pos hahead, if_pos (htest.mpr (Or.inl hahead))]
  · rw [if_neg hahead]
    by_cases hback : h.lastDts ≠ 0 ∧ h.lastDts - dts > 90000
    · rw [if_pos hback, if_pos (htest.mpr (Or.inr hback))]
    · rw [if_neg hback, if_neg fun hc => (htest.mp hc).elim hahead hback]

theorem observant_media {w : Watched} (h : Observant w) {dts : ℤ} {now : ℕ}
    (hnow : w.record.clock ≤ now) (hcounted : Counted w (.media dts now)) :
    Observant (watch w (.media dts now)) := by
  have hm := h.media_clock
  have hp := h.progress_clock
  have hc := h.container_clock
  have heq := media_eq w.record.health dts now
  have hframes : ∀ f ∈ w.frames ++ [(now, dts)], f.1 ≤ now := by
    intro f hf
    rcases List.mem_append.mp hf with hf | hf
    · exact (h.media f hf).trans (hm.trans hnow)
    · exact (congrArg Prod.fst (List.mem_singleton.mp hf)).le
  simp only [watch, MediaHealth.step, heq]
  split_ifs with hcount
  · refine ⟨h.required, h.up, hframes, fun u hu => ?_, h.container, Nat.le_refl _,
      Nat.le_refl _, hc.trans hnow⟩
    rcases advanced_concat hu with hu | ⟨rfl, -⟩
    · exact (h.progress u hu).trans (hp.trans hnow)
    · exact Nat.le_refl _
  · refine ⟨h.required, h.up, hframes, fun u hu => ?_, h.container, Nat.le_refl _,
      hp.trans hnow, hc.trans hnow⟩
    -- a frame that does not count is not ahead of the one before it
    rcases advanced_concat hu with hu | ⟨-, f, hf, hlt⟩
    · exact h.progress u hu
    · exact absurd (hcounted f hf hlt) hcount

theorem observant_transport {w : Watched} (h : Observant w) (up : Bool) {now : ℕ}
    (hnow : w.record.clock ≤ now) : Observant (watch w (.transport up now)) := by
  have hm := h.media_clock.trans hnow
  have hp := h.progress_clock.trans hnow
  have hc := h.container_clock.trans hnow
  cases up with
  | true => exact ⟨h.required, rfl, h.media, h.progress, h.container, hm, hp, hc⟩
  | false =>
    exact ⟨h.required, rfl, h.media, h.progress, fun hh => absurd hh Bool.false_ne_true, hm, hp,
      hc⟩

theorem observant_container {w : Watched} (h : Observant w) (errors : ℕ) {now : ℕ}
    (hnow : w.record.clock ≤ now) : Observant (watch w (.container errors now)) := by
  have hm := h.media_clock.trans hnow
  have hp := h.progress_clock.trans hnow
  have hc := h.container_clock.trans hnow
  simp only [watch, MediaHealth.step, MediaHealth.container]
  split_ifs with hnew
  · exact ⟨h.required, h.up, h.media, h.progress,
      fun _ _ => List.mem_append_right _ (List.mem_singleton_self now), hm, hp, Nat.le_refl _⟩
  · exact ⟨h.required, h.up, h.media, h.progress, h.container, hm, hp, hc⟩

theorem evaluate_keeps (h : Health) (now : ℕ) :
    ((evaluate h now).required = h.required ∧ (evaluate h now).evidence = observed h now ∧
      (evaluate h now).failureTimeout = h.failureTimeout) ∧
    (evaluate h now).lastMedia = h.lastMedia ∧
      (evaluate h now).lastTsProgress = h.lastTsProgress ∧
      (evaluate h now).lastContainerError = h.lastContainerError := by
  unfold evaluate
  dsimp only
  split_ifs <;> exact ⟨⟨rfl, rfl, rfl⟩, rfl, rfl, rfl⟩

theorem good_of_healthy {h : Health} {now : ℕ} (hh : (evaluate h now).healthy = true) :
    good h now = true := by
  by_contra hbad
  have hcov : (observed h now).covers h.required = false := by simpa [good] using hbad
  cases hw : h.healthy <;> simp [evaluate, hcov, hw] at hh

theorem good_iff {h : Health} (hreq : h.required = .requiredLayers) (now : ℕ) :
    good h now = true ↔ (observed h now).transportUp = true ∧
      (observed h now).dataFlowing = true ∧ (observed h now).containerValid = true ∧
      (observed h now).timestampsAdvancing = true ∧ (observed h now).mediaValid = true := by
  simp [good, hreq, Evidence.covers, Evidence.requiredLayers, and_assoc]

theorem observant_evaluate {w : Watched} (h : Observant w) {now : ℕ}
    (hnow : w.record.clock ≤ now) : Observant (watch w (.evaluate now)) := by
  obtain ⟨⟨hreq, hev, -⟩, hm, hp, hc⟩ := evaluate_keeps w.record.health now
  simp only [watch, MediaHealth.step]
  refine ⟨hreq.trans h.required, ?_, ?_, ?_, fun hh hinvalid => ?_, ?_, ?_, ?_⟩
  · rw [hev]
    exact h.up
  · rw [hm]
    exact h.media
  · rw [hp]
    exact h.progress
  · have hgood := ((good_iff h.required now).mp (good_of_healthy hh)).2.2.1
    rw [hev, hgood] at hinvalid
    cases hinvalid
  · rw [hm]
    exact h.media_clock.trans hnow
  · rw [hp]
    exact h.progress_clock.trans hnow
  · rw [hc]
    exact h.container_clock.trans hnow

theorem observant_watch (w : Watched) (call : Call) (h : Observant w)
    (hok : Timely w.record call ∧ Counted w call) : Observant (watch w call) := by
  obtain ⟨htime, hcounted⟩ := hok
  cases call with
  | transport up now => exact observant_transport h up htime.1
  | media dts now => exact observant_media h htime.1 hcounted
  | container errors now => exact observant_container h errors htime.1
  | tracks compatible =>
    exact ⟨h.required, h.up, h.media, h.progress, h.container, h.media_clock,
      h.progress_clock, h.container_clock⟩
  | evaluate now => exact observant_evaluate h htime.1

theorem wrapSub_of_le {a b : ℕ} (hle : b ≤ a) (ha : a < 2 ^ 64) :
    MediaTypes.wrapSub a b = a - b := by
  unfold MediaTypes.wrapSub
  omega

theorem failsRightly {w : Watched} (h : Observant w) {t : ℕ} (hclock : w.record.clock ≤ t)
    (ht : t < 2 ^ 64) : FailsRightly w t := by
  intro hhealthy hfail
  have hbad : ¬ good w.record.health t = true := by
    intro hgood
    rw [evaluate_healthy_good hhealthy hgood] at hfail
    cases hfail
  by_cases hup : w.up = true
  · have htransport : w.record.health.evidence.transportUp = true := h.up.trans hup
    have hsince : ∀ last, last ≤ w.record.clock →
        (MediaTypes.wrapSub t last ≤ w.record.health.failureTimeout ↔
          t ≤ last + w.record.health.failureTimeout) := by
      intro last hlast
      rw [wrapSub_of_le (hlast.trans hclock) ht]
      omega
    have hcontainer := wrapSub_of_le (h.container_clock.trans hclock) ht
    rw [good_iff h.required] at hbad
    simp only [observed, htransport, Bool.true_and, decide_eq_true_eq, Bool.or_eq_true,
      hsince _ h.media_clock, hsince _ h.progress_clock, hcontainer, true_and] at hbad
    by_cases hmedia : t ≤ w.record.health.lastMedia + w.record.health.failureTimeout
    · by_cases hts : t ≤ w.record.health.lastTsProgress + w.record.health.failureTimeout
      · have hinvalid : w.record.health.evidence.containerValid = false := by
          by_contra hvalid
          exact hbad ⟨hmedia, Or.inl (by simpa using hvalid), hts, hmedia⟩
        refine Justified.container _ (h.container hhealthy hinvalid) ?_
        by_contra hold
        exact hbad ⟨hmedia, Or.inr (by omega), hts, hmedia⟩
      · refine Justified.timestamps fun u hu => ?_
        have := h.progress u hu
        omega
    · refine Justified.media fun f hf => ?_
      have := h.media f hf
      omega
  · exact Justified.transport (by simpa using hup)

/-- In a run whose frames count whenever they are ahead of the one before, a source that is
failed has failed. -/
theorem failure_justified {failureTimeout recoveryTimeout t0 t : ℕ} {calls : List Call}
    (hrun : Meets watch (fun w call => Timely w.record call ∧ Counted w call)
      (watching failureTimeout recoveryTimeout t0) calls)
    (hclock : (calls.foldl watch (watching failureTimeout recoveryTimeout t0)).record.clock ≤ t)
    (ht : t < 2 ^ 64) :
    FailsRightly (calls.foldl watch (watching failureTimeout recoveryTimeout t0)) t :=
  failsRightly (invariant_of_meets observant_watch
    (watching_observant failureTimeout recoveryTimeout t0) hrun) hclock ht

/-- An encoder that stops after two frames is failed when the failure timeout is over. -/
theorem failure_justified_stopped :
    FailsRightly ([Call.transport true 5, .media 3000 10, .media 6000 50, .evaluate 60].foldl watch
      (watching 1000 5000 0)) 1100 := by
  refine failure_justified ?_ (by decide) (by decide)
  simp only [Meets]
  decide

/-- The encoder steps back by half a second and goes on from there, a frame every 40 ms. -/
def steppedBack : List Call :=
  [.transport true 5, .media 100000 10, .media 55000 50, .media 58600 90, .evaluate 100,
    .media 62200 130, .media 65800 170]

theorem stepped_back_fails :
    Meets watch (fun w call => Timely w.record call) (watching 100 5000 0) steppedBack ∧
      (steppedBack.foldl watch (watching 100 5000 0)).record.clock ≤ 175 ∧
      ¬ FailsRightly (steppedBack.foldl watch (watching 100 5000 0)) 175 := by
  refine ⟨by simp only [steppedBack, Meets]; decide, by decide, fun h => ?_⟩
  cases h (by decide) (by decide) with
  | transport hup => exact absurd hup (by decide)
  | container u hu => exact absurd hu (by decide +revert)
  | media hall => exact absurd (hall (170, 65800) (by decide)) (by decide)
  | timestamps hall =>
    exact absurd (hall 170 ⟨3, 130, 62200, 65800, by decide, by decide, by decide⟩) (by decide)

end HealthFailure
