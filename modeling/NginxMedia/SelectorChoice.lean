import NginxMedia.MediaProgram
import Mathlib.Data.List.MinMax

/-! What `ngx_media_selector_run()` decides, in terms of the sources as the evaluation left
them: the standbys it prefers, and the source it keeps or promotes. The active source is
judged by its health alone, which is where the operator's desired state gets lost. -/
namespace SelectorChoice

open MediaTypes MediaCompat MediaStream StreamMoves MediaProgram

def programTracks (s : Stream) : Option TrackSet :=
  match s.active with
  | some a => (s.source a).tracks
  | none => none

def evaluated (s : Stream) (now r : ℕ) : Source :=
  refresh (programTracks s) (decide (s.active = some r)) now (s.source r)

structure Candidate (s : Stream) (now r : ℕ) : Prop where
  listed : r ∈ s.sources
  enabled : (s.source r).enabled = true
  eligible : (evaluated s now r).health.eligible = true

def Compatible (s : Stream) (r : ℕ) : Prop :=
  s.active = some r ∨ classify (programTracks s) (s.source r).tracks ≠ .incompatible

def chosen (s : Stream) (now : ℕ) : Option ℕ := (runTarget s now).or s.active

def OnTheWay (t : Stream) (r : ℕ) : Prop :=
  t.active = some r ∨ ((t.source r).state = .awaitingSync ∧ (t.source r).pendingSwitch = true)

def Unbeaten (s : Stream) (now r : ℕ) : Prop :=
  ∀ c, Candidate s now c → Compatible s c → (s.source c).priority ≤ (s.source r).priority

/-- `r` is the source the operator's settings ask for. -/
structure Desired (s : Stream) (now r : ℕ) : Prop where
  candidate : Candidate s now r
  compatible : ∀ c, Candidate s now c → Compatible s c → Compatible s r
  unbeaten : Unbeaten s now r

def Obeys (s : Stream) (now : ℕ) (t : Stream) : Prop :=
  (∃ c, Candidate s now c) → ∃ r, chosen s now = some r ∧ OnTheWay t r ∧ Desired s now r

/-- The active source is disabled but looks well, others could take over, and none of them
that suits the program has more priority. -/
def Clings (s : Stream) (now : ℕ) : Prop :=
  ∃ a, s.active = some a ∧ (s.source a).enabled = false ∧
    (evaluated s now a).health.eligible = true ∧ (∃ c, Candidate s now c) ∧
    Unbeaten s now a

def standby (s : Stream) (now r : ℕ) : Bool :=
  decide (s.active ≠ some r) && (s.source r).enabled && (evaluated s now r).health.eligible

def suits (s : Stream) (r : ℕ) : Bool :=
  decide (classify (programTracks s) (s.source r).tracks ≠ .incompatible)

def tally (s : Stream) (now : ℕ) (out : SelectorResult) (r : ℕ) : SelectorResult :=
  if s.active = some r then
    { out with activeEligible := (evaluated s now r).health.eligible }
  else if standby s now r then
    if suits s r then { out with eligible := out.eligible + 1, best := prefer s out.best r }
    else { out with eligible := out.eligible + 1, emergency := prefer s out.emergency r }
  else out

theorem prefer_congr {s t : Stream} (h : ∀ q, (t.source q).priority = (s.source q).priority)
    (o : Option ℕ) (r : ℕ) : prefer t o r = prefer s o r := by
  cases o with
  | none => rfl
  | some c => simp only [prefer, h]

theorem evaluateOne_tally {s t : Stream} (now : ℕ) (out : SelectorResult) {r : ℕ}
    (ha : t.active = s.active) (hr : t.source r = s.source r)
    (hp : ∀ q, (t.source q).priority = (s.source q).priority) :
    evaluateOne (programTracks s) now (t, out) r =
      (alter t r fun _ => evaluated s now r, tally s now out r) := by
  have hcell : refresh (programTracks s) (decide (t.active = some r)) now (t.source r) =
      evaluated s now r := by rw [ha, hr]; rfl
  have halter : alter t r (refresh (programTracks s) (decide (t.active = some r)) now) =
      alter t r fun _ => evaluated s now r := by
    simp only [alter, hcell]
  have hself : (alter t r fun _ => evaluated s now r).source r = evaluated s now r := by
    simp [alter]
  have hprefer : ∀ o : Option ℕ, prefer (alter t r fun _ => evaluated s now r) o r =
      prefer s o r := by
    refine fun o => prefer_congr (fun q => ?_) o r
    by_cases hq : q = r
    · rw [hq, hself]
      rfl
    · rw [alter_source_ne t hq, hp q]
  have hactive : (alter t r fun _ => evaluated s now r).active = s.active := ha
  simp only [evaluateOne, halter, hself, hactive, hprefer, tally, standby, suits]
  have henabled : (evaluated s now r).enabled = (s.source r).enabled := rfl
  have hcompat : (evaluated s now r).compat =
      some (classify (programTracks s) (s.source r).tracks) := rfl
  rw [henabled, hcompat]
  split_ifs <;> simp_all

theorem foldl_evaluateOne {s : Stream} (now : ℕ) (refs : List ℕ) :
    ∀ (t : Stream) (out : SelectorResult), refs.Nodup → t.active = s.active →
      (∀ r ∈ refs, t.source r = s.source r) →
      (∀ q, (t.source q).priority = (s.source q).priority) →
      (refs.foldl (evaluateOne (programTracks s) now) (t, out)).2 =
        refs.foldl (tally s now) out := by
  induction refs with
  | nil => exact fun _ _ _ _ _ _ => rfl
  | cons r rest ih =>
    intro t out hnd ha hcells hp
    obtain ⟨hr, hrest⟩ := List.nodup_cons.mp hnd
    rw [List.foldl_cons, List.foldl_cons,
      evaluateOne_tally now out ha (hcells r List.mem_cons_self) hp]
    refine ih _ _ hrest ha (fun q hq => ?_) (fun q => ?_)
    · have hne : q ≠ r := fun he => hr (he ▸ hq)
      rw [alter_source_ne t hne]
      exact hcells q (List.mem_cons_of_mem r hq)
    · by_cases hq : q = r
      · rw [hq]
        simp only [alter, Function.update_self]
        rfl
      · rw [alter_source_ne t hq]
        exact hp q

theorem selectorEvaluate_result {s : Stream} (hnd : s.sources.Nodup) (now : ℕ) :
    (selectorEvaluate s now).2 = s.sources.foldl (tally s now) ⟨none, none, 0, true⟩ :=
  foldl_evaluateOne now s.sources s _ hnd rfl (fun _ _ => rfl) (fun _ => rfl)

theorem foldl_prefer (s : Stream) (refs : List ℕ) :
    refs.foldl (prefer s) none = refs.argmax fun r => (s.source r).priority := by
  have hstep : prefer s =
      List.argAux fun b c => (s.source c).priority < (s.source b).priority := by
    funext o r
    cases o <;> rfl
  rw [hstep]
  rfl

theorem tally_best (s : Stream) (now : ℕ) (refs : List ℕ) (out : SelectorResult) :
    (refs.foldl (tally s now) out).best =
      (refs.filter fun r => standby s now r && suits s r).foldl (prefer s) out.best := by
  induction refs generalizing out with
  | nil => rfl
  | cons r rest ih =>
    rw [List.foldl_cons, ih, List.filter_cons]
    unfold tally
    split_ifs with ha hs hc <;> simp_all [standby]

theorem tally_emergency (s : Stream) (now : ℕ) (refs : List ℕ) (out : SelectorResult) :
    (refs.foldl (tally s now) out).emergency =
      (refs.filter fun r => standby s now r && !suits s r).foldl (prefer s) out.emergency := by
  induction refs generalizing out with
  | nil => rfl
  | cons r rest ih =>
    rw [List.foldl_cons, ih, List.filter_cons]
    unfold tally
    split_ifs with ha hs hc <;> simp_all [standby]

theorem tally_active (s : Stream) (now : ℕ) {a : ℕ} (ha : s.active = some a) (refs : List ℕ)
    (out : SelectorResult) :
    (refs.foldl (tally s now) out).activeEligible =
      if a ∈ refs then (evaluated s now a).health.eligible else out.activeEligible := by
  induction refs generalizing out with
  | nil => rfl
  | cons r rest ih =>
    have hone : (tally s now out r).activeEligible =
        if a = r then (evaluated s now a).health.eligible else out.activeEligible := by
      unfold tally
      split_ifs <;> simp_all
    rw [List.foldl_cons, ih, hone]
    by_cases hmem : a ∈ rest <;> simp [hmem]

theorem selectorEvaluate_settings (s : Stream) (now : ℕ) :
    (selectorEvaluate s now).1.selector = s.selector ∧
      ∀ q, ((selectorEvaluate s now).1.source q).priority = (s.source q).priority := by
  have hone : ∀ (program : Option TrackSet) (acc : Stream × SelectorResult) (r : ℕ),
      (evaluateOne program now acc r).1.selector = acc.1.selector ∧
        ∀ q, ((evaluateOne program now acc r).1.source q).priority =
          (acc.1.source q).priority := by
    intro program acc r
    have hs : (evaluateOne program now acc r).1 =
        alter acc.1 r (refresh program (decide (acc.1.active = some r)) now) := by
      simp only [evaluateOne]
      split_ifs <;> rfl
    rw [hs]
    exact ⟨rfl, alter_cell acc.1 r _
      (fun q src => src.priority = (acc.1.source q).priority) rfl fun _ _ => rfl⟩
  have hfold : ∀ (program : Option TrackSet) (refs : List ℕ) (acc : Stream × SelectorResult),
      (refs.foldl (evaluateOne program now) acc).1.selector = acc.1.selector ∧
        ∀ q, ((refs.foldl (evaluateOne program now) acc).1.source q).priority =
          (acc.1.source q).priority := by
    intro program refs
    induction refs with
    | nil => exact fun _ => ⟨rfl, fun _ => rfl⟩
    | cons r rest ih =>
      intro acc
      obtain ⟨hs, hp⟩ := hone program acc r
      obtain ⟨hs', hp'⟩ := ih (evaluateOne program now acc r)
      exact ⟨hs'.trans hs, fun q => (hp' q).trans (hp q)⟩
  exact hfold _ s.sources _

section Found

variable {s : Stream} {now : ℕ}

theorem standby_iff {r : ℕ} : r ∈ s.sources ∧ standby s now r = true ↔
    s.active ≠ some r ∧ Candidate s now r := by
  simp only [standby, Bool.and_eq_true, decide_eq_true_eq]
  exact ⟨fun ⟨hl, ⟨hna, he⟩, hh⟩ => ⟨hna, hl, he, hh⟩,
    fun ⟨hna, hl, he, hh⟩ => ⟨hl, ⟨hna, he⟩, hh⟩⟩

theorem compatible_of_suits {r : ℕ} (h : suits s r = true) : Compatible s r :=
  Or.inr (of_decide_eq_true h)

theorem suits_of_compatible {r : ℕ} (h : Compatible s r) (hna : s.active ≠ some r) :
    suits s r = true :=
  decide_eq_true (h.resolve_left hna)

theorem best_eq (hnd : s.sources.Nodup) : (selectorEvaluate s now).2.best =
    (s.sources.filter fun r => standby s now r && suits s r).argmax
      fun r => (s.source r).priority := by
  rw [selectorEvaluate_result hnd, tally_best, foldl_prefer]

theorem emergency_eq (hnd : s.sources.Nodup) : (selectorEvaluate s now).2.emergency =
    (s.sources.filter fun r => standby s now r && !suits s r).argmax
      fun r => (s.source r).priority := by
  rw [selectorEvaluate_result hnd, tally_emergency, foldl_prefer]

theorem best_some (hnd : s.sources.Nodup) {b : ℕ}
    (hb : (selectorEvaluate s now).2.best = some b) :
    Candidate s now b ∧ Compatible s b ∧
      ∀ c, s.active ≠ some c → Candidate s now c → Compatible s c →
        (s.source c).priority ≤ (s.source b).priority := by
  rw [best_eq hnd] at hb
  obtain ⟨hl, hok⟩ := List.mem_filter.mp (List.argmax_mem hb)
  obtain ⟨hs, hc⟩ := (Bool.and_eq_true _ _).mp hok
  refine ⟨(standby_iff.mp ⟨hl, hs⟩).2, compatible_of_suits hc, fun c hna hcand hcomp => ?_⟩
  obtain ⟨hcl, hcs⟩ := standby_iff.mpr ⟨hna, hcand⟩
  have hmem : c ∈ s.sources.filter fun r => standby s now r && suits s r :=
    List.mem_filter.mpr ⟨hcl, by rw [hcs, suits_of_compatible hcomp hna, Bool.and_self]⟩
  exact List.le_of_mem_argmax (f := fun r => (s.source r).priority) hmem hb

theorem best_none (hnd : s.sources.Nodup) (hb : (selectorEvaluate s now).2.best = none) {c : ℕ}
    (hna : s.active ≠ some c) (hcand : Candidate s now c) : ¬ Compatible s c := by
  intro hcomp
  rw [best_eq hnd, List.argmax_eq_none, List.filter_eq_nil_iff] at hb
  obtain ⟨hcl, hcs⟩ := standby_iff.mpr ⟨hna, hcand⟩
  exact hb c hcl (by rw [hcs, suits_of_compatible hcomp hna, Bool.and_self])

theorem emergency_some (hnd : s.sources.Nodup) {m : ℕ}
    (hm : (selectorEvaluate s now).2.emergency = some m) :
    Candidate s now m := by
  rw [emergency_eq hnd] at hm
  obtain ⟨hl, hok⟩ := List.mem_filter.mp (List.argmax_mem hm)
  exact (standby_iff.mp ⟨hl, ((Bool.and_eq_true _ _).mp hok).1⟩).2

theorem none_found (hnd : s.sources.Nodup) (hb : (selectorEvaluate s now).2.best = none)
    (hm : (selectorEvaluate s now).2.emergency = none) {c : ℕ} (hcand : Candidate s now c) :
    s.active = some c := by
  by_contra hna
  rw [emergency_eq hnd, List.argmax_eq_none, List.filter_eq_nil_iff] at hm
  obtain ⟨hcl, hcs⟩ := standby_iff.mpr ⟨hna, hcand⟩
  have hno : suits s c = false := by
    by_contra hyes
    exact best_none hnd hb hna hcand (compatible_of_suits (by simpa using hyes))
  exact hm c hcl (by rw [hcs, hno]; rfl)

theorem activeEligible_eq (hnd : s.sources.Nodup) {a : ℕ} (ha : s.active = some a)
    (hl : a ∈ s.sources) : (selectorEvaluate s now).2.activeEligible =
      (evaluated s now a).health.eligible := by
  rw [selectorEvaluate_result hnd, tally_active s now ha, if_pos hl]

theorem found_desired (hnd : s.sources.Nodup) (hout : ∀ c, Candidate s now c → s.active ≠ some c)
    (hex : ∃ c, Candidate s now c) :
    ∃ r, (selectorEvaluate s now).2.best.or (selectorEvaluate s now).2.emergency = some r ∧
      Desired s now r := by
  obtain ⟨c, hc⟩ := hex
  cases hb : (selectorEvaluate s now).2.best with
  | some b =>
    obtain ⟨hcand, hcomp, hmax⟩ := best_some hnd hb
    exact ⟨b, rfl, hcand, fun _ _ _ => hcomp, fun c hc => hmax c (hout c hc) hc⟩
  | none =>
    have hnone : ∀ c, Candidate s now c → ¬ Compatible s c :=
      fun c hc => best_none hnd hb (hout c hc) hc
    cases hm : (selectorEvaluate s now).2.emergency with
    | none => exact absurd (none_found hnd hb hm hc) (hout c hc)
    | some m =>
      exact ⟨m, rfl, emergency_some hnd hm, fun c hc hcomp => absurd hcomp (hnone c hc),
        fun c hc hcomp => absurd hcomp (hnone c hc)⟩

end Found

section Decision

variable {s : Stream} {now : ℕ}

theorem evaluated_active : (selectorEvaluate s now).1.active = s.active :=
  (selectorEvaluate_same s now).1.active

theorem runTarget_failover (h : ∀ a, s.active = some a →
    (selectorEvaluate s now).2.activeEligible = false) :
    runTarget s now = (selectorEvaluate s now).2.best.or (selectorEvaluate s now).2.emergency := by
  unfold runTarget
  dsimp only
  rw [evaluated_active]
  cases ha : s.active with
  | none => rfl
  | some a => simp only [h a ha, Bool.false_eq_true, if_false]

theorem runTarget_switchback {a : ℕ} (ha : s.active = some a)
    (helig : (selectorEvaluate s now).2.activeEligible = true)
    (hauto : s.selector.switchback = .auto) :
    runTarget s now = (selectorEvaluate s now).2.best.filter fun b =>
      decide ((s.source b).priority > (s.source a).priority) := by
  obtain ⟨hsel, hprio⟩ := selectorEvaluate_settings s now
  unfold runTarget
  dsimp only
  rw [evaluated_active, ha]
  simp only [helig, if_true, hprio, hsel, hauto, and_true]

def CarriedOut (u : Stream) (target : Option ℕ) (result : Stream × Rc) : Prop :=
  match target with
  | some r => ∃ t, t.active = u.active ∧ result = promote t r
  | none => result = (u, .ok)

theorem failover_carriedOut (u : Stream) (res : SelectorResult) :
    CarriedOut u (res.best.or res.emergency) (failover u res) := by
  unfold failover
  cases hb : res.best with
  | some b => exact ⟨u, rfl, rfl⟩
  | none =>
    cases hm : res.emergency with
    | some m => exact ⟨{ u with emergencySwitches := u.emergencySwitches + 1 }, rfl, rfl⟩
    | none => exact rfl

theorem selectorRun_carriedOut (s : Stream) (now : ℕ) :
    CarriedOut (selectorEvaluate s now).1 (runTarget s now) (selectorRun s now) := by
  unfold runTarget selectorRun
  dsimp only
  cases ha : (selectorEvaluate s now).1.active with
  | none => exact failover_carriedOut _ _
  | some a =>
    dsimp only
    split_ifs with helig
    · cases hb : (selectorEvaluate s now).2.best with
      | none => exact rfl
      | some b =>
        dsimp only
        split_ifs with hprio
        · rw [Option.filter_some, if_pos (decide_eq_true hprio)]
          exact ⟨_, rfl, rfl⟩
        · rw [Option.filter_some, if_neg (by simpa using hprio)]
          exact rfl
    · exact failover_carriedOut _ _

theorem writeProgram_active (t : Stream) (r : ℕ) (frame : Frame) (now : ℕ) :
    (writeProgram t r frame now).1.active = t.active := by
  unfold writeProgram
  dsimp only
  split <;> rfl

theorem activate_active (t : Stream) (r now : ℕ) : (activate t r now).active = some r := by
  have hreplay : ∀ (frames : List Frame) (t : Stream),
      (replay t r now frames).active = t.active := by
    intro frames
    induction frames with
    | nil => exact fun _ => rfl
    | cons frame rest ih =>
      exact fun t => (ih (writeProgram t r frame now).1).trans (writeProgram_active t r frame now)
  exact hreplay _ _

theorem promote_onTheWay {t : Stream} {r : ℕ} (h : (promote t r).2 = .ok) :
    OnTheWay (promote t r).1 r := by
  unfold promote at h ⊢
  split_ifs at h ⊢ with hu hact
  · exact Or.inl hact
  · dsimp only at h ⊢
    split_ifs at h ⊢ with hready
    · left
      unfold switchNow at h ⊢
      split at h
      · exact activate_active _ _ _
      · next old hold =>
        have hne : old ≠ r := fun he => hact (by rw [← he]; exact hold)
        simp only [if_neg hne] at h ⊢
        split_ifs at h ⊢
        exact activate_active _ _ _
    · right
      simp [alter, Source.awaiting]

theorem chosen_onTheWay {r : ℕ} (hok : (selectorRun s now).2 = .ok)
    (hr : chosen s now = some r) : OnTheWay (selectorRun s now).1 r := by
  have hrun := selectorRun_carriedOut s now
  unfold chosen at hr
  cases htarget : runTarget s now with
  | some q =>
    rw [htarget, Option.some_or] at hr
    cases hr
    rw [htarget] at hrun
    obtain ⟨t, -, ht⟩ := hrun
    rw [ht] at hok ⊢
    exact promote_onTheWay hok
  | none =>
    rw [htarget, Option.none_or] at hr
    rw [htarget] at hrun
    have hstay : selectorRun s now = ((selectorEvaluate s now).1, .ok) := hrun
    rw [hstay]
    exact Or.inl (evaluated_active.trans hr)

theorem obeys_of_desired {r : ℕ} (hok : (selectorRun s now).2 = .ok)
    (hr : chosen s now = some r) (hdes : Desired s now r) : Obeys s now (selectorRun s now).1 :=
  fun _ => ⟨r, hr, chosen_onTheWay hok hr, hdes⟩

theorem failover_obeys (hnd : s.sources.Nodup) (hok : (selectorRun s now).2 = .ok)
    (hlost : ∀ a, s.active = some a → (selectorEvaluate s now).2.activeEligible = false)
    (hout : ∀ c, Candidate s now c → s.active ≠ some c) :
    Obeys s now (selectorRun s now).1 := by
  intro hex
  obtain ⟨r, hr, hdes⟩ := found_desired hnd hout hex
  have hchosen : chosen s now = some r := by
    rw [chosen, runTarget_failover hlost, hr, Option.some_or]
  exact ⟨r, hchosen, chosen_onTheWay hok hchosen, hdes⟩

theorem active_desired_iff {a : ℕ} (ha : s.active = some a) (hl : a ∈ s.sources)
    (helig : (evaluated s now a).health.eligible = true) :
    Desired s now a ↔ (s.source a).enabled = true ∧ Unbeaten s now a :=
  ⟨fun h => ⟨h.candidate.enabled, h.unbeaten⟩,
    fun ⟨he, hu⟩ => ⟨⟨hl, he, helig⟩, fun _ _ _ => Or.inl ha, hu⟩⟩

end Decision

/-- The run ends on a desired source unless a disabled one that looks well clings to the
air. -/
theorem selectorRun_obeys_iff {s : Stream} {now : ℕ} (hnd : s.sources.Nodup)
    (hactive : ∀ a, s.active = some a → a ∈ s.sources)
    (hauto : s.selector.switchback = .auto) (hok : (selectorRun s now).2 = .ok) :
    Obeys s now (selectorRun s now).1 ↔ ¬ Clings s now := by
  cases ha : s.active with
  | none =>
    have hidle : ∀ a, s.active ≠ some a := fun a h => by rw [ha] at h; cases h
    refine iff_of_true (failover_obeys hnd hok (fun a h => absurd h (hidle a))
      fun c _ => hidle c) ?_
    rintro ⟨a, h, -⟩
    exact hidle a h
  | some a =>
    have hl := hactive a ha
    have hae : (selectorEvaluate s now).2.activeEligible =
        (evaluated s now a).health.eligible := activeEligible_eq hnd ha hl
    have hsame : ∀ {c}, s.active = some c → c = a := fun h => Option.some.inj (h.symm.trans ha)
    cases helig : (evaluated s now a).health.eligible with
    | false =>
      rw [helig] at hae
      refine iff_of_true (failover_obeys hnd hok (fun _ _ => hae) fun c hc h => ?_) ?_
      · have := hc.eligible
        rw [hsame h, helig] at this
        cases this
      · rintro ⟨c, h, -, he, -⟩
        rw [hsame h, helig] at he
        cases he
    | true =>
      rw [helig] at hae
      have htarget := runTarget_switchback ha hae hauto
      by_cases hhigher : ∃ b, (selectorEvaluate s now).2.best = some b ∧
          (s.source b).priority > (s.source a).priority
      · -- a standby of higher priority suits: the run switches to it
        obtain ⟨b, hb, hgt⟩ := hhigher
        obtain ⟨hcand, hcomp, hmax⟩ := best_some hnd hb
        have hdes : Desired s now b := by
          refine ⟨hcand, fun _ _ _ => hcomp, fun c hc hcc => ?_⟩
          by_cases hca : s.active = some c
          · rw [hsame hca]
            exact hgt.le
          · exact hmax c hca hc hcc
        have hchosen : chosen s now = some b := by
          rw [chosen, htarget, hb, Option.filter_some, if_pos (decide_eq_true hgt),
            Option.some_or]
        refine iff_of_true (obeys_of_desired hok hchosen hdes) ?_
        rintro ⟨c, h, -, -, -, hu⟩
        rw [hsame h] at hu
        exact absurd (hu b hcand hcomp) (not_le.mpr hgt)
      · -- the run leaves the active source alone
        have hnone : runTarget s now = none := by
          rw [htarget, Option.filter_eq_none_iff]
          exact fun b hb => by simpa using fun hgt => hhigher ⟨b, hb, hgt⟩
        have hchosen : chosen s now = some a := by rw [chosen, hnone, Option.none_or, ha]
        have hunbeaten : Unbeaten s now a := by
          intro c hc hcc
          by_cases hca : s.active = some c
          · rw [hsame hca]
          · cases hb : (selectorEvaluate s now).2.best with
            | none => exact absurd hcc (best_none hnd hb hca hc)
            | some b =>
              have hle := (best_some hnd hb).2.2 c hca hc hcc
              exact hle.trans (not_lt.mp fun hgt => hhigher ⟨b, hb, hgt⟩)
        have hdes := active_desired_iff ha hl helig
        constructor
        · rintro hobeys ⟨c, h, hdis, -, hex, -⟩
          obtain ⟨r, hr, -, hd⟩ := hobeys hex
          have hen := hd.candidate.enabled
          rw [Option.some.inj (hr.symm.trans hchosen), ← hsame h, hdis] at hen
          cases hen
        · intro hcling hex
          have hen : (s.source a).enabled = true := by
            by_contra hdis
            exact hcling ⟨a, ha, by simpa using hdis, helig, hex, hunbeaten⟩
          exact ⟨a, hchosen, chosen_onTheWay hok hchosen, hdes.mpr ⟨hen, hunbeaten⟩⟩

def bothSending : List Call :=
  [.sourceAdd [97] 1 1 true true, .sourceAdd [98] 1 1 true true,
    .observe 0 (.healthInit 1500 10000 5), .observe 1 (.healthInit 1500 10000 5),
    .observe 0 (.transport true 10), .observe 1 (.transport true 10), .promote 0,
    .publish 0 (videoFrame true false 100) 10, .publish 1 (videoFrame true false 700) 20]

def sending : Stream := (run (start smallFeed selectorAuto) bothSending).stream

/-- The operator has disabled the source on the air. -/
def withdrawn : Stream :=
  (run (start smallFeed selectorAuto) (bothSending ++ [.observe 0 (.enabled false)])).stream

/-- Both sources are wanted, and the run keeps the one on the air. -/
theorem sending_obeys : Obeys sending 30 (selectorRun sending 30).1 := by
  refine (selectorRun_obeys_iff (by decide) ?_ rfl (by decide)).mpr ?_
  · intro a ha
    obtain rfl : 0 = a := Option.some.inj ha
    decide
  · rintro ⟨a, ha, hdis, -⟩
    obtain rfl : 0 = a := Option.some.inj ha
    exact absurd hdis (by decide)

theorem withdrawn_stays_on_air :
    withdrawn.sources.Nodup ∧ (∀ a, withdrawn.active = some a → a ∈ withdrawn.sources) ∧
      withdrawn.selector.switchback = .auto ∧ (selectorRun withdrawn 30).2 = .ok ∧
      Candidate withdrawn 30 1 ∧ (selectorRun withdrawn 30).1.active = some 0 ∧
      (withdrawn.source 0).enabled = false ∧
      ¬ Obeys withdrawn 30 (selectorRun withdrawn 30).1 := by
  have hcand : Candidate withdrawn 30 1 := ⟨by decide, by decide, by decide⟩
  refine ⟨by decide, fun a ha => ?_, rfl, by decide, hcand, by decide, by decide, fun h => ?_⟩
  · obtain rfl : 0 = a := Option.some.inj ha
    decide
  · obtain ⟨r, hr, -, hdes⟩ := h ⟨1, hcand⟩
    have hzero : chosen withdrawn 30 = some 0 := by decide
    obtain rfl : r = 0 := Option.some.inj (hr.symm.trans hzero)
    exact absurd hdes.candidate.enabled (by decide)

end SelectorChoice
