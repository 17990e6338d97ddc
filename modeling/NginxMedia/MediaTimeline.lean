import Mathlib.Algebra.Order.Group.Int
import NginxMedia.MediaTypes
import NginxMedia.StepRun

/-! Timeline normalisation of `ngx_media_timeline.c`: source timestamps to monotonic
program timestamps, re-anchored at switches and at source clock regressions. -/
namespace MediaTimeline

structure Timeline where
  offset : ℤ
  lastProgramDts : ℤ
  lastProgramPts : ℤ
  switches : ℕ
  resyncs : ℕ
  anchored : Bool
  hasProgram : Bool
  deriving DecidableEq, Repr

def init : Timeline := ⟨0, 0, 0, 0, 0, false, false⟩

def discontinuity (t : Timeline) : Timeline :=
  { t with switches := t.switches + 1, anchored := false }

def anchor (t : Timeline) (dts : ℤ) : ℤ :=
  if t.anchored then t.offset
  else if t.switches = 0 then -dts
  else t.lastProgramDts + 1 - dts

def map (t : Timeline) (pts dts : ℤ) : Timeline × ℤ × ℤ :=
  let offset := anchor t dts
  if t.hasProgram ∧ dts + offset ≤ t.lastProgramDts then
    -- source clock discontinuity or drift: re-anchor, never regress
    let offset := t.lastProgramDts + 1 - dts
    ({ t with
        offset := offset
        anchored := true
        resyncs := t.resyncs + 1
        lastProgramDts := dts + offset
        lastProgramPts := pts + offset
        hasProgram := true }, pts + offset, dts + offset)
  else
    ({ t with
        offset := offset
        anchored := true
        lastProgramDts := dts + offset
        lastProgramPts := pts + offset
        hasProgram := true }, pts + offset, dts + offset)

theorem map_spec (t : Timeline) (pts dts : ℤ) :
    (map t pts dts).2.1 - (map t pts dts).2.2 = pts - dts ∧
      (map t pts dts).1.lastProgramDts = (map t pts dts).2.2 ∧
      (map t pts dts).1.hasProgram = true ∧
      (t.hasProgram → t.lastProgramDts < (map t pts dts).2.2) := by
  unfold map
  dsimp only
  split_ifs with hregress
  · exact ⟨by dsimp only; omega, rfl, rfl, fun _ => by dsimp only; omega⟩
  · refine ⟨by dsimp only; omega, rfl, rfl, fun hp => ?_⟩
    have : ¬ dts + anchor t dts ≤ t.lastProgramDts := fun hle => hregress ⟨hp, hle⟩
    dsimp only
    omega

/-- The frames of a program in the order they are mapped; `none` is a discontinuity. -/
def mapAll (t : Timeline) : List (Option (ℤ × ℤ)) → List ℤ
  | [] => []
  | none :: rest => mapAll (discontinuity t) rest
  | some (pts, dts) :: rest => (map t pts dts).2.2 :: mapAll (map t pts dts).1 rest

theorem mapAll_increasing (t : Timeline) (calls : List (Option (ℤ × ℤ))) :
    (mapAll t calls).Pairwise (· < ·) ∧
      (t.hasProgram → ∀ d ∈ mapAll t calls, t.lastProgramDts < d) := by
  induction calls generalizing t with
  | nil => simp [mapAll]
  | cons call rest ih =>
    cases call with
    | none => exact ih (discontinuity t)
    | some frame =>
      obtain ⟨pts, dts⟩ := frame
      obtain ⟨_, hlast, hprog, hadv⟩ := map_spec t pts dts
      obtain ⟨hpair, hrest⟩ := ih (map t pts dts).1
      have habove : ∀ d ∈ mapAll (map t pts dts).1 rest, (map t pts dts).2.2 < d := by
        intro d hd
        rw [← hlast]
        exact hrest hprog d hd
      refine ⟨List.pairwise_cons.mpr ⟨habove, hpair⟩, fun hp d hd => ?_⟩
      rcases List.mem_cons.mp hd with rfl | hd
      · exact hadv hp
      · exact lt_trans (hadv hp) (habove d hd)

def step (t : Timeline) : Option (ℤ × ℤ) → Timeline
  | none => discontinuity t
  | some (pts, dts) => (map t pts dts).1

/-- Every frame of a run as `(pts, dts)` of the source and of the program. -/
def mapped (t : Timeline) : List (Option (ℤ × ℤ)) → List ((ℤ × ℤ) × (ℤ × ℤ))
  | [] => []
  | none :: rest => mapped (discontinuity t) rest
  | some frame :: rest =>
    (frame, (map t frame.1 frame.2).2) :: mapped (map t frame.1 frame.2).1 rest

/-- The result of every signed 64-bit operation of one `ngx_media_timeline_map()`. -/
def signedResults (t : Timeline) (pts dts : ℤ) : List ℤ :=
  (if t.anchored then []
    else if t.switches = 0 then [-dts]
    else [t.lastProgramDts + 1, t.lastProgramDts + 1 - dts]) ++
  [dts + anchor t dts, pts + anchor t dts] ++
  (if t.hasProgram ∧ dts + anchor t dts ≤ t.lastProgramDts then
    [t.lastProgramDts + 1, t.lastProgramDts + 1 - dts, dts + (t.lastProgramDts + 1 - dts),
      pts + (t.lastProgramDts + 1 - dts)]
  else [])

def InRange33 (x : ℤ) : Prop := 0 ≤ x ∧ x < 2 ^ 33

def InRange64 (x : ℤ) : Prop := -2 ^ 63 ≤ x ∧ x < 2 ^ 63

def NoOverflow (t : Timeline) : Option (ℤ × ℤ) → Prop
  | none => True
  | some (pts, dts) => ∀ x ∈ signedResults t pts dts, InRange64 x

theorem mapped_dts (t : Timeline) (calls : List (Option (ℤ × ℤ))) :
    (mapped t calls).map (fun p => p.2.2) = mapAll t calls := by
  induction calls generalizing t with
  | nil => rfl
  | cons call rest ih =>
    cases call with
    | none => exact ih _
    | some frame => exact congrArg _ (ih _)

theorem mapped_source (t : Timeline) (calls : List (Option (ℤ × ℤ))) :
    (mapped t calls).map (fun p => p.1) = calls.filterMap id := by
  induction calls generalizing t with
  | nil => rfl
  | cons call rest ih =>
    cases call with
    | none => simpa [mapped] using ih _
    | some frame => simpa [mapped] using ih _

theorem mapped_composition {t : Timeline} {calls : List (Option (ℤ × ℤ))}
    {p : (ℤ × ℤ) × (ℤ × ℤ)} (hp : p ∈ mapped t calls) : p.2.1 - p.2.2 = p.1.1 - p.1.2 := by
  induction calls generalizing t with
  | nil => simp [mapped] at hp
  | cons call rest ih =>
    cases call with
    | none => exact ih hp
    | some frame =>
      rcases List.mem_cons.mp hp with rfl | hp
      · exact (map_spec t frame.1 frame.2).1
      · exact ih hp

structure Within (t : Timeline) (n : ℕ) : Prop where
  nonneg : 0 ≤ t.lastProgramDts
  advance : t.lastProgramDts ≤ n * 2 ^ 33
  offset : t.anchored →
    t.hasProgram ∧ t.lastProgramDts - 2 ^ 33 < t.offset ∧ t.offset ≤ t.lastProgramDts

theorem within_init : Within init 0 := by
  constructor
  · exact le_refl _
  · exact le_refl _
  · intro ha
    simp [init] at ha

theorem Within.anchor {t : Timeline} {n : ℕ} (h : Within t n) {dts : ℤ} (hd : InRange33 dts) :
    -2 ^ 33 < anchor t dts ∧ anchor t dts ≤ t.lastProgramDts + 1 ∧
      (t.anchored = false → dts + MediaTimeline.anchor t dts = 0 ∨
        dts + MediaTimeline.anchor t dts = t.lastProgramDts + 1) := by
  obtain ⟨hd0, hd1⟩ := hd
  have h0 := h.nonneg
  unfold MediaTimeline.anchor
  by_cases ha : t.anchored = true
  · obtain ⟨-, hlo, hhi⟩ := h.offset ha
    rw [if_pos ha]
    refine ⟨by omega, by omega, fun hn => ?_⟩
    rw [ha] at hn
    exact absurd hn (by decide)
  · rw [if_neg ha]
    by_cases hs : t.switches = 0
    · rw [if_pos hs]
      exact ⟨by omega, by omega, fun _ => Or.inl (by omega)⟩
    · rw [if_neg hs]
      exact ⟨by omega, by omega, fun _ => Or.inr (by omega)⟩

theorem Within.map {t : Timeline} {n : ℕ} (h : Within t n) {pts dts : ℤ} (hd : InRange33 dts) :
    Within (map t pts dts).1 (n + 1) := by
  obtain ⟨halo, hahi, hfresh⟩ := h.anchor hd
  obtain ⟨hd0, hd1⟩ := hd
  have h0 := h.nonneg
  have hn := h.advance
  have hlast : 0 ≤ dts + MediaTimeline.anchor t dts ∨ t.hasProgram = true := by
    by_cases ha : t.anchored = true
    · exact Or.inr (h.offset ha).1
    · rcases hfresh (by simpa using ha) with h | h <;> exact Or.inl (by omega)
  unfold MediaTimeline.map
  dsimp only
  split_ifs with hregress
  · constructor
    · dsimp only
      omega
    · dsimp only
      push_cast
      omega
    · intro _
      exact ⟨rfl, by dsimp only; omega, by dsimp only; omega⟩
  · have hpos : 0 ≤ dts + MediaTimeline.anchor t dts := by
      rcases hlast with h | hp
      · exact h
      · have : ¬ dts + MediaTimeline.anchor t dts ≤ t.lastProgramDts := fun hle =>
          hregress ⟨hp, hle⟩
        omega
    constructor
    · exact hpos
    · dsimp only
      push_cast
      omega
    · intro _
      exact ⟨rfl, by dsimp only; omega, by dsimp only; omega⟩

theorem Within.step {t : Timeline} {n : ℕ} (h : Within t n) {call : Option (ℤ × ℤ)}
    (hd : ∀ frame, call = some frame → InRange33 frame.2) : Within (step t call) (n + 1) := by
  cases call with
  | none =>
    refine ⟨h.nonneg, ?_, fun ha => by simp [MediaTimeline.step, discontinuity] at ha⟩
    have := h.advance
    change t.lastProgramDts ≤ _
    push_cast
    omega
  | some frame => exact h.map (hd frame rfl)

theorem Within.noOverflow {t : Timeline} {n : ℕ} (h : Within t n) (hn : n < 2 ^ 29)
    {call : Option (ℤ × ℤ)}
    (hd : ∀ frame, call = some frame → InRange33 frame.1 ∧ InRange33 frame.2) :
    NoOverflow t call := by
  cases call with
  | none => trivial
  | some frame =>
    obtain ⟨⟨hp0, hp1⟩, hdts⟩ := hd frame rfl
    obtain ⟨halo, hahi, -⟩ := h.anchor hdts
    obtain ⟨hd0, hd1⟩ := hdts
    have h0 := h.nonneg
    have hlast : t.lastProgramDts < 2 ^ 62 := by
      have := h.advance
      omega
    intro x hx
    unfold InRange64
    rcases List.mem_append.mp hx with hx | hx
    · rcases List.mem_append.mp hx with hx | hx
      · split_ifs at hx
        · simp at hx
        · simp only [List.mem_singleton] at hx
          omega
        · simp only [List.mem_cons, List.not_mem_nil, or_false] at hx
          omega
      · simp only [List.mem_cons, List.not_mem_nil, or_false] at hx
        omega
    · split_ifs at hx
      · simp only [List.mem_cons, List.not_mem_nil, or_false] at hx
        omega
      · simp at hx

theorem run_noOverflow {t : Timeline} {n : ℕ} (h : Within t n) {calls : List (Option (ℤ × ℤ))}
    (hlen : n + calls.length < 2 ^ 29)
    (hd : ∀ frame, some frame ∈ calls → InRange33 frame.1 ∧ InRange33 frame.2) :
    StepRun.Meets step NoOverflow t calls := by
  induction calls generalizing t n with
  | nil => trivial
  | cons call rest ih =>
    have hhead : ∀ frame, call = some frame → InRange33 frame.1 ∧ InRange33 frame.2 := by
      rintro frame rfl
      exact hd frame List.mem_cons_self
    rw [List.length_cons] at hlen
    refine ⟨h.noOverflow (by omega) hhead, ?_⟩
    exact ih (h.step fun frame hf => (hhead frame hf).2) (by omega)
      fun frame hf => hd frame (List.mem_cons_of_mem _ hf)

/-- Fewer than `2 ^ 29` calls with 33-bit source times: program time strictly increases, each
frame keeps its composition offset, and no signed operation overflows. -/
theorem timeline_monotone {calls : List (Option (ℤ × ℤ))} (hlen : calls.length < 2 ^ 29)
    (hd : ∀ frame, some frame ∈ calls → InRange33 frame.1 ∧ InRange33 frame.2) :
    (mapped init calls).map (fun p => p.1) = calls.filterMap id ∧
      ((mapped init calls).map (fun p => p.2.2)).Pairwise (· < ·) ∧
      (∀ p ∈ mapped init calls, p.2.1 - p.2.2 = p.1.1 - p.1.2) ∧
      StepRun.Meets step NoOverflow init calls := by
  refine ⟨mapped_source init calls, ?_, fun p hp => mapped_composition hp, ?_⟩
  · rw [mapped_dts]
    exact (mapAll_increasing init calls).1
  · exact run_noOverflow within_init (by omega) hd

/-- A wrap of the source clock, a switch and a regression. -/
theorem timeline_monotone_wrap :
    ((mapped init [some (8589934591, 8589934591), some (3000, 0), none, some (90000, 90000),
        some (45000, 45000)]).map (fun p => p.2.2)).Pairwise (· < ·) :=
  (timeline_monotone (by decide) (by simp [InRange33])).2.1

end MediaTimeline
