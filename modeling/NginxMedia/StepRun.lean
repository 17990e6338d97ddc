import Mathlib.Algebra.GroupWithZero.Nat
import Mathlib.Logic.Relation
import Mathlib.Tactic.Common

/-! Runs of a step function over a list of calls, and the induction rules for what they
preserve. Nothing here names a particular state or call. -/
namespace StepRun

variable {σ α : Type*} {step : σ → α → σ} {allowed : σ → α → Prop} {I : σ → Prop}

/-- Every call of the run is allowed in the state it is made in. -/
def Meets (step : σ → α → σ) (allowed : σ → α → Prop) : σ → List α → Prop
  | _, [] => True
  | s, a :: rest => allowed s a ∧ Meets step allowed (step s a) rest

instance Meets.decidable (step : σ → α → σ) (allowed : σ → α → Prop)
    [∀ s a, Decidable (allowed s a)] (s : σ) (calls : List α) :
    Decidable (Meets step allowed s calls) :=
  match calls with
  | [] => inferInstanceAs (Decidable True)
  | a :: rest =>
    have := Meets.decidable step allowed (step s a) rest
    inferInstanceAs (Decidable (allowed s a ∧ Meets step allowed (step s a) rest))

theorem meets_concat {s : σ} {calls : List α} {a : α} :
    Meets step allowed s (calls ++ [a]) ↔
      Meets step allowed s calls ∧ allowed (calls.foldl step s) a := by
  induction calls generalizing s with
  | nil => simp [Meets]
  | cons b rest ih => simp only [List.cons_append, Meets, ih, List.foldl_cons, and_assoc]

theorem meets_append {s : σ} {first rest : List α} :
    Meets step allowed s (first ++ rest) ↔
      Meets step allowed s first ∧ Meets step allowed (first.foldl step s) rest := by
  induction first generalizing s with
  | nil => simp [Meets]
  | cons a first ih => simp only [List.cons_append, Meets, ih, List.foldl_cons, and_assoc]

theorem meets_of_forall {P : α → Prop} {calls : List α} (h : ∀ a ∈ calls, P a) (s : σ) :
    Meets step (fun _ a => P a) s calls := by
  induction calls generalizing s with
  | nil => trivial
  | cons a rest ih =>
    exact ⟨h a List.mem_cons_self, ih (fun b hb => h b (List.mem_cons_of_mem _ hb)) (step s a)⟩

theorem meets_of_invariant {P : α → Prop}
    (hstep : ∀ s a, I s → P a → allowed s a ∧ I (step s a)) {s : σ} (hs : I s)
    {calls : List α} (h : ∀ a ∈ calls, P a) : Meets step allowed s calls := by
  induction calls generalizing s with
  | nil => trivial
  | cons a rest ih =>
    obtain ⟨hallowed, hnext⟩ := hstep s a hs (h a List.mem_cons_self)
    exact ⟨hallowed, ih hnext fun b hb => h b (List.mem_cons_of_mem _ hb)⟩

theorem invariant_of_meets (hstep : ∀ s a, I s → allowed s a → I (step s a)) {s : σ}
    (hs : I s) {calls : List α} (hm : Meets step allowed s calls) :
    I (calls.foldl step s) := by
  induction calls generalizing s with
  | nil => exact hs
  | cons a rest ih => exact ih (hstep s a hs hm.1) hm.2

theorem invariant (hstep : ∀ s a, I s → I (step s a)) {s : σ} (hs : I s) (calls : List α) :
    I (calls.foldl step s) := by
  induction calls generalizing s with
  | nil => exact hs
  | cons a rest ih => exact ih (hstep s a hs)

theorem related {R : σ → σ → Prop} (hrefl : ∀ s, R s s)
    (htrans : ∀ s t u, R s t → R t u → R s u) (hstep : ∀ s a, I s → I (step s a) ∧ R s (step s a))
    {s : σ} (hs : I s) (calls : List α) : R s (calls.foldl step s) := by
  induction calls generalizing s with
  | nil => exact hrefl s
  | cons a rest ih =>
    obtain ⟨hi, hr⟩ := hstep s a hs
    exact htrans _ _ _ hr (ih hi)

/-- The states that a run goes through, the first one included. -/
def trace (step : σ → α → σ) : σ → List α → List σ
  | s, [] => [s]
  | s, a :: rest => s :: trace step (step s a) rest

theorem trace_pairwise {P : α → Prop} {R : σ → σ → Prop} (hrefl : ∀ s, R s s)
    (htrans : ∀ s t u, R s t → R t u → R s u)
    (hstep : ∀ s a, I s → P a → I (step s a) ∧ R s (step s a)) {s : σ} (hs : I s)
    {calls : List α} (h : ∀ a ∈ calls, P a) : (trace step s calls).Pairwise R := by
  have hrun : (trace step s calls).Pairwise R ∧ ∀ t ∈ trace step s calls, R s t := by
    induction calls generalizing s with
    | nil =>
      refine ⟨List.pairwise_singleton R s, fun t ht => ?_⟩
      rw [List.mem_singleton.mp ht]
      exact hrefl s
    | cons a rest ih =>
      obtain ⟨hnext, hone⟩ := hstep s a hs (h a List.mem_cons_self)
      obtain ⟨hrest, hlater⟩ := ih hnext fun b hb => h b (List.mem_cons_of_mem _ hb)
      have hfrom : ∀ t ∈ trace step (step s a) rest, R s t := fun t ht =>
        htrans _ _ _ hone (hlater t ht)
      refine ⟨List.pairwise_cons.mpr ⟨hfrom, hrest⟩, fun t ht => ?_⟩
      rcases List.mem_cons.mp ht with rfl | ht
      · exact hrefl t
      · exact hfrom t ht
  exact hrun.1

theorem settles {Q : σ → Prop} {m : α} {calls : List α}
    (hstep : ∀ s, ∀ a ∈ calls, I s → I (step s a)) (hm : ∀ s, I s → Q (step s m))
    (hkeep : ∀ s, ∀ a ∈ calls, Q s → Q (step s a)) {s : σ} (hs : I s) (hmem : m ∈ calls) :
    Q (calls.foldl step s) := by
  have hrun : ∀ rest : List α, (∀ a ∈ rest, a ∈ calls) → ∀ s, Q s → Q (rest.foldl step s) := by
    intro rest
    induction rest with
    | nil => exact fun _ _ h => h
    | cons a rest ih =>
      intro hsub s h
      exact ih (fun b hb => hsub b (List.mem_cons_of_mem _ hb)) _
        (hkeep s a (hsub a List.mem_cons_self) h)
  have hgo : ∀ rest : List α, (∀ a ∈ rest, a ∈ calls) → m ∈ rest → ∀ s, I s →
      Q (rest.foldl step s) := by
    intro rest
    induction rest with
    | nil =>
      intro _ h
      exact absurd h List.not_mem_nil
    | cons a rest ih =>
      intro hsub hin s h
      have hrest : ∀ b ∈ rest, b ∈ calls := fun b hb => hsub b (List.mem_cons_of_mem _ hb)
      rcases List.mem_cons.mp hin with rfl | hin
      · exact hrun rest hrest _ (hm s h)
      · exact ih hrest hin _ (hstep s a (hsub a List.mem_cons_self) h)
  exact hgo calls (fun _ h => h) hmem s hs

end StepRun
