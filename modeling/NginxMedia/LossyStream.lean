import Mathlib.Data.List.Nodup
import Mathlib.Data.List.Sublists

/-! A receiver fed the blocks of a list of items one part at a time, with any parts lost.
What it does with the parts of one block decides what it does with the whole stream. -/
namespace LossyStream

variable {σ α β φ : Type*} {step : σ → α → σ × Option β}

/-- The results a receiver gives over a list of parts. -/
def run (step : σ → α → σ × Option β) : σ → List α → σ × List β
  | s, [] => (s, [])
  | s, x :: rest =>
    ((run step (step s x).1 rest).1, (step s x).2.toList ++ (run step (step s x).1 rest).2)

theorem run_append (s : σ) (a b : List α) :
    run step s (a ++ b) =
      ((run step (run step s a).1 b).1, (run step s a).2 ++ (run step (run step s a).1 b).2) := by
  induction a generalizing s with
  | nil => rfl
  | cons x rest ih => simp only [List.cons_append, run, ih, List.append_assoc]

theorem whole_iff {block l : List α} (hnodup : block.Nodup) (hl : l.Sublist block) :
    l = block ↔ ∀ x ∈ block, x ∈ l := by
  constructor
  · rintro rfl
    exact fun x hx => hx
  · intro hall
    exact hl.eq_of_length_le (hnodup.subperm hall).length_le

variable [DecidableEq α] {chunks : φ → List α} {accept : φ → Prop} [DecidablePred accept]
  {done : φ → β} {Ready : σ → List φ → Prop}

/-- A receiver that gives an item exactly for a whole block it accepts, from any state that
is ready for it, and is then ready for the items behind, gives exactly the accepted items
of which no part was lost. -/
theorem run_blocks
    (hblock : ∀ s f rest l, Ready s (f :: rest) → l.Sublist (chunks f) →
      (run step s l).2 = (if accept f ∧ l = chunks f then [done f] else []) ∧
        Ready (run step s l).1 rest)
    {s : σ} {items : List φ} {delivered : List α} (hready : Ready s items)
    (hnodup : (items.flatMap chunks).Nodup) (hd : delivered.Sublist (items.flatMap chunks)) :
    (run step s delivered).2 =
      (items.filter fun f => accept f ∧ ∀ x ∈ chunks f, x ∈ delivered).map done := by
  induction items generalizing s delivered with
  | nil =>
    obtain rfl := List.sublist_nil.mp hd
    rfl
  | cons f rest ih =>
    rw [List.flatMap_cons] at hnodup hd
    obtain ⟨here, there, rfl, hhere, hthere⟩ := List.sublist_append_iff.mp hd
    obtain ⟨hf, hrest, hdisjoint⟩ := List.nodup_append'.mp hnodup
    obtain ⟨hout, hnext⟩ := hblock s f rest here hready hhere
    have hwhole : here = chunks f ↔ ∀ x ∈ chunks f, x ∈ here ++ there := by
      rw [whole_iff hf hhere]
      refine forall₂_congr fun x hx => ?_
      rw [List.mem_append]
      exact ⟨Or.inl, fun h => h.resolve_right fun ht => hdisjoint hx (hthere.subset ht)⟩
    have hlater : ∀ g ∈ rest, (∀ x ∈ chunks g, x ∈ there) ↔
        ∀ x ∈ chunks g, x ∈ here ++ there := by
      intro g hg
      refine forall₂_congr fun x hx => ?_
      have hx' : x ∈ rest.flatMap chunks := List.mem_flatMap.mpr ⟨g, hg, hx⟩
      rw [List.mem_append]
      exact ⟨Or.inr, fun h => h.resolve_left fun hh => hdisjoint (hhere.subset hh) hx'⟩
    have htail : (rest.filter fun g => accept g ∧ ∀ x ∈ chunks g, x ∈ there) =
        rest.filter fun g => accept g ∧ ∀ x ∈ chunks g, x ∈ here ++ there := by
      refine List.filter_congr fun g hg => ?_
      rw [decide_eq_decide, hlater g hg]
    rw [run_append, hout, ih hnext hrest hthere, htail]
    have hkept : (accept f ∧ here = chunks f) ↔ accept f ∧ ∀ x ∈ chunks f, x ∈ here ++ there :=
      and_congr_right' hwhole
    by_cases hgo : accept f ∧ here = chunks f
    · rw [if_pos hgo, List.filter_cons, if_pos (decide_eq_true (hkept.mp hgo))]
      rfl
    · have hdrop := mt hkept.mpr hgo
      rw [if_neg hgo, List.filter_cons, if_neg (mt of_decide_eq_true hdrop)]
      rfl

end LossyStream
