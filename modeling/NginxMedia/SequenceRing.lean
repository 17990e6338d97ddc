import Mathlib.Algebra.BigOperators.Group.List.Basic
import Mathlib.Data.Nat.ModEq
import Mathlib.Tactic.Common

/-! Sequence-numbered rings: a producer numbers its units 0, 1, 2, ... and keeps the
unit numbered `s` in slot `s % cap`. The retained units are those from `tail` on.
Nothing here names a particular unit type; `vacant` says which slots hold nothing. -/
namespace SequenceRing

theorem mod_ne_of_window {cap s t : ℕ} (hst : s < t) (hlap : t < s + cap) :
    s % cap ≠ t % cap := by
  intro he
  have hlap' : cap ≤ t - s :=
    Nat.le_of_dvd (by omega) ((Nat.modEq_iff_dvd' hst.le).mp he)
  omega

structure Represents (vacant : α → Prop) (slots : ℕ → α) (cap tail : ℕ)
    (units : List α) : Prop where
  tail_le : tail ≤ units.length
  room : units.length ≤ tail + cap
  held : ∀ s (h : s < units.length), tail ≤ s → slots (s % cap) = units[s]
  free : ∀ j, j < cap → (∀ s, tail ≤ s → s < units.length → s % cap ≠ j) → vacant (slots j)

variable {vacant : α → Prop} {slots : ℕ → α} {cap tail : ℕ} {units : List α}

theorem represents_empty (h : ∀ j, vacant (slots j)) :
    Represents vacant slots cap 0 [] := by
  refine ⟨Nat.le_refl _, Nat.zero_le _, ?_, ?_⟩
  · intro s hs
    simp at hs
  · intro j _ _
    exact h j

theorem Represents.next_vacant (h : Represents vacant slots cap tail units)
    (hr : units.length < tail + cap) : vacant (slots (units.length % cap)) := by
  have hc : 0 < cap := by have := h.tail_le; omega
  apply h.free _ (Nat.mod_lt _ hc)
  intro s hts hsl
  exact mod_ne_of_window hsl (by omega)

theorem Represents.push (h : Represents vacant slots cap tail units)
    (hr : units.length < tail + cap) (x : α) :
    Represents vacant (Function.update slots (units.length % cap) x) cap tail
      (units ++ [x]) := by
  refine ⟨?_, ?_, ?_, ?_⟩
  · have := h.tail_le
    simp only [List.length_append, List.length_singleton]
    omega
  · simp only [List.length_append, List.length_singleton]
    omega
  · intro s hs hts
    simp only [List.length_append, List.length_singleton] at hs
    by_cases hlast : s = units.length
    · subst s
      simp
    · have hsl : s < units.length := by omega
      have hne : s % cap ≠ units.length % cap := mod_ne_of_window hsl (by omega)
      rw [Function.update_of_ne hne, List.getElem_append_left hsl]
      exact h.held s hsl hts
  · intro j hj hfree
    have hne : j ≠ units.length % cap := by
      intro he
      exact hfree units.length h.tail_le (by simp) he.symm
    rw [Function.update_of_ne hne]
    apply h.free j hj
    intro s hts hsl
    exact hfree s hts (by simp only [List.length_append, List.length_singleton]; omega)

theorem Represents.evict (h : Represents vacant slots cap tail units)
    (ht : tail < units.length) {v : α} (hv : vacant v) :
    Represents vacant (Function.update slots (tail % cap) v) cap (tail + 1) units := by
  have hroom := h.room
  refine ⟨ht, by omega, ?_, ?_⟩
  · intro s hs hts
    have hne : s % cap ≠ tail % cap := (mod_ne_of_window (by omega) (by omega)).symm
    rw [Function.update_of_ne hne]
    exact h.held s hs (by omega)
  · intro j hj hfree
    by_cases he : j = tail % cap
    · subst j
      simpa using hv
    · rw [Function.update_of_ne he]
      apply h.free j hj
      intro s hts hsl
      by_cases hst : s = tail
      · subst s
        exact Ne.symm he
      · exact hfree s (by omega) hsl

def retained (size : α → ℕ) (tail : ℕ) (units : List α) : ℕ :=
  ((units.drop tail).map size).sum

theorem retained_push (size : α → ℕ) (x : α) (ht : tail ≤ units.length) :
    retained size tail (units ++ [x]) = retained size tail units + size x := by
  simp [retained, List.drop_append_of_le_length ht]

theorem retained_evict (size : α → ℕ) (ht : tail < units.length) :
    retained size tail units = size units[tail] + retained size (tail + 1) units := by
  rw [retained, List.drop_eq_getElem_cons ht, List.map_cons, List.sum_cons, retained]

theorem retained_all (size : α → ℕ) : retained size units.length units = 0 := by
  simp [retained]

end SequenceRing
