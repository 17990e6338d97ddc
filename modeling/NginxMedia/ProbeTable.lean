import Mathlib.Logic.Function.Basic
import Mathlib.Tactic.Common

/-! Tables with open addressing: a key is looked for along its probe sequence up to the
first slot that was never used, and a removed key leaves a used slot behind. -/
namespace ProbeTable

inductive Cell (κ : Type*) where
  | fresh
  | vacant
  | held (key : κ)

variable {κ : Type*} {n : ℕ} {probe : κ → ℕ → Fin n} {cells : Fin n → Cell κ} {k : κ}
  {s : Fin n} {i m : ℕ}

/-- No slot before step `i` of the probe sequence of `k` is one that was never used. -/
def Used (probe : κ → ℕ → Fin n) (cells : Fin n → Cell κ) (k : κ) (i : ℕ) : Prop :=
  ∀ j < i, cells (probe k j) ≠ .fresh

structure Sound (probe : κ → ℕ → Fin n) (cells : Fin n → Cell κ) : Prop where
  unique : ∀ s t k, cells s = .held k → cells t = .held k → s = t
  reached : ∀ s k, cells s = .held k → ∃ i < n, probe k i = s ∧ Used probe cells k i

theorem sound_fresh : Sound probe fun _ => Cell.fresh := by
  constructor
  · intro s t k hs
    cases hs
  · intro s k hs
    cases hs

def Ends (probe : κ → ℕ → Fin n) (cells : Fin n → Cell κ) (k : κ) (m : ℕ) : Prop :=
  (∀ j < m, cells (probe k j) ≠ .held k) ∧ (m = n ∨ cells (probe k m) = .fresh)

theorem Sound.absent (h : Sound probe cells) (hend : Ends probe cells k m) (s : Fin n) :
    cells s ≠ .held k := by
  intro hs
  obtain ⟨i, hi, rfl, hused⟩ := h.reached s k hs
  obtain ⟨hno, hstop⟩ := hend
  rcases Nat.lt_trichotomy i m with hlt | rfl | hgt
  · exact hno i hlt hs
  · rcases hstop with rfl | hfresh
    · exact absurd hi (Nat.lt_irrefl _)
    · rw [hfresh] at hs
      cases hs
  · rcases hstop with rfl | hfresh
    · exact absurd hi (Nat.lt_asymm hgt)
    · exact hused m hgt hfresh

variable {c : Cell κ}

theorem used_update (hused : Used probe cells k i) (hc : c ≠ .fresh) :
    Used probe (Function.update cells s c) k i := by
  intro j hj
  by_cases hjs : probe k j = s
  · rw [hjs, Function.update_self]
    exact hc
  · rw [Function.update_of_ne hjs]
    exact hused j hj

theorem Sound.place (h : Sound probe cells) (hi : i < n) (hs : probe k i = s)
    (hused : Used probe cells k i) (hother : ∀ t, t ≠ s → cells t ≠ .held k) :
    Sound probe (Function.update cells s (.held k)) := by
  have hheld : ∀ t k', Function.update cells s (.held k) t = .held k' →
      (t = s ∧ k' = k) ∨ (t ≠ s ∧ cells t = .held k') := by
    intro t k' ht
    by_cases hts : t = s
    · rw [hts, Function.update_self] at ht
      cases ht
      exact Or.inl ⟨hts, rfl⟩
    · rw [Function.update_of_ne hts] at ht
      exact Or.inr ⟨hts, ht⟩
  constructor
  · intro t u k' ht hu
    rcases hheld t k' ht with ⟨rfl, rfl⟩ | ⟨hts, ht'⟩
    · rcases hheld u k' hu with ⟨rfl, -⟩ | ⟨hus, hu'⟩
      · rfl
      · exact absurd hu' (hother u hus)
    · rcases hheld u k' hu with ⟨rfl, rfl⟩ | ⟨hus, hu'⟩
      · exact absurd ht' (hother t hts)
      · exact h.unique t u k' ht' hu'
  · intro t k' ht
    rcases hheld t k' ht with ⟨rfl, rfl⟩ | ⟨hts, ht'⟩
    · exact ⟨i, hi, hs, used_update hused (by simp)⟩
    · obtain ⟨i', hi', hp, hused'⟩ := h.reached t k' ht'
      exact ⟨i', hi', hp, used_update hused' (by simp)⟩

theorem Sound.vacate (h : Sound probe cells) (s : Fin n) :
    Sound probe (Function.update cells s .vacant) := by
  have hheld : ∀ t k', Function.update cells s .vacant t = .held k' → cells t = .held k' := by
    intro t k' ht
    by_cases hts : t = s
    · rw [hts, Function.update_self] at ht
      cases ht
    · rwa [Function.update_of_ne hts] at ht
  constructor
  · intro t u k' ht hu
    exact h.unique t u k' (hheld t k' ht) (hheld u k' hu)
  · intro t k' ht
    obtain ⟨i', hi', hp, hused⟩ := h.reached t k' (hheld t k' ht)
    exact ⟨i', hi', hp, used_update hused (by simp)⟩

end ProbeTable
