import Mathlib.Algebra.BigOperators.Group.Finset.Piecewise
import Mathlib.Data.Fintype.Basic
import Mathlib.Data.List.FinRange
import Mathlib.Tactic.Common

/-! A fixed table of slots, each free or holding a value. A value is looked up by scanning the
table from its first slot, and a new one takes the first free slot. Nothing here names a
particular value. -/
namespace SlotTable

variable {n : ℕ} {α κ : Type*} {t : Fin n → Option α} {p : α → Bool} {i : Fin n} {x : α}

/-- The first slot whose value satisfies `p`. -/
def find (t : Fin n → Option α) (p : α → Bool) : Option (Fin n) :=
  (List.finRange n).find? fun i => (t i).any p

/-- The first free slot. -/
def alloc (t : Fin n → Option α) : Option (Fin n) :=
  (List.finRange n).find? fun i => (t i).isNone

theorem find_some (h : find t p = some i) : ∃ x, t i = some x ∧ p x = true := by
  have hp := List.find?_some h
  simpa only [Option.any_eq_true] using hp

theorem find_none (h : find t p = none) (hx : t i = some x) : p x = false := by
  have hp := List.find?_eq_none.mp h i (List.mem_finRange i)
  simpa [hx] using hp

theorem alloc_free (h : alloc t = some i) : t i = none := by
  simpa using List.find?_some h

/-- No two slots hold values of one key. -/
def Distinct (key : α → κ) (t : Fin n → Option α) : Prop :=
  ∀ i j x y, t i = some x → t j = some y → key x = key y → i = j

theorem distinct_empty (key : α → κ) : Distinct key (fun _ : Fin n => none) := by
  intro i j x y hx
  cases hx

theorem Distinct.release {key : α → κ} (h : Distinct key t) (i : Fin n) :
    Distinct key (Function.update t i none) := by
  intro j k x y hx hy hkey
  by_cases hj : j = i
  · subst j
    simp at hx
  · by_cases hk : k = i
    · subst k
      simp at hy
    · rw [Function.update_of_ne hj] at hx
      rw [Function.update_of_ne hk] at hy
      exact h j k x y hx hy hkey

theorem Distinct.store {key : α → κ} (h : Distinct key t)
    (hfresh : ∀ j y, t j = some y → key y = key x → j = i) :
    Distinct key (Function.update t i (some x)) := by
  intro j k y z hy hz hkey
  by_cases hj : j = i
  · by_cases hk : k = i
    · rw [hj, hk]
    · subst j
      rw [Function.update_self, Option.some.injEq] at hy
      rw [Function.update_of_ne hk] at hz
      subst y
      exact (hfresh k z hz hkey.symm).symm
  · rw [Function.update_of_ne hj] at hy
    by_cases hk : k = i
    · subst k
      rw [Function.update_self, Option.some.injEq] at hz
      subst z
      exact hfresh j y hy hkey
    · rw [Function.update_of_ne hk] at hz
      exact h j k y z hy hz hkey

theorem Distinct.replace {key : α → κ} {y : α} (h : Distinct key t) (hx : t i = some x)
    (hkey : key y = key x) : Distinct key (Function.update t i (some y)) := by
  apply h.store
  intro j z hz hk
  exact h j i z x hz hx (hk.trans hkey)

theorem update_some {j : Fin n} {v : Option α}
    (h : Function.update t i v j = some x) : (j = i ∧ v = some x) ∨ (j ≠ i ∧ t j = some x) := by
  by_cases hj : j = i
  · subst j
    exact Or.inl ⟨rfl, by simpa using h⟩
  · exact Or.inr ⟨hj, by rwa [Function.update_of_ne hj] at h⟩

def weight [DecidableEq κ] (key : α → κ) (k : κ) (v : Option α) : ℕ :=
  if v.any fun x => decide (key x = k) then 1 else 0

/-- How many slots hold a value of a key. -/
def held [DecidableEq κ] (key : α → κ) (t : Fin n → Option α) (k : κ) : ℕ :=
  ∑ i, weight key k (t i)

@[simp] theorem weight_none [DecidableEq κ] (key : α → κ) (k : κ) : weight key k none = 0 := rfl

theorem weight_some [DecidableEq κ] (key : α → κ) (k : κ) (x : α) :
    weight key k (some x) = if k = key x then 1 else 0 := by
  simp [weight, eq_comm]

theorem held_empty [DecidableEq κ] (key : α → κ) (k : κ) :
    held key (fun _ : Fin n => none) k = 0 := by
  simp [held]

theorem held_update [DecidableEq κ] (key : α → κ) (t : Fin n → Option α) (i : Fin n)
    (v : Option α) (k : κ) :
    held key (Function.update t i v) k + weight key k (t i) = held key t k + weight key k v := by
  have hstored : (fun j => weight key k (Function.update t i v j)) =
      Function.update (fun j => weight key k (t j)) i (weight key k v) := by
    funext j
    exact Function.apply_update (fun _ => weight key k) t i v j
  have hrest := Finset.add_sum_erase Finset.univ (fun j => weight key k (t j)) (Finset.mem_univ i)
  rw [held, hstored, Finset.sum_update_of_mem (Finset.mem_univ i), held, ← hrest,
    Finset.sdiff_singleton_eq_erase]
  omega

theorem Distinct.held_one [DecidableEq κ] {key : α → κ} (h : Distinct key t) (hx : t i = some x) :
    held key t (key x) = 1 := by
  have hself : weight key (key x) (t i) = 1 := by rw [hx, weight_some, if_pos rfl]
  rw [held, ← hself]
  refine Finset.sum_eq_single i ?_ fun hi => absurd (Finset.mem_univ i) hi
  intro j _ hj
  cases hy : t j with
  | none => rfl
  | some y =>
    rw [weight_some, if_neg]
    intro hkey
    exact hj (h j i y x hy hx hkey.symm)

end SlotTable
