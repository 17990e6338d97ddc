import Mathlib.Data.List.Basic
import Mathlib.Tactic.Common

/-! A stream cut into blocks of a fixed size: the whole blocks of a list, what is left behind
them, and how both grow when the list does. Nothing here names a particular stream. -/
namespace BlockStream

variable {α : Type*} {n : ℕ}

/-- The whole blocks of `n` elements, from the left. -/
def blocks (n : ℕ) (l : List α) : List (List α) :=
  if _h : n = 0 ∨ l.length < n then [] else l.take n :: blocks n (l.drop n)
termination_by l.length
decreasing_by
  rw [List.length_drop]
  omega

/-- What is left behind the whole blocks. -/
def rest (n : ℕ) (l : List α) : List α :=
  if _h : n = 0 ∨ l.length < n then l else rest n (l.drop n)
termination_by l.length
decreasing_by
  rw [List.length_drop]
  omega

theorem blocks_short {l : List α} (h : l.length < n) : blocks n l = [] := by
  rw [blocks, dif_pos (Or.inr h)]

theorem rest_short {l : List α} (h : l.length < n) : rest n l = l := by
  rw [rest, dif_pos (Or.inr h)]

theorem blocks_step {l : List α} (h0 : 0 < n) (h : n ≤ l.length) :
    blocks n l = l.take n :: blocks n (l.drop n) := by
  rw [blocks, dif_neg (by omega)]

theorem rest_step {l : List α} (h0 : 0 < n) (h : n ≤ l.length) :
    rest n l = rest n (l.drop n) := by
  rw [rest, dif_neg (by omega)]

theorem rest_length (h0 : 0 < n) (l : List α) : (rest n l).length = l.length % n := by
  induction l using rest.induct (n := n) with
  | case1 l h => rw [rest_short (by omega), Nat.mod_eq_of_lt (by omega)]
  | case2 l h ih =>
    rw [rest_step h0 (by omega), ih, List.length_drop, ← Nat.mod_eq_sub_mod (by omega)]

theorem blocks_append (h0 : 0 < n) (a b : List α) :
    blocks n (a ++ b) = blocks n a ++ blocks n (rest n a ++ b) ∧
      rest n (a ++ b) = rest n (rest n a ++ b) := by
  induction a using rest.induct (n := n) with
  | case1 a h =>
    have hs : a.length < n := by omega
    rw [blocks_short hs, rest_short hs]
    exact ⟨rfl, rfl⟩
  | case2 a h ih =>
    obtain ⟨hb, hr⟩ := ih
    have hlong : n ≤ (a ++ b).length := by
      rw [List.length_append]
      omega
    have hdrop : (a ++ b).drop n = a.drop n ++ b := List.drop_append_of_le_length (by omega)
    have htake : (a ++ b).take n = a.take n := List.take_append_of_le_length (by omega)
    rw [blocks_step h0 hlong, rest_step h0 hlong, hdrop, htake, hb, hr,
      blocks_step h0 (show n ≤ a.length by omega), rest_step h0 (show n ≤ a.length by omega)]
    exact ⟨rfl, rfl⟩

theorem blocks_flatten (h0 : 0 < n) {bs : List (List α)} (h : ∀ b ∈ bs, b.length = n) :
    blocks n bs.flatten = bs ∧ rest n bs.flatten = [] := by
  induction bs with
  | nil => exact ⟨blocks_short h0, rest_short h0⟩
  | cons b more ih =>
    have hb := h b List.mem_cons_self
    obtain ⟨hblocks, hrest⟩ := ih fun x hx => h x (List.mem_cons_of_mem _ hx)
    have hlong : n ≤ (b ++ more.flatten).length := by
      rw [List.length_append]
      omega
    have hdrop : (b ++ more.flatten).drop n = more.flatten := by
      rw [← hb, List.drop_left]
    have htake : (b ++ more.flatten).take n = b := by
      rw [← hb, List.take_left]
    rw [List.flatten_cons, blocks_step h0 hlong, rest_step h0 hlong, hdrop, htake, hblocks,
      hrest]
    exact ⟨rfl, rfl⟩

/-- Every block of the stream, the unfinished one too, starts with `x`. -/
def Starts (n : ℕ) (x : α) (l : List α) : Prop := ∀ i, n * i < l.length → l[n * i]? = some x

theorem Starts.append_left {x : α} {a b : List α} (h : Starts n x (a ++ b)) : Starts n x a := by
  intro i hi
  rw [← h i (by rw [List.length_append]; omega), List.getElem?_append_left hi]

theorem Starts.drop {x : α} {l : List α} (h : Starts n x l) : Starts n x (l.drop n) := by
  intro i hi
  rw [List.length_drop] at hi
  rw [List.getElem?_drop, ← h (i + 1) (by rw [Nat.mul_succ]; omega), Nat.mul_succ, Nat.add_comm]

theorem Starts.head {x : α} {l : List α} (h : Starts n x l) (hne : l ≠ []) :
    l.head? = some x := by
  have h0 := h 0 (by rw [Nat.mul_zero]; exact List.length_pos_iff.mpr hne)
  rwa [Nat.mul_zero, ← List.head?_eq_getElem?] at h0

theorem Starts.rest_append {x : α} (h0 : 0 < n) {a b : List α} (h : Starts n x (a ++ b)) :
    Starts n x (rest n a ++ b) := by
  induction a using rest.induct (n := n) with
  | case1 a hs => rwa [rest_short (by omega)]
  | case2 a hs ih =>
    rw [rest_step h0 (by omega)]
    have hdrop := h.drop
    rw [List.drop_append_of_le_length (by omega)] at hdrop
    exact ih hdrop

theorem starts_flatten {x : α} {bs : List (List α)} (h0 : 0 < n)
    (h : ∀ b ∈ bs, b.length = n ∧ b.head? = some x) : Starts n x bs.flatten := by
  induction bs with
  | nil =>
    intro i hi
    simp at hi
  | cons b more ih =>
    obtain ⟨hb, hx⟩ := h b List.mem_cons_self
    have hmore := ih fun y hy => h y (List.mem_cons_of_mem _ hy)
    intro i hi
    rw [List.flatten_cons] at hi ⊢
    cases i with
    | zero =>
      rw [Nat.mul_zero, List.getElem?_append_left (by omega), ← List.head?_eq_getElem?]
      exact hx
    | succ i =>
      rw [List.length_append, Nat.mul_succ] at hi
      rw [Nat.mul_succ, List.getElem?_append_right (by omega), hb, Nat.add_sub_cancel]
      exact hmore i (by omega)

end BlockStream
