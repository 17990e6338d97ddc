import Mathlib.Algebra.GroupWithZero.Nat
import Mathlib.Data.List.TakeWhile
import Mathlib.Tactic.Common

/-! C strings in buffers: a buffer is read up to its first NUL, searched for its last byte of a
kind, and compared with another one. -/
namespace CString

variable {a b : List UInt8} {c : UInt8} {n : ℕ}

def chars (buf : List UInt8) : List UInt8 := buf.takeWhile (· != 0)

def strchr (buf : List UInt8) (c : UInt8) : Option ℕ := (chars buf).findIdx? (· == c)

def strrchr (buf : List UInt8) (c : UInt8) : Option ℕ :=
  ((chars buf).reverse.findIdx? (· == c)).map ((chars buf).length - 1 - ·)

/-- `strncmp(a, b, n) == 0` for buffers of at least `n` bytes. -/
def strncmpEq : ℕ → List UInt8 → List UInt8 → Bool
  | 0, _, _ => true
  | n + 1, x :: a, y :: b => x == y && (x == 0 || strncmpEq n a b)
  | _ + 1, _, _ => false

theorem chars_of_text (h : (0 : UInt8) ∉ a) : chars a = a :=
  List.takeWhile_eq_self_iff.mpr fun _ hx => bne_iff_ne.mpr fun hzero => h (hzero ▸ hx)

theorem not_mem_chars (a : List UInt8) : (0 : UInt8) ∉ chars a := by
  intro h
  have := List.mem_takeWhile_imp h
  exact absurd this (by decide)

theorem strchr_first (h : (0 : UInt8) ∉ a ++ c :: b) (ha : c ∉ a) :
    strchr (a ++ c :: b) c = some a.length := by
  have hnone : a.findIdx? (· == c) = none :=
    List.findIdx?_eq_none_iff.mpr fun x hx =>
      beq_false_of_ne fun heq => ha (heq ▸ hx)
  rw [strchr, chars_of_text h, List.findIdx?_append, hnone, List.findIdx?_cons, beq_self_eq_true]
  simp

theorem strchr_none (ha : c ∉ a) : strchr a c = none :=
  List.findIdx?_eq_none_iff.mpr fun _ hx =>
    beq_false_of_ne fun heq => ha (heq ▸ List.takeWhile_subset _ hx)

theorem strrchr_last (h : (0 : UInt8) ∉ a ++ c :: b) (hb : c ∉ b) :
    strrchr (a ++ c :: b) c = some a.length := by
  have hnone : b.reverse.findIdx? (· == c) = none :=
    List.findIdx?_eq_none_iff.mpr fun x hx =>
      beq_eq_false_iff_ne.mpr fun hs => hb (hs ▸ List.mem_reverse.mp hx)
  unfold strrchr
  rw [chars_of_text h, List.reverse_append, List.reverse_cons, List.append_assoc,
    List.findIdx?_append, hnone]
  simp only [List.singleton_append, List.findIdx?_cons, beq_self_eq_true, if_true, Option.map_some,
    Option.none_or, List.length_append, List.length_cons, List.length_reverse, Option.some_inj]
  omega

theorem take_eq_of_strncmpEq (h : strncmpEq n a b = true) (ha : (0 : UInt8) ∉ a) :
    a.take n = b.take n ∧ n ≤ a.length := by
  induction n generalizing a b with
  | zero => exact ⟨rfl, Nat.zero_le _⟩
  | succ n ih =>
    match a, b with
    | x :: a, y :: b =>
      obtain ⟨hx, ha⟩ := not_or.mp (mt List.mem_cons.mpr ha)
      simp only [strncmpEq, Bool.and_eq_true, Bool.or_eq_true, beq_iff_eq] at h
      obtain ⟨rfl, hrest⟩ := h
      obtain ⟨htake, hlen⟩ := ih (hrest.resolve_left fun hzero => hx hzero.symm) ha
      exact ⟨by rw [List.take_succ_cons, List.take_succ_cons, htake], Nat.succ_le_succ hlen⟩
    | [], _ => cases h
    | _ :: _, [] => cases h

theorem not_mem_splitOn (c : UInt8) (text : List UInt8) : ∀ piece ∈ text.splitOn c, c ∉ piece := by
  induction text with
  | nil => simp
  | cons x rest ih =>
    rw [List.splitOn_cons_eq_if_modifyHead]
    split_ifs with hx
    · intro piece hpiece
      rcases List.mem_cons.mp hpiece with rfl | hpiece
      · exact List.not_mem_nil
      · exact ih piece hpiece
    · obtain ⟨first, more, hsplit⟩ := List.exists_cons_of_ne_nil (List.splitOn_ne_nil c rest)
      rw [hsplit] at ih ⊢
      intro piece hpiece
      rcases List.mem_cons.mp hpiece with rfl | hpiece
      · intro hmem
        rcases List.mem_cons.mp hmem with hmem | hmem
        · exact hx (beq_iff_eq.mpr hmem.symm)
        · exact ih first List.mem_cons_self hmem
      · exact ih piece (List.mem_cons_of_mem _ hpiece)

end CString
