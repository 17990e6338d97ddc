import Mathlib.Data.List.Induction
import Mathlib.Data.List.Sort
import Mathlib.Tactic.Common

/-! A sequence that is shown through windows which slide or grow, and a reader that appends what
it is shown to a list, as long as the list stays good. -/
namespace SlidingWindows

structure Window where
  first : ℕ
  stop : ℕ

def Window.list (w : Window) : List ℕ := List.range' w.first (w.stop - w.first)

theorem Window.mem_list {w : Window} {i : ℕ} : i ∈ w.list ↔ w.first ≤ i ∧ i < w.stop := by
  rw [list, List.mem_range'_1]
  omega

def Slide (ws : List Window) : Prop := ws.Pairwise fun a b => a.first ≤ b.first ∧ a.stop ≤ b.stop

def covered (ws : List Window) : List ℕ :=
  (List.range ((ws.map Window.stop).foldr max 0)).filter fun i =>
    ws.any fun w => decide (w.first ≤ i) && decide (i < w.stop)

variable {ws : List Window} {w : Window} {i : ℕ}

theorem le_foldr_max {l : List ℕ} {n : ℕ} (h : n ∈ l) : n ≤ l.foldr max 0 := by
  induction l with
  | nil => exact absurd h List.not_mem_nil
  | cons m l ih =>
    rw [List.foldr_cons]
    rcases List.mem_cons.mp h with rfl | h
    · exact Nat.le_max_left _ _
    · exact Nat.le_trans (ih h) (Nat.le_max_right _ _)

theorem mem_covered : i ∈ covered ws ↔ ∃ w ∈ ws, i ∈ w.list := by
  simp only [covered, List.mem_filter, List.mem_range, List.any_eq_true, Bool.and_eq_true,
    decide_eq_true_eq, Window.mem_list]
  refine ⟨And.right, fun h => ⟨?_, h⟩⟩
  obtain ⟨w, hw, -, hlt⟩ := h
  exact Nat.lt_of_lt_of_le hlt (le_foldr_max (List.mem_map_of_mem hw))

theorem covered_increasing (ws : List Window) : (covered ws).Pairwise (· < ·) :=
  List.Pairwise.filter _ List.pairwise_lt_range

theorem covered_concat (h : Slide (ws ++ [w])) : ∃ old fresh, w.list = old ++ fresh ∧
    (∀ i ∈ old, i ∈ covered ws) ∧ covered (ws ++ [w]) = covered ws ++ fresh := by
  have hbefore : ∀ v ∈ ws, v.first ≤ w.first ∧ v.stop ≤ w.stop := fun v hv =>
    (List.pairwise_append.mp h).2.2 v hv w List.mem_cons_self
  -- what is new begins where the windows so far have stopped
  obtain ⟨m, hseen, hnew⟩ : ∃ m, (∀ i ∈ w.list, i < m → i ∈ covered ws) ∧
      ∀ i ∈ covered ws, i < m := by
    refine ⟨(ws.map Window.stop).foldr max 0, fun i hi hlt => ?_, fun i hi => ?_⟩
    · obtain ⟨v, hv, hstop⟩ : ∃ v ∈ ws, i < v.stop := by
        clear h hbefore
        induction ws with
        | nil => exact absurd hlt (Nat.not_lt_zero i)
        | cons v ws ih =>
          rw [List.map_cons, List.foldr_cons] at hlt
          rcases (show i < v.stop ∨ i < (ws.map Window.stop).foldr max 0 by omega) with hlt | hlt
          · exact ⟨v, List.mem_cons_self, hlt⟩
          · obtain ⟨u, hu, hstop⟩ := ih hlt
            exact ⟨u, List.mem_cons_of_mem v hu, hstop⟩
      have hfirst := (hbefore v hv).1
      have := (Window.mem_list.mp hi).1
      exact mem_covered.mpr ⟨v, hv, Window.mem_list.mpr ⟨by omega, hstop⟩⟩
    · obtain ⟨v, hv, hin⟩ := mem_covered.mp hi
      exact Nat.lt_of_lt_of_le (Window.mem_list.mp hin).2 (le_foldr_max (List.mem_map_of_mem hv))
  refine ⟨w.list.filter (· < m), w.list.filter (m ≤ ·), ?_, fun i hi => ?_, ?_⟩
  · have hsorted : w.list.Pairwise (· < ·) := List.pairwise_lt_range'
    refine hsorted.eq_of_mem_iff ?_ fun i => ?_
    · refine List.pairwise_append.mpr ⟨hsorted.filter _, hsorted.filter _, fun a ha b hb => ?_⟩
      have ha := of_decide_eq_true (List.mem_filter.mp ha).2
      have hb := of_decide_eq_true (List.mem_filter.mp hb).2
      omega
    · simp only [List.mem_append, List.mem_filter, decide_eq_true_eq, ← and_or_left]
      exact (and_iff_left (Nat.lt_or_ge i m)).symm
  · obtain ⟨hi, hlt⟩ := List.mem_filter.mp hi
    exact hseen i hi (of_decide_eq_true hlt)
  · refine (covered_increasing _).eq_of_mem_iff ?_ fun i => ?_
    · refine List.pairwise_append.mpr ⟨covered_increasing ws,
        List.Pairwise.filter _ List.pairwise_lt_range', fun a ha b hb => ?_⟩
      have ha := hnew a ha
      have hb := of_decide_eq_true (List.mem_filter.mp hb).2
      omega
    · rw [mem_covered, List.mem_append, List.mem_filter, decide_eq_true_eq]
      constructor
      · rintro ⟨v, hv, hi⟩
        rcases List.mem_append.mp hv with hv | hv
        · exact Or.inl (mem_covered.mpr ⟨v, hv, hi⟩)
        · obtain rfl := List.mem_singleton.mp hv
          rcases Nat.lt_or_ge i m with hlt | hge
          · exact Or.inl (hseen i hi hlt)
          · exact Or.inr ⟨hi, hge⟩
      · rintro (hi | ⟨hi, -⟩)
        · obtain ⟨v, hv, hi⟩ := mem_covered.mp hi
          exact ⟨v, List.mem_append_left _ hv, hi⟩
        · exact ⟨w, List.mem_append_right _ List.mem_cons_self, hi⟩

variable {α : Type} {good : List α → Prop}

open Classical in
noncomputable def accept (good : List α → Prop) (l : List α) (x : α) : List α :=
  if good (l ++ [x]) then l ++ [x] else l

structure Selective (good : List α → Prop) : Prop where
  empty : good []
  front : ∀ {l m}, good (l ++ m) → good l
  once : ∀ {l x}, good (l ++ [x]) → x ∉ l

theorem foldl_accept_good (xs : List α) {l : List α} (h : good l) :
    good (xs.foldl (accept good) l) := by
  induction xs generalizing l with
  | nil => exact h
  | cons x xs ih =>
    rw [List.foldl_cons]
    refine ih ?_
    unfold accept
    split_ifs with hx
    · exact hx
    · exact h

variable (hgood : Selective good)

include hgood

theorem foldl_accept_old {xs l : List α} (h : ∀ x ∈ xs, x ∈ l) :
    xs.foldl (accept good) l = l := by
  induction xs with
  | nil => rfl
  | cons x xs ih =>
    have hold : accept good l x = l :=
      if_neg fun hx => hgood.once hx (h x List.mem_cons_self)
    rw [List.foldl_cons, hold]
    exact ih fun y hy => h y (List.mem_cons_of_mem x hy)

theorem foldl_accept_fresh {xs l : List α} (h : good (l ++ xs)) :
    xs.foldl (accept good) l = l ++ xs := by
  induction xs generalizing l with
  | nil => rw [List.foldl_nil, List.append_nil]
  | cons x xs ih =>
    have hsplit : l ++ x :: xs = l ++ [x] ++ xs := by
      rw [List.append_assoc, List.singleton_append]
    rw [hsplit] at h ⊢
    have hnew : accept good l x = l ++ [x] := if_pos (hgood.front h)
    rw [List.foldl_cons, hnew]
    exact ih h

theorem foldl_accept_iff (name : ℕ → α) (h : Slide ws) :
    (ws.flatMap fun w => w.list.map name).foldl (accept good) [] = (covered ws).map name ↔
      good ((covered ws).map name) := by
  constructor
  · intro heq
    rw [← heq]
    exact foldl_accept_good _ hgood.empty
  · intro hall
    induction ws using List.reverseRecOn with
    | nil => rfl
    | append_singleton ws w ih =>
      obtain ⟨old, fresh, hw, hold, hcovered⟩ := covered_concat h
      rw [hcovered, List.map_append] at hall
      have hslide : Slide ws := (List.pairwise_append.mp h).1
      rw [List.flatMap_append, List.foldl_append, ih hslide (hgood.front hall),
        List.flatMap_singleton, hw, List.map_append, List.foldl_append, hcovered, List.map_append]
      have hshown : ∀ x ∈ old.map name, x ∈ (covered ws).map name := by
        intro x hx
        obtain ⟨i, hi, rfl⟩ := List.mem_map.mp hx
        exact List.mem_map_of_mem (hold i hi)
      rw [foldl_accept_old hgood hshown, foldl_accept_fresh hgood hall]

end SlidingWindows
