import Mathlib.Tactic.Common
import Mathlib.Data.List.Basic

/-! A ring of the values written last: it fills up to its capacity, then each value replaces the
oldest one. -/
namespace RecentRing

variable {α : Type} {cap : ℕ} {xs : List α} {x : α}

structure Ring (α : Type) where
  slots : List α
  next : ℕ

def Ring.empty : Ring α := ⟨[], 0⟩

def Ring.push (cap : ℕ) (r : Ring α) (x : α) : Ring α :=
  if r.slots.length < cap then ⟨r.slots ++ [x], r.next⟩
  else ⟨r.slots.set r.next x, (r.next + 1) % cap⟩

/-- The last `cap` values. -/
def recent (cap : ℕ) (xs : List α) : List α := xs.drop (xs.length - cap)

theorem recent_of_le (h : xs.length ≤ cap) : recent cap xs = xs := by
  rw [recent, Nat.sub_eq_zero_of_le h, List.drop_zero]

/-- A value more in a list of at least `cap` pushes the oldest one out. -/
theorem recent_concat (h : cap ≤ xs.length) (hcap : 0 < cap) :
    recent cap (xs ++ [x]) = (recent cap xs).tail ++ [x] := by
  rw [recent, recent, List.length_append, List.length_singleton, List.tail_drop,
    List.drop_append_of_le_length (by omega)]
  congr 2
  omega

structure Holds (cap : ℕ) (r : Ring α) (xs : List α) : Prop where
  next_lt : r.next < cap
  count : r.slots.length = min xs.length cap
  filling : xs.length < cap → r.next = 0
  order : r.slots.drop r.next ++ r.slots.take r.next = recent cap xs

variable {r : Ring α}

theorem holds_empty (hcap : 0 < cap) : Holds cap (Ring.empty : Ring α) [] :=
  ⟨hcap, (Nat.zero_min cap).symm, fun _ => rfl, (recent_of_le (Nat.zero_le cap)).symm⟩

theorem Holds.mem (h : Holds cap r xs) : x ∈ r.slots ↔ x ∈ recent cap xs := by
  rw [← h.order, List.mem_append, or_comm, ← List.mem_append, List.take_append_drop]

theorem set_order {l : List α} {i : ℕ} (hi : i < l.length) :
    (l.set i x).drop (i + 1) ++ (l.set i x).take (i + 1) =
      (l.drop i ++ l.take i).tail ++ [x] := by
  have htake : (l.set i x).take (i + 1) = l.take i ++ [x] := by
    rw [List.take_add_one, List.take_set_of_le (Nat.le_refl i), List.getElem?_set_self hi]
    rfl
  rw [List.drop_set_of_lt (Nat.lt_succ_self i), htake, List.drop_eq_getElem_cons hi,
    List.cons_append, List.tail_cons, List.append_assoc]

theorem Holds.push (h : Holds cap r xs) (x : α) : Holds cap (r.push cap x) (xs ++ [x]) := by
  have hcap : 0 < cap := Nat.lt_of_le_of_lt (Nat.zero_le _) h.next_lt
  have hcount := h.count
  unfold Ring.push
  split_ifs with hroom
  · have hfilling := h.filling (by omega)
    have horder := h.order
    rw [hfilling, List.drop_zero, List.take_zero, List.append_nil,
      recent_of_le (by omega)] at horder
    refine ⟨h.next_lt, ?_, fun _ => hfilling, ?_⟩
    · simp only [List.length_append, List.length_singleton]
      omega
    · dsimp only
      rw [hfilling, List.drop_zero, List.take_zero, List.append_nil, horder, recent_of_le]
      rw [List.length_append, List.length_singleton]
      omega
  · have hnext := h.next_lt
    have hfull : r.slots.length = cap := by omega
    refine ⟨Nat.mod_lt _ hcap, ?_, fun hlt => ?_, ?_⟩
    · simp only [List.length_set, List.length_append, List.length_singleton]
      omega
    · rw [List.length_append, List.length_singleton] at hlt
      omega
    · dsimp only
      rw [recent_concat (by omega) hcap, ← h.order, ← set_order (by omega)]
      by_cases hwrap : r.next + 1 = cap
      · -- behind the last slot comes the first one
        have hlength : (r.slots.set r.next x).length = cap := by rw [List.length_set, hfull]
        rw [hwrap, Nat.mod_self, List.drop_zero, List.take_zero, List.append_nil,
          List.drop_of_length_le (Nat.le_of_eq hlength), List.nil_append,
          List.take_of_length_le (Nat.le_of_eq hlength)]
      · rw [Nat.mod_eq_of_lt (by omega)]

end RecentRing
