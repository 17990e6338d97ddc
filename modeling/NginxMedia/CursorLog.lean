import Mathlib.Data.List.Basic

/-! A reader of a growing log. It reads stretches of consecutive items, and each stretch begins
where the reader joins or behind items that it lost. `α` is whatever the log holds. -/
namespace CursorLog

variable {α : Type*} {log more before sent : List α} {s n m k : ℕ} {u : α}

/-- The `n` items of the log from position `s` on. -/
def stretch (log : List α) (s n : ℕ) : List α := (log.drop s).take n

structure Start (α : Type*) where
  position : ℕ
  before : List α
  deriving DecidableEq, Repr

@[simp] theorem stretch_zero (log : List α) (s : ℕ) : stretch log s 0 = [] := rfl

theorem stretch_length (h : s + n ≤ log.length) : (stretch log s n).length = n := by
  rw [stretch, List.length_take, List.length_drop]
  omega

theorem stretch_append (log : List α) (s n m : ℕ) :
    stretch log s n ++ stretch log (s + n) m = stretch log s (n + m) := by
  rw [stretch, stretch, stretch, List.take_add, List.drop_drop]

theorem stretch_succ (h : log[s]? = some u) (n : ℕ) :
    stretch log s (n + 1) = u :: stretch log (s + 1) n := by
  obtain ⟨hlt, rfl⟩ := List.getElem?_eq_some_iff.mp h
  rw [stretch, List.drop_eq_getElem_cons hlt, List.take_succ_cons]
  rfl

theorem stretch_grow (h : s + n ≤ log.length) (more : List α) :
    stretch (log ++ more) s n = stretch log s n := by
  rw [stretch, stretch, List.drop_append_of_le_length (by omega),
    List.take_append_of_le_length (by rw [List.length_drop]; omega)]

theorem mem_stretch : u ∈ stretch log s n ↔ ∃ k < n, log[s + k]? = some u := by
  rw [stretch, List.mem_iff_getElem?]
  constructor
  · rintro ⟨k, hk⟩
    rw [List.getElem?_take] at hk
    split_ifs at hk with hlt
    rw [List.getElem?_drop] at hk
    exact ⟨k, hlt, hk⟩
  · rintro ⟨k, hlt, hk⟩
    refine ⟨k, ?_⟩
    rw [List.getElem?_take, if_pos hlt, List.getElem?_drop, hk]

theorem stretch_split {after : List α} (h : s + n ≤ log.length)
    (heq : stretch log s n = before ++ u :: after) :
    before = stretch log s before.length ∧ log[s + before.length]? = some u := by
  have hlength := congrArg List.length heq
  rw [stretch_length h, List.length_append, List.length_cons] at hlength
  have htake := congrArg (List.take before.length) heq
  have hat := congrArg (fun l => l[before.length]?) heq
  rw [List.take_left, stretch, List.take_take, Nat.min_eq_left (by omega)] at htake
  rw [stretch, List.getElem?_take, if_pos (by omega), List.getElem?_drop,
    List.getElem?_append_right (Nat.le_refl _), Nat.sub_self, List.getElem?_cons_zero] at hat
  exact ⟨htake.symm, hat⟩

structure Placed (log : List α) (starts : List (Start α)) (sent : List α) : Prop where
  each : ∀ before u after, sent = before ++ u :: after →
    ∃ start ∈ starts, ∃ n, before = start.before ++ stretch log start.position n ∧
      log[start.position + n]? = some u

variable {starts : List (Start α)}

theorem placed_nil (log : List α) (starts : List (Start α)) : Placed log starts [] := by
  constructor
  intro before u after h
  exact absurd h.symm (List.append_ne_nil_of_right_ne_nil _ (List.cons_ne_nil _ _))

theorem Placed.grow (h : Placed log starts sent) (more : List α) :
    Placed (log ++ more) starts sent := by
  constructor
  intro before u after heq
  obtain ⟨start, hstart, n, hbefore, hat⟩ := h.each before u after heq
  have hlt := (List.getElem?_eq_some_iff.mp hat).1
  refine ⟨start, hstart, n, ?_, ?_⟩
  · rw [stretch_grow (Nat.le_of_lt hlt), hbefore]
  · rw [List.getElem?_append_left hlt, hat]

theorem Placed.read {start : Start α} (h : Placed log starts sent) (hstart : start ∈ starts)
    (hsent : sent = start.before ++ stretch log start.position k)
    (hn : start.position + k + n ≤ log.length) :
    Placed log starts (sent ++ stretch log (start.position + k) n) := by
  constructor
  intro before u after heq
  rcases List.append_eq_append_iff.mp heq with ⟨mid, hbefore, hrest⟩ | ⟨mid, hold, hrest⟩
  · obtain ⟨hmid, hat⟩ := stretch_split hn hrest
    refine ⟨start, hstart, k + mid.length, ?_, by rw [← Nat.add_assoc, hat]⟩
    calc before = sent ++ mid := hbefore
      _ = start.before ++ (stretch log start.position k ++
            stretch log (start.position + k) mid.length) := by
          rw [hsent, List.append_assoc, ← hmid]
      _ = start.before ++ stretch log start.position (k + mid.length) := by
          rw [stretch_append]
  · cases mid with
    | nil =>
      -- the new stretch begins with the item
      rw [List.nil_append] at hrest
      rw [List.append_nil] at hold
      obtain ⟨-, hat⟩ := stretch_split hn (show _ = [] ++ u :: after from hrest.symm)
      exact ⟨start, hstart, k, by rw [← hold, hsent], hat⟩
    | cons v mid =>
      rw [List.cons_append, List.cons.injEq] at hrest
      obtain ⟨rfl, -⟩ := hrest
      exact h.each before u mid hold

theorem Placed.mono (h : Placed log starts sent) (start : Start α) :
    Placed log (starts ++ [start]) sent := by
  constructor
  intro before u after heq
  obtain ⟨first, hfirst, rest⟩ := h.each before u after heq
  exact ⟨first, List.mem_append_left _ hfirst, rest⟩

def Continues (log : List α) (starts : List (Start α)) (sent : List α) (cursor : ℕ) : Prop :=
  ∃ start ∈ starts, ∃ k, sent = start.before ++ stretch log start.position k ∧
    start.position + k = cursor ∧ cursor ≤ log.length

theorem Continues.grow {cursor : ℕ} (h : Continues log starts sent cursor) (more : List α) :
    Continues (log ++ more) starts sent cursor := by
  obtain ⟨start, hstart, k, hsent, hcursor, hle⟩ := h
  refine ⟨start, hstart, k, ?_, hcursor, ?_⟩
  · rw [stretch_grow (by omega), hsent]
  · rw [List.length_append]
    omega

theorem Continues.read {cursor : ℕ} (h : Continues log starts sent cursor)
    (hn : cursor + n ≤ log.length) :
    Continues log starts (sent ++ stretch log cursor n) (cursor + n) := by
  obtain ⟨start, hstart, k, hsent, rfl, -⟩ := h
  refine ⟨start, hstart, k + n, ?_, (Nat.add_assoc _ _ _).symm, hn⟩
  rw [hsent, List.append_assoc, stretch_append]

theorem Placed.resume {cursor : ℕ} (h : Placed log starts sent)
    (hcontinues : Continues log starts sent cursor) (hn : cursor + n ≤ log.length) :
    Placed log starts (sent ++ stretch log cursor n) := by
  obtain ⟨start, hstart, k, hsent, rfl, -⟩ := hcontinues
  exact h.read hstart hsent hn

theorem continues_start (log : List α) (starts : List (Start α)) (sent : List α)
    (hs : s ≤ log.length) : Continues log (starts ++ [⟨s, sent⟩]) sent s :=
  ⟨⟨s, sent⟩, List.mem_append_right _ (List.mem_singleton_self _), 0,
    (List.append_nil _).symm, Nat.add_zero _, hs⟩

end CursorLog
