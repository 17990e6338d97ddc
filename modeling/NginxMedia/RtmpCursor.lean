import NginxMedia.RtmpFanout

/-! What a reader's cursor finds in the fan-out, whatever was pushed: the unit of the cursor's own
sequence number, or of the oldest one that is retained. -/
namespace RtmpCursor

open MediaTypes RtmpFanout

variable {fan : Fanout} {ps : List Push} {u : Media} {p : Push} {s c : ℕ}

structure Stamped (fan : Fanout) (ps : List Push) : Prop where
  capacity : 0 < fan.capacity
  head : fan.head = ps.length
  window : fan.head ≤ fan.tail + fan.capacity
  stamp : ∀ s p, ps[s]? = some p → fan.head ≤ s + fan.capacity →
    ∃ payload, fan.units (s % fan.capacity) = { p.unit s with payload := payload } ∧
      (payload = none ∨ payload = some p.payload)

theorem init_stamped (capacity maxBytes : ℕ) : Stamped (init capacity maxBytes) [] where
  capacity := init_capacity_pos _ _
  head := rfl
  window := Nat.zero_le _
  stamp := by
    intro s p h
    cases h

structure Written (fan : Fanout) (ps : List Push) : Prop where
  capacity : 0 < fan.capacity
  head : fan.head = ps.length
  stamp : ∀ s p, ps[s]? = some p → fan.head ≤ s + fan.capacity →
    ∃ payload, fan.units (s % fan.capacity) = { p.unit s with payload := payload } ∧
      (payload = none ∨ payload = some p.payload)

theorem Stamped.written (h : Stamped fan ps) (p : Push) : Written (overwrite fan p) (ps ++ [p]) where
  capacity := h.capacity
  head := by
    rw [List.length_append, ← h.head]
    rfl
  stamp := by
    intro s q hs hwindow
    change fan.head + 1 ≤ s + fan.capacity at hwindow
    change ∃ payload, Function.update fan.units (fan.head % fan.capacity) (p.unit fan.head)
      (s % fan.capacity) = _ ∧ _
    by_cases hnew : s = fan.head
    · subst s
      rw [h.head, List.getElem?_concat_length, Option.some.injEq] at hs
      subst q
      rw [Function.update_self]
      exact ⟨some p.payload, rfl, Or.inr rfl⟩
    · have hlt : s < ps.length := by
        have := (List.getElem?_eq_some_iff.mp hs).1
        rw [List.length_append, List.length_singleton, ← h.head] at this
        rw [← h.head]
        omega
      rw [List.getElem?_append_left hlt] at hs
      have hother : s % fan.capacity ≠ fan.head % fan.capacity := by
        rw [h.head] at hwindow ⊢
        intro heq
        have hdvd := (Nat.modEq_iff_dvd' hlt.le).mp heq
        have := Nat.le_of_dvd (by omega) hdvd
        omega
      rw [Function.update_of_ne hother]
      exact h.stamp s q hs (by omega)

theorem Written.evictOne (h : Written fan ps) : Written (evictOne fan) ps := by
  unfold RtmpFanout.evictOne
  dsimp only
  split
  · constructor
    · exact h.capacity
    · exact h.head
    · intro s p hs hwindow
      obtain ⟨payload, hunit, hpayload⟩ := h.stamp s p hs hwindow
      by_cases hslot : s % fan.capacity = fan.tail % fan.capacity
      · refine ⟨none, ?_, Or.inl rfl⟩
        change Function.update fan.units (fan.tail % fan.capacity) _ (s % fan.capacity) = _
        rw [hslot, Function.update_self, ← hslot, hunit]
      · refine ⟨payload, ?_, hpayload⟩
        exact (Function.update_of_ne hslot _ _).trans hunit
  · exact ⟨h.capacity, h.head, h.stamp⟩

theorem Written.evictLoop (h : Written fan ps) (n : ℕ) (hn : fan.head - fan.tail ≤ n) :
    Stamped (evictLoop n fan) ps := by
  induction n generalizing fan with
  | zero => exact ⟨h.capacity, h.head, by rw [RtmpFanout.evictLoop]; omega, h.stamp⟩
  | succ n ih =>
    rw [RtmpFanout.evictLoop]
    split_ifs with hmust
    · apply ih h.evictOne
      rw [evictOne_head, evictOne_tail]
      omega
    · refine ⟨h.capacity, h.head, ?_, h.stamp⟩
      unfold mustEvict at hmust
      omega

theorem Stamped.push (h : Stamped fan ps) (p : Push) : Stamped (push fan p) (ps ++ [p]) :=
  (h.written p).evictLoop _ le_rfl

theorem evictLoop_head (n : ℕ) (fan : Fanout) : (evictLoop n fan).head = fan.head := by
  induction n generalizing fan with
  | zero => rfl
  | succ n ih =>
    rw [RtmpFanout.evictLoop]
    split_ifs
    · rw [ih, evictOne_head]
    · rfl

theorem push_head (fan : Fanout) (p : Push) : (push fan p).head = fan.head + 1 :=
  evictLoop_head _ _

theorem run_stamped (capacity maxBytes : ℕ) (calls : List Call) :
    Stamped (run (init capacity maxBytes) calls) (pushes calls) := by
  induction calls using List.reverseRecOn with
  | nil => exact init_stamped capacity maxBytes
  | append_singleton calls call ih =>
    rw [run_append, pushes_append]
    cases call with
    | push p => exact ih.push p
    | next start =>
      rw [pushes_next, List.append_nil]
      exact ih

theorem Stamped.next (h : Stamped fan ps) (hn : next fan c = some u) :
    u.sequence = max c fan.tail ∧ u.sequence < fan.head ∧
      ∃ p, ps[u.sequence]? = some p ∧ u = p.unit u.sequence := by
  have hseq : (if c < fan.tail then fan.tail else c) = max c fan.tail := by
    split_ifs <;> omega
  unfold RtmpFanout.next at hn
  dsimp only at hn
  rw [hseq] at hn
  split_ifs at hn with hempty hend hlost
  have hwindow := h.window
  have hlt : max c fan.tail < ps.length := by
    rw [← h.head]
    omega
  obtain ⟨payload, hunit, hpayload⟩ := h.stamp (max c fan.tail) _ (List.getElem?_eq_getElem hlt)
    (by omega)
  rw [hunit] at hlost hn
  rcases hpayload with rfl | rfl
  · exact absurd rfl hlost
  · cases hn
    exact ⟨rfl, Nat.lt_of_not_le hend, _, List.getElem?_eq_getElem hlt, rfl⟩

end RtmpCursor
