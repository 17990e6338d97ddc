import NginxMedia.SrtQueue
import Mathlib.Data.List.Range

/-! What an SRT destination's queue retains, drops and delivers over a run: its bounds for every
run, and the fate of every burst for the runs in which no push evicts the unit being sent. -/
namespace SrtTally

open SrtQueue

def lens (units : List QueueUnit) : ℕ := (units.map QueueUnit.len).sum

theorem lens_append (a b : List QueueUnit) : lens (a ++ b) = lens a + lens b := by
  rw [lens, List.map_append, List.sum_append]
  rfl

def Waits (w : World) (u : QueueUnit) : Prop :=
  ∃ skipped rest, w.queue.units = skipped ++ u :: rest ∧
    u.sequence = w.queue.tail + skipped.length ∧ (w.queue.resync = false → skipped = [])

structure Bounded (w : World) : Prop where
  positive : 0 < w.queue.capacity
  room : w.queue.units.length ≤ w.queue.capacity
  bytes : w.queue.bytes = lens w.queue.units
  ceiling : w.queue.maxBytes ≠ 0 → w.queue.bytes ≤ w.queue.maxBytes
  numbered : ∀ skipped u rest, w.queue.units = skipped ++ u :: rest →
    u.sequence = w.queue.tail + skipped.length
  cursor_le : w.cursor ≤ w.queue.tail
  increasing : w.delivered.Pairwise fun a b => a.sequence < b.sequence
  behind : ∀ a ∈ w.delivered, a.sequence < w.queue.tail
  flight : ∀ u, w.inflight = some u →
    (∀ a ∈ w.delivered, a.sequence < u.sequence) ∧ (Waits w u ∨ u.sequence < w.queue.tail)

theorem bounded_initial (capacity maxBytes : ℕ) : Bounded (initial capacity maxBytes) := by
  have hpositive : 0 < (init capacity maxBytes).capacity := by
    unfold init maxUnits
    dsimp only
    split_ifs <;> omega
  constructor
  · exact hpositive
  · exact Nat.zero_le _
  · rfl
  · intro _
    exact Nat.zero_le _
  · intro skipped u rest hsplit
    exact absurd hsplit.symm (by simp [initial, init])
  · exact Nat.le_refl _
  · exact List.Pairwise.nil
  · intro a ha
    exact absurd ha List.not_mem_nil
  · intro u hu
    cases hu

theorem numbered_shed {q q' : Queue} {out : List QueueUnit} (h : Shed q q' out)
    (hnumbered : ∀ skipped u rest, q.units = skipped ++ u :: rest →
      u.sequence = q.tail + skipped.length) :
    ∀ skipped u rest, q'.units = skipped ++ u :: rest → u.sequence = q'.tail + skipped.length := by
  intro skipped u rest hsplit
  have hwas := hnumbered (out ++ skipped) u rest (by rw [h.units, hsplit, List.append_assoc])
  rw [List.length_append] at hwas
  rw [h.tail, hwas]
  omega

theorem bytes_shed {q q' : Queue} {out : List QueueUnit} (h : Shed q q' out)
    (hbytes : q.bytes = lens q.units) : q'.bytes = lens q'.units := by
  have hlens : lens q.units = lens out + lens q'.units := by
    rw [h.units, lens_append]
  have hout : (out.map QueueUnit.len).sum = lens out := rfl
  rw [h.bytes, hout]
  omega

theorem waits_shed {w w' : World} {u : QueueUnit} {out : List QueueUnit}
    (h : Shed w.queue w'.queue out) (hresync : w'.queue.resync = (w.queue.resync || !out.isEmpty))
    (hu : Waits w u) : Waits w' u ∨ u.sequence < w'.queue.tail := by
  obtain ⟨skipped, rest, hsplit, hplace, hflag⟩ := hu
  have htail := h.tail
  have hunits := h.units
  rw [hsplit] at hunits
  by_cases hgone : u.sequence < w'.queue.tail
  · exact Or.inr hgone
  · obtain ⟨more, hmore⟩ : ∃ more, skipped = out ++ more :=
      (List.append_eq_append_iff.mp hunits).elim
        (fun ⟨t, ht, _⟩ => by
          have hlen := congrArg List.length ht
          rw [List.length_append] at hlen
          have hnil : t = [] := List.length_eq_zero_iff.mp (by omega)
          rw [hnil, List.append_nil] at ht
          exact ⟨[], by rw [List.append_nil, ht]⟩)
        (fun ⟨t, ht, _⟩ => ⟨t, ht⟩)
    subst hmore
    rw [List.append_assoc] at hunits
    refine Or.inl ⟨more, rest, (List.append_cancel_left hunits).symm, ?_, ?_⟩
    · rw [hplace, htail, List.length_append]
      omega
    · intro hclear
      rw [hresync, Bool.or_eq_false_iff] at hclear
      exact (List.append_eq_nil_iff.mp (hflag hclear.1)).2

theorem makeRoom_settled (q : Queue) (len : ℕ) : crowded (makeRoom q len) len = false := by
  fun_induction makeRoom q len with
  | case1 q h ih => exact ih
  | case2 q h => simpa using h

theorem Bounded.settled {w : World} (h : Bounded w) {len : ℕ} {out : List QueueUnit}
    (hover : oversized w.queue len = false) (hshed : Shed w.queue (makeRoom w.queue len) out) :
    (makeRoom w.queue len).units.length < w.queue.capacity ∧
      (w.queue.maxBytes ≠ 0 → (makeRoom w.queue len).bytes + len ≤ w.queue.maxBytes) := by
  have hroom := makeRoom_settled w.queue len
  have hbytes := bytes_shed hshed h.bytes
  have hpositive := h.positive
  simp only [oversized, decide_eq_false_iff_not, not_and, not_lt] at hover
  simp only [crowded, hshed.capacity, hshed.maxBytes, decide_eq_false_iff_not] at hroom
  by_cases hempty : (makeRoom w.queue len).units = []
  · have hzero : (makeRoom w.queue len).bytes = 0 := by
      rw [hbytes, hempty]
      rfl
    rw [hempty, hzero]
    exact ⟨hpositive, fun hmax => by have := hover hmax; omega⟩
  · rw [not_and, not_or, not_and, not_lt] at hroom
    obtain ⟨hlength, hceiling⟩ := hroom hempty
    exact ⟨by omega, hceiling⟩

theorem Bounded.offer {w : World} (h : Bounded w) (len now : ℕ) (keyframe : Bool) :
    Bounded (offer w len keyframe now) := by
  by_cases hempty : len = 0
  · have hsame : SrtQueue.offer w len keyframe now = w := by simp [SrtQueue.offer, push, hempty]
    rw [hsame]
    exact h
  · by_cases hover : oversized w.queue len = true
    · simp only [SrtQueue.offer, push, hempty, if_false, hover, if_true]
      refine ⟨h.positive, h.room, h.bytes, h.ceiling, h.numbered, h.cursor_le, h.increasing,
        h.behind, fun u hu => ?_⟩
      obtain ⟨habove, hplace⟩ := h.flight u hu
      refine ⟨habove, hplace.imp_left ?_⟩
      rintro ⟨skipped, rest, hsplit, hseq, -⟩
      exact ⟨skipped, rest, hsplit, hseq, fun hclear => by cases hclear⟩
    · rw [Bool.not_eq_true] at hover
      obtain ⟨out, hshed, -, hresync⟩ := makeRoom_spec w.queue len
      obtain ⟨hlength, hceiling⟩ := h.settled hover hshed
      have hbytes := bytes_shed hshed h.bytes
      have hnumbered := numbered_shed hshed h.numbered
      have htail := hshed.tail
      have hflight : ∀ u, w.inflight = some u →
          Waits { w with queue := makeRoom w.queue len } u ∨
            u.sequence < (makeRoom w.queue len).tail := by
        intro u hu
        rcases (h.flight u hu).2 with hwaits | hgone
        · exact @waits_shed w { w with queue := makeRoom w.queue len } u out hshed hresync hwaits
        · exact Or.inr (by omega)
      simp only [SrtQueue.offer, push, hempty, if_false, hover, Bool.false_eq_true, append]
      constructor
      · dsimp only
        rw [hshed.capacity]
        exact h.positive
      · dsimp only
        rw [List.length_append, List.length_singleton, hshed.capacity]
        omega
      · dsimp only
        rw [lens_append, hbytes]
        rfl
      · dsimp only
        rw [hshed.maxBytes]
        exact hceiling
      · intro skipped u rest hsplit
        dsimp only at hsplit ⊢
        rcases List.eq_nil_or_concat' rest with rfl | ⟨before, last, rfl⟩
        · obtain ⟨hleft, hright⟩ := List.append_inj' hsplit rfl
          rw [← List.singleton_inj.mp hright, ← hleft]
          rfl
        · rw [← List.cons_append, ← List.append_assoc] at hsplit
          obtain ⟨hleft, -⟩ := List.append_inj' hsplit rfl
          exact hnumbered skipped u before hleft
      · have := h.cursor_le
        dsimp only
        omega
      · exact h.increasing
      · intro a ha
        have := h.behind a ha
        dsimp only
        omega
      · intro u hu
        refine ⟨(h.flight u hu).1, (hflight u hu).imp_left ?_⟩
        rintro ⟨skipped, rest, hsplit, hseq, hflag⟩
        dsimp only at hsplit hseq hflag
        refine ⟨skipped, rest ++ [⟨w.offered, len, (makeRoom w.queue len).head, now, keyframe⟩],
          ?_, hseq, hflag⟩
        dsimp only
        rw [hsplit, List.append_assoc, List.cons_append]

theorem Bounded.next_waits {w : World} (h : Bounded w) {u : QueueUnit}
    (hu : next w.queue w.cursor = some u) : Waits w u := by
  have hahead : max w.cursor w.queue.tail - w.queue.tail = 0 := by
    have := h.cursor_le
    omega
  simp only [next, hahead, List.drop_zero] at hu
  cases hflag : w.queue.resync with
  | true =>
    simp only [hflag, if_true] at hu
    obtain ⟨-, skipped, rest, hsplit, -⟩ := List.find?_eq_some_iff_append.mp hu
    refine ⟨skipped, rest, hsplit, h.numbered skipped u rest hsplit, fun hclear => ?_⟩
    rw [hflag] at hclear
    cases hclear
  | false =>
    simp only [hflag, Bool.false_eq_true, if_false] at hu
    obtain ⟨rest, hsplit⟩ := List.head?_eq_some_iff.mp hu
    exact ⟨[], rest, hsplit, h.numbered [] u rest hsplit, fun _ => rfl⟩

theorem Bounded.above {w : World} (h : Bounded w) {u : QueueUnit} (hu : Waits w u) :
    ∀ a ∈ w.delivered, a.sequence < u.sequence := by
  obtain ⟨skipped, rest, -, hplace, -⟩ := hu
  intro a ha
  have := h.behind a ha
  omega

theorem Bounded.deliver {w : World} (h : Bounded w) {u : QueueUnit}
    (hflight : w.inflight = some u) : Bounded (deliver w u) := by
  obtain ⟨habove, hplace⟩ := h.flight u hflight
  obtain ⟨hshed, -, -⟩ := advance_spec w.queue u.sequence
  have hunits := hshed.units
  have htail := hshed.tail
  have hnumbered := numbered_shed hshed h.numbered
  have hbytes := bytes_shed hshed h.bytes
  have hover : u.sequence + 1 ≤ (advance w.queue u.sequence).tail := by
    rcases hplace with hwaits | hgone
    · obtain ⟨skipped, rest, hsplit, hseq, -⟩ := hwaits
      have hmoved := (advance_waiting hsplit hseq).2.1
      omega
    · omega
  constructor
  · exact hshed.capacity ▸ h.positive
  · have hroom := h.room
    rw [hunits, List.length_append] at hroom
    simp only [SrtQueue.deliver, hshed.capacity]
    omega
  · exact hbytes
  · intro hmax
    have hceiling := h.ceiling (hshed.maxBytes ▸ hmax)
    have hless := hshed.bytes
    simp only [SrtQueue.deliver, hshed.maxBytes]
    omega
  · exact hnumbered
  · exact hover
  · simp only [SrtQueue.deliver]
    rw [List.pairwise_append]
    refine ⟨h.increasing, List.pairwise_singleton _ _, fun a ha b hb => ?_⟩
    rw [List.mem_singleton.mp hb]
    exact habove a ha
  · intro a ha
    simp only [SrtQueue.deliver, List.mem_append, List.mem_singleton] at ha ⊢
    rcases ha with ha | rfl
    · have := h.behind a ha
      omega
    · omega
  · intro v hv
    cases hv

theorem Bounded.step {w : World} (h : Bounded w) (call : Call) : Bounded (step w call) := by
  cases call with
  | push len keyframe now => exact h.offer len now keyframe
  | next =>
    simp only [SrtQueue.step]
    split_ifs with hidle
    · refine ⟨h.positive, h.room, h.bytes, h.ceiling, h.numbered, h.cursor_le, h.increasing,
        h.behind, fun u hu => ?_⟩
      have hwaits := h.next_waits hu
      exact ⟨h.above hwaits, Or.inl hwaits⟩
    · exact h
  | advance =>
    cases hflight : w.inflight with
    | none => simpa [SrtQueue.step, hflight] using h
    | some u => simpa [SrtQueue.step, hflight] using h.deliver hflight
  | resync =>
    refine ⟨h.positive, h.room, h.bytes, h.ceiling, h.numbered, h.cursor_le, h.increasing,
      h.behind, fun u hu => ?_⟩
    obtain ⟨habove, hplace⟩ := h.flight u hu
    refine ⟨habove, hplace.imp_left ?_⟩
    rintro ⟨skipped, rest, hsplit, hseq, -⟩
    exact ⟨skipped, rest, hsplit, hseq, fun hclear => by cases hclear⟩
  | abandon =>
    exact ⟨h.positive, h.room, h.bytes, h.ceiling, h.numbered, h.cursor_le, h.increasing,
      h.behind, fun u hu => by cases hu⟩
  | rewind =>
    exact ⟨h.positive, h.room, h.bytes, h.ceiling, h.numbered, Nat.zero_le _, h.increasing,
      h.behind, h.flight⟩

theorem bounded_run (capacity maxBytes : ℕ) (calls : List Call) :
    Bounded (run capacity maxBytes calls) :=
  @StepRun.invariant _ _ step Bounded (fun _ call h => Bounded.step h call) _
    (bounded_initial capacity maxBytes) calls

def Spares (w : World) : Call → Prop
  | .push len _ _ => len ≠ 0 → oversized w.queue len = false → ∀ u ∈ w.inflight,
      w.queue.tail ≤ u.sequence →
        (w.queue.units.drop (u.sequence - w.queue.tail)).length < w.queue.capacity ∧
          (w.queue.maxBytes ≠ 0 →
            lens (w.queue.units.drop (u.sequence - w.queue.tail)) + len ≤ w.queue.maxBytes)
  | _ => True

structure Sorted (w : World) : Prop where
  counted : w.queue.dropped = w.lost.length
  fates : (w.delivered.map QueueUnit.burst ++ (w.lost ++ w.queue.units.map QueueUnit.burst)).Perm
    (List.range w.offered)
  alive : ∀ u, w.inflight = some u → Waits w u

theorem sorted_initial (capacity maxBytes : ℕ) : Sorted (initial capacity maxBytes) := by
  refine ⟨rfl, List.Perm.refl _, fun u hu => ?_⟩
  cases hu

theorem makeRoom_stops {q : Queue} {len k : ℕ} {out : List QueueUnit}
    (hbytes : q.bytes = lens q.units) (hshed : Shed q (makeRoom q len) out)
    (hroom : (q.units.drop k).length < q.capacity ∧
      (q.maxBytes ≠ 0 → lens (q.units.drop k) + len ≤ q.maxBytes)) : out.length ≤ k := by
  induction k generalizing q out with
  | zero =>
    rw [List.drop_zero] at hroom
    have hquiet : crowded q len = false := by
      simp only [crowded, decide_eq_false_iff_not]
      rintro ⟨-, hfull | ⟨hmax, hlarge⟩⟩
      · omega
      · have := hroom.2 hmax
        omega
    have hsame : makeRoom q len = q := by
      rw [makeRoom, dif_neg (by simp [hquiet])]
    rw [hsame] at hshed
    have htail := hshed.tail
    omega
  | succ k ih =>
    by_cases hcrowded : crowded q len = true
    · have hne : q.units ≠ [] := by
        simp only [crowded, decide_eq_true_eq] at hcrowded
        exact hcrowded.1
      obtain ⟨u, rest, hu⟩ := List.exists_cons_of_ne_nil hne
      have hevict : evict q =
          { q with units := rest, bytes := q.bytes - u.len, tail := q.tail + 1,
                   dropped := q.dropped + 1, resync := true } := by
        unfold evict
        rw [hu]
        dsimp only
        rw [release_cons hu]
      have hmake : makeRoom q len = makeRoom (evict q) len := by
        rw [makeRoom, dif_pos hcrowded]
      obtain ⟨out', hshed', -, -⟩ := makeRoom_spec (evict q) len
      have hlens : lens q.units = u.len + lens rest := by
        rw [hu]
        exact List.sum_cons
      have hless := ih (q := evict q) (by rw [hevict, hbytes, hlens]; simp) hshed' (by
        rw [hevict]
        rw [hu, List.drop_succ_cons] at hroom
        exact hroom)
      have htail := hshed.tail
      have htail' := hshed'.tail
      rw [hmake] at htail
      have hfirst : (evict q).tail = q.tail + 1 := by rw [hevict]
      omega
    · have hsame : makeRoom q len = q := by
        rw [makeRoom, dif_neg hcrowded]
      rw [hsame] at hshed
      have htail := hshed.tail
      omega

theorem perm_of_count {a b c a' b' c' : List ℕ} {n m : ℕ}
    (h : (a ++ (b ++ c)).Perm (List.range n))
    (hcount : ∀ x, a'.count x + (b'.count x + c'.count x) + (List.range n).count x =
      a.count x + (b.count x + c.count x) + (List.range m).count x) :
    (a' ++ (b' ++ c')).Perm (List.range m) := by
  rw [List.perm_iff_count] at h ⊢
  intro x
  have hx := h x
  have hx' := hcount x
  simp only [List.count_append] at hx ⊢
  omega

theorem Sorted.offer {w : World} (h : Sorted w) (hb : Bounded w) {len now : ℕ} {keyframe : Bool}
    (hspares : Spares w (.push len keyframe now)) : Sorted (offer w len keyframe now) := by
  by_cases hempty : len = 0
  · have hsame : SrtQueue.offer w len keyframe now = w := by simp [SrtQueue.offer, push, hempty]
    rw [hsame]
    exact h
  · by_cases hover : oversized w.queue len = true
    · simp only [SrtQueue.offer, push, hempty, if_false, hover, if_true]
      refine ⟨?_, perm_of_count h.fates fun x => ?_, fun u hu => ?_⟩
      · dsimp only
        rw [h.counted, List.length_append, List.length_singleton]
      · dsimp only
        rw [List.count_append, List.range_succ, List.count_append]
        omega
      · obtain ⟨skipped, rest, hsplit, hseq, -⟩ := h.alive u hu
        exact ⟨skipped, rest, hsplit, hseq, fun hclear => by cases hclear⟩
    · rw [Bool.not_eq_true] at hover
      obtain ⟨out, hshed, hdropped, hresync⟩ := makeRoom_spec w.queue len
      have hgone : gone w.queue (append (makeRoom w.queue len)
          ⟨w.offered, len, (makeRoom w.queue len).head, now, keyframe⟩) = out := hshed.gone
      have hunits := hshed.units
      simp only [SrtQueue.offer, push, hempty, if_false, hover, Bool.false_eq_true, hgone]
      refine ⟨?_, perm_of_count h.fates fun x => ?_, fun u hu => ?_⟩
      · simp only [append]
        rw [hdropped, h.counted, List.length_append, List.length_map]
      · simp only [append]
        rw [hunits, List.range_succ]
        simp only [List.map_append, List.count_append, List.map_cons, List.map_nil]
        omega
      · have hwaits := h.alive u hu
        obtain ⟨skipped, rest, hsplit, hseq, hflag⟩ := hwaits
        have hroom := hspares hempty hover u hu (by omega)
        have hless := makeRoom_stops hb.bytes hshed hroom
        have htail := hshed.tail
        rcases @waits_shed w { w with queue := makeRoom w.queue len } u out hshed hresync
          ⟨skipped, rest, hsplit, hseq, hflag⟩ with hstill | hlost
        · obtain ⟨skipped, rest, hsplit, hseq, hflag⟩ := hstill
          dsimp only at hsplit hseq hflag
          refine ⟨skipped,
            rest ++ [⟨w.offered, len, (makeRoom w.queue len).head, now, keyframe⟩], ?_, hseq, hflag⟩
          simp only [append]
          rw [hsplit, List.append_assoc, List.cons_append]
        · dsimp only at hlost
          omega

/-- The unit sent and the units skipped before it leave the queue; the flag tells whether the
skipped ones are counted. -/
theorem Sorted.deliver {w : World} (h : Sorted w) (hb : Bounded w) {u : QueueUnit}
    (hflight : w.inflight = some u) : Sorted (deliver w u) := by
  obtain ⟨skipped, rest, hsplit, hseq, hflag⟩ := h.alive u hflight
  obtain ⟨hunits, htail, hgone⟩ := advance_waiting hsplit hseq
  obtain ⟨-, -, hdropped⟩ := advance_spec w.queue u.sequence
  have hfilter : (skipped ++ [u]).filter (fun v => v ≠ u) = skipped := by
    rw [List.filter_append, List.filter_eq_self.mpr]
    · simp
    · intro v hv
      obtain ⟨before, after, rfl⟩ := List.append_of_mem hv
      have hv' := hb.numbered before v (after ++ u :: rest) (by rw [hsplit]; simp)
      have hne : v ≠ u := by
        rintro rfl
        rw [List.length_append, List.length_cons] at hseq
        omega
      simpa using hne
  refine ⟨?_, perm_of_count h.fates fun x => ?_, fun v hv => ?_⟩
  · simp only [SrtQueue.deliver, hgone, hfilter]
    rw [hdropped, h.counted, List.length_append, List.length_map]
    cases hresync : w.queue.resync with
    | false =>
      rw [hflag hresync]
      rfl
    | true =>
      rw [if_pos rfl]
      omega
  · simp only [SrtQueue.deliver, hgone, hfilter, hunits]
    rw [hsplit]
    simp only [List.map_append, List.count_append, List.map_cons, List.map_nil, List.count_cons,
      List.count_nil]
    omega
  · cases hv

theorem Sorted.step {w : World} (h : Sorted w) (hb : Bounded w) {call : Call}
    (hspares : Spares w call) : Sorted (step w call) := by
  cases call with
  | push len keyframe now => exact h.offer hb hspares
  | next =>
    simp only [SrtQueue.step]
    split_ifs with hidle
    · exact ⟨h.counted, h.fates, fun u hu => hb.next_waits hu⟩
    · exact h
  | advance =>
    cases hflight : w.inflight with
    | none => simpa [SrtQueue.step, hflight] using h
    | some u => simpa [SrtQueue.step, hflight] using h.deliver hb hflight
  | resync =>
    refine ⟨h.counted, h.fates, fun u hu => ?_⟩
    obtain ⟨skipped, rest, hsplit, hseq, -⟩ := h.alive u hu
    exact ⟨skipped, rest, hsplit, hseq, fun hclear => by cases hclear⟩
  | abandon => exact ⟨h.counted, h.fates, fun u hu => by cases hu⟩
  | rewind => exact ⟨h.counted, h.fates, h.alive⟩

theorem sorted_run {capacity maxBytes : ℕ} {calls : List Call}
    (hmeets : StepRun.Meets step Spares (initial capacity maxBytes) calls) :
    Sorted (run capacity maxBytes calls) := by
  have hboth := StepRun.invariant_of_meets (I := fun w => Bounded w ∧ Sorted w)
    (fun _ call h hspares => ⟨h.1.step call, h.2.step h.1 hspares⟩)
    ⟨bounded_initial capacity maxBytes, sorted_initial capacity maxBytes⟩ hmeets
  exact hboth.2

end SrtTally
