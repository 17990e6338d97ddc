import NginxMedia.SequenceRing
import NginxMedia.SrtTally

/-! The queue of an SRT destination as it is stored: slots under running numbers, with head and
tail. It refines the list of retained units, and what becomes of every burst follows from there. -/
namespace SrtRing

open SrtQueue (QueueUnit Queue Call)

/-- `ngx_media_srt_unit_t`. An empty slot has no burst. -/
structure Slot where
  burst : Option ℕ
  len : ℕ
  sequence : ℕ
  enqueueMsec : ℕ
  keyframe : Bool
  deriving DecidableEq, Repr

structure Ring where
  slots : ℕ → Slot
  capacity : ℕ
  maxBytes : ℕ
  head : ℕ
  tail : ℕ
  bytes : ℕ
  dropped : ℕ
  pushed : ℕ
  resync : Bool

def init (capacity maxBytes : ℕ) : Ring :=
  { slots := fun _ => ⟨none, 0, 0, 0, false⟩
    capacity := if 0 < capacity ∧ capacity ≤ SrtQueue.maxUnits then capacity else SrtQueue.maxUnits
    maxBytes, head := 0, tail := 0, bytes := 0, dropped := 0, pushed := 0, resync := false }

def release (q : Ring) : Ring :=
  let unit := q.slots (q.tail % q.capacity)
  { q with
    bytes := if unit.burst = none then q.bytes else q.bytes - unit.len
    slots := Function.update q.slots (q.tail % q.capacity) { unit with burst := none, len := 0 }
    tail := q.tail + 1 }

def evict (q : Ring) : Ring :=
  if q.tail ≥ q.head then q
  else { release q with dropped := q.dropped + 1, resync := true }

/-- The condition of the eviction loop. -/
def crowded (q : Ring) (len : ℕ) : Bool :=
  q.tail < q.head ∧
    (q.head - q.tail ≥ q.capacity ∨ q.maxBytes ≠ 0 ∧ q.bytes + len > q.maxBytes)

def makeRoom (q : Ring) (len : ℕ) : Ring :=
  if _h : crowded q len = true then makeRoom (evict q) len else q
termination_by q.head - q.tail
decreasing_by
  simp only [crowded, decide_eq_true_eq] at _h
  rw [evict, if_neg (by omega)]
  dsimp only [release]
  omega

def oversized (q : Ring) (len : ℕ) : Bool := q.maxBytes ≠ 0 ∧ len > q.maxBytes

def push (q : Ring) (burst len : ℕ) (keyframe : Bool) (enqueueMsec : ℕ) : Ring :=
  if len = 0 then q
  else if oversized q len then { q with dropped := q.dropped + 1, resync := true }
  else
    let q := makeRoom q len
    let unit := q.slots (q.head % q.capacity)
    -- the ring is full of live units: drop the oldest one
    let q := if unit.burst = none then q
      else
        { q with
          bytes := q.bytes - unit.len, dropped := q.dropped + 1, resync := true
          tail := q.tail + 1 }
    { q with
      slots := Function.update q.slots (q.head % q.capacity)
        ⟨some burst, len, q.head, enqueueMsec, keyframe⟩
      bytes := q.bytes + len, head := q.head + 1, pushed := q.pushed + 1 }

/-- The first number from `sequence` on that starts at a sync boundary. -/
def keyframeFrom (q : Ring) (sequence : ℕ) : ℕ :=
  if _h : sequence < q.head then
    let unit := q.slots (sequence % q.capacity)
    if unit.burst ≠ none ∧ unit.keyframe = true then sequence else keyframeFrom q (sequence + 1)
  else sequence
termination_by q.head - sequence

def next (q : Ring) (cursor : ℕ) : Option Slot :=
  if q.tail ≥ q.head then none
  else
    let sequence := if cursor < q.tail then q.tail else cursor
    let sequence := if q.resync then keyframeFrom q sequence else sequence
    if sequence ≥ q.head then none
    else
      let unit := q.slots (sequence % q.capacity)
      if unit.burst = none then none else some unit

def retire (q : Ring) (upTo : ℕ) : Ring :=
  if _h : q.tail < upTo ∧ q.tail < q.head then retire (release q) upTo else q
termination_by q.head - q.tail
decreasing_by
  dsimp only [release]
  omega

def advance (q : Ring) (sequence : ℕ) : Ring :=
  let q := if q.resync ∧ sequence ≥ q.tail then
    { q with dropped := q.dropped + (sequence - q.tail), resync := false } else q
  retire q (sequence + 1)

def resync (q : Ring) : Ring := { q with resync := true }

def slotsFrom (q : Ring) (sequence : ℕ) : List Slot :=
  (List.range (q.head - sequence)).map fun i => q.slots ((sequence + i) % q.capacity)

def retained (q : Ring) : List Slot := slotsFrom q q.tail

/-- What the destination keeps of the unit that it sends. -/
structure Flight where
  burst : ℕ
  sequence : ℕ
  len : ℕ
  deriving DecidableEq, Repr

structure World where
  ring : Ring
  cursor : ℕ
  inflight : Option Flight
  offered : ℕ
  stored : List ℕ
  delivered : List Flight

def flight (unit : Slot) : Option Flight :=
  unit.burst.map fun burst => ⟨burst, unit.sequence, unit.len⟩

def offer (w : World) (len : ℕ) (keyframe : Bool) (now : ℕ) : World :=
  let ring := push w.ring w.offered len keyframe now
  if len = 0 then { w with ring }
  else if oversized w.ring len then { w with ring, offered := w.offered + 1 }
  else { w with ring, offered := w.offered + 1, stored := w.stored ++ [w.offered] }

def step (w : World) : Call → World
  | .push len keyframe now => offer w len keyframe now
  | .next =>
    if w.inflight = none then { w with inflight := (next w.ring w.cursor).bind flight } else w
  | .advance =>
    match w.inflight with
    | none => w
    | some f =>
      { w with ring := advance w.ring f.sequence, cursor := f.sequence + 1, inflight := none
               delivered := w.delivered ++ [f] }
  | .resync => { w with ring := resync w.ring }
  | .abandon => { w with inflight := none }
  | .rewind => { w with cursor := 0 }

def initial (capacity maxBytes : ℕ) : World := ⟨init capacity maxBytes, 0, none, 0, [], []⟩

def run (capacity maxBytes : ℕ) (calls : List Call) : World :=
  calls.foldl step (initial capacity maxBytes)

structure Ordered (w : World) : Prop where
  bounds : w.ring.tail ≤ w.ring.head ∧ w.ring.head ≤ w.ring.tail + w.ring.capacity
  bytes : w.ring.bytes = ((retained w.ring).map Slot.len).sum
  ceiling : w.ring.maxBytes ≠ 0 → w.ring.bytes ≤ w.ring.maxBytes
  increasing : w.delivered.Pairwise fun a b => a.sequence < b.sequence
  own : ∀ f ∈ w.delivered, w.stored[f.sequence]? = some f.burst
  held : (retained w.ring).map Slot.burst = (w.stored.drop w.ring.tail).map some

structure Accounted (w : World) : Prop extends Ordered w where
  fates : ∃ lost : List ℕ, lost.length = w.ring.dropped ∧
    (w.delivered.map Flight.burst ++ (lost ++ w.stored.drop w.ring.tail)).Perm
      (List.range w.offered)

def slotOf (u : QueueUnit) : Slot := ⟨some u.burst, u.len, u.sequence, u.enqueueMsec, u.keyframe⟩

def flightOf (u : QueueUnit) : Flight := ⟨u.burst, u.sequence, u.len⟩

def Vacant (slot : Slot) : Prop := slot.burst = none

structure Holds (q : Ring) (u : Queue) (all : List Slot) : Prop where
  slots : SequenceRing.Represents Vacant q.slots q.capacity q.tail all
  head : q.head = all.length
  units : u.units.map slotOf = all.drop q.tail
  capacity : u.capacity = q.capacity
  maxBytes : u.maxBytes = q.maxBytes
  tail : u.tail = q.tail
  bytes : u.bytes = q.bytes
  dropped : u.dropped = q.dropped
  pushed : u.pushed = q.pushed
  resync : u.resync = q.resync

section Holds

variable {q : Ring} {u : Queue} {all : List Slot}

theorem holds_init (capacity maxBytes : ℕ) :
    Holds (init capacity maxBytes) (SrtQueue.init capacity maxBytes) [] :=
  ⟨SequenceRing.represents_empty fun _ => rfl, rfl, rfl, rfl, rfl, rfl, rfl, rfl, rfl, rfl⟩

theorem Holds.length (h : Holds q u all) : u.units.length = q.head - q.tail := by
  have hlen := congrArg List.length h.units
  rw [List.length_map, List.length_drop, ← h.head] at hlen
  exact hlen

theorem Holds.tail_le (h : Holds q u all) : q.tail ≤ q.head := by
  rw [h.head]
  exact h.slots.tail_le

/-- The retained units are in the slots of their numbers. -/
theorem Holds.slotsFrom (h : Holds q u all) {sequence : ℕ} (hs : q.tail ≤ sequence) :
    slotsFrom q sequence = all.drop sequence := by
  refine List.ext_getElem ?_ fun i hi hi' => ?_
  · rw [SrtRing.slotsFrom, List.length_map, List.length_range, List.length_drop, h.head]
  · have hlt : sequence + i < all.length := by
      rw [List.length_drop] at hi'
      omega
    simp only [SrtRing.slotsFrom, List.getElem_map, List.getElem_range, List.getElem_drop]
    exact h.slots.held (sequence + i) hlt (by omega)

theorem Holds.drop (h : Holds q u all) {sequence : ℕ} (hs : q.tail ≤ sequence) :
    (u.units.drop (sequence - q.tail)).map slotOf = all.drop sequence := by
  rw [List.map_drop, h.units, List.drop_drop]
  congr 1
  omega

theorem Holds.oldest (h : Holds q u all) (hne : q.tail < q.head) :
    ∃ v rest, u.units = v :: rest ∧ q.slots (q.tail % q.capacity) = slotOf v ∧
      rest.map slotOf = all.drop (q.tail + 1) := by
  have hlen := h.length
  obtain ⟨v, rest, hu⟩ := List.exists_cons_of_length_pos (show 0 < u.units.length by omega)
  have hlt : q.tail < all.length := h.head ▸ hne
  have hunits := h.units
  rw [hu, List.map_cons, List.drop_eq_getElem_cons hlt] at hunits
  obtain ⟨hfirst, hrest⟩ := List.cons.inj hunits
  refine ⟨v, rest, hu, ?_, hrest⟩
  rw [h.slots.held q.tail hlt (Nat.le_refl _), ← hfirst]

theorem Holds.release (h : Holds q u all) (hne : q.tail < q.head) :
    Holds (release q) (SrtQueue.release u) all := by
  obtain ⟨v, rest, hu, hslot, hrest⟩ := h.oldest hne
  rw [SrtQueue.release_cons hu]
  constructor
  · exact h.slots.evict (h.head ▸ hne) rfl
  · exact h.head
  · exact hrest
  · exact h.capacity
  · exact h.maxBytes
  · exact congrArg (· + 1) h.tail
  · dsimp only [SrtRing.release]
    rw [hslot, h.bytes]
    rfl
  · exact h.dropped
  · exact h.pushed
  · exact h.resync

theorem Holds.evict (h : Holds q u all) : Holds (evict q) (SrtQueue.evict u) all := by
  by_cases hne : q.tail < q.head
  · obtain ⟨v, rest, hu, -⟩ := h.oldest hne
    have hr := h.release hne
    have hevict : SrtQueue.evict u =
        { SrtQueue.release u with dropped := u.dropped + 1, resync := true } := by
      simp [SrtQueue.evict, hu]
    rw [hevict, SrtRing.evict, if_neg (by omega)]
    exact ⟨hr.slots, hr.head, hr.units, hr.capacity, hr.maxBytes, hr.tail, hr.bytes,
      congrArg (· + 1) h.dropped, hr.pushed, rfl⟩
  · have hnil : u.units = [] := List.length_eq_zero_iff.mp (by rw [h.length]; omega)
    have hevict : SrtQueue.evict u = u := by simp [SrtQueue.evict, hnil]
    rw [hevict, SrtRing.evict, if_pos (by omega)]
    exact h

theorem Holds.crowded (h : Holds q u all) (len : ℕ) :
    SrtQueue.crowded u len = crowded q len := by
  have hlen := h.length
  have hne : u.units ≠ [] ↔ q.tail < q.head := by
    rw [← List.length_pos_iff]
    omega
  unfold SrtQueue.crowded SrtRing.crowded
  rw [hlen, h.capacity, h.maxBytes, h.bytes]
  exact decide_eq_decide.mpr (and_congr_left' hne)

theorem Holds.makeRoom (h : Holds q u all) (len : ℕ) :
    Holds (makeRoom q len) (SrtQueue.makeRoom u len) all := by
  fun_induction SrtRing.makeRoom q len generalizing u with
  | case1 q hcrowded ih =>
    rw [SrtQueue.makeRoom, dif_pos (by rw [h.crowded]; exact hcrowded)]
    exact ih h.evict
  | case2 q hquiet =>
    rw [SrtQueue.makeRoom, dif_neg (by rw [h.crowded]; exact hquiet)]
    exact h

theorem Holds.oversized (h : Holds q u all) (len : ℕ) :
    SrtQueue.oversized u len = oversized q len := by
  unfold SrtQueue.oversized SrtRing.oversized
  rw [h.maxBytes]

theorem Holds.store (h : Holds q u all) (hroom : q.head - q.tail < q.capacity)
    (burst len : ℕ) (keyframe : Bool) (now : ℕ) :
    (q.slots (q.head % q.capacity)).burst = none ∧
      Holds
        { q with
          slots := Function.update q.slots (q.head % q.capacity)
            ⟨some burst, len, q.head, now, keyframe⟩
          bytes := q.bytes + len, head := q.head + 1, pushed := q.pushed + 1 }
        (SrtQueue.append u ⟨burst, len, u.head, now, keyframe⟩)
        (all ++ [⟨some burst, len, q.head, now, keyframe⟩]) := by
  have hlen := h.length
  have hle := h.tail_le
  have hhead : u.head = q.head := by
    rw [SrtQueue.Queue.head, h.tail, hlen]
    omega
  have hfree : all.length < q.tail + q.capacity := by
    rw [← h.head]
    omega
  constructor
  · have hvacant := h.slots.next_vacant hfree
    rw [← h.head] at hvacant
    exact hvacant
  · constructor
    · have hpushed := h.slots.push hfree ⟨some burst, len, q.head, now, keyframe⟩
      rw [← h.head] at hpushed
      exact hpushed
    · dsimp only
      rw [List.length_append, List.length_singleton, h.head]
    · dsimp only [SrtQueue.append]
      rw [List.map_append, h.units, List.drop_append_of_le_length h.slots.tail_le, hhead]
      rfl
    · exact h.capacity
    · exact h.maxBytes
    · exact h.tail
    · exact congrArg (· + len) h.bytes
    · exact h.dropped
    · exact congrArg (· + 1) h.pushed
    · exact h.resync

def pushedSlot (q : Ring) (burst len : ℕ) (keyframe : Bool) (now : ℕ) : Slot :=
  ⟨some burst, len, q.head, now, keyframe⟩

theorem makeRoom_head (q : Ring) (len : ℕ) :
    (makeRoom q len).head = q.head ∧ (makeRoom q len).capacity = q.capacity := by
  fun_induction SrtRing.makeRoom q len with
  | case1 q hcrowded ih =>
    simp only [SrtRing.crowded, decide_eq_true_eq] at hcrowded
    rw [ih.1, ih.2, SrtRing.evict, if_neg (by omega)]
    exact ⟨rfl, rfl⟩
  | case2 q hquiet => exact ⟨rfl, rfl⟩

theorem makeRoom_quiet (q : Ring) (len : ℕ) : crowded (makeRoom q len) len = false := by
  fun_induction SrtRing.makeRoom q len with
  | case1 q hcrowded ih => exact ih
  | case2 q hquiet => simpa using hquiet

theorem Holds.refuse (h : Holds q u all) :
    Holds { q with dropped := q.dropped + 1, resync := true }
      { u with dropped := u.dropped + 1, resync := true } all :=
  ⟨h.slots, h.head, h.units, h.capacity, h.maxBytes, h.tail, h.bytes,
    congrArg (· + 1) h.dropped, h.pushed, rfl⟩

theorem Holds.push (h : Holds q u all) (hpositive : 0 < q.capacity) {len : ℕ} (hne : len ≠ 0)
    (hover : SrtRing.oversized q len = false) (burst : ℕ) (keyframe : Bool) (now : ℕ) :
    Holds (push q burst len keyframe now) (SrtQueue.push u burst len keyframe now)
      (all ++ [pushedSlot q burst len keyframe now]) := by
  obtain ⟨hhead, hcapacity⟩ := makeRoom_head q len
  have hmade := h.makeRoom len
  have hquiet := makeRoom_quiet q len
  have hroom : (SrtRing.makeRoom q len).head - (SrtRing.makeRoom q len).tail <
      (SrtRing.makeRoom q len).capacity := by
    simp only [SrtRing.crowded, decide_eq_false_iff_not, not_and, not_or] at hquiet
    by_cases hlt : (SrtRing.makeRoom q len).tail < (SrtRing.makeRoom q len).head
    · have := (hquiet hlt).1
      omega
    · omega
  obtain ⟨hvacant, hstored⟩ := hmade.store hroom burst len keyframe now
  rw [SrtRing.push, SrtQueue.push, if_neg hne, if_neg hne, h.oversized, hover]
  simp only [Bool.false_eq_true, if_false]
  rw [if_pos hvacant, pushedSlot, ← hhead]
  exact hstored

theorem Holds.slot (h : Holds q u all) {sequence : ℕ} (hs : q.tail ≤ sequence)
    (hlt : sequence < q.head) :
    ∃ v rest, u.units.drop (sequence - q.tail) = v :: rest ∧
      q.slots (sequence % q.capacity) = slotOf v ∧
        rest = u.units.drop (sequence + 1 - q.tail) := by
  have hlen := h.length
  have hidx : sequence - q.tail < u.units.length := by omega
  refine ⟨u.units[sequence - q.tail], u.units.drop (sequence - q.tail + 1),
    List.drop_eq_getElem_cons hidx, ?_, by congr 1; omega⟩
  have hall : sequence < all.length := h.head ▸ hlt
  have hdrop := h.drop hs
  rw [List.drop_eq_getElem_cons hidx, List.drop_eq_getElem_cons hall, List.map_cons] at hdrop
  rw [h.slots.held sequence hall hs]
  exact (List.cons.inj hdrop).1.symm

theorem le_keyframeFrom (q : Ring) (sequence : ℕ) : sequence ≤ keyframeFrom q sequence := by
  fun_induction SrtRing.keyframeFrom q sequence with
  | case1 sequence hlt unit hkey => exact Nat.le_refl _
  | case2 sequence hlt unit hkey ih => exact Nat.le_of_succ_le ih
  | case3 sequence hge => exact Nat.le_refl _

theorem Holds.keyframeFrom (h : Holds q u all) {sequence : ℕ} (hs : q.tail ≤ sequence) :
    (if keyframeFrom q sequence ≥ q.head then none
      else some (q.slots (keyframeFrom q sequence % q.capacity))) =
      ((u.units.drop (sequence - q.tail)).find? QueueUnit.keyframe).map slotOf := by
  fun_induction SrtRing.keyframeFrom q sequence with
  | case1 sequence hlt unit hkey =>
    obtain ⟨v, rest, hdrop, hslot, -⟩ := h.slot hs hlt
    have hv : v.keyframe = true := by
      have hslotKey : (q.slots (sequence % q.capacity)).keyframe = true := hkey.2
      rwa [hslot] at hslotKey
    rw [if_neg (by omega), hdrop, List.find?_cons_of_pos hv, hslot]
    rfl
  | case2 sequence hlt unit hkey ih =>
    obtain ⟨v, rest, hdrop, hslot, hrest⟩ := h.slot hs hlt
    have hv : ¬ v.keyframe = true := by
      intro hv
      refine hkey ⟨?_, ?_⟩
      · change (q.slots (sequence % q.capacity)).burst ≠ none
        rw [hslot]
        exact Option.some_ne_none _
      · change (q.slots (sequence % q.capacity)).keyframe = true
        rw [hslot]
        exact hv
    rw [ih (by omega), hdrop, List.find?_cons_of_neg hv, hrest]
  | case3 sequence hge =>
    have hlen := h.length
    rw [if_pos (by omega), List.drop_eq_nil_of_le (by omega)]
    rfl

theorem Holds.next (h : Holds q u all) (cursor : ℕ) :
    next q cursor = (SrtQueue.next u cursor).map slotOf := by
  have hlen := h.length
  have hstart : (if cursor < q.tail then q.tail else cursor) = max cursor q.tail := by
    split_ifs <;> omega
  have hle : q.tail ≤ max cursor q.tail := Nat.le_max_right _ _
  unfold SrtRing.next SrtQueue.next
  rw [h.tail, h.resync]
  by_cases hempty : q.tail ≥ q.head
  · have hnil : u.units = [] := List.length_eq_zero_iff.mp (by omega)
    rw [if_pos hempty, hnil, List.drop_nil]
    split_ifs <;> rfl
  · rw [if_neg hempty]
    dsimp only
    rw [hstart]
    cases q.resync with
    | true =>
      have hscan := h.keyframeFrom hle
      simp only [if_true]
      rw [← hscan]
      by_cases hend : SrtRing.keyframeFrom q (max cursor q.tail) ≥ q.head
      · rw [if_pos hend, if_pos hend]
      · rw [if_neg hend, if_neg hend]
        have hfound := hle.trans (le_keyframeFrom q (max cursor q.tail))
        obtain ⟨v, rest, -, hslot, -⟩ := h.slot hfound (by omega)
        rw [hslot]
        rfl
    | false =>
      simp only [Bool.false_eq_true, if_false]
      by_cases hend : max cursor q.tail ≥ q.head
      · rw [if_pos hend, List.drop_eq_nil_of_le (by omega)]
        rfl
      · obtain ⟨v, rest, hdrop, hslot, -⟩ := h.slot hle (by omega)
        rw [if_neg hend, hdrop, hslot]
        rfl

theorem Holds.retire (h : Holds q u all) (upTo : ℕ) :
    Holds (retire q upTo) (SrtQueue.retire u upTo) all := by
  fun_induction SrtRing.retire q upTo generalizing u with
  | case1 q hgo ih =>
    obtain ⟨v, rest, hu, -⟩ := h.oldest hgo.2
    have hcond : u.units ≠ [] ∧ u.tail < upTo := ⟨by rw [hu]; exact List.cons_ne_nil _ _,
      by rw [h.tail]; exact hgo.1⟩
    rw [SrtQueue.retire, dif_pos hcond]
    exact ih (h.release hgo.2)
  | case2 q hstop =>
    have hlen := h.length
    have hcond : ¬ (u.units ≠ [] ∧ u.tail < upTo) := by
      rintro ⟨hne, hlt⟩
      have hpos := List.length_pos_of_ne_nil hne
      have htail := h.tail
      exact hstop ⟨by omega, by omega⟩
    rw [SrtQueue.retire, dif_neg hcond]
    exact h

theorem Holds.advance (h : Holds q u all) (sequence : ℕ) :
    Holds (advance q sequence) (SrtQueue.advance u sequence) all := by
  unfold SrtRing.advance SrtQueue.advance
  rw [h.resync, h.tail]
  dsimp only
  split_ifs
  · have hcounted : Holds
        { q with dropped := q.dropped + (sequence - q.tail), resync := false }
        { u with
          tail := q.tail, dropped := u.dropped + (sequence - q.tail), resync := false } all :=
      ⟨h.slots, h.head, h.units, h.capacity, h.maxBytes, rfl, h.bytes,
        congrArg (· + (sequence - q.tail)) h.dropped, h.pushed, rfl⟩
    exact hcounted.retire _
  · exact h.retire _

theorem Holds.flag (h : Holds q u all) :
    Holds (SrtRing.resync q) (SrtQueue.resync u) all :=
  ⟨h.slots, h.head, h.units, h.capacity, h.maxBytes, h.tail, h.bytes, h.dropped, h.pushed, rfl⟩

end Holds

structure Models (w : World) (v : SrtQueue.World) (all : List Slot) : Prop where
  ring : Holds w.ring v.queue all
  cursor : v.cursor = w.cursor
  inflight : w.inflight = v.inflight.map flightOf
  offered : v.offered = w.offered
  delivered : w.delivered = v.delivered.map flightOf
  stored : all.map Slot.burst = w.stored.map some
  ownFlight : ∀ u, v.inflight = some u → all[u.sequence]? = some (slotOf u)
  ownDelivered : ∀ u ∈ v.delivered, all[u.sequence]? = some (slotOf u)

theorem models_initial (capacity maxBytes : ℕ) :
    Models (initial capacity maxBytes) (SrtQueue.initial capacity maxBytes) [] := by
  refine ⟨holds_init capacity maxBytes, rfl, rfl, rfl, rfl, rfl, fun u hu => ?_, fun u hu => ?_⟩
  · cases hu
  · exact absurd hu List.not_mem_nil

section Models

variable {w : World} {v : SrtQueue.World} {all : List Slot}

theorem own_append {u : QueueUnit} (more : List Slot) (h : all[u.sequence]? = some (slotOf u)) :
    (all ++ more)[u.sequence]? = some (slotOf u) := by
  obtain ⟨hlt, -⟩ := List.getElem?_eq_some_iff.mp h
  rw [List.getElem?_append_left hlt]
  exact h

theorem Models.offer (h : Models w v all) (hb : SrtTally.Bounded v) (len now : ℕ)
    (keyframe : Bool) :
    ∃ all', Models (offer w len keyframe now) (SrtQueue.offer v len keyframe now) all' := by
  have hpositive : 0 < w.ring.capacity := h.ring.capacity ▸ hb.positive
  have hover := h.ring.oversized len
  unfold SrtRing.offer SrtQueue.offer
  dsimp only
  rw [hover, h.offered]
  split_ifs with hempty hlarge
  · refine ⟨all, ?_, h.cursor, h.inflight, rfl, h.delivered, h.stored, h.ownFlight,
      h.ownDelivered⟩
    simp only [push, SrtQueue.push, hempty, if_true]
    exact h.ring
  · refine ⟨all, ?_, h.cursor, h.inflight, rfl, h.delivered, h.stored,
      h.ownFlight, h.ownDelivered⟩
    simp only [push, SrtQueue.push, hempty, if_false, hover, hlarge, if_true]
    exact h.ring.refuse
  · rw [Bool.not_eq_true] at hlarge
    refine ⟨_, h.ring.push hpositive hempty hlarge w.offered keyframe now, h.cursor, h.inflight,
      rfl, h.delivered, ?_, fun u hu => own_append _ (h.ownFlight u hu),
      fun u hu => own_append _ (h.ownDelivered u hu)⟩
    rw [List.map_append, h.stored, List.map_append]
    rfl

theorem Models.step (h : Models w v all) (hb : SrtTally.Bounded v) (call : Call) :
    ∃ all', Models (step w call) (SrtQueue.step v call) all' := by
  cases call with
  | push len keyframe now => exact h.offer hb len now keyframe
  | next =>
    have hidle : w.inflight = none ↔ v.inflight = none := by
      rw [h.inflight]
      exact Option.map_eq_none_iff
    simp only [SrtRing.step, SrtQueue.step]
    by_cases hnone : v.inflight = none
    · have hnext := h.ring.next w.cursor
      rw [if_pos (hidle.mpr hnone), if_pos hnone]
      refine ⟨all, h.ring, h.cursor, ?_, h.offered, h.delivered, h.stored, fun u hu => ?_,
        h.ownDelivered⟩
      · dsimp only
        rw [hnext, h.cursor]
        cases SrtQueue.next v.queue w.cursor with
        | none => rfl
        | some u => rfl
      · dsimp only at hu
        obtain ⟨skipped, rest, hsplit, hseq, -⟩ := hb.next_waits hu
        have hunits := h.ring.units
        have hplace : (all.drop w.ring.tail)[skipped.length]? = some (slotOf u) := by
          rw [← hunits, hsplit, List.map_append, List.map_cons,
            List.getElem?_append_right (by rw [List.length_map]), List.length_map, Nat.sub_self]
          rfl
        rw [List.getElem?_drop, ← h.ring.tail, ← hseq] at hplace
        exact hplace
    · rw [if_neg (fun hc => hnone (hidle.mp hc)), if_neg hnone]
      exact ⟨all, h⟩
  | advance =>
    simp only [SrtRing.step, SrtQueue.step]
    cases hflight : v.inflight with
    | none =>
      have hnone : w.inflight = none := by
        rw [h.inflight, hflight]
        rfl
      rw [hnone]
      exact ⟨all, h⟩
    | some u =>
      have hsome : w.inflight = some (flightOf u) := by
        rw [h.inflight, hflight]
        rfl
      rw [hsome]
      refine ⟨all, h.ring.advance u.sequence, rfl, rfl, h.offered, ?_, h.stored, fun x hx => ?_,
        fun x hx => ?_⟩
      · dsimp only [SrtQueue.deliver]
        rw [h.delivered, List.map_append]
        rfl
      · cases hx
      · rcases List.mem_append.mp hx with hx | hx
        · exact h.ownDelivered x hx
        · rw [List.mem_singleton.mp hx]
          exact h.ownFlight u hflight
  | resync =>
    exact ⟨all, h.ring.flag, h.cursor, h.inflight, h.offered, h.delivered, h.stored, h.ownFlight,
      h.ownDelivered⟩
  | abandon =>
    refine ⟨all, h.ring, h.cursor, rfl, h.offered, h.delivered, h.stored, fun u hu => ?_,
      h.ownDelivered⟩
    cases hu
  | rewind =>
    exact ⟨all, h.ring, rfl, h.inflight, h.offered, h.delivered, h.stored, h.ownFlight,
      h.ownDelivered⟩

theorem Models.run (h : Models w v all) (hb : SrtTally.Bounded v) (calls : List Call) :
    ∃ all', Models (calls.foldl SrtRing.step w) (calls.foldl SrtQueue.step v) all' := by
  induction calls generalizing w v all with
  | nil => exact ⟨all, h⟩
  | cons call rest ih =>
    obtain ⟨all', hnext⟩ := h.step hb call
    exact ih hnext (hb.step call)

/-- A push comes only when the units from the one in flight on, with the new burst, are within
the capacity and the byte ceiling. -/
def Spares (w : World) : Call → Prop
  | .push len _ _ => len ≠ 0 → oversized w.ring len = false → ∀ f ∈ w.inflight,
      w.ring.tail ≤ f.sequence →
        w.ring.head - f.sequence < w.ring.capacity ∧
          (w.ring.maxBytes ≠ 0 →
            ((slotsFrom w.ring f.sequence).map Slot.len).sum + len ≤ w.ring.maxBytes)
  | _ => True

instance (w : World) (call : Call) : Decidable (Spares w call) :=
  match call with
  | .push len _ _ => inferInstanceAs (Decidable (len ≠ 0 → oversized w.ring len = false →
      ∀ f ∈ w.inflight, w.ring.tail ≤ f.sequence →
        w.ring.head - f.sequence < w.ring.capacity ∧
          (w.ring.maxBytes ≠ 0 →
            ((slotsFrom w.ring f.sequence).map Slot.len).sum + len ≤ w.ring.maxBytes)))
  | .next => inferInstanceAs (Decidable True)
  | .advance => inferInstanceAs (Decidable True)
  | .resync => inferInstanceAs (Decidable True)
  | .abandon => inferInstanceAs (Decidable True)
  | .rewind => inferInstanceAs (Decidable True)

theorem lens_slotOf (units : List QueueUnit) :
    ((units.map slotOf).map Slot.len).sum = SrtTally.lens units := by
  rw [List.map_map]
  rfl

theorem Models.spares (h : Models w v all) {call : Call} (hspares : Spares w call) :
    SrtTally.Spares v call := by
  cases call with
  | push len keyframe now =>
    intro hempty hover u hu hle
    have hflight : flightOf u ∈ w.inflight := by
      rw [h.inflight, hu]
      rfl
    rw [h.ring.oversized] at hover
    rw [h.ring.tail] at hle ⊢
    obtain ⟨hroom, hceiling⟩ := hspares hempty hover (flightOf u) hflight hle
    have hdrop := h.ring.drop hle
    have hlength : (v.queue.units.drop (u.sequence - w.ring.tail)).length =
        w.ring.head - u.sequence := by
      rw [List.length_drop, h.ring.length]
      omega
    refine ⟨by rw [hlength, h.ring.capacity]; exact hroom, fun hmax => ?_⟩
    rw [h.ring.maxBytes] at hmax ⊢
    have hbytes := hceiling hmax
    have hslots : slotsFrom w.ring (flightOf u).sequence = all.drop u.sequence :=
      h.ring.slotsFrom hle
    rw [hslots, ← hdrop, lens_slotOf] at hbytes
    exact hbytes
  | next => trivial
  | advance => trivial
  | resync => trivial
  | abandon => trivial
  | rewind => trivial

theorem Models.meets (h : Models w v all) (hb : SrtTally.Bounded v) {calls : List Call}
    (hmeets : StepRun.Meets SrtRing.step Spares w calls) :
    StepRun.Meets SrtQueue.step SrtTally.Spares v calls := by
  induction calls generalizing w v all with
  | nil => trivial
  | cons call rest ih =>
    obtain ⟨hhead, hrest⟩ := hmeets
    obtain ⟨all', hnext⟩ := h.step hb call
    exact ⟨h.spares hhead, ih hnext (hb.step call) hrest⟩

theorem Models.bursts (h : Models w v all) :
    w.stored.drop w.ring.tail = v.queue.units.map QueueUnit.burst := by
  refine List.map_injective_iff.mpr (Option.some_injective ℕ) ?_
  rw [List.map_drop, ← h.stored, ← List.map_drop, ← h.ring.units, List.map_map, List.map_map]
  rfl

theorem Models.ordered (h : Models w v all) (hb : SrtTally.Bounded v) : Ordered w := by
  have hlen := h.ring.length
  have hle := h.ring.tail_le
  have hretained : retained w.ring = v.queue.units.map slotOf := by
    rw [h.ring.units]
    exact h.ring.slotsFrom (Nat.le_refl _)
  constructor
  · have hroom := hb.room
    rw [h.ring.capacity] at hroom
    exact ⟨hle, by omega⟩
  · rw [hretained, lens_slotOf, ← hb.bytes, h.ring.bytes]
  · have hceiling := hb.ceiling
    rw [h.ring.maxBytes, h.ring.bytes] at hceiling
    exact hceiling
  · rw [h.delivered]
    exact List.pairwise_map.mpr hb.increasing
  · intro f hf
    rw [h.delivered] at hf
    obtain ⟨u, hu, rfl⟩ := List.mem_map.mp hf
    have hown := congrArg (fun slot => slot.map Slot.burst) (h.ownDelivered u hu)
    rw [← List.getElem?_map, h.stored, List.getElem?_map] at hown
    cases hstored : w.stored[u.sequence]? with
    | none =>
      rw [hstored] at hown
      cases hown
    | some burst =>
      rw [hstored] at hown
      have hsame : burst = u.burst := Option.some.inj (Option.some.inj hown)
      rw [hsame] at hstored
      exact hstored
  · rw [hretained, h.bursts, List.map_map, List.map_map]
    rfl

theorem Models.accounted (h : Models w v all) (hb : SrtTally.Bounded v)
    (hs : SrtTally.Sorted v) : Accounted w := by
  refine ⟨h.ordered hb, v.lost, ?_, ?_⟩
  · rw [← h.ring.dropped, hs.counted]
  · have hfates := hs.fates
    rw [h.offered] at hfates
    rw [h.bursts, h.delivered, List.map_map]
    exact hfates

end Models

/-- In a run whose pushes all spare the unit in flight, the ring is within its bounds, every
delivered unit is above the one before and has its own burst, and every burst offered is
delivered, dropped and counted once, or retained. -/
theorem ring_accounted (capacity maxBytes : ℕ) (calls : List Call)
    (hmeets : StepRun.Meets step Spares (initial capacity maxBytes) calls) :
    Accounted (run capacity maxBytes calls) := by
  have hmodels := models_initial capacity maxBytes
  have hbounded := SrtTally.bounded_initial capacity maxBytes
  obtain ⟨all, hrun⟩ := hmodels.run hbounded calls
  exact hrun.accounted (SrtTally.bounded_run capacity maxBytes calls)
    (SrtTally.sorted_run (hmodels.meets hbounded hmeets))

/-- Sync boundaries with room for both of them beside the burst that is being sent. -/
def roomyCalls : List Call :=
  [.push 100 true 0, .next, .push 100 true 1, .push 100 true 2, .advance, .next, .advance,
    .push 2000 true 3]

theorem roomy_accounted : Accounted (run 4 1000 roomyCalls) :=
  ring_accounted 4 1000 roomyCalls (by decide +kernel)

def evictedCalls : List Call := [.push 100 true 0, .next, .push 100 true 1, .advance]

theorem inflight_counted_twice :
    ¬ ∀ capacity maxBytes calls, Accounted (run capacity maxBytes calls) := by
  intro h
  obtain ⟨lost, hlost, hperm⟩ := (h 1 0 evictedCalls).fates
  have hdropped : (run 1 0 evictedCalls).ring.dropped = 1 := by decide +kernel
  have hlength := hperm.length_eq
  rw [List.length_append, List.length_append, hlost, hdropped] at hlength
  revert hlength
  decide +kernel

end SrtRing
