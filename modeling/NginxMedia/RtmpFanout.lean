import Mathlib.Data.List.Induction
import Mathlib.Data.Nat.Find
import NginxMedia.MediaTypes
import NginxMedia.SequenceRing

/-! The RTMP fan-out ring of `ngx_media_rtmp_adapter.c`: one converted unit per program
message, shared by every player. A push overwrites the slot of its sequence number
first and evicts afterwards. -/
namespace RtmpFanout

open MediaTypes SequenceRing

structure Media where
  payload : Option Payload
  type : ℕ
  track : ℕ
  timestamp : UInt32
  sequence : ℕ
  keyframe : Bool
  config : Bool
  deriving DecidableEq, Repr

def Media.size (m : Media) : ℕ := bufSize m.payload

def Media.Vacant (m : Media) : Prop := m.payload = none

def Media.empty : Media := ⟨none, 0, 0, 0, 0, false, false⟩

def fanoutUnits : ℕ := 1024

structure Fanout where
  units : ℕ → Media
  capacity : ℕ
  head : ℕ
  tail : ℕ
  dropped : ℕ
  converted : ℕ
  bytes : ℕ
  maxBytes : ℕ

def init (capacity maxBytes : ℕ) : Fanout where
  units := fun _ => Media.empty
  capacity := if 0 < capacity ∧ capacity ≤ fanoutUnits then capacity else fanoutUnits
  head := 0
  tail := 0
  dropped := 0
  converted := 0
  bytes := 0
  maxBytes := if maxBytes ≠ 0 then maxBytes else 16 * 1024 * 1024

/-- One iteration of the loop of `ngx_media_rtmp_fanout_evict()`. -/
def evictOne (fan : Fanout) : Fanout :=
  let index := fan.tail % fan.capacity
  let unit := fan.units index
  if unit.payload ≠ none then
    { fan with
      bytes := fan.bytes - unit.size
      units := Function.update fan.units index { unit with payload := none }
      tail := fan.tail + 1
      dropped := fan.dropped + 1 }
  else
    { fan with tail := fan.tail + 1, dropped := fan.dropped + 1 }

def mustEvict (fan : Fanout) : Prop :=
  fan.tail < fan.head ∧
    (fan.head - fan.tail > fan.capacity ∨ (fan.maxBytes ≠ 0 ∧ fan.bytes > fan.maxBytes))

instance (fan : Fanout) : Decidable (mustEvict fan) :=
  inferInstanceAs (Decidable (_ ∧ _))

def evictLoop : ℕ → Fanout → Fanout
  | 0, fan => fan
  | n + 1, fan => if mustEvict fan then evictLoop n (evictOne fan) else fan

/-- `ngx_media_rtmp_fanout_evict()`. The loop moves the tail once per round and stops
at the head, so it runs at most `head - tail` rounds. -/
def evict (fan : Fanout) : Fanout := evictLoop (fan.head - fan.tail) fan

structure Push where
  type : ℕ
  track : ℕ
  timestamp : UInt32
  payload : Payload
  keyframe : Bool
  config : Bool
  deriving DecidableEq, Repr

def Push.unit (p : Push) (sequence : ℕ) : Media :=
  ⟨some p.payload, p.type, p.track, p.timestamp, sequence, p.keyframe, p.config⟩

def overwrite (fan : Fanout) (p : Push) : Fanout :=
  let index := fan.head % fan.capacity
  { fan with
    bytes := fan.bytes - (fan.units index).size + p.payload.length
    units := Function.update fan.units index (p.unit fan.head)
    head := fan.head + 1
    converted := fan.converted + 1 }

def push (fan : Fanout) (p : Push) : Fanout := evict (overwrite fan p)

def next (fan : Fanout) (start : ℕ) : Option Media :=
  if fan.tail ≥ fan.head then none
  else
    let sequence := if start < fan.tail then fan.tail else start
    if sequence ≥ fan.head then none
    else
      let unit := fan.units (sequence % fan.capacity)
      if unit.payload = none then none else some unit

inductive Call where
  | push (p : Push)
  | next (start : ℕ)
  deriving DecidableEq, Repr

def step (fan : Fanout) : Call → Fanout
  | .push p => push fan p
  | .next _ => fan

def run (fan : Fanout) (calls : List Call) : Fanout := calls.foldl step fan

/-- The pushes of a run, in order: the unit with sequence number `s` is the `s`-th. -/
def pushes (calls : List Call) : List Push :=
  calls.filterMap fun
    | .push p => some p
    | .next _ => none

def numbered (ps : List Push) : List Media := ps.mapIdx fun i p => p.unit i

/-- What the ring owes its readers after the pushes `ps`. -/
structure Retains (fan : Fanout) (ps : List Push) : Prop where
  newest : ps ≠ [] → fan.tail < fan.head
  units_le : fan.head - fan.tail ≤ fan.capacity
  bytes_eq : fan.bytes = retained Media.size fan.tail (numbered ps)
  bytes_le : fan.bytes ≤ fan.maxBytes
  served : ∀ s, fan.tail ≤ s → s < fan.head → next fan s = (numbered ps)[s]?

theorem init_capacity_pos (c b : ℕ) : 0 < (init c b).capacity := by
  unfold init
  dsimp only
  by_cases h : 0 < c ∧ c ≤ fanoutUnits
  · rw [if_pos h]
    exact h.1
  · rw [if_neg h]
    decide

theorem init_maxBytes_pos (c b : ℕ) : 0 < (init c b).maxBytes := by
  simp only [init]
  split_ifs <;> omega

@[simp] theorem numbered_length (ps : List Push) : (numbered ps).length = ps.length := by
  simp [numbered]

theorem numbered_append (ps : List Push) (p : Push) :
    numbered (ps ++ [p]) = numbered ps ++ [p.unit ps.length] := by
  simp [numbered, List.mapIdx_append]

theorem numbered_payload (ps : List Push) (i : ℕ) (h : i < (numbered ps).length) :
    (numbered ps)[i].payload ≠ none := by
  simp [numbered, Push.unit]

theorem numbered_sizes (ps : List Push) :
    (numbered ps).map Media.size = ps.map (·.payload.length) := by
  induction ps using List.reverseRecOn with
  | nil => rfl
  | append_singleton ps p ih => simp [numbered_append, ih, Push.unit, Media.size]

theorem retained_numbered (ps : List Push) (i : ℕ) :
    retained Media.size i (numbered ps) = ((ps.drop i).map (·.payload.length)).sum := by
  rw [retained, List.map_drop, numbered_sizes, List.map_drop]

theorem pushes_append (calls more : List Call) :
    pushes (calls ++ more) = pushes calls ++ pushes more := by
  simp [pushes]

@[simp] theorem pushes_push (p : Push) : pushes [.push p] = [p] := rfl
@[simp] theorem pushes_next (c : ℕ) : pushes [.next c] = [] := rfl

theorem run_append (fan : Fanout) (calls : List Call) (c : Call) :
    run fan (calls ++ [c]) = step (run fan calls) c := by
  simp [run]

theorem split_at_push (calls : List Call) (n : ℕ) (hn : n < (pushes calls).length) :
    ∃ before p after, calls = before ++ .push p :: after ∧
      pushes before = (pushes calls).take n := by
  induction calls generalizing n with
  | nil => simp [pushes] at hn
  | cons c calls ih =>
    cases c with
    | next start =>
      obtain ⟨before, p, after, hc, hb⟩ := ih n hn
      exact ⟨.next start :: before, p, after, by rw [hc]; rfl, hb⟩
    | push q =>
      cases n with
      | zero => exact ⟨[], q, calls, rfl, rfl⟩
      | succ n =>
        have hn' : n < (pushes calls).length := by
          simpa [pushes] using hn
        obtain ⟨before, p, after, hc, hb⟩ := ih n hn'
        refine ⟨.push q :: before, p, after, by rw [hc]; rfl, ?_⟩
        calc pushes (.push q :: before) = q :: pushes before := rfl
          _ = q :: (pushes calls).take n := by rw [hb]
          _ = (pushes (.push q :: calls)).take (n + 1) := rfl

structure Counted (fan : Fanout) (ps : List Push) : Prop where
  ring : Represents Media.Vacant fan.units fan.capacity fan.tail (numbered ps)
  head_eq : fan.head = ps.length
  bytes_eq : fan.bytes = retained Media.size fan.tail (numbered ps)
  needed : ∀ t, t < fan.tail → fan.maxBytes < retained Media.size t (numbered ps)

/-- The invariant between two calls. -/
structure Inv (fan : Fanout) (ps : List Push) : Prop extends Counted fan ps where
  bytes_le : fan.bytes ≤ fan.maxBytes

theorem init_inv (c b : ℕ) : Inv (init c b) [] where
  ring := represents_empty fun _ => rfl
  head_eq := rfl
  bytes_eq := rfl
  needed := fun t ht => absurd ht (Nat.not_lt_zero t)
  bytes_le := Nat.zero_le _

theorem Counted.window_le {fan : Fanout} {ps : List Push} (h : Counted fan ps) :
    fan.head ≤ fan.tail + fan.capacity := by
  simpa [h.head_eq] using h.ring.room

theorem Counted.mustEvict_iff {fan : Fanout} {ps : List Push} (h : Counted fan ps)
    (hm : 0 < fan.maxBytes) :
    mustEvict fan ↔ fan.tail < fan.head ∧ fan.maxBytes < fan.bytes := by
  have hw := h.window_le
  unfold mustEvict
  omega

theorem Counted.after_evictOne {fan : Fanout} {ps : List Push} (h : Counted fan ps)
    (ht : fan.tail < fan.head) (hb : fan.maxBytes < fan.bytes) :
    Counted (evictOne fan) ps := by
  have hl : fan.tail < (numbered ps).length := by simpa [h.head_eq] using ht
  have hslot := h.ring.held fan.tail hl (Nat.le_refl _)
  have hunit : (fan.units (fan.tail % fan.capacity)).payload ≠ none := by
    rw [hslot]
    exact numbered_payload ps _ hl
  have hsum := retained_evict Media.size hl
  unfold evictOne
  simp only [if_pos hunit]
  refine ⟨h.ring.evict hl rfl, h.head_eq, ?_, ?_⟩
  · dsimp only
    rw [hslot, h.bytes_eq, hsum]
    omega
  · intro t hlt
    dsimp only at hlt ⊢
    rcases Nat.lt_succ_iff_lt_or_eq.mp hlt with hlt | rfl
    · exact h.needed t hlt
    · rw [← h.bytes_eq]
      exact hb

@[simp] theorem evictOne_tail (fan : Fanout) : (evictOne fan).tail = fan.tail + 1 := by
  unfold evictOne
  dsimp only
  split_ifs <;> rfl

@[simp] theorem evictOne_head (fan : Fanout) : (evictOne fan).head = fan.head := by
  unfold evictOne
  dsimp only
  split_ifs <;> rfl

@[simp] theorem evictOne_capacity (fan : Fanout) :
    (evictOne fan).capacity = fan.capacity := by
  unfold evictOne
  dsimp only
  split_ifs <;> rfl

@[simp] theorem evictOne_maxBytes (fan : Fanout) :
    (evictOne fan).maxBytes = fan.maxBytes := by
  unfold evictOne
  dsimp only
  split_ifs <;> rfl

@[simp] theorem evictLoop_capacity (n : ℕ) (fan : Fanout) :
    (evictLoop n fan).capacity = fan.capacity := by
  induction n generalizing fan with
  | zero => rfl
  | succ n ih =>
    rw [evictLoop]
    split_ifs
    · rw [ih, evictOne_capacity]
    · rfl

@[simp] theorem evictLoop_maxBytes (n : ℕ) (fan : Fanout) :
    (evictLoop n fan).maxBytes = fan.maxBytes := by
  induction n generalizing fan with
  | zero => rfl
  | succ n ih =>
    rw [evictLoop]
    split_ifs
    · rw [ih, evictOne_maxBytes]
    · rfl

@[simp] theorem push_capacity (fan : Fanout) (p : Push) :
    (push fan p).capacity = fan.capacity := by
  simp [push, evict, overwrite]

@[simp] theorem push_maxBytes (fan : Fanout) (p : Push) :
    (push fan p).maxBytes = fan.maxBytes := by
  simp [push, evict, overwrite]

theorem Counted.after_evictLoop {ps : List Push} (n : ℕ) (fan : Fanout) (h : Counted fan ps)
    (hm : 0 < fan.maxBytes) (hn : fan.head - fan.tail ≤ n) :
    Inv (evictLoop n fan) ps := by
  induction n generalizing fan with
  | zero =>
    have hw := h.ring.tail_le
    rw [numbered_length, ← h.head_eq] at hw
    have ht : fan.tail = (numbered ps).length := by
      rw [numbered_length, ← h.head_eq]
      omega
    refine ⟨h, ?_⟩
    rw [evictLoop, h.bytes_eq, ht, retained_all]
    exact Nat.zero_le _
  | succ n ih =>
    rw [evictLoop]
    by_cases he : mustEvict fan
    · rw [if_pos he]
      obtain ⟨ht, hb⟩ := (h.mustEvict_iff hm).mp he
      apply ih _ (h.after_evictOne ht hb)
      · simpa using hm
      · simp only [evictOne_head, evictOne_tail]
        omega
    · rw [if_neg he]
      refine ⟨h, ?_⟩
      rw [h.mustEvict_iff hm] at he
      by_cases ht : fan.tail < fan.head
      · omega
      · have hw := h.ring.tail_le
        rw [numbered_length, ← h.head_eq] at hw
        rw [h.bytes_eq, show fan.tail = (numbered ps).length by
          rw [numbered_length, ← h.head_eq]; omega, retained_all]
        exact Nat.zero_le _

theorem Inv.after_overwrite {fan : Fanout} {ps : List Push} (h : Inv fan ps) (p : Push)
    (hr : fan.head < fan.tail + fan.capacity) :
    Counted (overwrite fan p) (ps ++ [p]) := by
  have hlen : (numbered ps).length = fan.head := by simp [h.head_eq]
  have hv : (fan.units (fan.head % fan.capacity)).payload = none := by
    have := h.ring.next_vacant (by omega)
    rwa [hlen] at this
  have hring := h.ring.push (by omega) (p.unit fan.head)
  rw [hlen] at hring
  refine ⟨?_, ?_, ?_, ?_⟩
  · rw [numbered_append, ← h.head_eq]
    exact hring
  · simp [overwrite, h.head_eq]
  · simp only [overwrite, Media.size, hv, bufSize_none, Nat.sub_zero]
    rw [numbered_append, retained_push _ _ h.ring.tail_le, h.bytes_eq]
    rfl
  · intro t ht
    rw [numbered_append, retained_push _ _ (Nat.le_trans (Nat.le_of_lt ht) h.ring.tail_le)]
    exact Nat.lt_of_lt_of_le (h.needed t ht) (Nat.le_add_right _ _)

theorem Inv.after_push {fan : Fanout} {ps : List Push} (h : Inv fan ps) (p : Push)
    (hm : 0 < fan.maxBytes) (hr : fan.head < fan.tail + fan.capacity) :
    Inv (push fan p) (ps ++ [p]) :=
  (h.after_overwrite p hr).after_evictLoop _ _ hm (Nat.le_refl _)

theorem next_retained {fan : Fanout} {s : ℕ} (hts : fan.tail ≤ s) (hsh : s < fan.head) :
    next fan s = if (fan.units (s % fan.capacity)).payload = none then none
      else some (fan.units (s % fan.capacity)) := by
  unfold next
  rw [if_neg (by omega), if_neg (by omega : ¬ s < fan.tail)]
  exact if_neg (by omega)

theorem Inv.served {fan : Fanout} {ps : List Push} (h : Inv fan ps) {s : ℕ}
    (hts : fan.tail ≤ s) (hsh : s < fan.head) : next fan s = (numbered ps)[s]? := by
  have hl : s < (numbered ps).length := by simpa [h.head_eq] using hsh
  have hslot := h.ring.held s hl hts
  have hpay : (fan.units (s % fan.capacity)).payload ≠ none := by
    rw [hslot]
    exact numbered_payload ps _ hl
  rw [next_retained hts hsh, if_neg hpay, hslot, List.getElem?_eq_getElem hl]

theorem Inv.retains {fan : Fanout} {ps : List Push} (h : Inv fan ps)
    (hp : ∀ p ∈ ps, p.payload.length ≤ fan.maxBytes) : Retains fan ps where
  newest := by
    intro hne
    by_contra ht
    have hw := h.ring.tail_le
    rw [numbered_length] at hw
    have hhead := h.head_eq
    have hpos : 0 < ps.length := List.length_pos_of_ne_nil hne
    -- the last unit alone would have had to exceed the byte bound
    have hlast := h.needed (ps.length - 1) (by omega)
    rw [retained_numbered] at hlast
    have hdrop : ps.drop (ps.length - 1) = [ps.getLast hne] := List.drop_length_sub_one hne
    rw [hdrop] at hlast
    have := hp _ (List.getLast_mem hne)
    simp at hlast
    omega
  units_le := by have := h.window_le; omega
  bytes_eq := h.bytes_eq
  bytes_le := h.bytes_le
  served := fun _ hts hsh => h.served hts hsh

theorem Inv.push_full {fan : Fanout} {ps : List Push} (h : Inv fan ps) (p : Push)
    (hc : 0 < fan.capacity) (hfull : fan.head = fan.tail + fan.capacity) :
    push fan p = { overwrite fan p with
      bytes := fan.bytes - (fan.units (fan.head % fan.capacity)).size
      units := Function.update (overwrite fan p).units (fan.tail % fan.capacity)
        { p.unit fan.head with payload := none }
      tail := fan.tail + 1
      dropped := fan.dropped + 1 } := by
  have hslot : fan.head % fan.capacity = fan.tail % fan.capacity := by
    rw [hfull, Nat.add_mod_right]
  have hmust : mustEvict (overwrite fan p) := by
    unfold mustEvict
    simp only [overwrite]
    omega
  have hpush : push fan p =
      evictLoop fan.capacity (evictOne (overwrite fan p)) := by
    rw [push, evict]
    rw [show (overwrite fan p).head - (overwrite fan p).tail = fan.capacity + 1 by
      simp only [overwrite]; omega]
    rw [evictLoop, if_pos hmust]
  have hone : evictOne (overwrite fan p) =
      { overwrite fan p with
        bytes := fan.bytes - (fan.units (fan.head % fan.capacity)).size
        units := Function.update (overwrite fan p).units (fan.tail % fan.capacity)
          { p.unit fan.head with payload := none }
        tail := fan.tail + 1
        dropped := fan.dropped + 1 } := by
    unfold evictOne
    simp [overwrite, hslot, Push.unit, Media.size]
  have hstop : ¬ mustEvict (evictOne (overwrite fan p)) := by
    have := h.bytes_le
    unfold mustEvict
    rw [hone]
    simp only [overwrite]
    omega
  obtain ⟨n, hn⟩ : ∃ n, fan.capacity = n + 1 := ⟨fan.capacity - 1, by omega⟩
  rw [hpush, ← hone, hn, evictLoop, if_neg hstop]

theorem Inv.full_push {fan : Fanout} {ps : List Push} (h : Inv fan ps) (p : Push)
    (hc : 0 < fan.capacity) (hfull : fan.head = fan.tail + fan.capacity) :
    ¬ Retains (push fan p) (ps ++ [p]) := by
  have hslot : fan.head % fan.capacity = fan.tail % fan.capacity := by
    rw [hfull, Nat.add_mod_right]
  have hend := h.push_full p hc hfull
  intro hr
  have hlow : (push fan p).tail ≤ fan.head := by
    rw [hend]
    dsimp only
    omega
  have hhigh : fan.head < (push fan p).head := by
    rw [hend]
    exact Nat.lt_succ_self _
  have hgone : ((push fan p).units (fan.head % (push fan p).capacity)).payload = none := by
    rw [push_capacity, hend, hslot]
    simp
  have hget := hr.served fan.head hlow hhigh
  rw [next_retained hlow hhigh, if_pos hgone, numbered_append, h.head_eq] at hget
  simp at hget

/-- No `capacity` consecutive units that another push follows fit the byte bound, so
the bytes always evict before the count does. -/
def BytesEvictFirst (capacity maxBytes : ℕ) (ps : List Push) : Prop :=
  ∀ i, i + capacity < ps.length →
    maxBytes < (((ps.drop i).take capacity).map (·.payload.length)).sum

theorem Inv.not_full {fan : Fanout} {ps : List Push} (h : Inv fan ps) (p : Push)
    (hg : BytesEvictFirst fan.capacity fan.maxBytes (ps ++ [p])) :
    fan.head < fan.tail + fan.capacity := by
  by_contra hn
  have hfull : ps.length = fan.tail + fan.capacity := by
    have := h.window_le
    have := h.head_eq
    omega
  have hsum := hg fan.tail (by simp; omega)
  have hle := h.bytes_le
  rw [h.bytes_eq, retained_numbered] at hle
  rw [List.drop_append_of_le_length (by omega),
    List.take_append_of_le_length (by simp; omega),
    List.take_of_length_le (by simp; omega)] at hsum
  omega

theorem BytesEvictFirst.dropLast {c b : ℕ} {ps : List Push} {p : Push}
    (h : BytesEvictFirst c b (ps ++ [p])) : BytesEvictFirst c b ps := by
  intro i hi
  have := h i (by simp; omega)
  rwa [List.drop_append_of_le_length (by omega),
    List.take_append_of_le_length (by simp; omega)] at this

@[simp] theorem run_capacity (fan : Fanout) (calls : List Call) :
    (run fan calls).capacity = fan.capacity := by
  induction calls using List.reverseRecOn with
  | nil => rfl
  | append_singleton calls c ih => cases c <;> simp [run_append, step, ih]

@[simp] theorem run_maxBytes (fan : Fanout) (calls : List Call) :
    (run fan calls).maxBytes = fan.maxBytes := by
  induction calls using List.reverseRecOn with
  | nil => rfl
  | append_singleton calls c ih => cases c <;> simp [run_append, step, ih]

theorem run_inv (c b : ℕ) (calls : List Call)
    (hg : BytesEvictFirst (init c b).capacity (init c b).maxBytes (pushes calls)) :
    Inv (run (init c b) calls) (pushes calls) := by
  induction calls using List.reverseRecOn with
  | nil => exact init_inv c b
  | append_singleton calls call ih =>
    rw [run_append, pushes_append] at *
    cases call with
    | next start => simpa [step] using ih (by simpa using hg)
    | push p =>
      rw [pushes_push] at hg ⊢
      have hi := ih hg.dropLast
      refine hi.after_push p ?_ (hi.not_full p ?_)
      · simpa using init_maxBytes_pos c b
      · simpa using hg

/-- The ring serves every retained unit, the newest included, after every push of a
run exactly when no `capacity` consecutive payloads that another push follows fit
`max_bytes` together. -/
theorem fanout_retention_iff (c b : ℕ) (calls : List Call)
    (hp : ∀ p ∈ pushes calls, 0 < p.payload.length ∧ p.payload.length ≤ (init c b).maxBytes) :
    (∀ before p after, calls = before ++ .push p :: after →
      Retains (run (init c b) (before ++ [.push p])) (pushes before ++ [p])) ↔
    BytesEvictFirst (init c b).capacity (init c b).maxBytes (pushes calls) := by
  constructor
  · intro hall
    by_contra hbad
    unfold BytesEvictFirst at hbad
    push Not at hbad
    -- the first push that finds the ring full breaks it, so take the least window
    obtain ⟨i, ⟨hi, hsum⟩, hmin⟩ := Nat.findX hbad
    obtain ⟨before, p, after, hcalls, hbefore⟩ := split_at_push calls _ hi
    have hlen : (pushes before).length = i + (init c b).capacity := by
      rw [hbefore, List.length_take]
      omega
    have hwin : ∀ j, j ≤ i → ((pushes calls).drop j).take (init c b).capacity =
        ((pushes before).drop j).take (init c b).capacity := by
      intro j hj
      rw [hbefore, List.drop_take, List.take_take]
      congr 1
      omega
    have hinv : Inv (run (init c b) before) (pushes before) := by
      apply run_inv
      intro j hj
      rw [← hwin j (by omega)]
      by_contra hle
      exact hmin j (by omega) ⟨by omega, by omega⟩
    have htail : (run (init c b) before).tail = i := by
      have hroom := hinv.ring.room
      rw [numbered_length, hlen, run_capacity] at hroom
      by_contra hne
      have hneed := hinv.needed i (by omega)
      rw [retained_numbered, run_maxBytes] at hneed
      have hfit : (pushes before).drop i =
          ((pushes calls).drop i).take (init c b).capacity := by
        rw [hwin i (Nat.le_refl _), List.take_of_length_le]
        simp
        omega
      rw [hfit] at hneed
      omega
    refine hinv.full_push p ?_ ?_ ?_
    · simpa using init_capacity_pos c b
    · rw [hinv.head_eq, hlen, htail, run_capacity]
    · have := hall before p after hcalls
      rwa [run_append] at this
  · intro hg before p after hcalls
    have hpre : BytesEvictFirst (init c b).capacity (init c b).maxBytes
        (pushes before ++ [p]) := by
      have hlist : pushes calls = (pushes before ++ [p]) ++ pushes after := by
        rw [hcalls, show before ++ .push p :: after = before ++ [.push p] ++ after by simp,
          pushes_append, pushes_append, pushes_push]
      intro i hi
      have := hg i (by rw [hlist, List.length_append]; omega)
      rwa [hlist, List.drop_append_of_le_length (by omega),
        List.take_append_of_le_length (by simp at hi ⊢; omega)] at this
    have hinv := run_inv c b (before ++ [.push p]) (by rwa [pushes_append, pushes_push])
    rw [pushes_append, pushes_push] at hinv
    apply hinv.retains
    intro q hq
    rw [run_maxBytes]
    apply (hp q _).2
    rw [hcalls, show before ++ .push p :: after = before ++ [.push p] ++ after by simp,
      pushes_append, pushes_append, pushes_push]
    exact List.mem_append_left _ hq

def oneByte : Push := ⟨9, 0, 0, [0], false, false⟩

/-- With one byte allowed, every push evicts its predecessor and the two slots are
never both in use. -/
theorem fanout_retention_bytes_first :
    BytesEvictFirst 2 1 [oneByte, oneByte, oneByte] ∧
    ∀ before p after,
      [Call.push oneByte, .push oneByte, .next 0, .push oneByte] = before ++ .push p :: after →
      Retains (run (init 2 1) (before ++ [.push p])) (pushes before ++ [p]) := by
  have hg : BytesEvictFirst 2 1 [oneByte, oneByte, oneByte] := by
    intro i hi
    obtain rfl : i = 0 := by simp at hi; omega
    decide
  exact ⟨hg, (fanout_retention_iff 2 1 _ (by decide)).mpr hg⟩

/-- Two slots and room for 100 bytes: the third one-byte push leaves sequence 2 in the
window [1, 3) and no unit to serve for it. -/
theorem fanout_full_ring_loses_newest :
    (∀ p ∈ pushes [.push oneByte, .push oneByte, .push oneByte],
      0 < p.payload.length ∧ p.payload.length ≤ (init 2 100).maxBytes) ∧
    (run (init 2 100) [.push oneByte, .push oneByte, .push oneByte]).tail = 1 ∧
    (run (init 2 100) [.push oneByte, .push oneByte, .push oneByte]).head = 3 ∧
    next (run (init 2 100) [.push oneByte, .push oneByte, .push oneByte]) 2 = none ∧
    ¬ ∀ before p after,
      [Call.push oneByte, .push oneByte, .push oneByte] = before ++ .push p :: after →
      Retains (run (init 2 100) (before ++ [.push p])) (pushes before ++ [p]) := by
  refine ⟨by decide, by decide, by decide, by decide, ?_⟩
  intro h
  have hr := h [.push oneByte, .push oneByte] oneByte [] rfl
  have hget := hr.served 2 (by decide) (by decide)
  revert hget
  decide

end RtmpFanout
