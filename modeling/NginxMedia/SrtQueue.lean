import NginxMedia.StepRun
import Mathlib.Data.List.Chain

/-! The bounded queue of one SRT destination, `ngx_media_srt_output_queue.c`, and its consumer.
The retained units, from tail to head, are a list. Their slots are distinct while there are no
more than `capacity`, so a slot that a push takes is free. A unit names its burst by the place
among all bursts offered. -/
namespace SrtQueue

def maxUnits : ℕ := 256

structure QueueUnit where
  burst : ℕ
  len : ℕ
  sequence : ℕ
  enqueueMsec : ℕ
  keyframe : Bool
  deriving DecidableEq, Repr

structure Queue where
  units : List QueueUnit
  capacity : ℕ
  maxBytes : ℕ
  tail : ℕ
  bytes : ℕ
  dropped : ℕ
  pushed : ℕ
  resync : Bool
  deriving DecidableEq, Repr

def Queue.head (q : Queue) : ℕ := q.tail + q.units.length

def init (capacity maxBytes : ℕ) : Queue :=
  { units := []
    capacity := if 0 < capacity ∧ capacity ≤ maxUnits then capacity else maxUnits
    maxBytes, tail := 0, bytes := 0, dropped := 0, pushed := 0, resync := false }

def release (q : Queue) : Queue :=
  match q.units with
  | [] => q
  | u :: rest => { q with units := rest, bytes := q.bytes - u.len, tail := q.tail + 1 }

def evict (q : Queue) : Queue :=
  match q.units with
  | [] => q
  | _ :: _ => { release q with dropped := q.dropped + 1, resync := true }

/-- The condition of the eviction loop. -/
def crowded (q : Queue) (len : ℕ) : Bool :=
  q.units ≠ [] ∧ (q.units.length ≥ q.capacity ∨ q.maxBytes ≠ 0 ∧ q.bytes + len > q.maxBytes)

theorem evict_units (q : Queue) : (evict q).units = q.units.tail := by
  unfold evict
  split
  · next h => simp [h]
  · next h => simp [release, h]

def makeRoom (q : Queue) (len : ℕ) : Queue :=
  if _h : crowded q len = true then makeRoom (evict q) len else q
termination_by q.units.length
decreasing_by
  simp only [crowded, decide_eq_true_eq] at _h
  rw [evict_units, List.length_tail]
  have := List.length_pos_iff.mpr _h.1
  omega

def oversized (q : Queue) (len : ℕ) : Bool := q.maxBytes ≠ 0 ∧ len > q.maxBytes

def append (q : Queue) (u : QueueUnit) : Queue :=
  { q with units := q.units ++ [u], bytes := q.bytes + u.len, pushed := q.pushed + 1 }

def push (q : Queue) (burst len : ℕ) (keyframe : Bool) (enqueueMsec : ℕ) : Queue :=
  if len = 0 then q
  else if oversized q len then { q with dropped := q.dropped + 1, resync := true }
  else
    let q := makeRoom q len
    append q ⟨burst, len, q.head, enqueueMsec, keyframe⟩

def next (q : Queue) (cursor : ℕ) : Option QueueUnit :=
  let ahead := q.units.drop (max cursor q.tail - q.tail)
  if q.resync then ahead.find? QueueUnit.keyframe else ahead.head?

def retire (q : Queue) (upTo : ℕ) : Queue :=
  if _h : q.units ≠ [] ∧ q.tail < upTo then retire (release q) upTo else q
termination_by q.units.length
decreasing_by
  obtain ⟨u, rest, hu⟩ := List.exists_cons_of_ne_nil _h.1
  simp [release, hu]

def advance (q : Queue) (sequence : ℕ) : Queue :=
  let q := if q.resync ∧ sequence ≥ q.tail then
    { q with dropped := q.dropped + (sequence - q.tail), resync := false } else q
  retire q (sequence + 1)

def resync (q : Queue) : Queue := { q with resync := true }

structure World where
  queue : Queue
  cursor : ℕ
  inflight : Option QueueUnit
  offered : ℕ
  headLost : Bool
  lost : List ℕ
  delivered : List QueueUnit
  deriving DecidableEq, Repr

/-- `abandon` gives the unit up after a failed send, `rewind` is the cursor of a new session. -/
inductive Call where
  | push (len : ℕ) (keyframe : Bool) (now : ℕ)
  | next
  | advance
  | resync
  | abandon
  | rewind
  deriving DecidableEq, Repr

def gone (before after : Queue) : List QueueUnit := before.units.take (after.tail - before.tail)

def offer (w : World) (len : ℕ) (keyframe : Bool) (now : ℕ) : World :=
  let pushed := push w.queue w.offered len keyframe now
  if len = 0 then { w with queue := pushed }
  else if oversized w.queue len then
    { w with queue := pushed, offered := w.offered + 1, headLost := true
             lost := w.lost ++ [w.offered] }
  else
    { w with queue := pushed, offered := w.offered + 1, headLost := false
             lost := w.lost ++ (gone w.queue pushed).map QueueUnit.burst }

def deliver (w : World) (u : QueueUnit) : World :=
  let queue := advance w.queue u.sequence
  { w with queue, cursor := u.sequence + 1, inflight := none, delivered := w.delivered ++ [u]
           lost := w.lost ++ ((gone w.queue queue).filter fun v => v ≠ u).map QueueUnit.burst }

def step (w : World) : Call → World
  | .push len keyframe now => offer w len keyframe now
  | .next => if w.inflight = none then { w with inflight := next w.queue w.cursor } else w
  | .advance =>
    match w.inflight with
    | none => w
    | some u => deliver w u
  | .resync => { w with queue := resync w.queue }
  | .abandon => { w with inflight := none }
  | .rewind => { w with cursor := 0 }

def initial (capacity maxBytes : ℕ) : World := ⟨init capacity maxBytes, 0, none, 0, false, [], []⟩

def run (capacity maxBytes : ℕ) (calls : List Call) : World :=
  calls.foldl step (initial capacity maxBytes)

structure Resumes (w : World) : Prop where
  successor : ∀ before u after, w.delivered = before ++ u :: after → u.keyframe = false →
    ∃ v ∈ before, v.burst + 1 = u.burst
  loss : ∀ x ∈ w.lost, ∀ u ∈ w.delivered, x < u.burst →
    (∀ v ∈ w.delivered, v.burst ≤ x ∨ u.burst ≤ v.burst) → u.keyframe = true

theorem release_cons {q : Queue} {u : QueueUnit} {rest : List QueueUnit} (h : q.units = u :: rest) :
    release q = { q with units := rest, bytes := q.bytes - u.len, tail := q.tail + 1 } := by
  simp [release, h]

structure Shed (before after : Queue) (out : List QueueUnit) : Prop where
  units : before.units = out ++ after.units
  tail : after.tail = before.tail + out.length
  bytes : after.bytes = before.bytes - (out.map QueueUnit.len).sum
  capacity : after.capacity = before.capacity
  maxBytes : after.maxBytes = before.maxBytes
  pushed : after.pushed = before.pushed

theorem Shed.refl (q : Queue) : Shed q q [] := ⟨rfl, rfl, rfl, rfl, rfl, rfl⟩

theorem Shed.gone {before after : Queue} {out : List QueueUnit} (h : Shed before after out) :
    gone before after = out := by
  simp [SrtQueue.gone, h.units, h.tail]

theorem Shed.cons {q mid after : Queue} {u : QueueUnit} {rest out : List QueueUnit}
    (hu : q.units = u :: rest) (hunits : mid.units = rest) (htail : mid.tail = q.tail + 1)
    (hbytes : mid.bytes = q.bytes - u.len) (hcap : mid.capacity = q.capacity)
    (hmax : mid.maxBytes = q.maxBytes) (hpushed : mid.pushed = q.pushed)
    (h : Shed mid after out) : Shed q after (u :: out) := by
  constructor
  · rw [hu, ← hunits, h.units, List.cons_append]
  · rw [h.tail, htail, List.length_cons]
    omega
  · rw [h.bytes, hbytes, List.map_cons, List.sum_cons]
    omega
  · rw [h.capacity, hcap]
  · rw [h.maxBytes, hmax]
  · rw [h.pushed, hpushed]

theorem makeRoom_spec (q : Queue) (len : ℕ) :
    ∃ out, Shed q (makeRoom q len) out ∧
      (makeRoom q len).dropped = q.dropped + out.length ∧
      (makeRoom q len).resync = (q.resync || !out.isEmpty) := by
  fun_induction makeRoom q len with
  | case1 q h ih =>
    simp only [crowded, decide_eq_true_eq] at h
    obtain ⟨u, rest, hu⟩ := List.exists_cons_of_ne_nil h.1
    obtain ⟨out, hshed, hdropped, hresync⟩ := ih
    have he : evict q = { release q with dropped := q.dropped + 1, resync := true } := by
      simp [evict, hu]
    refine ⟨u :: out, ?_, ?_, ?_⟩
    · apply Shed.cons hu _ _ _ _ _ _ hshed <;> rw [he, release_cons hu]
    · rw [hdropped, he, List.length_cons]
      simp only
      omega
    · rw [hresync, he]
      simp
  | case2 q h => exact ⟨[], Shed.refl q, rfl, by simp⟩

theorem retire_spec (q : Queue) (upTo : ℕ) :
    ∃ out, Shed q (retire q upTo) out ∧ (retire q upTo).dropped = q.dropped ∧
      (retire q upTo).resync = q.resync ∧ out = q.units.take (upTo - q.tail) := by
  fun_induction retire q upTo with
  | case1 q h ih =>
    obtain ⟨u, rest, hu⟩ := List.exists_cons_of_ne_nil h.1
    obtain ⟨out, hshed, hdropped, hresync, hout⟩ := ih
    have hr := release_cons hu
    refine ⟨u :: out, ?_, ?_, ?_, ?_⟩
    · apply Shed.cons hu _ _ _ _ _ _ hshed <;> rw [hr]
    · rw [hdropped, hr]
    · rw [hresync, hr]
    · rw [hout, hr, hu]
      simp only
      rw [show upTo - q.tail = upTo - (q.tail + 1) + 1 by omega, List.take_succ_cons]
  | case2 q h =>
    refine ⟨[], Shed.refl q, rfl, rfl, ?_⟩
    by_cases hempty : q.units = []
    · simp [hempty]
    · have hle : upTo - q.tail = 0 := by
        simp only [ne_eq, hempty, not_false_eq_true, true_and] at h
        omega
      simp [hle]

def Follows (a b : QueueUnit) : Prop := b.keyframe = true ∨ b.burst = a.burst + 1

inductive Flying (w : World) (u : QueueUnit) : Prop where
  | waits (skipped rest : List QueueUnit) (units : w.queue.units = skipped ++ u :: rest)
      (place : u.sequence = w.queue.tail + skipped.length) (chain : (u :: rest).IsChain Follows)
  | evicted (place : u.sequence < w.queue.tail) (flag : w.queue.resync = true)
      (named : u.burst < w.offered) (above : ∀ a ∈ w.delivered, a.burst < u.burst)
      (below : ∀ b ∈ w.queue.units, u.burst < b.burst)

def Joined (w : World) (u : QueueUnit) : Prop :=
  ∃ a ∈ w.delivered.getLast?, a.burst ∉ w.lost ∧ a.burst + 1 = u.burst

structure Linked (w : World) : Prop where
  numbered : ∀ skipped u rest, w.queue.units = skipped ++ u :: rest →
    u.sequence = w.queue.tail + skipped.length
  cursor_le : w.cursor ≤ w.queue.tail
  ordered : (w.delivered ++ w.queue.units).Pairwise fun a b => a.burst < b.burst
  named : ∀ u ∈ w.delivered ++ w.queue.units, u.burst < w.offered
  kept : ∀ u ∈ w.queue.units, u.burst ∉ w.lost
  lost_lt : ∀ x ∈ w.lost, x < w.offered
  sound : ∀ before u after, w.delivered = before ++ u :: after → u.keyframe = false →
    ∃ a ∈ before, a.burst ∉ w.lost ∧ a.burst + 1 = u.burst
  group : ∀ skipped k rest, w.queue.units = skipped ++ k :: rest → k.keyframe = true →
    (k :: rest).IsChain Follows
  clear : w.queue.resync = false → w.queue.units.IsChain Follows ∧
    (w.delivered ≠ [] → ∀ u ∈ w.queue.units.head?, u.keyframe = false → Joined w u)
  flight : ∀ u, w.inflight = some u → Flying w u ∧ (u.keyframe = false → Joined w u)
  newest : w.headLost = false → (∀ a ∈ w.queue.units.getLast?, a.burst + 1 = w.offered) ∧
    (w.queue.resync = false → w.queue.units = [] →
      ∀ a ∈ w.delivered.getLast?, a.burst ∉ w.lost ∧ a.burst + 1 = w.offered)

theorem linked_initial (capacity maxBytes : ℕ) : Linked (initial capacity maxBytes) := by
  constructor <;> simp [initial, init]

theorem Linked.resumes {w : World} (h : Linked w) : Resumes w := by
  constructor
  · intro before u after hd hdelta
    obtain ⟨a, ha, -, hau⟩ := h.sound before u after hd hdelta
    exact ⟨a, ha, hau⟩
  · intro x hx u hu hlt hnext
    by_contra hdelta
    obtain ⟨before, after, hd⟩ := List.append_of_mem hu
    obtain ⟨a, ha, hkept, hau⟩ := h.sound before u after hd (by simpa using hdelta)
    have hne : a.burst ≠ x := by
      rintro rfl
      exact hkept hx
    have := hnext a (by simp [hd, ha])
    omega

theorem Linked.still_kept {w : World} (h : Linked w) (new : List ℕ)
    (hnew : ∀ x ∈ new, x = w.offered ∨ ∃ u ∈ w.queue.units, u.burst = x) :
    ∀ a ∈ w.delivered, a.burst ∉ w.lost → a.burst ∉ w.lost ++ new := by
  intro a ha hkept hmem
  rcases List.mem_append.mp hmem with hmem | hmem
  · exact hkept hmem
  · rcases hnew _ hmem with hx | ⟨u, hu, hx⟩
    · have := h.named a (List.mem_append_left _ ha)
      omega
    · have := (List.pairwise_append.mp h.ordered).2.2 a ha u hu
      omega

theorem Linked.still_sound {w : World} (h : Linked w) {lost : List ℕ}
    (hfresh : ∀ a ∈ w.delivered, a.burst ∉ w.lost → a.burst ∉ lost) :
    ∀ before u after, w.delivered = before ++ u :: after → u.keyframe = false →
      ∃ a ∈ before, a.burst ∉ lost ∧ a.burst + 1 = u.burst := by
  intro before u after hd hdelta
  obtain ⟨a, ha, hkept, hau⟩ := h.sound before u after hd hdelta
  exact ⟨a, ha, hfresh a (by simp [hd, ha]) hkept, hau⟩

theorem Joined.of_lost {w w' : World} {u : QueueUnit} (h : Joined w u)
    (hdelivered : w'.delivered = w.delivered)
    (hlost : ∀ a ∈ w.delivered, a.burst ∉ w.lost → a.burst ∉ w'.lost) : Joined w' u := by
  obtain ⟨a, ha, hkept, hau⟩ := h
  refine ⟨a, by rwa [hdelivered], hlost a ?_ hkept, hau⟩
  exact List.mem_of_getLast? ha

theorem Linked.evict {w : World} (h : Linked w) {q : Queue} {out : List QueueUnit}
    (hshed : Shed w.queue q out) (hresync : q.resync = (w.queue.resync || !out.isEmpty)) :
    Linked { w with queue := q, lost := w.lost ++ out.map QueueUnit.burst } := by
  have hunits := hshed.units
  have htail := hshed.tail
  have hordered : (w.delivered ++ (out ++ q.units)).Pairwise fun a b => a.burst < b.burst := by
    rw [← hunits]
    exact h.ordered
  obtain ⟨hold, hqueue, hacross⟩ := List.pairwise_append.mp hordered
  obtain ⟨-, hrest, hfront⟩ := List.pairwise_append.mp hqueue
  have hfresh := h.still_kept (out.map QueueUnit.burst) (by
    intro x hx
    obtain ⟨u, hu, hux⟩ := List.mem_map.mp hx
    exact Or.inr ⟨u, by simp [hunits, hu], hux⟩)
  have hflag : q.resync = false → w.queue.resync = false ∧ out = [] := by
    intro hq
    rw [hresync] at hq
    simpa using hq
  constructor
  · intro skipped u rest hsplit
    have := h.numbered (out ++ skipped) u rest (by rw [hunits, hsplit, List.append_assoc])
    simp only [List.length_append] at this
    simp only at hsplit ⊢
    omega
  · have := h.cursor_le
    simp only
    omega
  · rw [List.pairwise_append]
    exact ⟨hold, hrest, fun a ha b hb => hacross a ha b (List.mem_append_right _ hb)⟩
  · intro u hu
    apply h.named u
    rw [hunits]
    rcases List.mem_append.mp hu with hu | hu
    · exact List.mem_append_left _ hu
    · exact List.mem_append_right _ (List.mem_append_right _ hu)
  · intro u hu hmem
    rcases List.mem_append.mp hmem with hmem | hmem
    · exact h.kept u (by rw [hunits]; exact List.mem_append_right _ hu) hmem
    · obtain ⟨v, hv, hvx⟩ := List.mem_map.mp hmem
      have := hfront v hv u hu
      omega
  · intro x hx
    rcases List.mem_append.mp hx with hx | hx
    · exact h.lost_lt x hx
    · obtain ⟨u, hu, rfl⟩ := List.mem_map.mp hx
      exact h.named u (by simp [hunits, hu])
  · exact h.still_sound hfresh
  · intro skipped k rest hsplit
    exact h.group (out ++ skipped) k rest (by rw [hunits, hsplit, List.append_assoc])
  · intro hq
    obtain ⟨hclear, rfl⟩ := hflag hq
    rw [List.nil_append] at hunits
    obtain ⟨hchain, hhead⟩ := h.clear hclear
    rw [hunits] at hchain hhead
    exact ⟨hchain, fun hne u hu hdelta => (hhead hne u hu hdelta).of_lost rfl hfresh⟩
  · intro u hu
    obtain ⟨hfly, hjoin⟩ := h.flight u hu
    refine ⟨?_, fun hdelta => (hjoin hdelta).of_lost rfl hfresh⟩
    cases hfly with
    | waits skipped rest hsplit hplace hchain =>
      rw [hunits] at hsplit
      rcases List.append_eq_append_iff.mp hsplit with
        ⟨before, hskipped, hright⟩ | ⟨mid, hout, hright⟩
      · apply Flying.waits before rest hright _ hchain
        rw [hplace, hskipped, htail, List.length_append]
        omega
      · cases mid with
        | nil =>
          rw [List.nil_append] at hright
          rw [List.append_nil] at hout
          apply Flying.waits [] rest hright.symm _ hchain
          rw [hplace, htail, hout]
          rfl
        | cons v mid =>
          obtain ⟨rfl, hrest'⟩ := List.cons.inj hright
          have hmem : u ∈ out := by simp [hout]
          apply Flying.evicted
          · simp only
            rw [hplace, htail, hout, List.length_append, List.length_cons]
            omega
          · simp only
            rw [hresync, hout]
            simp
          · exact h.named u (by simp [hunits, hmem])
          · intro a ha
            exact hacross a ha u (List.mem_append_left _ hmem)
          · intro b hb
            exact hfront u hmem b hb
    | evicted hplace hresync' hnamed habove hbelow =>
      apply Flying.evicted
      · simp only
        omega
      · simp only
        rw [hresync, hresync', Bool.true_or]
      · exact hnamed
      · exact habove
      · intro b hb
        exact hbelow b (by simp only at hb; simp [hunits, hb])
  · intro hlast
    obtain ⟨hnewest, hidle⟩ := h.newest hlast
    constructor
    · intro a ha
      apply hnewest a
      have hne : q.units ≠ [] := by
        rintro hnil
        simp [hnil] at ha
      rw [hunits, List.getLast?_append_of_ne_nil _ hne]
      exact ha
    · intro hq hempty a ha
      obtain ⟨hclear, rfl⟩ := hflag hq
      obtain ⟨hkept, hau⟩ := hidle hclear (by rw [hunits]; exact hempty) a ha
      exact ⟨hfresh a (List.mem_of_getLast? ha) hkept, hau⟩

theorem Linked.refuse {w : World} (h : Linked w) (dropped : ℕ) :
    Linked { w with queue := { w.queue with dropped, resync := true }
                    offered := w.offered + 1, headLost := true, lost := w.lost ++ [w.offered] } := by
  have hfresh := h.still_kept ([w.offered]) (by
    intro x hx
    exact Or.inl (List.mem_singleton.mp hx))
  constructor
  · exact h.numbered
  · exact h.cursor_le
  · exact h.ordered
  · intro u hu
    have := h.named u hu
    simp only
    omega
  · intro u hu hmem
    rcases List.mem_append.mp hmem with hmem | hmem
    · exact h.kept u hu hmem
    · have := h.named u (List.mem_append_right _ hu)
      rw [List.mem_singleton.mp hmem] at this
      omega
  · intro x hx
    rcases List.mem_append.mp hx with hx | hx
    · have := h.lost_lt x hx
      simp only
      omega
    · rw [List.mem_singleton.mp hx]
      exact Nat.lt_succ_self _
  · exact h.still_sound hfresh
  · exact h.group
  · intro hclear
    cases hclear
  · intro u hu
    obtain ⟨hfly, hjoin⟩ := h.flight u hu
    refine ⟨?_, fun hdelta => (hjoin hdelta).of_lost rfl hfresh⟩
    cases hfly with
    | waits skipped rest hsplit hplace hchain => exact Flying.waits skipped rest hsplit hplace hchain
    | evicted hplace _ hnamed habove hbelow =>
      exact Flying.evicted hplace rfl (Nat.lt_succ_of_lt hnamed) habove hbelow
  · intro hlast
    cases hlast

def Barred (w : World) : Prop :=
  w.queue.resync = true ∧ w.queue.units.all (fun u => !u.keyframe) = true ∧
    w.inflight.all (fun u => u.sequence < w.queue.tail) = true

instance (w : World) : Decidable (Barred w) :=
  inferInstanceAs (Decidable (w.queue.resync = true ∧
    w.queue.units.all (fun u => !u.keyframe) = true ∧
      w.inflight.all (fun u => u.sequence < w.queue.tail) = true))

theorem getLast_of_split {skipped rest : List QueueUnit} {k a : QueueUnit}
    {units : List QueueUnit} (hsplit : units = skipped ++ k :: rest)
    (ha : a ∈ (k :: rest).getLast?) : a ∈ units.getLast? := by
  rw [hsplit, List.getLast?_append_of_ne_nil _ (List.cons_ne_nil _ _)]
  exact ha

theorem chain_concat {units : List QueueUnit} {v : QueueUnit} (h : units.IsChain Follows)
    (hv : ∀ a ∈ units.getLast?, Follows a v) : (units ++ [v]).IsChain Follows := by
  rw [List.isChain_append]
  refine ⟨h, List.isChain_singleton v, ?_⟩
  intro a ha b hb
  have hb : v = b := by simpa using hb
  rw [← hb]
  exact hv a ha

theorem Linked.store {w : World} (h : Linked w) (v : QueueUnit) (bytes pushed : ℕ)
    (hsequence : v.sequence = w.queue.head) (hburst : v.burst = w.offered)
    (hbarred : v.keyframe = false → w.headLost = true → Barred w) :
    Linked { w with queue := { w.queue with units := w.queue.units ++ [v], bytes, pushed }
                    offered := w.offered + 1, headLost := false } := by
  have hlink : w.headLost = false ∨ v.keyframe = true → ∀ a ∈ w.queue.units.getLast?,
      Follows a v := by
    intro hcase a ha
    rcases hcase with hlast | hkey
    · right
      rw [hburst, (h.newest hlast).1 a ha]
    · exact Or.inl hkey
  have hcases : (w.headLost = false ∨ v.keyframe = true) ∨ (v.keyframe = false ∧ Barred w) := by
    cases hkey : v.keyframe with
    | true => exact Or.inl (Or.inr rfl)
    | false =>
      cases hlast : w.headLost with
      | true => exact Or.inr ⟨rfl, hbarred hkey hlast⟩
      | false => exact Or.inl (Or.inl rfl)
  constructor
  · intro skipped u rest hsplit
    simp only at hsplit ⊢
    rcases List.eq_nil_or_concat' rest with rfl | ⟨rest, last, rfl⟩
    · obtain ⟨hleft, hright⟩ := List.append_inj' hsplit rfl
      rw [← List.singleton_inj.mp hright, hsequence, Queue.head, hleft]
    · have he : w.queue.units ++ [v] = (skipped ++ u :: rest) ++ [last] := by
        rw [hsplit]
        simp
      exact h.numbered skipped u rest (List.append_inj' he rfl).1
  · exact h.cursor_le
  · simp only
    rw [← List.append_assoc, List.pairwise_append]
    refine ⟨h.ordered, List.pairwise_singleton _ _, ?_⟩
    intro a ha b hb
    rw [List.mem_singleton.mp hb, hburst]
    exact h.named a ha
  · intro u hu
    simp only at hu ⊢
    rw [← List.append_assoc] at hu
    rcases List.mem_append.mp hu with hu | hu
    · exact Nat.lt_succ_of_lt (h.named u hu)
    · rw [List.mem_singleton.mp hu, hburst]
      exact Nat.lt_succ_self _
  · intro u hu hmem
    rcases List.mem_append.mp hu with hu | hu
    · exact h.kept u hu hmem
    · rw [List.mem_singleton.mp hu, hburst] at hmem
      exact absurd (h.lost_lt _ hmem) (Nat.lt_irrefl _)
  · intro x hx
    exact Nat.lt_succ_of_lt (h.lost_lt x hx)
  · exact h.sound
  · intro skipped k rest hsplit hkey
    simp only at hsplit
    rcases List.eq_nil_or_concat' rest with rfl | ⟨rest, last, rfl⟩
    · exact List.isChain_singleton k
    · have he : w.queue.units ++ [v] = (skipped ++ k :: rest) ++ [last] := by
        rw [hsplit]
        simp
      obtain ⟨hleft, hright⟩ := List.append_inj' he rfl
      rw [← List.singleton_inj.mp hright]
      rcases hcases with hcase | ⟨-, -, hnone, -⟩
      · apply chain_concat (h.group skipped k rest hleft hkey)
        intro a ha
        exact hlink hcase a (getLast_of_split hleft ha)
      · have := List.all_eq_true.mp hnone k (by simp [hleft])
        simp [hkey] at this
  · intro hclear
    simp only at hclear ⊢
    obtain ⟨hchain, hhead⟩ := h.clear hclear
    have hcase : w.headLost = false ∨ v.keyframe = true := by
      rcases hcases with hcase | ⟨-, hflag, -⟩
      · exact hcase
      · rw [hclear] at hflag
        cases hflag
    refine ⟨chain_concat hchain (hlink hcase), ?_⟩
    intro hne u hu hdelta
    cases hunits : w.queue.units with
    | cons first rest =>
      rw [hunits] at hu hhead
      exact hhead hne u hu hdelta
    | nil =>
      have huv : v = u := by simpa [hunits] using hu
      subst huv
      have hlast : w.headLost = false := by simpa [hdelta] using hcase
      have ha := List.getLast?_eq_some_getLast hne
      obtain ⟨hkept, hau⟩ := (h.newest hlast).2 hclear hunits _ ha
      exact ⟨_, ha, hkept, by rw [hburst, hau]⟩
  · intro u hu
    obtain ⟨hfly, hjoin⟩ := h.flight u hu
    refine ⟨?_, hjoin⟩
    cases hfly with
    | waits skipped rest hsplit hplace hchain =>
      apply Flying.waits skipped (rest ++ [v])
      · simp [hsplit]
      · exact hplace
      · rw [← List.cons_append]
        apply chain_concat hchain
        rcases hcases with hcase | ⟨-, -, -, haway⟩
        · intro a ha
          exact hlink hcase a (getLast_of_split hsplit ha)
        · simp only at hu
          rw [hu] at haway
          simp only [Option.all_some, decide_eq_true_eq] at haway
          omega
    | evicted hplace hflag hnamed habove hbelow =>
      refine Flying.evicted hplace hflag (Nat.lt_succ_of_lt hnamed) habove ?_
      intro b hb
      rcases List.mem_append.mp hb with hb | hb
      · exact hbelow b hb
      · rw [List.mem_singleton.mp hb, hburst]
        exact hnamed
  · intro _
    simp only
    constructor
    · intro a ha
      have hav : v = a := by simpa using ha
      rw [← hav, hburst]
    · intro _ hempty
      simp at hempty

theorem Linked.flag {w : World} (h : Linked w) :
    Linked { w with queue := resync w.queue } := by
  constructor
  · exact h.numbered
  · exact h.cursor_le
  · exact h.ordered
  · exact h.named
  · exact h.kept
  · exact h.lost_lt
  · exact h.sound
  · exact h.group
  · intro hclear
    cases hclear
  · intro u hu
    obtain ⟨hfly, hjoin⟩ := h.flight u hu
    refine ⟨?_, hjoin⟩
    cases hfly with
    | waits skipped rest hsplit hplace hchain => exact Flying.waits skipped rest hsplit hplace hchain
    | evicted hplace _ hnamed habove hbelow =>
      exact Flying.evicted hplace rfl hnamed habove hbelow
  · intro hlast
    refine ⟨(h.newest hlast).1, ?_⟩
    intro hclear
    cases hclear

theorem Linked.land {w : World} (h : Linked w) (inflight : Option QueueUnit)
    (hflight : ∀ u, inflight = some u → Flying w u ∧ (u.keyframe = false → Joined w u))
    {cursor : ℕ} (hcursor : cursor ≤ w.queue.tail) :
    Linked { w with inflight, cursor } := by
  constructor
  · exact h.numbered
  · exact hcursor
  · exact h.ordered
  · exact h.named
  · exact h.kept
  · exact h.lost_lt
  · exact h.sound
  · exact h.group
  · exact h.clear
  · intro u hu
    obtain ⟨hfly, hjoin⟩ := hflight u hu
    refine ⟨?_, hjoin⟩
    cases hfly with
    | waits skipped rest hsplit hplace hchain => exact Flying.waits skipped rest hsplit hplace hchain
    | evicted hplace hflag hnamed habove hbelow =>
      exact Flying.evicted hplace hflag hnamed habove hbelow
  · exact h.newest

theorem Linked.next_flies {w : World} (h : Linked w) {u : QueueUnit}
    (hfirst : w.delivered = [] → w.queue.resync = false →
      w.queue.units.head?.all QueueUnit.keyframe = true)
    (hu : next w.queue w.cursor = some u) :
    Flying w u ∧ (u.keyframe = false → Joined w u) := by
  have hahead : max w.cursor w.queue.tail - w.queue.tail = 0 := by
    have := h.cursor_le
    omega
  simp only [next, hahead, List.drop_zero] at hu
  cases hflag : w.queue.resync with
  | true =>
    simp only [hflag, if_true] at hu
    obtain ⟨hkey, skipped, rest, hsplit, -⟩ := List.find?_eq_some_iff_append.mp hu
    refine ⟨?_, fun hdelta => by simp [hkey] at hdelta⟩
    exact Flying.waits skipped rest hsplit (h.numbered skipped u rest hsplit)
      (h.group skipped u rest hsplit hkey)
  | false =>
    simp only [hflag, Bool.false_eq_true, if_false] at hu
    obtain ⟨hchain, hhead⟩ := h.clear hflag
    obtain ⟨rest, hsplit⟩ := List.head?_eq_some_iff.mp hu
    constructor
    · apply Flying.waits [] rest hsplit (h.numbered [] u rest hsplit)
      rwa [hsplit] at hchain
    · intro hdelta
      apply hhead _ u hu hdelta
      intro hnone
      have hkey := hfirst hnone hflag
      rw [hu, Option.all_some, hdelta] at hkey
      cases hkey

theorem advance_spec (q : Queue) (sequence : ℕ) :
    Shed q (advance q sequence) (q.units.take (sequence + 1 - q.tail)) ∧
      (advance q sequence).resync = (q.resync && decide (sequence < q.tail)) ∧
      (advance q sequence).dropped =
        q.dropped + if q.resync then sequence - q.tail else 0 := by
  simp only [advance]
  split
  · next hskip =>
    obtain ⟨out, hshed, hdropped, hresync, hout⟩ := retire_spec
      { q with dropped := q.dropped + (sequence - q.tail), resync := false } (sequence + 1)
    subst hout
    refine ⟨⟨hshed.units, hshed.tail, hshed.bytes, hshed.capacity, hshed.maxBytes,
      hshed.pushed⟩, ?_, ?_⟩
    · rw [hresync]
      simp [Nat.not_lt.mpr hskip.2]
    · rw [hdropped, if_pos hskip.1]
  · next hkeep =>
    obtain ⟨out, hshed, hdropped, hresync, hout⟩ := retire_spec q (sequence + 1)
    subst hout
    refine ⟨hshed, ?_, ?_⟩
    · rw [hresync]
      cases hflag : q.resync with
      | false => rfl
      | true =>
        simp only [hflag, true_and, not_le] at hkeep
        simp [hkeep]
    · rw [hdropped]
      cases hflag : q.resync with
      | false => rfl
      | true =>
        simp only [hflag, true_and, not_le] at hkeep
        simp only [if_true]
        omega

theorem Linked.sound_concat {w : World} (h : Linked w) {u : QueueUnit}
    (hjoin : u.keyframe = false → Joined w u) {lost : List ℕ}
    (hfresh : ∀ a ∈ w.delivered, a.burst ∉ w.lost → a.burst ∉ lost) :
    ∀ before v after, w.delivered ++ [u] = before ++ v :: after → v.keyframe = false →
      ∃ a ∈ before, a.burst ∉ lost ∧ a.burst + 1 = v.burst := by
  intro before v after hd hdelta
  rcases List.eq_nil_or_concat' after with rfl | ⟨after, last, rfl⟩
  · obtain ⟨hleft, hright⟩ := List.append_inj' hd rfl
    rw [← List.singleton_inj.mp hright] at hdelta ⊢
    obtain ⟨a, ha, hkept, hau⟩ := hjoin hdelta
    have hmem := List.mem_of_getLast? ha
    exact ⟨a, hleft ▸ hmem, hfresh a hmem hkept, hau⟩
  · have he : w.delivered ++ [u] = (before ++ v :: after) ++ [last] := by
      rw [hd]
      simp
    exact h.still_sound hfresh before v after (List.append_inj' he rfl).1 hdelta

theorem advance_waiting {q : Queue} {skipped rest : List QueueUnit} {u : QueueUnit}
    (hsplit : q.units = skipped ++ u :: rest) (hplace : u.sequence = q.tail + skipped.length) :
    (advance q u.sequence).units = rest ∧
      (advance q u.sequence).tail = q.tail + skipped.length + 1 ∧
      gone q (advance q u.sequence) = skipped ++ [u] := by
  obtain ⟨hshed, -, -⟩ := advance_spec q u.sequence
  have hout : q.units.take (u.sequence + 1 - q.tail) = skipped ++ [u] := by
    rw [hplace, show q.tail + skipped.length + 1 - q.tail =
      (skipped ++ [u]).length by simp; omega, hsplit,
      show skipped ++ u :: rest = (skipped ++ [u]) ++ rest by simp, List.take_left]
  have hgone := hshed.gone
  rw [hout] at hshed hgone
  refine ⟨?_, ?_, hgone⟩
  · have hunits := hshed.units
    rw [hsplit, List.append_assoc, List.singleton_append] at hunits
    exact (List.cons.inj (List.append_cancel_left hunits)).2.symm
  · rw [hshed.tail, List.length_append, List.length_singleton]
    omega

theorem Linked.deliver_waiting {w : World} (h : Linked w) {u : QueueUnit}
    {skipped rest : List QueueUnit} (hsplit : w.queue.units = skipped ++ u :: rest)
    (hplace : u.sequence = w.queue.tail + skipped.length) (hchain : (u :: rest).IsChain Follows)
    (hjoin : u.keyframe = false → Joined w u) : Linked (deliver w u) := by
  obtain ⟨hunits, htail, hgone⟩ := advance_waiting hsplit hplace
  have hordered := h.ordered
  rw [hsplit] at hordered
  obtain ⟨hold, hqueue, hacross⟩ := List.pairwise_append.mp hordered
  obtain ⟨hskipped, hrest, hfront⟩ := List.pairwise_append.mp hqueue
  obtain ⟨hbehind, hrest⟩ := List.pairwise_cons.mp hrest
  have hfilter : (skipped ++ [u]).filter (fun v => v ≠ u) = skipped := by
    rw [List.filter_append, List.filter_eq_self.mpr]
    · simp
    · intro v hv
      have := hfront v hv u List.mem_cons_self
      simp only [ne_eq, decide_not, Bool.not_eq_eq_eq_not, Bool.not_true, decide_eq_false_iff_not]
      rintro rfl
      omega
  have hfresh := h.still_kept (skipped.map QueueUnit.burst) (by
    intro x hx
    obtain ⟨v, hv, hvx⟩ := List.mem_map.mp hx
    exact Or.inr ⟨v, by simp [hsplit, hv], hvx⟩)
  have hkept : ∀ v ∈ u :: rest, v.burst ∉ w.lost ++ skipped.map QueueUnit.burst := by
    intro v hv hmem
    rcases List.mem_append.mp hmem with hmem | hmem
    · exact h.kept v (by rw [hsplit]; exact List.mem_append_right _ hv) hmem
    · obtain ⟨x, hx, hxv⟩ := List.mem_map.mp hmem
      have := hfront x hx v hv
      omega
  simp only [SrtQueue.deliver, hgone, hfilter]
  constructor
  · intro before v after hafter
    simp only [hunits] at hafter
    have := h.numbered (skipped ++ u :: before) v after (by rw [hsplit, hafter]; simp)
    simp only [List.length_append, List.length_cons] at this
    simp only
    omega
  · simp only
    omega
  · simp only [hunits]
    rw [List.append_assoc, List.singleton_append, List.pairwise_append]
    refine ⟨hold, List.pairwise_cons.mpr ⟨hbehind, hrest⟩, ?_⟩
    intro a ha b hb
    exact hacross a ha b (List.mem_append_right _ hb)
  · intro v hv
    simp only [hunits, List.append_assoc, List.singleton_append] at hv
    apply h.named v
    rw [hsplit]
    rcases List.mem_append.mp hv with hv | hv
    · exact List.mem_append_left _ hv
    · exact List.mem_append_right _ (List.mem_append_right _ hv)
  · intro v hv
    rw [hunits] at hv
    exact hkept v (List.mem_cons_of_mem _ hv)
  · intro x hx
    rcases List.mem_append.mp hx with hx | hx
    · exact h.lost_lt x hx
    · obtain ⟨v, hv, rfl⟩ := List.mem_map.mp hx
      exact h.named v (by simp [hsplit, hv])
  · exact h.sound_concat hjoin hfresh
  · intro before k after hafter
    simp only [hunits] at hafter
    exact h.group (skipped ++ u :: before) k after (by rw [hsplit, hafter]; simp)
  · intro _
    simp only [hunits]
    obtain ⟨hfollows, hchain⟩ := List.isChain_cons.mp hchain
    refine ⟨hchain, ?_⟩
    intro _ v hv hdelta
    refine ⟨u, by simp, hkept u List.mem_cons_self, ?_⟩
    rcases hfollows v hv with hkey | hnext
    · rw [hdelta] at hkey
      cases hkey
    · exact hnext.symm
  · intro v hv
    cases hv
  · intro hlast
    simp only [hunits]
    have hnewest := (h.newest hlast).1
    constructor
    · intro a ha
      have hne : rest ≠ [] := by
        rintro rfl
        simp at ha
      apply hnewest a
      apply getLast_of_split hsplit
      rw [← List.singleton_append, List.getLast?_append_of_ne_nil _ hne]
      exact ha
    · intro _ hempty a ha
      have hau : u = a := by simpa using ha
      subst hau
      exact ⟨hkept u List.mem_cons_self, hnewest u (getLast_of_split hsplit (by simp [hempty]))⟩

theorem Linked.deliver_evicted {w : World} (h : Linked w) {u : QueueUnit}
    (hplace : u.sequence < w.queue.tail) (hflag : w.queue.resync = true)
    (hnamed : u.burst < w.offered) (habove : ∀ a ∈ w.delivered, a.burst < u.burst)
    (hbelow : ∀ b ∈ w.queue.units, u.burst < b.burst)
    (hjoin : u.keyframe = false → Joined w u) : Linked (deliver w u) := by
  obtain ⟨hshed, hresync, -⟩ := advance_spec w.queue u.sequence
  have hout : w.queue.units.take (u.sequence + 1 - w.queue.tail) = [] := by
    rw [show u.sequence + 1 - w.queue.tail = 0 by omega, List.take_zero]
  have hgone := hshed.gone
  rw [hout] at hshed hgone
  have hunits : (advance w.queue u.sequence).units = w.queue.units := hshed.units.symm
  have htail : (advance w.queue u.sequence).tail = w.queue.tail := hshed.tail
  have hstill : (advance w.queue u.sequence).resync = true := by
    rw [hresync, hflag]
    simp [hplace]
  obtain ⟨hold, hqueue, hacross⟩ := List.pairwise_append.mp h.ordered
  simp only [SrtQueue.deliver, hgone, List.filter_nil, List.map_nil, List.append_nil]
  constructor
  · simp only [hunits, htail]
    exact h.numbered
  · simp only
    omega
  · simp only [hunits]
    rw [List.append_assoc, List.singleton_append, List.pairwise_append]
    refine ⟨hold, List.pairwise_cons.mpr ⟨hbelow, hqueue⟩, ?_⟩
    intro a ha b hb
    rcases List.mem_cons.mp hb with rfl | hb
    · exact habove a ha
    · exact hacross a ha b hb
  · intro v hv
    simp only [hunits, List.append_assoc, List.singleton_append] at hv
    rcases List.mem_append.mp hv with hv | hv
    · exact h.named v (List.mem_append_left _ hv)
    · rcases List.mem_cons.mp hv with rfl | hv
      · exact hnamed
      · exact h.named v (List.mem_append_right _ hv)
  · simp only [hunits]
    exact h.kept
  · exact h.lost_lt
  · exact h.sound_concat hjoin fun _ _ hkept => hkept
  · simp only [hunits]
    exact h.group
  · intro hclear
    simp only [hstill] at hclear
    cases hclear
  · intro v hv
    cases hv
  · intro hlast
    simp only [hunits]
    refine ⟨(h.newest hlast).1, ?_⟩
    intro hclear
    rw [hstill] at hclear
    cases hclear

theorem Linked.deliver {w : World} (h : Linked w) {u : QueueUnit} (hflight : w.inflight = some u) :
    Linked (deliver w u) := by
  obtain ⟨hfly, hjoin⟩ := h.flight u hflight
  cases hfly with
  | waits skipped rest hsplit hplace hchain => exact h.deliver_waiting hsplit hplace hchain hjoin
  | evicted hplace hflag hnamed habove hbelow =>
    exact h.deliver_evicted hplace hflag hnamed habove hbelow hjoin

def Guarded (w : World) : Call → Prop
  | .push len keyframe _ => len ≠ 0 → oversized w.queue len = false → keyframe = false →
      w.headLost = true → Barred w
  | .next => w.delivered = [] → w.queue.resync = false →
      w.queue.units.head?.all QueueUnit.keyframe = true
  | _ => True

instance (w : World) (call : Call) : Decidable (Guarded w call) :=
  match call with
  | .push len keyframe _ => inferInstanceAs (Decidable (len ≠ 0 → oversized w.queue len = false →
      keyframe = false → w.headLost = true → Barred w))
  | .next => inferInstanceAs (Decidable (w.delivered = [] → w.queue.resync = false →
      w.queue.units.head?.all QueueUnit.keyframe = true))
  | .advance => inferInstanceAs (Decidable True)
  | .resync => inferInstanceAs (Decidable True)
  | .abandon => inferInstanceAs (Decidable True)
  | .rewind => inferInstanceAs (Decidable True)

theorem Barred.evict {w : World} (h : Barred w) {q : Queue} {out : List QueueUnit}
    (hshed : Shed w.queue q out) (hresync : q.resync = (w.queue.resync || !out.isEmpty))
    (lost : List ℕ) : Barred { w with queue := q, lost } := by
  obtain ⟨hflag, hnone, haway⟩ := h
  refine ⟨?_, ?_, ?_⟩
  · simp [hresync, hflag]
  · rw [hshed.units, List.all_append, Bool.and_eq_true] at hnone
    exact hnone.2
  · cases hflight : w.inflight with
    | none => rfl
    | some u =>
      have htail := hshed.tail
      simp only [hflight, Option.all_some, decide_eq_true_eq] at haway ⊢
      omega

theorem Linked.offer {w : World} (h : Linked w) {len now : ℕ} {keyframe : Bool}
    (hguard : Guarded w (.push len keyframe now)) : Linked (offer w len keyframe now) := by
  by_cases hempty : len = 0
  · have hsame : SrtQueue.offer w len keyframe now = w := by simp [SrtQueue.offer, push, hempty]
    rw [hsame]
    exact h
  · by_cases hover : oversized w.queue len = true
    · simp only [SrtQueue.offer, push, hempty, if_false, hover, if_true]
      exact h.refuse _
    · simp only [Bool.not_eq_true] at hover
      obtain ⟨out, hshed, -, hresync⟩ := makeRoom_spec w.queue len
      have hevicted := h.evict hshed hresync
      have hstored := hevicted.store
        ⟨w.offered, len, (makeRoom w.queue len).head, now, keyframe⟩
        ((makeRoom w.queue len).bytes + len) ((makeRoom w.queue len).pushed + 1) rfl rfl
        (fun hdelta hlast => (hguard hempty hover hdelta hlast).evict hshed hresync _)
      have hgone : gone w.queue (append (makeRoom w.queue len)
          ⟨w.offered, len, (makeRoom w.queue len).head, now, keyframe⟩) = out := hshed.gone
      simp only [SrtQueue.offer, push, hempty, if_false, hover, Bool.false_eq_true, hgone]
      exact hstored

theorem Linked.step {w : World} (h : Linked w) {call : Call} (hguard : Guarded w call) :
    Linked (step w call) := by
  cases call with
  | push len keyframe now => exact h.offer hguard
  | next =>
    simp only [SrtQueue.step]
    split
    · exact h.land _ (fun u hu => h.next_flies hguard hu) h.cursor_le
    · exact h
  | advance =>
    cases hflight : w.inflight with
    | none => simpa [SrtQueue.step, hflight] using h
    | some u => simpa [SrtQueue.step, hflight] using h.deliver hflight
  | resync => exact h.flag
  | abandon => exact h.land none (fun u hu => by cases hu) h.cursor_le
  | rewind => exact h.land w.inflight h.flight (Nat.zero_le _)

theorem linked_run {capacity maxBytes : ℕ} {calls : List Call}
    (hmeets : StepRun.Meets step Guarded (initial capacity maxBytes) calls) :
    Linked (run capacity maxBytes calls) :=
  StepRun.invariant_of_meets (fun _ _ h hguard => h.step hguard)
    (linked_initial capacity maxBytes) hmeets

/-- A keyframe queued before a refused burst clears the flag, and the delta unit after the loss
is delivered. -/
def clearedEarly : List Call :=
  [.push 100 true 0, .push 2000 false 1, .push 100 false 2, .next, .advance, .next, .advance]

theorem delta_after_loss : ¬ ∀ capacity maxBytes calls, Resumes (run capacity maxBytes calls) := by
  intro h
  have hd : (run 4 1000 clearedEarly).delivered =
      [⟨0, 100, 0, 0, true⟩] ++ ⟨2, 100, 1, 2, false⟩ :: [] := by
    decide +kernel
  obtain ⟨v, hv, hv'⟩ := (h 4 1000 clearedEarly).successor _ _ _ hd rfl
  rw [List.mem_singleton.mp hv] at hv'
  simp at hv'

theorem queue_resumes (capacity maxBytes : ℕ) (calls : List Call)
    (hmeets : StepRun.Meets step Guarded (initial capacity maxBytes) calls) :
    Resumes (run capacity maxBytes calls) :=
  (linked_run hmeets).resumes

theorem queue_resumes_after_refusal :
    Resumes (run 2 1000 [.resync, .push 100 true 0, .next, .advance, .push 2000 false 1,
      .push 100 false 2, .push 100 true 3, .push 100 false 4, .next, .advance, .next, .advance]) :=
  queue_resumes 2 1000 _ (by decide +kernel)

end SrtQueue
