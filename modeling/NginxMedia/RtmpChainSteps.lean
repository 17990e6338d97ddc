import NginxMedia.RtmpChain
import Mathlib.Data.List.Count

/-! The steps of the output queue of an RTMP connection: what queueing and flushing do to the
chain, to the ring of references and to the counters. -/
namespace RtmpChain

open MediaTypes RtmpWriter RtmpOutput SequenceRing

variable {q q' : Queue} {m : Message} {side : Side} {mem : ℕ → Bool} {budget n cap : ℕ}

theorem packetDestroy_packetRef (q : Queue) (m : Message) :
    (q.packetRef m).packetDestroy m = q := by
  unfold Queue.packetDestroy Queue.packetRef
  split_ifs
  · unfold Queue.unref Queue.ref
    simp only [Function.update_self, Nat.add_sub_cancel, Function.update_idem,
      Function.update_eq_self]
  · rfl

theorem pendingLoop_all {link : Part → Link} {parts : List Part} {pending : List Link} {i : ℕ}
    (h : pendingLoop mem link i parts = some pending) : pending = parts.map link := by
  induction parts generalizing i pending with
  | nil =>
    cases h
    rfl
  | cons part parts ih =>
    rw [pendingLoop] at h
    split_ifs at h
    obtain ⟨rest, hrest, rfl⟩ := Option.map_eq_some_iff.mp h
    rw [List.map_cons, ih hrest]

def Queue.shown (side : Side) (q : Queue) (m : Message) (w : Writer) (wire : ℕ) : Queue :=
  let out := side.range m.out
  let packet := packetOf q.writer out
  let pending := packet.parts.map
    (linkOf (packet.head.take packet.headLen) (out.payload.getD []) m.buf)
  let ringed := ringLoop side.limits.maxQueue m.buf packet.parts
    ((q.packetRef m).extend pending wire)
  ({ ringed with writer := w } : Queue).packetDestroy m

inductive Queued (side : Side) (mem : ℕ → Bool) (q : Queue) (m : Message) :
    Queue × Rc × ℕ → Prop where
  | refused (rc : Rc) (h : rc ≠ .ok) : Queued side mem q m (q, rc, 0)
  | queued (w : Writer) (parts refs wire : ℕ) (data : List (List UInt8))
      (hfoot : footprint q.writer (side.range m.out).len = some (parts, refs))
      (hqueue : q.outQueue + parts ≤ side.limits.maxQueue)
      (hrefs : q.inFlightCount + refs ≤ side.limits.maxQueue)
      (hwriter : writerMessage (mem 0) q.writer (side.range m.out) = some (w, data))
      (hwire : wireLoop side.limits.maxBytes 0 (packetOf q.writer (side.range m.out)).parts =
        some wire)
      (hbytes : q.outBytes ≤ side.limits.maxBytes - wire) :
      Queued side mem q m (q.shown side m w wire, .ok, wire)

theorem packetRef_eq (q : Queue) (m : Message) :
    q.packetRef m = { q with refs := (q.packetRef m).refs } := by
  unfold Queue.packetRef
  split_ifs <;> rfl

theorem packetDestroy_eq (q : Queue) (m : Message) :
    q.packetDestroy m = { q with refs := (q.packetDestroy m).refs } := by
  unfold Queue.packetDestroy
  split_ifs <;> rfl

theorem packetRef_outBytes (q : Queue) (m : Message) : (q.packetRef m).outBytes = q.outBytes := by
  rw [packetRef_eq]

theorem queueMessage_cases (side : Side) (mem : ℕ → Bool) (q : Queue) (m : Message) (budget : ℕ) :
    Queued side mem q m (queueMessage side mem q m budget) := by
  unfold queueMessage
  simp only [packetDestroy_packetRef, packetRef_outBytes]
  split
  · exact .refused _ (by decide)
  rename_i parts refs hfoot
  split
  · exact .refused _ (by decide)
  rename_i hroom
  split
  · exact .refused _ (by decide)
  rename_i w data hwriter
  split
  · exact .refused _ (by decide)
  rename_i wire hwire
  split
  · exact .refused _ (by decide)
  split
  · exact .refused _ (by decide)
  rename_i hbytes
  split
  · exact .refused _ (by decide)
  split
  · exact .refused _ (by decide)
  rename_i pending hpending
  rw [pendingLoop_all hpending]
  exact .queued w parts refs wire data hfoot (by omega) (by omega) hwriter hwire (by omega)

theorem queueMessage_refused (h : (queueMessage side mem q m budget).2.1 ≠ .ok) :
    (queueMessage side mem q m budget).1 = q := by
  have hcases := queueMessage_cases side mem q m budget
  generalize queueMessage side mem q m budget = result at hcases h ⊢
  cases hcases with
  | refused rc _ => rfl
  | queued w parts refs wire data hfoot hqueue hrefs hwriter hwire hbytes => exact absurd rfl h

inductive QueuedRaw (side : Side) (q : Queue) (data : List UInt8) : Queue × Rc → Prop where
  | refused (rc : Rc) (h : rc ≠ .ok) : QueuedRaw side q data (q, rc)
  | queued (hqueue : q.outQueue + 1 ≤ side.limits.maxQueue)
      (hlen : data.length ≤ side.limits.maxBytes)
      (hbytes : q.outBytes ≤ side.limits.maxBytes - data.length) :
      QueuedRaw side q data
        ({ q with
            out := q.out ++ [⟨none, data⟩]
            outQueue := q.outQueue + 1
            outBytes := q.outBytes + data.length }, .ok)

theorem queueRaw_cases (side : Side) (mem : ℕ → Bool) (q : Queue) (data : List UInt8) :
    QueuedRaw side q data (queueRaw side mem q data) := by
  unfold queueRaw chainBuf
  split
  · exact .refused _ (by decide)
  rename_i hroom
  split
  · exact .refused _ (by decide)
  by_cases hlink : mem 1 = false
  · rw [if_pos hlink]
    exact .refused _ (by decide)
  · rw [if_neg hlink]
    exact .queued (by omega) (by omega) (by omega)

theorem queueRaw_refused {data : List UInt8} (h : (queueRaw side mem q data).2 ≠ .ok) :
    (queueRaw side mem q data).1 = q := by
  have hcases := queueRaw_cases side mem q data
  generalize queueRaw side mem q data = result at hcases h ⊢
  cases hcases with
  | refused rc _ => rfl
  | queued hqueue hlen hbytes => exact absurd rfl h

/-- The ring behind the references that were put into it and those released: the ones between
are in flight, and with `extra` they are all that is held. -/
structure Ring (cap : ℕ) (extra : ℕ → ℕ) (q : Queue) (taken : List ℕ) (released : ℕ) : Prop where
  slots : Represents (fun _ => True) q.inFlight cap released taken
  head : q.inFlightHead = released % cap
  count : q.inFlightCount = taken.length - released
  refs : ∀ buf, q.refs buf = (taken.drop released).count buf + extra buf

variable {extra : ℕ → ℕ} {taken : List ℕ} {released buf : ℕ}

theorem Ring.put (h : Ring cap extra q taken released) (hroom : taken.length < released + cap) :
    Ring cap extra
      { q.ref buf with
        inFlight := Function.update q.inFlight ((q.inFlightHead + q.inFlightCount) % cap) buf
        inFlightCount := q.inFlightCount + 1 }
      (taken ++ [buf]) released := by
  have hle := h.slots.tail_le
  have hslot : (q.inFlightHead + q.inFlightCount) % cap = taken.length % cap := by
    rw [h.head, h.count, Nat.mod_add_mod]
    congr 1
    omega
  constructor
  · rw [hslot]
    exact h.slots.push hroom buf
  · exact h.head
  · change q.inFlightCount + 1 = _
    rw [h.count, List.length_append, List.length_singleton]
    omega
  · intro other
    change Function.update q.refs buf (q.refs buf + 1) other = _
    rw [List.drop_append_of_le_length hle, List.count_append]
    by_cases hother : other = buf
    · subst hother
      rw [Function.update_self, h.refs, List.count_singleton_self]
      omega
    · rw [Function.update_of_ne hother, h.refs, List.count_singleton,
        if_neg (by simpa using Ne.symm hother), Nat.add_zero]

theorem Ring.take (h : Ring cap extra q taken released) (hsome : released < taken.length) :
    q.inFlight q.inFlightHead = taken[released] ∧
      Ring cap extra
        { q.unref (q.inFlight q.inFlightHead) with
          inFlightHead := (q.inFlightHead + 1) % cap
          inFlightCount := q.inFlightCount - 1
          outQueue := n }
        taken (released + 1) := by
  have hslot : q.inFlight q.inFlightHead = taken[released] := by
    rw [h.head]
    exact h.slots.held released hsome le_rfl
  refine ⟨hslot, ?_, ?_, ?_, ?_⟩
  · have hevict := h.slots.evict hsome (v := q.inFlight (released % cap)) trivial
    rwa [Function.update_eq_self] at hevict
  · change (q.inFlightHead + 1) % cap = _
    rw [h.head, Nat.mod_add_mod]
  · change q.inFlightCount - 1 = _
    rw [h.count]
    omega
  · intro other
    change Function.update q.refs (q.inFlight q.inFlightHead)
      (q.refs (q.inFlight q.inFlightHead) - 1) other = _
    have hdrop := List.drop_eq_getElem_cons hsome
    have hcount := h.refs other
    rw [hdrop, List.count_cons] at hcount
    rw [hslot]
    by_cases hother : other = taken[released]
    · subst hother
      rw [Function.update_self, hcount, if_pos (beq_self_eq_true _)]
      omega
    · rw [Function.update_of_ne hother, hcount, if_neg (by simpa using Ne.symm hother)]
      omega

def slices (parts : List Part) : ℕ :=
  parts.countP fun part => match part with
    | .header _ _ => false
    | .slice _ _ => true

theorem ringLoop_ring {parts : List Part} (h : Ring cap extra q taken released)
    (hroom : taken.length + slices parts ≤ released + cap) :
    Ring cap extra (ringLoop cap buf parts q) (taken ++ List.replicate (slices parts) buf)
      released := by
  induction parts generalizing q taken with
  | nil =>
    rw [ringLoop, slices, List.countP_nil, List.replicate_zero, List.append_nil]
    exact h
  | cons part parts ih =>
    cases part with
    | header start len =>
      have hcount : slices (.header start len :: parts) = slices parts := by simp [slices]
      rw [hcount] at hroom ⊢
      exact ih h hroom
    | slice start len =>
      have hcount : slices (.slice start len :: parts) = slices parts + 1 := by simp [slices]
      rw [hcount] at hroom ⊢
      have hput := @Ring.put _ _ _ _ _ buf h (by omega)
      have hmore := ih hput (by rw [List.length_append, List.length_singleton]; omega)
      rw [List.append_assoc, List.singleton_append, ← List.replicate_succ] at hmore
      exact hmore

def owners (links : List Link) : List ℕ := links.filterMap Link.shared

def bytes (links : List Link) : List UInt8 := links.flatMap Link.data

theorem releaseLoop_ring {gone : List Link} (h : Ring cap extra q taken released)
    (hnext : owners gone <+: taken.drop released) :
    (releaseLoop cap gone q).2 = owners gone ∧
      Ring cap extra (releaseLoop cap gone q).1 taken (released + (owners gone).length) := by
  induction gone generalizing q released with
  | nil => exact ⟨rfl, h⟩
  | cons l rest ih =>
    obtain ⟨shared, data⟩ := l
    cases shared with
    | none =>
      have howners : owners (⟨none, data⟩ :: rest) = owners rest := rfl
      rw [howners] at hnext ⊢
      have hkept : Ring cap extra { q with outQueue := q.outQueue - 1 } taken released :=
        ⟨h.slots, h.head, h.count, h.refs⟩
      exact ih hkept hnext
    | some buf =>
      have howners : owners (⟨some buf, data⟩ :: rest) = buf :: owners rest := rfl
      rw [howners] at hnext ⊢
      have hlong : released < taken.length := by
        have hle := hnext.length_le
        rw [List.length_cons, List.length_drop] at hle
        omega
      have hsome : q.inFlightCount > 0 := by
        rw [h.count]
        omega
      obtain ⟨hslot, htaken⟩ := h.take (n := q.outQueue - 1) hlong
      rw [List.drop_eq_getElem_cons hlong, List.cons_prefix_cons] at hnext
      obtain ⟨hids, hring⟩ := ih htaken hnext.2
      rw [releaseLoop, if_pos ⟨rfl, hsome⟩]
      refine ⟨congrArg₂ List.cons (hslot.trans hnext.1.symm) hids, ?_⟩
      rw [List.length_cons, Nat.add_comm (owners rest).length, ← Nat.add_assoc]
      exact hring

structure Released (q q' : Queue) (gone : List Link) : Prop where
  writer : q'.writer = q.writer
  out : q'.out = q.out
  outBytes : q'.outBytes = q.outBytes
  outQueue : q'.outQueue = q.outQueue - gone.length
  count : q'.inFlightCount = q.inFlightCount - references (gone.map asBuf)

theorem releaseLoop_released (cap : ℕ) (gone : List Link) (q : Queue) :
    Released q (releaseLoop cap gone q).1 gone := by
  induction gone generalizing q with
  | nil => exact ⟨rfl, rfl, rfl, rfl, rfl⟩
  | cons l rest ih =>
    rw [releaseLoop]
    split_ifs with hrelease
    · have hrest := ih { q.unref (q.inFlight q.inFlightHead) with
        inFlightHead := (q.inFlightHead + 1) % cap
        inFlightCount := q.inFlightCount - 1
        outQueue := q.outQueue - 1 }
      have hrefs : references ((l :: rest).map asBuf) = references (rest.map asBuf) + 1 := by
        simp [references, asBuf, hrelease.1]
      refine ⟨hrest.writer, hrest.out, hrest.outBytes, ?_, ?_⟩
      · refine hrest.outQueue.trans ?_
        rw [List.length_cons]
        dsimp only
        omega
      · refine hrest.count.trans ?_
        rw [hrefs]
        dsimp only
        omega
    · have hrest := ih { q with outQueue := q.outQueue - 1 }
      refine ⟨hrest.writer, hrest.out, hrest.outBytes, ?_, ?_⟩
      · refine hrest.outQueue.trans ?_
        rw [List.length_cons]
        dsimp only
        omega
      · refine hrest.count.trans ?_
        rcases not_and_or.mp hrelease with hown | hnone
        · have hrefs : references ((l :: rest).map asBuf) = references (rest.map asBuf) := by
            simp [references, asBuf, hown]
          rw [hrefs]
        · dsimp only
          omega

def Remains (left whole : Link) : Prop := left.shared = whole.shared ∧ left.data <:+ whole.data

theorem Remains.refl (l : Link) : Remains l l := ⟨rfl, List.suffix_rfl⟩

theorem Remains.trans {a b c : Link} (h : Remains a b) (h' : Remains b c) : Remains a c :=
  ⟨h.1.trans h'.1, h.2.trans h'.2⟩

theorem remains_refl (links : List Link) : List.Forall₂ Remains links links :=
  List.forall₂_same.mpr fun l _ => Remains.refl l

theorem unsent_remains (n : ℕ) (links : List Link) :
    (unsent n links).length ≤ links.length ∧
      List.Forall₂ Remains (unsent n links)
        (links.drop (links.length - (unsent n links).length)) ∧
      bytes (unsent n links) = (bytes links).drop n ∧
      (unsent n links).map asBuf = RtmpOutput.unsent n (links.map asBuf) := by
  induction links generalizing n with
  | nil =>
    have hnil : unsent n [] = [] := by cases n <;> rfl
    have hbufs : RtmpOutput.unsent n [] = [] := by cases n <;> rfl
    rw [hnil, List.map_nil, hbufs]
    exact ⟨le_rfl, List.Forall₂.nil, List.drop_nil.symm, rfl⟩
  | cons l rest ih =>
    cases n with
    | zero =>
      rw [unsent, RtmpOutput.unsent, Nat.sub_self, List.drop_zero]
      exact ⟨le_rfl, remains_refl _, rfl, rfl⟩
    | succ n =>
      have hbytes : bytes (l :: rest) = l.data ++ bytes rest := rfl
      have hlength : (asBuf l).data.length = l.data.length := rfl
      rw [unsent, List.map_cons, RtmpOutput.unsent, hlength, hbytes]
      split_ifs with hwhole
      · obtain ⟨hle, hremains, hdrop, hmap⟩ := ih (n + 1 - l.data.length)
        refine ⟨by rw [List.length_cons]; omega, ?_, ?_, hmap⟩
        · rw [List.length_cons, Nat.succ_sub hle, List.drop_succ_cons]
          exact hremains
        · rw [hdrop, List.drop_append, List.drop_of_length_le hwhole, List.nil_append]
      · have hpart : n + 1 ≤ l.data.length := by omega
        refine ⟨le_rfl, ?_, ?_, rfl⟩
        · rw [List.length_cons, List.length_cons, Nat.sub_self, List.drop_zero]
          exact .cons ⟨rfl, List.drop_suffix _ _⟩ (remains_refl rest)
        · rw [List.drop_append_of_le_length hpart]
          rfl

theorem owners_remains {left whole : List Link} (h : List.Forall₂ Remains left whole) :
    owners left = owners whole := by
  induction h with
  | nil => rfl
  | @cons l whole left rest hl _ ih =>
    rw [owners, owners, List.filterMap_cons, List.filterMap_cons, hl.1]
    cases whole.shared with
    | none => exact ih
    | some buf => exact congrArg (buf :: ·) ih

theorem bytes_remains {left whole : List Link} (h : List.Forall₂ Remains left whole) :
    (bytes left).length ≤ (bytes whole).length := by
  induction h with
  | nil => exact le_rfl
  | cons hl _ ih =>
    have hle := hl.2.length_le
    simp only [bytes, List.flatMap_cons, List.length_append] at ih ⊢
    omega

end RtmpChain
