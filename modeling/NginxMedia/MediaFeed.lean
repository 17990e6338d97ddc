import Mathlib.Data.List.Induction
import NginxMedia.MediaTypes
import NginxMedia.SequenceRing

/-! The bounded program feed of `ngx_media_feed.c`: a single-producer ring of frame
descriptors under a unit, a byte and an age ceiling, read through cursors. The list of
published units and what each consumer has read are ghost observations; no function of
the feed reads them. -/
namespace MediaFeed

open MediaTypes SequenceRing

/-- `ngx_media_feed_conf_t`; zero bytes or zero age mean no such ceiling. -/
structure Conf where
  maxUnits : ℕ
  maxBytes : ℕ
  maxAge : ℕ
  deriving DecidableEq, Repr

structure Cursor where
  generation : ℕ
  nextSequence : ℕ
  deriving DecidableEq, Repr

structure Slot where
  frame : Frame
  publishTime : ℕ
  deriving DecidableEq, Repr

def Slot.empty : Slot := ⟨Frame.empty, 0⟩

def Slot.size (s : Slot) : ℕ := s.frame.size

def Slot.Vacant (s : Slot) : Prop := s.frame.payload = none

def histBuckets : ℕ := 16

/-- `ngx_media_feed_hist_t`; only the first `histBuckets` buckets are indexed. -/
structure Hist where
  buckets : ℕ → ℕ
  count : ℕ
  max : ℕ

def Hist.empty : Hist := ⟨fun _ => 0, 0, 0⟩

def histBucket (delay : ℕ) : ℕ → ℕ → ℕ → ℕ
  | 0, bucket, _ => bucket
  | n + 1, bucket, bound =>
    if bound < delay ∧ bucket < histBuckets - 1 then
      histBucket delay n (bucket + 1) (bound * 2)
    else bucket

def Hist.record (hist : Hist) (delay : ℕ) : Hist :=
  let delay := if delay > 60000 then 60000 else delay
  let bucket := histBucket delay histBuckets 0 1
  { buckets := Function.update hist.buckets bucket (hist.buckets bucket + 1)
    count := hist.count + 1
    max := if delay > hist.max then delay else hist.max }

structure Feed where
  slots : ℕ → Slot
  capacity : ℕ
  maxUnits : ℕ
  maxBytes : ℕ
  maxAge : ℕ
  generation : ℕ
  head : ℕ
  tail : ℕ
  lastKeyframe : ℕ
  bytes : ℕ
  highWaterUnits : ℕ
  highWaterBytes : ℕ
  evictions : ℕ
  overruns : ℕ
  generationMismatches : ℕ
  publishErrors : ℕ
  hasKeyframe : Bool
  fanout : Hist

/-- The loop of `ngx_media_feed_pow2()`, zero when the next power does not fit 64 bits. -/
def pow2Loop (n : ℕ) : ℕ → ℕ → ℕ
  | 0, p => p
  | fuel + 1, p =>
    if p < n then
      if p > (2 ^ 64 - 1) / 2 then 0 else pow2Loop n fuel (p * 2)
    else p

/-- `ngx_media_feed_pow2()`: after 64 doublings the loop has ended one way or the other. -/
def pow2 (n : ℕ) : ℕ := pow2Loop n 64 1

/-- `sizeof(ngx_media_feed_slot_t)` on a 64-bit target. -/
def slotBytes : ℕ := 72

def init (conf : Conf) (allocated : Bool) : Option Feed :=
  if conf.maxUnits = 0 then none
  else if pow2 conf.maxUnits = 0 then none
  else if pow2 conf.maxUnits > (2 ^ 64 - 1) / slotBytes then none
  else if allocated = false then none
  else some
    { slots := fun _ => Slot.empty
      capacity := pow2 conf.maxUnits
      maxUnits := conf.maxUnits
      maxBytes := conf.maxBytes
      maxAge := conf.maxAge
      generation := 1
      head := 0
      tail := 0
      lastKeyframe := 0
      bytes := 0
      highWaterUnits := 0
      highWaterBytes := 0
      evictions := 0
      overruns := 0
      generationMismatches := 0
      publishErrors := 0
      hasKeyframe := false
      fanout := Hist.empty }

def Feed.index (feed : Feed) (sequence : ℕ) : ℕ := sequence &&& (feed.capacity - 1)

def evict (feed : Feed) : Feed :=
  { feed with
    bytes := feed.bytes - (feed.slots (feed.index feed.tail)).size
    slots := Function.update feed.slots (feed.index feed.tail) Slot.empty
    tail := feed.tail + 1
    evictions := feed.evictions + 1 }

/-- The three tests of `ngx_media_feed_prune()`, in the order of the source. -/
def exceeds (feed : Feed) (now incoming : ℕ) : Prop :=
  feed.head - feed.tail ≥ feed.maxUnits ∨
  (feed.maxBytes ≠ 0 ∧ feed.bytes + incoming > feed.maxBytes) ∨
  (feed.maxAge ≠ 0 ∧
    wrapSub now (feed.slots (feed.index feed.tail)).publishTime > feed.maxAge)

instance (feed : Feed) (now incoming : ℕ) : Decidable (exceeds feed now incoming) :=
  inferInstanceAs (Decidable (_ ∨ _ ∨ _))

def pruneLoop (now incoming : ℕ) : ℕ → Feed → Feed
  | 0, feed => feed
  | n + 1, feed =>
    if feed.head > feed.tail ∧ exceeds feed now incoming then
      pruneLoop now incoming n (evict feed)
    else feed

def prune (feed : Feed) (now incoming : ℕ) : Feed :=
  pruneLoop now incoming (feed.head - feed.tail) feed

/-- The part of `ngx_media_feed_publish()` after the slot was found free. -/
def insert (feed : Feed) (frame : Frame) (now : ℕ) : Feed :=
  let bytes := feed.bytes + frame.size
  let units := feed.head + 1 - feed.tail
  { feed with
    slots := Function.update feed.slots (feed.index feed.head) ⟨frame, now⟩
    bytes := bytes
    hasKeyframe := if frame.keyframe then true else feed.hasKeyframe
    lastKeyframe := if frame.keyframe then feed.head else feed.lastKeyframe
    head := feed.head + 1
    highWaterUnits := if units > feed.highWaterUnits then units else feed.highWaterUnits
    highWaterBytes := if bytes > feed.highWaterBytes then bytes else feed.highWaterBytes }

def publish (feed : Feed) (frame : Frame) (now : ℕ) : Feed × Rc :=
  let feed := prune feed now frame.size
  if (feed.slots (feed.index feed.head)).frame.payload ≠ none then
    ({ feed with publishErrors := feed.publishErrors + 1 }, .error)
  else (insert feed frame now, .ok)

inductive Status where
  | batch
  | empty
  | overrun
  | generationMismatch
  deriving DecidableEq, Repr

def readLoop (feed : Feed) (maxUnits maxBytes now : ℕ) :
    ℕ → ℕ → ℕ → ℕ → Hist → List Frame × ℕ × Hist
  | 0, seq, _, _, hist => ([], seq, hist)
  | n + 1, seq, count, bytes, hist =>
    if count < maxUnits ∧ seq < feed.head then
      let slot := feed.slots (feed.index seq)
      if count > 0 ∧ maxBytes ≠ 0 ∧ bytes + slot.size > maxBytes then ([], seq, hist)
      else
        let hist := if now ≥ slot.publishTime then hist.record (now - slot.publishTime)
          else hist
        let rest := readLoop feed maxUnits maxBytes now n (seq + 1) (count + 1)
          (bytes + slot.size) hist
        (slot.frame :: rest.1, rest.2)
    else ([], seq, hist)

structure ReadResult where
  status : Status
  feed : Feed
  cursor : Cursor
  frames : List Frame

def read (feed : Feed) (cursor : Cursor) (maxUnits maxBytes now : ℕ) : ReadResult :=
  if cursor.generation ≠ feed.generation then
    ⟨.generationMismatch,
      { feed with generationMismatches := feed.generationMismatches + 1 }, cursor, []⟩
  else if cursor.nextSequence < feed.tail then
    ⟨.overrun, { feed with overruns := feed.overruns + 1 }, cursor, []⟩
  else if cursor.nextSequence > feed.head then
    -- a cursor ahead of the producer belongs to a previous ring
    ⟨.generationMismatch,
      { feed with generationMismatches := feed.generationMismatches + 1 }, cursor, []⟩
  else
    let out := readLoop feed maxUnits maxBytes now (feed.head - cursor.nextSequence)
      cursor.nextSequence 0 0 feed.fanout
    if out.1 = [] then ⟨.empty, { feed with fanout := out.2.2 }, cursor, []⟩
    else ⟨.batch, { feed with fanout := out.2.2 }, { cursor with nextSequence := out.2.1 }, out.1⟩

def discontinuity (feed : Feed) : Feed := { feed with generation := feed.generation + 1 }

def cursorInit (feed : Feed) : Cursor := ⟨feed.generation, feed.head⟩

def resyncLatest : ℕ := 0
def resyncKeyframe : ℕ := 1

def keyframeRetained (feed : Feed) : Prop :=
  feed.hasKeyframe ∧ feed.lastKeyframe ≥ feed.tail ∧ feed.lastKeyframe < feed.head

instance (feed : Feed) : Decidable (keyframeRetained feed) :=
  inferInstanceAs (Decidable (_ ∧ _))

def resync (feed : Feed) (cursor : Cursor) (mode : ℕ) : Cursor × Rc :=
  if mode = resyncLatest then (⟨feed.generation, feed.head⟩, .ok)
  else if mode = resyncKeyframe then
    (⟨feed.generation, if keyframeRetained feed then feed.lastKeyframe else feed.head⟩, .ok)
  else (cursor, .error)

/-- A consumer with what it has read since its last resynchronisation, which put its
cursor at `start`. -/
structure Consumer where
  cursor : Cursor
  start : ℕ
  got : List Frame

structure System where
  feed : Feed
  published : List Slot
  consumers : ℕ → Consumer

inductive Call where
  | publish (frame : Frame) (now : ℕ)
  | read (i maxUnits maxBytes now : ℕ)
  | discontinuity
  | cursorInit (i : ℕ)
  | resync (i mode : ℕ)
  deriving DecidableEq, Repr

def setConsumer (s : System) (i : ℕ) (c : Consumer) : System :=
  { s with consumers := Function.update s.consumers i c }

def step (s : System) : Call → System
  | .publish frame now =>
    match publish s.feed frame now with
    | (feed, .ok) => { s with feed := feed, published := s.published ++ [⟨frame, now⟩] }
    | (feed, _) => { s with feed := feed }
  | .read i maxUnits maxBytes now =>
    let c := s.consumers i
    let r := read s.feed c.cursor maxUnits maxBytes now
    setConsumer { s with feed := r.feed } i
      { c with cursor := r.cursor, got := c.got ++ r.frames }
  | .discontinuity => { s with feed := discontinuity s.feed }
  | .cursorInit i => setConsumer s i ⟨cursorInit s.feed, s.feed.head, []⟩
  | .resync i mode =>
    match resync s.feed (s.consumers i).cursor mode with
    | (cursor, .ok) => setConsumer s i ⟨cursor, cursor.nextSequence, []⟩
    | _ => s

/-- Before its first resynchronisation a cursor has generation 0, which is never valid. -/
def initial (feed : Feed) : System := ⟨feed, [], fun _ => ⟨⟨0, 0⟩, 0, []⟩⟩

def run (s : System) (calls : List Call) : System := calls.foldl step s

theorem pow2Loop_spec (n fuel k : ℕ) (hk : fuel + k = 64) :
    pow2Loop n fuel (2 ^ k) = 0 ∨
      ∃ j, pow2Loop n fuel (2 ^ k) = 2 ^ j ∧ (n ≤ 2 ^ j ∨ j = 64) := by
  induction fuel generalizing k with
  | zero => exact Or.inr ⟨k, rfl, Or.inr (by omega)⟩
  | succ fuel ih =>
    rw [pow2Loop]
    split_ifs with hlt hbig
    · exact Or.inl rfl
    · rw [← Nat.pow_succ]
      exact ih (k + 1) (by omega)
    · exact Or.inr ⟨k, rfl, Or.inl (by omega)⟩

theorem init_capacity {conf : Conf} {allocated : Bool} {feed : Feed}
    (h : init conf allocated = some feed) :
    0 < conf.maxUnits ∧ feed.maxUnits = conf.maxUnits ∧ feed.maxUnits ≤ feed.capacity ∧
      ∃ k, feed.capacity = 2 ^ k := by
  unfold init at h
  split_ifs at h with hz hp hs ha
  obtain rfl := Option.some.inj h
  rcases pow2Loop_spec conf.maxUnits 64 0 rfl with h0 | ⟨j, hj, hn⟩
  · exact absurd h0 hp
  · have hcap : pow2 conf.maxUnits = 2 ^ j := hj
    have hfits : conf.maxUnits ≤ 2 ^ j := by
      rcases hn with hn | rfl
      · exact hn
      · -- a capacity of 2^64 is past what the slot allocation allows
        rw [hcap, slotBytes] at hs
        omega
    exact ⟨by omega, rfl, by dsimp only; omega, j, hcap⟩

structure Inv (feed : Feed) (published : List Slot) : Prop where
  units_pos : 0 < feed.maxUnits
  units_cap : feed.maxUnits ≤ feed.capacity
  pow2_cap : ∃ k, feed.capacity = 2 ^ k
  ring : Represents Slot.Vacant feed.slots feed.capacity feed.tail published
  head_eq : feed.head = published.length
  units_le : feed.head - feed.tail ≤ feed.maxUnits
  bytes_eq : feed.bytes = retained Slot.size feed.tail published
  bytes_le : feed.maxBytes ≠ 0 → feed.bytes ≤ feed.maxBytes ∨ feed.head - feed.tail = 1

theorem Inv.index_eq {feed : Feed} {published : List Slot} (h : Inv feed published)
    (seq : ℕ) : feed.index seq = seq % feed.capacity := by
  obtain ⟨k, hk⟩ := h.pow2_cap
  rw [Feed.index, hk, Nat.and_two_pow_sub_one_eq_mod]

theorem Inv.tail_le {feed : Feed} {published : List Slot} (h : Inv feed published) :
    feed.tail ≤ feed.head := by
  rw [h.head_eq]
  exact h.ring.tail_le

theorem init_inv {conf : Conf} {allocated : Bool} {feed : Feed}
    (h : init conf allocated = some feed) : Inv feed [] := by
  obtain ⟨hpos, hunits, hcap, hpow⟩ := init_capacity h
  unfold init at h
  split_ifs at h
  obtain rfl := Option.some.inj h
  exact ⟨hpos, hcap, hpow, represents_empty fun _ => rfl, rfl, Nat.zero_le _, rfl,
    fun _ => Or.inl (Nat.zero_le _)⟩

theorem Inv.after_evict {feed : Feed} {published : List Slot} (h : Inv feed published)
    (ht : feed.tail < feed.head) : Inv (evict feed) published := by
  have hl : feed.tail < published.length := by rwa [← h.head_eq]
  have hslot := h.ring.held feed.tail hl (Nat.le_refl _)
  have hsum := retained_evict Slot.size hl
  have hunits := h.units_le
  have hbytes : (evict feed).bytes = retained Slot.size (feed.tail + 1) published := by
    simp only [evict, h.index_eq, hslot]
    rw [h.bytes_eq, hsum]
    omega
  refine ⟨h.units_pos, h.units_cap, h.pow2_cap, ?_, h.head_eq, ?_, hbytes, ?_⟩
  · simp only [evict, h.index_eq]
    exact h.ring.evict hl rfl
  · simp only [evict]
    omega
  · intro hm
    left
    have hm' : feed.maxBytes ≠ 0 := hm
    change (evict feed).bytes ≤ feed.maxBytes
    rw [hbytes]
    rcases h.bytes_le hm' with hle | hone
    · rw [h.bytes_eq, hsum] at hle
      omega
    · rw [show feed.tail + 1 = published.length by rw [← h.head_eq]; omega, retained_all]
      exact Nat.zero_le _

def Roomy (feed : Feed) (incoming : ℕ) : Prop :=
  feed.head = feed.tail ∨
    (feed.head - feed.tail < feed.maxUnits ∧
      (feed.maxBytes ≠ 0 → feed.bytes + incoming ≤ feed.maxBytes))

theorem pruneLoop_spec {published : List Slot} (now incoming n : ℕ) (feed : Feed)
    (h : Inv feed published) (hn : feed.head - feed.tail ≤ n) :
    Inv (pruneLoop now incoming n feed) published ∧
      Roomy (pruneLoop now incoming n feed) incoming := by
  have ht := h.tail_le
  induction n generalizing feed with
  | zero => exact ⟨h, Or.inl (by rw [pruneLoop]; omega)⟩
  | succ n ih =>
    rw [pruneLoop]
    split_ifs with hc
    · refine ih _ (h.after_evict hc.1) ?_ ?_ <;> simp only [evict] <;> omega
    · refine ⟨h, ?_⟩
      by_cases he : feed.head = feed.tail
      · exact Or.inl he
      · right
        simp only [exceeds] at hc
        omega

theorem Inv.after_prune {feed : Feed} {published : List Slot} (h : Inv feed published)
    (now incoming : ℕ) :
    Inv (prune feed now incoming) published ∧ Roomy (prune feed now incoming) incoming :=
  pruneLoop_spec now incoming _ feed h (Nat.le_refl _)

theorem Inv.after_insert {feed : Feed} {published : List Slot} (h : Inv feed published)
    (frame : Frame) (now : ℕ) (hr : Roomy feed frame.size) :
    Inv (insert feed frame now) (published ++ [⟨frame, now⟩]) := by
  have hpos := h.units_pos
  have hcap := h.units_cap
  have ht := h.tail_le
  have hroom : feed.head < feed.tail + feed.capacity := by
    rcases hr with he | ⟨hlt, _⟩ <;> omega
  have hring := h.ring.push (by rw [← h.head_eq]; exact hroom) ⟨frame, now⟩
  rw [← h.head_eq] at hring
  refine ⟨hpos, hcap, h.pow2_cap, ?_, ?_, ?_, ?_, ?_⟩
  · simp only [insert, h.index_eq]
    exact hring
  · simp [insert, h.head_eq]
  · rcases hr with he | ⟨hlt, _⟩ <;> simp only [insert] <;> omega
  · simp only [insert]
    rw [retained_push _ _ h.ring.tail_le, h.bytes_eq]
    rfl
  · intro hm
    simp only [insert] at hm ⊢
    rcases hr with he | ⟨_, hb⟩
    · right
      omega
    · exact Or.inl (hb hm)

theorem Inv.publish_ok {feed : Feed} {published : List Slot} (h : Inv feed published)
    (frame : Frame) (now : ℕ) :
    ∃ pruned, Inv pruned published ∧ Roomy pruned frame.size ∧
      publish feed frame now = (insert pruned frame now, .ok) := by
  obtain ⟨hp, hr⟩ := h.after_prune now frame.size
  refine ⟨_, hp, hr, ?_⟩
  have hpos := hp.units_pos
  have hcap := hp.units_cap
  have ht := hp.tail_le
  have hroom : (prune feed now frame.size).head <
      (prune feed now frame.size).tail + (prune feed now frame.size).capacity := by
    rcases hr with he | ⟨hlt, _⟩ <;> omega
  have hv := hp.ring.next_vacant (by rw [← hp.head_eq]; exact hroom)
  rw [← hp.head_eq, ← hp.index_eq] at hv
  have hv' : ((prune feed now frame.size).slots
    ((prune feed now frame.size).index (prune feed now frame.size).head)).frame.payload =
      none := hv
  unfold publish
  dsimp only
  rw [if_neg (by rw [hv']; simp)]

theorem Inv.after_publish {feed : Feed} {published : List Slot} (h : Inv feed published)
    (frame : Frame) (now : ℕ) :
    Inv (publish feed frame now).1 (published ++ [⟨frame, now⟩]) ∧
      (publish feed frame now).2 = .ok := by
  obtain ⟨pruned, hp, hr, he⟩ := h.publish_ok frame now
  rw [he]
  exact ⟨hp.after_insert frame now hr, rfl⟩

theorem Inv.of_same_ring {feed feed' : Feed} {published : List Slot}
    (h : Inv feed published) (hs : feed'.slots = feed.slots)
    (hc : feed'.capacity = feed.capacity) (hu : feed'.maxUnits = feed.maxUnits)
    (hm : feed'.maxBytes = feed.maxBytes) (hh : feed'.head = feed.head)
    (ht : feed'.tail = feed.tail) (hb : feed'.bytes = feed.bytes) : Inv feed' published := by
  constructor
  · rw [hu]; exact h.units_pos
  · rw [hu, hc]; exact h.units_cap
  · rw [hc]; exact h.pow2_cap
  · rw [hs, hc, ht]; exact h.ring
  · rw [hh]; exact h.head_eq
  · rw [hh, ht, hu]; exact h.units_le
  · rw [hb, ht]; exact h.bytes_eq
  · rw [hm, hb, hh, ht]; exact h.bytes_le

def framesBetween (published : List Slot) (a b : ℕ) : List Frame :=
  ((published.drop a).take (b - a)).map Slot.frame

theorem framesBetween_self (published : List Slot) (a : ℕ) :
    framesBetween published a a = [] := by
  simp [framesBetween]

theorem framesBetween_cons {published : List Slot} {a b : ℕ} (ha : a < published.length)
    (hab : a < b) :
    framesBetween published a b = published[a].frame :: framesBetween published (a + 1) b := by
  rw [framesBetween, List.drop_eq_getElem_cons ha, show b - a = b - (a + 1) + 1 by omega,
    List.take_succ_cons, List.map_cons, framesBetween]

theorem framesBetween_trans {published : List Slot} {a b c : ℕ} (hab : a ≤ b) (hbc : b ≤ c) :
    framesBetween published a b ++ framesBetween published b c =
      framesBetween published a c := by
  rw [framesBetween, framesBetween, framesBetween, ← List.map_append]
  congr 1
  rw [show c - a = (b - a) + (c - b) by omega, List.take_add, List.drop_drop,
    show a + (b - a) = b by omega]

theorem framesBetween_append {published more : List Slot} {a b : ℕ}
    (hb : b ≤ published.length) :
    framesBetween (published ++ more) a b = framesBetween published a b := by
  by_cases hab : a ≤ b
  · rw [framesBetween, framesBetween, List.drop_append_of_le_length (by omega),
      List.take_append_of_le_length (by simp; omega)]
  · simp [framesBetween, show b - a = 0 by omega]

theorem framesBetween_length {published : List Slot} {a b : ℕ}
    (hb : b ≤ published.length) : (framesBetween published a b).length = b - a := by
  simp [framesBetween]
  omega

theorem readLoop_spec {feed : Feed} {published : List Slot} (h : Inv feed published)
    (maxUnits maxBytes now n seq count bytes : ℕ) (hist : Hist) (ht : feed.tail ≤ seq)
    (hh : seq ≤ feed.head) :
    ∃ stop, (readLoop feed maxUnits maxBytes now n seq count bytes hist).2.1 = stop ∧
      seq ≤ stop ∧ stop ≤ feed.head ∧
      (readLoop feed maxUnits maxBytes now n seq count bytes hist).1 =
        framesBetween published seq stop ∧
      (0 < n → count = 0 → 0 < maxUnits → seq < feed.head → seq < stop) := by
  induction n generalizing seq count bytes hist with
  | zero =>
    exact ⟨seq, rfl, Nat.le_refl _, hh, (framesBetween_self published seq).symm,
      fun h0 => absurd h0 (Nat.lt_irrefl 0)⟩
  | succ n ih =>
    rw [readLoop]
    split_ifs with hgo
    · have hl : seq < published.length := by rw [← h.head_eq]; exact hgo.2
      have hslot := h.ring.held seq hl ht
      rw [h.index_eq, hslot]
      dsimp only
      split_ifs with hbudget
      · exact ⟨seq, rfl, Nat.le_refl _, hh, (framesBetween_self published seq).symm,
          fun _ h0 => by omega⟩
      all_goals
        obtain ⟨stop, hstop, hle, hend, hfr, _⟩ := ih (seq + 1) (count + 1)
          (bytes + published[seq].size) _ (by omega) hgo.2
        refine ⟨stop, hstop, by omega, hend, ?_, fun _ _ _ _ => by omega⟩
        rw [framesBetween_cons hl (by omega), hfr]
    · exact ⟨seq, rfl, Nat.le_refl _, hh, (framesBetween_self published seq).symm,
        fun _ h0 hu hs => by omega⟩

theorem Inv.after_read {feed : Feed} {published : List Slot} (h : Inv feed published)
    (cursor : Cursor) (maxUnits maxBytes now : ℕ) :
    Inv (read feed cursor maxUnits maxBytes now).feed published ∧
      (read feed cursor maxUnits maxBytes now).feed.head = feed.head := by
  unfold read
  split_ifs <;> first
    | exact ⟨h.of_same_ring rfl rfl rfl rfl rfl rfl rfl, rfl⟩
    | (dsimp only; split_ifs <;> exact ⟨h.of_same_ring rfl rfl rfl rfl rfl rfl rfl, rfl⟩)

theorem Inv.read_frames {feed : Feed} {published : List Slot} (h : Inv feed published)
    (cursor : Cursor) (maxUnits maxBytes now : ℕ) :
    ∃ n, (read feed cursor maxUnits maxBytes now).cursor =
        ⟨cursor.generation, cursor.nextSequence + n⟩ ∧
      (read feed cursor maxUnits maxBytes now).frames =
        framesBetween published cursor.nextSequence (cursor.nextSequence + n) ∧
      (n ≠ 0 → cursor.nextSequence + n ≤ feed.head) := by
  have hstay : ∀ status feed', ∃ n,
      (ReadResult.mk status feed' cursor []).cursor =
        ⟨cursor.generation, cursor.nextSequence + n⟩ ∧
      (ReadResult.mk status feed' cursor []).frames =
        framesBetween published cursor.nextSequence (cursor.nextSequence + n) ∧
      (n ≠ 0 → cursor.nextSequence + n ≤ feed.head) :=
    fun _ _ => ⟨0, rfl, (framesBetween_self published _).symm, fun h0 => absurd rfl h0⟩
  unfold read
  split_ifs with hgen hover hahead
  · exact hstay _ _
  · exact hstay _ _
  · exact hstay _ _
  · obtain ⟨stop, hstop, hle, hend, hfr, _⟩ := readLoop_spec h maxUnits maxBytes now
      (feed.head - cursor.nextSequence) cursor.nextSequence 0 0 feed.fanout
      (by omega) (by omega)
    dsimp only
    split_ifs with hnil
    · exact hstay _ _
    · refine ⟨stop - cursor.nextSequence, ?_, ?_, fun _ => ?_⟩
      · rw [hstop, Nat.add_sub_cancel' hle]
      · rw [hfr, Nat.add_sub_cancel' hle]
      · omega

theorem read_overrun {feed : Feed} {cursor : Cursor} (hg : cursor.generation = feed.generation)
    (hlost : cursor.nextSequence < feed.tail) (maxUnits maxBytes now : ℕ) :
    (read feed cursor maxUnits maxBytes now).status = .overrun ∧
      (read feed cursor maxUnits maxBytes now).cursor = cursor ∧
      (read feed cursor maxUnits maxBytes now).frames = [] := by
  unfold read
  rw [if_neg (by simpa using hg), if_pos hlost]
  exact ⟨rfl, rfl, rfl⟩

theorem Inv.read_progress {feed : Feed} {published : List Slot} (h : Inv feed published)
    {cursor : Cursor} (hg : cursor.generation = feed.generation)
    (hkept : feed.tail ≤ cursor.nextSequence) (havail : cursor.nextSequence < feed.head)
    {maxUnits : ℕ} (hunits : 0 < maxUnits) (maxBytes now : ℕ) :
    (read feed cursor maxUnits maxBytes now).status = .batch ∧
      (read feed cursor maxUnits maxBytes now).frames ≠ [] := by
  obtain ⟨stop, hstop, hle, hend, hfr, hgo⟩ := readLoop_spec h maxUnits maxBytes now
    (feed.head - cursor.nextSequence) cursor.nextSequence 0 0 feed.fanout hkept (by omega)
  have hmove := hgo (by omega) rfl hunits havail
  have hne : framesBetween published cursor.nextSequence stop ≠ [] := by
    rw [framesBetween_cons (by rw [← h.head_eq]; exact havail) hmove]
    exact List.cons_ne_nil _ _
  unfold read
  rw [if_neg (by simpa using hg), if_neg (by omega), if_neg (by omega)]
  dsimp only
  rw [hfr, if_neg hne]
  exact ⟨rfl, hne⟩

structure Consumer.Follows (c : Consumer) (published : List Slot) : Prop where
  cursor_eq : c.cursor.nextSequence = c.start + c.got.length
  got_eq : c.got = framesBetween published c.start (c.start + c.got.length)
  within : c.start + c.got.length ≤ published.length

structure SystemInv (s : System) : Prop where
  feed : Inv s.feed s.published
  follows : ∀ i, (s.consumers i).Follows s.published

theorem Consumer.Follows.fresh {published : List Slot} (generation : ℕ) {seq : ℕ}
    (hseq : seq ≤ published.length) :
    (Consumer.mk ⟨generation, seq⟩ seq []).Follows published :=
  ⟨rfl, (framesBetween_self published seq).symm, hseq⟩

theorem Consumer.Follows.publish {c : Consumer} {published : List Slot}
    (h : c.Follows published) (slot : Slot) : c.Follows (published ++ [slot]) := by
  refine ⟨h.cursor_eq, ?_, ?_⟩
  · rw [framesBetween_append h.within]
    exact h.got_eq
  · have := h.within
    simp only [List.length_append, List.length_singleton]
    omega

theorem Consumer.Follows.after_read {feed : Feed} {published : List Slot} {c : Consumer}
    (hf : Inv feed published) (h : c.Follows published) (maxUnits maxBytes now : ℕ) :
    Consumer.Follows
      { c with
        cursor := (MediaFeed.read feed c.cursor maxUnits maxBytes now).cursor
        got := c.got ++ (MediaFeed.read feed c.cursor maxUnits maxBytes now).frames }
      published := by
  obtain ⟨n, hcursor, hframes, hwithin⟩ := hf.read_frames c.cursor maxUnits maxBytes now
  have hn : c.cursor.nextSequence + n ≤ published.length := by
    by_cases h0 : n = 0
    · rw [h0, h.cursor_eq]
      exact h.within
    · rw [← hf.head_eq]
      exact hwithin h0
  have hlen : (framesBetween published c.cursor.nextSequence
      (c.cursor.nextSequence + n)).length = n := by
    rw [framesBetween_length hn]
    omega
  rw [hcursor, hframes]
  have hstart := h.cursor_eq
  refine ⟨?_, ?_, ?_⟩
  · dsimp only
    rw [List.length_append, hlen]
    omega
  · dsimp only
    rw [List.length_append, hlen, hstart,
      show c.start + (c.got.length + n) = c.start + c.got.length + n by omega,
      ← @framesBetween_trans published c.start (c.start + c.got.length) _ (by omega) (by omega)]
    congr 1
    exact h.got_eq
  · dsimp only
    rw [List.length_append, hlen]
    omega

theorem setConsumer_inv {s : System} (h : SystemInv s) (i : ℕ) {c : Consumer}
    (hc : c.Follows s.published) : SystemInv (setConsumer s i c) := by
  refine ⟨h.feed, fun j => ?_⟩
  by_cases hj : j = i
  · subst j
    simpa [setConsumer] using hc
  · simpa [setConsumer, Function.update_of_ne hj] using h.follows j

theorem resync_within {feed : Feed} {published : List Slot} (h : Inv feed published)
    (cursor : Cursor) (mode : ℕ) (hok : (resync feed cursor mode).2 = .ok) :
    (resync feed cursor mode).1.nextSequence ≤ published.length := by
  have hh := h.head_eq
  unfold resync at hok ⊢
  split_ifs at hok ⊢ with hlatest hkey hkept
  · exact hh.le
  · simp only [keyframeRetained] at hkept
    dsimp only
    omega
  · exact hh.le

theorem step_inv {s : System} (h : SystemInv s) (call : Call) : SystemInv (step s call) := by
  cases call with
  | publish frame now =>
    obtain ⟨hring, hok⟩ := h.feed.after_publish frame now
    rcases hp : MediaFeed.publish s.feed frame now with ⟨feed, rc⟩
    rw [hp] at hring hok
    dsimp only at hok
    subst rc
    simp only [step, hp]
    exact ⟨hring, fun i => (h.follows i).publish _⟩
  | read i maxUnits maxBytes now =>
    have hread := h.feed.after_read (s.consumers i).cursor maxUnits maxBytes now
    have hs : SystemInv { s with
        feed := (MediaFeed.read s.feed (s.consumers i).cursor maxUnits maxBytes now).feed } :=
      ⟨hread.1, h.follows⟩
    exact setConsumer_inv hs i ((h.follows i).after_read h.feed maxUnits maxBytes now)
  | discontinuity =>
    exact ⟨h.feed.of_same_ring rfl rfl rfl rfl rfl rfl rfl, h.follows⟩
  | cursorInit i =>
    exact setConsumer_inv h i (Consumer.Follows.fresh _ h.feed.head_eq.le)
  | resync i mode =>
    have hwithin := resync_within h.feed (s.consumers i).cursor mode
    rcases hr : MediaFeed.resync s.feed (s.consumers i).cursor mode with ⟨cursor, rc⟩
    rw [hr] at hwithin
    cases rc with
    | ok =>
      simp only [step, hr]
      exact setConsumer_inv h i (Consumer.Follows.fresh cursor.generation (hwithin rfl))
    | error => simpa only [step, hr] using h
    | again => simpa only [step, hr] using h
    | declined => simpa only [step, hr] using h

theorem initial_inv {conf : Conf} {allocated : Bool} {feed : Feed}
    (h : init conf allocated = some feed) : SystemInv (initial feed) :=
  ⟨init_inv h, fun _ => Consumer.Follows.fresh 0 (Nat.zero_le _)⟩

theorem run_inv {s : System} (h : SystemInv s) (calls : List Call) :
    SystemInv (run s calls) := by
  induction calls generalizing s with
  | nil => exact h
  | cons call calls ih => exact ih (step_inv h call)

def Call.unit : Call → Option Slot
  | .publish frame now => some ⟨frame, now⟩
  | _ => none

theorem step_published {s : System} (h : SystemInv s) (call : Call) :
    (step s call).published = s.published ++ call.unit.toList := by
  cases call with
  | publish frame now =>
    have hok := (h.feed.after_publish frame now).2
    rcases hp : MediaFeed.publish s.feed frame now with ⟨feed, rc⟩
    rw [hp] at hok
    dsimp only at hok
    subst rc
    simp [step, hp, Call.unit]
  | read i maxUnits maxBytes now => simp [step, setConsumer, Call.unit]
  | discontinuity => simp [step, Call.unit]
  | cursorInit i => simp [step, setConsumer, Call.unit]
  | resync i mode =>
    simp only [step, Call.unit, Option.toList_none, List.append_nil]
    split <;> rfl

theorem run_published {s : System} (h : SystemInv s) (calls : List Call) :
    (run s calls).published = s.published ++ calls.filterMap Call.unit := by
  induction calls generalizing s with
  | nil => simp [run]
  | cons call calls ih =>
    have hrest := ih (step_inv h call)
    rw [step_published h call] at hrest
    change (run (step s call) calls).published = _
    rw [hrest, List.append_assoc]
    cases hu : call.unit <;> simp [hu]

def Feed.conf (feed : Feed) : Conf := ⟨feed.maxUnits, feed.maxBytes, feed.maxAge⟩

theorem pruneLoop_conf (now incoming n : ℕ) (feed : Feed) :
    (pruneLoop now incoming n feed).conf = feed.conf := by
  induction n generalizing feed with
  | zero => rfl
  | succ n ih =>
    rw [pruneLoop]
    split_ifs
    · exact ih (evict feed)
    · rfl

theorem publish_conf (feed : Feed) (frame : Frame) (now : ℕ) :
    (publish feed frame now).1.conf = feed.conf := by
  refine Eq.trans ?_ (pruneLoop_conf now frame.size (feed.head - feed.tail) feed)
  unfold publish
  dsimp only
  split_ifs <;> rfl

theorem read_conf (feed : Feed) (cursor : Cursor) (maxUnits maxBytes now : ℕ) :
    (read feed cursor maxUnits maxBytes now).feed.conf = feed.conf := by
  unfold read
  dsimp only
  split_ifs <;> rfl

theorem step_conf (s : System) (call : Call) : (step s call).feed.conf = s.feed.conf := by
  cases call with
  | publish frame now =>
    have hconf := publish_conf s.feed frame now
    simp only [step]
    split <;> simp_all
  | read i maxUnits maxBytes now => exact read_conf s.feed _ maxUnits maxBytes now
  | discontinuity => rfl
  | cursorInit i => rfl
  | resync i mode =>
    simp only [step]
    split <;> rfl

theorem run_conf (s : System) (calls : List Call) : (run s calls).feed.conf = s.feed.conf := by
  induction calls generalizing s with
  | nil => rfl
  | cons call calls ih => exact (ih (step s call)).trans (step_conf s call)

theorem init_conf {conf : Conf} {allocated : Bool} {feed : Feed}
    (h : init conf allocated = some feed) : feed.conf = conf := by
  unfold init at h
  split_ifs at h
  obtain rfl := Option.some.inj h
  rfl

/-- The ring part of the feed's contract, against the units published so far. -/
structure Bounded (feed : Feed) (units : List Slot) : Prop where
  head_eq : feed.head = units.length
  tail_le : feed.tail ≤ feed.head
  units_le : feed.head - feed.tail ≤ feed.maxUnits
  capacity_le : feed.maxUnits ≤ feed.capacity
  bytes_eq : feed.bytes = ((units.drop feed.tail).map Slot.size).sum
  bytes_le : feed.maxBytes ≠ 0 → feed.bytes ≤ feed.maxBytes ∨ feed.head - feed.tail = 1
  held : ∀ s (h : s < units.length), feed.tail ≤ s → feed.slots (feed.index s) = units[s]

structure Delivers (feed : Feed) (units : List Slot) (c : Consumer) : Prop where
  got_eq : c.got = framesBetween units c.start (c.start + c.got.length)
  within : c.start + c.got.length ≤ units.length
  cursor_eq : c.cursor.nextSequence = c.start + c.got.length
  overrun : c.cursor.generation = feed.generation → c.cursor.nextSequence < feed.tail →
    ∀ maxUnits maxBytes now,
      (read feed c.cursor maxUnits maxBytes now).status = .overrun ∧
      (read feed c.cursor maxUnits maxBytes now).cursor = c.cursor ∧
      (read feed c.cursor maxUnits maxBytes now).frames = []
  progress : c.cursor.generation = feed.generation → feed.tail ≤ c.cursor.nextSequence →
    c.cursor.nextSequence < feed.head → ∀ maxUnits maxBytes now, 0 < maxUnits →
      (read feed c.cursor maxUnits maxBytes now).status = .batch ∧
      (read feed c.cursor maxUnits maxBytes now).frames ≠ []

theorem Inv.bounded {feed : Feed} {published : List Slot} (h : Inv feed published) :
    Bounded feed published := by
  refine ⟨h.head_eq, h.tail_le, h.units_le, h.units_cap, h.bytes_eq, h.bytes_le, ?_⟩
  intro s hs ht
  rw [h.index_eq]
  exact h.ring.held s hs ht

theorem SystemInv.delivers {s : System} (h : SystemInv s) (i : ℕ) :
    Delivers s.feed s.published (s.consumers i) := by
  refine ⟨(h.follows i).got_eq, (h.follows i).within, (h.follows i).cursor_eq, ?_, ?_⟩
  · intro hg hlost maxUnits maxBytes now
    exact read_overrun hg hlost maxUnits maxBytes now
  · intro hg hkept havail maxUnits maxBytes now hunits
    exact h.feed.read_progress hg hkept havail hunits maxBytes now

/-- Over every run on an initialised feed the ring stays within its ceilings, holds the
frames it was given, and every consumer gets them gap-free. -/
theorem feed_delivery {conf : Conf} {allocated : Bool} {feed : Feed}
    (h : init conf allocated = some feed) (calls : List Call) :
    (run (initial feed) calls).feed.conf = conf ∧
    Bounded (run (initial feed) calls).feed (calls.filterMap Call.unit) ∧
    ∀ i, Delivers (run (initial feed) calls).feed (calls.filterMap Call.unit)
      ((run (initial feed) calls).consumers i) := by
  have hinv := run_inv (initial_inv h) calls
  have hpub : (run (initial feed) calls).published = calls.filterMap Call.unit :=
    run_published (initial_inv h) calls
  rw [← hpub]
  exact ⟨(run_conf _ calls).trans (init_conf h), hinv.feed.bounded, hinv.delivers⟩

def unitFrame (bytes : Payload) : Frame := { Frame.empty with payload := some bytes }

/-- A consumer two units behind a feed of two. -/
def lateReader : List Call :=
  [.cursorInit 0, .publish (unitFrame [1]) 10, .publish (unitFrame [2, 3]) 20,
    .read 0 1 0 30, .publish (unitFrame [4]) 40, .publish (unitFrame [5]) 50]

theorem feed_delivery_late_reader :
    ∃ feed, init ⟨2, 100, 1000⟩ true = some feed ∧
      (run (initial feed) lateReader).feed.tail = 2 ∧
      ((run (initial feed) lateReader).consumers 0).cursor = ⟨1, 1⟩ ∧
      Bounded (run (initial feed) lateReader).feed (lateReader.filterMap Call.unit) ∧
      ((read (run (initial feed) lateReader).feed
        ((run (initial feed) lateReader).consumers 0).cursor 8 0 60).status = .overrun) := by
  have hrun := @feed_delivery ⟨2, 100, 1000⟩ true _ rfl lateReader
  refine ⟨_, rfl, rfl, rfl, hrun.2.1, ?_⟩
  exact ((hrun.2.2 0).overrun rfl (by decide) 8 0 60).1

/-- Zero bytes mean no byte ceiling, and a batch of no units is empty. -/
theorem feed_zero_limits :
    ∃ feed, init ⟨2, 0, 0⟩ true = some feed ∧
      (let s := run (initial feed)
        [.cursorInit 0, .publish (unitFrame [1]) 10, .publish (unitFrame [2]) 20]
      ¬ (s.feed.bytes ≤ feed.maxBytes ∨ s.feed.head - s.feed.tail = 1) ∧
      s.feed.tail ≤ (s.consumers 0).cursor.nextSequence ∧
      (s.consumers 0).cursor.nextSequence < s.feed.head ∧
      (read s.feed (s.consumers 0).cursor 0 0 30).status = .empty) := by
  refine ⟨_, rfl, ?_⟩
  decide

end MediaFeed
