import NginxMedia.MediaFeed

/-! The complete-GOP standby cache of `ngx_media_source.c`: it opens at a video keyframe,
a newer keyframe replaces it wholesale, and a unit or byte ceiling clears it. -/
namespace MediaPreroll

open MediaTypes MediaFeed

structure Preroll where
  units : ℕ → Frame
  capacity : ℕ
  maxUnits : ℕ
  maxBytes : ℕ
  head : ℕ
  tail : ℕ
  bytes : ℕ
  overflows : ℕ
  unitOverflows : ℕ
  byteOverflows : ℕ
  highWaterUnits : ℕ
  highWaterBytes : ℕ
  haveBoundary : Bool

def defaultUnits : ℕ := 512
def defaultBytes : ℕ := 4 * 1024 * 1024

/-- `sizeof(ngx_media_frame_t)` on a 64-bit target. -/
def frameBytes : ℕ := 64

/-- `ngx_media_source_preroll_init()`; `ngx_media_source_pow2()` is the feed's loop. -/
def init (maxUnits maxBytes : ℕ) (allocated : Bool) : Option Preroll :=
  if maxUnits = 0 ∨ maxBytes = 0 then none
  else if pow2 (maxUnits + 1) = 0 ∨ pow2 (maxUnits + 1) > (2 ^ 64 - 1) / frameBytes then none
  else if allocated = false then none
  else some
    { units := fun _ => Frame.empty
      capacity := pow2 (maxUnits + 1)
      maxUnits := maxUnits
      maxBytes := maxBytes
      head := 0
      tail := 0
      bytes := 0
      overflows := 0
      unitOverflows := 0
      byteOverflows := 0
      highWaterUnits := 0
      highWaterBytes := 0
      haveBoundary := false }

def Preroll.index (p : Preroll) (seq : ℕ) : ℕ := seq &&& (p.capacity - 1)

def resetLoop : ℕ → Preroll → Preroll
  | 0, p => p
  | n + 1, p =>
    if p.tail < p.head then
      resetLoop n { p with
        units := Function.update p.units (p.index p.tail) Frame.empty
        tail := p.tail + 1 }
    else p

def reset (p : Preroll) : Preroll :=
  { resetLoop (p.head - p.tail) p with head := 0, tail := 0, bytes := 0, haveBoundary := false }

/-- The boundary rule of `ngx_media_source_preroll_push()`: the cache the frame goes to,
or nothing when the frame is not decodable from here. -/
def opened (p : Preroll) (hasVideo : Bool) (frame : Frame) : Option Preroll :=
  if frame.mediaType = .video then
    if frame.keyframe then some { reset p with haveBoundary := true }
    else if p.haveBoundary then some p
    else none
  else if p.haveBoundary then some p
  else if hasVideo then none
  else some { p with haveBoundary := true }

def store (p : Preroll) (frame : Frame) : Preroll :=
  let bytes := p.bytes + frame.size
  let units := p.head + 1 - p.tail
  { p with
    units := Function.update p.units (p.index p.head) frame
    head := p.head + 1
    bytes := bytes
    highWaterUnits := if units > p.highWaterUnits then units else p.highWaterUnits
    highWaterBytes := if bytes > p.highWaterBytes then bytes else p.highWaterBytes }

def push (p : Preroll) (hasVideo : Bool) (frame : Frame) : Preroll × Rc :=
  match opened p hasVideo frame with
  | none => (p, .ok)
  | some p =>
    if p.head - p.tail ≥ p.capacity then
      (reset { p with overflows := p.overflows + 1, unitOverflows := p.unitOverflows + 1 },
        .again)
    else
      let p := store p frame
      if p.head - p.tail > p.maxUnits ∨ p.bytes > p.maxBytes then
        (reset { p with
          overflows := p.overflows + 1
          unitOverflows :=
            if p.head - p.tail > p.maxUnits then p.unitOverflows + 1 else p.unitOverflows
          byteOverflows :=
            if p.bytes > p.maxBytes then p.byteOverflows + 1 else p.byteOverflows }, .again)
      else (p, .ok)

/-- The frames `ngx_media_source_preroll_replay()` hands out, oldest first. -/
def Preroll.frames (p : Preroll) : List Frame :=
  (List.range' p.tail (p.head - p.tail)).map fun seq => p.units (p.index seq)

def Preroll.ready (p : Preroll) : Bool := p.haveBoundary && decide (p.head > p.tail)

/-- The ring's geometry: the cache starts over at zero after every reset and never fills
its ring. -/
structure Geometry (p : Preroll) : Prop where
  tail_eq : p.tail = 0
  pow2_cap : ∃ k, p.capacity = 2 ^ k
  units_cap : p.maxUnits < p.capacity
  units_pos : 0 < p.maxUnits
  units_le : p.head ≤ p.maxUnits

structure Inv (p : Preroll) : Prop extends Geometry p where
  boundary : p.haveBoundary = decide (0 < p.head)
  opener : 0 < p.head → (p.units 0).mediaType = .video → (p.units 0).keyframe = true

theorem init_inv {maxUnits maxBytes : ℕ} {allocated : Bool} {p : Preroll}
    (h : init maxUnits maxBytes allocated = some p) : Inv p := by
  unfold init at h
  split_ifs at h with hz hp ha
  obtain rfl := Option.some.inj h
  rcases pow2Loop_spec (maxUnits + 1) 64 0 rfl with h0 | ⟨j, hj, hn⟩
  · exact absurd (Or.inl h0) hp
  · have hcap : pow2 (maxUnits + 1) = 2 ^ j := hj
    have hfits : maxUnits + 1 ≤ 2 ^ j := by
      rcases hn with hn | rfl
      · exact hn
      · rw [hcap, frameBytes] at hp
        omega
    exact ⟨⟨rfl, ⟨j, hcap⟩, by dsimp only; omega, by dsimp only; omega, Nat.zero_le _⟩, rfl,
      fun h0 => absurd h0 (Nat.lt_irrefl 0)⟩

theorem resetLoop_limits (n : ℕ) (p : Preroll) :
    (resetLoop n p).capacity = p.capacity ∧ (resetLoop n p).maxUnits = p.maxUnits ∧
      (resetLoop n p).maxBytes = p.maxBytes := by
  induction n generalizing p with
  | zero => exact ⟨rfl, rfl, rfl⟩
  | succ n ih =>
    rw [resetLoop]
    split_ifs
    · exact ih _
    · exact ⟨rfl, rfl, rfl⟩

theorem reset_limits (p : Preroll) :
    (reset p).capacity = p.capacity ∧ (reset p).maxUnits = p.maxUnits ∧
      (reset p).maxBytes = p.maxBytes :=
  resetLoop_limits _ p

theorem reset_frames (p : Preroll) : (reset p).frames = [] := rfl

theorem reset_inv {p : Preroll} (hpow : ∃ k, p.capacity = 2 ^ k)
    (hcap : p.maxUnits < p.capacity) (hpos : 0 < p.maxUnits) : Inv (reset p) := by
  obtain ⟨hc, hu, _⟩ := reset_limits p
  refine ⟨⟨rfl, by rwa [hc], by rwa [hc, hu], by rwa [hu], Nat.zero_le _⟩, rfl, ?_⟩
  intro h0
  exact absurd h0 (Nat.lt_irrefl 0)

theorem Inv.after_reset {p : Preroll} (h : Inv p) : Inv (reset p) :=
  reset_inv h.pow2_cap h.units_cap h.units_pos

theorem Geometry.index_eq {p : Preroll} (h : Geometry p) {seq : ℕ} (hs : seq < p.capacity) :
    p.index seq = seq := by
  obtain ⟨k, hk⟩ := h.pow2_cap
  rw [Preroll.index, hk, Nat.and_two_pow_sub_one_eq_mod, ← hk, Nat.mod_eq_of_lt hs]

theorem Inv.frames_eq {p : Preroll} (h : Inv p) :
    p.frames = (List.range p.head).map p.units := by
  have hu := h.units_le
  have hc := h.units_cap
  rw [Preroll.frames, h.tail_eq, Nat.sub_zero, ← List.range_eq_range']
  apply List.map_congr_left
  intro seq hseq
  rw [h.index_eq (by have := List.mem_range.mp hseq; omega)]

theorem Inv.frames_nil_iff {p : Preroll} (h : Inv p) : p.frames = [] ↔ p.head = 0 := by
  rw [h.frames_eq]
  simp

theorem Inv.ready_iff {p : Preroll} (h : Inv p) : p.ready = true ↔ p.frames ≠ [] := by
  rw [Preroll.ready, h.boundary, h.tail_eq, ne_eq, h.frames_nil_iff]
  simp
  omega

def Fits (p : Preroll) (frame : Frame) : Prop :=
  p.head + 1 ≤ p.maxUnits ∧ p.bytes + frame.size ≤ p.maxBytes

instance (p : Preroll) (frame : Frame) : Decidable (Fits p frame) :=
  inferInstanceAs (Decidable (_ ∧ _))

/-- What the boundary rule hands on: an emptied cache at a video keyframe, the cache
itself while it is open, or the still empty one of a source without video. -/
theorem Inv.opened_cases {p q : Preroll} {hasVideo : Bool} {frame : Frame} (h : Inv p)
    (ho : opened p hasVideo frame = some q) :
    (frame.mediaType = .video ∧ frame.keyframe = true ∧
        q = { reset p with haveBoundary := true }) ∨
      (0 < p.head ∧ (frame.mediaType = .video → frame.keyframe = false) ∧ q = p) ∨
      (p.head = 0 ∧ frame.mediaType ≠ .video ∧ hasVideo = false ∧
        q = { p with haveBoundary := true }) := by
  have hb := h.boundary
  unfold opened at ho
  split_ifs at ho with hvideo hkey hopen hopen hhas
  · exact Or.inl ⟨hvideo, hkey, (Option.some.inj ho).symm⟩
  · rw [hb] at hopen
    exact Or.inr (Or.inl ⟨of_decide_eq_true hopen, fun _ => by simpa using hkey,
      (Option.some.inj ho).symm⟩)
  · rw [hb] at hopen
    exact Or.inr (Or.inl ⟨of_decide_eq_true hopen, fun hv => absurd hv hvideo,
      (Option.some.inj ho).symm⟩)
  · rw [hb] at hopen
    exact Or.inr (Or.inr ⟨by simpa using hopen, hvideo, by simpa using hhas,
      (Option.some.inj ho).symm⟩)

theorem Geometry.store_frames {p : Preroll} (h : Geometry p) (frame : Frame) :
    (store p frame).frames = (List.range p.head).map p.units ++ [frame] := by
  have hu := h.units_le
  have hc := h.units_cap
  have hidx : ∀ seq < p.capacity, (store p frame).index seq = seq :=
    fun seq hs => h.index_eq hs
  have htail : (store p frame).tail = 0 := h.tail_eq
  have hhead : (store p frame).head = p.head + 1 := rfl
  rw [Preroll.frames, htail, hhead, Nat.sub_zero, ← List.range_eq_range', List.range_succ,
    List.map_append, List.map_singleton, hidx p.head (by omega)]
  congr 1
  · apply List.map_congr_left
    intro seq hseq
    have hlt := List.mem_range.mp hseq
    rw [hidx seq (by omega), store]
    dsimp only
    rw [h.index_eq (by omega), Function.update_of_ne (by omega)]
  · simp [store, h.index_eq (show p.head < p.capacity by omega)]

theorem Inv.push_spec {p : Preroll} (h : Inv p) (hasVideo : Bool) (frame : Frame) :
    Inv (push p hasVideo frame).1 ∧
      (((push p hasVideo frame).1 = p ∧ opened p hasVideo frame = none) ∨
        ∃ q, opened p hasVideo frame = some q ∧
          (push p hasVideo frame).1.frames =
            if Fits q frame then (List.range q.head).map q.units ++ [frame] else []) := by
  unfold push
  cases ho : opened p hasVideo frame with
  | none => exact ⟨h, Or.inl ⟨rfl, rfl⟩⟩
  | some q =>
    obtain ⟨hrc, hru, hrb⟩ := reset_limits p
    have hgeo : Geometry q ∧ q.haveBoundary = true ∧
        (0 < q.head → (q.units 0).mediaType = .video → (q.units 0).keyframe = true) ∧
        (q.head = 0 → frame.mediaType = .video → frame.keyframe = true) := by
      rcases h.opened_cases ho with ⟨_, hk, rfl⟩ | ⟨hh, hk, rfl⟩ | ⟨hh, hv, _, rfl⟩
      · have hr := h.after_reset.toGeometry
        exact ⟨⟨rfl, hr.pow2_cap, hr.units_cap, hr.units_pos, Nat.zero_le _⟩, rfl,
          fun h0 => absurd h0 (Nat.lt_irrefl 0), fun _ _ => hk⟩
      · refine ⟨h.toGeometry, ?_, h.opener, fun h0 => by omega⟩
        rw [h.boundary]
        exact decide_eq_true hh
      · exact ⟨⟨h.tail_eq, h.pow2_cap, h.units_cap, h.units_pos, h.units_le⟩, rfl, h.opener,
          fun _ hvideo => absurd hvideo hv⟩
    obtain ⟨hg, hb, hopen, hfirst⟩ := hgeo
    have htail := hg.tail_eq
    have hcap := hg.units_cap
    have hle := hg.units_le
    have hstail : (store q frame).tail = 0 := hg.tail_eq
    have hshead : (store q frame).head = q.head + 1 := rfl
    have hsbytes : (store q frame).bytes = q.bytes + frame.size := rfl
    have hsunits : (store q frame).maxUnits = q.maxUnits := rfl
    have hsmax : (store q frame).maxBytes = q.maxBytes := rfl
    dsimp only
    rw [if_neg (by omega)]
    by_cases hfit : Fits q frame
    · have hfit' := hfit
      rw [Fits] at hfit'
      rw [if_neg (by omega)]
      refine ⟨⟨⟨hstail, hg.pow2_cap, hg.units_cap, hg.units_pos, ?_⟩, ?_, ?_⟩,
        Or.inr ⟨q, rfl, ?_⟩⟩
      · exact hfit'.1
      · rw [hshead]
        exact hb.trans (decide_eq_true (by omega)).symm
      · intro _
        by_cases h0 : q.head = 0
        · have hunit : (store q frame).units 0 = frame := by
            simp [store, h0, hg.index_eq (show 0 < q.capacity by omega)]
          rw [hunit]
          exact hfirst h0
        · have hunit : (store q frame).units 0 = q.units 0 := by
            rw [store]
            dsimp only
            rw [hg.index_eq (by omega), Function.update_of_ne (by omega)]
          rw [hunit]
          exact hopen (by omega)
      · rw [if_pos hfit]
        exact hg.store_frames frame
    · have hfit' := hfit
      rw [Fits] at hfit'
      rw [if_pos (by omega)]
      exact ⟨reset_inv hg.pow2_cap hg.units_cap hg.units_pos,
        Or.inr ⟨q, rfl, by rw [if_neg hfit]; rfl⟩⟩

theorem Inv.push_mem {p : Preroll} (h : Inv p) (hasVideo : Bool) (frame : Frame) {f : Frame}
    (hf : f ∈ (push p hasVideo frame).1.frames) : f ∈ p.frames ∨ f = frame := by
  obtain ⟨_, ⟨hp, _⟩ | ⟨q, ho, hq⟩⟩ := h.push_spec hasVideo frame
  · rw [hp] at hf
    exact Or.inl hf
  · rw [hq] at hf
    split_ifs at hf with hfit
    · rcases List.mem_append.mp hf with hf | hf
      · rcases h.opened_cases ho with ⟨_, _, rfl⟩ | ⟨_, _, rfl⟩ | ⟨h0, _, _, rfl⟩
        · simp [reset] at hf
        · rw [← h.frames_eq] at hf
          exact Or.inl hf
        · simp [h0] at hf
      · exact Or.inr (List.mem_singleton.mp hf)
    · simp at hf

theorem Inv.push_keyframe {p : Preroll} (h : Inv p) (hasVideo : Bool) {frame : Frame}
    (hv : frame.mediaType = .video) (hk : frame.keyframe = true)
    (hsize : frame.size ≤ p.maxBytes) : (push p hasVideo frame).1.frames = [frame] := by
  have ho : opened p hasVideo frame = some { reset p with haveBoundary := true } := by
    simp [opened, hv, hk]
  obtain ⟨hrc, hru, hrb⟩ := reset_limits p
  obtain ⟨_, ⟨_, hn⟩ | ⟨q, hq, hfr⟩⟩ := h.push_spec hasVideo frame
  · rw [ho] at hn
    exact absurd hn (by simp)
  · rw [ho] at hq
    obtain rfl := Option.some.inj hq
    have hpos := h.units_pos
    have hfit : Fits { reset p with haveBoundary := true } frame :=
      ⟨by dsimp only; rw [hru]; exact hpos, by
        dsimp only
        rw [hrb]
        change 0 + frame.size ≤ p.maxBytes
        omega⟩
    rw [hfr, if_pos hfit]
    rfl

theorem Inv.push_append {p : Preroll} (h : Inv p) (hasVideo : Bool) {frame : Frame}
    (hv : frame.mediaType = .video → frame.keyframe = false) (hopen : 0 < p.head)
    (hfit : Fits p frame) : (push p hasVideo frame).1.frames = p.frames ++ [frame] := by
  have hb : p.haveBoundary = true := by rw [h.boundary]; exact decide_eq_true hopen
  have ho : opened p hasVideo frame = some p := by
    unfold opened
    by_cases hvideo : frame.mediaType = .video
    · simp [hvideo, hv hvideo, hb]
    · simp [hvideo, hb]
  obtain ⟨_, ⟨_, hn⟩ | ⟨q, hq, hfr⟩⟩ := h.push_spec hasVideo frame
  · rw [ho] at hn
    exact absurd hn (by simp)
  · rw [ho] at hq
    obtain rfl := Option.some.inj hq
    rw [hfr, if_pos hfit, h.frames_eq]

theorem Inv.head_keyframe {p : Preroll} (h : Inv p) {f : Frame}
    (hf : p.frames.head? = some f) (hv : f.mediaType = .video) : f.keyframe = true := by
  rw [h.frames_eq] at hf
  have hpos : 0 < p.head := by
    by_contra h0
    simp [show p.head = 0 by omega] at hf
  have hfirst : f = p.units 0 := by
    obtain ⟨n, hn⟩ := Nat.exists_eq_succ_of_ne_zero (Nat.pos_iff_ne_zero.mp hpos)
    rw [hn, List.range_succ_eq_map] at hf
    simpa using hf.symm
  rw [hfirst] at hv ⊢
  exact h.opener hpos hv

end MediaPreroll
