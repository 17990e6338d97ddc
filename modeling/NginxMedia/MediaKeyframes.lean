import NginxMedia.MediaFeed

/-! Where `ngx_media_feed_resync()` puts a cursor in keyframe mode: at the last unit published with
the keyframe flag, whatever its track, which is a video keyframe only if that unit was video. -/
namespace MediaKeyframes

open MediaTypes MediaFeed SequenceRing

variable {p : Slot → Prop} {units : List Slot} {slot : Slot} {feed : Feed} {conf : Conf}
  {allocated : Bool} {i : ℕ}

structure LastAt (p : Slot → Prop) (units : List Slot) (i : ℕ) : Prop where
  is_kind : ∃ slot, units[i]? = some slot ∧ p slot
  later : ∀ j slot, i < j → units[j]? = some slot → ¬p slot

def Flagged (slot : Slot) : Prop := slot.frame.keyframe = true

def VideoKeyframe (slot : Slot) : Prop :=
  slot.frame.mediaType = .video ∧ slot.frame.keyframe = true

def LastVideo (units : List Slot) : Prop :=
  ∀ i slot, LastAt Flagged units i → units[i]? = some slot → slot.frame.mediaType = .video

def Marked (feed : Feed) (units : List Slot) : Prop :=
  feed.hasKeyframe = true → LastAt Flagged units feed.lastKeyframe

theorem LastAt.append (h : LastAt p units i) (hslot : ¬p slot) : LastAt p (units ++ [slot]) i := by
  obtain ⟨old, hold, hkind⟩ := h.is_kind
  refine ⟨⟨old, List.getElem?_append_left (List.getElem?_eq_some_iff.mp hold).1 ▸ hold, hkind⟩, ?_⟩
  intro j x hij hx
  rcases Nat.lt_or_ge j units.length with hlt | hge
  · rw [List.getElem?_append_left hlt] at hx
    exact h.later j x hij hx
  · rw [List.getElem?_append_right hge] at hx
    have hmem := List.mem_of_getElem? hx
    exact List.mem_singleton.mp hmem ▸ hslot

theorem lastAt_last (hslot : p slot) : LastAt p (units ++ [slot]) units.length := by
  refine ⟨⟨slot, List.getElem?_concat_length, hslot⟩, fun j x hj hx => ?_⟩
  have hlt := (List.getElem?_eq_some_iff.mp hx).1
  rw [List.length_append, List.length_singleton] at hlt
  omega

theorem lastAt_unique {j : ℕ} (h : LastAt p units i) (h' : LastAt p units j) : i = j := by
  obtain ⟨x, hx, hp⟩ := h.is_kind
  obtain ⟨y, hy, hq⟩ := h'.is_kind
  rcases Nat.lt_trichotomy i j with hlt | heq | hlt
  · exact absurd hq (h.later j y hlt hy)
  · exact heq
  · exact absurd hp (h'.later i x hlt hx)

theorem pruneLoop_keyframe (now incoming n : ℕ) (feed : Feed) :
    (pruneLoop now incoming n feed).hasKeyframe = feed.hasKeyframe ∧
      (pruneLoop now incoming n feed).lastKeyframe = feed.lastKeyframe := by
  induction n generalizing feed with
  | zero => exact ⟨rfl, rfl⟩
  | succ n ih =>
    rw [pruneLoop]
    split_ifs
    · exact ih (evict feed)
    · exact ⟨rfl, rfl⟩

theorem publish_marked (h : Inv feed units) (hm : Marked feed units) (frame : Frame) (now : ℕ) :
    Marked (publish feed frame now).1 (units ++ [⟨frame, now⟩]) := by
  obtain ⟨hhas, hlast⟩ := pruneLoop_keyframe now frame.size (feed.head - feed.tail) feed
  have hhead := (h.after_prune now frame.size).1.head_eq
  have hpublished : (publish feed frame now).1 = insert (prune feed now frame.size) frame now := by
    have hok := (h.after_publish frame now).2
    unfold publish at hok ⊢
    dsimp only at hok ⊢
    split_ifs at hok ⊢
    rfl
  intro hsome
  rw [hpublished] at hsome ⊢
  unfold MediaFeed.insert at hsome ⊢
  dsimp only at hsome ⊢
  cases hflag : frame.keyframe with
  | true =>
    rw [if_pos rfl, hhead]
    exact lastAt_last hflag
  | false =>
    rw [hflag, if_neg Bool.noConfusion] at hsome
    rw [if_neg Bool.noConfusion]
    have hold := hm (hhas.symm.trans hsome)
    rw [← hlast] at hold
    exact hold.append fun h => Bool.noConfusion (hflag.symm.trans h)

theorem read_keyframe (feed : Feed) (cursor : Cursor) (maxUnits maxBytes now : ℕ) :
    (read feed cursor maxUnits maxBytes now).feed.hasKeyframe = feed.hasKeyframe ∧
      (read feed cursor maxUnits maxBytes now).feed.lastKeyframe = feed.lastKeyframe := by
  unfold MediaFeed.read
  dsimp only
  split_ifs <;> exact ⟨rfl, rfl⟩

theorem step_marked {s : System} (h : SystemInv s) (hm : Marked s.feed s.published) (call : Call) :
    Marked (step s call).feed (step s call).published := by
  cases call with
  | publish frame now =>
    have hmarked := publish_marked h.feed hm frame now
    have hok := (h.feed.after_publish frame now).2
    rcases hp : MediaFeed.publish s.feed frame now with ⟨feed, rc⟩
    rw [hp] at hmarked hok
    dsimp only at hok
    subst rc
    simp only [step, hp]
    exact hmarked
  | read i maxUnits maxBytes now =>
    obtain ⟨hhas, hlast⟩ := read_keyframe s.feed (s.consumers i).cursor maxUnits maxBytes now
    intro hsome
    change LastAt Flagged s.published
      (MediaFeed.read s.feed (s.consumers i).cursor maxUnits maxBytes now).feed.lastKeyframe
    rw [hlast]
    exact hm (hhas.symm.trans hsome)
  | discontinuity => exact hm
  | cursorInit i => exact hm
  | resync i mode =>
    simp only [step]
    split <;> exact hm

theorem run_marked {s : System} (h : SystemInv s) (hm : Marked s.feed s.published)
    (calls : List Call) : Marked (run s calls).feed (run s calls).published := by
  induction calls generalizing s with
  | nil => exact hm
  | cons call calls ih => exact ih (step_inv h call) (step_marked h hm call)

theorem initial_marked (h : init conf allocated = some feed) : Marked feed [] := by
  unfold init at h
  split_ifs at h
  cases h
  exact Bool.noConfusion

structure Lands (s : System) (c : Cursor) : Prop where
  latest : LastAt VideoKeyframe s.published c.nextSequence
  retained : s.feed.tail ≤ c.nextSequence ∧ c.nextSequence < s.feed.head
  next : ∀ maxUnits maxBytes now, 0 < maxUnits → ∃ slot rest,
    s.published[c.nextSequence]? = some slot ∧ VideoKeyframe slot ∧
      (read s.feed c maxUnits maxBytes now).frames = slot.frame :: rest

theorem read_first {s : System} (h : SystemInv s) {c : Cursor}
    (hgen : c.generation = s.feed.generation) (htail : s.feed.tail ≤ c.nextSequence)
    (hslot : s.published[c.nextSequence]? = some slot) {maxUnits : ℕ} (hunits : 0 < maxUnits)
    (maxBytes now : ℕ) :
    ∃ rest, (read s.feed c maxUnits maxBytes now).frames = slot.frame :: rest := by
  obtain ⟨hlt, hget⟩ := List.getElem?_eq_some_iff.mp hslot
  have hsome := (h.feed.read_progress hgen htail (h.feed.head_eq ▸ hlt) hunits maxBytes now).2
  obtain ⟨n, -, hframes, -⟩ := h.feed.read_frames c maxUnits maxBytes now
  rw [hframes] at hsome ⊢
  have hn : n ≠ 0 := by
    rintro rfl
    exact hsome (framesBetween_self _ _)
  rw [framesBetween_cons hlt (by omega), hget]
  exact ⟨_, rfl⟩

/-- In every run, a cursor that a resync puts on a keyframe is on the latest video keyframe exactly
if the last unit published with the keyframe flag is video. -/
theorem keyframe_resync_iff (hfeed : init conf allocated = some feed) (calls : List Call)
    (hkept : keyframeRetained (run (initial feed) calls).feed) (c : Cursor) :
    Lands (run (initial feed) calls)
        (resync (run (initial feed) calls).feed c resyncKeyframe).1 ↔
      LastVideo (calls.filterMap Call.unit) := by
  have hinv := run_inv (initial_inv hfeed) calls
  have hmarked := run_marked (initial_inv hfeed) (initial_marked hfeed) calls
  have hunits := run_published (initial_inv hfeed) calls
  change (run (initial feed) calls).published = [] ++ _ at hunits
  rw [List.nil_append] at hunits
  rw [← hunits]
  generalize run (initial feed) calls = s at hkept hinv hmarked
  obtain ⟨hsome, htail, hhead⟩ := hkept
  have hlast := hmarked hsome
  obtain ⟨slot, hslot, hflag⟩ := hlast.is_kind
  have hcursor : (resync s.feed c resyncKeyframe).1 =
      ⟨s.feed.generation, s.feed.lastKeyframe⟩ := by
    unfold resync
    rw [if_neg (by decide), if_pos rfl, if_pos ⟨hsome, htail, hhead⟩]
  rw [hcursor]
  constructor
  · intro hlands i x hx hget
    obtain rfl := lastAt_unique hx hlast
    obtain ⟨y, hy, hvideo, -⟩ := hlands.latest.is_kind
    exact Option.some.inj (hget.symm.trans hy) ▸ hvideo
  · intro hvideo
    have hkind : VideoKeyframe slot := ⟨hvideo _ slot hlast hslot, hflag⟩
    refine ⟨⟨⟨slot, hslot, hkind⟩, fun j x hj hx h => hlast.later j x hj hx h.2⟩, ⟨htail, hhead⟩,
      fun maxUnits maxBytes now hpos => ?_⟩
    obtain ⟨rest, hread⟩ := read_first (c := ⟨s.feed.generation, s.feed.lastKeyframe⟩) hinv rfl htail
      hslot hpos maxBytes now
    exact ⟨slot, rest, hslot, hkind, hread⟩

/-- A keyframe, and audio as the demuxers flag it. -/
def videoFrame : Frame := { unitFrame [1] with keyframe := true }

def audioFrame : Frame := { unitFrame [2] with mediaType := .audio, keyframe := true }

theorem keyframe_resync_iff_video :
    ∃ feed, init ⟨4, 0, 0⟩ true = some feed ∧
      (Lands (run (initial feed) [.publish audioFrame 1, .publish videoFrame 2])
        (resync (run (initial feed) [.publish audioFrame 1, .publish videoFrame 2]).feed ⟨0, 0⟩
          resyncKeyframe).1 ↔ LastVideo [⟨audioFrame, 1⟩, ⟨videoFrame, 2⟩]) :=
  ⟨_, rfl, @keyframe_resync_iff _ ⟨4, 0, 0⟩ true rfl [.publish audioFrame 1, .publish videoFrame 2]
    (by decide) ⟨0, 0⟩⟩

/-- The keyframe is there, and the cursor is put behind it. -/
theorem audio_resynced :
    ∃ feed, init ⟨4, 0, 0⟩ true = some feed ∧
      keyframeRetained (run (initial feed) [.publish videoFrame 1, .publish audioFrame 2]).feed ∧
      ¬Lands (run (initial feed) [.publish videoFrame 1, .publish audioFrame 2])
        (resync (run (initial feed) [.publish videoFrame 1, .publish audioFrame 2]).feed ⟨0, 0⟩
          resyncKeyframe).1 := by
  refine ⟨_, rfl, by decide, fun h => ?_⟩
  obtain ⟨slot, hslot, hvideo, -⟩ := h.latest.is_kind
  cases hslot
  cases hvideo

end MediaKeyframes
