import NginxMedia.HlsWindow

/-! How long and how large segments become. The two ceilings are tested on what a segment has
already reached, so they hold where the slice that a cut waits for comes in time and fits. -/
namespace HlsLimits

open ByteString HlsSegmenter HlsWindow
open TsMux (Slice Burst)

variable {hls : Hls} {io : ℕ → Io} {burst : Burst} {slice : Slice}

def Within (conf : Conf) (segment : Segment) : Prop :=
  segment.duration ≤ conf.maxDuration ∧ segment.bytes ≤ conf.maxSegmentBytes

def refused (hls : Hls) (slice : Slice) : Bool := hls.started = false ∧ keySlice slice = false

def fresh (hls : Hls) (slice : Slice) : Bool :=
  hls.pieces = [] ∨ keyframeDue (opened hls slice) slice ∨ durationDue (opened hls slice) slice

theorem fresh_iff : fresh hls slice = true ↔
    hls.pieces = [] ∨ keyframeDue (opened hls slice) slice ∨ durationDue (opened hls slice) slice :=
  decide_eq_true_iff

def Fits (hls : Hls) : Move → Prop
  | .slice burst slice =>
    refused hls slice = false →
      (hls.started = true → ms (slice.dts - hls.firstDts) ≤ hls.conf.maxDuration) ∧
      (fresh hls slice = true → burst.psiLen + slice.len ≤ hls.conf.maxSegmentBytes) ∧
      (fresh hls slice = false → hls.pieces.length < maxPieces →
        hls.bytes + slice.len ≤ hls.conf.maxSegmentBytes)
  | _ => True

structure Limited (hls : Hls) : Prop where
  sound : Sound hls.shelf
  filed : ∀ s ∈ written hls.files, Within hls.conf s
  targets : ∀ p ∈ playlists hls.files, p.target = (playlist hls).target

structure Pending (hls : Hls) : Prop where
  started : hls.pieces ≠ [] → hls.started = true
  duration : hls.pieces ≠ [] → ms (hls.lastDts - hls.firstDts) ≤ hls.conf.maxDuration
  bytes : hls.pieces ≠ [] → hls.bytes ≤ hls.conf.maxSegmentBytes
  empty : hls.pieces = [] → hls.bytes = 0

theorem cut_conf (io : ℕ → Io) (hls : Hls) : (cut io hls).conf = hls.conf := by
  rcases cut_cases io hls with ⟨heq, -⟩ | ⟨heq, -⟩ | ⟨⟨gone, rest, more, ha⟩, -⟩
  · rw [heq]
  · exact congrArg Shelf.conf heq
  · exact congrArg Shelf.conf ha.shelf

theorem limited_cut (io : ℕ → Io) (hl : Limited hls) (hw : hls.pieces ≠ [] → Within hls.conf (closing hls)) :
    Limited (cut io hls) := by
  refine ⟨sound_cut hl.sound, ?_, ?_⟩
  · rw [cut_conf]
    rcases cut_cases io hls with ⟨heq, -⟩ | ⟨heq, -⟩ | ⟨⟨gone, rest, more, ha⟩, hne, -⟩
    · rw [heq]
      exact hl.filed
    · rw [show (cut io hls).files = hls.files from congrArg Shelf.files heq]
      exact hl.filed
    · intro s hs
      rw [show (cut io hls).files = (cut io hls).shelf.files from rfl, admits_written ha,
        List.mem_append, List.mem_singleton] at hs
      rcases hs with hs | rfl
      · exact hl.filed s hs
      · exact hw hne
  · have htarget : (playlist (cut io hls)).target = (playlist hls).target := by
      unfold playlist
      rw [cut_conf]
    rcases cut_cases io hls with ⟨heq, -⟩ | ⟨heq, -⟩ | ⟨⟨gone, rest, more, ha⟩, -, -⟩
    · rw [heq]
      exact hl.targets
    · rw [show (cut io hls).files = hls.files from congrArg Shelf.files heq, htarget]
      exact hl.targets
    · intro p hp
      rw [show (cut io hls).files = (cut io hls).shelf.files from rfl, admits_playlists ha,
        List.mem_append] at hp
      rcases hp with hp | hp
      · rw [htarget]
        exact hl.targets p hp
      · rw [(admits_listed ha hp).1]

theorem Pending.of_reset (other : Hls) (h : hls = reset other) : Pending hls := by
  subst h
  exact ⟨fun h => absurd rfl h, fun h => absurd rfl h, fun h => absurd rfl h, fun _ => rfl⟩

theorem Pending.within (hp : Pending hls) (hne : hls.pieces ≠ []) :
    Within hls.conf (closing hls) := ⟨hp.duration hne, hp.bytes hne⟩

theorem boundary_limited (io : ℕ → Io) (hl : Limited hls) (hp : Pending hls)
    (htime : ms (slice.dts - hls.firstDts) ≤ hls.conf.maxDuration) :
    Limited (boundary io hls slice) := by
  have hcut : Limited (cut io (extended hls slice)) := by
    unfold extended
    split_ifs with hlater
    · have hsame : Limited { hls with lastDts := slice.dts } := ⟨hl.sound, hl.filed, hl.targets⟩
      apply limited_cut io hsame
      intro hne
      constructor
      · exact htime
      · exact hp.bytes hne
    · exact limited_cut io hl hp.within
  unfold boundary
  split_ifs
  · exact ⟨hcut.sound, hcut.filed, hcut.targets⟩
  · exact ⟨hcut.sound, hcut.filed, hcut.targets⟩
  · exact hl

theorem boundary_due (io : ℕ → Io) (hl : Limited hls)
    (hdue : keyframeDue hls slice ∨ durationDue hls slice) :
    (boundary io hls slice).pieces = [] ∧ (boundary io hls slice).bytes = 0 ∧
      (boundary io hls slice).firstDts = slice.dts ∧
      (boundary io hls slice).started = true := by
  have hne : (extended hls slice).pieces ≠ [] := by
    have : hls.pieces ≠ [] := by
      rcases hdue with h | h
      · exact (keyframeDue_iff.mp h).1
      · exact (durationDue_iff.mp h).1
    unfold extended
    split_ifs
    · exact this
    · exact this
  have hsound : Sound (extended hls slice).shelf := by
    rw [shelf_extended]
    exact hl.sound
  obtain ⟨other, heq⟩ := cut_reset io hsound hne
  unfold boundary
  split_ifs with hkey hmax
  · rw [heq]
    exact ⟨rfl, rfl, rfl, rfl⟩
  · rw [heq]
    exact ⟨rfl, rfl, rfl, rfl⟩
  · exact absurd hdue (by simp [hkey, hmax])

theorem boundary_conf (io : ℕ → Io) (hls : Hls) (slice : Slice) :
    (boundary io hls slice).conf = hls.conf := by
  have hcut : (cut io (extended hls slice)).conf = hls.conf := by
    rw [cut_conf]
    exact congrArg Shelf.conf (shelf_extended hls slice)
  unfold boundary
  split_ifs
  · exact hcut
  · exact hcut
  · rfl

theorem append_pending {next : Hls} (hl : Limited next) (hroom : next.pieces.length < maxPieces)
    (hstart : next.started = true)
    (htime : ms (slice.dts - next.firstDts) ≤ next.conf.maxDuration)
    (hbytes : next.bytes + (if next.pieces = [] then burst.psiLen else 0) + slice.len ≤
      next.conf.maxSegmentBytes) :
    Limited (append io burst next slice) ∧ Pending (append io burst next slice) := by
  have hfits : ¬ next.bytes + (if next.pieces = [] then burst.psiLen else 0) + slice.len >
      next.conf.maxSegmentBytes := Nat.not_lt.mpr hbytes
  have hne : next.pieces ++ slicePieces burst (decide (next.pieces = [])) slice ≠ [] := by
    unfold slicePieces
    simp
  rw [append, filled_eq hroom]
  dsimp only
  rw [if_neg hfits]
  refine ⟨⟨hl.sound, hl.filed, hl.targets⟩, ?_⟩
  exact ⟨fun _ => hstart, fun _ => htime, fun _ => hbytes, fun h => absurd h hne⟩

theorem pending_opened (hp : Pending hls) (slice : Slice) : Pending (opened hls slice) := by
  obtain ⟨hpieces, hbytes, hstart, -, hfirst, hlast⟩ := opened_fields hls slice
  have hconf : (opened hls slice).conf = hls.conf :=
    congrArg Shelf.conf (shelf_opened hls slice)
  constructor
  · exact fun _ => hstart
  · intro hne
    rw [hpieces] at hne
    rw [hfirst, hlast, hconf, hp.started hne]
    exact hp.duration hne
  · intro hne
    rw [hpieces] at hne
    rw [hbytes, hconf]
    exact hp.bytes hne
  · intro he
    rw [hpieces] at he
    rw [hbytes]
    exact hp.empty he

theorem limited_opened (hl : Limited hls) (slice : Slice) : Limited (opened hls slice) := by
  have hshelf := shelf_opened hls slice
  have hconf : (opened hls slice).conf = hls.conf := congrArg Shelf.conf hshelf
  have hfiles : (opened hls slice).files = hls.files := congrArg Shelf.files hshelf
  constructor
  · rw [hshelf]
    exact hl.sound
  · rw [hconf, hfiles]
    exact hl.filed
  · rw [hfiles]
    intro p hp
    rw [hl.targets p hp, playlist, playlist, hconf]

theorem slice_limited (hl : Limited hls) (hp : Pending hls) (hf : Fits hls (.slice burst slice)) :
    Limited (addSlice io burst hls slice) ∧ Pending (addSlice io burst hls slice) := by
  unfold addSlice
  by_cases hdrop : hls.started = false ∧ keySlice slice = false
  · rw [if_pos hdrop]
    exact ⟨⟨hl.sound, hl.filed, hl.targets⟩, ⟨hp.started, hp.duration, hp.bytes, hp.empty⟩⟩
  rw [if_neg hdrop]
  obtain ⟨htime, hlarge, hsmall⟩ := hf (by simpa [refused] using hdrop)
  have hlo := limited_opened hl slice
  have hpo := pending_opened hp slice
  obtain ⟨hpieces, hbytes, hstart, -, hfirst, -⟩ := opened_fields hls slice
  have hconf : (opened hls slice).conf = hls.conf :=
    congrArg Shelf.conf (shelf_opened hls slice)
  have hsoon : ms (slice.dts - (opened hls slice).firstDts) ≤
      (opened hls slice).conf.maxDuration := by
    rw [hfirst, hconf]
    cases hst : hls.started with
    | true => exact htime hst
    | false =>
      rw [if_neg Bool.false_ne_true, Int.sub_self]
      exact Nat.zero_le _
  have hlb := boundary_limited io hlo hpo hsoon
  dsimp only
  by_cases hdue : keyframeDue (opened hls slice) slice ∨ durationDue (opened hls slice) slice
  · obtain ⟨hnone, hzero, hat, hst⟩ := boundary_due io hlo hdue
    have hroom : (boundary io (opened hls slice) slice).pieces.length < maxPieces := by
      rw [hnone]
      decide
    rw [if_neg (Nat.not_le.mpr hroom)]
    apply append_pending hlb hroom hst
    · rw [hat, Int.sub_self]
      exact Nat.zero_le _
    · have := hlarge (fresh_iff.mpr (Or.inr hdue))
      rw [hnone, hzero, if_pos rfl, boundary_conf, hconf]
      omega
  · have hsame : boundary io (opened hls slice) slice = opened hls slice := by
      obtain ⟨hk, hd⟩ := not_or.mp hdue
      rw [boundary, if_neg hk, if_neg hd]
    rw [hsame]
    by_cases hfull : (opened hls slice).pieces.length ≥ maxPieces
    · rw [if_pos hfull]
      have hne : (opened hls slice).pieces ≠ [] := by
        intro h
        rw [h] at hfull
        contradiction
      have hcut := limited_cut io hlo hpo.within
      refine ⟨⟨hcut.sound, hcut.filed, hcut.targets⟩, ?_⟩
      obtain ⟨other, heq⟩ := cut_reset io hlo.sound hne
      rw [heq]
      exact ⟨fun h => absurd rfl h, fun h => absurd rfl h, fun h => absurd rfl h, fun _ => rfl⟩
    · rw [if_neg hfull]
      apply append_pending hlo (Nat.not_le.mp hfull) hstart hsoon
      rw [hpieces] at hfull ⊢
      rw [hbytes, hconf]
      by_cases hempty : hls.pieces = []
      · have := hlarge (fresh_iff.mpr (Or.inl hempty))
        rw [if_pos hempty, hp.empty hempty]
        omega
      · have hold : fresh hls slice = false := by
          rw [← Bool.not_eq_true, fresh_iff]
          exact fun h => h.elim hempty hdue
        rw [if_neg hempty]
        exact hsmall hold (Nat.not_le.mp hfull)

theorem closed_limited (io : ℕ → Io) (hl : Limited hls) (hp : Pending hls) :
    Limited (finish io hls) ∧ Pending (finish io hls) := by
  unfold finish
  by_cases hempty : hls.pieces = []
  · rw [if_pos hempty]
    exact ⟨hl, hp⟩
  · rw [if_neg hempty]
    obtain ⟨other, heq⟩ := cut_reset io hl.sound hempty
    exact ⟨limited_cut io hl hp.within, Pending.of_reset other heq⟩

theorem move_limited {m : Move} (h : Limited hls ∧ Pending hls) (hf : Fits hls m) :
    Limited (move io hls m) ∧ Pending (move io hls m) := by
  cases m with
  | slice burst slice => exact slice_limited h.1 h.2 hf
  | finish => exact closed_limited io h.1 h.2
  | discontinuity =>
    obtain ⟨hl, hp⟩ := closed_limited io h.1 h.2
    have hempty : (finish io hls).pieces = [] := by
      unfold finish
      by_cases he : hls.pieces = []
      · rw [if_pos he]
        exact he
      · rw [if_neg he]
        obtain ⟨other, heq⟩ := cut_reset io h.1.sound he
        rw [heq]
        rfl
    refine ⟨⟨hl.sound, hl.filed, hl.targets⟩, ?_⟩
    exact ⟨fun hne => absurd hempty hne, hp.duration, hp.bytes, hp.empty⟩

theorem move_conf (m : Move) : (move io hls m).conf = hls.conf :=
  move_shelf (P := fun s => s.conf = hls.conf) (fun _ => True)
    (fun a ha _ => (cut_conf io a).trans ha) rfl (fun _ _ => trivial)

theorem start_limited (conf : Conf) : Limited (start conf) where
  sound := start_sound conf
  filed := by simp [start, written]
  targets := by simp [start, playlists]

/-- What a viewer may rely on: segments within the ceilings, and none of them longer, to the
nearest second, than any playlist announces. -/
structure Bounded (conf : Conf) (files : List Sealed) : Prop where
  segments : ∀ s ∈ written files, s.duration ≤ conf.maxDuration ∧ s.bytes ≤ conf.maxSegmentBytes
  targets : ∀ p ∈ playlists files, ∀ s ∈ p.entries, (s.duration + 500) / 1000 ≤ p.target

theorem Limited.bounded (hl : Limited hls) : Bounded hls.conf hls.files where
  segments := hl.filed
  targets := by
    intro p hp s hs
    obtain ⟨gone, later, hw, -⟩ := hl.sound.told p hp
    have hmem : s ∈ written hls.files := by
      rw [show written hls.files = written hls.shelf.files from rfl, hw]
      simp [hs]
    have hmax := (hl.filed s hmem).1
    have htarget : (hls.conf.maxDuration + 999) / 1000 ≤ p.target := by
      rw [hl.targets p hp]
      exact Nat.le_max_left _ _
    omega

/-- Every segment of a run whose slices come in time and fit keeps to the ceilings. -/
theorem segments_bounded (conf : Conf) (io : ℕ → Io) (calls : List Call)
    (h : StepRun.Meets (move io) Fits (start conf) (calls.flatMap Call.moves)) :
    Bounded (settle conf) (calls.foldl (call io) (start conf)).files := by
  have hinv : (calls.foldl (call io) (start conf)).conf = settle conf ∧
      Limited (calls.foldl (call io) (start conf)) ∧
      Pending (calls.foldl (call io) (start conf)) := by
    rw [calls_moves]
    exact StepRun.invariant_of_meets
      (I := fun hls => hls.conf = settle conf ∧ Limited hls ∧ Pending hls)
      (fun _ _ hi hf => ⟨(move_conf _).trans hi.1, move_limited hi.2 hf⟩)
      ⟨rfl, start_limited conf, Pending.of_reset (start conf) rfl⟩ h
  rw [← hinv.1]
  exact hinv.2.1.bounded

instance (hls : Hls) (m : Move) : Decidable (Fits hls m) :=
  match m with
  | .slice _ _ => inferInstanceAs (Decidable (_ → _))
  | .discontinuity => inferInstanceAs (Decidable True)
  | .finish => inferInstanceAs (Decidable True)

/-- Keyframes two seconds apart, and the last segment finished. -/
theorem segments_bounded_keyframes :
    Bounded (settle { confDefault with path := ascii "/hls" })
      ((keyframes 4 ++ [Call.finish]).foldl (call serves)
        (start { confDefault with path := ascii "/hls" })).files :=
  segments_bounded _ serves (keyframes 4 ++ [Call.finish]) (by decide +kernel)

/-- A frame that comes ten seconds after the one before it closes a segment of ten seconds. -/
theorem late_frame_overruns :
    ¬ Bounded (settle { confDefault with path := ascii "/hls" })
      (([.addBurst (burstOf [videoFrame 0 true, videoFrame 3600 false,
        videoFrame 903600 false])] : List Call).foldl (call serves)
          (start { confDefault with path := ascii "/hls" })).files := by
  intro h
  have hlong := h.segments ⟨0, ascii "seg-000000.ts", 10040, 752, false⟩ (by decide +kernel)
  exact absurd hlong.1 (by decide +kernel)

end HlsLimits
