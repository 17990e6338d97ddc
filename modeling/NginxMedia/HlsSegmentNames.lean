import Mathlib.Data.Nat.Digits.Lemmas
import NginxMedia.HlsWindow

/-! The names of an HLS segmenter's files. The buffer of a name has room for six digits, and the
sequence number that is printed into it grows with every cut. The prefix is a C string. -/
namespace HlsSegmentNames

open ByteString HlsSegmenter HlsWindow
open TsMux (Slice Burst)

variable {conf : Conf} {io : ℕ → Io} {hls : Hls}

def fullName (conf : Conf) (sequence : ℕ) : Str :=
  conf.segmentPrefix ++ padded 6 sequence ++ ascii ".ts"

theorem padded_length (n : ℕ) : (padded 6 n).length = max 6 (decimal n).length := by
  rw [padded, List.length_append, List.length_replicate]
  omega

theorem decimal_length_le_iff (n : ℕ) : (decimal n).length ≤ 6 ↔ n < 10 ^ 6 := by
  unfold decimal
  split_ifs with hn
  · rw [hn]
    decide
  · rw [List.length_map, List.length_reverse]
    exact Nat.digits_length_le_iff (by decide) n

theorem segmentName_full_iff (conf : Conf) (n : ℕ) :
    segmentName conf n = fullName conf n ↔ n < 10 ^ 6 := by
  have hlength : (fullName conf n).length =
      conf.segmentPrefix.length + max 6 (decimal n).length + 3 := by
    rw [fullName, List.length_append, List.length_append, padded_length]
    rfl
  change (fullName conf n).take (conf.segmentPrefix.length + 6 + 3) = fullName conf n ↔ _
  rw [List.take_eq_self_iff, hlength, ← decimal_length_le_iff]
  omega

theorem fullName_injective (conf : Conf) : Function.Injective (fullName conf) := by
  intro a b h
  exact padded_injective 6 (List.append_cancel_left (List.append_cancel_right h))

structure Named (conf : Conf) (s : Shelf) : Prop where
  conf_eq : s.conf = conf
  names : ∀ w ∈ written s.files, w.name = segmentName conf w.sequence

theorem named_start (conf : Conf) : Named (settle conf) (start conf).shelf where
  conf_eq := rfl
  names := by simp [Hls.shelf, start, written]

theorem named_cut (h : Named conf hls.shelf) : Named conf (cut io hls).shelf := by
  rcases cut_cases io hls with ⟨heq, -⟩ | ⟨heq, -⟩ | ⟨⟨gone, rest, more, ha⟩, -, -, -⟩
  · rwa [heq]
  · rw [heq]
    exact ⟨h.conf_eq, h.names⟩
  · refine ⟨?_, ?_⟩
    · rw [ha.shelf]
      exact h.conf_eq
    · intro w hw
      rw [admits_written ha] at hw
      rcases List.mem_append.mp hw with hold | hnew
      · exact h.names w hold
      · rw [List.mem_singleton.mp hnew, ← h.conf_eq]
        rfl

def writtenBy (conf : Conf) (io : ℕ → Io) (calls : List Call) : List Segment :=
  written (calls.foldl (call io) (start conf)).files

theorem run_named (conf : Conf) (io : ℕ → Io) (calls : List Call) :
    Named (settle conf) (calls.foldl (call io) (start conf)).shelf ∧
      Sound (calls.foldl (call io) (start conf)).shelf := by
  rw [calls_moves]
  refine StepRun.invariant (I := fun hls : Hls => Named (settle conf) hls.shelf ∧ Sound hls.shelf)
    ?_ ⟨named_start conf, start_sound conf⟩ _
  intro hls m h
  exact move_shelf (P := fun s => Named (settle conf) s ∧ Sound s) (fun _ => True)
    (fun _ hp _ => ⟨named_cut hp.1, sound_cut hp.2⟩) h fun _ _ => trivial

/-- The files of a run have their names in full, and with that names of their own, exactly when no
sequence number has more than six digits. -/
theorem names_full_iff (conf : Conf) (io : ℕ → Io) (calls : List Call) :
    ((∀ w ∈ writtenBy conf io calls, w.name = fullName (settle conf) w.sequence) ∧
      ((writtenBy conf io calls).map Segment.name).Nodup) ↔
    ∀ w ∈ writtenBy conf io calls, w.sequence < 10 ^ 6 := by
  obtain ⟨hnamed, hsound⟩ := run_named conf io calls
  constructor
  · rintro ⟨hfull, -⟩ w hw
    have hname := hnamed.names w hw
    rw [hfull w hw] at hname
    exact (segmentName_full_iff _ _).mp hname.symm
  · intro hsmall
    have hfull : ∀ w ∈ writtenBy conf io calls, w.name = fullName (settle conf) w.sequence := by
      intro w hw
      rw [hnamed.names w hw]
      exact (segmentName_full_iff _ _).mpr (hsmall w hw)
    refine ⟨hfull, List.pairwise_map.mpr ?_⟩
    refine List.Pairwise.imp_of_mem ?_ hsound.ordered
    intro a b ha hb hlt heq
    rw [hfull a ha, hfull b hb] at heq
    exact absurd (fullName_injective _ heq) (Nat.ne_of_lt hlt)

/-- One keyframe, and the source is gone. -/
def turn : List Call := [.addBurst (burstOf [videoFrame 0 true]), .discontinuity]

def turns : ℕ → List Call
  | 0 => []
  | n + 1 => turns n ++ turn

structure Between (n : ℕ) (hls : Hls) : Prop where
  pieces : hls.pieces = []
  bytes : hls.bytes = 0
  next : hls.nextSequence = n
  sound : Sound hls.shelf
  large : hls.conf.maxSegmentBytes = 8 * 1024 * 1024

def keyframeSlice : Slice := ⟨376, 188, 0, 0, .video, .h264, true⟩

theorem keyframe_burst : (burstOf [videoFrame 0 true]).slices = [keyframeSlice] ∧
    (burstOf [videoFrame 0 true]).psiLen = 376 := by
  decide +kernel

theorem add_keyframe (hp : hls.pieces = []) (hb : hls.bytes = 0)
    (hlarge : hls.conf.maxSegmentBytes = 8 * 1024 * 1024) :
    (call io hls (.addBurst (burstOf [videoFrame 0 true]))).pieces ≠ [] ∧
      (call io hls (.addBurst (burstOf [videoFrame 0 true]))).shelf = hls.shelf := by
  obtain ⟨hslices, hpsi⟩ := keyframe_burst
  have hshelf := shelf_opened hls keyframeSlice
  obtain ⟨hpieces, hbytes, -⟩ := opened_fields hls keyframeSlice
  rw [hp] at hpieces
  rw [hb] at hbytes
  have hconf : (opened hls keyframeSlice).conf = hls.conf := congrArg Shelf.conf hshelf
  have hboundary : boundary io (opened hls keyframeSlice) keyframeSlice =
      opened hls keyframeSlice := by
    rw [boundary, if_neg (fun h => (keyframeDue_iff.mp h).1 hpieces),
      if_neg (fun h => (durationDue_iff.mp h).1 hpieces)]
  have hroom : (opened hls keyframeSlice).pieces.length < maxPieces := by
    rw [hpieces]
    decide
  have hcall : call io hls (.addBurst (burstOf [videoFrame 0 true])) =
      append io (burstOf [videoFrame 0 true]) (opened hls keyframeSlice) keyframeSlice := by
    change addBurst io hls _ = _
    rw [addBurst, hslices, List.foldl_cons, List.foldl_nil, addSlice,
      if_neg (fun h => absurd h.2 (by decide)), hboundary]
    exact if_neg (Nat.not_le.mpr hroom)
  rw [hcall, append, filled_eq hroom]
  dsimp only
  rw [if_neg]
  · refine ⟨?_, hshelf⟩
    rw [hpieces]
    unfold slicePieces
    simp
  · rw [hconf, hlarge, hbytes, hpieces, if_pos rfl, hpsi]
    decide

theorem Between.turn {n : ℕ} (h : Between n hls) :
    Between (n + 1) (turn.foldl (call serves) hls) ∧
      ∃ w ∈ written (turn.foldl (call serves) hls).files, w.sequence = n := by
  obtain ⟨hne, hshelf⟩ := @add_keyframe serves hls h.pieces h.bytes h.large
  generalize hnext : call serves hls (.addBurst (burstOf [videoFrame 0 true])) = next at hne hshelf
  have hturn : HlsSegmentNames.turn.foldl (call serves) hls = discontinuity serves next := by
    rw [← hnext]
    rfl
  have hsound : Sound next.shelf := hshelf ▸ h.sound
  have hseq : next.nextSequence = n := (congrArg Shelf.nextSequence hshelf).trans h.next
  have hconf : next.conf = hls.conf := congrArg Shelf.conf hshelf
  rw [hturn, discontinuity, if_neg hne]
  rcases cut_cases serves next with
    ⟨-, hnone | hfull⟩ | ⟨-, hfail | hfail⟩ | ⟨⟨gone, rest, more, ha⟩, -, -, -⟩
  · exact absurd hnone hne
  · have hcount := hsound.count
    have hroom := hsound.room
    change next.segments.length ≤ next.conf.maxSegments at hcount
    change next.conf.maxSegments < next.segmentsCapacity at hroom
    omega
  · exact absurd hfail Bool.noConfusion
  · exact absurd hfail Bool.noConfusion
  · have hcutConf : (cut serves next).conf = next.conf := by
      have := congrArg Shelf.conf ha.shelf
      exact this
    have hcutNext : (cut serves next).nextSequence = next.nextSequence + 1 := by
      have := congrArg Shelf.nextSequence ha.shelf
      exact this
    obtain ⟨hempty, hzero⟩ : (cut serves next).pieces = [] ∧ (cut serves next).bytes = 0 := by
      obtain ⟨other, hreset⟩ := cut_reset serves hsound hne
      rw [hreset]
      exact ⟨rfl, rfl⟩
    refine ⟨⟨hempty, hzero, ?_, sound_cut hsound, ?_⟩, closing next, ?_, hseq⟩
    · exact hcutNext.trans (congrArg (· + 1) hseq)
    · exact (congrArg Conf.maxSegmentBytes (hcutConf.trans hconf)).trans h.large
    · change closing next ∈ written (cut serves next).shelf.files
      rw [admits_written ha]
      exact List.mem_append_right _ (List.mem_singleton.mpr rfl)

theorem turns_between {hls : Hls} (h : Between 0 hls) (n : ℕ) :
    Between n ((turns n).foldl (call serves) hls) := by
  induction n with
  | zero => exact h
  | succ n ih =>
    rw [turns, List.foldl_append]
    exact ih.turn.1

def liveConf : Conf := { confDefault with path := ascii "/hls" }

theorem number_reached (n : ℕ) :
    ∃ w ∈ writtenBy liveConf serves (turns (n + 1)), w.sequence = n := by
  have hstart : Between 0 (start liveConf) := ⟨rfl, rfl, rfl, start_sound liveConf, rfl⟩
  rw [writtenBy, turns, List.foldl_append]
  exact (turns_between hstart n).turn.2

theorem long_name_cut {n : ℕ} (hn : 10 ^ 6 ≤ n) :
    ∃ w ∈ writtenBy liveConf serves (turns (n + 1)),
      w.name ≠ fullName (settle liveConf) w.sequence := by
  obtain ⟨w, hw, hseq⟩ := number_reached n
  refine ⟨w, hw, fun hfull => ?_⟩
  have hname := (run_named liveConf serves (turns (n + 1))).1.names w hw
  rw [hfull] at hname
  have hlt := (segmentName_full_iff _ _).mp hname.symm
  omega

theorem millionth_name_cut :
    ¬ ∀ (conf : Conf) (io : ℕ → Io) (calls : List Call),
      (∀ w ∈ writtenBy conf io calls, w.name = fullName (settle conf) w.sequence) ∧
        ((writtenBy conf io calls).map Segment.name).Nodup := by
  intro h
  obtain ⟨w, hw, hcut⟩ := long_name_cut (Nat.le_refl (10 ^ 6))
  exact hcut ((h _ _ _).1 w hw)

end HlsSegmentNames
