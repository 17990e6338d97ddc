import NginxMedia.StepRun
import NginxMedia.TsMux

/-! The HLS segmenter of `ngx_media_hls_segmenter.c`. A piece is a range of the buffer that it
refers to, and what reaches the directory under its final name is a history: segments and
playlists in the order in which they were renamed into place. -/
namespace HlsSegmenter

open MediaTypes ByteString
open TsMux (Slice Burst)

abbrev Str := List UInt8

def maxPieces : ℕ := 4096
def segmentsMax : ℕ := 32

structure Conf where
  path : Str
  playlistName : Str
  segmentPrefix : Str
  targetDuration : ℕ
  minDuration : ℕ
  maxDuration : ℕ
  maxSegmentBytes : ℕ
  maxSegments : ℕ
  maxRetainedBytes : ℕ
  deriving DecidableEq, Repr

def confDefault : Conf :=
  ⟨[], [], [], 2000, 2000, 4000, 8 * 1024 * 1024, 5, 64 * 1024 * 1024⟩

structure Piece where
  buf : List UInt8
  offset : ℕ
  len : ℕ
  deriving DecidableEq, Repr

structure Segment where
  sequence : ℕ
  name : Str
  duration : ℕ
  bytes : ℕ
  discontinuity : Bool
  deriving DecidableEq, Repr

structure Playlist where
  target : ℕ
  mediaSequence : ℕ
  discontinuitySequence : ℕ
  entries : List Segment
  deriving DecidableEq, Repr

/-- A file that was renamed into place and announced by `ngx_media_hls_push_sealed()`. -/
inductive Sealed where
  | segment (segment : Segment) (pieces : List Piece)
  | playlist (playlist : Playlist)
  deriving DecidableEq, Repr

/-- What the system does for one cut: the name of the segment is allocated, its file is written
and renamed, the playlist's buffer is allocated and its file is written and renamed. -/
structure Io where
  named : Bool
  filed : Bool
  buffered : Bool
  listed : Bool
  deriving DecidableEq, Repr

/-- `ngx_media_hls_t`, with the history of its directory. -/
structure Hls where
  conf : Conf
  pieces : List Piece
  bytes : ℕ
  firstDts : ℤ
  lastDts : ℤ
  step : ℤ
  started : Bool
  discontinuityNext : Bool
  segments : List Segment
  segmentsCapacity : ℕ
  nextSequence : ℕ
  discontinuitySequence : ℕ
  retainedBytes : ℕ
  segmentsWritten : ℕ
  segmentsEvicted : ℕ
  forcedCuts : ℕ
  droppedFrames : ℕ
  bytesWritten : ℕ
  errors : ℕ
  files : List Sealed
  deriving DecidableEq, Repr

/-- The configuration that `ngx_media_hls_init()` stores. -/
def settle (conf : Conf) : Conf :=
  let target := if conf.targetDuration = 0 then 2000 else conf.targetDuration
  let segments := if conf.maxSegments = 0 then 5 else conf.maxSegments
  { conf with
    playlistName := if conf.playlistName = [] then ascii "index.m3u8" else conf.playlistName
    segmentPrefix := if conf.segmentPrefix = [] then ascii "seg-" else conf.segmentPrefix
    maxSegments := if segments > segmentsMax then segmentsMax else segments
    targetDuration := target
    minDuration := if conf.minDuration > target then target else conf.minDuration
    maxDuration := if conf.maxDuration < target then target * 2 else conf.maxDuration }

/-- The segmenter that a successful `ngx_media_hls_init()` leaves. -/
def start (conf : Conf) : Hls where
  conf := settle conf
  pieces := []
  bytes := 0
  firstDts := 0
  lastDts := 0
  step := 0
  started := false
  discontinuityNext := false
  segments := []
  segmentsCapacity := segmentsMax + 1
  nextSequence := 0
  discontinuitySequence := 0
  retainedBytes := 0
  segmentsWritten := 0
  segmentsEvicted := 0
  forcedCuts := 0
  droppedFrames := 0
  bytesWritten := 0
  errors := 0
  files := []

/-- `NGX_MEDIA_HLS_MS`: the quotient is truncated and converted to an unsigned word. -/
def ms (dts : ℤ) : ℕ := (dts.tdiv 90 % 2 ^ 64).toNat

def segmentName (conf : Conf) (sequence : ℕ) : Str :=
  (conf.segmentPrefix ++ padded 6 sequence ++ ascii ".ts").take
    (conf.segmentPrefix.length + 6 + 3)

def playlist (hls : Hls) : Playlist where
  target := max ((hls.conf.maxDuration + 999) / 1000) ((hls.conf.targetDuration + 999) / 1000)
  mediaSequence := (hls.segments.head?.map Segment.sequence).getD 0
  discontinuitySequence := hls.discontinuitySequence
  entries := hls.segments

def entryText (segment : Segment) : List UInt8 :=
  (if segment.discontinuity then ascii "#EXT-X-DISCONTINUITY\n" else []) ++
    ascii "#EXTINF:" ++ decimal (segment.duration / 1000) ++ ascii "." ++
    padded 3 (segment.duration % 1000) ++ ascii ",\n" ++ segment.name ++ ascii "\n"

def Playlist.text (p : Playlist) : List UInt8 :=
  ascii "#EXTM3U\n#EXT-X-VERSION:3\n#EXT-X-TARGETDURATION:" ++ decimal p.target ++
    ascii "\n#EXT-X-MEDIA-SEQUENCE:" ++ decimal p.mediaSequence ++
    ascii "\n#EXT-X-DISCONTINUITY-SEQUENCE:" ++ decimal p.discontinuitySequence ++ ascii "\n" ++
    p.entries.flatMap entryText

def writePlaylist (io : Io) (hls : Hls) : Hls :=
  if io.buffered = false then hls
  else if (playlist hls).text.length ≥ 256 + hls.segments.length * 128 then
    { hls with errors := hls.errors + 1 }
  else if io.listed then { hls with files := hls.files ++ [.playlist (playlist hls)] }
  else hls

def evictOldest (hls : Hls) (oldest : Segment) (rest : List Segment) : Hls :=
  { hls with
    discontinuitySequence :=
      if oldest.discontinuity then hls.discontinuitySequence + 1 else hls.discontinuitySequence
    retainedBytes := hls.retainedBytes - oldest.bytes
    segmentsEvicted := hls.segmentsEvicted + 1
    segments := rest }

def evict (hls : Hls) : Hls :=
  match _h : hls.segments with
  | [] => hls
  | oldest :: rest =>
    if hls.segments.length > hls.conf.maxSegments ∨
        hls.conf.maxRetainedBytes ≠ 0 ∧ hls.retainedBytes > hls.conf.maxRetainedBytes then
      evict (evictOldest hls oldest rest)
    else hls
termination_by hls.segments.length
decreasing_by
  rw [_h]
  exact Nat.lt_succ_self _

def reset (hls : Hls) : Hls :=
  { hls with pieces := [], bytes := 0, firstDts := 0, lastDts := 0, step := 0 }

def closing (hls : Hls) : Segment :=
  ⟨hls.nextSequence, segmentName hls.conf hls.nextSequence, ms (hls.lastDts - hls.firstDts),
    hls.bytes, hls.discontinuityNext⟩

def admitted (hls : Hls) : Hls :=
  { hls with
    segments := hls.segments ++ [closing hls]
    nextSequence := hls.nextSequence + 1
    retainedBytes := hls.retainedBytes + hls.bytes
    segmentsWritten := hls.segmentsWritten + 1
    bytesWritten := hls.bytesWritten + hls.bytes
    discontinuityNext := false
    files := hls.files ++ [.segment (closing hls) hls.pieces] }

def cut (io : ℕ → Io) (hls : Hls) : Hls :=
  if hls.pieces = [] ∨ hls.segments.length ≥ hls.segmentsCapacity then hls
  else if (io hls.nextSequence).named = false ∨ (io hls.nextSequence).filed = false then
    reset { hls with nextSequence := hls.nextSequence + 1, errors := hls.errors + 1 }
  else reset (writePlaylist (io hls.nextSequence) (evict (admitted hls)))

def piece (hls : Hls) (buf : List UInt8) (offset len : ℕ) : Option Hls :=
  if hls.pieces.length ≥ maxPieces then none
  else some { hls with pieces := hls.pieces ++ [⟨buf, offset, len⟩], bytes := hls.bytes + len }

def keySlice (slice : Slice) : Bool := slice.mediaType = .video ∧ slice.keyframe

def startAt (hls : Hls) (slice : Slice) : Hls :=
  { hls with started := true, firstDts := slice.dts, lastDts := slice.dts, step := 0 }

def opened (hls : Hls) (slice : Slice) : Hls :=
  let hls := if hls.started then hls else startAt hls slice
  if hls.pieces ≠ [] ∧ slice.dts > hls.lastDts ∧ slice.dts - hls.lastDts > hls.step then
    { hls with step := slice.dts - hls.lastDts }
  else hls

def reached (hls : Hls) (slice : Slice) : ℕ :=
  if slice.dts > hls.firstDts then ms (slice.dts - hls.firstDts)
  else ms (hls.lastDts - hls.firstDts)

def keyframeDue (hls : Hls) (slice : Slice) : Bool :=
  hls.pieces ≠ [] ∧ keySlice slice ∧ reached hls slice ≥ hls.conf.minDuration

/-- A forced cut: the next frame would pass the maximum. -/
def durationDue (hls : Hls) (slice : Slice) : Bool :=
  hls.pieces ≠ [] ∧ (reached hls slice ≥ hls.conf.maxDuration ∨
    reached hls slice + ms hls.step > hls.conf.maxDuration)

def extended (hls : Hls) (slice : Slice) : Hls :=
  if slice.dts > hls.lastDts then { hls with lastDts := slice.dts } else hls

def countForced (hls : Hls) : Hls := { hls with forcedCuts := hls.forcedCuts + 1 }

def boundary (io : ℕ → Io) (hls : Hls) (slice : Slice) : Hls :=
  if keyframeDue hls slice then startAt (cut io (extended hls slice)) slice
  else if durationDue hls slice then startAt (countForced (cut io (extended hls slice))) slice
  else hls

def withTables (burst : Burst) (hls : Hls) : Hls :=
  if hls.pieces = [] ∧ burst.psiLen > 0 then
    (piece hls burst.bytes 0 burst.psiLen).getD { hls with errors := hls.errors + 1 }
  else hls

def filled (burst : Burst) (hls : Hls) (slice : Slice) : Option Hls :=
  (piece (withTables burst hls) burst.bytes slice.offset slice.len).map fun hls =>
    { hls with lastDts := slice.dts }

def append (io : ℕ → Io) (burst : Burst) (hls : Hls) (slice : Slice) : Hls :=
  match filled burst hls slice with
  | none => { withTables burst hls with errors := (withTables burst hls).errors + 1 }
  | some hls =>
    if hls.bytes > hls.conf.maxSegmentBytes then
      { countForced (cut io hls) with started := false }
    else hls

def addSlice (io : ℕ → Io) (burst : Burst) (hls : Hls) (slice : Slice) : Hls :=
  if hls.started = false ∧ keySlice slice = false then
    { hls with droppedFrames := hls.droppedFrames + 1 }
  else
    let hls := boundary io (opened hls slice) slice
    if hls.pieces.length ≥ maxPieces then
      { countForced (cut io hls) with started := false, droppedFrames := hls.droppedFrames + 1 }
    else append io burst hls slice

def addBurst (io : ℕ → Io) (hls : Hls) (burst : Burst) : Hls :=
  burst.slices.foldl (addSlice io burst) hls

def discontinuity (io : ℕ → Io) (hls : Hls) : Hls :=
  { (if hls.pieces = [] then hls else cut io hls) with
    discontinuityNext := true
    started := false }

def finish (io : ℕ → Io) (hls : Hls) : Hls :=
  if hls.pieces = [] then hls else cut io hls

inductive Call where
  | addBurst (burst : Burst)
  | discontinuity
  | finish
  deriving DecidableEq, Repr

def call (io : ℕ → Io) (hls : Hls) : Call → Hls
  | .addBurst burst => addBurst io hls burst
  | .discontinuity => discontinuity io hls
  | .finish => finish io hls

inductive Move where
  | slice (burst : Burst) (slice : Slice)
  | discontinuity
  | finish
  deriving DecidableEq, Repr

def move (io : ℕ → Io) (hls : Hls) : Move → Hls
  | .slice burst slice => addSlice io burst hls slice
  | .discontinuity => discontinuity io hls
  | .finish => finish io hls

def Call.moves : Call → List Move
  | .addBurst burst => burst.slices.map (.slice burst)
  | .discontinuity => [.discontinuity]
  | .finish => [.finish]

variable {io : ℕ → Io} {hls : Hls} {burst : Burst} {slice : Slice}

theorem call_moves (io : ℕ → Io) (hls : Hls) (c : Call) :
    call io hls c = c.moves.foldl (move io) hls := by
  cases c with
  | addBurst burst =>
    simp only [call, addBurst, Call.moves, List.foldl_map]
    rfl
  | discontinuity => rfl
  | finish => rfl

theorem calls_moves (io : ℕ → Io) (hls : Hls) (calls : List Call) :
    calls.foldl (call io) hls = (calls.flatMap Call.moves).foldl (move io) hls := by
  induction calls generalizing hls with
  | nil => rfl
  | cons c rest ih =>
    rw [List.foldl_cons, ih, call_moves, List.flatMap_cons, List.foldl_append]

/-- The segmenter in front of the slice, as `ngx_media_hls_cut()` finds it. -/
def boundaryCuts (hls : Hls) (slice : Slice) : List Hls :=
  if keyframeDue hls slice ∨ durationDue hls slice then [extended hls slice] else []

def appendCuts (burst : Burst) (hls : Hls) (slice : Slice) : List Hls :=
  (filled burst hls slice).toList.filter fun hls => hls.bytes > hls.conf.maxSegmentBytes

/-- The states in which a move calls `ngx_media_hls_cut()`. -/
def cuts (io : ℕ → Io) (hls : Hls) : Move → List Hls
  | .slice burst slice =>
    if hls.started = false ∧ keySlice slice = false then []
    else
      let next := boundary io (opened hls slice) slice
      boundaryCuts (opened hls slice) slice ++
        if next.pieces.length ≥ maxPieces then [next] else appendCuts burst next slice
  | .discontinuity => if hls.pieces = [] then [] else [hls]
  | .finish => if hls.pieces = [] then [] else [hls]

/-- What only `ngx_media_hls_cut()` changes: the window and the directory. -/
structure Shelf where
  conf : Conf
  segments : List Segment
  segmentsCapacity : ℕ
  nextSequence : ℕ
  discontinuitySequence : ℕ
  retainedBytes : ℕ
  files : List Sealed

def Hls.shelf (hls : Hls) : Shelf :=
  ⟨hls.conf, hls.segments, hls.segmentsCapacity, hls.nextSequence, hls.discontinuitySequence,
    hls.retainedBytes, hls.files⟩

@[simp] theorem shelf_startAt (hls : Hls) (slice : Slice) :
    (startAt hls slice).shelf = hls.shelf := rfl

@[simp] theorem shelf_countForced (hls : Hls) : (countForced hls).shelf = hls.shelf := rfl

@[simp] theorem shelf_opened (hls : Hls) (slice : Slice) :
    (opened hls slice).shelf = hls.shelf := by
  unfold opened
  cases hls.started <;> simp only [if_true, Bool.false_eq_true, if_false] <;> split_ifs <;> rfl

@[simp] theorem shelf_extended (hls : Hls) (slice : Slice) :
    (extended hls slice).shelf = hls.shelf := by
  unfold extended
  split_ifs <;> rfl

theorem piece_shelf {buf : List UInt8} {offset len : ℕ} {next : Hls}
    (h : piece hls buf offset len = some next) : next.shelf = hls.shelf := by
  unfold piece at h
  split_ifs at h
  obtain rfl := Option.some.inj h
  rfl

@[simp] theorem shelf_withTables (burst : Burst) (hls : Hls) :
    (withTables burst hls).shelf = hls.shelf := by
  unfold withTables
  split_ifs
  · cases hp : piece hls burst.bytes 0 burst.psiLen with
    | none => rfl
    | some next => exact piece_shelf hp
  · rfl

theorem filled_shelf {next : Hls} (h : filled burst hls slice = some next) :
    next.shelf = hls.shelf := by
  obtain ⟨with', hp, rfl⟩ := Option.map_eq_some_iff.mp h
  exact (piece_shelf hp).trans (shelf_withTables burst hls)

def slicePieces (burst : Burst) (first : Bool) (slice : Slice) : List Piece :=
  (if first = true ∧ burst.psiLen > 0 then [⟨burst.bytes, 0, burst.psiLen⟩] else []) ++
    [⟨burst.bytes, slice.offset, slice.len⟩]

theorem piece_eq (h : hls.pieces.length < maxPieces) (buf : List UInt8) (offset len : ℕ) :
    piece hls buf offset len =
      some { hls with
        pieces := hls.pieces ++ [⟨buf, offset, len⟩]
        bytes := hls.bytes + len } := by
  rw [piece, if_neg (Nat.not_le.mpr h)]

theorem withTables_eq (burst : Burst) (hls : Hls) :
    withTables burst hls =
      if hls.pieces = [] ∧ burst.psiLen > 0 then
        { hls with
          pieces := [⟨burst.bytes, 0, burst.psiLen⟩]
          bytes := hls.bytes + burst.psiLen }
      else hls := by
  unfold withTables
  by_cases h : hls.pieces = [] ∧ burst.psiLen > 0
  · have hroom : hls.pieces.length < maxPieces := by
      rw [h.1]
      decide
    rw [if_pos h, if_pos h, piece_eq hroom, Option.getD_some, h.1]
    rfl
  · rw [if_neg h, if_neg h]

theorem filled_eq (h : hls.pieces.length < maxPieces) :
    filled burst hls slice = some { hls with
      pieces := hls.pieces ++ slicePieces burst (decide (hls.pieces = [])) slice
      bytes := hls.bytes + (if hls.pieces = [] then burst.psiLen else 0) + slice.len
      lastDts := slice.dts } := by
  have hroom : (withTables burst hls).pieces.length < maxPieces := by
    rw [withTables_eq]
    split_ifs
    · exact (by decide : 1 < maxPieces)
    · exact h
  rw [filled, piece_eq hroom, Option.map_some, withTables_eq]
  unfold slicePieces
  by_cases hempty : hls.pieces = []
  · by_cases hpsi : burst.psiLen > 0
    · simp [hempty, hpsi]
    · have hnone : burst.psiLen = 0 := by omega
      simp [hempty, hnone]
  · simp [hempty]

theorem opened_fields (hls : Hls) (slice : Slice) :
    (opened hls slice).pieces = hls.pieces ∧ (opened hls slice).bytes = hls.bytes ∧
      (opened hls slice).started = true ∧
      (opened hls slice).droppedFrames = hls.droppedFrames ∧
      (opened hls slice).firstDts = (if hls.started then hls.firstDts else slice.dts) ∧
      (opened hls slice).lastDts = (if hls.started then hls.lastDts else slice.dts) := by
  unfold opened
  cases hst : hls.started with
  | true =>
    simp only [if_true]
    split_ifs <;> exact ⟨rfl, rfl, hst, rfl, rfl, rfl⟩
  | false =>
    simp only [Bool.false_eq_true, if_false]
    split_ifs <;> exact ⟨rfl, rfl, rfl, rfl, rfl, rfl⟩

theorem keyframeDue_iff : keyframeDue hls slice = true ↔
    hls.pieces ≠ [] ∧ keySlice slice = true ∧ reached hls slice ≥ hls.conf.minDuration :=
  decide_eq_true_iff

theorem durationDue_iff : durationDue hls slice = true ↔
    hls.pieces ≠ [] ∧ (reached hls slice ≥ hls.conf.maxDuration ∨
      reached hls slice + ms hls.step > hls.conf.maxDuration) :=
  decide_eq_true_iff

theorem move_shelf {P : Shelf → Prop} (allowed : Hls → Prop)
    (hcut : ∀ hls, P hls.shelf → allowed hls → P (cut io hls).shelf) {m : Move}
    (h : P hls.shelf) (hall : ∀ a ∈ cuts io hls m, allowed a) : P (move io hls m).shelf := by
  cases m with
  | slice burst slice =>
    simp only [move, addSlice, cuts] at hall ⊢
    by_cases hdrop : hls.started = false ∧ keySlice slice = false
    · rw [if_pos hdrop]
      exact h
    · rw [if_neg hdrop] at hall ⊢
      have hopen : P (opened hls slice).shelf := by rwa [shelf_opened]
      have hnext : P (boundary io (opened hls slice) slice).shelf := by
        have hhere : keyframeDue (opened hls slice) slice ∨ durationDue (opened hls slice) slice →
            P (cut io (extended (opened hls slice) slice)).shelf := by
          intro hdue
          apply hcut
          · rwa [shelf_extended]
          · apply hall
            rw [boundaryCuts, if_pos hdue]
            exact List.mem_append_left _ List.mem_cons_self
        unfold boundary
        split_ifs with hkey hmax
        · exact hhere (Or.inl hkey)
        · exact hhere (Or.inr hmax)
        · exact hopen
      by_cases hfull : (boundary io (opened hls slice) slice).pieces.length ≥ maxPieces
      · rw [if_pos hfull] at hall ⊢
        exact hcut _ hnext (hall _ (List.mem_append_right _ List.mem_cons_self))
      · rw [if_neg hfull] at hall ⊢
        unfold append
        cases hfill : filled burst (boundary io (opened hls slice) slice) slice with
        | none =>
          change P (withTables burst (boundary io (opened hls slice) slice)).shelf
          rwa [shelf_withTables]
        | some full =>
          have hp : P full.shelf := by rwa [filled_shelf hfill]
          dsimp only
          split_ifs with hbytes
          · apply hcut _ hp
            apply hall
            rw [appendCuts, hfill]
            apply List.mem_append_right
            simp [hbytes]
          · exact hp
  | discontinuity =>
    by_cases hp : hls.pieces = []
    · simp only [move, discontinuity, if_pos hp]
      exact h
    · simp only [move, discontinuity, if_neg hp]
      exact hcut hls h (hall hls (by simp [cuts, hp]))
  | finish =>
    by_cases hp : hls.pieces = []
    · simp only [move, finish, if_pos hp]
      exact h
    · simp only [move, finish, if_neg hp]
      exact hcut hls h (hall hls (by simp [cuts, hp]))

def videoMux : TsMux.Mux :=
  (TsMux.setTracks (TsMux.muxInit TsMux.confDefault)
    [⟨.video, .h264, .annexb, 0, 0, 0, 0, 0, 0, 0, 0, none⟩]).1

def videoFrame (dts : ℤ) (keyframe : Bool) : Frame :=
  { Frame.empty with
    codec := .h264
    pts := dts
    dts := dts
    keyframe := keyframe
    payload := some [0, 0, 1, if keyframe then 0x65 else 0x41, 0x80] }

def burstOf (frames : List Frame) : Burst :=
  match TsMux.burstInit videoMux 0 true with
  | (_, none) => ⟨[], 0, 0, []⟩
  | (mux, some burst) =>
    (frames.foldl (fun r frame => (TsMux.writeFrame r.1 r.2 frame frame.keyframe).2)
      (mux, burst)).2

/-- A system that always does what it is asked. -/
def serves : ℕ → Io := fun _ => ⟨true, true, true, true⟩

def keyframes (n : ℕ) : List Call :=
  (List.range n).map fun i : ℕ => .addBurst (burstOf [videoFrame (180000 * i) true])

end HlsSegmenter
