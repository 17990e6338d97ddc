import Mathlib.Data.List.Chain
import NginxMedia.HlsSegmenter

/-! What playlists say about the segments that they list. A segment's number is the media
sequence of a playlist and its index; a player that has read two playlists takes equal numbers
for the same segment. -/
namespace HlsWindow

open ByteString HlsSegmenter

def Sealed.segment? : Sealed → Option Segment
  | .segment segment _ => some segment
  | .playlist _ => none

def Sealed.playlist? : Sealed → Option Playlist
  | .segment _ _ => none
  | .playlist playlist => some playlist

def written (files : List Sealed) : List Segment := files.filterMap Sealed.segment?

def playlists (files : List Sealed) : List Playlist := files.filterMap Sealed.playlist?

def discontinuities (segments : List Segment) : ℕ := segments.countP Segment.discontinuity

def discontinuityNumber (p : Playlist) (i : ℕ) : ℕ :=
  p.discontinuitySequence + discontinuities (p.entries.take (i + 1))

structure Stable (ps : List Playlist) : Prop where
  rises : ps.Pairwise fun p q => p.mediaSequence ≤ q.mediaSequence
  agrees : ∀ p ∈ ps, ∀ q ∈ ps, ∀ i j s, p.entries[i]? = some s → q.entries[j]? = some s →
    p.mediaSequence + i = q.mediaSequence + j ∧ discontinuityNumber p i = discontinuityNumber q j

def totalBytes (segments : List Segment) : ℕ := (segments.map Segment.bytes).sum

def Over (conf : Conf) (segments : List Segment) (retained : ℕ) : Prop :=
  segments.length > conf.maxSegments ∨ conf.maxRetainedBytes ≠ 0 ∧ retained > conf.maxRetainedBytes

variable {hls : Hls} {io : ℕ → Io}

theorem evict_nil (h : hls.segments = []) : evict hls = hls := by
  rw [evict]
  split
  · rfl
  · rename_i heq
    rw [h] at heq
    contradiction

theorem evict_cons {oldest : Segment} {rest : List Segment} (h : hls.segments = oldest :: rest) :
    evict hls =
      if hls.segments.length > hls.conf.maxSegments ∨
          hls.conf.maxRetainedBytes ≠ 0 ∧ hls.retainedBytes > hls.conf.maxRetainedBytes then
        evict (evictOldest hls oldest rest)
      else hls := by
  rw [evict]
  split
  · rename_i heq
    rw [h] at heq
    contradiction
  · rename_i heq
    rw [h] at heq
    obtain ⟨rfl, rfl⟩ := List.cons.inj heq
    rfl

def shed (hls : Hls) (gone rest : List Segment) : Hls :=
  { hls with
    discontinuitySequence := hls.discontinuitySequence + discontinuities gone
    retainedBytes := hls.retainedBytes - totalBytes gone
    segmentsEvicted := hls.segmentsEvicted + gone.length
    segments := rest }

theorem shed_nil (hls : Hls) : shed hls [] hls.segments = hls := rfl

theorem shed_cons (hls : Hls) (oldest : Segment) (rest gone left : List Segment) :
    shed (evictOldest hls oldest rest) gone left = shed hls (oldest :: gone) left := by
  have hdisc : (if oldest.discontinuity then hls.discontinuitySequence + 1
      else hls.discontinuitySequence) + discontinuities gone =
      hls.discontinuitySequence + discontinuities (oldest :: gone) := by
    unfold discontinuities
    cases hd : oldest.discontinuity
    · simp [hd]
    · simp only [if_true, List.countP_cons, hd]
      omega
  have hbytes : hls.retainedBytes - oldest.bytes - totalBytes gone =
      hls.retainedBytes - totalBytes (oldest :: gone) := by
    unfold totalBytes
    rw [List.map_cons, List.sum_cons]
    omega
  have hcount : hls.segmentsEvicted + 1 + gone.length =
      hls.segmentsEvicted + (oldest :: gone).length := by
    rw [List.length_cons]
    omega
  simp only [shed, evictOldest, hdisc, hbytes, hcount]

theorem evict_spec (hls : Hls) :
    ∃ gone rest, hls.segments = gone ++ rest ∧ evict hls = shed hls gone rest ∧
      (rest = [] ∨ ¬ Over hls.conf rest (hls.retainedBytes - totalBytes gone)) ∧
      ∀ early last, gone = early ++ [last] →
        Over hls.conf (last :: rest) (hls.retainedBytes - totalBytes early) := by
  induction hls using evict.induct with
  | case1 hls h =>
    refine ⟨[], [], by simpa using h, ?_, Or.inl rfl, by simp⟩
    rw [evict_nil h, ← shed_nil hls, h]
    rfl
  | case2 hls oldest rest h hover ih =>
    obtain ⟨gone, left, hsplit, heq, hleft, hgone⟩ := ih
    have hrest : rest = gone ++ left := hsplit
    refine ⟨oldest :: gone, left, by rw [h, List.cons_append, ← hrest], ?_, ?_, ?_⟩
    · rw [evict_cons h, if_pos hover, heq, shed_cons]
    · rcases hleft with hnil | hin
      · exact Or.inl hnil
      · right
        simpa [evictOldest, totalBytes, Nat.sub_sub] using hin
    · intro early last hlast
      cases early with
      | nil =>
        obtain ⟨rfl, rfl⟩ := List.cons.inj hlast
        subst hrest
        rw [h] at hover
        simpa [Over, totalBytes] using hover
      | cons first early =>
        obtain ⟨rfl, htail⟩ := List.cons.inj hlast
        simpa [evictOldest, totalBytes, Nat.sub_sub] using hgone early last htail
  | case3 hls oldest rest h hover =>
    refine ⟨[], hls.segments, rfl, ?_, ?_, by simp⟩
    · rw [evict_cons h, if_neg hover, shed_nil]
    · right
      simpa [Over, totalBytes] using hover

structure Admits (io : ℕ → Io) (hls : Hls) (gone rest : List Segment) (more : List Sealed) :
    Prop where
  split : hls.segments ++ [closing hls] = gone ++ rest
  shelf : (cut io hls).shelf = { hls.shelf with
    segments := rest
    nextSequence := hls.nextSequence + 1
    discontinuitySequence := hls.discontinuitySequence + discontinuities gone
    retainedBytes := hls.retainedBytes + hls.bytes - totalBytes gone
    files := hls.files ++ .segment (closing hls) hls.pieces :: more }
  lists : playlists more = [] ∨
    playlists more = [playlist (cut io hls)] ∧ (io hls.nextSequence).listed = true
  noSegment : written more = []
  left : rest = [] ∨ ¬ Over hls.conf rest (hls.retainedBytes + hls.bytes - totalBytes gone)
  forced : ∀ early last, gone = early ++ [last] →
    Over hls.conf (last :: rest) (hls.retainedBytes + hls.bytes - totalBytes early)

theorem writePlaylist_cases (answer : Io) (hls : Hls) :
    ∃ more e, writePlaylist answer hls = { hls with errors := e, files := hls.files ++ more } ∧
      (playlists more = [] ∨ playlists more = [playlist hls] ∧ answer.listed = true) ∧
      written more = [] := by
  unfold writePlaylist
  split_ifs with hbuf hfull hlisted
  · exact ⟨[], hls.errors, by simp, Or.inl rfl, rfl⟩
  · exact ⟨[], hls.errors + 1, by simp, Or.inl rfl, rfl⟩
  · exact ⟨[.playlist (playlist hls)], hls.errors, rfl, Or.inr ⟨rfl, hlisted⟩, rfl⟩
  · exact ⟨[], hls.errors, by simp, Or.inl rfl, rfl⟩

theorem cut_cases (io : ℕ → Io) (hls : Hls) :
    (cut io hls = hls ∧
      (hls.pieces = [] ∨ hls.segments.length ≥ hls.segmentsCapacity)) ∨
    ((cut io hls).shelf = { hls.shelf with nextSequence := hls.nextSequence + 1 } ∧
      ((io hls.nextSequence).named = false ∨ (io hls.nextSequence).filed = false)) ∨
    (∃ gone rest more, Admits io hls gone rest more) ∧ hls.pieces ≠ [] ∧
      (io hls.nextSequence).named = true ∧ (io hls.nextSequence).filed = true := by
  by_cases hskip : hls.pieces = [] ∨ hls.segments.length ≥ hls.segmentsCapacity
  · exact Or.inl ⟨by rw [cut, if_pos hskip], hskip⟩
  by_cases hfail : (io hls.nextSequence).named = false ∨ (io hls.nextSequence).filed = false
  · refine Or.inr (Or.inl ⟨?_, hfail⟩)
    rw [cut, if_neg hskip, if_pos hfail]
    rfl
  · have hok : (io hls.nextSequence).named = true ∧ (io hls.nextSequence).filed = true := by
      simpa using hfail
    refine Or.inr (Or.inr ⟨?_, fun hp => hskip (Or.inl hp), hok⟩)
    obtain ⟨gone, rest, hsplit, heq, hleft, hforced⟩ := evict_spec (admitted hls)
    obtain ⟨more, e, hwrite, hlists, hnone⟩ :=
      writePlaylist_cases (io hls.nextSequence) (evict (admitted hls))
    have hcut : cut io hls =
        reset { shed (admitted hls) gone rest with
          errors := e
          files := (admitted hls).files ++ more } := by
      rw [cut, if_neg hskip, if_neg hfail, hwrite, heq]
      rfl
    refine ⟨gone, rest, more, hsplit, ?_, ?_, hnone, hleft, hforced⟩
    · rw [hcut]
      simp [reset, shed, Hls.shelf, admitted]
    · have hsame : playlist (cut io hls) = playlist (evict (admitted hls)) := by
        rw [hcut, heq]
        rfl
      rwa [hsame]

def Told (w : List Segment) (p : Playlist) : Prop :=
  ∃ gone later, w = gone ++ p.entries ++ later ∧ p.discontinuitySequence = discontinuities gone

structure Sound (s : Shelf) : Prop where
  some : 1 ≤ s.conf.maxSegments
  room : s.conf.maxSegments < s.segmentsCapacity
  count : s.segments.length ≤ s.conf.maxSegments
  bytes : s.retainedBytes = totalBytes s.segments
  below : ∀ w ∈ written s.files, w.sequence < s.nextSequence
  ordered : (written s.files).Pairwise fun a b => a.sequence < b.sequence
  window : ∃ gone, written s.files = gone ++ s.segments ∧
    s.discontinuitySequence = discontinuities gone
  told : ∀ p ∈ playlists s.files, Told (written s.files) p

variable {gone rest : List Segment} {more : List Sealed}

@[simp] theorem written_append (a b : List Sealed) : written (a ++ b) = written a ++ written b :=
  List.filterMap_append

@[simp] theorem playlists_append (a b : List Sealed) :
    playlists (a ++ b) = playlists a ++ playlists b := List.filterMap_append

theorem totalBytes_append (a b : List Segment) :
    totalBytes (a ++ b) = totalBytes a + totalBytes b := by
  simp [totalBytes]

theorem discontinuities_append (a b : List Segment) :
    discontinuities (a ++ b) = discontinuities a + discontinuities b := List.countP_append

theorem start_sound (conf : Conf) : Sound (start conf).shelf where
  some := by
    change 1 ≤ (settle conf).maxSegments
    unfold settle segmentsMax
    dsimp only
    split_ifs <;> omega
  room := by
    change (settle conf).maxSegments < segmentsMax + 1
    unfold settle
    dsimp only
    split_ifs <;> omega
  count := Nat.zero_le _
  bytes := rfl
  below := by simp [Hls.shelf, start, written]
  ordered := List.Pairwise.nil
  window := ⟨[], rfl, rfl⟩
  told := by simp [Hls.shelf, start, playlists]

theorem Told.append {w : List Segment} {p : Playlist} (h : Told w p) (more : List Segment) :
    Told (w ++ more) p := by
  obtain ⟨gone, later, hw, hd⟩ := h
  exact ⟨gone, later ++ more, by rw [hw, List.append_assoc], hd⟩

theorem admits_written (ha : Admits io hls gone rest more) :
    written (cut io hls).shelf.files = written hls.files ++ [closing hls] := by
  rw [ha.shelf]
  change written (hls.files ++ ([.segment (closing hls) hls.pieces] ++ more)) = _
  rw [written_append, written_append, ha.noSegment]
  rfl

theorem admits_playlists (ha : Admits io hls gone rest more) :
    playlists (cut io hls).shelf.files = playlists hls.files ++ playlists more := by
  rw [ha.shelf]
  change playlists (hls.files ++ ([.segment (closing hls) hls.pieces] ++ more)) = _
  rw [playlists_append, playlists_append]
  rfl

theorem admits_listed (ha : Admits io hls gone rest more) {p : Playlist}
    (hp : p ∈ playlists more) :
    p = playlist (cut io hls) ∧ (io hls.nextSequence).listed = true := by
  rcases ha.lists with hnone | ⟨hone, hlisted⟩
  · rw [hnone] at hp
    contradiction
  · rw [hone] at hp
    exact ⟨List.mem_singleton.mp hp, hlisted⟩

theorem admits_bytes (ha : Admits io hls gone rest more)
    (hb : hls.retainedBytes = totalBytes hls.segments) :
    hls.retainedBytes + hls.bytes = totalBytes gone + totalBytes rest := by
  have := congrArg totalBytes ha.split
  rw [totalBytes_append, totalBytes_append] at this
  rw [hb, ← this]
  rfl

theorem sound_cut (hs : Sound hls.shelf) : Sound (cut io hls).shelf := by
  rcases cut_cases io hls with ⟨heq, -⟩ | ⟨heq, -⟩ | ⟨⟨gone, rest, more, ha⟩, -, -, -⟩
  · rwa [heq]
  · rw [heq]
    exact ⟨hs.some, hs.room, hs.count, hs.bytes, fun w hw => Nat.lt_succ_of_lt (hs.below w hw),
      hs.ordered, hs.window, hs.told⟩
  · have hbytes := admits_bytes ha hs.bytes
    have hw := admits_written ha
    have hp := admits_playlists ha
    have hsh := ha.shelf
    obtain ⟨before, hwin, hdisc⟩ := hs.window
    have hwin' : written (cut io hls).shelf.files = before ++ gone ++ rest := by
      rw [hw, List.append_assoc, ← ha.split, ← List.append_assoc]
      exact congrArg (· ++ [closing hls]) hwin
    have hdisc' : (cut io hls).shelf.discontinuitySequence = discontinuities (before ++ gone) := by
      rw [hsh, discontinuities_append, ← hdisc]
      rfl
    constructor
    · rw [hsh]
      exact hs.some
    · rw [hsh]
      exact hs.room
    · rw [hsh]
      rcases ha.left with rfl | hin
      · exact Nat.zero_le _
      · simp only [Over, not_or, Nat.not_lt] at hin
        exact hin.1
    · rw [hsh]
      dsimp only
      omega
    · intro w hmem
      rw [hw, List.mem_append, List.mem_singleton] at hmem
      rw [hsh]
      rcases hmem with hmem | rfl
      · exact Nat.lt_succ_of_lt (hs.below w hmem)
      · exact Nat.lt_succ_self _
    · rw [hw, List.pairwise_append]
      refine ⟨hs.ordered, List.pairwise_singleton _ _, ?_⟩
      intro w hmem c hc
      rw [List.mem_singleton.mp hc]
      exact hs.below w hmem
    · refine ⟨before ++ gone, ?_, hdisc'⟩
      rw [hwin', hsh]
    · intro p hmem
      rw [hp, List.mem_append] at hmem
      rcases hmem with hmem | hmem
      · rw [hw]
        exact (hs.told p hmem).append _
      · rw [(admits_listed ha hmem).1]
        refine ⟨before ++ gone, [], ?_, hdisc'⟩
        rw [hwin', List.append_nil]
        change _ = before ++ gone ++ (cut io hls).shelf.segments
        rw [hsh]

theorem cut_reset (io : ℕ → Io) (hs : Sound hls.shelf) (hne : hls.pieces ≠ []) :
    ∃ other, cut io hls = reset other := by
  have hroom : ¬ (hls.pieces = [] ∨ hls.segments.length ≥ hls.segmentsCapacity) := by
    have h1 := hs.count
    have h2 := hs.room
    change hls.segments.length ≤ hls.conf.maxSegments at h1
    change hls.conf.maxSegments < hls.segmentsCapacity at h2
    rintro (h | h)
    · exact hne h
    · omega
  rw [cut, if_neg hroom]
  split_ifs
  · exact ⟨_, rfl⟩
  · exact ⟨_, rfl⟩

def Consecutive (segments : List Segment) : Prop :=
  segments.IsChain fun a b => b.sequence = a.sequence + 1

def Follows (hls : Hls) : Prop :=
  ∀ last ∈ hls.segments.getLast?,
    last.sequence + 1 = hls.nextSequence ∨ hls.conf.maxSegments = 1 ∨
      hls.conf.maxRetainedBytes ≠ 0 ∧ last.bytes + hls.bytes > hls.conf.maxRetainedBytes

def Remains (io : ℕ → Io) (hls : Hls) : Prop :=
  hls.conf.maxRetainedBytes = 0 ∨ hls.bytes ≤ hls.conf.maxRetainedBytes ∨
    (io hls.nextSequence).listed = false ∨ ∀ p ∈ playlists hls.files, p.mediaSequence = 0

/-- A cut that keeps the numbers. -/
def Steady (io : ℕ → Io) (hls : Hls) : Prop :=
  hls.pieces ≠ [] → (io hls.nextSequence).named = true → (io hls.nextSequence).filed = true →
    Follows hls ∧ Remains io hls

structure Numbered (s : Shelf) : Prop where
  window : Consecutive s.segments
  entries : ∀ p ∈ playlists s.files, Consecutive p.entries
  first : ∀ p ∈ playlists s.files, ∀ w ∈ p.entries.head?, p.mediaSequence = w.sequence
  rises : (playlists s.files).Pairwise fun p q => p.mediaSequence ≤ q.mediaSequence
  behind : ∀ p ∈ playlists s.files, ∀ w ∈ s.segments, p.mediaSequence ≤ w.sequence
  below : ∀ p ∈ playlists s.files, p.mediaSequence ≤ s.nextSequence

theorem start_numbered (conf : Conf) : Numbered (start conf).shelf where
  window := List.IsChain.nil
  entries := by simp [Hls.shelf, start, playlists]
  first := by simp [Hls.shelf, start, playlists]
  rises := List.Pairwise.nil
  behind := by simp [Hls.shelf, start, playlists]
  below := by simp [Hls.shelf, start, playlists]

theorem admits_rest (ha : Admits io hls gone rest more) :
    rest = [] ∧ gone = hls.segments ++ [closing hls] ∨
      ∃ kept, rest = kept ++ [closing hls] ∧ hls.segments = gone ++ kept := by
  rcases rest.eq_nil_or_concat with rfl | ⟨kept, last, rfl⟩
  · left
    simpa using ha.split.symm
  · right
    have hsplit := ha.split
    rw [List.concat_eq_append] at hsplit ⊢
    rw [← List.append_assoc] at hsplit
    obtain ⟨hseg, hlast⟩ := List.append_inj' hsplit rfl
    rw [List.cons.inj hlast |>.1]
    exact ⟨kept, rfl, hseg⟩

theorem admits_mem (ha : Admits io hls gone rest more) {w : Segment} (hw : w ∈ rest) :
    w ∈ hls.segments ∨ w = closing hls := by
  have : w ∈ hls.segments ++ [closing hls] := by
    rw [ha.split]
    exact List.mem_append_right _ hw
  simpa using this

theorem admits_first (ha : Admits io hls gone rest more) {p : Playlist}
    (hp : p ∈ playlists more) :
    p.mediaSequence = (rest.head?.map Segment.sequence).getD 0 := by
  rw [(admits_listed ha hp).1, ← show (cut io hls).segments = rest from
    congrArg Shelf.segments ha.shelf]
  rfl

theorem consecutive_get {segments : List Segment} (h : Consecutive segments) {head w : Segment}
    (hhead : head ∈ segments.head?) {i : ℕ} (hw : segments[i]? = some w) :
    w.sequence = head.sequence + i := by
  induction segments generalizing head i with
  | nil => contradiction
  | cons first rest ih =>
    obtain rfl : first = head := by simpa using hhead
    cases i with
    | zero =>
      obtain rfl : first = w := by simpa using hw
      rfl
    | succ i =>
      cases rest with
      | nil => simp at hw
      | cons second rest =>
        have hstep := h.rel_head?
        rw [ih h.tail (Option.mem_some_self second) hw, hstep (Option.mem_some_self second)]
        omega

theorem consecutive_le {head w : Segment} {tail : List Segment} (h : Consecutive (head :: tail))
    (hw : w ∈ head :: tail) : head.sequence ≤ w.sequence := by
  obtain ⟨i, hi⟩ := List.mem_iff_getElem?.mp hw
  rw [consecutive_get h (Option.mem_some_self head) hi]
  exact Nat.le_add_right _ _

theorem admits_consecutive (hs : Sound hls.shelf) (hn : Numbered hls.shelf)
    (ha : Admits io hls gone rest more) (hf : Follows hls) : Consecutive rest := by
  rcases admits_rest ha with ⟨rfl, -⟩ | ⟨kept, rfl, hseg⟩
  · exact List.IsChain.nil
  have hkept : Consecutive kept := by
    have := hn.window
    change Consecutive hls.segments at this
    rw [hseg] at this
    exact this.right_of_append
  apply hkept.append (List.isChain_singleton _)
  intro last hlast fresh hfresh
  obtain rfl : closing hls = fresh := by simpa using hfresh
  have hmem : last ∈ hls.segments.getLast? := by
    rw [hseg, List.getLast?_append, Option.mem_def.mp hlast]
    exact Option.mem_some_self _
  have hin : ¬ Over hls.conf (kept ++ [closing hls])
      (hls.retainedBytes + hls.bytes - totalBytes gone) := by
    rcases ha.left with hnil | hin
    · simp at hnil
    · exact hin
  simp only [Over, not_or, not_and, Nat.not_lt, List.length_append, List.length_singleton] at hin
  have hbytes := admits_bytes ha hs.bytes
  obtain ⟨early, hearly⟩ := List.getLast?_eq_some_iff.mp (Option.mem_def.mp hlast)
  rw [totalBytes_append] at hbytes
  rcases hf last hmem with hnext | hone | ⟨hlimit, hlarge⟩
  · exact hnext.symm
  · rw [hearly, List.length_append, List.length_singleton] at hin
    omega
  · have hsum : totalBytes kept = totalBytes early + last.bytes := by
      rw [hearly, totalBytes_append]
      rfl
    have hnew : totalBytes [closing hls] = hls.bytes := rfl
    have := hin.2 hlimit
    omega

theorem admits_rises (hs : Sound hls.shelf) (hn : Numbered hls.shelf)
    (ha : Admits io hls gone rest more) (hr : Remains io hls) {p q : Playlist}
    (hq : q ∈ playlists hls.files) (hp : p ∈ playlists more) :
    q.mediaSequence ≤ p.mediaSequence := by
  obtain ⟨-, hlisted⟩ := admits_listed ha hp
  cases rest with
  | cons head tail =>
    rw [admits_first ha hp]
    rcases admits_mem ha List.mem_cons_self with hmem | heq
    · exact hn.behind q hq head hmem
    · rw [heq]
      exact hn.below q hq
  | nil =>
    rcases hr with hnone | hfits | hquiet | hzero
    · exfalso
      rcases admits_rest ha with ⟨-, hgone⟩ | ⟨kept, hkept, -⟩
      · have hover := ha.forced hls.segments (closing hls) hgone
        have := hs.some
        change 1 ≤ hls.conf.maxSegments at this
        simp only [Over, hnone, List.length_singleton] at hover
        omega
      · simp at hkept
    · exfalso
      rcases admits_rest ha with ⟨-, hgone⟩ | ⟨kept, hkept, -⟩
      · have hover := ha.forced hls.segments (closing hls) hgone
        have hbytes := hs.bytes
        change hls.retainedBytes = totalBytes hls.segments at hbytes
        have := hs.some
        change 1 ≤ hls.conf.maxSegments at this
        simp only [Over, List.length_singleton] at hover
        omega
      · simp at hkept
    · rw [hquiet] at hlisted
      contradiction
    · rw [hzero q hq]
      exact Nat.zero_le _

theorem numbered_cut (hs : Sound hls.shelf) (hn : Numbered hls.shelf) (hst : Steady io hls) :
    Numbered (cut io hls).shelf := by
  rcases cut_cases io hls with ⟨heq, -⟩ | ⟨heq, -⟩ | ⟨⟨gone, rest, more, ha⟩, hne, hname, hfile⟩
  · rwa [heq]
  · rw [heq]
    exact ⟨hn.window, hn.entries, hn.first, hn.rises, hn.behind,
      fun p hp => Nat.le_succ_of_le (hn.below p hp)⟩
  · obtain ⟨hf, hr⟩ := hst hne hname hfile
    have hrest := admits_consecutive hs hn ha hf
    have hseg : (cut io hls).segments = rest := congrArg Shelf.segments ha.shelf
    have hnext : (cut io hls).nextSequence = hls.nextSequence + 1 :=
      congrArg Shelf.nextSequence ha.shelf
    have hp := admits_playlists ha
    constructor
    · change Consecutive (cut io hls).segments
      rwa [hseg]
    · intro p hmem
      rw [hp, List.mem_append] at hmem
      rcases hmem with hmem | hmem
      · exact hn.entries p hmem
      · rw [(admits_listed ha hmem).1]
        change Consecutive (cut io hls).segments
        rwa [hseg]
    · intro p hmem w hw
      rw [hp, List.mem_append] at hmem
      rcases hmem with hmem | hmem
      · exact hn.first p hmem w hw
      · rw [(admits_listed ha hmem).1] at hw ⊢
        change w ∈ (cut io hls).segments.head? at hw
        simp [playlist, Option.mem_def.mp hw]
    · rw [hp, List.pairwise_append]
      refine ⟨hn.rises, ?_, fun q hq p hp => admits_rises hs hn ha hr hq hp⟩
      rcases ha.lists with hnone | ⟨hone, -⟩
      · rw [hnone]
        exact List.Pairwise.nil
      · rw [hone]
        exact List.pairwise_singleton _ _
    · intro p hmem w hw
      change w ∈ (cut io hls).segments at hw
      rw [hseg] at hw
      rw [hp, List.mem_append] at hmem
      rcases hmem with hmem | hmem
      · rcases admits_mem ha hw with hold | rfl
        · exact hn.behind p hmem w hold
        · exact hn.below p hmem
      · cases rest with
        | nil => contradiction
        | cons head tail =>
          rw [admits_first ha hmem]
          exact consecutive_le hrest hw
    · intro p hmem
      change p.mediaSequence ≤ (cut io hls).nextSequence
      rw [hnext]
      rw [hp, List.mem_append] at hmem
      rcases hmem with hmem | hmem
      · exact Nat.le_succ_of_le (hn.below p hmem)
      · rw [admits_first ha hmem]
        cases rest with
        | nil => exact Nat.zero_le _
        | cons head tail =>
          obtain ⟨before, hwin, -⟩ := hs.window
          rcases admits_mem ha List.mem_cons_self with hold | heq
          · have : head ∈ written hls.shelf.files := by
              rw [hwin]
              exact List.mem_append_right _ hold
            exact (Nat.lt_succ_of_lt (hs.below head this)).le
          · rw [heq]
            exact Nat.le_succ _

theorem steady_move {m : Move} (h : Sound hls.shelf ∧ Numbered hls.shelf)
    (hall : ∀ a ∈ cuts io hls m, Steady io a) :
    Sound (move io hls m).shelf ∧ Numbered (move io hls m).shelf :=
  move_shelf (P := fun s => Sound s ∧ Numbered s) (Steady io)
    (fun _ hp ha => ⟨sound_cut hp.1, numbered_cut hp.1 hp.2 ha⟩) h hall

theorem ordered_index {w : List Segment}
    (ho : w.Pairwise fun a b => a.sequence < b.sequence) {i j : ℕ} {s : Segment}
    (hi : w[i]? = some s) (hj : w[j]? = some s) : i = j := by
  obtain ⟨hilt, hi⟩ := List.getElem?_eq_some_iff.mp hi
  obtain ⟨hjlt, hj⟩ := List.getElem?_eq_some_iff.mp hj
  rw [List.pairwise_iff_getElem] at ho
  rcases Nat.lt_trichotomy i j with hlt | heq | hgt
  · have := ho i j hilt hjlt hlt
    rw [hi, hj] at this
    exact absurd this (Nat.lt_irrefl _)
  · exact heq
  · have := ho j i hjlt hilt hgt
    rw [hi, hj] at this
    exact absurd this (Nat.lt_irrefl _)

theorem told_number {w : List Segment} {p : Playlist} (hp : Told w p) {i : ℕ} {s : Segment}
    (hi : p.entries[i]? = some s) :
    ∃ n, w[n]? = some s ∧ discontinuityNumber p i = discontinuities (w.take (n + 1)) := by
  obtain ⟨gone, later, hw, hd⟩ := hp
  have hlt : i < p.entries.length := (List.getElem?_eq_some_iff.mp hi).1
  refine ⟨gone.length + i, ?_, ?_⟩
  · rw [hw, List.append_assoc, List.getElem?_append_right (Nat.le_add_right _ _),
      Nat.add_sub_cancel_left, List.getElem?_append_left hlt, hi]
  · rw [hw, List.append_assoc, Nat.add_assoc, List.take_length_add_append,
      List.take_append_of_le_length hlt, discontinuities_append, ← hd]
    rfl

/-- The playlists of a run whose cuts keep the numbers never take a number back. -/
theorem sequences_stable (conf : Conf) (io : ℕ → Io) (calls : List Call)
    (h : StepRun.Meets (move io) (fun hls m => ∀ a ∈ cuts io hls m, Steady io a) (start conf)
      (calls.flatMap Call.moves)) :
    Stable (playlists (calls.foldl (call io) (start conf)).files) := by
  have hinv : Sound (calls.foldl (call io) (start conf)).shelf ∧
      Numbered (calls.foldl (call io) (start conf)).shelf := by
    rw [calls_moves]
    exact StepRun.invariant_of_meets (I := fun hls => Sound hls.shelf ∧ Numbered hls.shelf)
      (fun _ _ => steady_move) ⟨start_sound conf, start_numbered conf⟩ h
  obtain ⟨hs, hn⟩ := hinv
  constructor
  · exact hn.rises
  · intro p hp q hq i j s hi hj
    constructor
    · have hnum : ∀ r ∈ playlists (calls.foldl (call io) (start conf)).files, ∀ k,
          r.entries[k]? = some s → s.sequence = r.mediaSequence + k := by
        intro r hr k hk
        cases hent : r.entries with
        | nil =>
          rw [hent] at hk
          contradiction
        | cons head tail =>
          have hhead : head ∈ r.entries.head? := by
            rw [hent]
            exact Option.mem_some_self head
          rw [hn.first r hr head hhead]
          exact consecutive_get (hn.entries r hr) hhead hk
      rw [← hnum p hp i hi, ← hnum q hq j hj]
    · obtain ⟨n, hn, hdp⟩ := told_number (hs.told p hp) hi
      obtain ⟨m, hm, hdq⟩ := told_number (hs.told q hq) hj
      rw [hdp, hdq, ordered_index hs.ordered hn hm]

instance (hls : Hls) : Decidable (Follows hls) :=
  inferInstanceAs (Decidable (∀ last ∈ hls.segments.getLast?, _))

instance (io : ℕ → Io) (hls : Hls) : Decidable (Remains io hls) :=
  inferInstanceAs (Decidable (_ ∨ _))

instance (io : ℕ → Io) (hls : Hls) : Decidable (Steady io hls) :=
  inferInstanceAs (Decidable (_ → _))

/-- The window of two segments slides over three. -/
theorem sequences_stable_keyframes :
    Stable (playlists ((keyframes 4).foldl (call serves)
      (start { confDefault with path := ascii "/hls", maxSegments := 2 })).files) :=
  sequences_stable _ serves (keyframes 4) (by decide +kernel)

/-- The second segment is not written: the third is number 1 while the first is listed, and
number 2 afterwards. -/
theorem failed_write_renumbers :
    ¬ Stable (playlists ((keyframes 5).foldl (call fun n => ⟨true, n != 1, true, true⟩)
      (start { confDefault with path := ascii "/hls", maxSegments := 2 })).files) := by
  intro h
  have hagree := h.agrees
    ⟨4, 0, 0, [⟨0, ascii "seg-000000.ts", 2000, 564, false⟩,
      ⟨2, ascii "seg-000002.ts", 2000, 564, false⟩]⟩ (by decide +kernel)
    ⟨4, 2, 0, [⟨2, ascii "seg-000002.ts", 2000, 564, false⟩,
      ⟨3, ascii "seg-000003.ts", 2000, 564, false⟩]⟩ (by decide +kernel)
    1 0 _ rfl rfl
  exact absurd hagree.1 (by decide)

end HlsWindow
