import NginxMedia.HlsLimits

/-! What the segments hold. The pieces of a segment are those of the slices that went into it,
behind one copy of the program tables; every slice offered is in exactly one segment, pending,
or counted as dropped. -/
namespace HlsContents

open ByteString HlsSegmenter HlsWindow
open TsMux (Slice Burst)

abbrev Item := Burst × Slice

variable {hls next : Hls} {io : ℕ → Io} {burst : Burst} {slice : Slice}
  {offered pending : List Item} {segs : List (List Item)}

def mediaPiece (item : Item) : Piece := ⟨item.1.bytes, item.2.offset, item.2.len⟩

def tablePieces : List Item → List Piece
  | [] => []
  | first :: _ =>
    if first.1.psiLen > 0 then [⟨first.1.bytes, 0, first.1.psiLen⟩] else []

def layout (items : List Item) : List Piece := tablePieces items ++ items.map mediaPiece

def Sealed.pieces? : Sealed → Option (List Piece)
  | .segment _ pieces => some pieces
  | .playlist _ => none

def contents (files : List Sealed) : List (List Piece) := files.filterMap Sealed.pieces?

/-- The segment begins with program tables and a video keyframe. -/
def Opens (items : List Item) : Prop :=
  ∃ first rest, items = first :: rest ∧ 0 < first.1.psiLen ∧ keySlice first.2 = true

structure Split (offered : List Item) (hls : Hls) (segs : List (List Item))
    (pending : List Item) : Prop where
  files : contents hls.files = segs.map layout
  pieces : hls.pieces = layout pending
  kept : (segs.flatten ++ pending).Sublist offered
  dropped : (segs.flatten ++ pending).length + hls.droppedFrames = offered.length

def Decodable (segs : List (List Item)) (pending : List Item) : Prop :=
  (∀ s ∈ segs, Opens s) ∧ (pending ≠ [] → Opens pending)

/-- The slice comes with program tables, and is a video keyframe where nothing is pending behind
a finished segment or where the maximum duration forces a cut. -/
def Clean (hls : Hls) : Move → Prop
  | .slice burst slice =>
    0 < burst.psiLen ∧
      (hls.started = true → hls.pieces = [] ∨ durationDue (opened hls slice) slice = true →
        keySlice slice = true)
  | _ => True

def Move.items : Move → List Item
  | .slice burst slice => [(burst, slice)]
  | .discontinuity => []
  | .finish => []

theorem layout_ne_nil (h : pending ≠ []) : layout pending ≠ [] := by
  cases pending with
  | nil => exact absurd rfl h
  | cons first rest => simp [layout]

theorem layout_concat (items : List Item) (burst : Burst) (slice : Slice) :
    layout (items ++ [(burst, slice)]) =
      layout items ++ slicePieces burst (decide (layout items = [])) slice := by
  cases items with
  | nil => simp [layout, tablePieces, slicePieces, mediaPiece]
  | cons first rest =>
    have hne : layout (first :: rest) ≠ [] := layout_ne_nil (List.cons_ne_nil _ _)
    simp only [hne, decide_false]
    simp [layout, tablePieces, slicePieces, mediaPiece]

theorem Split.same (h : Split offered hls segs pending) (hf : next.files = hls.files)
    (hp : next.pieces = hls.pieces) (hd : next.droppedFrames = hls.droppedFrames) :
    Split offered next segs pending :=
  ⟨by rw [hf, h.files], by rw [hp, h.pieces], h.kept, by rw [hd, h.dropped]⟩

theorem Split.drop (h : Split offered hls segs pending) (item : Item)
    (hf : next.files = hls.files) (hp : next.pieces = hls.pieces)
    (hd : next.droppedFrames = hls.droppedFrames + 1) :
    Split (offered ++ [item]) next segs pending := by
  refine ⟨by rw [hf, h.files], by rw [hp, h.pieces],
    h.kept.trans (List.sublist_append_left _ _), ?_⟩
  have hcount := h.dropped
  have hlen : (offered ++ [item]).length = offered.length + 1 := List.length_append
  omega

theorem contents_nil {more : List Sealed} (h : written more = []) : contents more = [] := by
  unfold written at h
  unfold contents
  rw [List.filterMap_eq_nil_iff] at h ⊢
  intro file hmem
  cases file with
  | segment segment pieces => exact absurd (h _ hmem) (Option.some_ne_none segment)
  | playlist playlist => rfl

theorem cut_dropped (io : ℕ → Io) (hls : Hls) :
    (cut io hls).droppedFrames = hls.droppedFrames := by
  unfold cut
  split_ifs
  · rfl
  · rfl
  · obtain ⟨gone, rest, -, heq, -⟩ := evict_spec (admitted hls)
    obtain ⟨more, e, hwrite, -⟩ :=
      writePlaylist_cases (io hls.nextSequence) (evict (admitted hls))
    rw [hwrite, heq]
    rfl

theorem Split.cut (h : Split offered hls segs pending) (hs : Sound hls.shelf)
    (hio : ∀ n, (io n).named = true ∧ (io n).filed = true) (hne : hls.pieces ≠ []) :
    Split offered (cut io hls) (segs ++ [pending]) [] := by
  obtain ⟨other, hreset⟩ := cut_reset io hs hne
  have hempty : (HlsSegmenter.cut io hls).pieces = [] := by
    rw [hreset]
    rfl
  have hfiles : contents (HlsSegmenter.cut io hls).files = contents hls.files ++ [hls.pieces] := by
    rcases cut_cases io hls with ⟨heq, -⟩ | ⟨-, hfail⟩ | ⟨⟨gone, rest, more, ha⟩, -⟩
    · rw [heq] at hempty
      exact absurd hempty hne
    · obtain ⟨hn, hf⟩ := hio hls.nextSequence
      simp [hn, hf] at hfail
    · rw [show (HlsSegmenter.cut io hls).files = _ from congrArg Shelf.files ha.shelf]
      have hnone := contents_nil ha.noSegment
      change contents (hls.files ++ ([.segment (closing hls) hls.pieces] ++ more)) = _
      unfold contents at hnone ⊢
      rw [List.filterMap_append, List.filterMap_append, hnone, List.append_nil]
      rfl
  refine ⟨?_, hempty, ?_, ?_⟩
  · rw [hfiles, h.files, h.pieces, List.map_append]
    rfl
  · simpa using h.kept
  · rw [cut_dropped]
    simpa using h.dropped

theorem Decodable.close (h : Decodable segs pending) (hne : pending ≠ []) :
    Decodable (segs ++ [pending]) [] := by
  constructor
  · intro s hs
    rw [List.mem_append, List.mem_singleton] at hs
    rcases hs with hs | rfl
    · exact h.1 s hs
    · exact h.2 hne
  · exact fun h => absurd rfl h

theorem Decodable.join {item : Item} (h : Decodable segs pending)
    (hopen : pending = [] → 0 < item.1.psiLen ∧ keySlice item.2 = true) :
    Decodable segs (pending ++ [item]) := by
  refine ⟨h.1, fun _ => ?_⟩
  by_cases hempty : pending = []
  · obtain ⟨hpsi, hkey⟩ := hopen hempty
    exact ⟨item, [], by rw [hempty]; rfl, hpsi, hkey⟩
  · obtain ⟨first, rest, heq, hpsi, hkey⟩ := h.2 hempty
    exact ⟨first, rest ++ [item], by rw [heq]; rfl, hpsi, hkey⟩

theorem Split.pending_ne (h : Split offered hls segs pending) (hne : hls.pieces ≠ []) :
    pending ≠ [] := by
  rintro rfl
  exact hne h.pieces

theorem filled_fields (burst : Burst) (slice : Slice) (hroom : hls.pieces.length < maxPieces) :
    ∃ full, filled burst hls slice = some full ∧
      full.pieces = hls.pieces ++ slicePieces burst (decide (hls.pieces = [])) slice ∧
      full.shelf = hls.shelf ∧ full.droppedFrames = hls.droppedFrames := by
  rw [filled_eq hroom]
  exact ⟨_, rfl, rfl, rfl, rfl⟩

theorem append_split (burst : Burst) (slice : Slice) (h : Split offered hls segs pending) (hs : Sound hls.shelf)
    (hio : ∀ n, (io n).named = true ∧ (io n).filed = true)
    (hroom : hls.pieces.length < maxPieces) :
    ∃ segs' pending',
      Split (offered ++ [(burst, slice)]) (append io burst hls slice) segs' pending' ∧
      ((pending = [] → 0 < burst.psiLen ∧ keySlice slice = true) →
        Decodable segs pending → Decodable segs' pending') := by
  obtain ⟨full, hfill, hpieces, hshelf, hdropped⟩ :=
    filled_fields burst slice hroom
  have hfull : Split (offered ++ [(burst, slice)]) full segs (pending ++ [(burst, slice)]) := by
    refine ⟨?_, ?_, ?_, ?_⟩
    · rw [show full.files = hls.files from congrArg Shelf.files hshelf]
      exact h.files
    · rw [hpieces, layout_concat, ← h.pieces]
    · rw [← List.append_assoc]
      exact h.kept.append (List.Sublist.refl _)
    · have := h.dropped
      simp only [List.length_append, List.length_singleton] at this ⊢
      omega
  rw [append, hfill]
  dsimp only
  split_ifs with hbytes
  · refine ⟨segs ++ [pending ++ [(burst, slice)]], [], ?_, ?_⟩
    · have hne : full.pieces ≠ [] := by
        rw [hpieces]
        unfold slicePieces
        simp
      rw [← hshelf] at hs
      exact (hfull.cut hs hio hne).same rfl rfl rfl
    · exact fun hopen hd => (hd.join hopen).close (by simp)
  · exact ⟨segs, pending ++ [(burst, slice)], hfull, fun hopen hd => hd.join hopen⟩

theorem boundary_sound (hs : Sound hls.shelf) : Sound (boundary io hls slice).shelf := by
  have hext : Sound (extended hls slice).shelf := by
    rwa [shelf_extended]
  unfold boundary
  split_ifs
  · exact sound_cut hext
  · exact sound_cut hext
  · exact hs

theorem begins_key (io : ℕ → Io) (hkeep : ¬ (hls.started = false ∧ keySlice slice = false))
    (hclean : Clean hls (.slice burst slice))
    (hempty : (boundary io (opened hls slice) slice).pieces = []) : keySlice slice = true := by
  cases hst : hls.started with
  | false =>
    by_contra hk
    exact hkeep ⟨hst, by simpa using hk⟩
  | true =>
    by_cases hkey : keyframeDue (opened hls slice) slice = true
    · exact (keyframeDue_iff.mp hkey).2.1
    · apply hclean.2 hst
      by_cases hmax : durationDue (opened hls slice) slice = true
      · exact Or.inr hmax
      · left
        rw [boundary, if_neg hkey, if_neg hmax] at hempty
        exact (opened_fields hls slice).1.symm.trans hempty

theorem boundary_split (slice : Slice) (h : Split offered hls segs pending) (hs : Sound hls.shelf)
    (hio : ∀ n, (io n).named = true ∧ (io n).filed = true) :
    ∃ segs' pending', Split offered (boundary io hls slice) segs' pending' ∧
      (Decodable segs pending → Decodable segs' pending') := by
  have hext : Split offered (extended hls slice) segs pending := by
    unfold extended
    split_ifs
    · exact h.same rfl rfl rfl
    · exact h
  have hpieces : (extended hls slice).pieces = hls.pieces := by
    unfold extended
    split_ifs <;> rfl
  have hsound : Sound (extended hls slice).shelf := by
    rw [shelf_extended]
    exact hs
  have hcut : hls.pieces ≠ [] →
      Split offered (HlsSegmenter.cut io (extended hls slice)) (segs ++ [pending]) [] := by
    intro hne
    rw [← hpieces] at hne
    exact hext.cut hsound hio hne
  unfold boundary
  split_ifs with hkey hmax
  · have hne := (keyframeDue_iff.mp hkey).1
    exact ⟨_, _, (hcut hne).same rfl rfl rfl, fun hd => hd.close (h.pending_ne hne)⟩
  · have hne := (durationDue_iff.mp hmax).1
    exact ⟨_, _, (hcut hne).same rfl rfl rfl, fun hd => hd.close (h.pending_ne hne)⟩
  · exact ⟨segs, pending, h, id⟩

theorem slice_split (h : Split offered hls segs pending) (hs : Sound hls.shelf)
    (hio : ∀ n, (io n).named = true ∧ (io n).filed = true) :
    ∃ segs' pending',
      Split (offered ++ [(burst, slice)]) (addSlice io burst hls slice) segs' pending' ∧
      (Clean hls (.slice burst slice) → Decodable segs pending → Decodable segs' pending') := by
  unfold addSlice
  by_cases hdrop : hls.started = false ∧ keySlice slice = false
  · rw [if_pos hdrop]
    exact ⟨segs, pending, h.drop _ rfl rfl rfl, fun _ hd => hd⟩
  rw [if_neg hdrop]
  obtain ⟨hpieces, -, -, hdropped, -, -⟩ := opened_fields hls slice
  have hshelf := shelf_opened hls slice
  have hopened : Split offered (opened hls slice) segs pending :=
    h.same (congrArg Shelf.files hshelf) hpieces hdropped
  have hsound : Sound (opened hls slice).shelf := by rwa [hshelf]
  have hnext : Sound (boundary io (opened hls slice) slice).shelf := boundary_sound hsound
  obtain ⟨segs₁, pending₁, hsplit, hkeep⟩ := boundary_split slice hopened hsound hio
  dsimp only
  by_cases hfull : (boundary io (opened hls slice) slice).pieces.length ≥ maxPieces
  · rw [if_pos hfull]
    have hne : (boundary io (opened hls slice) slice).pieces ≠ [] := by
      intro h
      rw [h] at hfull
      contradiction
    refine ⟨segs₁ ++ [pending₁], [], ?_, fun _ hd => (hkeep hd).close (hsplit.pending_ne hne)⟩
    apply (hsplit.cut hnext hio hne).drop
    · rfl
    · rfl
    · dsimp only
      rw [cut_dropped]
  · rw [if_neg hfull]
    obtain ⟨segs₂, pending₂, hjoined, hjoin⟩ := append_split burst slice
      hsplit hnext hio (Nat.not_le.mp hfull)
    refine ⟨segs₂, pending₂, hjoined, ?_⟩
    intro hclean hd
    apply hjoin _ (hkeep hd)
    intro hempty
    refine ⟨hclean.1, begins_key io hdrop hclean ?_⟩
    rw [hsplit.pieces, hempty]
    rfl

theorem close_split (h : Split offered hls segs pending) (hs : Sound hls.shelf)
    (hio : ∀ n, (io n).named = true ∧ (io n).filed = true) :
    ∃ segs' pending', Split offered (finish io hls) segs' pending' ∧
      (Decodable segs pending → Decodable segs' pending') := by
  unfold finish
  by_cases hempty : hls.pieces = []
  · rw [if_pos hempty]
    exact ⟨segs, pending, h, id⟩
  · rw [if_neg hempty]
    exact ⟨_, _, h.cut hs hio hempty, fun hd => hd.close (h.pending_ne hempty)⟩

theorem move_split (h : Split offered hls segs pending) (hs : Sound hls.shelf)
    (hio : ∀ n, (io n).named = true ∧ (io n).filed = true) (m : Move) :
    ∃ segs' pending', Split (offered ++ Move.items m) (move io hls m) segs' pending' ∧
      (Clean hls m → Decodable segs pending → Decodable segs' pending') := by
  cases m with
  | slice burst slice => exact slice_split h hs hio
  | finish =>
    obtain ⟨segs', pending', hsplit, hd⟩ := close_split h hs hio
    refine ⟨segs', pending', ?_, fun _ => hd⟩
    rw [Move.items, List.append_nil]
    exact hsplit
  | discontinuity =>
    obtain ⟨segs', pending', hsplit, hd⟩ := close_split h hs hio
    refine ⟨segs', pending', ?_, fun _ => hd⟩
    rw [Move.items, List.append_nil]
    exact hsplit.same rfl rfl rfl

theorem sound_move (hs : Sound hls.shelf) (m : Move) : Sound (move io hls m).shelf :=
  move_shelf (fun _ => True) (fun _ ha _ => sound_cut ha) hs (fun _ _ => trivial)

theorem moves_split (h : Split offered hls segs pending) (hs : Sound hls.shelf)
    (hio : ∀ n, (io n).named = true ∧ (io n).filed = true) (moves : List Move) :
    ∃ segs' pending',
      Split (offered ++ moves.flatMap Move.items) (moves.foldl (move io) hls) segs' pending' ∧
      (StepRun.Meets (move io) Clean hls moves → Decodable segs pending →
        Decodable segs' pending') := by
  induction moves generalizing hls offered segs pending with
  | nil => exact ⟨segs, pending, by simpa using h, fun _ hd => hd⟩
  | cons m rest ih =>
    obtain ⟨segs₁, pending₁, hsplit, hstep⟩ := move_split h hs hio m
    obtain ⟨segs', pending', hrun, hkeep⟩ := ih hsplit (sound_move hs m)
    refine ⟨segs', pending', ?_, fun hm hd => hkeep hm.2 (hstep hm.1 hd)⟩
    rw [List.flatMap_cons, ← List.append_assoc]
    exact hrun

def Call.items : Call → List Item
  | .addBurst burst => burst.slices.map fun slice => (burst, slice)
  | .discontinuity => []
  | .finish => []

theorem call_items (calls : List Call) :
    (calls.flatMap Call.moves).flatMap Move.items = calls.flatMap Call.items := by
  induction calls with
  | nil => rfl
  | cons c rest ih =>
    rw [List.flatMap_cons, List.flatMap_append, ih, List.flatMap_cons]
    congr 1
    cases c with
    | addBurst burst =>
      simp only [Call.moves, Call.items, Move.items, List.flatMap_map]
      exact List.flatMap_pure_eq_map _ _
    | discontinuity => rfl
    | finish => rfl

theorem start_split (conf : Conf) : Split [] (start conf) [] [] :=
  ⟨rfl, rfl, List.Sublist.refl _, rfl⟩

/-- While the system writes what it is asked, no slice is lost, repeated or moved; and where
every cut is clean each segment begins with tables and a keyframe. -/
theorem segments_whole (conf : Conf) (io : ℕ → Io) (calls : List Call)
    (hio : ∀ n, (io n).named = true ∧ (io n).filed = true) :
    ∃ segs pending,
      Split (calls.flatMap Call.items) (calls.foldl (call io) (start conf)) segs pending ∧
      (StepRun.Meets (move io) Clean (start conf) (calls.flatMap Call.moves) →
        ∀ s ∈ segs, Opens s) := by
  obtain ⟨segs, pending, hsplit, hd⟩ := moves_split (start_split conf)
    (start_sound conf) hio (calls.flatMap Call.moves)
  rw [List.nil_append, call_items, ← calls_moves] at hsplit
  refine ⟨segs, pending, hsplit, fun hm => (hd hm ?_).1⟩
  exact ⟨by simp, fun hne => absurd rfl hne⟩

instance (hls : Hls) (m : Move) : Decidable (Clean hls m) :=
  match m with
  | .slice _ _ => inferInstanceAs (Decidable (_ ∧ _))
  | .discontinuity => inferInstanceAs (Decidable True)
  | .finish => inferInstanceAs (Decidable True)

theorem segments_whole_keyframes :
    ∃ segs pending,
      Split ((keyframes 4).flatMap Call.items) ((keyframes 4).foldl (call serves)
        (start { confDefault with path := ascii "/hls" })) segs pending ∧
      ∀ s ∈ segs, Opens s := by
  obtain ⟨segs, pending, hsplit, hopen⟩ := segments_whole { confDefault with path := ascii "/hls" }
    serves (keyframes 4) (fun _ => ⟨rfl, rfl⟩)
  exact ⟨segs, pending, hsplit, hopen (by decide +kernel)⟩

/-- A keyframe and then a frame every two seconds, none of them a keyframe. -/
def sparse : List Call :=
  [.addBurst (burstOf [videoFrame 0 true, videoFrame 180000 false, videoFrame 360000 false]),
    .finish]

/-- The cut that the maximum forces begins the second segment between keyframes. -/
theorem forced_cut_opens_badly :
    ¬ ∃ segs pending,
      Split (sparse.flatMap Call.items) (sparse.foldl (call serves)
        (start { confDefault with path := ascii "/hls" })) segs pending ∧
      ∀ s ∈ segs, Opens s := by
  rintro ⟨segs, pending, hsplit, hopen⟩
  have hsecond : ((contents (sparse.foldl (call serves)
      (start { confDefault with path := ascii "/hls" })).files)[1]?).isSome := by
    decide +kernel
  have hlast : ∀ item ∈ sparse.flatMap Call.items, ∀ pieces ∈
      (contents (sparse.foldl (call serves)
        (start { confDefault with path := ascii "/hls" })).files)[1]?,
      keySlice item.2 = true → pieces[1]? ≠ some (mediaPiece item) := by
    decide +kernel
  obtain ⟨pieces, hpieces⟩ := Option.isSome_iff_exists.mp hsecond
  have hmap := hpieces
  rw [hsplit.files, List.getElem?_map, Option.map_eq_some_iff] at hmap
  obtain ⟨seg, hseg, hlayout⟩ := hmap
  have hmem : seg ∈ segs := List.mem_of_getElem? hseg
  obtain ⟨first, rest, rfl, hpsi, hkey⟩ := hopen seg hmem
  have hoffered : first ∈ sparse.flatMap Call.items := by
    apply hsplit.kept.subset
    exact List.mem_append_left _ (List.mem_flatten.mpr ⟨_, hmem, List.mem_cons_self⟩)
  apply hlast first hoffered pieces (Option.mem_def.mpr hpieces) hkey
  rw [← hlayout]
  simp [layout, tablePieces, hpsi]

end HlsContents
