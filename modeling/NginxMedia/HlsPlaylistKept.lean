import NginxMedia.HlsPlaylistRewrite

/-! What the rewrite of a media playlist keeps: a suffix of the segments, each with its numbers and
its tags. -/
namespace HlsPlaylist

open ByteString
open HlsIngest (value)
open HlsPush (Str Opts)

variable {l : Line} {ls : List Line} {name : String} {opts : Opts} {p q : Playlist} {n m : ℕ}

theorem headerNumber_eq (name : String) (ls : List Line) :
    headerNumber name ls = ls.foldl (headerStep name) 0 := rfl

theorem foldl_untagged (h : ∀ l ∈ ls, tag l.text name = false) (n : ℕ) :
    ls.foldl (headerStep name) n = n := by
  induction ls generalizing n with
  | nil => rfl
  | cons l ls ih =>
    rw [List.foldl_cons, headerStep, h l List.mem_cons_self, if_neg Bool.noConfusion]
    exact ih (fun l hl => h l (List.mem_cons_of_mem _ hl)) n

theorem foldl_filter_tagged {f : Line → Bool}
    (h : ∀ l ∈ ls, tag l.text name = true → f l = true) (n : ℕ) :
    (ls.filter f).foldl (headerStep name) n = ls.foldl (headerStep name) n := by
  induction ls generalizing n with
  | nil => rfl
  | cons l ls ih =>
    have hrest := ih fun l hl => h l (List.mem_cons_of_mem _ hl)
    cases hf : f l with
    | true => rw [List.filter_cons_of_pos hf, List.foldl_cons, List.foldl_cons, hrest]
    | false =>
      have htag : tag l.text name = false := by
        by_contra hnot
        rw [h l List.mem_cons_self (Bool.eq_true_of_not_eq_false hnot)] at hf
        cases hf
      rw [List.filter_cons_of_neg (by rw [hf]; decide), List.foldl_cons, hrest, headerStep, htag,
        if_neg Bool.noConfusion]

theorem headerStep_number (name : String) (n m : ℕ) :
    headerStep name m (numberLine name n) = n := by
  have hcut : (numberLine name n).text.drop ((ascii name).length + 1) = decimal n := by
    have hsplit : (numberLine name n).text = (ascii name ++ [58]) ++ decimal n := by
      simp [numberLine]
    rw [hsplit, List.drop_left' (by simp)]
  have htag : tag (numberLine name n).text name = true := tag_numbered name _
  rw [headerStep, if_pos htag, hcut, value_decimal]

theorem newHeader_media (p : Playlist) (opts : Opts) :
    headerNumber mediaSequenceTag (p.newHeader opts) =
      headerNumber mediaSequenceTag p.header + p.removed opts := by
  have hlast : ∀ first removedDisc mediaSeq discSeq start : ℕ, first > 0 →
      (newNumbers first removedDisc mediaSeq discSeq).foldl (headerStep mediaSequenceTag) start =
        mediaSeq + first := by
    intro first removedDisc mediaSeq discSeq start hfirst
    rw [newNumbers, if_pos hfirst, List.foldl_append, List.foldl_cons, List.foldl_nil,
      headerStep_number]
    refine foldl_untagged (fun l hl => ?_) _
    split_ifs at hl
    · rw [List.mem_singleton.mp hl]
      exact discontinuity_not_media (tag_numbered _ _)
    · cases hl
  rw [headerNumber_eq, Playlist.newHeader, List.foldl_append]
  by_cases hfirst : p.removed opts > 0
  · exact hlast _ _ _ _ _ hfirst
  · have hzero : p.removed opts = 0 := by omega
    rw [hzero, foldl_filter_tagged]
    · have hnone : p.removedDisc opts = 0 := by
        rw [Playlist.removedDisc, hzero]
        rfl
      rw [hnone]
      rfl
    · intro l _ htag
      rw [stays, media_not_discontinuity htag]
      simp

theorem newHeader_discontinuity (p : Playlist) (opts : Opts) :
    headerNumber discontinuitySequenceTag (p.newHeader opts) =
      headerNumber discontinuitySequenceTag p.header + p.removedDisc opts := by
  have hmedia : ∀ l ∈ (if p.removed opts > 0 then
      [numberLine mediaSequenceTag (headerNumber mediaSequenceTag p.header + p.removed opts)]
      else []), tag l.text discontinuitySequenceTag = false := by
    intro l hl
    split_ifs at hl
    · rw [List.mem_singleton.mp hl]
      exact media_not_discontinuity (tag_numbered _ _)
    · cases hl
  rw [headerNumber_eq, Playlist.newHeader, List.foldl_append, newNumbers, List.foldl_append,
    foldl_untagged hmedia]
  by_cases hdisc : p.removedDisc opts > 0
  · rw [if_pos hdisc, List.foldl_cons, List.foldl_nil, headerStep_number]
  · rw [if_neg hdisc, List.foldl_nil, foldl_filter_tagged]
    · rw [Nat.le_zero.mp (Nat.not_lt.mp hdisc), Nat.add_zero]
      rfl
    · intro l _ htag
      rw [stays, discontinuity_not_media htag, decide_eq_false hdisc]
      simp

structure Keeps (opts : Opts) (p q : Playlist) (n : ℕ) : Prop where
  segments : q.segments = (p.segments.drop n).map (Segment.mark opts)
  window : opts.window ≠ 0 → q.segments.length ≤ opts.window
  first : opts.first ∈ p.uris → p.uris.idxOf opts.first ≤ n
  media : ∀ i < q.segments.length, q.mediaNumber i = p.mediaNumber (n + i)
  discontinuity : ∀ i < q.segments.length,
    q.discontinuityNumber i = p.discontinuityNumber (n + i)

def Rewrites (opts : Opts) (p q : Playlist) : Prop :=
  ∀ cap, q.text.length ≤ cap → ∃ info, rewrite opts cap p.text = .ok (q.text, info)

/-- The first URI is not listed again behind the first kept segment where one that was listed has
been cut off. -/
def Settled (opts : Opts) (p : Playlist) (n : ℕ) : Prop :=
  opts.first ∈ p.uris.take n → opts.first ∈ p.uris.drop n →
    (p.uris.drop n).head? = some opts.first

theorem mark_count (opts : Opts) (s : Segment) :
    (s.mark opts).count discontinuityTag = s.count discontinuityTag := by
  have hgap : tag gapLine.text discontinuityTag = false := by decide
  rw [Segment.count, mark_tags]
  split_ifs
  · rw [List.countP_append, List.countP_singleton, hgap, if_neg Bool.noConfusion, Nat.add_zero]
    rfl
  · rw [List.append_nil]
    rfl

theorem mark_mark (opts : Opts) (s : Segment) : (s.mark opts).mark opts = s.mark opts := by
  have hmarked : ¬(s.mark opts).Unmarked opts := by
    rintro ⟨hmissing, hnone⟩
    rw [Segment.count, mark_tags] at hnone
    by_cases h : s.Unmarked opts
    · have hgap : tag gapLine.text gapTag = true := by decide
      rw [if_pos h, List.countP_append, List.countP_singleton, hgap, if_pos rfl] at hnone
      omega
    · rw [if_neg h, List.append_nil] at hnone
      exact h ⟨hmissing, hnone⟩
  refine Segment.ext ?_ rfl
  rw [mark_tags, if_neg hmarked, List.append_nil]

def Segment.entry (s : Segment) : HlsPush.Entry := ⟨s.uri.text, decide (s.count gapTag > 0)⟩

theorem mark_entry (opts : Opts) (s : Segment) : (s.mark opts).entry = HlsPush.mark opts s.entry := by
  have hgap : tag gapLine.text gapTag = true := by decide
  have hcount : (s.mark opts).count gapTag = s.count gapTag + if s.Unmarked opts then 1 else 0 := by
    rw [Segment.count, mark_tags]
    split_ifs
    · rw [List.countP_append, List.countP_singleton, hgap, if_pos rfl]
      rfl
    · rw [List.append_nil]
      rfl
  have hmarked : decide ((s.mark opts).count gapTag > 0) =
      (decide (s.count gapTag > 0) || decide (s.uri.text ∈ opts.missing)) := by
    rw [hcount, Bool.eq_iff_iff, Bool.or_eq_true, decide_eq_true_iff, decide_eq_true_iff,
      decide_eq_true_iff]
    split_ifs with hun
    · exact iff_of_true (by omega) (Or.inr hun.1)
    · constructor
      · intro hpos
        exact Or.inl hpos
      · rintro (hpos | hmissing)
        · exact hpos
        · by_contra hzero
          exact hun ⟨hmissing, by omega⟩
  rw [Segment.entry, hmarked]
  rfl

theorem rewritten_entries (p : Playlist) (opts : Opts) :
    (p.rewritten opts).segments.map Segment.entry =
      HlsPush.rewrite opts (p.segments.map Segment.entry) := by
  have huris : (p.segments.map Segment.entry).map HlsPush.Entry.uri = p.uris := by
    rw [List.map_map]
    rfl
  rw [HlsPush.rewrite, huris, ← List.map_drop, List.map_map]
  change ((p.segments.drop _).map (Segment.mark opts)).map Segment.entry = _
  rw [List.map_map]
  exact List.map_congr_left fun s _ => mark_entry opts s

theorem removed_lt (p : Playlist) (opts : Opts) :
    p.removed opts < p.segments.length ∨ p.removed opts = 0 := by
  have hlen : p.uris.length = p.segments.length := List.length_map _
  unfold Playlist.removed HlsPush.removed
  dsimp only
  by_cases hfirst : opts.first ≠ [] ∧ opts.first ∈ p.uris
  · have hidx := List.idxOf_lt_length_of_mem hfirst.2
    rw [if_pos hfirst]
    split_ifs with hpast
    · refine Or.inl (max_lt ?_ (by omega))
      omega
    · rw [Nat.zero_max]
      exact Or.inl (by omega)
  · rw [if_neg hfirst]
    split_ifs with hpast
    · exact Or.inl (by omega)
    · exact Or.inr rfl

theorem take_sum (p : Playlist) (n i : ℕ) :
    ((p.segments.take (n + i + 1)).map fun s => s.count discontinuityTag).sum =
      ((p.segments.take n).map fun s => s.count discontinuityTag).sum +
        (((p.segments.drop n).take (i + 1)).map fun s => s.count discontinuityTag).sum := by
  rw [Nat.add_assoc, List.take_add, List.map_append, List.sum_append]

theorem sum_count {ss : List Segment} (h : ∀ s ∈ ss, s.count discontinuityTag ≤ 1) :
    (ss.map fun s => s.count discontinuityTag).sum =
      ss.countP fun s => decide (s.count discontinuityTag > 0) := by
  induction ss with
  | nil => rfl
  | cons s ss ih =>
    have hs := h s List.mem_cons_self
    rw [List.map_cons, List.sum_cons, ih fun s hs => h s (List.mem_cons_of_mem _ hs),
      List.countP_cons]
    split_ifs with hpos
    · have := of_decide_eq_true hpos
      omega
    · have hzero : ¬s.count discontinuityTag > 0 := fun hgt => hpos (decide_eq_true hgt)
      omega

theorem past_le_removed (p : Playlist) (hwindow : opts.window ≠ 0) :
    p.uris.length - opts.window ≤ p.removed opts := by
  unfold Playlist.removed HlsPush.removed
  dsimp only
  split_ifs <;> omega

theorem idxOf_le_removed (hlisted : opts.first ∈ p.uris) :
    p.uris.idxOf opts.first ≤ p.removed opts := by
  have hnamed : opts.first ≠ [] := by
    obtain ⟨s, -, hs⟩ := List.mem_map.mp hlisted
    rw [← hs]
    exact s.uriLine.named
  unfold Playlist.removed HlsPush.removed
  dsimp only
  rw [if_pos ⟨hnamed, hlisted⟩]
  exact le_max_right _ _

theorem rewritten_keeps (p : Playlist) (opts : Opts)
    (honce : ∀ s ∈ p.segments.take (p.removed opts), s.count discontinuityTag ≤ 1) :
    Keeps opts p (p.rewritten opts) (p.removed opts) where
  segments := rfl
  window := by
    intro hwindow
    have hlen : p.uris.length = p.segments.length := List.length_map _
    have hpast := past_le_removed p hwindow
    have hkept : (p.rewritten opts).segments.length = p.segments.length - p.removed opts := by
      rw [Playlist.rewritten, List.length_map, List.length_drop]
    omega
  first := idxOf_le_removed
  media := by
    intro i _
    rw [Playlist.mediaNumber, Playlist.mediaNumber]
    have hnumber := newHeader_media p opts
    change headerNumber _ (p.newHeader opts) + i = _
    omega
  discontinuity := by
    intro i _
    have hnumber := newHeader_discontinuity p opts
    have hkept : ((p.rewritten opts).segments.take (i + 1)).map (fun s => s.count discontinuityTag) =
        ((p.segments.drop (p.removed opts)).take (i + 1)).map fun s =>
          s.count discontinuityTag := by
      change (((p.segments.drop (p.removed opts)).map (Segment.mark opts)).take (i + 1)).map _ = _
      rw [← List.map_take, List.map_map]
      exact List.map_congr_left fun s _ => mark_count opts s
    have hgone := sum_count honce
    rw [Playlist.discontinuityNumber, Playlist.discontinuityNumber, take_sum, hkept, hgone]
    change headerNumber _ (p.newHeader opts) + _ = _
    rw [hnumber, Playlist.removedDisc]
    omega

theorem rewritten_removed (h : Settled opts p (p.removed opts)) :
    (p.rewritten opts).removed opts = 0 := by
  have huris : (p.rewritten opts).uris = p.uris.drop (p.removed opts) := by
    change ((p.segments.drop (p.removed opts)).map (Segment.mark opts)).map _ = _
    rw [List.map_map, Playlist.uris, ← List.map_drop]
    rfl
  have hlen : p.uris.length = p.segments.length := List.length_map _
  have hpast : ¬(opts.window ≠ 0 ∧ (p.uris.drop (p.removed opts)).length > opts.window) := by
    rintro ⟨hwindow, hlong⟩
    have hle := past_le_removed p hwindow
    rw [List.length_drop] at hlong
    omega
  rw [Playlist.removed, huris, HlsPush.removed, if_neg hpast, Nat.zero_max]
  split_ifs with hfirst
  · obtain ⟨-, hkept⟩ := hfirst
    have hlisted : opts.first ∈ p.uris := List.mem_of_mem_drop hkept
    have hhead : (p.uris.drop (p.removed opts)).head? = some opts.first := by
      by_cases hcut : opts.first ∈ p.uris.take (p.removed opts)
      · exact h hcut hkept
      · -- nothing before it leaves but for its own sake
        have hidx : p.removed opts ≤ p.uris.idxOf opts.first := by
          by_contra hlt
          refine hcut (List.mem_take_iff_idxOf_lt hlisted |>.mpr ?_)
          omega
        have hge := idxOf_le_removed hlisted
        have heq : p.removed opts = p.uris.idxOf opts.first := by omega
        rw [heq, List.head?_drop, List.getElem?_idxOf hlisted]
    obtain ⟨rest, hrest⟩ := List.head?_eq_some_iff.mp hhead
    rw [hrest, List.idxOf_cons_self]
  · rfl

theorem rewritten_again (h : (p.rewritten opts).removed opts = 0) :
    ((p.rewritten opts).rewritten opts).text = (p.rewritten opts).text := by
  have hdisc : (p.rewritten opts).removedDisc opts = 0 := by
    rw [Playlist.removedDisc, h]
    rfl
  have hheader : (p.rewritten opts).newHeader opts = (p.rewritten opts).header := by
    have hall : ∀ l : Line, stays 0 0 l = true := fun _ => rfl
    rw [Playlist.newHeader, h, hdisc, List.filter_eq_self.mpr fun l _ => hall l]
    exact List.append_nil _
  have hsegments : ((p.rewritten opts).segments.drop 0).map (Segment.mark opts) =
      (p.rewritten opts).segments := by
    change (((p.segments.drop _).map (Segment.mark opts)).drop 0).map (Segment.mark opts) = _
    rw [List.drop_zero, List.map_map]
    exact List.map_congr_left fun s _ => mark_mark opts s
  have hlines : ((p.rewritten opts).rewritten opts).lines = (p.rewritten opts).lines := by
    change (p.rewritten opts).newHeader opts ++
      ((((p.rewritten opts).segments.drop ((p.rewritten opts).removed opts)).map
        (Segment.mark opts)).flatMap Segment.lines) ++ _ = _
    rw [hheader, h, hsegments]
    rfl
  rw [Playlist.text, hlines]
  rfl

theorem fits_numbers (p : Playlist) (opts : Opts)
    (hnumbers : ∀ i < p.segments.length,
      p.mediaNumber i < 2 ^ 64 ∧ p.discontinuityNumber i < 2 ^ 64)
    (honce : ∀ s ∈ p.segments.take (p.removed opts), s.count discontinuityTag ≤ 1) :
    Fits (p.removed opts) (p.removedDisc opts) (headerNumber mediaSequenceTag p.header)
      (headerNumber discontinuitySequenceTag p.header) := by
  rcases removed_lt p opts with hlt | hzero
  · obtain ⟨hmedia, hdisc⟩ := hnumbers _ hlt
    refine ⟨fun _ => hmedia, fun _ => ?_⟩
    have hsum := take_sum p (p.removed opts) 0
    rw [Playlist.discontinuityNumber, ← Nat.add_zero (p.removed opts), hsum, sum_count honce]
      at hdisc
    rw [Playlist.removedDisc]
    omega
  · have hnone : p.removedDisc opts = 0 := by
      rw [Playlist.removedDisc, hzero]
      rfl
    rw [hzero, hnone]
    exact ⟨fun h => absurd h (Nat.lt_irrefl 0), fun h => absurd h (Nat.lt_irrefl 0)⟩

/-- The rewrite of a playlist with 64-bit numbers yields one whose segments are a suffix and have
the numbers they had; a second rewrite changes nothing if the list of segments is settled. -/
theorem rewrite_keeps_numbers (p : Playlist) (opts : Opts)
    (hroom : p.segments.length ≤ segmentsMax)
    (hnumbers : ∀ i < p.segments.length,
      p.mediaNumber i < 2 ^ 64 ∧ p.discontinuityNumber i < 2 ^ 64)
    (honce : ∀ s ∈ p.segments.take (p.removed opts), s.count discontinuityTag ≤ 1) :
    ∃ q, Rewrites opts p q ∧ Keeps opts p q (p.removed opts) ∧
      (Settled opts p (p.removed opts) → Rewrites opts q q) := by
  refine ⟨p.rewritten opts, fun cap hcap => ?_, rewritten_keeps p opts honce, fun hsettled => ?_⟩
  · exact rewrite_text p opts hroom (fits_numbers p opts hnumbers honce) hcap
  · intro cap hcap
    have hnothing := rewritten_removed hsettled
    have hdisc : (p.rewritten opts).removedDisc opts = 0 := by
      rw [Playlist.removedDisc, hnothing]
      rfl
    have hkept : (p.rewritten opts).segments.length ≤ segmentsMax := by
      change ((p.segments.drop _).map _).length ≤ _
      rw [List.length_map, List.length_drop]
      omega
    have hagain := rewritten_again hnothing
    have hrewrite := @rewrite_text (p.rewritten opts) opts cap hkept
      (by
        rw [hnothing, hdisc]
        exact ⟨fun h => absurd h (Nat.lt_irrefl 0), fun h => absurd h (Nat.lt_irrefl 0)⟩)
      (by rw [hagain]; exact hcap)
    rw [hagain] at hrewrite
    exact hrewrite

def plain (text : String) : Line := ⟨ascii text, false⟩

def joined : Playlist where
  header := [plain "#EXTM3U", numberLine mediaSequenceTag 7]
  segments :=
    [⟨[plain discontinuityTag], plain "a.ts", by decide, by decide +kernel⟩,
      ⟨[plain "#EXTINF:2.0,"], ⟨ascii "b.ts", true⟩, by decide, by decide +kernel⟩]
  endList := some (plain endListTag)
  starts := ⟨_, rfl, by decide⟩
  headerLines := by decide +kernel
  ends := by decide

theorem rewrite_keeps_numbers_joined :
    ∃ q, Rewrites ⟨1, ascii "b.ts", [ascii "b.ts"]⟩ joined q ∧
      Keeps ⟨1, ascii "b.ts", [ascii "b.ts"]⟩ joined q
        (joined.removed ⟨1, ascii "b.ts", [ascii "b.ts"]⟩) ∧
      (Settled ⟨1, ascii "b.ts", [ascii "b.ts"]⟩ joined
          (joined.removed ⟨1, ascii "b.ts", [ascii "b.ts"]⟩) →
        Rewrites ⟨1, ascii "b.ts", [ascii "b.ts"]⟩ q q) :=
  rewrite_keeps_numbers joined ⟨1, ascii "b.ts", [ascii "b.ts"]⟩ (by decide) (by decide)
    (by decide)

def output (opts : Opts) (text : Str) : Option Str :=
  match scanHeader (lines text) [] 0 0 with
  | .error _ => none
  | .ok s =>
    let first := HlsPush.removed opts (s.segs.map fun seg => bare seg.uri)
    some (pieces opts s first ((s.segs.take first).countP Seg.discontinuity)).flatten

theorem foldlM_put_some {cap : ℕ} {out whole : Str} {ps : List Str}
    (h : ps.foldlM (put cap) out = some whole) : whole = out ++ ps.flatten := by
  induction ps generalizing out with
  | nil => simpa using (Option.some.inj h).symm
  | cons p ps ih =>
    rw [List.foldlM_cons] at h
    obtain ⟨next, hput, hrest⟩ := Option.bind_eq_some_iff.mp h
    unfold put at hput
    split_ifs at hput
    rw [ih hrest, ← Option.some.inj hput, List.flatten_cons, List.append_assoc]

theorem rewrite_output {cap : ℕ} {text out : Str} {info : Info}
    (h : rewrite opts cap text = .ok (out, info)) : output opts text = some out := by
  unfold rewrite at h
  split_ifs at h
  unfold output
  cases hscan : scanHeader (lines text) [] 0 0 with
  | error refusal =>
    rw [hscan] at h
    cases h
  | ok s =>
    rw [hscan] at h
    dsimp only at h ⊢
    split at h
    · cases h
    · next whole hput =>
      obtain ⟨rfl, -⟩ := Prod.mk.inj (Except.ok.inj h)
      exact congrArg some (foldlM_put_some hput).symm

theorem Rewrites.output (h : Rewrites opts p q) : output opts p.text = some q.text := by
  obtain ⟨info, hrewrite⟩ := h _ (Nat.le_refl _)
  exact rewrite_output hrewrite

def shownNumbers (text : Str) : Option (ℕ × ℕ × ℕ) :=
  match scanHeader (lines text) [] 0 0 with
  | .error _ => none
  | .ok s => some (s.mediaSeq, s.discSeq, s.segs.length)

theorem shownNumbers_text (p : Playlist) (hroom : p.segments.length ≤ segmentsMax) :
    shownNumbers p.text = some (saturated (headerNumber mediaSequenceTag p.header),
      saturated (headerNumber discontinuitySequenceTag p.header), p.segments.length) := by
  rw [shownNumbers, scan_text p hroom]
  dsimp only
  rw [List.length_map]

def bareSegment (uri : String) (h : UriLine (plain uri)) : Segment := ⟨[], plain uri, nofun, h⟩

def twice : Playlist where
  header := [plain "#EXTM3U"]
  segments := [bareSegment "a" (by decide), bareSegment "b" (by decide +kernel),
    bareSegment "a" (by decide), bareSegment "c" (by decide +kernel)]
  endList := none
  starts := ⟨_, rfl, by decide⟩
  headerLines := by decide
  ends := nofun

def doubled : Playlist where
  header := [plain "#EXTM3U"]
  segments :=
    [⟨[plain discontinuityTag, plain discontinuityTag], plain "a", by decide,
        by decide⟩, bareSegment "b" (by decide +kernel)]
  endList := none
  starts := ⟨_, rfl, by decide⟩
  headerLines := by decide
  ends := nofun

def brimming : Playlist where
  header := [plain "#EXTM3U", numberLine mediaSequenceTag (2 ^ 64 - 1)]
  segments := [bareSegment "a" (by decide), bareSegment "b" (by decide +kernel)]
  endList := none
  starts := ⟨_, rfl, by decide⟩
  headerLines := by
    intro l hl
    rcases List.mem_cons.mp hl with rfl | hl
    · decide
    · rw [List.mem_singleton.mp hl]
      exact mediaLine_header _
  ends := nofun

/-- All that is kept, and again by the second rewrite. -/
def Stable (opts : Opts) (p : Playlist) : Prop :=
  ∃ q n, Rewrites opts p q ∧ Keeps opts p q n ∧ Rewrites opts q q

theorem saturated_small {n k : ℕ} (hk : k < 2 ^ 64 - 1) (h : saturated n = k) : n = k := by
  unfold saturated at h
  split_ifs at h
  · omega
  · exact h

theorem Rewrites.numbers (h : Rewrites opts p q) (hkeeps : Keeps opts p q n)
    (hroom : p.segments.length ≤ segmentsMax) {media disc len : ℕ}
    (hmedia : media < 2 ^ 64 - 1) (hdisc : disc < 2 ^ 64 - 1)
    (hshown : (HlsPlaylist.output opts p.text).bind shownNumbers = some (media, disc, len)) :
    headerNumber mediaSequenceTag q.header = media ∧
      headerNumber discontinuitySequenceTag q.header = disc ∧ q.segments.length = len := by
  have hlen : q.segments.length = p.segments.length - n := by
    rw [hkeeps.segments, List.length_map, List.length_drop]
  rw [h.output, Option.bind_some, shownNumbers_text q (by omega)] at hshown
  obtain ⟨hm, hrest⟩ := Prod.mk.inj (Option.some.inj hshown)
  obtain ⟨hd, hl⟩ := Prod.mk.inj hrest
  exact ⟨saturated_small hmedia hm, saturated_small hdisc hd, hl⟩

/-- A first URI that is listed twice moves the second rewrite on, the second discontinuity of a
segment is not counted, and a number of 64 bits wraps. -/
theorem stable_fails : ¬Stable ⟨3, ascii "a", []⟩ twice ∧ ¬Stable ⟨1, [], []⟩ doubled ∧
    ¬Stable ⟨1, [], []⟩ brimming := by
  refine ⟨?_, ?_, ?_⟩
  · rintro ⟨q, n, hfirst, -, hagain⟩
    have hmoved : (output ⟨3, ascii "a", []⟩ twice.text).bind (output ⟨3, ascii "a", []⟩) ≠
        output ⟨3, ascii "a", []⟩ twice.text := by decide
    rw [hfirst.output] at hmoved
    exact hmoved hagain.output
  · rintro ⟨q, n, hfirst, hkeeps, -⟩
    obtain ⟨-, hdisc, hlen⟩ := @Rewrites.numbers ⟨1, [], []⟩ doubled q n hfirst hkeeps (by decide)
      1 1 1 (by decide) (by decide) (by decide)
    have hn : n = 1 := by
      have hdrop := congrArg List.length hkeeps.segments
      rw [hlen, List.length_map, List.length_drop] at hdrop
      have htwo : doubled.segments.length = 2 := rfl
      omega
    have hsame := hkeeps.discontinuity 0 (by omega)
    subst hn
    have hcounts : (((doubled.segments.drop 1).map (Segment.mark ⟨1, [], []⟩)).map
        fun s => s.count discontinuityTag).sum = 0 := by decide
    have htwo : doubled.discontinuityNumber (1 + 0) = 2 := by decide
    rw [Playlist.discontinuityNumber, hdisc, htwo, hkeeps.segments,
      List.take_of_length_le (by decide), hcounts] at hsame
    exact absurd hsame (by decide)
  · rintro ⟨q, n, hfirst, hkeeps, -⟩
    obtain ⟨hmedia, -, hlen⟩ := @Rewrites.numbers ⟨1, [], []⟩ brimming q n hfirst hkeeps (by decide)
      0 0 1 (by decide) (by decide) (by decide)
    have hsame := hkeeps.media 0 (by omega)
    have hlast : headerNumber mediaSequenceTag brimming.header = 2 ^ 64 - 1 := by decide
    rw [Playlist.mediaNumber, Playlist.mediaNumber, hmedia, hlast] at hsame
    omega

end HlsPlaylist
