import NginxMedia.HlsPlaylistNumbers

/-! The rewrite of the text of a media playlist is the text of the rewritten playlist. -/
namespace HlsPlaylist

open ByteString
open HlsIngest (strtoull isDigit value)
open HlsPush (Str Opts removed)

variable {l : Line} {ls : List Line} {name : String} {text rest : Str} {opts : Opts}

theorem lines_line (h : (10 : UInt8) ∉ l.text) (rest : Str) :
    lines (l.bytes ++ rest) = l.bytes :: lines rest := by
  unfold Line.bytes
  cases l.crlf with
  | false =>
    have hsplit := lines_append h rest
    simpa using hsplit
  | true =>
    have hreturn : (10 : UInt8) ∉ l.text ++ [13] := by
      intro hmem
      rcases List.mem_append.mp hmem with hmem | hmem
      · exact h hmem
      · exact absurd hmem (by decide)
    have hsplit := lines_append hreturn rest
    simpa using hsplit

theorem lines_bytes (h : ∀ l ∈ ls, l.Clean) :
    lines (ls.flatMap Line.bytes) = ls.map Line.bytes := by
  induction ls with
  | nil => rfl
  | cons l ls ih =>
    rw [List.flatMap_cons, lines_line (h l List.mem_cons_self).newline,
      ih fun l hl => h l (List.mem_cons_of_mem _ hl), List.map_cons]

theorem bare_bytes (h : l.Clean) : bare l.bytes = l.text := by
  have htext : bare l.text = l.text := by
    refine List.rdropWhile_eq_self_iff.mpr fun hne hend => ?_
    rcases Bool.or_eq_true_iff.mp hend with heq | heq
    · exact h.newline (eq_of_beq heq ▸ List.getLast_mem hne)
    · exact h.ending (by rw [List.getLast?_eq_some_getLast hne, eq_of_beq heq])
  unfold Line.bytes
  cases l.crlf with
  | false => exact (List.rdropWhile_concat_pos _ _ _ rfl).trans htext
  | true =>
    have hsplit : l.text ++ [13, 10] = l.text ++ [13] ++ [10] := by simp
    unfold bare at htext ⊢
    rw [if_pos rfl, hsplit, List.rdropWhile_concat_pos _ _ _ rfl,
      List.rdropWhile_concat_pos _ _ _ rfl, htext]

theorem bytes_last (l : Line) : l.bytes.getLast? = some 10 := by
  unfold Line.bytes
  rw [List.getLast?_append]
  cases l.crlf <;> rfl

theorem tag_bytes (h : tag l.text name = true → Numbered l name) (hname : (10 : UInt8) ∉ ascii name)
    (hreturn : (13 : UInt8) ∉ ascii name) : tag l.bytes name = tag l.text name := by
  cases htag : tag l.text name with
  | true =>
    obtain ⟨ds, htext, -, -⟩ := h htag
    have hbytes : l.bytes = ascii name ++ 58 :: (ds ++ if l.crlf then [13, 10] else [10]) := by
      rw [Line.bytes, htext]
      simp
    rw [hbytes]
    exact tag_numbered name _
  | false =>
    by_contra hnot
    have hbytes := Bool.eq_true_of_not_eq_false hnot
    obtain ⟨rest, hrest⟩ := tag_starts hbytes
    rw [← hrest, tag_append] at hbytes
    rcases List.append_eq_append_iff.mp hrest with ⟨front, htext, hend⟩ | ⟨cut, hcut, hend⟩
    · rw [htext, tag_append] at htag
      cases front with
      | nil => cases htag
      | cons c front =>
        rw [hend] at hbytes
        exact Bool.noConfusion (hbytes.symm.trans htag)
    · cases cut with
      | nil =>
        rw [List.append_nil] at hcut
        have hwhole := tag_append name []
        rw [List.append_nil, hcut, htag] at hwhole
        cases hwhole
      | cons c cut =>
        have hc : c ∈ ascii name := by
          rw [hcut]
          exact List.mem_append_right _ List.mem_cons_self
        cases hcrlf : l.crlf with
        | false =>
          rw [hcrlf] at hend
          exact hname ((List.cons.inj hend).1 ▸ hc)
        | true =>
          rw [hcrlf] at hend
          exact hreturn ((List.cons.inj hend).1 ▸ hc)

theorem strtoull_numbered (hnumbered : Numbered l name) (rest : Str) :
    strtoull ((l.bytes ++ rest).drop ((ascii name).length + 1)) =
      saturated (value (l.text.drop ((ascii name).length + 1))) := by
  obtain ⟨ds, htext, hne, hds⟩ := hnumbered
  have hcut : ∀ behind : Str, (ascii name ++ 58 :: behind).drop ((ascii name).length + 1) = behind := by
    intro behind
    have hsplit : ascii name ++ 58 :: behind = (ascii name ++ [58]) ++ behind := by simp
    rw [hsplit, List.drop_left' (by simp)]
  have hbytes : l.bytes ++ rest =
      ascii name ++ 58 :: (ds ++ ((if l.crlf then [13, 10] else [10]) ++ rest)) := by
    rw [Line.bytes, htext]
    simp
  rw [hbytes, htext, hcut, hcut]
  refine strtoull_digits hne hds ?_
  cases l.crlf <;> (intro c hc; rw [← Option.some.inj hc]; decide)

def headerStep (name : String) (n : ℕ) (l : Line) : ℕ :=
  if tag l.text name then value (l.text.drop ((ascii name).length + 1)) else n

theorem header_tags (hl : HeaderLine l) : tag l.text streamInfTag = false := by
  by_contra hnot
  have hstream := Bool.eq_true_of_not_eq_false hnot
  rcases hl.known with hnil | hknown
  · rw [hnil] at hstream
    cases hstream
  · obtain ⟨name, hname, htag⟩ := List.any_eq_true.mp hknown
    have hapart : ∀ name ∈ headerTags, ¬ascii name <+: ascii streamInfTag ∧
        ¬ascii streamInfTag <+: ascii name := by decide
    rw [tag_exclusive (hapart name hname).1 (hapart name hname).2 htag] at hstream
    cases hstream

theorem scanHeader_lines (h : ∀ l ∈ ls, HeaderLine l) (behind : List Str) (header : Str) (m d : ℕ) :
    scanHeader (ls.map Line.bytes ++ behind) header (saturated m) (saturated d) =
      scanHeader behind (header ++ ls.flatMap Line.bytes)
        (saturated (ls.foldl (headerStep mediaSequenceTag) m))
        (saturated (ls.foldl (headerStep discontinuitySequenceTag) d)) := by
  induction ls generalizing header m d with
  | nil => simp
  | cons l ls ih =>
    have hl := h l List.mem_cons_self
    have hrest := ih fun l hl => h l (List.mem_cons_of_mem _ hl)
    rw [List.map_cons, List.cons_append, scanHeader, bare_bytes hl.clean, header_tags hl,
      if_neg Bool.noConfusion, if_pos hl.known, List.flatMap_cons, ← List.append_assoc,
      List.foldl_cons, List.foldl_cons]
    cases hmedia : tag l.text mediaSequenceTag with
    | true =>
      have hnot := media_not_discontinuity hmedia
      have hnumber := strtoull_numbered (hl.media hmedia)
        (ls.map Line.bytes ++ behind).flatten
      rw [if_pos rfl, headerStep, headerStep, hmedia, hnot, if_pos rfl, if_neg Bool.noConfusion,
        List.flatten_cons]
      exact hnumber ▸ hrest _ _ _
    | false =>
      rw [if_neg Bool.noConfusion]
      cases hdisc : tag l.text discontinuitySequenceTag with
      | true =>
        have hnumber := strtoull_numbered (hl.discontinuity hdisc)
          (ls.map Line.bytes ++ behind).flatten
        rw [if_pos rfl, headerStep, headerStep, hmedia, hdisc, if_pos rfl,
          if_neg Bool.noConfusion, List.flatten_cons]
        exact hnumber ▸ hrest _ _ _
      | false =>
        rw [if_neg Bool.noConfusion, headerStep, headerStep, hmedia, hdisc,
          if_neg Bool.noConfusion, if_neg Bool.noConfusion]
        exact hrest _ _ _

structure Opening (l : Line) : Prop where
  clean : l.Clean
  named : l.text ≠ []
  header : headerTag l.text = false
  streamInf : tag l.text streamInfTag = false

theorem TagLine.opening (h : TagLine l) : Opening l := by
  refine ⟨h.clean, ?_, h.header, h.streamInf⟩
  intro hnil
  have hmark := h.mark
  rw [hnil] at hmark
  cases hmark

theorem UriLine.opening (h : UriLine l) : Opening l := by
  have hmarks : ∀ name ∈ headerTags, (ascii name).head? = some 35 := by decide
  refine ⟨h.clean, h.named, ?_, tag_unmarked (by decide) h.mark⟩
  refine List.any_eq_false.mpr fun name hname => ?_
  rw [tag_unmarked (hmarks name hname) h.mark]
  exact Bool.noConfusion

theorem endList_opening (hclean : l.Clean) (h : tag l.text endListTag = true) : Opening l := by
  have hapart : ∀ name ∈ streamInfTag :: headerTags, ¬ascii endListTag <+: ascii name ∧
      ¬ascii name <+: ascii endListTag := by decide
  have hnot : ∀ name ∈ streamInfTag :: headerTags, tag l.text name = false := fun name hname =>
    tag_exclusive (hapart name hname).1 (hapart name hname).2 h
  refine ⟨hclean, ?_, ?_, hnot _ List.mem_cons_self⟩
  · intro hnil
    rw [hnil] at h
    cases h
  · refine List.any_eq_false.mpr fun name hname => ?_
    rw [hnot name (List.mem_cons_of_mem _ hname)]
    exact Bool.noConfusion

theorem scanHeader_behind (h : ∀ l ∈ ls, Opening l) (header : Str) (m d : ℕ) :
    scanHeader (ls.map Line.bytes) header m d =
      (scanSegments (ls.map Line.bytes) none []).map fun (segs, trailer) =>
        ⟨header, m, d, segs, trailer⟩ := by
  cases ls with
  | nil => rfl
  | cons l ls =>
    have hl := h l List.mem_cons_self
    have hopen : ¬(l.text = [] ∨ headerTag l.text = true) := by
      rintro (hnil | hknown)
      · exact hl.named hnil
      · rw [hl.header] at hknown
        cases hknown
    rw [List.map_cons, scanHeader, bare_bytes hl.clean, hl.streamInf, if_neg Bool.noConfusion,
      if_neg hopen]

def Segment.seg (s : Segment) : Seg where
  tags := s.tags.flatMap Line.bytes
  uri := s.uri.bytes
  discontinuity := s.tags.any fun l => tag l.text discontinuityTag
  gap := s.tags.any fun l => tag l.text gapTag

theorem gap_plain (text : Str) :
    (!tag text discontinuityTag && tag text gapTag) = tag text gapTag := by
  cases hgap : tag text gapTag with
  | false => exact Bool.and_false _
  | true => rw [tag_exclusive (by decide) (by decide) hgap, Bool.not_false,
      Bool.and_true]

theorem scanSegments_segment {u : Line} {segs : List Seg} (htags : ∀ l ∈ ls, TagLine l)
    (huri : UriLine u) (opened : Option Begun) (hroom : opened.isSome ∨ segs.length < segmentsMax)
    (behind : List Str) :
    scanSegments (ls.map Line.bytes ++ u.bytes :: behind) opened segs =
      scanSegments behind none (segs ++
        [{ tags := (opened.getD ⟨[], false, false⟩).tags ++ ls.flatMap Line.bytes
           uri := u.bytes
           discontinuity := (opened.getD ⟨[], false, false⟩).discontinuity ||
             ls.any fun l => tag l.text discontinuityTag
           gap := (opened.getD ⟨[], false, false⟩).gap ||
             ls.any fun l => tag l.text gapTag }]) := by
  have hfit : ¬(opened.isNone ∧ segs.length = segmentsMax) := by
    rintro ⟨hnone, hfull⟩
    rcases hroom with hsome | hless
    · rw [Option.isSome_iff_ne_none] at hsome
      exact hsome (Option.isNone_iff_eq_none.mp hnone)
    · omega
  induction ls generalizing opened with
  | nil =>
    have hend : tag u.text endListTag = false := tag_unmarked (by decide) huri.mark
    rw [List.map_nil, List.nil_append, scanSegments, bare_bytes huri.clean,
      huri.opening.streamInf, hend, if_neg Bool.noConfusion, if_neg Bool.noConfusion,
      if_neg huri.named, if_neg hfit, if_neg huri.mark]
    simp
  | cons l ls ih =>
    have hl := htags l List.mem_cons_self
    have hrest := ih fun l hl => htags l (List.mem_cons_of_mem _ hl)
    rw [List.map_cons, List.cons_append, scanSegments, bare_bytes hl.clean, hl.streamInf,
      hl.endList, if_neg Bool.noConfusion, if_neg Bool.noConfusion, if_neg hl.opening.named,
      if_neg hfit, if_pos hl.mark]
    dsimp only
    rw [gap_plain, hrest _ (Or.inl rfl) (by rintro ⟨hnone, -⟩; cases hnone)]
    simp [Bool.or_assoc]

theorem scanSegments_lines {ss : List Segment} {segs : List Seg}
    (hroom : segs.length + ss.length ≤ segmentsMax) (behind : List Str) :
    scanSegments ((ss.flatMap Segment.lines).map Line.bytes ++ behind) none segs =
      scanSegments behind none (segs ++ ss.map Segment.seg) := by
  induction ss generalizing segs with
  | nil => simp
  | cons s ss ih =>
    rw [List.length_cons] at hroom
    have hlines : ((s :: ss).flatMap Segment.lines).map Line.bytes ++ behind =
        s.tags.map Line.bytes ++
          s.uri.bytes :: ((ss.flatMap Segment.lines).map Line.bytes ++ behind) := by
      simp [Segment.lines]
    rw [hlines, scanSegments_segment s.tagLines s.uriLine none (Or.inr (by omega)),
      ih (by rw [List.length_append, List.length_singleton]; omega)]
    simp [Segment.seg]

theorem Playlist.openings (p : Playlist) :
    ∀ l ∈ p.segments.flatMap Segment.lines ++ p.endList.toList, Opening l := by
  intro l hl
  rcases List.mem_append.mp hl with hl | hl
  · obtain ⟨s, -, hl⟩ := List.mem_flatMap.mp hl
    rcases List.mem_append.mp hl with hl | hl
    · exact (s.tagLines l hl).opening
    · rw [List.mem_singleton.mp hl]
      exact s.uriLine.opening
  · obtain ⟨hclean, hend⟩ := p.ends l (Option.mem_toList.mp hl)
    exact endList_opening hclean hend

theorem Playlist.clean (p : Playlist) : ∀ l ∈ p.lines, l.Clean := by
  intro l hl
  rw [lines, List.append_assoc] at hl
  rcases List.mem_append.mp hl with hl | hl
  · exact (p.headerLines l hl).clean
  · exact (p.openings l hl).clean

theorem scanSegments_end (p : Playlist) (segs : List Seg) :
    scanSegments (p.endList.toList.map Line.bytes) none segs =
      .ok (segs, p.endList.toList.flatMap Line.bytes) := by
  cases h : p.endList with
  | none => rfl
  | some l =>
    obtain ⟨hclean, hend⟩ := p.ends l h
    have hopen := endList_opening hclean hend
    rw [Option.toList_some, List.map_cons, scanSegments, bare_bytes hclean, hopen.streamInf, hend,
      if_neg Bool.noConfusion, if_pos rfl]
    simp

theorem scan_text (p : Playlist) (hroom : p.segments.length ≤ segmentsMax) :
    scanHeader (lines p.text) [] 0 0 =
      .ok
        { header := p.header.flatMap Line.bytes
          mediaSeq := saturated (headerNumber mediaSequenceTag p.header)
          discSeq := saturated (headerNumber discontinuitySequenceTag p.header)
          segs := p.segments.map Segment.seg
          trailer := p.endList.toList.flatMap Line.bytes } := by
  have hzero : saturated 0 = 0 := rfl
  have hscan := scanHeader_lines p.headerLines
    ((p.segments.flatMap Segment.lines ++ p.endList.toList).map Line.bytes) [] 0 0
  rw [hzero, ← List.map_append, ← List.append_assoc] at hscan
  have hlines : lines p.text = p.lines.map Line.bytes := lines_bytes p.clean
  have hsegments := @scanSegments_lines p.segments []
    (by rw [List.length_nil, Nat.zero_add]; exact hroom) (p.endList.toList.map Line.bytes)
  rw [hlines, Playlist.lines, hscan, scanHeader_behind p.openings, List.map_append, hsegments,
    scanSegments_end]
  rfl

theorem headerKept_lines (h : ∀ l ∈ ls, HeaderLine l) (first removedDisc : ℕ) :
    headerKept (ls.flatMap Line.bytes) first removedDisc =
      (ls.filter (stays first removedDisc)).map Line.bytes := by
  have hsame : ∀ l ∈ ls, (!(decide (first > 0) && tag l.bytes mediaSequenceTag) &&
      !(decide (removedDisc > 0) && tag l.bytes discontinuitySequenceTag)) =
        stays first removedDisc l := by
    intro l hl
    rw [stays, tag_bytes (h l hl).media (by decide) (by decide),
      tag_bytes (h l hl).discontinuity (by decide) (by decide)]
  rw [headerKept, lines_bytes fun l hl => (h l hl).clean, List.filter_map, List.map_map]
  have hfilter : (ls.filter ((fun line => !(decide (first > 0) && tag line mediaSequenceTag) &&
      !(decide (removedDisc > 0) && tag line discontinuitySequenceTag)) ∘ Line.bytes)) =
        ls.filter (stays first removedDisc) := List.filter_congr hsame
  rw [hfilter]
  refine List.map_congr_left fun l _ => ?_
  rw [Function.comp_apply, if_pos (bytes_last l)]

theorem sequenceLine_bytes {n : ℕ} (hn : n < 2 ^ 64) (name : String) :
    sequenceLine name n = (numberLine name n).bytes := by
  rw [sequenceLine, Nat.mod_eq_of_lt hn, Line.bytes]
  simp [numberLine]

/-- The numbers that are written anew hold in 64 bits. -/
def Fits (first removedDisc mediaSeq discSeq : ℕ) : Prop :=
  (first > 0 → mediaSeq + first < 2 ^ 64) ∧ (removedDisc > 0 → discSeq + removedDisc < 2 ^ 64)

theorem newNumbers_bytes {first removedDisc mediaSeq discSeq : ℕ}
    (h : Fits first removedDisc mediaSeq discSeq) :
    (if first > 0 then [sequenceLine mediaSequenceTag (saturated mediaSeq + first)] else []) ++
        (if removedDisc > 0 then
          [sequenceLine discontinuitySequenceTag (saturated discSeq + removedDisc)] else []) =
      (newNumbers first removedDisc mediaSeq discSeq).map Line.bytes := by
  rw [newNumbers, List.map_append]
  congr 1
  · split_ifs with hfirst
    · have hn := h.1 hfirst
      rw [saturated_eq (by omega), sequenceLine_bytes hn]
      rfl
    · rfl
  · split_ifs with hdisc
    · have hn := h.2 hdisc
      rw [saturated_eq (by omega), sequenceLine_bytes hn]
      rfl
    · rfl

theorem count_any (s : Segment) (name : String) :
    (s.tags.any fun l => tag l.text name) = decide (s.count name > 0) := by
  rw [Bool.eq_iff_iff, List.any_eq_true, decide_eq_true_iff, Segment.count, gt_iff_lt,
    List.countP_pos_iff]

theorem marks_seg (opts : Opts) (s : Segment) : marks opts s.seg = decide (s.Unmarked opts) := by
  have hgap : s.seg.gap = decide (s.count gapTag > 0) := count_any s gapTag
  have huri : bare s.seg.uri = s.uri.text := bare_bytes s.uriLine.clean
  rw [marks, hgap, huri, Bool.eq_iff_iff, decide_eq_true_iff]
  simp [Segment.Unmarked, and_comm]

theorem segmentPieces_flatten (opts : Opts) (s : Segment) :
    (segmentPieces opts s.seg).flatten = (s.mark opts).lines.flatMap Line.bytes := by
  have huri : bare s.seg.uri = s.uri.text := bare_bytes s.uriLine.clean
  rw [segmentPieces, marks_seg, huri]
  by_cases h : s.Unmarked opts
  · simp [Segment.lines, Segment.mark, Segment.seg, h, Line.bytes, gapLine]
  · simp [Segment.lines, Segment.mark, Segment.seg, h, Line.bytes]

theorem pieces_flatten (p : Playlist) (opts : Opts)
    (hfits : Fits (p.removed opts) (p.removedDisc opts) (headerNumber mediaSequenceTag p.header)
      (headerNumber discontinuitySequenceTag p.header)) :
    (pieces opts
      { header := p.header.flatMap Line.bytes
        mediaSeq := saturated (headerNumber mediaSequenceTag p.header)
        discSeq := saturated (headerNumber discontinuitySequenceTag p.header)
        segs := p.segments.map Segment.seg
        trailer := p.endList.toList.flatMap Line.bytes }
      (p.removed opts) (p.removedDisc opts)).flatten = (p.rewritten opts).text := by
  have hsegments : (((p.segments.map Segment.seg).drop (p.removed opts)).flatMap
      (segmentPieces opts)).flatten =
        (((p.segments.drop (p.removed opts)).map (Segment.mark opts)).flatMap
          Segment.lines).flatMap Line.bytes := by
    rw [← List.map_drop]
    induction p.segments.drop (p.removed opts) with
    | nil => rfl
    | cons s ss ih =>
      rw [List.map_cons, List.flatMap_cons, List.flatten_append, ih, segmentPieces_flatten,
        List.map_cons, List.flatMap_cons, List.flatMap_append]
  have hheader : ∀ ls : List Line, (ls.map Line.bytes).flatten = ls.flatMap Line.bytes :=
    fun ls => List.flatMap_def.symm
  rw [pieces, headerKept_lines p.headerLines, List.append_assoc _ (ite _ _ _) (ite _ _ _),
    newNumbers_bytes hfits, ← List.map_append, List.flatten_append, List.flatten_append, hsegments,
    hheader, Playlist.text, Playlist.lines, List.flatMap_append, List.flatMap_append]
  simp [Playlist.rewritten, Playlist.newHeader]

theorem rewrite_text (p : Playlist) (opts : Opts) {cap : ℕ}
    (hroom : p.segments.length ≤ segmentsMax)
    (hfits : Fits (p.removed opts) (p.removedDisc opts) (headerNumber mediaSequenceTag p.header)
      (headerNumber discontinuitySequenceTag p.header))
    (hcap : (p.rewritten opts).text.length ≤ cap) :
    ∃ info, rewrite opts cap p.text = .ok ((p.rewritten opts).text, info) := by
  have hstarts : ascii "#EXTM3U" <+: p.text := by
    obtain ⟨l, hhead, hstarts⟩ := p.starts
    obtain ⟨rest, hheader⟩ := List.head?_eq_some_iff.mp hhead
    have hbytes : l.text <+: p.text := by
      rw [Playlist.text, Playlist.lines, hheader]
      simp [Line.bytes, List.append_assoc]
    exact hstarts.trans hbytes
  have huris : (p.segments.map Segment.seg).map (fun seg => bare seg.uri) = p.uris := by
    rw [List.map_map]
    exact List.map_congr_left fun s _ => bare_bytes s.uriLine.clean
  have hdisc : ((p.segments.map Segment.seg).take (p.removed opts)).countP Seg.discontinuity =
      p.removedDisc opts := by
    rw [← List.map_take, List.countP_map]
    exact List.countP_congr fun s _ => by
      rw [Function.comp_apply, ← count_any]
      rfl
  have hpieces := pieces_flatten p opts hfits
  unfold rewrite
  rw [if_neg (not_not.mpr hstarts), scan_text p hroom]
  dsimp only
  rw [huris]
  have hremoved : HlsPush.removed opts p.uris = p.removed opts := rfl
  rw [hremoved, hdisc, foldlM_put (by rw [List.nil_append, hpieces]; exact hcap), List.nil_append,
    hpieces]
  exact ⟨_, rfl⟩

end HlsPlaylist
