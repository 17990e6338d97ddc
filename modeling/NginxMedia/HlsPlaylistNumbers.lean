import NginxMedia.HlsPlaylist
import NginxMedia.HlsIngestNames

/-! Media playlists as lines: the rewrite of the text is the rewrite of the playlist, which keeps
the number of every segment that it keeps. -/
namespace HlsPlaylist

open ByteString
open HlsIngest (strtoull isDigit value isSpace)
open HlsPush (Str Opts removed)

structure Line where
  text : Str
  crlf : Bool
  deriving DecidableEq, Repr

def Line.bytes (l : Line) : Str := l.text ++ if l.crlf then [13, 10] else [10]

structure Line.Clean (l : Line) : Prop where
  newline : (10 : UInt8) ∉ l.text
  ending : l.text.getLast? ≠ some 13

def Numbered (l : Line) (name : String) : Prop :=
  ∃ ds, l.text = ascii name ++ 58 :: ds ∧ ds ≠ [] ∧ ∀ d ∈ ds, isDigit d = true

structure HeaderLine (l : Line) : Prop where
  clean : l.Clean
  known : l.text = [] ∨ headerTag l.text = true
  media : tag l.text mediaSequenceTag = true → Numbered l mediaSequenceTag
  discontinuity : tag l.text discontinuitySequenceTag = true → Numbered l discontinuitySequenceTag

structure TagLine (l : Line) : Prop where
  clean : l.Clean
  mark : l.text.head? = some 35
  header : headerTag l.text = false
  streamInf : tag l.text streamInfTag = false
  endList : tag l.text endListTag = false

structure UriLine (l : Line) : Prop where
  clean : l.Clean
  named : l.text ≠ []
  mark : l.text.head? ≠ some 35

@[ext] structure Segment where
  tags : List Line
  uri : Line
  tagLines : ∀ l ∈ tags, TagLine l
  uriLine : UriLine uri

def Segment.lines (s : Segment) : List Line := s.tags ++ [s.uri]

def Segment.count (s : Segment) (name : String) : ℕ := s.tags.countP fun l => tag l.text name

structure Playlist where
  header : List Line
  segments : List Segment
  endList : Option Line
  starts : ∃ l, header.head? = some l ∧ ascii "#EXTM3U" <+: l.text
  headerLines : ∀ l ∈ header, HeaderLine l
  ends : ∀ l ∈ endList, l.Clean ∧ tag l.text endListTag = true

def Playlist.lines (p : Playlist) : List Line :=
  p.header ++ p.segments.flatMap Segment.lines ++ p.endList.toList

def Playlist.text (p : Playlist) : Str := p.lines.flatMap Line.bytes

def Playlist.uris (p : Playlist) : List Str := p.segments.map fun s => s.uri.text

def headerNumber (name : String) (ls : List Line) : ℕ :=
  ls.foldl (fun n l =>
    if tag l.text name then value (l.text.drop ((ascii name).length + 1)) else n) 0

def Playlist.mediaNumber (p : Playlist) (i : ℕ) : ℕ := headerNumber mediaSequenceTag p.header + i

def Playlist.discontinuityNumber (p : Playlist) (i : ℕ) : ℕ :=
  headerNumber discontinuitySequenceTag p.header +
    ((p.segments.take (i + 1)).map fun s => s.count discontinuityTag).sum

instance (l : Line) : Decidable l.Clean :=
  decidable_of_iff ((10 : UInt8) ∉ l.text ∧ l.text.getLast? ≠ some 13)
    ⟨fun h => ⟨h.1, h.2⟩, fun h => ⟨h.newline, h.ending⟩⟩

instance (l : Line) (name : String) : Decidable (Numbered l name) :=
  decidable_of_iff
    (l.text = ascii name ++ 58 :: l.text.drop ((ascii name).length + 1) ∧
      l.text.drop ((ascii name).length + 1) ≠ [] ∧
      (l.text.drop ((ascii name).length + 1)).all isDigit = true)
    ⟨fun h => ⟨_, h.1, h.2.1, List.all_eq_true.mp h.2.2⟩, fun ⟨ds, htext, hne, hds⟩ => by
      have hcut : l.text.drop ((ascii name).length + 1) = ds := by
        have hsplit : l.text = (ascii name ++ [58]) ++ ds := by simp [htext]
        rw [hsplit, List.drop_left' (by simp)]
      rw [hcut]
      exact ⟨htext, hne, List.all_eq_true.mpr hds⟩⟩

instance (l : Line) : Decidable (HeaderLine l) :=
  decidable_of_iff
    (l.Clean ∧ (l.text = [] ∨ headerTag l.text = true) ∧
      (tag l.text mediaSequenceTag = true → Numbered l mediaSequenceTag) ∧
      (tag l.text discontinuitySequenceTag = true → Numbered l discontinuitySequenceTag))
    ⟨fun h => ⟨h.1, h.2.1, h.2.2.1, h.2.2.2⟩, fun h => ⟨h.clean, h.known, h.media, h.discontinuity⟩⟩

instance (l : Line) : Decidable (TagLine l) :=
  decidable_of_iff
    (l.Clean ∧ l.text.head? = some 35 ∧ headerTag l.text = false ∧
      tag l.text streamInfTag = false ∧ tag l.text endListTag = false)
    ⟨fun h => ⟨h.1, h.2.1, h.2.2.1, h.2.2.2.1, h.2.2.2.2⟩,
      fun h => ⟨h.clean, h.mark, h.header, h.streamInf, h.endList⟩⟩

instance (l : Line) : Decidable (UriLine l) :=
  decidable_of_iff (l.Clean ∧ l.text ≠ [] ∧ l.text.head? ≠ some 35)
    ⟨fun h => ⟨h.1, h.2.1, h.2.2⟩, fun h => ⟨h.clean, h.named, h.mark⟩⟩

def gapLine : Line := ⟨ascii gapTag, false⟩

def numberLine (name : String) (n : ℕ) : Line := ⟨ascii name ++ 58 :: decimal n, false⟩

def Segment.Unmarked (opts : Opts) (s : Segment) : Prop :=
  s.uri.text ∈ opts.missing ∧ s.count gapTag = 0

instance (opts : Opts) (s : Segment) : Decidable (s.Unmarked opts) :=
  inferInstanceAs (Decidable (_ ∧ _))

theorem gapLine_tagLine : TagLine gapLine := by decide

def Segment.mark (opts : Opts) (s : Segment) : Segment where
  tags := s.tags ++ if s.Unmarked opts then [gapLine] else []
  uri := ⟨s.uri.text, false⟩
  tagLines := by
    intro l hl
    rcases List.mem_append.mp hl with hl | hl
    · exact s.tagLines l hl
    · split_ifs at hl
      · rw [List.mem_singleton.mp hl]
        exact gapLine_tagLine
      · cases hl
  uriLine := ⟨⟨s.uriLine.clean.newline, s.uriLine.clean.ending⟩, s.uriLine.named, s.uriLine.mark⟩

theorem mark_tags (opts : Opts) (s : Segment) :
    (s.mark opts).tags = s.tags ++ if s.Unmarked opts then [gapLine] else [] := rfl

/-- How many segments leave. -/
def Playlist.removed (p : Playlist) (opts : Opts) : ℕ := HlsPush.removed opts p.uris

def Playlist.removedDisc (p : Playlist) (opts : Opts) : ℕ :=
  (p.segments.take (p.removed opts)).countP fun s => decide (s.count discontinuityTag > 0)

def stays (first removedDisc : ℕ) (l : Line) : Bool :=
  !(decide (first > 0) && tag l.text mediaSequenceTag) &&
    !(decide (removedDisc > 0) && tag l.text discontinuitySequenceTag)

def newNumbers (first removedDisc mediaSeq discSeq : ℕ) : List Line :=
  (if first > 0 then [numberLine mediaSequenceTag (mediaSeq + first)] else []) ++
    if removedDisc > 0 then [numberLine discontinuitySequenceTag (discSeq + removedDisc)] else []

def Playlist.newHeader (p : Playlist) (opts : Opts) : List Line :=
  p.header.filter (stays (p.removed opts) (p.removedDisc opts)) ++
    newNumbers (p.removed opts) (p.removedDisc opts) (headerNumber mediaSequenceTag p.header)
      (headerNumber discontinuitySequenceTag p.header)

variable {l : Line} {name other : String} {text rest : Str}

theorem tag_starts (h : tag text name = true) : ascii name <+: text := by
  unfold tag at h
  exact of_decide_eq_true (Bool.and_eq_true_iff.mp h).1

theorem tag_append (name : String) (rest : Str) :
    tag (ascii name ++ rest) name = (rest.head?.all fun c => c == 58 || c == 13) := by
  unfold tag
  rw [List.drop_left, decide_eq_true (List.prefix_append _ _), Bool.true_and]
  cases rest <;> rfl

theorem tag_numbered (name : String) (ds : Str) : tag (ascii name ++ 58 :: ds) name = true :=
  tag_append name (58 :: ds)

theorem tag_exclusive (hne : ¬ascii name <+: ascii other) (hne' : ¬ascii other <+: ascii name)
    (h : tag text name = true) : tag text other = false := by
  by_contra hother
  have hother := tag_starts (Bool.eq_true_of_not_eq_false hother)
  rcases List.prefix_or_prefix_of_prefix (tag_starts h) hother with hle | hle
  · exact hne hle
  · exact hne' hle

theorem media_not_discontinuity (h : tag text mediaSequenceTag = true) :
    tag text discontinuitySequenceTag = false :=
  tag_exclusive (by decide) (by decide) h

theorem discontinuity_not_media (h : tag text discontinuitySequenceTag = true) :
    tag text mediaSequenceTag = false :=
  tag_exclusive (by decide) (by decide) h

theorem tag_unmarked (hname : (ascii name).head? = some 35) (h : text.head? ≠ some 35) :
    tag text name = false := by
  by_contra htag
  obtain ⟨rest, rfl⟩ := tag_starts (Bool.eq_true_of_not_eq_false htag)
  rw [List.head?_append, hname] at h
  exact h rfl

theorem isDigit_decimal {n : ℕ} {c : UInt8} (h : c ∈ decimal n) : isDigit c = true := by
  obtain ⟨d, hd, rfl⟩ := mem_decimal h
  have hten : ∀ d < 10, isDigit (UInt8.ofNat (48 + d)) = true := by decide
  exact hten d hd

theorem value_decimalValue (ds : Str) : value ds = decimalValue ds := by
  induction ds using List.reverseRecOn with
  | nil => rfl
  | append_singleton ds c ih =>
    have hleft : value (ds ++ [c]) = 10 * value ds + (c.toNat - 48) := by
      rw [value, List.foldl_append]
      rfl
    have hright : decimalValue (ds ++ [c]) = c.toNat - 48 + 10 * decimalValue ds := by
      rw [decimalValue, List.map_append, List.reverse_append]
      exact Nat.ofDigits_cons
    rw [hleft, hright, ih, Nat.add_comm]

theorem value_decimal (n : ℕ) : value (decimal n) = n := by
  rw [value_decimalValue, decimalValue_decimal]

/-- What 64 bits hold of a number that is read. -/
def saturated (n : ℕ) : ℕ := if n ≥ 2 ^ 64 then 2 ^ 64 - 1 else n

theorem saturated_eq {n : ℕ} (h : n < 2 ^ 64) : saturated n = n := by
  rw [saturated, if_neg (Nat.not_le.mpr h)]

theorem digit_plain {d : UInt8} (h : isDigit d = true) : isSpace d = false ∧ d ≠ 45 ∧ d ≠ 43 := by
  obtain ⟨hlo, hhi⟩ := HlsIngestNames.isDigit_iff.mp h
  refine ⟨?_, ?_, ?_⟩
  · simp [isSpace, UInt8.le_iff_toNat_le, ← UInt8.toNat_inj]
    omega
  · rintro rfl
    exact absurd hlo (by decide)
  · rintro rfl
    exact absurd hlo (by decide)

theorem strtoull_digits {ds rest : Str} (hne : ds ≠ []) (hds : ∀ d ∈ ds, isDigit d = true)
    (hrest : ∀ c ∈ rest.head?, isDigit c = false) : strtoull (ds ++ rest) = saturated (value ds) := by
  obtain ⟨d, ds, rfl⟩ := List.exists_cons_of_ne_nil hne
  have hd := hds d List.mem_cons_self
  obtain ⟨hspace, hminus, hplus⟩ := digit_plain hd
  have htake : (d :: ds ++ rest).takeWhile isDigit = d :: ds := by
    rw [List.takeWhile_append_of_pos hds]
    cases rest with
    | nil => rw [List.takeWhile_nil, List.append_nil]
    | cons c rest =>
      rw [List.takeWhile_cons_of_neg (by rw [hrest c rfl]; decide), List.append_nil]
  have hdrop : (d :: ds ++ rest).dropWhile isSpace = d :: ds ++ rest :=
    List.dropWhile_cons_of_neg (by rw [hspace]; decide)
  have hsign : ((d :: ds ++ rest).head? == some 45) = false ∧
      ((d :: ds ++ rest).head? == some 43) = false := by
    constructor
    · exact beq_eq_false_iff_ne.mpr fun h => hminus (Option.some.inj h)
    · exact beq_eq_false_iff_ne.mpr fun h => hplus (Option.some.inj h)
  unfold strtoull
  rw [hdrop]
  dsimp only
  rw [hsign.1, hsign.2]
  simp only [Bool.or_false, Bool.false_eq_true, if_false, htake]
  rfl

theorem numberLine_header {name : String} (hname : headerTags.contains name = true)
    (hclean : (10 : UInt8) ∉ ascii name)
    (hexclusive : (name = mediaSequenceTag ∧
        ∀ text, tag text name = true → tag text discontinuitySequenceTag = false) ∨
      name = discontinuitySequenceTag ∧
        ∀ text, tag text name = true → tag text mediaSequenceTag = false)
    (n : ℕ) : HeaderLine (numberLine name n) := by
  have htag : tag (numberLine name n).text name = true := tag_numbered name _
  have hnumbered : Numbered (numberLine name n) name :=
    ⟨decimal n, rfl, decimal_ne_nil n, fun _ => isDigit_decimal⟩
  refine ⟨⟨?_, ?_⟩, Or.inr ?_, ?_, ?_⟩
  · intro hmem
    rcases List.mem_append.mp hmem with hmem | hmem
    · exact hclean hmem
    · rcases List.mem_cons.mp hmem with heq | hmem
      · exact absurd heq (by decide)
      · exact absurd (isDigit_decimal hmem) (by decide)
  · intro hlast
    have hmem : (13 : UInt8) ∈ decimal n := by
      have hsome : (ascii name ++ 58 :: decimal n).getLast? = (decimal n).getLast? := by
        rw [List.getLast?_append, List.getLast?_cons]
        cases h : (decimal n).getLast? with
        | none => exact absurd (List.getLast?_eq_none_iff.mp h) (decimal_ne_nil n)
        | some c => rfl
      exact List.mem_of_getLast? (hsome.symm.trans hlast)
    exact absurd (isDigit_decimal hmem) (by decide)
  · exact List.any_eq_true.mpr ⟨name, List.contains_iff_mem.mp hname, htag⟩
  · intro hmedia
    rcases hexclusive with ⟨rfl, -⟩ | ⟨-, hnot⟩
    · exact hnumbered
    · rw [hnot _ htag] at hmedia
      cases hmedia
  · intro hdiscontinuity
    rcases hexclusive with ⟨-, hnot⟩ | ⟨rfl, -⟩
    · rw [hnot _ htag] at hdiscontinuity
      cases hdiscontinuity
    · exact hnumbered

theorem mediaLine_header (n : ℕ) : HeaderLine (numberLine mediaSequenceTag n) :=
  numberLine_header (by decide) (by decide)
    (Or.inl ⟨rfl, fun _ => media_not_discontinuity⟩) n

theorem discontinuityLine_header (n : ℕ) : HeaderLine (numberLine discontinuitySequenceTag n) :=
  numberLine_header (by decide) (by decide)
    (Or.inr ⟨rfl, fun _ => discontinuity_not_media⟩) n

theorem stays_first {first removedDisc : ℕ} {l : Line} (h : ascii "#EXTM3U" <+: l.text) :
    stays first removedDisc l = true := by
  have hnot : ∀ name, ¬ascii "#EXTM3U" <+: ascii name → ¬ascii name <+: ascii "#EXTM3U" →
      tag l.text name = false := by
    intro name hne hne'
    by_contra htag
    have htag := tag_starts (Bool.eq_true_of_not_eq_false htag)
    rcases List.prefix_or_prefix_of_prefix h htag with hle | hle
    · exact hne hle
    · exact hne' hle
  rw [stays, hnot mediaSequenceTag (by decide) (by decide),
    hnot discontinuitySequenceTag (by decide) (by decide)]
  simp

def Playlist.rewritten (p : Playlist) (opts : Opts) : Playlist where
  header := p.newHeader opts
  segments := (p.segments.drop (p.removed opts)).map (Segment.mark opts)
  endList := p.endList
  starts := by
    obtain ⟨l, hhead, hstarts⟩ := p.starts
    obtain ⟨rest, hheader⟩ := List.head?_eq_some_iff.mp hhead
    refine ⟨l, ?_, hstarts⟩
    rw [newHeader, hheader, List.filter_cons_of_pos (stays_first hstarts)]
    rfl
  headerLines := by
    intro l hl
    rcases List.mem_append.mp hl with hl | hl
    · exact p.headerLines l (List.mem_of_mem_filter hl)
    · rcases List.mem_append.mp hl with hl | hl
      · split_ifs at hl
        · rw [List.mem_singleton.mp hl]
          exact mediaLine_header _
        · cases hl
      · split_ifs at hl
        · rw [List.mem_singleton.mp hl]
          exact discontinuityLine_header _
        · cases hl
  ends := p.ends

end HlsPlaylist
