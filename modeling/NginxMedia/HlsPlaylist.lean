import NginxMedia.HlsIngest
import NginxMedia.HlsPush

/-! The rewrite of a media playlist of `ngx_media_hls_playlist.c` on its bytes: one pass finds the
header and the segments, the next writes what is kept. -/
namespace HlsPlaylist

open ByteString
open HlsIngest (strtoull)
open HlsPush (Str Opts removed)

def segmentsMax : ℕ := 256

def mediaSequenceTag : String := "#EXT-X-MEDIA-SEQUENCE"
def discontinuitySequenceTag : String := "#EXT-X-DISCONTINUITY-SEQUENCE"
def discontinuityTag : String := "#EXT-X-DISCONTINUITY"
def gapTag : String := "#EXT-X-GAP"
def endListTag : String := "#EXT-X-ENDLIST"
def streamInfTag : String := "#EXT-X-STREAM-INF"

def tag (line : Str) (name : String) : Bool :=
  decide (ascii name <+: line) &&
    match line.drop (ascii name).length with
    | [] => true
    | c :: _ => c == 58 || c == 13

def headerTags : List String :=
  ["#EXTM3U", "#EXT-X-VERSION", "#EXT-X-TARGETDURATION", mediaSequenceTag,
    discontinuitySequenceTag, "#EXT-X-PLAYLIST-TYPE", "#EXT-X-INDEPENDENT-SEGMENTS",
    "#EXT-X-START", "#EXT-X-ALLOW-CACHE", "#EXT-X-I-FRAMES-ONLY", "#EXT-X-SERVER-CONTROL",
    "#EXT-X-PART-INF"]

def headerTag (line : Str) : Bool := headerTags.any (tag line)

def lines : Str → List Str
  | [] => []
  | c :: rest =>
    if c = 10 then [10] :: lines rest
    else
      match lines rest with
      | [] => [[c]]
      | line :: others => (c :: line) :: others

def bare (line : Str) : Str := line.rdropWhile fun c => c == 10 || c == 13

/-- `ngx_media_hls_playlist_seg_t`, with the text between its offsets. -/
structure Seg where
  tags : Str
  uri : Str
  discontinuity : Bool
  gap : Bool
  deriving DecidableEq, Repr

/-- A segment whose URI is still to come. -/
structure Begun where
  tags : Str
  discontinuity : Bool
  gap : Bool

structure Scan where
  header : Str
  mediaSeq : ℕ
  discSeq : ℕ
  segs : List Seg
  trailer : Str

inductive Refusal where
  | declined
  | error
  deriving DecidableEq, Repr

structure Info where
  segments : ℕ
  removed : ℕ
  gaps : ℕ
  mediaSequence : ℕ
  uris : List Str
  deriving DecidableEq, Repr

def scanSegments : List Str → Option Begun → List Seg → Except Refusal (List Seg × Str)
  | [], _, segs => .ok (segs, [])
  | line :: rest, opened, segs =>
    if tag (bare line) streamInfTag then .error .declined
    else if tag (bare line) endListTag then .ok (segs, (line :: rest).flatten)
    else if bare line = [] then
      scanSegments rest (opened.map fun o => { o with tags := o.tags ++ line }) segs
    else if opened.isNone ∧ segs.length = segmentsMax then .error .error
    else
      let o := opened.getD ⟨[], false, false⟩
      if (bare line).head? = some 35 then
        let discontinuity := tag (bare line) discontinuityTag
        scanSegments rest
          (some
            { tags := o.tags ++ line
              discontinuity := o.discontinuity || discontinuity
              gap := o.gap || !discontinuity && tag (bare line) gapTag })
          segs
      else scanSegments rest none (segs ++ [⟨o.tags, line, o.discontinuity, o.gap⟩])

def scanHeader : List Str → Str → ℕ → ℕ → Except Refusal Scan
  | [], header, mediaSeq, discSeq => .ok ⟨header, mediaSeq, discSeq, [], []⟩
  | line :: rest, header, mediaSeq, discSeq =>
    if tag (bare line) streamInfTag then .error .declined
    else if bare line = [] ∨ headerTag (bare line) = true then
      if tag (bare line) mediaSequenceTag then
        scanHeader rest (header ++ line) (strtoull ((line :: rest).flatten.drop 22)) discSeq
      else if tag (bare line) discontinuitySequenceTag then
        scanHeader rest (header ++ line) mediaSeq (strtoull ((line :: rest).flatten.drop 30))
      else scanHeader rest (header ++ line) mediaSeq discSeq
    else
      (scanSegments (line :: rest) none []).map fun (segs, trailer) =>
        ⟨header, mediaSeq, discSeq, segs, trailer⟩

def put (cap : ℕ) (out data : Str) : Option Str :=
  if data.length > cap - out.length then none else some (out ++ data)

def headerKept (header : Str) (first removedDisc : ℕ) : List Str :=
  ((lines header).filter fun line =>
    !(decide (first > 0) && tag line mediaSequenceTag) &&
      !(decide (removedDisc > 0) && tag line discontinuitySequenceTag)).map fun line =>
    if line.getLast? = some 10 then line else line ++ [10]

def sequenceLine (name : String) (n : ℕ) : Str := ascii name ++ 58 :: (decimal (n % 2 ^ 64) ++ [10])

/-- `ngx_media_hls_playlist_is_missing()` of a segment that has no gap yet. -/
def marks (opts : Opts) (seg : Seg) : Bool := !seg.gap && decide (bare seg.uri ∈ opts.missing)

def segmentPieces (opts : Opts) (seg : Seg) : List Str :=
  [seg.tags] ++ (if marks opts seg then [ascii gapTag ++ [10]] else []) ++ [bare seg.uri, [10]]

/-- What is put, in its order. -/
def pieces (opts : Opts) (s : Scan) (first removedDisc : ℕ) : List Str :=
  headerKept s.header first removedDisc ++
    (if first > 0 then [sequenceLine mediaSequenceTag (s.mediaSeq + first)] else []) ++
    (if removedDisc > 0 then [sequenceLine discontinuitySequenceTag (s.discSeq + removedDisc)]
      else []) ++
    (s.segs.drop first).flatMap (segmentPieces opts) ++ [s.trailer]

/-- `ngx_media_hls_playlist_rewrite()` into a buffer of `cap` bytes. -/
def rewrite (opts : Opts) (cap : ℕ) (text : Str) : Except Refusal (Str × Info) :=
  if ¬ascii "#EXTM3U" <+: text then .error .declined
  else
    match scanHeader (lines text) [] 0 0 with
    | .error refusal => .error refusal
    | .ok s =>
      let uris := s.segs.map fun seg => bare seg.uri
      let first := removed opts uris
      let removedDisc := (s.segs.take first).countP Seg.discontinuity
      match (pieces opts s first removedDisc).foldlM (put cap) [] with
      | none => .error .error
      | some out =>
        .ok (out,
          { segments := s.segs.length - first
            removed := first
            gaps := (s.segs.drop first).countP (marks opts)
            mediaSequence := (s.mediaSeq + first) % 2 ^ 64
            uris := uris.drop first })

variable {line text rest : Str}

theorem lines_append (h : (10 : UInt8) ∉ text) (rest : Str) :
    lines (text ++ 10 :: rest) = (text ++ [10]) :: lines rest := by
  induction text with
  | nil => rfl
  | cons c text ih =>
    have hc : c ≠ 10 := fun heq => h (heq ▸ List.mem_cons_self)
    have hrest := ih fun hmem => h (List.mem_cons_of_mem _ hmem)
    rw [List.cons_append, lines, if_neg hc, hrest]
    rfl

theorem foldlM_put {cap : ℕ} {out : Str} {ps : List Str}
    (h : (out ++ ps.flatten).length ≤ cap) :
    ps.foldlM (put cap) out = some (out ++ ps.flatten) := by
  induction ps generalizing out with
  | nil => simp
  | cons p ps ih =>
    have hlen : out.length + (p.length + ps.flatten.length) ≤ cap := by
      simpa [List.length_append] using h
    have hput : put cap out p = some (out ++ p) := by
      rw [put, if_neg (by omega)]
    rw [List.foldlM_cons, hput]
    dsimp only [bind, Option.bind]
    rw [ih (by simpa [List.length_append, Nat.add_assoc] using hlen), List.flatten_cons,
      List.append_assoc]

end HlsPlaylist
