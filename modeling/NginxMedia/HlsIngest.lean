import Mathlib.Data.List.DropRight
import Mathlib.Data.List.Infix
import NginxMedia.ByteString
import NginxMedia.MediaTypes

/-! The HLS ingest reader of `ngx_media_hls_ingest.c`: how it chooses the next segment of a
directory, by the media playlist when there is one and by the names otherwise. Names and
texts are byte strings without their terminating zero; what the file system answers during a
call is a `Directory`. -/
namespace HlsIngest

open MediaTypes ByteString

abbrev Name := List UInt8

def nameMax : ℕ := 256
def seenMax : ℕ := 256
def playlistMax : ℕ := 64 * 1024

def isDigit (c : UInt8) : Bool := 48 ≤ c && c ≤ 57

def strcmp : Name → Name → Ordering := List.compareLex compare

def numberEnd (a : Name) : ℕ :=
  let e := (a.rdropWhile (· != 46)).length
  if e > 0 then e - 1 else a.length

def stem (a : Name) : Name := (a.take (numberEnd a)).rdropWhile isDigit

def digits (a : Name) : Name := (a.take (numberEnd a)).rtakeWhile isDigit

/-- The digits without leading zeros, the last one kept. -/
def significant : Name → Name
  | c :: d :: rest => if c = 48 then significant (d :: rest) else c :: d :: rest
  | short => short

def ingestCmp (a b : Name) : Ordering :=
  let da := (stem a).length
  if digits a = [] ∨ digits b = [] ∨ da ≠ (stem b).length ∨
      strcmp (a.take da) (b.take da) ≠ .eq then strcmp a b
  else
    let na := significant (digits a)
    let nb := significant (digits b)
    if na.length ≠ nb.length then if na.length < nb.length then .lt else .gt
    else
      match strcmp na nb with
      | .eq => strcmp a b
      | c => c

/-- A character a segment name may hold. -/
def safe (c : UInt8) : Bool :=
  97 ≤ c && c ≤ 122 || 65 ≤ c && c ≤ 90 || isDigit c || c == 45 || c == 95 || c == 46

def segmentName (name : Name) : Bool :=
  if name.length < 4 ∨ name.length ≥ nameMax ∨ name.head? = some 46 ∨
      name.drop (name.length - 3) ≠ ascii ".ts" then false
  else name.all safe

/-- The part of `ngx_media_hls_ingest_source_t` that decides what is read next. -/
structure Reader where
  directory : List UInt8
  seen : List Name
  seenNext : ℕ
  lastName : Option Name
  lastSeq : Option ℕ
  playlistSegments : ℕ
  failures : ℕ
  deriving DecidableEq, Repr

def Reader.new (directory : List UInt8) : Reader := ⟨directory, [], 0, none, none, 0, 0⟩

def seen (r : Reader) (name : Name) (byName : Bool) : Bool :=
  if byName && r.lastName.any fun last => ingestCmp name last != .gt then true
  else decide (name ∈ r.seen)

def remember (r : Reader) (name : Name) : Reader :=
  if r.seen.length < seenMax then { r with seen := r.seen ++ [name] }
  else
    { r with
      seen := r.seen.set r.seenNext name
      seenNext := (r.seenNext + 1) % seenMax }

def record (r : Reader) (name : Name) : Reader :=
  if name.length ≥ nameMax then r
  else
    let r := remember r name
    if r.lastName.all fun last => ingestCmp name last == .gt then { r with lastName := some name }
    else r

/-- A directory entry with what `stat()` and `fopen()` find behind it. -/
structure File where
  name : Name
  mtime : Option ℤ
  text : Option (List UInt8)
  deriving DecidableEq, Repr

structure Directory where
  opens : Bool
  files : List File
  allocates : Bool
  readable : List Name
  opensAgain : Bool
  names : List Name
  deriving DecidableEq, Repr

/-- `"%s/%s"` is not cut off by the path buffer. -/
def fits (r : Reader) (name : Name) : Bool :=
  decide (r.directory.length + 1 + name.length < nameMax + 512)

def playlistName (name : Name) : Bool :=
  !(decide (name.length < 6 ∨ name.length ≥ nameMax ∨ name.head? = some 46 ∨
    name.drop (name.length - 5) ≠ ascii ".m3u8"))

def newest (r : Reader) (chosen : Option (ℤ × File)) (f : File) : Option (ℤ × File) :=
  if !playlistName f.name || !fits r f.name then chosen
  else
    match f.mtime with
    | none => chosen
    | some t =>
      match chosen with
      | none => some (t, f)
      | some (t', f') =>
        if t > t' ∨ t = t' ∧ strcmp f.name f'.name = .gt then some (t, f) else chosen

def choose (r : Reader) (files : List File) : Option File :=
  (files.foldl (newest r) none).map Prod.snd

def isSpace (c : UInt8) : Bool := c == 32 || 9 ≤ c && c ≤ 13

def value (ds : Name) : ℕ := ds.foldl (fun n c => 10 * n + (c.toNat - 48)) 0

/-- `strtoull()` in base ten. -/
def strtoull (text : List UInt8) : ℕ :=
  let text := text.dropWhile isSpace
  let negative := text.head? == some 45
  let text := if negative || text.head? == some 43 then text.tail else text
  let n := value (text.takeWhile isDigit)
  if n ≥ 2 ^ 64 then 2 ^ 64 - 1 else if negative then (2 ^ 64 - n) % 2 ^ 64 else n

inductive Line where
  | sequence (base : ℕ)
  | extinf
  | tag
  | uri (name : Name)
  deriving DecidableEq, Repr

def lineOf (line : List UInt8) : Line :=
  if ascii "#EXT-X-MEDIA-SEQUENCE:" <+: line then .sequence (strtoull (line.drop 22))
  else if ascii "#EXTINF" <+: line then .extinf
  else if line.head? = some 35 ∨ line = [] then .tag
  else .uri (line.rtakeWhile (· != 47))

/-- `strtok_r()` with carriage return and line feed. -/
def lines (text : List UInt8) : List (List UInt8) :=
  (text.splitOnP fun c => c == 13 || c == 10).filter (· ≠ [])

def buffered (text : List UInt8) : List UInt8 := (text.take playlistMax).takeWhile (· != 0)

def usable (text : List UInt8) : Bool :=
  !(decide ((text.take playlistMax).length < 7 ∨ ¬ascii "#EXTM3U" <+: buffered text ∨
    ascii "#EXT-X-STREAM-INF" <:+: buffered text))

def scan (readable : List Name) (cap : ℕ) :
    List Line → ℕ → ℕ → Bool → Reader → Option Name × Bool × Reader
  | [], _, _, media, r => (none, media, r)
  | .sequence base :: rest, _, seq, media, r => scan readable cap rest base seq media r
  | .extinf :: rest, base, seq, _, r => scan readable cap rest base seq true r
  | .tag :: rest, base, seq, media, r => scan readable cap rest base seq media r
  | .uri name :: rest, base, seq, media, r =>
    let number := (base + seq) % 2 ^ 64
    if r.lastSeq = none ∧ r.lastName = some name then
      -- ordered by name until now: resume after the last name read
      scan readable cap rest base (seq + 1) media { r with lastSeq := some number }
    else if (r.lastSeq.all fun last => decide (number > last)) && segmentName name &&
        decide (name.length < cap) && !seen r name false then
      if fits r name && decide (name ∈ readable) then
        (some name, media,
          record { r with
            lastSeq := some number
            playlistSegments := r.playlistSegments + 1 } name)
      else
        -- listed but not there
        scan readable cap rest base (seq + 1) media
          { r with
            failures := r.failures + 1
            lastSeq := some number }
    else scan readable cap rest base (seq + 1) media r

theorem scan_tag (readable : List Name) (cap : ℕ) (rest : List Line) (base seq : ℕ)
    (media : Bool) (r : Reader) :
    scan readable cap (.tag :: rest) base seq media r =
      scan readable cap rest base seq media r := by
  rw [scan]

inductive Answer where
  | ok (name : Name)
  | declined
  | error
  | noPlaylist
  deriving DecidableEq, Repr

def nextByPlaylist (r : Reader) (d : Directory) (cap : ℕ) : Answer × Reader :=
  if d.opens = false then (.error, r)
  else
    match (choose r d.files).bind File.text with
    | none => (.noPlaylist, r)
    | some text =>
      if d.allocates = false then (.error, r)
      else if usable text = false then (.noPlaylist, r)
      else
        match scan d.readable cap ((lines (buffered text)).map lineOf) 0 0 false r with
        | (chosen, media, r) =>
          if media = false then (.noPlaylist, r)
          else
            match chosen with
            | some name => (.ok name, r)
            | none => (.declined, r)

def unread (r : Reader) (names : List Name) : List Name :=
  names.filter fun name => segmentName name && !seen r name true

def lower (best : Option Name) (name : Name) : Option Name :=
  match best with
  | none => some name
  | some b => if ingestCmp name b = .lt then some name else some b

/-- The rest of `ngx_media_hls_ingest_next()` when no playlist decides. -/
def nextByName (r : Reader) (d : Directory) (cap : ℕ) : Answer × Reader :=
  if d.opensAgain = false then (.error, r)
  else
    match (unread r d.names).foldl lower none with
    | none => (.declined, r)
    | some best => if best.length ≥ cap then (.declined, r) else (.ok best, record r best)

def next (r : Reader) (d : Directory) (cap : ℕ) : Answer × Reader :=
  match nextByPlaylist r d cap with
  | (.noPlaylist, r) => nextByName r d cap
  | answered => answered

end HlsIngest
