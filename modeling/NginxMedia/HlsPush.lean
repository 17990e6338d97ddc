import NginxMedia.ByteString
import NginxMedia.StepRun

/-! One HLS push destination of `ngx_media_hls_push.c`: the queue of sealed files, the upload in
flight and the names of the segments that the remote lacks. What the remote answered is a
history. A playlist is the list of its segments; the rewrite of `ngx_media_hls_playlist.c` drops
some from the front and marks others. -/
namespace HlsPush

open ByteString

abbrev Str := List UInt8

def queueMax : ℕ := 64
def missingMax : ℕ := 8
def nameMax : ℕ := 64
def sentMax : ℕ := 64
def deletesMax : ℕ := 8
def playlistMax : ℕ := 256 * 1024

def ngxError : ℤ := -1
def ngxDeclined : ℤ := -5

/-- A segment of a media playlist, with its `EXT-X-GAP`. -/
structure Entry where
  uri : Str
  gap : Bool
  deriving DecidableEq, Repr

structure Opts where
  window : ℕ
  first : Str
  missing : List Str

/-- The segments that `ngx_media_hls_playlist_rewrite()` removes: those past the window, and
those before the first one that the destination had, when that one is listed. -/
def removed (opts : Opts) (uris : List Str) : ℕ :=
  let past := if opts.window ≠ 0 ∧ uris.length > opts.window then uris.length - opts.window else 0
  if opts.first ≠ [] ∧ opts.first ∈ uris then max past (uris.idxOf opts.first) else past

def mark (opts : Opts) (entry : Entry) : Entry :=
  { entry with gap := entry.gap || decide (entry.uri ∈ opts.missing) }

/-- The segments of the playlist that `ngx_media_hls_playlist_rewrite()` writes. -/
def rewrite (opts : Opts) (entries : List Entry) : List Entry :=
  (entries.drop (removed opts (entries.map Entry.uri))).map (mark opts)

def gapsMarked (opts : Opts) (entries : List Entry) : ℕ :=
  (entries.drop (removed opts (entries.map Entry.uri))).countP fun entry =>
    !entry.gap && decide (entry.uri ∈ opts.missing)

/-- A byte as `ngx_strncasecmp()` compares it. -/
def lower (c : UInt8) : UInt8 := if 65 ≤ c ∧ c ≤ 90 then c ||| 0x20 else c

def isPlaylist (name : Str) : Bool :=
  name.length > 5 ∧ (name.drop (name.length - 5)).map lower = ascii ".m3u8"

structure Stream where
  name : ℕ → Str
  playlistName : Str
  distinct : Function.Injective name
  named : ∀ k, name k ≠ []
  media : ∀ k, isPlaylist (name k) = false
  listing : isPlaylist playlistName = true

inductive File where
  | segment (k : ℕ)
  | playlist (lo hi size : ℕ)
  deriving DecidableEq, Repr

def File.name (stream : Stream) : File → Str
  | .segment k => stream.name k
  | .playlist _ _ _ => stream.playlistName

def File.entries (stream : Stream) : File → List Entry
  | .segment _ => []
  | .playlist lo hi _ => (List.range' lo (hi - lo)).map fun k => ⟨stream.name k, false⟩

def File.size : File → ℕ
  | .segment _ => 0
  | .playlist _ _ size => size

structure Item where
  file : File
  firstNs : ℕ
  notBeforeNs : ℕ
  attempts : ℕ
  deriving DecidableEq, Repr

/-- What is sent for a playlist. -/
inductive Body where
  | asIs
  | rewritten (entries : List Entry) (gaps : ℕ)
  deriving DecidableEq, Repr

structure Inflight where
  item : Item
  body : Option Body
  deriving DecidableEq, Repr

structure Push where
  window : ℕ
  deleteExpired : Bool
  budgetMs : ℕ
  sent : List Str
  first : Str
  missing : List Str
  queue : List Item
  inflight : Option Inflight
  uploaded : ℕ
  dropped : ℕ
  failed : ℕ
  retried : ℕ
  gaps : ℕ
  deleted : ℕ
  deriving DecidableEq, Repr

inductive Opening where
  | opened
  | gone
  | error
  deriving DecidableEq, Repr

inductive Event where
  | uploaded (uri : Str)
  | accepted (entries : List Entry)
  | deletion (uri : Str)
  deriving DecidableEq, Repr

def setName (name : Str) : Str := name.take (nameMax - 1)

def missingAdd (push : Push) (name : Str) : Push :=
  { push with
    missing :=
      (if push.missing.length = missingMax then push.missing.drop 1 else push.missing) ++
        [setName name] }

def dropOldest (stream : Stream) (push : Push) : Push :=
  match push.queue with
  | [] => push
  | oldest :: rest =>
    let push := if isPlaylist (oldest.file.name stream) then push
      else missingAdd push (oldest.file.name stream)
    { push with queue := rest, dropped := push.dropped + 1 }

def enqueue (stream : Stream) (push : Push) (file : File) : Push :=
  let push := if push.queue.length = queueMax then dropOldest stream push else push
  { push with queue := push.queue ++ [⟨file, 0, 0, 0⟩] }

/-- `ngx_media_hls_push_sealed()`, for this destination. -/
def pushSealed (stream : Stream) (push : Push) (file : File) : Opening → Push
  | .opened => enqueue stream push file
  | .gone => { push with dropped := push.dropped + 1 }
  | .error => { push with failed := push.failed + 1 }

def take (stream : Stream) (push : Push) (now : ℕ) : Push :=
  match push.queue with
  | [] => push
  | item :: rest =>
    if push.inflight.isSome ∨ item.notBeforeNs ≠ 0 ∧ item.notBeforeNs > now then push
    else if isPlaylist (item.file.name stream) ∧ push.first = [] then { push with queue := rest }
    else
      { push with
        queue := rest
        first :=
          if isPlaylist (item.file.name stream) = false ∧ push.first = [] then
            setName (item.file.name stream)
          else push.first
        inflight := some ⟨{ item with
          firstNs := if item.firstNs = 0 then now else item.firstNs
          attempts := item.attempts + 1 }, none⟩ }

def opts (push : Push) : Opts := ⟨push.window, push.first, push.missing⟩

def body (stream : Stream) (push : Push) (file : File) (whole : Bool) : Body :=
  if file.size = 0 ∨ file.size > playlistMax ∨ whole = false then .asIs
  else .rewritten (rewrite (opts push) (file.entries stream))
    (gapsMarked (opts push) (file.entries stream))

def read (stream : Stream) (push : Push) (whole : Bool) : Push :=
  match push.inflight with
  | some ⟨item, none⟩ =>
    if isPlaylist (item.file.name stream) then
      { push with inflight := some ⟨item, some (body stream push item.file whole)⟩ }
    else push
  | _ => push

def sentAdd (push : Push) (name : Str) : Push :=
  { push with
    sent := (if push.sent.length = sentMax then push.sent.drop 1 else push.sent) ++ [setName name] }

def expiry (sent uris : List Str) : ℕ :=
  match uris.find? (· ∈ sent) with
  | some uri => sent.idxOf uri
  | none => 0

def deleteLoop (push : Push) (log : List Event) : List Str → List ℤ → Push × List Event
  | [], _ => (push, log)
  | uri :: rest, answers =>
    if push.deleteExpired = false then (push, log)
    else
      let answer := answers.headD ngxError
      let push :=
        if 200 ≤ answer ∧ answer < 300 ∨ answer = 404 then { push with deleted := push.deleted + 1 }
        else if answer = 403 ∨ answer = 405 ∨ answer = 501 then
          { push with deleteExpired := false }
        else push
      deleteLoop push (log ++ [.deletion uri]) rest (answers.drop 1)

/-- What `ngx_media_hls_push_playlist()` does once the remote has the rewritten playlist. -/
def accept (push : Push) (log : List Event) (entries : List Entry) (gaps : ℕ)
    (answers : List ℤ) : Push × List Event :=
  let uris := entries.map Entry.uri
  let due := expiry push.sent uris
  let expired := if push.deleteExpired then (push.sent.take due).take deletesMax else []
  deleteLoop
    { push with
      gaps := push.gaps + gaps
      missing := push.missing.filter (· ∈ uris)
      sent := push.sent.drop due }
    (log ++ [.accepted entries]) expired answers

def retryable (status : ℤ) : Bool := status = ngxError ∨ status = 408 ∨ status = 429 ∨ status ≥ 500

def backoff (attempts : ℕ) : ℕ := min (100 * 2 ^ min (attempts - 1) 4) 1000 * 1000000

def retries (push : Push) (item : Item) (status : ℤ) (now : ℕ) : Bool :=
  retryable status ∧ status ≠ ngxDeclined ∧
    now + backoff item.attempts - item.firstNs ≤ push.budgetMs * 1000000

def refuse (stream : Stream) (push : Push) (item : Item) (status : ℤ) (now : ℕ) : Push :=
  if retries push item status now then
    if push.queue.length < queueMax then
      { push with
        queue := { item with notBeforeNs := now + backoff item.attempts } :: push.queue
        retried := push.retried + 1 }
    else { push with failed := push.failed + 1 }
  else
    let push := if isPlaylist (item.file.name stream) then push
      else missingAdd push (item.file.name stream)
    { push with failed := push.failed + 1 }

def success (status : ℤ) : Bool := 200 ≤ status ∧ status < 300

def answer (stream : Stream) (push : Push) (log : List Event) (status : ℤ) (now : ℕ)
    (answers : List ℤ) : Push × List Event :=
  match push.inflight with
  | none => (push, log)
  | some ⟨item, body⟩ =>
    let idle := { push with inflight := none }
    if isPlaylist (item.file.name stream) then
      match body with
      | none => (refuse stream idle item ngxError now, log)
      | some .asIs =>
        if success status then
          ({ idle with uploaded := idle.uploaded + 1 },
            log ++ [.accepted (item.file.entries stream)])
        else (refuse stream idle item status now, log)
      | some (.rewritten entries gaps) =>
        if success status then
          let accepted := accept idle log entries gaps answers
          ({ accepted.1 with uploaded := accepted.1.uploaded + 1 }, accepted.2)
        else (refuse stream idle item status now, log)
    else if success status then
      let name := item.file.name stream
      let sent := sentAdd idle name
      ({ sent with missing := sent.missing.erase name, uploaded := sent.uploaded + 1 },
        log ++ [.uploaded name])
    else (refuse stream idle item status now, log)

/-- A destination on a stream: how many segments have been sealed, and the first one that the
segmenter still lists. -/
structure World where
  push : Push
  total : ℕ
  listed : ℕ
  log : List Event
  deriving DecidableEq, Repr

inductive Call where
  | sealSegment (opening : Opening)
  | sealPlaylist (leaving size : ℕ) (opening : Opening)
  | take (now : ℕ)
  | read (whole : Bool)
  | answer (status : ℤ) (now : ℕ) (answers : List ℤ)
  deriving DecidableEq, Repr

def World.from (w : World) (leaving : ℕ) : ℕ := min (w.listed + leaving) w.total

def step (stream : Stream) (w : World) : Call → World
  | .sealSegment opening =>
    { w with push := pushSealed stream w.push (.segment w.total) opening, total := w.total + 1 }
  | .sealPlaylist leaving size opening =>
    { w with
      push := pushSealed stream w.push (.playlist (w.from leaving) w.total size) opening
      listed := w.from leaving }
  | .take now => { w with push := take stream w.push now }
  | .read whole => { w with push := read stream w.push whole }
  | .answer status now answers =>
    let next := answer stream w.push w.log status now answers
    { w with push := next.1, log := next.2 }

def join (window : ℕ) (deleteExpired : Bool) (budgetMs total leaving : ℕ) : World where
  push := ⟨window, deleteExpired, budgetMs, [], [], [], [], none, 0, 0, 0, 0, 0, 0⟩
  total := total
  listed := min leaving total
  log := []

end HlsPush
