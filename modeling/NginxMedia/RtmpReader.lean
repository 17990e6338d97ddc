import NginxMedia.MediaTypes
import NginxMedia.ByteString
import NginxMedia.StepRun

/-! The chunk reader of `ngx_media_rtmp_wire.c`: a resumable parser that is handed the bytes
it has not consumed yet, followed by what the socket brought. A chunk stream's slot is only
ever looked up by its id, so the slot array is a map with the number of slots in use. -/
namespace RtmpReader

open MediaTypes ByteString

def maxCsid : ℕ := 64
def defaultChunk : ℕ := 128
def maxChunk : ℕ := 65536
def maxMessage : ℕ := 16 * 1024 * 1024
def maxBuffered : ℕ := 2 * maxMessage
def msgChunkSize : ℕ := 1
def msgAbort : ℕ := 2

/-- `ngx_media_rtmp_cs_t`. The payload is what has been copied so far; what lies behind it in
the buffer is overwritten before anyone reads it. -/
structure ChunkStream where
  type : ℕ
  streamId : ℕ
  timestamp : UInt32
  delta : UInt32
  length : ℕ
  received : ℕ
  allocated : ℕ
  payload : Option Payload
  extended : Bool
  deriving DecidableEq, Repr

def ChunkStream.new : ChunkStream := ⟨0, 0, 0, 0, 0, 0, 0, none, false⟩

/-- `ngx_media_rtmp_reader_t`, less `bytes_in`, which no step of the parser touches. -/
structure Reader where
  chunkSize : ℕ
  maxMessage : ℕ
  maxBuffered : ℕ
  buffered : ℕ
  chunks : ℕ → Option ChunkStream
  used : ℕ
  pendingCsid : ℕ
  pendingRemaining : ℕ
  messages : ℕ
  errors : ℕ

def Reader.init : Reader :=
  ⟨defaultChunk, RtmpReader.maxMessage, RtmpReader.maxBuffered, 0, fun _ => none, 0, 0, 0, 0, 0⟩

structure Message where
  type : ℕ
  streamId : ℕ
  timestamp : UInt32
  payload : Payload
  deriving DecidableEq, Repr

/-- What the reader asks of its surroundings: memory, and the callback's verdict on a message
after those it already got. -/
structure Host where
  alloc : ℕ → Bool
  accepts : List Message → Message → Bool

structure State where
  reader : Reader
  delivered : List Message

def setCs (r : Reader) (csid : ℕ) (cs : ChunkStream) : Reader :=
  { r with chunks := Function.update r.chunks csid (some cs) }

def fault (r : Reader) : Reader := { r with errors := r.errors + 1 }

def csGet (r : Reader) (csid : ℕ) (create : Bool) : Option (Reader × ChunkStream) :=
  match r.chunks csid with
  | some cs => some (r, cs)
  | none =>
    if create = true ∧ r.used < maxCsid then
      some ({ setCs r csid ChunkStream.new with used := r.used + 1 }, ChunkStream.new)
    else none

def release (buffered : ℕ) (cs : ChunkStream) : ℕ × ChunkStream :=
  (buffered - cs.allocated, { cs with payload := none, allocated := 0 })

def setChunkSize (r : Reader) (size : ℕ) : Reader × Rc :=
  if size = 0 ∨ size > maxChunk then (fault r, .error) else ({ r with chunkSize := size }, .ok)

def abort (r : Reader) (csid : ℕ) : Reader :=
  match r.chunks csid with
  | some target =>
    if target.payload.isSome then
      let released := release r.buffered target
      setCs { r with buffered := released.1 } csid { released.2 with received := 0, length := 0 }
    else r
  | none => r

def control (r : Reader) (cs : ChunkStream) (payload : Payload) : Reader × Rc :=
  if cs.type ≠ msgChunkSize ∧ cs.type ≠ msgAbort then (r, .ok)
  else if payload.length ≠ 4 ∨ cs.length ≠ 4 then (fault r, .error)
  else if cs.type = msgChunkSize then setChunkSize r (be32 payload 0)
  else (abort r (be32 payload 0), .ok)

def complete (host : Host) (s : State) (csid : ℕ) (cs : ChunkStream) : State × Rc :=
  let r := setCs { s.reader with buffered := s.reader.buffered - cs.allocated } csid
    { cs with payload := none, allocated := 0 }
  match cs.payload with
  | none => (⟨r, s.delivered⟩, .ok)
  | some payload =>
    let payload := payload.take cs.length
    match control r cs payload with
    | (r, .ok) =>
      let message := ⟨cs.type, cs.streamId, cs.timestamp, payload⟩
      if host.accepts s.delivered message then
        (⟨{ r with messages := r.messages + 1 }, s.delivered ++ [message]⟩, .ok)
      else (⟨r, s.delivered ++ [message]⟩, .error)
    | (r, _) => (⟨r, s.delivered⟩, .error)

def basicHeader (bytes : List UInt8) : Option (ℕ × ℕ × ℕ) :=
  let fmt := byteAt bytes 0 / 64
  let csid := byteAt bytes 0 % 64
  if csid = 0 then
    if bytes.length < 2 then none else some (fmt, 64 + byteAt bytes 1, 2)
  else if csid = 1 then
    if bytes.length < 3 then none
    else some (fmt, 64 + byteAt bytes 1 + byteAt bytes 2 * 256, 3)
  else some (fmt, csid, 1)

def stamp (fmt : ℕ) (field : ℕ) (cs : ChunkStream) : ChunkStream :=
  { cs with
    timestamp := if fmt = 0 then UInt32.ofNat field else cs.timestamp + UInt32.ofNat field
    delta := UInt32.ofNat field }

def messageHeaderSize (fmt : ℕ) : ℕ := if fmt = 0 then 11 else if fmt = 1 then 7 else 3

/-- What formats 0 to 2 assign once their fixed part at offset `h` is there. -/
def headerFields (buffered : ℕ) (cs : ChunkStream) (fmt h : ℕ) (bytes : List UInt8) :
    ℕ × ChunkStream :=
  let cs :=
    if fmt = 2 then cs
    else { cs with length := be24 bytes (h + 3), type := byteAt bytes (h + 6) }
  let cs := if fmt = 0 then { cs with streamId := be32 bytes (h + 7) } else cs
  -- a new length replaces what an unfinished message has received
  let started := if fmt ≠ 2 ∧ cs.payload.isSome then release buffered cs else (buffered, cs)
  (started.1, { started.2 with extended := decide (be24 bytes h = 0xFFFFFF), received := 0 })

/-- Formats 0 to 2 at offset `h`: the header's end, or nothing when bytes are missing. -/
def messageHeader (buffered : ℕ) (cs : ChunkStream) (fmt h : ℕ) (bytes : List UInt8) :
    ℕ × ChunkStream × Option ℕ :=
  if bytes.length < h + messageHeaderSize fmt then (buffered, cs, none)
  else
    let field := be24 bytes h
    let fields := headerFields buffered cs fmt h bytes
    let h := h + messageHeaderSize fmt
    if field = 0xFFFFFF then
      if bytes.length < h + 4 then (fields.1, fields.2, none)
      else (fields.1, stamp fmt (be32 bytes h) fields.2, some (h + 4))
    else (fields.1, stamp fmt field fields.2, some h)

/-- Nothing of a message is there, so format 3 starts one. -/
def ChunkStream.Idle (cs : ChunkStream) : Prop := cs.received ≥ cs.length ∨ cs.payload = none

instance (cs : ChunkStream) : Decidable cs.Idle :=
  inferInstanceAs (Decidable (cs.received ≥ cs.length ∨ cs.payload = none))

def repeatHeader (cs : ChunkStream) : ChunkStream :=
  if cs.Idle then { cs with received := 0, timestamp := cs.timestamp + cs.delta } else cs

/-- Format 3 at offset `h`. The message is started before the extended timestamp is known to
be there. -/
def continuation (buffered : ℕ) (cs : ChunkStream) (h : ℕ) (bytes : List UInt8) :
    ℕ × ChunkStream × Option ℕ :=
  let cs := repeatHeader cs
  if cs.extended then
    if bytes.length < h + 4 then (buffered, cs, none) else (buffered, cs, some (h + 4))
  else (buffered, cs, some h)

def chunkHeader (buffered : ℕ) (cs : ChunkStream) (fmt h : ℕ) (bytes : List UInt8) :
    ℕ × ChunkStream × Option ℕ :=
  if fmt = 3 then continuation buffered cs h bytes else messageHeader buffered cs fmt h bytes

inductive Parsed where
  | more (r : Reader)
  | bad (r : Reader)
  | ready (r : Reader) (csid : ℕ) (cs : ChunkStream) (h : ℕ)

def openMessage (host : Host) (r : Reader) (csid : ℕ) (cs : ChunkStream) (h : ℕ) : Parsed :=
  let expect := fun (r : Reader) (cs : ChunkStream) =>
    Parsed.ready
      { setCs r csid cs with
        pendingCsid := csid
        pendingRemaining := min (cs.length - cs.received) r.chunkSize } csid cs h
  if cs.length > r.maxMessage then .bad (fault r)
  else if cs.payload = none ∧ cs.length > 0 then
    if cs.length > r.maxBuffered - r.buffered then .bad (fault r)
    else if host.alloc cs.length = false then .bad (fault r)
    else
      expect { r with buffered := r.buffered + cs.length }
        { cs with payload := some [], allocated := cs.length }
  else expect r cs

def parseHeader (host : Host) (r : Reader) (bytes : List UInt8) : Parsed :=
  match basicHeader bytes with
  | none => .more r
  | some (fmt, csid, h) =>
    match csGet r csid (fmt != 3) with
    | none => .bad (fault r)
    | some (r, cs) =>
      match chunkHeader r.buffered cs fmt h bytes with
      | (buffered, cs, none) => .more (setCs { r with buffered := buffered } csid cs)
      | (buffered, cs, some h) =>
        openMessage host (setCs { r with buffered := buffered } csid cs) csid cs h

inductive Step where
  | stop (s : State)
  | fail (s : State) (consumed : ℕ)
  | next (s : State) (consumed : ℕ)

def Step.after (h : ℕ) : Step → Step
  | .stop s => .stop s
  | .fail s consumed => .fail s (h + consumed)
  | .next s consumed => .next s (h + consumed)

def wanted (r : Reader) (cs : ChunkStream) : ℕ := min (cs.length - cs.received) r.pendingRemaining

def copied (cs : ChunkStream) (bytes : List UInt8) : ChunkStream :=
  { cs with
    payload := if bytes = [] then cs.payload else cs.payload.map fun p => p.take cs.received ++ bytes
    received := cs.received + bytes.length }

def advance (r : Reader) (csid : ℕ) (cs : ChunkStream) (part : List UInt8) : Reader :=
  setCs { r with pendingRemaining := r.pendingRemaining - part.length } csid (copied cs part)

def finish (r : Reader) : Reader := { r with pendingCsid := 0, pendingRemaining := 0 }

/-- The loop's `payload:` label. -/
def payloadStep (host : Host) (s : State) (csid : ℕ) (cs : ChunkStream) (bytes : List UInt8) :
    Step :=
  let part := bytes.take (wanted s.reader cs)
  let r := advance s.reader csid cs part
  if (copied cs part).received ≥ (copied cs part).length then
    match complete host ⟨finish r, s.delivered⟩ csid (copied cs part) with
    | (s, .ok) => .next s part.length
    | (s, _) => .fail s part.length
  else .next ⟨r, s.delivered⟩ part.length

def loopStep (host : Host) (s : State) (bytes : List UInt8) : Step :=
  if s.reader.pendingRemaining > 0 then
    match s.reader.chunks s.reader.pendingCsid with
    | none => .fail ⟨fault s.reader, s.delivered⟩ 0
    | some cs => payloadStep host s s.reader.pendingCsid cs bytes
  else
    match parseHeader host s.reader bytes with
    | .more r => .stop ⟨r, s.delivered⟩
    | .bad r => .fail ⟨r, s.delivered⟩ 0
    | .ready r csid cs h => (payloadStep host ⟨r, s.delivered⟩ csid cs (bytes.drop h)).after h

theorem basicHeader_size {bytes : List UInt8} {fmt csid h : ℕ} (hne : bytes ≠ [])
    (hb : basicHeader bytes = some (fmt, csid, h)) : 0 < h ∧ h ≤ bytes.length := by
  have hpos := List.length_pos_iff.mpr hne
  unfold basicHeader at hb
  dsimp only at hb
  split_ifs at hb <;> cases hb <;> omega

theorem chunkHeader_size {buffered buffered' fmt h n : ℕ} {cs cs' : ChunkStream}
    {bytes : List UInt8} (hle : h ≤ bytes.length)
    (hc : chunkHeader buffered cs fmt h bytes = (buffered', cs', some n)) :
    h ≤ n ∧ n ≤ bytes.length := by
  unfold chunkHeader continuation messageHeader at hc
  dsimp only at hc
  split_ifs at hc <;> cases hc <;> omega

theorem openMessage_size {host : Host} {r r' : Reader} {csid csid' h n : ℕ}
    {cs cs' : ChunkStream} (ho : openMessage host r csid cs h = .ready r' csid' cs' n) : n = h := by
  unfold openMessage at ho
  dsimp only at ho
  split_ifs at ho <;> cases ho <;> rfl

theorem parseHeader_size {host : Host} {r r' : Reader} {bytes : List UInt8} {csid h : ℕ}
    {cs : ChunkStream} (hne : bytes ≠ []) (hp : parseHeader host r bytes = .ready r' csid cs h) :
    0 < h ∧ h ≤ bytes.length := by
  unfold parseHeader at hp
  cases hb : basicHeader bytes with
  | none => simp [hb] at hp
  | some x =>
    obtain ⟨fmt, id, n⟩ := x
    obtain ⟨hpos, hle⟩ := basicHeader_size hne hb
    simp only [hb] at hp
    cases hg : csGet r id (fmt != 3) with
    | none =>
      rw [hg] at hp
      cases hp
    | some y =>
      obtain ⟨r₁, cs₁⟩ := y
      simp only [hg] at hp
      rcases hc : chunkHeader r₁.buffered cs₁ fmt n bytes with ⟨buffered, cs₂, _ | m⟩
      · simp [hc] at hp
      · simp only [hc] at hp
        obtain rfl := openMessage_size hp
        have := chunkHeader_size hle hc
        omega

theorem copied_received (cs : ChunkStream) (bytes : List UInt8) :
    (copied cs bytes).received = cs.received + bytes.length := rfl

theorem copied_length (cs : ChunkStream) (bytes : List UInt8) :
    (copied cs bytes).length = cs.length := rfl

theorem abort_pending (r : Reader) (csid : ℕ) :
    (abort r csid).pendingRemaining = r.pendingRemaining := by
  unfold abort
  cases r.chunks csid with
  | none => rfl
  | some target =>
    dsimp only
    split_ifs <;> rfl

theorem setChunkSize_pending (r : Reader) (size : ℕ) :
    (setChunkSize r size).1.pendingRemaining = r.pendingRemaining := by
  unfold setChunkSize
  split_ifs
  · rfl
  · rfl

theorem control_pending (r : Reader) (cs : ChunkStream) (payload : Payload) :
    (control r cs payload).1.pendingRemaining = r.pendingRemaining := by
  unfold control
  split_ifs
  · rfl
  · rfl
  · exact setChunkSize_pending _ _
  · exact abort_pending _ _

theorem complete_pending (host : Host) (s : State) (csid : ℕ) (cs : ChunkStream) :
    (complete host s csid cs).1.reader.pendingRemaining = s.reader.pendingRemaining := by
  unfold complete
  dsimp only
  cases hp : cs.payload with
  | none => rfl
  | some payload =>
    dsimp only
    have hc := control_pending (setCs { s.reader with buffered := s.reader.buffered - cs.allocated }
      csid { cs with payload := none, allocated := 0 }) cs (payload.take cs.length)
    split
    · next r heq =>
      rw [heq] at hc
      split_ifs <;> exact hc
    · next r _ _ heq =>
      rw [heq] at hc
      exact hc

theorem payloadStep_next {host : Host} {s s' : State} {csid n : ℕ} {cs : ChunkStream}
    {bytes : List UInt8} (h : payloadStep host s csid cs bytes = .next s' n) :
    n ≤ bytes.length ∧ (n = 0 → bytes = [] ∨ s'.reader.pendingRemaining = 0 ∨
      s.reader.pendingRemaining = 0) := by
  unfold payloadStep at h
  dsimp only at h
  have hle : (bytes.take (wanted s.reader cs)).length ≤ bytes.length := by
    rw [List.length_take]
    exact Nat.min_le_right _ _
  split_ifs at h with hend
  · have hpend := complete_pending host ⟨finish (advance s.reader csid cs
      (bytes.take (wanted s.reader cs))), s.delivered⟩ csid
      (copied cs (bytes.take (wanted s.reader cs)))
    split at h
    · next t heq =>
      cases h
      rw [heq] at hpend
      exact ⟨hle, fun _ => Or.inr (Or.inl hpend)⟩
    · cases h
  · cases h
    refine ⟨hle, ?_⟩
    intro hzero
    rw [copied_received, copied_length, List.length_take, wanted] at hend
    rw [List.length_take, wanted] at hzero
    rw [← List.length_eq_zero_iff]
    omega

def measure (s : State) (bytes : List UInt8) : ℕ :=
  2 * bytes.length + if s.reader.pendingRemaining > 0 then 1 else 0

theorem pass_progress {host : Host} {s s' : State} {bytes : List UInt8} {n : ℕ} (hne : bytes ≠ [])
    (h : loopStep host s bytes = .next s' n) : measure s' (bytes.drop n) < measure s bytes := by
  have hpos := List.length_pos_iff.mpr hne
  unfold measure
  rw [List.length_drop]
  unfold loopStep at h
  split_ifs at h with hpend
  · cases hc : s.reader.chunks s.reader.pendingCsid with
    | none => simp [hc] at h
    | some cs =>
      simp only [hc] at h
      obtain ⟨hle, hzero⟩ := payloadStep_next h
      rw [if_pos hpend]
      by_cases hn : n = 0
      · rcases hzero hn with h0 | h0 | h0
        · exact absurd h0 hne
        · rw [if_neg (by omega)]
          omega
        · omega
      · split_ifs <;> omega
  · rw [if_neg hpend]
    rcases hp : parseHeader host s.reader bytes with _ | _ | ⟨r, csid, cs, k⟩
    · simp [hp] at h
    · simp [hp] at h
    · simp only [hp] at h
      obtain ⟨hk, hkle⟩ := parseHeader_size hne hp
      rcases hs : payloadStep host ⟨r, s.delivered⟩ csid cs (bytes.drop k) with _ | _ | ⟨t, m⟩
      · rw [hs] at h
        cases h
      · rw [hs] at h
        cases h
      · rw [hs] at h
        cases h
        have := (payloadStep_next hs).1
        rw [List.length_drop] at this
        split_ifs <;> omega

/-- The `while` of `ngx_media_rtmp_reader_feed()`, with the bytes consumed. -/
def feedLoop (host : Host) (s : State) (bytes : List UInt8) : State × ℕ × Rc :=
  if _hne : bytes = [] then (s, 0, .ok)
  else
    match _hp : loopStep host s bytes with
    | .stop s => (s, 0, .ok)
    | .fail s n => (s, n, .error)
    | .next s' n =>
      let rest := feedLoop host s' (bytes.drop n)
      (rest.1, n + rest.2.1, rest.2.2)
termination_by measure s bytes
decreasing_by exact pass_progress _hne _hp

/-- A reader with the count of the bytes it took. -/
structure Connection where
  state : State
  bytesIn : ℕ

def feed (host : Host) (c : Connection) (bytes : List UInt8) : Connection × ℕ × Rc :=
  let result := feedLoop host c.state bytes
  (⟨result.1, if result.2.2 = .ok then c.bytesIn + result.2.1 else c.bytesIn⟩, result.2)

end RtmpReader
