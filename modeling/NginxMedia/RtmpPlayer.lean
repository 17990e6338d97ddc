import NginxMedia.RtmpCursor
import NginxMedia.RtmpOutput

/-! The pump of a player session, `ngx_media_rtmp_play_timer()`: it moves units of the shared
fan-out into the session's output queue. `sent` remembers the units; nothing reads it. -/
namespace RtmpPlayer

open MediaTypes RtmpFanout RtmpOutput

def maxPlayBatch : ℕ := 32

/-- The player's part of `ngx_media_rtmp_session_t`; `playing` is the state with a preparation to
read from. -/
structure Player where
  playing : Bool
  cursor : ℕ
  out : Output
  sent : List Media

/-- A session whose slot has been cleared. -/
def Player.closed : Player := ⟨false, 0, Output.init, []⟩

/-- What a visit meets: memory for each unit, whether the stream runs, and the bytes the socket
takes, or nothing when sending fails. -/
structure Visit where
  mem : ℕ → Memory
  running : Bool
  socket : Option ℕ

def unitMessage (csid streamId : ℕ) (unit : Media) : RtmpWriter.Outgoing :=
  ⟨csid, unit.type, streamId, unit.timestamp, unit.payload, 0, unit.size⟩

def Player.advance (p : Player) (out : Output) (unit : Media) : Player :=
  { p with out := out, cursor := unit.sequence + 1, sent := p.sent ++ [unit] }

/-- The `while` of the timer, with the number of units it may still send. -/
def playLoop (mem : ℕ → Memory) (fan : Fanout) : ℕ → Player → Player
  | 0, p => p
  | n + 1, p =>
    if p.out.outQueue < playerLimits.maxQueue then
      match next fan p.cursor with
      | none => p
      | some unit =>
        match queueMessage playerLimits (mem n) p.out (unitMessage 4 1 unit) none with
        | (out, .ok, _) => playLoop mem fan n (p.advance out unit)
        | _ => p
    else p

/-- `ngx_media_rtmp_flush()`: a session that cannot be sent to is closed. -/
def flush (socket : Option ℕ) (p : Player) : Player :=
  if p.out.out = [] then p
  else
    match socket with
    | none => Player.closed
    | some n => { p with out := RtmpOutput.flush n p.out }

def playTimer (v : Visit) (fan : Fanout) (p : Player) : Player :=
  if p.playing = false then p
  else if v.running = false then Player.closed
  else flush v.socket (playLoop v.mem fan maxPlayBatch p)

variable {fan : Fanout} {ps : List Push}

theorem playLoop_succ (mem : ℕ → Memory) (fan : Fanout) (n : ℕ) (p : Player) :
    playLoop mem fan (n + 1) p = p ∨
      ∃ unit out wire, next fan p.cursor = some unit ∧
        queueMessage playerLimits (mem n) p.out (unitMessage 4 1 unit) none = (out, .ok, wire) ∧
        playLoop mem fan (n + 1) p = playLoop mem fan n (p.advance out unit) := by
  rw [playLoop]
  split
  · split
    · exact Or.inl rfl
    · rename_i unit hnext
      split
      · rename_i out wire hqueue
        exact Or.inr ⟨unit, out, wire, hnext, hqueue, rfl⟩
      · exact Or.inl rfl
  · exact Or.inl rfl

theorem playLoop_cursor (h : RtmpCursor.Stamped fan ps) (mem : ℕ → Memory) (n : ℕ) (p : Player) :
    p.cursor ≤ (playLoop mem fan n p).cursor := by
  induction n generalizing p with
  | zero => exact le_rfl
  | succ n ih =>
    rcases playLoop_succ mem fan n p with hend | ⟨unit, out, wire, hnext, -, heq⟩
    · exact le_of_eq (congrArg Player.cursor hend).symm
    · have hmax := (h.next hnext).1
      have hrest := ih (p.advance out unit)
      rw [heq]
      change unit.sequence + 1 ≤ _ at hrest
      omega

end RtmpPlayer
