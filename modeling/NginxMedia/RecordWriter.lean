import NginxMedia.CString
import NginxMedia.ByteString
import NginxMedia.SequenceRing
import NginxMedia.StepRun

/-! The recorder of `ngx_media_record.c`: the media path appends slices to a bounded ring, a
writer thread takes them and writes them to part files that roll at a size. -/
namespace RecordWriter

open ByteString CString

abbrev Str := List UInt8

structure Conf where
  path : Str
  maxPartBytes : ℕ
  maxPendingBytes : ℕ
  maxJobs : ℕ

/-- The defaults of `ngx_media_record_init()`. -/
def Conf.effective (conf : Conf) : Conf where
  path := conf.path
  maxPartBytes := if conf.maxPartBytes = 0 then 512 * 1024 * 1024 else conf.maxPartBytes
  maxPendingBytes := if conf.maxPendingBytes = 0 then 32 * 1024 * 1024 else conf.maxPendingBytes
  maxJobs := if conf.maxJobs = 0 then 1024 else conf.maxJobs

def dotOf (path : Str) : Option ℕ :=
  match path.reverse.dropWhile fun c => c != 46 && c != 47 with
  | 46 :: front => some front.length
  | _ => none

def partName (path : Str) (number : ℕ) : Str :=
  if number = 1 then chars path
  else
    match dotOf path with
    | some dot => chars (path.take dot) ++ 45 :: padded 4 number ++ chars (path.drop dot)
    | none => chars path ++ 45 :: padded 4 number

structure Stats where
  bytesWritten : ℕ
  parts : ℕ
  jobs : ℕ
  jobsDropped : ℕ
  bytesDropped : ℕ
  writeErrors : ℕ
  pendingJobs : ℕ
  pendingBytes : ℕ

inductive Writer where
  | waiting
  | took (job : Str)
  /-- `written` bytes of the job are written. -/
  | writing (job : Str) (written : ℕ)
  /-- It adds to `bytes_dropped`, and may have loaded it. -/
  | dropping (bytes : ℕ) (loaded : Option ℕ)
  | exited
  deriving DecidableEq

structure State where
  jobs : ℕ → Str
  head : ℕ
  tail : ℕ
  stats : Stats
  stop : Bool
  stopped : Bool
  fd : Option Str
  partBytes : ℕ
  writer : Writer
  /-- An append that drops its slice: it holds the mutex and has loaded `bytes_dropped`. -/
  refusing : Option (ℕ × ℕ)
  files : Str → Str
  /-- The part files, in the order in which they were opened. -/
  opened : List Str
  /-- The bytes that were offered, and the slices that were accepted. -/
  offered : ℕ
  accepted : List Str

def initial (files : Str → Str) : State where
  jobs := fun _ => []
  head := 0
  tail := 0
  stats := ⟨0, 0, 0, 0, 0, 0, 0, 0⟩
  stop := false
  stopped := false
  fd := none
  partBytes := 0
  writer := .waiting
  refusing := none
  files := files
  opened := []
  offered := 0
  accepted := []

inductive Open where
  | noMemory
  | failed
  | opened
  deriving DecidableEq

inductive Write where
  | wrote (bytes : ℕ)
  | interrupted
  | failed
  deriving DecidableEq

inductive Event where
  | append (buf : Str) (offset len : ℕ)
  /-- An append that drops stores the counter and unlocks. -/
  | count
  | take
  | start (result : Open)
  | write (result : Write)
  | load
  | store
  | exit
  | stop
  | join

/-- Whether a slice finds no room. -/
def full (conf : Conf) (s : State) (len : ℕ) : Bool :=
  decide ((s.tail + 1) % conf.maxJobs = s.head) ||
    decide (s.stats.pendingBytes + len > conf.maxPendingBytes)

/-- `ngx_media_record_append()` behind its checks. -/
def appendSlice (conf : Conf) (s : State) (slice : Str) : State :=
  if full conf s slice.length then
    { s with
      stats := { s.stats with jobsDropped := s.stats.jobsDropped + 1 }
      refusing := some (s.stats.bytesDropped, slice.length)
      offered := s.offered + slice.length }
  else
    { s with
      jobs := Function.update s.jobs s.tail slice
      tail := (s.tail + 1) % conf.maxJobs
      stats := { s.stats with
        jobs := s.stats.jobs + 1
        pendingJobs := s.stats.pendingJobs + 1
        pendingBytes := s.stats.pendingBytes + slice.length }
      offered := s.offered + slice.length
      accepted := s.accepted ++ [slice] }

def append (conf : Conf) (s : State) (buf : Str) (offset len : ℕ) : State :=
  if s.stop = true ∨ s.refusing ≠ none then s
  else if len = 0 ∨ offset + len > buf.length then s
  else appendSlice conf s ((buf.drop offset).take len)

def count (s : State) : State :=
  match s.refusing with
  | some (loaded, len) =>
    { s with stats := { s.stats with bytesDropped := loaded + len }, refusing := none }
  | none => s

def take (conf : Conf) (s : State) : State :=
  if s.writer = .waiting ∧ s.refusing = none ∧ s.head ≠ s.tail then
    { s with
      head := (s.head + 1) % conf.maxJobs
      stats := { s.stats with
        pendingJobs := s.stats.pendingJobs - 1
        pendingBytes := s.stats.pendingBytes - (s.jobs s.head).length }
      writer := .took (s.jobs s.head) }
  else s

def openPart (conf : Conf) (s : State) (job : Str) (result : Open) : State :=
  let number := s.stats.parts + 1
  let name := partName conf.path number
  match result with
  | .noMemory =>
    { s with
      stats := { s.stats with parts := number }
      writer := .dropping job.length none }
  | .failed =>
    { s with
      stats := { s.stats with parts := number, writeErrors := s.stats.writeErrors + 1 }
      writer := .dropping job.length none }
  | .opened =>
    { s with
      stats := { s.stats with parts := number }
      files := Function.update s.files name []
      opened := s.opened ++ [name]
      fd := some name
      partBytes := 0
      writer := .writing job 0 }

/-- `ngx_media_record_write_job()` up to its loop. -/
def start (conf : Conf) (s : State) (result : Open) : State :=
  match s.writer with
  | .took job =>
    match s.fd with
    | some _ => { s with writer := .writing job 0 }
    | none => openPart conf s job result
  | _ => s

def failWrite (s : State) (left : ℕ) : State :=
  { s with
    stats := { s.stats with writeErrors := s.stats.writeErrors + 1 }
    writer := .dropping left none }

def advance (conf : Conf) (s : State) (name job : Str) (written bytes : ℕ) : State :=
  let next := { s with
    files := Function.update s.files name (s.files name ++ (job.drop written).take bytes)
    partBytes := s.partBytes + bytes
    stats := { s.stats with bytesWritten := s.stats.bytesWritten + bytes } }
  if written + bytes < job.length then { next with writer := .writing job (written + bytes) }
  else if next.partBytes ≥ conf.maxPartBytes then { next with fd := none, writer := .waiting }
  else { next with writer := .waiting }

def write (conf : Conf) (s : State) (result : Write) : State :=
  match s.writer, s.fd with
  | .writing job written, some name =>
    let left := job.length - written
    match result with
    | .interrupted => s
    | .failed => failWrite s left
    | .wrote bytes =>
      if min bytes left = 0 then failWrite s left
      else advance conf s name job written (min bytes left)
  | _, _ => s

def load (s : State) : State :=
  match s.writer with
  | .dropping bytes none => { s with writer := .dropping bytes (some s.stats.bytesDropped) }
  | _ => s

def store (s : State) : State :=
  match s.writer with
  | .dropping bytes (some loaded) =>
    { s with stats := { s.stats with bytesDropped := loaded + bytes }, writer := .waiting }
  | _ => s

def exit (s : State) : State :=
  if s.writer = .waiting ∧ s.refusing = none ∧ s.head = s.tail ∧ s.stop = true then
    { s with writer := .exited }
  else s

/-- `ngx_media_record_stop()` up to the join, and behind it. -/
def stop (s : State) : State := if s.refusing = none then { s with stop := true } else s

def join (s : State) : State :=
  if s.stop = true ∧ s.writer = .exited then { s with fd := none, stopped := true } else s

/-- One step of the media path or of the writer; what is not possible changes nothing. -/
def step (conf : Conf) (s : State) : Event → State
  | .append buf offset len => append conf s buf offset len
  | .count => count s
  | .take => take conf s
  | .start result => start conf s result
  | .write result => write conf s result
  | .load => load s
  | .store => store s
  | .exit => exit s
  | .stop => stop s
  | .join => join s

theorem chars_append_length (a b : Str) :
    (chars (a ++ b)).length ≤ (chars a).length + (chars b).length := by
  unfold chars
  rw [List.takeWhile_append]
  split_ifs with hall
  · rw [List.length_append, hall]
  · exact Nat.le_add_right _ _

theorem partName_longer (path : Str) {number : ℕ} (h : number ≠ 1) :
    (partName path 1).length < (partName path number).length := by
  unfold partName
  rw [if_pos rfl, if_neg h]
  cases dotOf path with
  | none =>
    rw [List.length_append, List.length_cons]
    omega
  | some dot =>
    dsimp only
    have := chars_append_length (path.take dot) (path.drop dot)
    rw [List.take_append_drop] at this
    simp only [List.length_append, List.length_cons]
    omega

theorem partName_injective (path : Str) : Function.Injective (partName path) := by
  intro a b h
  by_cases ha : a = 1
  · by_cases hb : b = 1
    · rw [ha, hb]
    · have := partName_longer path hb
      rw [← ha, h] at this
      exact absurd this (Nat.lt_irrefl _)
  · by_cases hb : b = 1
    · have := partName_longer path ha
      rw [← hb, ← h] at this
      exact absurd this (Nat.lt_irrefl _)
    · unfold partName at h
      rw [if_neg ha, if_neg hb] at h
      refine padded_injective 4 ?_
      cases hdot : dotOf path with
      | none =>
        rw [hdot] at h
        exact (List.cons.inj (List.append_cancel_left h)).2
      | some dot =>
        rw [hdot] at h
        exact (List.cons.inj (List.append_cancel_left (List.append_cancel_right h))).2

end RecordWriter
