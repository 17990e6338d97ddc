import NginxMedia.MediaTypes

/-! Track contract compatibility of `ngx_media_compat.c`: how interchangeable a
candidate's tracks are with the program's. -/
namespace MediaCompat

open MediaTypes

/-- The verdicts, in the order of their numbers. -/
inductive Compat where
  | ready
  | degraded
  | incompatible
  deriving DecidableEq, Repr

def Compat.rank : Compat → ℕ
  | .ready => 1
  | .degraded => 2
  | .incompatible => 3

def worst (a b : Compat) : Compat := if a.rank > b.rank then a else b

def differs (a b : ℕ) : Bool := a != 0 && b != 0 && a != b

def track (program candidate : Track) : Compat :=
  if program.codec ≠ candidate.codec then .incompatible
  else if program.mediaType ≠ candidate.mediaType then .incompatible
  else if program.mediaType = .audio ∧
      (differs program.sampleRate candidate.sampleRate ||
        differs program.channels candidate.channels ||
        differs program.profile candidate.profile) then .degraded
  else if program.mediaType = .video ∧
      (differs program.profile candidate.profile || differs program.level candidate.level ||
        differs program.width candidate.width ||
        differs program.height candidate.height) then .degraded
  else if program.payloadFormat ≠ candidate.payloadFormat then .degraded
  else .ready

def against (program : Track) (candidate : TrackSet) (result : Compat) : Bool × Compat :=
  candidate.foldl (fun acc c =>
    if c.mediaType ≠ program.mediaType then acc
    else (true, worst acc.2 (track program c))) (false, result)

def classifyLoop (candidate : TrackSet) : List Track → Compat → Option Compat
  | [], result => some result
  | p :: rest, result =>
    if (against p candidate result).1 then
      classifyLoop candidate rest (against p candidate result).2
    else none

def classify (program candidate : Option TrackSet) : Compat :=
  match program, candidate with
  | some program, some candidate =>
    if program.length = 0 then .ready
    else match classifyLoop candidate program .ready with
      | none => .incompatible
      | some result =>
        if candidate.length > program.length then worst result .degraded else result
  | _, _ => .ready

end MediaCompat
