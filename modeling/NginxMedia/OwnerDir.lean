import Mathlib.Order.Nat
import NginxMedia.MediaTypes
import NginxMedia.ProbeTable
import NginxMedia.StepRun

/-! The owner directory: the table of live stream owners that all workers share. -/
namespace OwnerDir
open MediaTypes ProbeTable

def dirSlots : ℕ := 256
def staleMs : ℕ := 10000

inductive State where
  | free
  | owned
  | deleted
deriving DecidableEq

structure Record where
  hash : ℕ
  slot : ℕ
  pid : ℕ
  generation : ℕ
  state : State
  sources : ℕ
  heartbeat : ℕ
  frames : ℕ
deriving DecidableEq

def Record.zero : Record := ⟨0, 0, 0, 0, .free, 0, 0, 0⟩

/-- The shared mapping. The spinlock appears as an argument of every operation. -/
structure Directory where
  slots : ℕ
  slots_pos : 0 < slots
  epoch : ℕ
  records : Fin slots → Record

structure Worker where
  workers : ℕ
  epoch : ℕ
  pid : ℕ

def ownerSlot (hash workers : ℕ) : ℕ := if workers = 0 then 0 else hash % workers

def shmCreate (slots : ℕ) : Directory where
  slots := if slots = 0 then dirSlots else slots
  slots_pos := by
    split_ifs with h
    · decide
    · exact Nat.pos_of_ne_zero h
  epoch := 1
  records := fun _ => Record.zero

/-- `ngx_media_owner_dir_shm_create()` over a mapping that exists: a new cycle begins. -/
def reload (locked : Bool) (d : Directory) : Directory :=
  if locked then { d with epoch := d.epoch + 1 } else d

/-- `ngx_media_owner_dir_index()` and the steps from there. -/
def Directory.index (d : Directory) (hash i : ℕ) : Fin d.slots :=
  ⟨(hash % d.slots + i) % d.slots, Nat.mod_lt _ d.slots_pos⟩

def reclaimable (now : ℕ) (r : Record) : Bool :=
  r.state ≠ .owned || wrapSub now r.heartbeat > staleMs

def findFrom (d : Directory) (now hash : ℕ) :
    (left i : ℕ) → Option (Fin d.slots) → Option (Fin d.slots)
  | 0, _, firstAvail => firstAvail
  | left + 1, i, firstAvail =>
    let s := d.index hash i
    match (d.records s).state with
    | .owned =>
      if (d.records s).hash = hash then some s
      else if firstAvail = none ∧ reclaimable now (d.records s) then
        findFrom d now hash left (i + 1) (some s)
      else findFrom d now hash left (i + 1) firstAvail
    | .deleted =>
      if firstAvail = none then findFrom d now hash left (i + 1) (some s)
      else findFrom d now hash left (i + 1) firstAvail
    | .free => if firstAvail ≠ none then firstAvail else some s

def find (d : Directory) (now hash : ℕ) : Option (Fin d.slots) :=
  findFrom d now hash d.slots 0 none

def setRecord (d : Directory) (s : Fin d.slots) (r : Record) : Directory :=
  { d with records := Function.update d.records s r }

def claim (d : Directory) (w : Worker) (now : ℕ) (locked : Bool) (hash slot : ℕ) :
    Directory × Bool :=
  if slot ≠ ownerSlot hash w.workers then (d, false)
  else if !locked then (d, false)
  else if w.epoch ≠ d.epoch then (d, false)
  else
    match find d now hash with
    | none => (d, false)
    | some s =>
      let r := d.records s
      if r.hash ≠ hash ∨ r.slot ≠ slot ∨ r.pid ≠ w.pid ∨ reclaimable now r then
        (setRecord d s { Record.zero with
          hash := hash, state := .owned, slot := slot % 2 ^ 32, pid := w.pid,
          heartbeat := now }, true)
      else (d, true)

def ownRecord (d : Directory) (w : Worker) (now hash slot : ℕ) : Option (Fin d.slots) :=
  match find d now hash with
  | none => none
  | some s =>
    if (d.records s).hash = hash ∧ (d.records s).slot = slot ∧ (d.records s).pid = w.pid ∧
        (d.records s).state = .owned then some s
    else none

def release (d : Directory) (w : Worker) (now : ℕ) (locked : Bool) (hash slot : ℕ) : Directory :=
  if !locked then d
  else if w.epoch ≠ d.epoch then d
  else
    match ownRecord d w now hash slot with
    | none => d
    | some s => setRecord d s { Record.zero with state := .deleted }

def heartbeat (d : Directory) (w : Worker) (now : ℕ) (locked : Bool)
    (hash slot generation frames sources : ℕ) : Directory :=
  if !locked then d
  else if w.epoch ≠ d.epoch then d
  else
    match ownRecord d w now hash slot with
    | none => d
    | some s =>
      setRecord d s { d.records s with
        generation := generation, frames := frames, sources := sources % 2 ^ 32,
        state := .owned, heartbeat := now }

def observe (d : Directory) (now : ℕ) (locked : Bool) (hash : ℕ) : Option Record :=
  if !locked then none
  else
    match find d now hash with
    | none => none
    | some s =>
      if (d.records s).hash ≠ hash ∨ (d.records s).state ≠ .owned ∨
          reclaimable now (d.records s) then none
      else some (d.records s)

/-- What a worker asks of the directory. -/
inductive Call where
  | claim (hash slot : ℕ)
  | release (hash slot : ℕ)
  | heartbeat (hash slot generation frames sources : ℕ)
  | observe (hash : ℕ)
  | find (hash : ℕ)

/-- `locked` says whether the spinlock was acquired. -/
def Call.run (d : Directory) (w : Worker) (now : ℕ) (locked : Bool) : Call → Directory
  | .claim hash slot => (OwnerDir.claim d w now locked hash slot).1
  | .release hash slot => OwnerDir.release d w now locked hash slot
  | .heartbeat hash slot generation frames sources =>
    OwnerDir.heartbeat d w now locked hash slot generation frames sources
  | .observe _ => d
  | .find _ => d

inductive Event where
  | call (w : Worker) (now : ℕ) (locked : Bool) (c : Call)
  | reload (locked : Bool)

def step (d : Directory) : Event → Directory
  | .call w now locked c => c.run d w now locked
  | .reload locked => OwnerDir.reload locked d

def Record.cell (r : Record) : Cell ℕ :=
  match r.state with
  | .free => .fresh
  | .owned => .held r.hash
  | .deleted => .vacant

def Directory.cells (d : Directory) (s : Fin d.slots) : Cell ℕ := (d.records s).cell

theorem cell_held {r : Record} {hash : ℕ} :
    r.cell = .held hash ↔ r.state = .owned ∧ r.hash = hash := by
  unfold Record.cell
  cases r.state with
  | free => simp
  | owned => simp
  | deleted => simp

theorem cell_fresh {r : Record} : r.cell = .fresh ↔ r.state = .free := by
  unfold Record.cell
  cases r.state with
  | free => simp
  | owned => simp
  | deleted => simp

/-- A hash is owned once, and the search for it gets to its record. -/
def Intact (d : Directory) : Prop := Sound d.index d.cells

theorem cells_setRecord (d : Directory) (s : Fin d.slots) (r : Record) :
    (setRecord d s r).cells = Function.update d.cells s r.cell :=
  Function.comp_update Record.cell d.records s r

inductive Found (d : Directory) (now hash : ℕ) : Option (Fin d.slots) → Prop where
  | hit (i : ℕ) (hi : i < d.slots) (hused : Used d.index d.cells hash i)
      (hheld : d.cells (d.index hash i) = .held hash) :
      Found d now hash (some (d.index hash i))
  | room (i m : ℕ) (hi : i < d.slots) (hused : Used d.index d.cells hash i)
      (hother : d.cells (d.index hash i) ≠ .held hash)
      (hfree : reclaimable now (d.records (d.index hash i)) = true)
      (hends : Ends d.index d.cells hash m) : Found d now hash (some (d.index hash i))
  | full (hends : Ends d.index d.cells hash d.slots) : Found d now hash none

variable {d : Directory} {w : Worker} {now hash slot i left : ℕ} {locked : Bool}
  {firstAvail : Option (Fin d.slots)}

structure Passed (d : Directory) (now hash i : ℕ) (firstAvail : Option (Fin d.slots)) :
    Prop where
  used : Used d.index d.cells hash i
  other : ∀ j < i, d.cells (d.index hash j) ≠ .held hash
  avail : ∀ s, firstAvail = some s →
    ∃ j < i, d.index hash j = s ∧ reclaimable now (d.records s) = true

theorem Passed.next (h : Passed d now hash i firstAvail)
    (hfresh : d.cells (d.index hash i) ≠ .fresh)
    (hother : d.cells (d.index hash i) ≠ .held hash) :
    Passed d now hash (i + 1) firstAvail := by
  constructor
  · intro j hj
    rcases Nat.lt_succ_iff_lt_or_eq.mp hj with hlt | rfl
    · exact h.used j hlt
    · exact hfresh
  · intro j hj
    rcases Nat.lt_succ_iff_lt_or_eq.mp hj with hlt | rfl
    · exact h.other j hlt
    · exact hother
  · intro s hs
    obtain ⟨j, hj, hrest⟩ := h.avail s hs
    exact ⟨j, Nat.lt_trans hj (Nat.lt_succ_self i), hrest⟩

theorem Passed.keep (h : Passed d now hash i none)
    (hfresh : d.cells (d.index hash i) ≠ .fresh)
    (hother : d.cells (d.index hash i) ≠ .held hash)
    (hfree : reclaimable now (d.records (d.index hash i)) = true) :
    Passed d now hash (i + 1) (some (d.index hash i)) := by
  obtain ⟨hused, hno, -⟩ := h.next hfresh hother
  refine ⟨hused, hno, fun s hs => ?_⟩
  cases hs
  exact ⟨i, Nat.lt_succ_self i, rfl, hfree⟩

theorem Passed.found {s : Fin d.slots} (h : Passed d now hash i (some s)) (hi : i ≤ d.slots)
    (hend : i = d.slots ∨ d.cells (d.index hash i) = .fresh) : Found d now hash (some s) := by
  obtain ⟨j, hj, rfl, hfree⟩ := h.avail s rfl
  have hused : Used d.index d.cells hash j := fun q hq => h.used q (Nat.lt_trans hq hj)
  exact .room j i (by omega) hused (h.other j hj) hfree ⟨h.other, hend⟩

theorem findFrom_found (h : Passed d now hash i firstAvail) (hn : i + left = d.slots) :
    Found d now hash (findFrom d now hash left i firstAvail) := by
  induction left generalizing i firstAvail with
  | zero =>
    cases firstAvail with
    | none => exact .full ⟨hn ▸ h.other, Or.inl rfl⟩
    | some s => exact h.found (by omega) (Or.inl (by omega))
  | succ left ih =>
    have hi : i < d.slots := by omega
    have hnext : i + 1 + left = d.slots := by omega
    unfold findFrom
    dsimp only
    cases hstate : (d.records (d.index hash i)).state with
    | owned =>
      have hfresh : d.cells (d.index hash i) ≠ .fresh := fun hc => by
        rw [cell_fresh.mp hc] at hstate
        cases hstate
      dsimp only
      by_cases hsame : (d.records (d.index hash i)).hash = hash
      · rw [if_pos hsame]
        exact .hit i hi h.used (cell_held.mpr ⟨hstate, hsame⟩)
      · have hother : d.cells (d.index hash i) ≠ .held hash :=
          fun hc => hsame (cell_held.mp hc).2
        rw [if_neg hsame]
        split_ifs with hkeep
        · obtain ⟨rfl, hfree⟩ := hkeep
          exact ih (h.keep hfresh hother hfree) hnext
        · exact ih (h.next hfresh hother) hnext
    | deleted =>
      have hfresh : d.cells (d.index hash i) ≠ .fresh := fun hc => by
        rw [cell_fresh.mp hc] at hstate
        cases hstate
      have hother : d.cells (d.index hash i) ≠ .held hash := fun hc => by
        rw [(cell_held.mp hc).1] at hstate
        cases hstate
      have hfree : reclaimable now (d.records (d.index hash i)) = true := by
        unfold reclaimable
        rw [hstate]
        rfl
      dsimp only
      split_ifs with hnone
      · obtain rfl := hnone
        exact ih (h.keep hfresh hother hfree) hnext
      · exact ih (h.next hfresh hother) hnext
    | free =>
      have hfresh : d.cells (d.index hash i) = .fresh := cell_fresh.mpr hstate
      dsimp only
      cases firstAvail with
      | none =>
        rw [if_neg (not_not.mpr rfl)]
        have hother : d.cells (d.index hash i) ≠ .held hash := by
          rw [hfresh]
          exact fun hc => by cases hc
        have hfree : reclaimable now (d.records (d.index hash i)) = true := by
          unfold reclaimable
          rw [hstate]
          rfl
        exact .room i i hi h.used hother hfree ⟨h.other, Or.inr hfresh⟩
      | some s =>
        rw [if_pos (Option.some_ne_none s)]
        exact h.found (Nat.le_of_lt hi) (Or.inr hfresh)

theorem find_found (d : Directory) (now hash : ℕ) : Found d now hash (find d now hash) := by
  refine findFrom_found ⟨?_, ?_, ?_⟩ (Nat.zero_add _)
  · exact fun j hj => absurd hj (Nat.not_lt_zero j)
  · exact fun j hj => absurd hj (Nat.not_lt_zero j)
  · exact fun s hs => by cases hs

theorem Intact.find_owned (h : Intact d) {s : Fin d.slots} (hs : d.cells s = .held hash)
    (now : ℕ) : find d now hash = some s := by
  have hfound := find_found d now hash
  generalize find d now hash = r at hfound ⊢
  cases hfound with
  | hit i hi hused hheld => rw [h.unique _ _ _ hheld hs]
  | room i m hi hused hother hfree hends => exact absurd hs (h.absent hends s)
  | full hends => exact absurd hs (h.absent hends s)

theorem shmCreate_intact (slots : ℕ) : Intact (shmCreate slots) := by
  have hcells : (shmCreate slots).cells = fun _ => Cell.fresh := rfl
  unfold Intact
  rw [hcells]
  exact sound_fresh

theorem Intact.put (h : Intact d) {s : Fin d.slots} (hs : Found d now hash (some s))
    {r : Record} (hr : r.cell = .held hash) : Intact (setRecord d s r) := by
  have hplace : Sound d.index (Function.update d.cells s (.held hash)) := by
    cases hs with
    | hit i hi hused hheld =>
      exact h.place hi rfl hused fun t hts ht => hts (h.unique _ _ _ ht hheld)
    | room i m hi hused hother hfree hends =>
      exact h.place hi rfl hused fun t _ => h.absent hends t
  unfold Intact
  rw [cells_setRecord, hr]
  exact hplace

theorem claim_intact (h : Intact d) : Intact (claim d w now locked hash slot).1 := by
  have hfound := find_found d now hash
  unfold claim
  split_ifs
  · exact h
  · exact h
  · exact h
  · generalize find d now hash = found at hfound ⊢
    cases found with
    | none => exact h
    | some s =>
      dsimp only
      split_ifs
      · exact h.put hfound (cell_held.mpr ⟨rfl, rfl⟩)
      · exact h

theorem ownRecord_held {s : Fin d.slots} (h : ownRecord d w now hash slot = some s) :
    d.cells s = .held hash := by
  unfold ownRecord at h
  split at h
  · cases h
  · split_ifs at h with hown
    cases h
    exact cell_held.mpr ⟨hown.2.2.2, hown.1⟩

theorem release_intact (h : Intact d) : Intact (release d w now locked hash slot) := by
  unfold release
  split_ifs
  · exact h
  · exact h
  · cases hown : ownRecord d w now hash slot with
    | none => exact h
    | some s =>
      have hvacate := h.vacate s
      dsimp only
      unfold Intact
      rw [cells_setRecord]
      exact hvacate

theorem heartbeat_intact (h : Intact d) {generation frames sources : ℕ} :
    Intact (heartbeat d w now locked hash slot generation frames sources) := by
  unfold heartbeat
  split_ifs
  · exact h
  · exact h
  · cases hown : ownRecord d w now hash slot with
    | none => exact h
    | some s =>
      have hheld := ownRecord_held hown
      have hcell : ∀ r : Record, r.cell = d.cells s →
          (setRecord d s r).cells = d.cells := fun r hr => by
        rw [cells_setRecord, hr, Function.update_eq_self]
      dsimp only
      unfold Intact
      rw [hcell]
      · exact h
      · rw [hheld]
        exact cell_held.mpr ⟨rfl, (cell_held.mp hheld).2⟩

theorem step_intact (d : Directory) (e : Event) (h : Intact d) : Intact (step d e) := by
  cases e with
  | call w now locked c =>
    cases c with
    | claim hash slot => exact claim_intact h
    | release hash slot => exact release_intact h
    | heartbeat hash slot generation frames sources => exact heartbeat_intact h
    | observe hash => exact h
    | find hash => exact h
  | reload locked =>
    cases locked with
    | false => exact h
    | true => exact h

theorem foreign_call (hw : w.epoch ≠ d.epoch) (now : ℕ) (locked : Bool) (c : Call) :
    step d (.call w now locked c) = d := by
  cases c with
  | claim hash slot =>
    change (claim d w now locked hash slot).1 = d
    unfold claim
    split_ifs <;> rfl
  | release hash slot =>
    change release d w now locked hash slot = d
    unfold release
    split_ifs <;> rfl
  | heartbeat hash slot generation frames sources =>
    change heartbeat d w now locked hash slot generation frames sources = d
    unfold heartbeat
    split_ifs <;> rfl
  | observe hash => rfl
  | find hash => rfl

theorem call_epoch (w : Worker) (now : ℕ) (locked : Bool) (c : Call) :
    (step d (.call w now locked c)).epoch = d.epoch := by
  cases c with
  | claim hash slot =>
    change (claim d w now locked hash slot).1.epoch = d.epoch
    unfold claim
    split_ifs
    · rfl
    · rfl
    · rfl
    · cases find d now hash with
      | none => rfl
      | some s =>
        dsimp only
        split_ifs <;> rfl
  | release hash slot =>
    change (release d w now locked hash slot).epoch = d.epoch
    unfold release
    split_ifs
    · rfl
    · rfl
    · cases ownRecord d w now hash slot <;> rfl
  | heartbeat hash slot generation frames sources =>
    change (heartbeat d w now locked hash slot generation frames sources).epoch = d.epoch
    unfold heartbeat
    split_ifs
    · rfl
    · rfl
    · cases ownRecord d w now hash slot <;> rfl
  | observe hash => rfl
  | find hash => rfl

theorem step_epoch (d : Directory) (e : Event) : d.epoch ≤ (step d e).epoch := by
  cases e with
  | call w now locked c => exact (call_epoch w now locked c).ge
  | reload locked =>
    cases locked with
    | false => exact le_refl _
    | true => exact Nat.le_succ _

theorem run_epoch (d : Directory) (events : List Event) : d.epoch ≤ (events.foldl step d).epoch := by
  induction events generalizing d with
  | nil => exact le_refl _
  | cons e rest ih => exact (step_epoch d e).trans (ih (step d e))

structure ProbeChain (d : Directory) : Prop where
  single : ∀ s t, (d.records s).state = .owned → (d.records t).state = .owned →
    (d.records s).hash = (d.records t).hash → s = t
  found : ∀ s, (d.records s).state = .owned → ∀ now, find d now (d.records s).hash = some s
  before : ∀ s, (d.records s).state = .owned → ∃ i < d.slots,
    d.index (d.records s).hash i = s ∧
      ∀ j < i, (d.records (d.index (d.records s).hash j)).state ≠ .free
  foreign : ∀ w now locked c, w.epoch ≠ d.epoch → step d (.call w now locked c) = d
  displaced : ∀ (w : Worker) (later : List Event), w.epoch < d.epoch → ∀ now locked c,
    step (later.foldl step d) (.call w now locked c) = later.foldl step d

theorem probe_chain_invariant (slots : ℕ) (events : List Event) :
    ProbeChain (events.foldl step (shmCreate slots)) := by
  have h := StepRun.invariant step_intact (shmCreate_intact slots) events
  generalize events.foldl step (shmCreate slots) = d at h
  constructor
  · intro s t hs ht hst
    exact h.unique s t _ (cell_held.mpr ⟨hs, rfl⟩) (cell_held.mpr ⟨ht, hst.symm⟩)
  · intro s hs now
    exact h.find_owned (cell_held.mpr ⟨hs, rfl⟩) now
  · intro s hs
    obtain ⟨i, hi, heq, hused⟩ := h.reached s _ (cell_held.mpr ⟨hs, rfl⟩)
    exact ⟨i, hi, heq, fun j hj hfree => hused j hj (cell_fresh.mpr hfree)⟩
  · intro w now locked c hw
    exact foreign_call hw now locked c
  · intro w later hw now locked c
    have hle := run_epoch d later
    exact foreign_call (by omega) now locked c

end OwnerDir
