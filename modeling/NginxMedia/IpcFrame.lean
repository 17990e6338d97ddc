import Mathlib.Algebra.GroupWithZero.Nat
import Mathlib.Tactic.Common
import NginxMedia.LossyStream

/-! Frames between workers: the cut into datagrams and the reassembly of what arrives. -/
namespace IpcFrame
open LossyStream

def ipcVersion : ℕ := 4
def flagMore : ℕ := 1
def maxDatagram : ℕ := 64 * 1024
def headerMax : ℕ := 96
def maxPayload : ℕ := maxDatagram - headerMax
def maxFrame : ℕ := 4 * 1024 * 1024

structure Header where
  version : ℕ
  type : ℕ
  flags : ℕ
  length : ℕ
  total : ℕ
  offset : ℕ
  hash : ℕ
  incarnation : ℕ
  sequence : ℕ
  pts : ℤ
  dts : ℤ
  mediaType : ℕ
  codec : ℕ
  payloadFormat : ℕ
  trackIndex : ℕ
  keyframe : ℕ
  config : ℕ
  sourceType : ℕ
  priority : ℕ
  session : ℕ
deriving DecidableEq

/-- What every chunk of a frame must have in common with its first chunk. -/
structure Identity where
  hash : ℕ
  incarnation : ℕ
  session : ℕ
  sequence : ℕ
  total : ℕ
  type : ℕ
  pts : ℤ
  dts : ℤ
  mediaType : ℕ
  codec : ℕ
  payloadFormat : ℕ
  trackIndex : ℕ
  keyframe : ℕ
  config : ℕ
deriving DecidableEq

def Header.identity (h : Header) : Identity :=
  ⟨h.hash, h.incarnation, h.session, h.sequence, h.total, h.type, h.pts, h.dts, h.mediaType,
    h.codec, h.payloadFormat, h.trackIndex, h.keyframe, h.config⟩

structure Datagram where
  header : Header
  payload : List UInt8
deriving DecidableEq

def chunkTake (size pos : ℕ) : ℕ := min (size - pos) maxPayload

def chunkHeader (header : Header) (size pos : ℕ) : Header :=
  { header with
    length := chunkTake size pos % 2 ^ 32
    total := size % 2 ^ 32
    offset := pos % 2 ^ 32
    flags :=
      if pos + chunkTake size pos < size then header.flags ||| flagMore
      else header.flags &&& 0xFFFE }

def chunkAt (header : Header) (payload : List UInt8) (pos : ℕ) : Datagram :=
  ⟨chunkHeader header payload.length pos,
    (payload.drop pos).take (chunkTake payload.length pos)⟩

theorem chunkTake_pos {size pos : ℕ} (h : pos < size) : 0 < chunkTake size pos := by
  unfold chunkTake maxPayload maxDatagram headerMax
  omega

theorem chunkTake_le (size pos : ℕ) : chunkTake size pos ≤ size - pos := Nat.min_le_left _ _

/-- The loop of `ngx_media_ipc_send()` from `pos` on. -/
def sendFrom (header : Header) (payload : List UInt8) (pos : ℕ) : List Datagram :=
  if pos < payload.length then
    chunkAt header payload pos ::
      sendFrom header payload (pos + chunkTake payload.length pos)
  else []
termination_by payload.length - pos
decreasing_by
  have := @chunkTake_pos payload.length pos (by assumption)
  omega

/-- `ngx_media_ipc_send()` of a whole payload to a peer that keeps up. -/
def send (header : Header) (payload : List UInt8) : List Datagram :=
  if payload.length = 0 then [⟨header, []⟩] else sendFrom header payload 0

/-- A frame as its caller hands it over: the header without what the sender sets. -/
structure Frame where
  header : Header
  payload : List UInt8
  version : header.version = ipcVersion
  unset : header.length = 0 ∧ header.total = 0 ∧ header.offset = 0

def Frame.size (f : Frame) : ℕ := f.payload.length

def Frame.chunks (f : Frame) : List Datagram := send f.header f.payload

def Frame.identity (f : Frame) : Identity :=
  { f.header with total := f.size % 2 ^ 32 }.identity

def routeFrame (type hash incarnation session sequence : ℕ) (pts dts : ℤ)
    (mediaType codec payloadFormat trackIndex : ℕ) (keyframe config : Bool)
    (payload : List UInt8) : Frame where
  header :=
    { version := ipcVersion, type, flags := 0, length := 0, total := 0, offset := 0, hash,
      incarnation, sequence, pts, dts, mediaType, codec, payloadFormat, trackIndex,
      keyframe := keyframe.toNat, config := config.toNat, sourceType := 0, priority := 0,
      session }
  payload := payload
  version := rfl
  unset := ⟨rfl, rfl, rfl⟩

def recv (d : Datagram) : Option Datagram :=
  if d.header.version ≠ ipcVersion ∨ d.header.length > maxPayload ∨
      d.payload.length ≠ d.header.length then none
  else some d

/-- A frame under assembly. `payload` is the part of its buffer that has been received. -/
structure Assembly where
  header : Header
  payload : List UInt8
  capacity : ℕ
  active : Bool
  restarts : ℕ

inductive Status where
  | ok
  | again
  | error
deriving DecidableEq

def Assembly.reset (a : Assembly) : Assembly :=
  { a with payload := [], capacity := 0, active := false }

/-- A first chunk while a frame is open: the open one was given up. -/
def abandon (a : Assembly) (m : Datagram) : Assembly :=
  if a.active ∧ m.header.offset = 0 then { a.reset with restarts := a.restarts + 1 } else a

/-- A frame starts with its first chunk. `mem` says whether its buffer can be allocated. -/
def start (mem : Header → Bool) (a : Assembly) (m : Datagram) : Option Assembly :=
  if a.active then some a
  else if m.header.offset ≠ 0 then none
  else if m.header.total = 0 ∨ m.header.total > maxFrame then none
  else if !mem m.header then none
  else
    some { a with header := m.header, payload := [], capacity := m.header.total, active := true }

/-- A chunk of the open frame. -/
def join (a : Assembly) (m : Datagram) : Assembly × Status :=
  if m.header.identity ≠ a.header.identity then (a.reset, .error)
  else if m.header.offset ≠ a.payload.length ∨
      a.payload.length + m.payload.length > a.capacity then (a.reset, .error)
  else if m.header.flags &&& flagMore ≠ 0 then
    ({ a with payload := a.payload ++ m.payload }, .again)
  else if a.payload.length + m.payload.length ≠ a.capacity then (a.reset, .error)
  else ({ a with payload := a.payload ++ m.payload }, .ok)

def feed (mem : Header → Bool) (a : Assembly) (m : Datagram) : Assembly × Status :=
  match start mem (abandon a m) m with
  | none => (abandon a m, .error)
  | some a' => join a' m

def receive (mem : Header → Bool) (a : Assembly) (d : Datagram) :
    Assembly × Option (Header × List UInt8) :=
  match recv d with
  | none => (a, none)
  | some m =>
    match feed mem a m with
    | (a', .ok) => (a'.reset, some (a'.header, a'.payload))
    | (a', _) => (a', none)

variable {mem : Header → Bool} {f g : Frame} {a : Assembly} {d : Datagram} {pos : ℕ}

def Frame.Small (f : Frame) : Prop := f.size < 2 ^ 32

/-- The receiver takes frames up to its bound, if it can allocate the buffer. -/
def Frame.Fits (mem : Header → Bool) (f : Frame) : Prop :=
  0 < f.size ∧ f.size ≤ maxFrame ∧ mem (chunkHeader f.header f.size 0) = true

instance (mem : Header → Bool) : DecidablePred (Frame.Fits mem) :=
  fun _ => inferInstanceAs (Decidable (_ ∧ _ ∧ _))

def Frame.completed (f : Frame) : Header × List UInt8 :=
  (chunkHeader f.header f.size 0, f.payload)

def Frame.chunk (f : Frame) (pos : ℕ) : Datagram := chunkAt f.header f.payload pos

def Frame.take (f : Frame) (pos : ℕ) : ℕ := chunkTake f.size pos

theorem chunk_identity (f : Frame) (pos : ℕ) : (f.chunk pos).header.identity = f.identity := rfl

theorem chunk_length (f : Frame) (pos : ℕ) : (f.chunk pos).payload.length = f.take pos := by
  have hle := chunkTake_le f.size pos
  simp only [Frame.chunk, chunkAt, List.length_take, List.length_drop, Frame.take]
  unfold Frame.size at hle ⊢
  omega

theorem chunk_offset (hs : f.Small) (hpos : pos < f.size) : (f.chunk pos).header.offset = pos :=
  Nat.mod_eq_of_lt (hpos.trans hs)

theorem chunk_total (hs : f.Small) (pos : ℕ) : (f.chunk pos).header.total = f.size :=
  Nat.mod_eq_of_lt hs

theorem chunk_more (f : Frame) (pos : ℕ) :
    (f.chunk pos).header.flags &&& flagMore ≠ 0 ↔ pos + f.take pos < f.size := by
  change (if pos + f.take pos < f.size then f.header.flags ||| flagMore
    else f.header.flags &&& 0xFFFE) &&& flagMore ≠ 0 ↔ _
  by_cases hmore : pos + f.take pos < f.size
  · have hbit : (f.header.flags ||| flagMore) &&& flagMore = 1 := by
      rw [Nat.and_or_distrib_right]
      unfold flagMore
      rcases Nat.and_one_is_mod f.header.flags ▸ Nat.mod_two_eq_zero_or_one f.header.flags
        with h | h <;> rw [h] <;> rfl
    rw [if_pos hmore, hbit]
    exact ⟨fun _ => hmore, fun _ => by decide⟩
  · have hbit : f.header.flags &&& 0xFFFE &&& flagMore = 0 := by
      rw [Nat.and_assoc]
      exact Nat.and_zero _
    rw [if_neg hmore, hbit]
    exact ⟨fun h => absurd rfl h, fun h => absurd h hmore⟩

theorem recv_chunk (f : Frame) (pos : ℕ) : recv (f.chunk pos) = some (f.chunk pos) := by
  have hle : f.take pos ≤ maxPayload := Nat.min_le_right _ _
  have hlen : (f.chunk pos).header.length = f.take pos := by
    refine Nat.mod_eq_of_lt (hle.trans_lt ?_)
    decide
  unfold recv
  rw [if_neg]
  rintro (hv | hl | hp)
  · exact hv f.version
  · omega
  · rw [chunk_length, hlen] at hp
    exact hp rfl

theorem recv_empty (f : Frame) : recv ⟨f.header, []⟩ = some ⟨f.header, []⟩ := by
  unfold recv
  rw [if_neg]
  rintro (hv | hl | hp)
  · exact hv f.version
  · rw [f.unset.1] at hl
    exact absurd hl (Nat.not_lt_zero _)
  · rw [f.unset.1] at hp
    exact hp rfl

structure Holds (f : Frame) (pos : ℕ) (a : Assembly) : Prop where
  active : a.active = true
  header : a.header = chunkHeader f.header f.size 0
  capacity : a.capacity = f.size
  payload : a.payload = f.payload.take pos

def Expects (mem : Header → Bool) (f : Frame) (pos : ℕ) (a : Assembly) : Prop :=
  (pos = 0 ∧ f.Fits mem) ∨ (0 < pos ∧ Holds f pos a)

theorem join_chunk (hs : f.Small) (h : Holds f pos a) (hpos : pos < f.size) :
    ∃ a', join a (f.chunk pos) = (a', if pos + f.take pos < f.size then .again else .ok) ∧
      Holds f (pos + f.take pos) a' := by
  have hreceived : a.payload.length = pos := by
    rw [h.payload, List.length_take]
    unfold Frame.size at hpos
    omega
  have hle : f.take pos ≤ f.size - pos := chunkTake_le _ _
  have hsame : (f.chunk pos).header.identity = a.header.identity := by
    rw [h.header, chunk_identity]
    rfl
  have hjoined : a.payload ++ (f.chunk pos).payload = f.payload.take (pos + f.take pos) := by
    rw [h.payload, List.take_add]
    rfl
  refine ⟨{ a with payload := a.payload ++ (f.chunk pos).payload }, ?_,
    ⟨h.active, h.header, h.capacity, hjoined⟩⟩
  unfold join
  rw [if_neg (not_not.mpr hsame), chunk_offset hs hpos, hreceived, chunk_length, h.capacity,
    if_neg (by omega)]
  by_cases hmore : pos + f.take pos < f.size
  · rw [if_pos ((chunk_more f pos).mpr hmore), if_pos hmore]
  · rw [if_neg (mt (chunk_more f pos).mp hmore), if_neg (by omega), if_neg hmore]

theorem abandon_inactive (ha : a.active = false) (d : Datagram) : abandon a d = a := by
  unfold abandon
  rw [if_neg]
  rintro ⟨hactive, -⟩
  rw [ha] at hactive
  cases hactive

theorem abandon_first (a : Assembly) (hd : d.header.offset = 0) :
    (abandon a d).active = false := by
  by_cases ha : a.active = true
  · unfold abandon
    rw [if_pos ⟨ha, hd⟩]
    rfl
  · rw [Bool.not_eq_true] at ha
    rw [abandon_inactive ha]
    exact ha

theorem abandon_later (a : Assembly) (hd : d.header.offset ≠ 0) : abandon a d = a := by
  unfold abandon
  rw [if_neg fun h => hd h.2]

theorem receive_chunk (hs : f.Small) (h : Expects mem f pos a) (hpos : pos < f.size) :
    if pos + f.take pos < f.size then
      (receive mem a (f.chunk pos)).2 = none ∧
        Holds f (pos + f.take pos) (receive mem a (f.chunk pos)).1
    else
      (receive mem a (f.chunk pos)).2 = some f.completed ∧
        (receive mem a (f.chunk pos)).1.active = false := by
  have hfeed : ∃ a', feed mem a (f.chunk pos) =
      (a', if pos + f.take pos < f.size then .again else .ok) ∧
        Holds f (pos + f.take pos) a' := by
    rcases h with ⟨rfl, hfits⟩ | ⟨hlater, hholds⟩
    · -- the first chunk opens the frame, whatever was open before
      have hoffset : (f.chunk 0).header.offset = 0 := chunk_offset hs hpos
      have htotal := chunk_total hs 0
      have hidle := abandon_first a hoffset
      have hmem : mem (f.chunk 0).header = true := hfits.2.2
      have hopen : start mem (abandon a (f.chunk 0)) (f.chunk 0) =
          some { abandon a (f.chunk 0) with
            header := (f.chunk 0).header, payload := [], capacity := f.size, active := true } := by
        have hroom : ¬(f.size = 0 ∨ f.size > maxFrame) := by
          have := hfits.2.1
          omega
        unfold start
        rw [hidle, if_neg Bool.false_ne_true, if_neg (not_not.mpr hoffset), htotal,
          if_neg hroom, hmem]
        rfl
      unfold feed
      rw [hopen]
      exact join_chunk hs ⟨rfl, rfl, rfl, rfl⟩ hpos
    · have hoffset : (f.chunk pos).header.offset ≠ 0 := by
        rw [chunk_offset hs hpos]
        omega
      have hopen : start mem (abandon a (f.chunk pos)) (f.chunk pos) = some a := by
        rw [abandon_later a hoffset]
        unfold start
        rw [if_pos hholds.active]
      unfold feed
      rw [hopen]
      exact join_chunk hs hholds hpos
  obtain ⟨a', hfeed, hholds⟩ := hfeed
  unfold receive
  rw [recv_chunk]
  dsimp only
  rw [hfeed]
  by_cases hmore : pos + f.take pos < f.size
  · rw [if_pos hmore, if_pos hmore]
    exact ⟨rfl, hholds⟩
  · rw [if_neg hmore, if_neg hmore]
    have hall : a'.payload = f.payload := by
      rw [hholds.payload]
      refine List.take_of_length_le ?_
      unfold Frame.size at hmore
      omega
    refine ⟨?_, rfl⟩
    dsimp only
    rw [hholds.header, hall]
    rfl

theorem receive_refused (hd : recv d = some d) (hoffset : d.header.offset = 0)
    (hrefuse : d.header.total = 0 ∨ d.header.total > maxFrame ∨ mem d.header = false) :
    (receive mem a d).2 = none ∧ (receive mem a d).1.active = false := by
  have hidle := abandon_first a hoffset
  have hopen : start mem (abandon a d) d = none := by
    unfold start
    rw [hidle, if_neg Bool.false_ne_true, if_neg (not_not.mpr hoffset)]
    by_cases hsize : d.header.total = 0 ∨ d.header.total > maxFrame
    · rw [if_pos hsize]
    · have hmem : mem d.header = false := by tauto
      rw [if_neg hsize, hmem]
      rfl
  unfold receive feed
  rw [hd]
  dsimp only
  rw [hopen]
  exact ⟨rfl, hidle⟩

theorem receive_stray (mem : Header → Bool) (hd : recv d = some d) (hoffset : d.header.offset ≠ 0)
    (hstray : a.active = true →
      a.header.identity ≠ d.header.identity ∨ a.payload.length ≠ d.header.offset) :
    (receive mem a d).2 = none ∧ (receive mem a d).1.active = false := by
  unfold receive feed
  rw [hd]
  dsimp only
  rw [abandon_later a hoffset]
  by_cases ha : a.active = true
  · have hopen : start mem a d = some a := by
      unfold start
      rw [if_pos ha]
    have hjoin : join a d = (a.reset, .error) := by
      unfold join
      by_cases hsame : d.header.identity = a.header.identity
      · have hgap := (hstray ha).resolve_left (not_not.mpr hsame.symm)
        rw [if_neg (not_not.mpr hsame), if_pos (Or.inl (Ne.symm hgap))]
      · rw [if_pos hsame]
    rw [hopen]
    dsimp only
    rw [hjoin]
    exact ⟨rfl, rfl⟩
  · have hopen : start mem a d = none := by
      unfold start
      rw [if_neg ha, if_pos hoffset]
    rw [hopen]
    exact ⟨rfl, Bool.not_eq_true _ ▸ ha⟩

theorem sendFrom_later (f : Frame) (pos : ℕ) :
    ∀ d ∈ sendFrom f.header f.payload pos, ∃ q, pos ≤ q ∧ q < f.size ∧ d = f.chunk q := by
  induction pos using sendFrom.induct f.payload with
  | case1 pos hpos ih =>
    intro d hd
    rw [sendFrom, if_pos hpos] at hd
    rcases List.mem_cons.mp hd with rfl | hd
    · exact ⟨pos, le_refl _, hpos, rfl⟩
    · obtain ⟨q, hq, hsize, hdq⟩ := ih d hd
      exact ⟨q, by omega, hsize, hdq⟩
  | case2 pos hpos =>
    intro d hd
    rw [sendFrom, if_neg hpos] at hd
    cases hd

def Stray (a : Assembly) (d : Datagram) : Prop :=
  recv d = some d ∧ d.header.offset ≠ 0 ∧
    (a.active = true →
      a.header.identity ≠ d.header.identity ∨ a.payload.length ≠ d.header.offset)

theorem run_stray (mem : Header → Bool) {l : List Datagram} (hl : ∀ d ∈ l, Stray a d) :
    (run (receive mem) a l).2 = [] ∧
      ((run (receive mem) a l).1.active = false ∨ (run (receive mem) a l).1 = a) := by
  induction l generalizing a with
  | nil => exact ⟨rfl, Or.inr rfl⟩
  | cons d rest ih =>
    obtain ⟨hd, hoffset, hstray⟩ := hl d List.mem_cons_self
    obtain ⟨hnone, hidle⟩ := receive_stray mem hd hoffset hstray
    have hrest : ∀ e ∈ rest, Stray (receive mem a d).1 e := by
      intro e he
      obtain ⟨he₁, he₂, -⟩ := hl e (List.mem_cons_of_mem _ he)
      refine ⟨he₁, he₂, fun hactive => ?_⟩
      rw [hidle] at hactive
      cases hactive
    obtain ⟨hout, hend⟩ := ih hrest
    refine ⟨?_, Or.inl ?_⟩
    · rw [run, hnone, hout]
      rfl
    · rw [run]
      rcases hend with hend | hend
      · exact hend
      · rw [hend]
        exact hidle

theorem stray_chunk (hs : f.Small) {q : ℕ} (hq : q < f.size) (hfirst : 0 < q)
    (hother : a.active = true → a.header.identity ≠ f.identity ∨ a.payload.length ≠ q) :
    Stray a (f.chunk q) := by
  have hoffset := chunk_offset hs hq
  refine ⟨recv_chunk f q, by omega, fun hactive => ?_⟩
  rw [hoffset]
  exact hother hactive

def Foreign (f : Frame) (a : Assembly) : Prop :=
  a.active = true → a.header.identity ≠ f.identity

/-- What is open after the datagrams of `f` is a part of `f`, or what was open before. -/
def Over (f : Frame) (a a' : Assembly) : Prop :=
  a'.active = false ∨ a'.header.identity = f.identity ∨ a' = a

theorem run_from (hs : f.Small) (hpos : pos < f.size) {l : List Datagram}
    (h : Expects mem f pos a) (hforeign : pos = 0 → Foreign f a)
    (hl : l.Sublist (sendFrom f.header f.payload pos)) :
    (run (receive mem) a l).2 =
        (if l = sendFrom f.header f.payload pos then [f.completed] else []) ∧
      Over f a (run (receive mem) a l).1 := by
  induction pos using sendFrom.induct f.payload generalizing a l with
  | case2 pos hnot => exact absurd hpos hnot
  | case1 pos hlt ih =>
    have hnext : 0 < f.take pos := chunkTake_pos hpos
    rw [sendFrom, if_pos hlt] at hl ⊢
    change l.Sublist (f.chunk pos :: sendFrom f.header f.payload (pos + f.take pos)) at hl
    change _ = (if l = f.chunk pos :: sendFrom f.header f.payload (pos + f.take pos)
      then [f.completed] else []) ∧ _
    rcases List.sublist_cons_iff.mp hl with hlost | ⟨rest, rfl, hrest⟩
    · -- the chunk that is waited for is lost
      have hne : l ≠ f.chunk pos :: sendFrom f.header f.payload (pos + f.take pos) := by
        intro heq
        have hlen := hlost.length_le
        rw [heq, List.length_cons] at hlen
        omega
      have hstray : ∀ d ∈ l, Stray a d := by
        intro d hd
        obtain ⟨q, hq, hsize, rfl⟩ := sendFrom_later f _ d (hlost.subset hd)
        refine stray_chunk hs hsize (by omega) fun hactive => ?_
        rcases h with ⟨hzero, -⟩ | ⟨-, hholds⟩
        · exact Or.inl (hforeign hzero hactive)
        · refine Or.inr ?_
          rw [hholds.payload, List.length_take]
          unfold Frame.size at hpos
          omega
      obtain ⟨hout, hend⟩ := run_stray mem hstray
      rw [if_neg hne]
      exact ⟨hout, hend.imp id Or.inr⟩
    · have hstep := receive_chunk hs h hpos
      rw [run]
      by_cases hmore : pos + f.take pos < f.size
      · rw [if_pos hmore] at hstep
        obtain ⟨hnone, hholds⟩ := hstep
        have hlater : 0 < pos + f.take pos := by omega
        obtain ⟨hout, hover⟩ := ih hmore (Or.inr ⟨hlater, hholds⟩)
          (fun hzero => absurd hzero hlater.ne') hrest
        rw [hnone]
        refine ⟨?_, ?_⟩
        · dsimp only [Option.toList_none]
          rw [List.nil_append, hout]
          simp only [List.cons.injEq, true_and]
          rfl
        · rcases hover with hidle | hsame | hsame
          · exact Or.inl hidle
          · exact Or.inr (Or.inl hsame)
          · refine Or.inr (Or.inl ?_)
            dsimp only
            rw [hsame, hholds.header]
            rfl
      · -- the last chunk
        rw [if_neg hmore] at hstep
        obtain ⟨hdone, hidle⟩ := hstep
        have hend : sendFrom f.header f.payload (pos + f.take pos) = [] := by
          rw [sendFrom]
          exact if_neg hmore
        rw [hend] at hrest ⊢
        obtain rfl := List.sublist_nil.mp hrest
        rw [if_pos rfl, hdone]
        exact ⟨rfl, Or.inl hidle⟩

theorem run_refused (hs : f.Small) (hd : recv d = some d) (hoffset : d.header.offset = 0)
    (hrefuse : d.header.total = 0 ∨ d.header.total > maxFrame ∨ mem d.header = false)
    {rest : List Datagram} (hrest : ∀ e ∈ rest, ∃ q, 0 < q ∧ q < f.size ∧ e = f.chunk q) :
    (run (receive mem) a (d :: rest)).2 = [] ∧
      (run (receive mem) a (d :: rest)).1.active = false := by
  obtain ⟨hnone, hidle⟩ := receive_refused (a := a) hd hoffset hrefuse
  have hstray : ∀ e ∈ rest, Stray (receive mem a d).1 e := by
    intro e he
    obtain ⟨q, hq, hsize, rfl⟩ := hrest e he
    refine stray_chunk hs hsize hq fun hactive => ?_
    rw [hidle] at hactive
    cases hactive
  obtain ⟨hout, hend⟩ := run_stray mem hstray
  rw [run, hnone, hout]
  refine ⟨rfl, ?_⟩
  rcases hend with hend | hend
  · exact hend
  · dsimp only
    rw [hend]
    exact hidle

theorem run_empty (hs : f.Small) (hempty : f.size = 0) {l : List Datagram}
    (hl : l.Sublist f.chunks) :
    (run (receive mem) a l).2 = [] ∧ Over f a (run (receive mem) a l).1 := by
  have hchunks : f.chunks = [⟨f.header, []⟩] := if_pos hempty
  rw [hchunks] at hl
  rcases List.sublist_cons_iff.mp hl with hnil | ⟨rest, rfl, hnil⟩
  · obtain rfl := List.sublist_nil.mp hnil
    exact ⟨rfl, Or.inr (Or.inr rfl)⟩
  · obtain rfl := List.sublist_nil.mp hnil
    have hrefuse : f.header.total = 0 ∨ f.header.total > maxFrame ∨ mem f.header = false :=
      Or.inl f.unset.2.1
    have hnone : ∀ e ∈ ([] : List Datagram), ∃ q, 0 < q ∧ q < f.size ∧ e = f.chunk q :=
      fun e he => by cases he
    obtain ⟨hout, hidle⟩ :=
      run_refused (a := a) hs (recv_empty f) f.unset.2.2 hrefuse hnone
    exact ⟨hout, Or.inl hidle⟩

theorem run_unfit (hs : f.Small) (hpos : 0 < f.size) (hunfit : ¬f.Fits mem)
    (hforeign : Foreign f a) {l : List Datagram}
    (hl : l.Sublist (sendFrom f.header f.payload 0)) :
    (run (receive mem) a l).2 = [] ∧ Over f a (run (receive mem) a l).1 := by
  have hsplit : sendFrom f.header f.payload 0 =
      f.chunk 0 :: sendFrom f.header f.payload (0 + f.take 0) := by
    rw [sendFrom]
    exact if_pos hpos
  have hfirst : 0 < f.take 0 := chunkTake_pos hpos
  have hlater : ∀ r : List Datagram,
      r.Sublist (sendFrom f.header f.payload (0 + f.take 0)) →
      ∀ e ∈ r, ∃ q, 0 < q ∧ q < f.size ∧ e = f.chunk q := by
    intro r hr e he
    obtain ⟨q, hq, hsize, heq⟩ := sendFrom_later f _ e (hr.subset he)
    exact ⟨q, by omega, hsize, heq⟩
  rw [hsplit] at hl
  rcases List.sublist_cons_iff.mp hl with hlost | ⟨rest, rfl, hrest⟩
  · have hstray : ∀ d ∈ l, Stray a d := by
      intro d hd
      obtain ⟨q, hq, hsize, rfl⟩ := hlater l hlost d hd
      exact stray_chunk hs hsize hq fun hactive => Or.inl (hforeign hactive)
    obtain ⟨hout, hend⟩ := run_stray mem hstray
    exact ⟨hout, hend.imp id Or.inr⟩
  · have hrefuse : (f.chunk 0).header.total = 0 ∨ (f.chunk 0).header.total > maxFrame ∨
        mem (f.chunk 0).header = false := by
      rw [chunk_total hs]
      by_contra hno
      push Not at hno
      exact hunfit ⟨hpos, hno.2.1, Bool.not_eq_false _ ▸ hno.2.2⟩
    obtain ⟨hout, hidle⟩ := run_refused (a := a) hs (recv_chunk f 0) (chunk_offset hs hpos)
      hrefuse (hlater rest hrest)
    exact ⟨hout, Or.inl hidle⟩

theorem run_frame (hs : f.Small) (hforeign : Foreign f a) {l : List Datagram}
    (hl : l.Sublist f.chunks) :
    (run (receive mem) a l).2 = (if f.Fits mem ∧ l = f.chunks then [f.completed] else []) ∧
      Over f a (run (receive mem) a l).1 := by
  by_cases hempty : f.size = 0
  · have hnot : ¬(f.Fits mem ∧ l = f.chunks) := fun h => absurd h.1.1 (by omega)
    rw [if_neg hnot]
    exact run_empty hs hempty hl
  · have hpos : 0 < f.size := by omega
    have hchunks : f.chunks = sendFrom f.header f.payload 0 := if_neg hempty
    rw [hchunks] at hl ⊢
    by_cases hfits : f.Fits mem
    · have hwhole : (f.Fits mem ∧ l = sendFrom f.header f.payload 0) ↔
          l = sendFrom f.header f.payload 0 := and_iff_right hfits
      rw [if_congr hwhole rfl rfl]
      exact run_from hs hpos (Or.inl ⟨rfl, hfits⟩) (fun _ => hforeign) hl
    · rw [if_neg fun h => hfits h.1]
      exact run_unfit hs hpos hfits hforeign hl

theorem sendFrom_nodup (hs : f.Small) (pos : ℕ) :
    (sendFrom f.header f.payload pos).Nodup := by
  induction pos using sendFrom.induct f.payload with
  | case1 pos hpos ih =>
    rw [sendFrom, if_pos hpos]
    refine List.nodup_cons.mpr ⟨fun hmem => ?_, ih⟩
    obtain ⟨q, hq, hsize, heq⟩ := sendFrom_later f _ _ hmem
    have hnext := chunkTake_pos hpos
    have hoffset : pos = q := by
      rw [← chunk_offset hs hpos, ← chunk_offset hs hsize]
      exact congrArg (fun d : Datagram => d.header.offset) heq
    omega
  | case2 pos hpos =>
    rw [sendFrom, if_neg hpos]
    exact List.nodup_nil

theorem chunks_nodup (hs : f.Small) : f.chunks.Nodup := by
  unfold Frame.chunks send
  split_ifs with hempty
  · exact List.nodup_singleton _
  · exact sendFrom_nodup hs 0

theorem chunks_identity (hd : d ∈ f.chunks) : d.header.identity = f.identity := by
  unfold Frame.chunks send at hd
  split_ifs at hd with hempty
  · obtain rfl := List.mem_singleton.mp hd
    have htotal : f.header.total = f.size % 2 ^ 32 := by
      rw [f.unset.2.1]
      unfold Frame.size
      rw [hempty, Nat.zero_mod]
    unfold Frame.identity Header.identity
    rw [htotal]
  · obtain ⟨q, -, -, rfl⟩ := sendFrom_later f 0 d hd
    rfl

structure Ready (a : Assembly) (frames : List Frame) : Prop where
  distinct : frames.Pairwise fun f g => f.identity ≠ g.identity
  small : ∀ f ∈ frames, f.Small
  foreign : ∀ f ∈ frames, Foreign f a

theorem ready_block (mem : Header → Bool) (a : Assembly) (f : Frame) (rest : List Frame)
    (l : List Datagram) (h : Ready a (f :: rest)) (hl : l.Sublist f.chunks) :
    (run (receive mem) a l).2 = (if f.Fits mem ∧ l = f.chunks then [f.completed] else []) ∧
      Ready (run (receive mem) a l).1 rest := by
  obtain ⟨hout, hover⟩ := @run_frame mem f a (h.small f List.mem_cons_self)
    (h.foreign f List.mem_cons_self) l hl
  obtain ⟨hne, hdistinct⟩ := List.pairwise_cons.mp h.distinct
  refine ⟨hout, hdistinct, fun g hg => h.small g (List.mem_cons_of_mem _ hg), fun g hg => ?_⟩
  intro hactive
  rcases hover with hidle | hsame | hsame
  · rw [hidle] at hactive
    cases hactive
  · rw [hsame]
    exact hne g hg
  · rw [hsame] at hactive ⊢
    exact h.foreign g (List.mem_cons_of_mem _ hg) hactive

/-- Of frames with different identities, whatever datagrams are lost, exactly those come
out, in order, that the receiver takes and that lost no datagram. -/
theorem reassembly_never_splices {frames : List Frame} {delivered : List Datagram}
    (hidle : a.active = false)
    (hdistinct : frames.Pairwise fun f g => f.identity ≠ g.identity)
    (hsmall : ∀ f ∈ frames, f.size < 2 ^ 32)
    (hd : delivered.Sublist (frames.flatMap Frame.chunks)) :
    (run (receive mem) a delivered).2 =
      (frames.filter fun f => f.Fits mem ∧ ∀ d ∈ f.chunks, d ∈ delivered).map
        Frame.completed := by
  have hnodup : (frames.flatMap Frame.chunks).Nodup := by
    refine List.nodup_flatMap.mpr ⟨fun f hf => chunks_nodup (hsmall f hf), ?_⟩
    refine hdistinct.imp fun hne d hf hg => ?_
    exact hne ((chunks_identity hf).symm.trans (chunks_identity hg))
  have hready : Ready a frames := by
    refine ⟨hdistinct, hsmall, fun f _ hactive => ?_⟩
    rw [hidle] at hactive
    cases hactive
  exact run_blocks (ready_block mem) hready hnodup hd

def emptyAssembly : Assembly :=
  { header := (routeFrame 0 0 0 0 0 0 0 0 0 0 0 false false []).header, payload := [],
    capacity := 0, active := false, restarts := 0 }

def videoFrame (sequence size : ℕ) : Frame :=
  routeFrame 4 7 1 1 sequence 0 0 1 1 1 0 true false (List.replicate size 0)

/-- The first datagram of a frame of two is lost. -/
theorem reassembly_never_splices_lost :
    (run (receive fun _ => true) emptyAssembly
        ((videoFrame 0 70000).chunks.drop 1 ++ (videoFrame 1 70000).chunks)).2 =
      ([videoFrame 0 70000, videoFrame 1 70000].filter fun f =>
        f.Fits (fun _ => true) ∧
          ∀ d ∈ f.chunks,
            d ∈ (videoFrame 0 70000).chunks.drop 1 ++ (videoFrame 1 70000).chunks).map
        Frame.completed := by
  refine reassembly_never_splices rfl ?_ ?_ ?_
  · have hne : (videoFrame 0 70000).identity ≠ (videoFrame 1 70000).identity := by
      intro h
      have hsequence := congrArg Identity.sequence h
      exact absurd hsequence Nat.zero_ne_one
    simpa using hne
  · intro f hf
    have hsize : ∀ n, (videoFrame n 70000).size = 70000 := fun n => List.length_replicate
    rcases List.mem_pair.mp hf with rfl | rfl <;> rw [hsize] <;> decide
  · have hlost := List.drop_sublist 1 (videoFrame 0 70000).chunks
    simpa using hlost.append_right (videoFrame 1 70000).chunks

/-- A frame above the receiver's bound is sent whole and never returned. -/
theorem oversized_frame_refused :
    ¬∀ (frames : List Frame) (delivered : List Datagram),
      (frames.Pairwise fun f g => f.identity ≠ g.identity) →
      delivered.Sublist (frames.flatMap Frame.chunks) →
      (run (receive fun _ => true) emptyAssembly delivered).2 =
        (frames.filter fun f => ∀ d ∈ f.chunks, d ∈ delivered).map Frame.completed := by
  intro h
  have hclaim := h [videoFrame 0 (maxFrame + 1)] (videoFrame 0 (maxFrame + 1)).chunks
    (List.pairwise_singleton _ _) (by simp)
  have hsize : (videoFrame 0 (maxFrame + 1)).size = maxFrame + 1 := List.length_replicate
  have hsmall : (videoFrame 0 (maxFrame + 1)).Small := by
    unfold Frame.Small
    rw [hsize]
    decide
  have hunfit : ¬(videoFrame 0 (maxFrame + 1)).Fits fun _ => true := by
    intro hfits
    have hle := hfits.2.1
    omega
  have hforeign : Foreign (videoFrame 0 (maxFrame + 1)) emptyAssembly :=
    fun hactive => by cases hactive
  have hall : (videoFrame 0 (maxFrame + 1)).chunks.Sublist (videoFrame 0 (maxFrame + 1)).chunks :=
    List.Sublist.refl _
  obtain ⟨hout, -⟩ := @run_frame (fun _ => true) _ _ hsmall hforeign _ hall
  rw [hout, if_neg fun hc => hunfit hc.1, List.filter_cons,
    if_pos (decide_eq_true fun _ hd => hd)] at hclaim
  cases hclaim

end IpcFrame
