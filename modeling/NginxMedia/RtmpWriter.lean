import Mathlib.Data.Finset.Card
import NginxMedia.RtmpSplit

/-! The chunk writer of `ngx_media_rtmp_wire.c` and what the reader makes of what it wrote.
Writer and reader keep the time and the message stream id of every chunk stream in step; a
message is then read back as it was written, provided its fields fit their places in the
header. -/
namespace RtmpWriter

open MediaTypes ByteString RtmpReader RtmpSplit

def maxOutParts : ℕ := 512
def maxOutCsid : ℕ := 8

structure Writer where
  chunkSize : ℕ
  maxMessage : ℕ
  timestamp : ℕ → UInt32
  streamId : ℕ → ℕ
  used : ℕ → Bool

def Writer.init (chunkSize maxMessage : ℕ) : Writer :=
  { chunkSize := if 0 < chunkSize ∧ chunkSize ≤ maxChunk then chunkSize else defaultChunk
    maxMessage := if maxMessage = 0 then RtmpReader.maxMessage else maxMessage
    timestamp := fun _ => 0
    streamId := fun _ => 0
    used := fun _ => false }

structure Outgoing where
  csid : ℕ
  type : ℕ
  streamId : ℕ
  timestamp : UInt32
  payload : Option Payload
  offset : ℕ
  len : ℕ

def Outgoing.data (out : Outgoing) : Payload := ((out.payload.getD []).drop out.offset).take out.len

def format (w : Writer) (out : Outgoing) : ℕ :=
  if w.used out.csid = false then 0
  else if w.timestamp out.csid ≤ out.timestamp ∧
      (out.timestamp - w.timestamp out.csid).toNat < 0xFFFFFF ∧ w.streamId out.csid = out.streamId
  then 1
  else 0

def tsField (w : Writer) (out : Outgoing) : ℕ :=
  if format w out = 0 then out.timestamp.toNat
  else (out.timestamp - w.timestamp out.csid).toNat

def chunkHead (out : Outgoing) (chunkFmt field : ℕ) : List UInt8 :=
  let extended := decide (field ≥ 0xFFFFFF)
  low (chunkFmt * 64 + out.csid % 64) ::
    ((if chunkFmt = 3 then []
      else put24 (if extended then 0xFFFFFF else field) ++ put24 out.len ++ [low out.type] ++
        if chunkFmt = 0 then put32 out.streamId else []) ++
      if extended then put32 field else [])

def chunkParts (size : ℕ) (head next : List UInt8) : ℕ → Payload → List (List UInt8)
  | 0, _ => []
  | chunks + 1, data =>
    head :: ((if data.take size = [] then [] else [data.take size]) ++
      chunkParts size next next chunks (data.drop size))

def chunkCount (size len : ℕ) : ℕ := if (len + size - 1) / size = 0 then 1 else (len + size - 1) / size

def writerMessage (memory : Bool) (w : Writer) (out : Outgoing) :
    Option (Writer × List (List UInt8)) :=
  if out.csid ≥ maxOutCsid ∨ out.len > w.maxMessage then none
  else if out.len > 0 ∧ out.payload = none then none
  else if out.len > 0 ∧ bufSize out.payload < out.offset + out.len then none
  else if chunkCount w.chunkSize out.len * 2 > maxOutParts then none
  else if memory = false then none
  else
    some
      ({ w with
          used := Function.update w.used out.csid true
          streamId := Function.update w.streamId out.csid out.streamId
          timestamp := Function.update w.timestamp out.csid out.timestamp },
        chunkParts w.chunkSize (chunkHead out (format w out) (tsField w out))
          (chunkHead out 3 (tsField w out)) (chunkCount w.chunkSize out.len) out.data)

def writeAll (w : Writer) : List Outgoing → Option (List UInt8)
  | [] => some []
  | out :: rest =>
    match writerMessage true w out with
    | none => none
    | some (w, parts) => (writeAll w rest).map fun bytes => parts.flatten ++ bytes

def Outgoing.message (out : Outgoing) : Message :=
  ⟨out.type, out.streamId, out.timestamp, out.data⟩

/-- The fields of the message fit their places in a chunk header. -/
structure Fits (out : Outgoing) : Prop where
  len : out.len < 2 ^ 24
  type : out.type < 2 ^ 8
  streamId : out.streamId < 2 ^ 32

variable {host : Host} {r : Reader} {s s₁ s₂ : State} {cs : ChunkStream} {w : Writer}
  {out : Outgoing} {fmt field : ℕ}

theorem chunkHead_basic (hcsid : 2 ≤ out.csid ∧ out.csid < 8) (hfmt : fmt < 4) (field : ℕ)
    (tail : List UInt8) :
    basicHeader (chunkHead out fmt field ++ tail) = some (fmt, out.csid, 1) := by
  have hbyte : byteAt (chunkHead out fmt field ++ tail) 0 = fmt * 64 + out.csid := by
    rw [chunkHead, List.cons_append, byteAt_zero, low_toNat]
    omega
  unfold basicHeader
  rw [hbyte, if_neg (by omega), if_neg (by omega)]
  have hdiv : (fmt * 64 + out.csid) / 64 = fmt := by omega
  have hmod : (fmt * 64 + out.csid) % 64 = out.csid := by omega
  rw [hdiv, hmod]

/-- The bytes of a format 0 or 1 header, apart from the basic header. -/
def fixedPart (out : Outgoing) (fmt field : ℕ) : List UInt8 :=
  put24 (if field ≥ 0xFFFFFF then 0xFFFFFF else field) ++ (put24 out.len ++ (low out.type ::
    ((if fmt = 0 then put32 out.streamId else []) ++
      if field ≥ 0xFFFFFF then put32 field else [])))

theorem chunkHead_eq (hfmt : fmt < 2) :
    chunkHead out fmt field = low (fmt * 64 + out.csid % 64) :: fixedPart out fmt field := by
  unfold chunkHead fixedPart
  dsimp only
  rw [if_neg (show ¬ fmt = 3 by omega)]
  simp

section Fields

variable (x : UInt8) (tail : List UInt8)

theorem fixedPart_field (hfmt : field < 2 ^ 32) :
    be24 (x :: (fixedPart out fmt field ++ tail)) 1 =
      if field ≥ 0xFFFFFF then 0xFFFFFF else field := by
  have h : be24 (x :: (fixedPart out fmt field ++ tail)) (0 + 1) = _ := be24_succ _ _ 0
  rw [Nat.zero_add] at h
  rw [h, fixedPart, List.append_assoc, be24_put24]
  split_ifs <;> omega

theorem fixedPart_length (hlen : out.len < 2 ^ 24) :
    be24 (x :: (fixedPart out fmt field ++ tail)) 4 = out.len := by
  have h : be24 (x :: (fixedPart out fmt field ++ tail)) (3 + 1) = _ := be24_succ _ _ 3
  have hskip := be24_add (put24_length (if field ≥ 0xFFFFFF then 0xFFFFFF else field))
    ((put24 out.len ++ (low out.type :: ((if fmt = 0 then put32 out.streamId else []) ++
      if field ≥ 0xFFFFFF then put32 field else []))) ++ tail) 0
  rw [h, fixedPart, List.append_assoc, hskip, List.append_assoc, be24_put24]
  exact Nat.mod_eq_of_lt hlen

theorem fixedPart_type (htype : out.type < 2 ^ 8) :
    byteAt (x :: (fixedPart out fmt field ++ tail)) 7 = out.type := by
  have h : byteAt (x :: (fixedPart out fmt field ++ tail)) (6 + 1) = _ := byteAt_succ _ _ 6
  rw [h, fixedPart]
  simp only [put24, List.cons_append, List.nil_append, byteAt_succ, byteAt_zero, low_toNat]
  exact Nat.mod_eq_of_lt htype

theorem fixedPart_streamId (hid : out.streamId < 2 ^ 32) :
    be32 (x :: (fixedPart out 0 field ++ tail)) 8 = out.streamId := by
  have h : be32 (x :: (fixedPart out 0 field ++ tail)) (7 + 1) = _ := be32_succ _ _ 7
  rw [h, fixedPart]
  simp only [put24, List.cons_append, List.nil_append, be32_succ, if_true, List.append_assoc]
  rw [be32_put32]
  exact Nat.mod_eq_of_lt hid

theorem fixedPart_extended (hfmt : fmt < 2) (hfield : field < 2 ^ 32)
    (hext : field ≥ 0xFFFFFF) :
    be32 (x :: (fixedPart out fmt field ++ tail)) (1 + messageHeaderSize fmt) = field := by
  obtain rfl | rfl : fmt = 0 ∨ fmt = 1 := by omega
  · have h : be32 (x :: (fixedPart out 0 field ++ tail)) (11 + 1) = _ := be32_succ _ _ 11
    have hsize : 1 + messageHeaderSize 0 = 11 + 1 := rfl
    rw [hsize, h, fixedPart]
    simp only [put24, put32, List.cons_append, List.nil_append, be32_succ, if_true, if_pos hext]
    exact (be32_put32 field tail).trans (Nat.mod_eq_of_lt hfield)
  · have h : be32 (x :: (fixedPart out 1 field ++ tail)) (7 + 1) = _ := be32_succ _ _ 7
    have hsize : 1 + messageHeaderSize 1 = 7 + 1 := rfl
    rw [hsize, h, fixedPart]
    simp only [put24, List.cons_append, List.nil_append, be32_succ,
      if_neg (show ¬ (1 : ℕ) = 0 by decide), if_pos hext]
    exact (be32_put32 field tail).trans (Nat.mod_eq_of_lt hfield)

end Fields

theorem chunkHead_size (hfmt : fmt < 2) :
    (chunkHead out fmt field).length =
      1 + messageHeaderSize fmt + if field ≥ 0xFFFFFF then 4 else 0 := by
  rw [chunkHead_eq hfmt, fixedPart]
  obtain rfl | rfl : fmt = 0 ∨ fmt = 1 := by omega
  · by_cases h : field ≥ 0xFFFFFF <;> simp [messageHeaderSize, h]
  · by_cases h : field ≥ 0xFFFFFF <;> simp [messageHeaderSize, h]

def announced (out : Outgoing) (cs : ChunkStream) (fmt field : ℕ) : ChunkStream :=
  { type := out.type
    streamId := out.streamId
    timestamp := if fmt = 0 then UInt32.ofNat field else cs.timestamp + UInt32.ofNat field
    delta := UInt32.ofNat field
    length := out.len
    received := 0
    allocated := cs.allocated
    payload := none
    extended := decide (field ≥ 0xFFFFFF) }

theorem headerFields_chunkHead (hfmt : fmt < 2) (hf : Fits out) (hfield : field < 2 ^ 32)
    (hid : fmt = 1 → cs.streamId = out.streamId) (hidle : cs.payload = none) (buffered : ℕ)
    (tail : List UInt8) :
    headerFields buffered cs fmt 1 (chunkHead out fmt field ++ tail) =
      (buffered, { announced out cs fmt field with timestamp := cs.timestamp, delta := cs.delta }) := by
  have hext : decide ((if field ≥ 0xFFFFFF then 0xFFFFFF else field) = 0xFFFFFF) =
      decide (field ≥ 0xFFFFFF) := by
    split_ifs with h
    · simp [h]
    · simp only [h, decide_false, decide_eq_false_iff_not]
      omega
  rw [chunkHead_eq hfmt, List.cons_append]
  unfold headerFields announced
  rw [fixedPart_field _ _ hfield, fixedPart_length _ _ hf.len, fixedPart_type _ _ hf.type, hext]
  obtain rfl | rfl : fmt = 0 ∨ fmt = 1 := by omega
  · rw [fixedPart_streamId _ _ hf.streamId]
    simp [hidle]
  · simp [hidle, hid rfl]

theorem messageHeader_chunkHead (hfmt : fmt < 2) (hf : Fits out) (hfield : field < 2 ^ 32)
    (hid : fmt = 1 → cs.streamId = out.streamId) (hidle : cs.payload = none) (buffered : ℕ)
    (tail : List UInt8) :
    chunkHeader buffered cs fmt 1 (chunkHead out fmt field ++ tail) =
      (buffered, announced out cs fmt field, some (chunkHead out fmt field).length) := by
  have hsize := @chunkHead_size out fmt field hfmt
  have hlong : ¬ (chunkHead out fmt field ++ tail).length < 1 + messageHeaderSize fmt := by
    rw [List.length_append, hsize]
    omega
  have hfieldAt : be24 (chunkHead out fmt field ++ tail) 1 =
      if field ≥ 0xFFFFFF then 0xFFFFFF else field := by
    rw [chunkHead_eq hfmt, List.cons_append]
    exact fixedPart_field _ _ hfield
  unfold chunkHeader messageHeader
  rw [if_neg (show ¬ fmt = 3 by omega), if_neg hlong]
  dsimp only
  rw [headerFields_chunkHead hfmt hf hfield hid hidle, hfieldAt, hsize]
  by_cases hext : field ≥ 0xFFFFFF
  · have hfour : ¬ (chunkHead out fmt field ++ tail).length < 1 + messageHeaderSize fmt + 4 := by
      rw [List.length_append, hsize, if_pos hext]
      omega
    have hread : be32 (chunkHead out fmt field ++ tail) (1 + messageHeaderSize fmt) = field := by
      rw [chunkHead_eq hfmt, List.cons_append]
      exact fixedPart_extended _ _ hfmt hfield hext
    simp only [if_pos hext, if_true, if_neg hfour, hread]
    rfl
  · simp only [if_neg hext, if_neg (show ¬ field = 0xFFFFFF by omega)]
    rfl

theorem continuation_chunkHead (hext : cs.extended = decide (field ≥ 0xFFFFFF)) (hbusy : ¬ cs.Idle)
    (buffered : ℕ) (tail : List UInt8) :
    chunkHeader buffered cs 3 1 (chunkHead out 3 field ++ tail) =
      (buffered, cs, some (chunkHead out 3 field).length) := by
  have hsame : repeatHeader cs = cs := if_neg hbusy
  unfold chunkHeader continuation
  rw [if_pos rfl, hsame]
  dsimp only
  rw [hext]
  by_cases hlarge : field ≥ 0xFFFFFF
  · have hsize : (chunkHead out 3 field).length = 5 := by
      simp [chunkHead, hlarge]
    rw [if_pos (decide_eq_true hlarge), List.length_append, hsize, if_neg (by omega)]
  · have hsize : (chunkHead out 3 field).length = 1 := by
      simp [chunkHead, hlarge]
    rw [if_neg (by simp [hlarge]), hsize]

def Leads (host : Host) (s : State) (b : List UInt8) (s' : State) : Prop :=
  ∀ tail, feedLoop host s (b ++ tail) =
    ((feedLoop host s' tail).1, b.length + (feedLoop host s' tail).2.1,
      (feedLoop host s' tail).2.2)

theorem Leads.refl (host : Host) (s : State) : Leads host s [] s := by
  intro tail
  simp

theorem Leads.trans {a b : List UInt8} (h : Leads host s a s₁) (h' : Leads host s₁ b s₂) :
    Leads host s (a ++ b) s₂ := by
  intro tail
  rw [List.append_assoc, h, h', List.length_append, Nat.add_assoc]

theorem Leads.of_pass {b : List UInt8} (hne : b ≠ [])
    (h : ∀ tail, loopStep host s (b ++ tail) = .next s₁ b.length) : Leads host s b s₁ := by
  intro tail
  rw [feedLoop_pass (by simp [hne]), h]
  dsimp only
  rw [List.drop_left]

/-- `k` bytes of the message are there. -/
structure Partial (data : Payload) (k : ℕ) (cs : ChunkStream) : Prop where
  payload : cs.payload = some (data.take k)
  received : cs.received = k
  length : cs.length = data.length
  type : cs.type ≠ msgChunkSize ∧ cs.type ≠ msgAbort

def handed (r : Reader) (csid : ℕ) (cs : ChunkStream) : Reader :=
  { setCs { r with buffered := r.buffered - cs.allocated } csid
      { cs with payload := none, allocated := 0, received := cs.length } with
    pendingCsid := 0
    pendingRemaining := 0
    messages := r.messages + 1 }

structure Takes (host : Host) : Prop where
  alloc : ∀ n, host.alloc n = true
  accepts : ∀ before m, host.accepts before m = true

variable {data : Payload} {k : ℕ} {csid size : ℕ}

theorem Partial.copied (h : Partial data k cs) (part : List UInt8) (hk : k ≤ data.length)
    (hpart : part = (data.drop k).take part.length) :
    Partial data (k + part.length) (RtmpReader.copied cs part) := by
  refine ⟨?_, ?_, h.length, h.type⟩
  · by_cases hne : part = []
    · subst hne
      simp [RtmpReader.copied, h.payload]
    · have hlen : (data.take k).length = k := by
        rw [List.length_take]
        omega
      simp only [RtmpReader.copied, if_neg hne, h.payload, Option.map_some, h.received]
      rw [List.take_of_length_le (by omega), List.take_add, ← hpart]
  · simp [RtmpReader.copied, h.received]

theorem complete_whole (ht : Takes host) (h : Partial data k cs) (hk : data.length ≤ k)
    (r : Reader) (delivered : List Message) (csid : ℕ) :
    complete host ⟨finish r, delivered⟩ csid cs =
      (⟨{ setCs { finish r with buffered := r.buffered - cs.allocated } csid
          { cs with payload := none, allocated := 0 } with messages := r.messages + 1 },
        delivered ++ [⟨cs.type, cs.streamId, cs.timestamp, data⟩]⟩, .ok) := by
  unfold complete
  rw [h.payload]
  have hdata : (data.take k).take cs.length = data := by
    rw [h.length, List.take_of_length_le hk, List.take_length]
  have hcontrol : ∀ r, control r cs data = (r, .ok) := fun r => if_pos h.type
  dsimp only
  rw [hdata, hcontrol]
  dsimp only
  rw [if_pos (ht.accepts _ _)]
  rfl

theorem handed_advance (r : Reader) (csid : ℕ) (cs : ChunkStream) (part : List UInt8) :
    handed (advance r csid cs part) csid (copied cs part) = handed r csid cs := by
  simp [handed, advance, setCs, copied]

theorem payloadStep_chunk (ht : Takes host) (h : Partial data k cs) (hk : k ≤ data.length)
    (hpend : r.pendingRemaining = min (data.length - k) size) (delivered : List Message)
    (tail : List UInt8) :
    payloadStep host ⟨r, delivered⟩ csid cs ((data.drop k).take size ++ tail) =
      .next
        (if data.length ≤ k + size then
          ⟨handed r csid cs, delivered ++ [⟨cs.type, cs.streamId, cs.timestamp, data⟩]⟩
        else ⟨advance r csid cs ((data.drop k).take size), delivered⟩)
        ((data.drop k).take size).length := by
  have hlen : ((data.drop k).take size).length = min size (data.length - k) := by
    rw [List.length_take, List.length_drop]
  have hwant : wanted r cs = ((data.drop k).take size).length := by
    rw [wanted, h.length, h.received, hpend, hlen]
    omega
  have htake : ((data.drop k).take size ++ tail).take (wanted r cs) = (data.drop k).take size := by
    rw [hwant, List.take_left]
  have hpart := h.copied ((data.drop k).take size) hk (by
    rw [hlen, ← List.length_drop, ← List.take_eq_take_min])
  unfold payloadStep
  dsimp only
  rw [htake, copied_received, copied_length, h.received, h.length, hlen]
  by_cases hend : data.length ≤ k + size
  · rw [if_pos (show k + min size (data.length - k) ≥ data.length by omega), if_pos hend]
    rw [complete_whole ht hpart (by rw [hlen]; omega)]
    dsimp only
    congr 2
    have hrec : k + min size (data.length - k) = data.length := by omega
    simp [handed, advance, setCs, copied, finish, h.received, h.length, hlen, hrec]
  · rw [if_neg (show ¬ k + min size (data.length - k) ≥ data.length by omega), if_neg hend]

theorem chunk_pass {head : List UInt8} {r₁ : Reader} (ht : Takes host) (h : Partial data k cs)
    (hk : k ≤ data.length) (hidle : r.pendingRemaining = 0)
    (hparse : ∀ tail, parseHeader host r (head ++ tail) = .ready r₁ csid cs head.length)
    (hpend : r₁.pendingRemaining = min (data.length - k) size) (delivered : List Message)
    (tail : List UInt8) :
    loopStep host ⟨r, delivered⟩ ((head ++ (data.drop k).take size) ++ tail) =
      .next
        (if data.length ≤ k + size then
          ⟨handed r₁ csid cs, delivered ++ [⟨cs.type, cs.streamId, cs.timestamp, data⟩]⟩
        else ⟨advance r₁ csid cs ((data.drop k).take size), delivered⟩)
        (head ++ (data.drop k).take size).length := by
  unfold loopStep
  rw [if_neg (show ¬ (⟨r, delivered⟩ : State).reader.pendingRemaining > 0 by
    dsimp only
    omega), List.append_assoc, hparse]
  dsimp only
  rw [List.drop_left, payloadStep_chunk ht h hk hpend, List.length_append]
  rfl

structure Between (out : Outgoing) (field k size : ℕ) (r : Reader) (cs : ChunkStream) : Prop where
  received : Partial out.data k cs
  chunk : r.chunks out.csid = some cs
  more : k < out.data.length
  idle : r.pendingRemaining = 0
  extended : cs.extended = decide (field ≥ 0xFFFFFF)
  bound : cs.length ≤ r.maxMessage
  size : r.chunkSize = size

theorem Between.parse {r : Reader} {cs : ChunkStream} (h : Between out field k size r cs)
    (hcsid : 2 ≤ out.csid ∧ out.csid < 8) (tail : List UInt8) :
    parseHeader host r (chunkHead out 3 field ++ tail) =
      .ready { r with
          pendingCsid := out.csid
          pendingRemaining := min (out.data.length - k) size } out.csid cs
        (chunkHead out 3 field).length := by
  have hbusy : ¬ cs.Idle := by
    rintro (hend | hnone)
    · rw [h.received.received, h.received.length] at hend
      exact absurd h.more (Nat.not_lt.mpr hend)
    · rw [h.received.payload] at hnone
      cases hnone
  have hset : ∀ r' : Reader, r'.chunks = r.chunks → setCs r' out.csid cs = r' := by
    intro r' hr
    have : Function.update r'.chunks out.csid (some cs) = r'.chunks := by
      rw [Function.update_eq_self_iff, hr, h.chunk]
    rw [setCs, this]
  unfold parseHeader
  rw [chunkHead_basic hcsid (by decide)]
  dsimp only
  have hget : csGet r out.csid (3 != 3) = some (r, cs) := by
    simp only [csGet, h.chunk]
  rw [hget]
  dsimp only
  rw [continuation_chunkHead h.extended hbusy]
  dsimp only
  rw [hset _ rfl]
  unfold openMessage
  dsimp only
  rw [if_neg (Nat.not_lt.mpr h.bound), if_neg (by simp [h.received.payload]), hset _ rfl,
    h.received.length, h.received.received, h.size]

theorem handed_pending (r : Reader) (csid : ℕ) (cs : ChunkStream) (pendingCsid pending : ℕ) :
    handed { r with pendingCsid := pendingCsid, pendingRemaining := pending } csid cs =
      handed r csid cs := rfl

theorem Between.leads (ht : Takes host) (hcsid : 2 ≤ out.csid ∧ out.csid < 8) (hsize : 0 < size)
    (chunks : ℕ) {r : Reader} {cs : ChunkStream} {k : ℕ} (h : Between out field k size r cs)
    (hupper : out.data.length - k ≤ chunks * size)
    (hlower : (chunks - 1) * size < out.data.length - k) (delivered : List Message) :
    Leads host ⟨r, delivered⟩
      (chunkParts size (chunkHead out 3 field) (chunkHead out 3 field) chunks
        (out.data.drop k)).flatten
      ⟨handed r out.csid cs, delivered ++ [⟨cs.type, cs.streamId, cs.timestamp, out.data⟩]⟩ := by
  induction chunks generalizing r cs k with
  | zero =>
    have := h.more
    omega
  | succ chunks ih =>
    have hk := Nat.le_of_lt h.more
    have hmore := h.more
    have hslice : (out.data.drop k).take size ≠ [] := by
      intro hnil
      have : ((out.data.drop k).take size).length = 0 := by rw [hnil]; rfl
      rw [List.length_take, List.length_drop] at this
      omega
    have hhead : chunkHead out 3 field ++ (out.data.drop k).take size ≠ [] := by simp [hslice]
    have hpass := chunk_pass ht h.received hk h.idle (h.parse hcsid) rfl delivered
    have hflat : (chunkParts size (chunkHead out 3 field) (chunkHead out 3 field) (chunks + 1)
        (out.data.drop k)).flatten =
        (chunkHead out 3 field ++ (out.data.drop k).take size) ++
          (chunkParts size (chunkHead out 3 field) (chunkHead out 3 field) chunks
            (out.data.drop (k + size))).flatten := by
      simp [chunkParts, hslice, List.drop_drop]
    rw [hflat]
    by_cases hend : out.data.length ≤ k + size
    · -- the last chunk
      have hzero : chunks = 0 := by
        rcases Nat.eq_zero_or_pos chunks with h0 | hpos
        · exact h0
        · have : size ≤ chunks * size := Nat.le_mul_of_pos_left size hpos
          simp only [Nat.add_sub_cancel] at hlower
          omega
      subst hzero
      simp only [if_pos hend, handed_pending] at hpass
      exact (Leads.of_pass hhead hpass).trans (Leads.refl host _)
    · simp only [if_neg hend] at hpass
      have hlen : ((out.data.drop k).take size).length = size := by
        rw [List.length_take, List.length_drop]
        omega
      have hnext : Between out field (k + size) size
          (advance { r with
              pendingCsid := out.csid
              pendingRemaining := min (out.data.length - k) size } out.csid cs
            ((out.data.drop k).take size))
          (copied cs ((out.data.drop k).take size)) := by
        have hpart := h.received.copied ((out.data.drop k).take size) hk (by rw [hlen])
        rw [hlen] at hpart
        refine ⟨hpart, by simp [advance, setCs], by omega, ?_, h.extended, h.bound, h.size⟩
        have : (advance { r with
              pendingCsid := out.csid
              pendingRemaining := min (out.data.length - k) size } out.csid cs
            ((out.data.drop k).take size)).pendingRemaining =
            min (out.data.length - k) size - ((out.data.drop k).take size).length := rfl
        rw [this, hlen]
        omega
      have hpos : 0 < chunks := by
        rcases Nat.eq_zero_or_pos chunks with h0 | hpos
        · subst h0
          omega
        · exact hpos
      have hmul : (chunks + 1) * size = chunks * size + size := Nat.succ_mul _ _
      have hmul' : chunks * size = (chunks - 1) * size + size := by
        rw [← Nat.succ_mul, Nat.succ_eq_add_one, Nat.sub_add_cancel hpos]
      simp only [Nat.add_sub_cancel] at hlower
      have hrest := ih hnext (by omega) (by omega)
      rw [handed_advance, handed_pending] at hrest
      exact (Leads.of_pass hhead hpass).trans hrest

structure Sync (w : Writer) (r : Reader) : Prop where
  size : r.chunkSize = w.chunkSize
  pos : 0 < w.chunkSize
  pending : r.pendingRemaining = 0
  buffered : r.buffered = 0
  room : r.maxMessage ≤ r.maxBuffered
  idle : ∀ csid cs, r.chunks csid = some cs → cs.payload = none
  known : ∀ csid, w.used csid = true → ∃ cs, r.chunks csid = some cs ∧
    cs.timestamp = w.timestamp csid ∧ cs.streamId = w.streamId csid
  slots : r.used ≤ ((Finset.range maxOutCsid).filter fun i => (r.chunks i).isSome = true).card

theorem format_lt (w : Writer) (out : Outgoing) : format w out < 2 := by
  unfold format
  split_ifs <;> decide

theorem format_one (h : format w out = 1) :
    w.used out.csid = true ∧ w.streamId out.csid = out.streamId := by
  unfold format at h
  split_ifs at h with hused hcond
  exact ⟨by simpa using hused, hcond.2.2⟩

theorem tsField_lt (w : Writer) (out : Outgoing) : tsField w out < 2 ^ 32 := by
  unfold tsField
  split_ifs <;> exact UInt32.toNat_lt _

def slotsWith (r : Reader) (csid : ℕ) : ℕ := if (r.chunks csid).isSome then r.used else r.used + 1

theorem Sync.slotsWith_le (h : Sync w r) (hcsid : csid < maxOutCsid) (cs : ChunkStream) :
    slotsWith r csid ≤ ((Finset.range maxOutCsid).filter fun i =>
      (Function.update r.chunks csid (some cs) i).isSome = true).card := by
  have hslots := h.slots
  by_cases hsome : (r.chunks csid).isSome = true
  · have hsame : ((Finset.range maxOutCsid).filter fun i =>
        (Function.update r.chunks csid (some cs) i).isSome = true) =
        (Finset.range maxOutCsid).filter fun i => (r.chunks i).isSome = true := by
      apply Finset.filter_congr
      intro i _
      by_cases hi : i = csid
      · subst hi
        simp [hsome]
      · rw [Function.update_of_ne hi]
    rw [slotsWith, if_pos hsome, hsame]
    exact hslots
  · have hinsert : ((Finset.range maxOutCsid).filter fun i =>
        (Function.update r.chunks csid (some cs) i).isSome = true) =
        insert csid ((Finset.range maxOutCsid).filter fun i => (r.chunks i).isSome = true) := by
      ext i
      by_cases hi : i = csid
      · subst hi
        simp [hcsid]
      · simp [hi]
    rw [slotsWith, if_neg hsome, hinsert, Finset.card_insert_of_notMem (by simp [hsome])]
    exact Nat.succ_le_succ hslots

theorem Sync.csGet (h : Sync w r) (csid : ℕ) :
    ∃ cs, RtmpReader.csGet r csid true =
        some ({ r with chunks := Function.update r.chunks csid (some cs), used := slotsWith r csid },
          cs) ∧
      cs.payload = none ∧ (w.used csid = true →
        cs.timestamp = w.timestamp csid ∧ cs.streamId = w.streamId csid) := by
  cases hl : r.chunks csid with
  | some cs =>
    refine ⟨cs, ?_, h.idle csid cs hl, ?_⟩
    · have hsame : Function.update r.chunks csid (some cs) = r.chunks := by
        rw [Function.update_eq_self_iff, hl]
      simp [RtmpReader.csGet, slotsWith, hl, hsame]
    · intro hused
      obtain ⟨cs', hl', htime, hid⟩ := h.known csid hused
      rw [hl] at hl'
      cases hl'
      exact ⟨htime, hid⟩
  | none =>
    have hroom : r.used < maxCsid := by
      have hcard := Finset.card_filter_le (Finset.range maxOutCsid)
        fun i => (r.chunks i).isSome = true
      rw [Finset.card_range] at hcard
      have hslots := h.slots
      have : maxOutCsid = 8 := rfl
      have : maxCsid = 64 := rfl
      omega
    refine ⟨ChunkStream.new, ?_, rfl, ?_⟩
    · simp [RtmpReader.csGet, slotsWith, hl, hroom, setCs]
    · intro hused
      obtain ⟨cs', hl', _⟩ := h.known csid hused
      rw [hl] at hl'
      cases hl'

def started (out : Outgoing) (field : ℕ) : ChunkStream :=
  { type := out.type
    streamId := out.streamId
    timestamp := out.timestamp
    delta := UInt32.ofNat field
    length := out.len
    received := 0
    allocated := out.len
    payload := some []
    extended := decide (field ≥ 0xFFFFFF) }

theorem announced_timestamp (h : format w out = 1 → cs.timestamp = w.timestamp out.csid) :
    (announced out cs (format w out) (tsField w out)).timestamp = out.timestamp := by
  unfold announced tsField
  dsimp only
  by_cases h0 : format w out = 0
  · rw [if_pos h0, if_pos h0, UInt32.ofNat_toNat]
  · have h1 : format w out = 1 := by
      have := format_lt w out
      omega
    rw [if_neg h0, if_neg h0, UInt32.ofNat_toNat, h h1, UInt32.add_comm, UInt32.sub_add_cancel]

theorem Sync.parse (h : Sync w r) (ht : Takes host) (hcsid : 2 ≤ out.csid ∧ out.csid < 8)
    (hf : Fits out) (hlen : 0 < out.len) (hmax : out.len ≤ r.maxMessage) (tail : List UInt8) :
    parseHeader host r (chunkHead out (format w out) (tsField w out) ++ tail) =
      .ready { r with
          chunks := Function.update r.chunks out.csid (some (started out (tsField w out)))
          used := slotsWith r out.csid
          buffered := out.len
          pendingCsid := out.csid
          pendingRemaining := min out.len w.chunkSize } out.csid (started out (tsField w out))
        (chunkHead out (format w out) (tsField w out)).length := by
  obtain ⟨cs, hget, hidle, hknown⟩ := h.csGet out.csid
  have hfmt := format_lt w out
  have hone : format w out = 1 →
      cs.timestamp = w.timestamp out.csid ∧ cs.streamId = out.streamId := by
    intro h1
    obtain ⟨hused, hid⟩ := format_one h1
    obtain ⟨htime, hid'⟩ := hknown hused
    exact ⟨htime, hid'.trans hid⟩
  have hcreate : (format w out != 3) = true := by
    rw [bne_iff_ne]
    omega
  unfold parseHeader
  rw [chunkHead_basic hcsid (by omega)]
  dsimp only
  rw [hcreate, hget]
  dsimp only
  rw [messageHeader_chunkHead hfmt hf (tsField_lt w out) (fun h1 => (hone h1).2) hidle]
  dsimp only
  unfold openMessage
  have htime := @announced_timestamp cs w out fun h1 => (hone h1).1
  have hroom : ¬ out.len > r.maxBuffered - 0 := by
    have := h.room
    omega
  simp only [setCs, announced, h.buffered, if_neg (Nat.not_lt.mpr hmax), true_and, if_pos hlen,
    gt_iff_lt, ht.alloc, Function.update_idem, Nat.zero_add, Nat.sub_zero, h.size]
  rw [if_neg (by simpa using hroom)]
  simp only [Bool.true_eq_false, if_false, started]
  unfold announced at htime
  dsimp only at htime
  rw [htime]

theorem data_length (hlen : 0 < out.len) (hnone : ¬ (out.len > 0 ∧ out.payload = none))
    (hrange : ¬ (out.len > 0 ∧ bufSize out.payload < out.offset + out.len)) :
    out.data.length = out.len := by
  cases hp : out.payload with
  | none => exact absurd ⟨hlen, hp⟩ hnone
  | some payload =>
    rw [hp, bufSize_some] at hrange
    rw [Outgoing.data, hp, Option.getD_some, List.length_take, List.length_drop]
    omega

theorem writerMessage_some {w' : Writer} {parts : List (List UInt8)}
    (h : writerMessage true w out = some (w', parts)) (hlen : 0 < out.len) :
    out.data.length = out.len ∧
      w' = { w with
        used := Function.update w.used out.csid true
        streamId := Function.update w.streamId out.csid out.streamId
        timestamp := Function.update w.timestamp out.csid out.timestamp } ∧
      parts = chunkParts w.chunkSize (chunkHead out (format w out) (tsField w out))
        (chunkHead out 3 (tsField w out)) (chunkCount w.chunkSize out.len) out.data := by
  unfold writerMessage at h
  split_ifs at h with h1 h2 h3 h4
  cases h
  exact ⟨data_length hlen h2 h3, rfl, rfl⟩

theorem chunkCount_zero (hsize : 0 < size) : chunkCount size 0 = 1 := by
  have hzero : (0 + size - 1) / size = 0 := Nat.div_eq_of_lt (by omega)
  rw [chunkCount, if_pos hzero]

theorem chunkCount_pos (hsize : 0 < size) {len : ℕ} (hlen : 0 < len) :
    chunkCount size len = (len + size - 1) / size :=
  if_neg (Nat.ne_of_gt (Nat.div_pos (by omega) hsize))

theorem chunkCount_spec (hsize : 0 < size) {len : ℕ} (hlen : 0 < len) :
    0 < chunkCount size len ∧ len ≤ chunkCount size len * size ∧
      (chunkCount size len - 1) * size < len := by
  have hdiv : (len + size - 1) / size * size ≤ len + size - 1 := Nat.div_mul_le_self _ _
  have hmod := Nat.div_add_mod (len + size - 1) size
  have hlt := Nat.mod_lt (len + size - 1) hsize
  have hpos : 0 < (len + size - 1) / size := Nat.div_pos (by omega) hsize
  rw [chunkCount_pos hsize hlen]
  generalize hq : (len + size - 1) / size = q at hdiv hmod hpos
  have hcomm : size * q = q * size := Nat.mul_comm _ _
  have hpred : q * size = (q - 1) * size + size := by
    rw [← Nat.succ_mul, Nat.succ_eq_add_one, Nat.sub_add_cancel hpos]
  exact ⟨hpos, by omega, by omega⟩

theorem Sync.message (h : Sync w r) (ht : Takes host) (hcsid : 2 ≤ out.csid ∧ out.csid < 8)
    (hf : Fits out) (hlen : 0 < out.len) (hmax : out.len ≤ r.maxMessage)
    (htype : out.type ≠ msgChunkSize ∧ out.type ≠ msgAbort) {w' : Writer}
    {parts : List (List UInt8)} (hw : writerMessage true w out = some (w', parts))
    (delivered : List Message) :
    ∃ r', Leads host ⟨r, delivered⟩ parts.flatten ⟨r', delivered ++ [out.message]⟩ ∧ Sync w' r' ∧
      r'.maxMessage = r.maxMessage := by
  obtain ⟨hdata, rfl, rfl⟩ := writerMessage_some hw hlen
  obtain ⟨hcount, hupper, hlower⟩ := chunkCount_spec h.pos hlen
  have hparse := h.parse ht hcsid hf hlen hmax
  generalize hfield : tsField w out = field at hparse ⊢
  generalize hr₁ : ({ r with
    chunks := Function.update r.chunks out.csid (some (started out field))
    used := slotsWith r out.csid
    buffered := out.len
    pendingCsid := out.csid
    pendingRemaining := min out.len w.chunkSize } : Reader) = r₁ at hparse
  have hpartial : Partial out.data 0 (started out field) := ⟨rfl, rfl, hdata.symm, htype⟩
  have hpend : r₁.pendingRemaining = min (out.data.length - 0) w.chunkSize := by
    rw [← hr₁, hdata]
    rfl
  refine ⟨handed r₁ out.csid (started out field), ?_, ?_, ?_⟩
  · -- the first chunk, then the others
    obtain ⟨chunks, hchunks⟩ : ∃ chunks, chunkCount w.chunkSize out.len = chunks + 1 :=
      ⟨chunkCount w.chunkSize out.len - 1, by omega⟩
    rw [hchunks] at hupper hlower ⊢
    simp only [Nat.add_sub_cancel] at hlower
    have hpass := chunk_pass ht hpartial (Nat.zero_le _) h.pending hparse hpend delivered
    rw [List.drop_zero, Nat.zero_add] at hpass
    have hslice : out.data.take w.chunkSize ≠ [] := by
      intro hnil
      have : (out.data.take w.chunkSize).length = 0 := by rw [hnil]; rfl
      rw [List.length_take, hdata] at this
      have := h.pos
      omega
    have hhead : chunkHead out (format w out) field ++ out.data.take w.chunkSize ≠ [] := by
      simp [hslice]
    have hflat : (chunkParts w.chunkSize (chunkHead out (format w out) field)
        (chunkHead out 3 field) (chunks + 1) out.data).flatten =
        (chunkHead out (format w out) field ++ out.data.take w.chunkSize) ++
          (chunkParts w.chunkSize (chunkHead out 3 field) (chunkHead out 3 field) chunks
            (out.data.drop w.chunkSize)).flatten := by
      simp [chunkParts, hslice]
    rw [hflat]
    by_cases hend : out.data.length ≤ w.chunkSize
    · have hzero : chunks = 0 := by
        rcases Nat.eq_zero_or_pos chunks with h0 | hpos
        · exact h0
        · have : w.chunkSize ≤ chunks * w.chunkSize := Nat.le_mul_of_pos_left _ hpos
          omega
      subst hzero
      simp only [if_pos hend] at hpass
      exact (Leads.of_pass hhead hpass).trans (Leads.refl host _)
    · simp only [if_neg hend] at hpass
      have hsize : (out.data.take w.chunkSize).length = w.chunkSize := by
        rw [List.length_take]
        omega
      have hnext : Between out field w.chunkSize w.chunkSize
          (advance r₁ out.csid (started out field) (out.data.take w.chunkSize))
          (copied (started out field) (out.data.take w.chunkSize)) := by
        have hpart := hpartial.copied (out.data.take w.chunkSize) (Nat.zero_le _)
          (by rw [hsize, List.drop_zero])
        rw [hsize, Nat.zero_add] at hpart
        refine ⟨hpart, by simp [advance, setCs], by omega, ?_, rfl, ?_, ?_⟩
        · have : (advance r₁ out.csid (started out field)
              (out.data.take w.chunkSize)).pendingRemaining =
              r₁.pendingRemaining - (out.data.take w.chunkSize).length := rfl
          rw [this, hpend, hsize]
          omega
        · rw [← hr₁]
          exact hmax
        · rw [← hr₁]
          exact h.size
      have hmul : (chunks + 1) * w.chunkSize = chunks * w.chunkSize + w.chunkSize :=
        Nat.succ_mul _ _
      have hpos : 0 < chunks := by
        rcases Nat.eq_zero_or_pos chunks with h0 | hpos
        · subst h0
          omega
        · exact hpos
      have hmul' : chunks * w.chunkSize = (chunks - 1) * w.chunkSize + w.chunkSize := by
        rw [← Nat.succ_mul, Nat.succ_eq_add_one, Nat.sub_add_cancel hpos]
      have hrest := hnext.leads ht hcsid h.pos chunks (by omega) (by omega) delivered
      rw [handed_advance] at hrest
      exact (Leads.of_pass hhead hpass).trans hrest
  · -- both sides have taken the message's time and stream id
    subst hr₁
    have hchunks : ∀ i, (handed { r with
          chunks := Function.update r.chunks out.csid (some (started out field))
          used := slotsWith r out.csid
          buffered := out.len
          pendingCsid := out.csid
          pendingRemaining := min out.len w.chunkSize } out.csid (started out field)).chunks i =
        Function.update r.chunks out.csid (some { started out field with
          payload := none, allocated := 0, received := out.len }) i := by
      intro i
      simp [handed, setCs, started]
    constructor
    · exact h.size
    · exact h.pos
    · rfl
    · simp [handed, setCs, started]
    · exact h.room
    · intro csid cs hcs
      rw [hchunks] at hcs
      by_cases hi : csid = out.csid
      · subst hi
        rw [Function.update_self] at hcs
        cases hcs
        rfl
      · rw [Function.update_of_ne hi] at hcs
        exact h.idle csid cs hcs
    · intro csid hused
      rw [hchunks]
      by_cases hi : csid = out.csid
      · subst hi
        simp [started]
      · simp only [Function.update_of_ne hi] at hused ⊢
        exact h.known csid hused
    · simp only [hchunks]
      exact h.slotsWith_le hcsid.2 _
  · rw [← hr₁]
    rfl

structure Narrow (cs : ChunkStream) : Prop where
  type : cs.type < 2 ^ 8
  streamId : cs.streamId < 2 ^ 32
  length : cs.length < 2 ^ 24

structure NarrowMessage (m : Message) : Prop where
  type : m.type < 2 ^ 8
  streamId : m.streamId < 2 ^ 32
  length : m.payload.length < 2 ^ 24

structure NarrowState (s : State) : Prop where
  chunks : ∀ csid cs, s.reader.chunks csid = some cs → Narrow cs
  delivered : ∀ m ∈ s.delivered, NarrowMessage m

def NarrowReader (r : Reader) : Prop := ∀ csid cs, r.chunks csid = some cs → Narrow cs

theorem NarrowReader.setCs {r : Reader} (h : NarrowReader r) (hcs : Narrow cs) (csid : ℕ) :
    NarrowReader (RtmpReader.setCs r csid cs) := by
  intro i x hx
  have hx' : Function.update r.chunks csid (some cs) i = some x := hx
  by_cases hi : i = csid
  · rw [hi, Function.update_self] at hx'
    cases hx'
    exact hcs
  · rw [Function.update_of_ne hi] at hx'
    exact h i x hx'

theorem new_narrow : Narrow ChunkStream.new := by
  constructor <;> simp [ChunkStream.new]

theorem csGet_narrow {r : Reader} (h : NarrowReader r) {create : Bool} {x : Reader × ChunkStream}
    (hg : csGet r csid create = some x) : NarrowReader x.1 ∧ Narrow x.2 := by
  unfold csGet at hg
  cases hl : r.chunks csid with
  | some cs =>
    simp only [hl] at hg
    cases hg
    exact ⟨h, h csid cs hl⟩
  | none =>
    simp only [hl] at hg
    split_ifs at hg
    cases hg
    exact ⟨h.setCs new_narrow csid, new_narrow⟩

theorem Narrow.fields (h : Narrow cs) (fmt n : ℕ) (bytes : List UInt8) : Narrow (if fmt = 2 then cs
    else { cs with length := be24 bytes (n + 3), type := byteAt bytes (n + 6) }) := by
  split_ifs
  · exact h
  · exact ⟨byteAt_lt _ _, h.streamId, be24_lt _ _⟩

theorem Narrow.stream (h : Narrow cs) (fmt n : ℕ) (bytes : List UInt8) :
    Narrow (if fmt = 0 then { cs with streamId := be32 bytes (n + 7) } else cs) := by
  split_ifs
  · exact ⟨h.type, be32_lt _ _, h.length⟩
  · exact h

theorem Narrow.started (h : Narrow cs) (buffered : ℕ) (p : Prop) [Decidable p] :
    Narrow (if p then release buffered cs else (buffered, cs)).2 := by
  split_ifs
  · exact ⟨h.type, h.streamId, h.length⟩
  · exact h

theorem headerFields_narrow (h : Narrow cs) (buffered fmt n : ℕ) (bytes : List UInt8) :
    Narrow (headerFields buffered cs fmt n bytes).2 := by
  have hread := ((h.fields fmt n bytes).stream fmt n bytes).started buffered
  unfold headerFields
  exact ⟨(hread _).type, (hread _).streamId, (hread _).length⟩

theorem chunkHeader_narrow (h : Narrow cs) (buffered fmt n : ℕ) (bytes : List UInt8) :
    Narrow (chunkHeader buffered cs fmt n bytes).2.1 := by
  have hrepeat : Narrow (repeatHeader cs) := by
    unfold repeatHeader
    split_ifs
    · exact ⟨h.type, h.streamId, h.length⟩
    · exact h
  have hfields := headerFields_narrow h buffered fmt n bytes
  have hstamp : ∀ field, Narrow (stamp fmt field (headerFields buffered cs fmt n bytes).2) :=
    fun field => ⟨hfields.type, hfields.streamId, hfields.length⟩
  unfold chunkHeader continuation messageHeader
  dsimp only
  split_ifs
  · exact hrepeat
  · exact hrepeat
  · exact hrepeat
  · exact h
  · exact hfields
  · exact hstamp _
  · exact hstamp _

theorem openMessage_narrow {r r' : Reader} {cs' : ChunkStream} {csid' h n : ℕ}
    (hr : NarrowReader r) (hcs : Narrow cs)
    (ho : openMessage host r csid cs h = .ready r' csid' cs' n) : NarrowReader r' ∧ Narrow cs' := by
  unfold openMessage at ho
  dsimp only at ho
  split_ifs at ho
  · cases ho
    have hnew : Narrow { cs with payload := some [], allocated := cs.length } :=
      ⟨hcs.type, hcs.streamId, hcs.length⟩
    exact ⟨NarrowReader.setCs hr hnew csid, hnew⟩
  · cases ho
    exact ⟨NarrowReader.setCs hr hcs csid, hcs⟩

theorem openMessage_bad_narrow {r r' : Reader} {h : ℕ} (hr : NarrowReader r)
    (ho : openMessage host r csid cs h = .bad r') : NarrowReader r' := by
  unfold openMessage at ho
  dsimp only at ho
  split_ifs at ho <;> cases ho <;> exact hr

theorem parseHeader_narrow {r : Reader} (hr : NarrowReader r) (bytes : List UInt8) :
    match parseHeader host r bytes with
    | .more r' => NarrowReader r'
    | .bad r' => NarrowReader r'
    | .ready r' _ cs' _ => NarrowReader r' ∧ Narrow cs' := by
  unfold parseHeader
  cases basicHeader bytes with
  | none => exact hr
  | some x =>
    obtain ⟨fmt, csid, h⟩ := x
    dsimp only
    cases hg : csGet r csid (fmt != 3) with
    | none => exact hr
    | some y =>
      obtain ⟨r₀, cs⟩ := y
      obtain ⟨hr₀, hcs⟩ := csGet_narrow hr hg
      have hhead := chunkHeader_narrow hcs r₀.buffered fmt h bytes
      dsimp only at hr₀ hhead ⊢
      rcases hc : chunkHeader r₀.buffered cs fmt h bytes with ⟨buffered, cs₁, _ | n⟩ <;>
        rw [hc] at hhead
      · exact NarrowReader.setCs hr₀ hhead csid
      · have hset : NarrowReader (setCs { r₀ with buffered := buffered } csid cs₁) :=
          NarrowReader.setCs hr₀ hhead csid
        dsimp only
        rcases ho : openMessage host (setCs { r₀ with buffered := buffered } csid cs₁) csid cs₁ n
          with r' | r' | ⟨r', csid', cs', m⟩
        · unfold openMessage at ho
          dsimp only at ho
          split_ifs at ho
        · exact openMessage_bad_narrow hset ho
        · exact openMessage_narrow hset hhead ho

theorem setChunkSize_narrow {r : Reader} (hr : NarrowReader r) (size : ℕ) :
    NarrowReader (setChunkSize r size).1 := by
  unfold setChunkSize
  split_ifs
  · exact hr
  · exact hr

theorem abort_narrow {r : Reader} (hr : NarrowReader r) (csid : ℕ) :
    NarrowReader (abort r csid) := by
  unfold abort
  split
  · next target htarget =>
    split_ifs
    · have hold := hr _ _ htarget
      have hnew : Narrow { (release r.buffered target).2 with received := 0, length := 0 } :=
        ⟨hold.type, hold.streamId, Nat.two_pow_pos 24⟩
      exact @NarrowReader.setCs _ { r with buffered := (release r.buffered target).1 } hr hnew _
    · exact hr
  · exact hr

theorem control_narrow {r : Reader} (hr : NarrowReader r) (payload : Payload) :
    NarrowReader (control r cs payload).1 := by
  unfold RtmpReader.control
  split_ifs
  · exact hr
  · exact hr
  · exact setChunkSize_narrow hr _
  · exact abort_narrow hr _

theorem complete_narrow (hs : NarrowState s) (hcs : Narrow cs) (csid : ℕ) :
    NarrowState (complete host s csid cs).1 := by
  have hr : NarrowReader (setCs { s.reader with buffered := s.reader.buffered - cs.allocated } csid
      { cs with payload := none, allocated := 0 }) := by
    have hnew : Narrow { cs with payload := none, allocated := 0 } :=
      ⟨hcs.type, hcs.streamId, hcs.length⟩
    exact @NarrowReader.setCs _ { s.reader with buffered := s.reader.buffered - cs.allocated }
      hs.chunks hnew csid
  unfold complete
  dsimp only
  cases hp : cs.payload with
  | none => exact ⟨hr, hs.delivered⟩
  | some payload =>
    dsimp only
    have hcontrol := @control_narrow cs _ hr (payload.take cs.length)
    have hm : NarrowMessage ⟨cs.type, cs.streamId, cs.timestamp, payload.take cs.length⟩ := by
      refine ⟨hcs.type, hcs.streamId, ?_⟩
      have hlen := hcs.length
      rw [List.length_take]
      omega
    have hdelivered : ∀ m ∈ s.delivered ++
        [⟨cs.type, cs.streamId, cs.timestamp, payload.take cs.length⟩], NarrowMessage m := by
      intro m hmem
      rcases List.mem_append.mp hmem with hmem | hmem
      · exact hs.delivered m hmem
      · rw [List.mem_singleton.mp hmem]
        exact hm
    split
    · next heq =>
      rw [heq] at hcontrol
      split_ifs
      · exact ⟨hcontrol, hdelivered⟩
      · exact ⟨hcontrol, hdelivered⟩
    · next heq =>
      rw [heq] at hcontrol
      exact ⟨hcontrol, hs.delivered⟩

def stepState : Step → State
  | .stop s => s
  | .fail s _ => s
  | .next s _ => s

theorem stepState_after (x : Step) (n : ℕ) : stepState (x.after n) = stepState x := by
  cases x <;> rfl

theorem payloadStep_narrow (hs : NarrowState s) (hcs : Narrow cs) (csid : ℕ)
    (bytes : List UInt8) : NarrowState (stepState (payloadStep host s csid cs bytes)) := by
  have hcopy : Narrow (copied cs (bytes.take (wanted s.reader cs))) :=
    ⟨hcs.type, hcs.streamId, hcs.length⟩
  have hadv : NarrowReader (advance s.reader csid cs (bytes.take (wanted s.reader cs))) :=
    NarrowReader.setCs hs.chunks hcopy csid
  unfold payloadStep
  dsimp only
  split_ifs
  · have hdone := @complete_narrow host ⟨finish (advance s.reader csid cs
      (bytes.take (wanted s.reader cs))), s.delivered⟩ _ ⟨hadv, hs.delivered⟩ hcopy csid
    rcases hc : complete host ⟨finish (advance s.reader csid cs
      (bytes.take (wanted s.reader cs))), s.delivered⟩ csid
      (copied cs (bytes.take (wanted s.reader cs))) with ⟨t, rc⟩
    rw [hc] at hdone
    cases rc <;> exact hdone
  · exact ⟨hadv, hs.delivered⟩

theorem pass_narrow (hs : NarrowState s) (bytes : List UInt8) :
    NarrowState (stepState (loopStep host s bytes)) := by
  unfold loopStep
  split_ifs
  · cases hcs : s.reader.chunks s.reader.pendingCsid with
    | none => exact ⟨hs.chunks, hs.delivered⟩
    | some cs => exact payloadStep_narrow hs (hs.chunks _ _ hcs) _ bytes
  · have hparse := @parseHeader_narrow host s.reader hs.chunks bytes
    rcases hp : parseHeader host s.reader bytes with r' | r' | ⟨r', csid, cs, h⟩
    · rw [hp] at hparse
      exact ⟨hparse, hs.delivered⟩
    · rw [hp] at hparse
      exact ⟨hparse, hs.delivered⟩
    · rw [hp] at hparse
      dsimp only
      rw [stepState_after]
      have hs' : NarrowState ⟨r', s.delivered⟩ := ⟨hparse.1, hs.delivered⟩
      exact payloadStep_narrow hs' hparse.2 csid _

theorem feedLoop_narrow (hs : NarrowState s) (b : List UInt8) :
    NarrowState (feedLoop host s b).1 := by
  induction hm : measure s b using Nat.strongRecOn generalizing s b with
  | ind k ih =>
    by_cases hne : b = []
    · rw [hne, feedLoop_nil]
      exact hs
    · have hpass := @pass_narrow host s hs b
      rw [feedLoop_pass hne]
      rcases hp : loopStep host s b with t | ⟨t, n⟩ | ⟨t, n⟩
      · rw [hp] at hpass
        exact hpass
      · rw [hp] at hpass
        exact hpass
      · rw [hp] at hpass
        exact ih _ (hm ▸ pass_progress hne hp) hpass (b.drop n) rfl

/-- A message the writer is asked for: a chunk stream of its own range, something to send
that the reader's bound allows, and no message that steers the reader. -/
structure Ordinary (bound : ℕ) (out : Outgoing) : Prop where
  csid : 2 ≤ out.csid ∧ out.csid < 8
  len_pos : 0 < out.len
  len_le : out.len ≤ bound
  type : out.type ≠ msgChunkSize ∧ out.type ≠ msgAbort

def freshReader (chunkSize bound room : ℕ) : Reader :=
  { Reader.init with chunkSize := chunkSize, maxMessage := bound, maxBuffered := room }

theorem freshReader_sync {chunkSize bound room wbound : ℕ} (hpos : 0 < chunkSize)
    (hle : chunkSize ≤ maxChunk) (hroom : bound ≤ room) :
    Sync (Writer.init chunkSize wbound) (freshReader chunkSize bound room) := by
  have hsize : (Writer.init chunkSize wbound).chunkSize = chunkSize := if_pos ⟨hpos, hle⟩
  constructor
  · exact hsize.symm
  · rw [hsize]
    exact hpos
  · rfl
  · rfl
  · exact hroom
  · intro csid cs hcs
    cases hcs
  · intro csid hused
    cases hused
  · exact Nat.zero_le _

theorem Sync.messages {outs : List Outgoing} {bytes : List UInt8} (h : Sync w r) (ht : Takes host)
    (hw : writeAll w outs = some bytes) (hout : ∀ out ∈ outs, Ordinary r.maxMessage out)
    (hf : ∀ out ∈ outs, Fits out) (delivered : List Message) :
    ∃ r', Leads host ⟨r, delivered⟩ bytes ⟨r', delivered ++ outs.map Outgoing.message⟩ := by
  induction outs generalizing w r bytes delivered with
  | nil =>
    cases hw
    refine ⟨r, ?_⟩
    rw [List.map_nil, List.append_nil]
    exact Leads.refl host _
  | cons out rest ih =>
    unfold writeAll at hw
    cases hm : writerMessage true w out with
    | none => simp [hm] at hw
    | some x =>
      obtain ⟨w', parts⟩ := x
      rw [hm] at hw
      obtain ⟨more, hmore, rfl⟩ := Option.map_eq_some_iff.mp hw
      have ho := hout out List.mem_cons_self
      obtain ⟨r₁, hfirst, hsync, hbound⟩ := h.message ht ho.csid (hf out List.mem_cons_self)
        ho.len_pos ho.len_le ho.type hm delivered
      obtain ⟨r₂, hrest⟩ := ih hsync hmore
        (fun x hx => hbound ▸ hout x (List.mem_cons_of_mem _ hx))
        (fun x hx => hf x (List.mem_cons_of_mem _ hx)) (delivered ++ [out.message])
      refine ⟨r₂, ?_⟩
      rw [List.map_cons, List.append_cons]
      exact hfirst.trans hrest

theorem writeAll_data {outs : List Outgoing} {bytes : List UInt8}
    (hw : writeAll w outs = some bytes) (hpos : ∀ out ∈ outs, 0 < out.len) :
    ∀ out ∈ outs, out.data.length = out.len := by
  induction outs generalizing w bytes with
  | nil => simp
  | cons first rest ih =>
    unfold writeAll at hw
    cases hm : writerMessage true w first with
    | none => simp [hm] at hw
    | some x =>
      obtain ⟨w', parts⟩ := x
      rw [hm] at hw
      obtain ⟨more, hmore, rfl⟩ := Option.map_eq_some_iff.mp hw
      intro out hout
      rcases List.mem_cons.mp hout with rfl | hout
      · exact (writerMessage_some hm (hpos _ List.mem_cons_self)).1
      · exact ih hmore (fun x hx => hpos x (List.mem_cons_of_mem _ hx)) out hout

theorem fresh_narrow (chunkSize bound room : ℕ) :
    NarrowState ⟨freshReader chunkSize bound room, []⟩ := by
  constructor
  · intro csid cs hcs
    cases hcs
  · intro m hm
    cases hm

theorem fits_of_delivered {chunkSize bound room : ℕ} {bytes : List UInt8}
    (hmem : out.message ∈ (feedLoop host ⟨freshReader chunkSize bound room, []⟩ bytes).1.delivered)
    (hdata : out.data.length = out.len) : Fits out := by
  have hnarrow := (feedLoop_narrow (fresh_narrow chunkSize bound room) bytes).delivered _ hmem
  refine ⟨?_, hnarrow.type, hnarrow.streamId⟩
  rw [← hdata]
  exact hnarrow.length

/-- What the writer accepts, the reader delivers, message by message and nothing else,
exactly when every message fits the fields of a chunk header. -/
theorem round_trip_iff {chunkSize bound room wbound : ℕ} {outs : List Outgoing}
    {bytes : List UInt8} (ht : Takes host) (hpos : 0 < chunkSize) (hle : chunkSize ≤ maxChunk)
    (hroom : bound ≤ room) (hout : ∀ out ∈ outs, Ordinary bound out)
    (hw : writeAll (Writer.init chunkSize wbound) outs = some bytes) :
    ((feed host ⟨⟨freshReader chunkSize bound room, []⟩, 0⟩ bytes).1.state.delivered =
        outs.map Outgoing.message ∧
      (feed host ⟨⟨freshReader chunkSize bound room, []⟩, 0⟩ bytes).2.2 = .ok) ↔
      ∀ out ∈ outs, Fits out := by
  constructor
  · rintro ⟨hdelivered, _⟩ out hmem
    have hdata := writeAll_data hw (fun x hx => (hout x hx).len_pos) out hmem
    have hloop : (feedLoop host ⟨freshReader chunkSize bound room, []⟩ bytes).1.delivered =
        outs.map Outgoing.message := hdelivered
    have hdel : out.message ∈
        (feedLoop host ⟨freshReader chunkSize bound room, []⟩ bytes).1.delivered := by
      rw [hloop]
      exact List.mem_map_of_mem hmem
    exact fits_of_delivered hdel hdata
  · intro hf
    have hsync := @freshReader_sync chunkSize bound room wbound hpos hle hroom
    obtain ⟨r', hleads⟩ := hsync.messages ht hw hout hf []
    have hloop := hleads []
    rw [List.append_nil, feedLoop_nil, List.nil_append] at hloop
    have hfeed : feed host ⟨⟨freshReader chunkSize bound room, []⟩, 0⟩ bytes =
        (⟨⟨r', outs.map Outgoing.message⟩, 0 + bytes.length⟩, bytes.length, .ok) := by
      unfold feed
      dsimp only
      rw [hloop]
      rfl
    rw [hfeed]
    exact ⟨rfl, rfl⟩

/-- Three messages: a command, a keyframe at a time past the 24-bit field in two chunks, and
one that follows it on the same chunk stream. -/
def threeMessages : List Outgoing :=
  [⟨3, 20, 0, 0, some [1, 2], 0, 2⟩, ⟨6, 9, 1, 0x1000000, some [3, 4, 5], 0, 3⟩,
    ⟨6, 9, 1, 0x1000028, some [6], 0, 1⟩]

theorem round_trip_three_messages :
    (feed willing ⟨⟨freshReader 2 16 16, []⟩, 0⟩
      ((writeAll (Writer.init 2 0) threeMessages).getD [])).1.state.delivered =
      [⟨20, 0, 0, [1, 2]⟩, ⟨9, 1, 0x1000000, [3, 4, 5]⟩, ⟨9, 1, 0x1000028, [6]⟩] := by
  have hw : writeAll (Writer.init 2 0) threeMessages =
      some ((writeAll (Writer.init 2 0) threeMessages).getD []) := by decide +kernel
  refine ((round_trip_iff ⟨fun _ => rfl, fun _ _ => rfl⟩ (by decide) (by decide) (Nat.le_refl 16)
    ?_ hw).mpr ?_).1
  · intro out hout
    simp only [threeMessages, List.mem_cons, List.not_mem_nil, or_false] at hout
    rcases hout with rfl | rfl | rfl <;> constructor <;> decide
  · intro out hout
    simp only [threeMessages, List.mem_cons, List.not_mem_nil, or_false] at hout
    rcases hout with rfl | rfl | rfl <;> constructor <;> decide

def keyframe (payload : Payload) : Outgoing := ⟨6, 9, 1, 0, some payload, 0, payload.length⟩

theorem keyframe_ordinary {payload : Payload} (hlen : payload.length = 16777216) :
    Ordinary RtmpReader.maxMessage (keyframe payload) := by
  refine ⟨⟨?_, ?_⟩, ?_, ?_, ?_, ?_⟩
  · exact Nat.le_of_ble_eq_true rfl
  · exact Nat.le_of_ble_eq_true rfl
  · simp [keyframe, hlen]
  · simp [keyframe, hlen, RtmpReader.maxMessage]
  · simp [keyframe, msgChunkSize]
  · simp [keyframe, msgAbort]

theorem keyframe_written {payload : Payload} (hlen : payload.length = 16777216) :
    ∃ x, writerMessage true (Writer.init 65536 0) (keyframe payload) = some x := by
  have hcount : chunkCount (Writer.init 65536 0).chunkSize 16777216 = 256 := by decide
  have hmax : (Writer.init 65536 0).maxMessage = 16777216 := by decide
  unfold writerMessage keyframe
  dsimp only
  rw [hlen, hmax, hcount, if_neg (by decide), if_neg (by simp), if_neg (by simp [hlen]),
    if_neg (by decide), if_neg (by decide)]
  exact ⟨_, rfl⟩

theorem keyframe_lost {payload : Payload} (hlen : payload.length = 16777216) :
    ∃ bytes, writeAll (Writer.init 65536 0) [keyframe payload] = some bytes ∧
      (feed willing ⟨⟨freshReader 65536 RtmpReader.maxMessage maxBuffered, []⟩, 0⟩
        bytes).1.state.delivered ≠ [(keyframe payload).message] := by
  obtain ⟨⟨w', parts⟩, hw⟩ := keyframe_written hlen
  refine ⟨parts.flatten ++ [], by simp [writeAll, hw], ?_⟩
  intro hdelivered
  have hmem : (keyframe payload).message ∈ (feedLoop willing
      ⟨freshReader 65536 RtmpReader.maxMessage maxBuffered, []⟩ (parts.flatten ++ [])).1.delivered := by
    have hloop : (feedLoop willing ⟨freshReader 65536 RtmpReader.maxMessage maxBuffered, []⟩
        (parts.flatten ++ [])).1.delivered = [(keyframe payload).message] := hdelivered
    rw [hloop]
    exact List.mem_singleton_self _
  have hfits := fits_of_delivered hmem
    (writerMessage_some hw (keyframe_ordinary hlen).len_pos).1
  have hshort : payload.length < 2 ^ 24 := hfits.len
  rw [hlen] at hshort
  exact absurd hshort (by decide)

/-- The longest message the writer accepts is within the bounds of both sides and never comes
out again: its length does not fit the header. -/
theorem longest_message_lost :
    Ordinary RtmpReader.maxMessage (keyframe (List.replicate 16777216 0)) ∧
      ∃ bytes, writeAll (Writer.init 65536 0) [keyframe (List.replicate 16777216 0)] = some bytes ∧
        (feed willing ⟨⟨freshReader 65536 RtmpReader.maxMessage maxBuffered, []⟩, 0⟩
          bytes).1.state.delivered ≠ [(keyframe (List.replicate 16777216 0)).message] :=
  ⟨keyframe_ordinary List.length_replicate, keyframe_lost List.length_replicate⟩

end RtmpWriter
