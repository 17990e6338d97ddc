import NginxMedia.RtmpWriter

/-! The output queue of an RTMP connection: the chain of buffers that is still unsent, with the
counters its admission goes by. A player session and a destination keep one each; they differ
in the number of buffers they may hold. -/
namespace RtmpOutput

open MediaTypes RtmpWriter

structure Limits where
  maxQueue : ℕ
  maxBytes : ℕ
  deriving DecidableEq, Repr

/-- `NGX_MEDIA_RTMP_MAX_OUT_QUEUE`, `NGX_MEDIA_RTMP_MAX_OUT_BYTES`. -/
def playerLimits : Limits := ⟨64, 512 * 1024⟩

/-- `NGX_MEDIA_RTMP_DEST_MAX_QUEUE`, `NGX_MEDIA_RTMP_DEST_MAX_BYTES`. -/
def destLimits : Limits := ⟨128, 512 * 1024⟩

/-- `NGX_MEDIA_RTMP_OUT_CHUNK`, `NGX_MEDIA_RTMP_DEST_CHUNK`. -/
def outChunk : ℕ := 4096

/-- The unsent bytes of a buffer; `memory` marks a slice of a shared payload. -/
structure Buf where
  memory : Bool
  data : List UInt8
  deriving DecidableEq, Repr

def totalBytes (bufs : List Buf) : ℕ := (bufs.map fun b => b.data.length).sum

def references (bufs : List Buf) : ℕ := bufs.countP Buf.memory

structure Output where
  writer : Writer
  out : List Buf
  outQueue : ℕ
  outBytes : ℕ
  inFlight : ℕ

def Output.init : Output := ⟨Writer.init outChunk RtmpReader.maxMessage, [], 0, 0, 0⟩

structure Memory where
  packet : Bool
  chain : Bool
  deriving DecidableEq, Repr

def Memory.ample : Memory := ⟨true, true⟩

def footprint (w : Writer) (len : ℕ) : Option (ℕ × ℕ) :=
  if w.chunkSize = 0 ∨ len > w.maxMessage then none
  else if len = 0 then some (1, 0)
  else
    let chunks := (len + w.chunkSize - 1) / w.chunkSize
    if chunks * 2 > maxOutParts then none else some (chunks * 2, chunks)

def chunkBufs (size : ℕ) (head next : List UInt8) : ℕ → Payload → List Buf
  | 0, _ => []
  | chunks + 1, data =>
    ⟨false, head⟩ :: ((if data.take size = [] then [] else [⟨true, data.take size⟩]) ++
      chunkBufs size next next chunks (data.drop size))

def packetBufs (w : Writer) (out : Outgoing) : List Buf :=
  chunkBufs w.chunkSize (chunkHead out (format w out) (tsField w out))
    (chunkHead out 3 (tsField w out)) (chunkCount w.chunkSize out.len) out.data

/-- The loop that adds up the parts of a packet and stops where they pass the bound. -/
def wireBytes (maxBytes : ℕ) : ℕ → List Buf → Option ℕ
  | wire, [] => some wire
  | wire, b :: rest =>
    if b.data.length > maxBytes ∨ wire > maxBytes - b.data.length then none
    else wireBytes maxBytes (wire + b.data.length) rest

def Output.append (o : Output) (w : Writer) (bufs : List Buf) (wire : ℕ) : Output :=
  { writer := w
    out := o.out ++ bufs
    outQueue := o.outQueue + bufs.length
    outBytes := o.outBytes + wire
    inFlight := o.inFlight + references bufs }

def queueMessage (lim : Limits) (mem : Memory) (o : Output) (out : Outgoing)
    (maxWire : Option ℕ) : Output × Rc × ℕ :=
  match footprint o.writer out.len with
  | none => (o, .again, 0)
  | some (parts, refs) =>
    if o.outQueue + parts > lim.maxQueue ∨ o.inFlight + refs > lim.maxQueue then (o, .again, 0)
    else
      match writerMessage mem.packet o.writer out with
      | none => (o, .error, 0)
      | some (w, _) =>
        match wireBytes lim.maxBytes 0 (packetBufs o.writer out) with
        | none => (o, .again, 0)
        | some wire =>
          if maxWire.any fun budget => decide (wire > budget) then (o, .declined, 0)
          else if o.outBytes > lim.maxBytes - wire then (o, .again, 0)
          else if mem.chain = false then (o, .error, 0)
          else (o.append w (packetBufs o.writer out) wire, .ok, wire)

def queueRaw (lim : Limits) (mem : Bool) (o : Output) (data : List UInt8) : Output × Rc :=
  if o.outQueue + 1 > lim.maxQueue ∨ data.length > lim.maxBytes ∨
      o.outBytes > lim.maxBytes - data.length then (o, .again)
  else if mem = false then (o, .error)
  else
    ({ o with
        out := o.out ++ [⟨false, data⟩]
        outQueue := o.outQueue + 1
        outBytes := o.outBytes + data.length }, .ok)

/-- What `send_chain()` leaves of a chain when the socket takes `n` bytes. -/
def unsent : ℕ → List Buf → List Buf
  | 0, bufs => bufs
  | _, [] => []
  | n + 1, b :: rest =>
    if b.data.length ≤ n + 1 then unsent (n + 1 - b.data.length) rest
    else ⟨b.memory, b.data.drop (n + 1)⟩ :: rest

/-- `ngx_media_rtmp_flush()` and `ngx_media_rtmp_dest_flush()` of a queue that is not empty,
when the socket takes `n` bytes. -/
def flush (n : ℕ) (o : Output) : Output :=
  let rest := unsent n o.out
  let gone := o.out.take (o.out.length - rest.length)
  { o with
    out := rest
    outQueue := o.outQueue - gone.length
    outBytes := totalBytes rest
    inFlight := o.inFlight - references gone }

structure Sound (lim : Limits) (o : Output) : Prop where
  queue : o.outQueue = o.out.length
  bytes : o.outBytes = totalBytes o.out
  refs : o.inFlight = references o.out
  queue_le : o.outQueue ≤ lim.maxQueue
  bytes_le : o.outBytes ≤ lim.maxBytes
  chunkSize : o.writer.chunkSize = outChunk
  maxMessage : o.writer.maxMessage = RtmpReader.maxMessage

variable {lim : Limits} {mem : Memory} {o : Output} {out : Outgoing} {maxWire : Option ℕ}
  {size : ℕ} {head next : List UInt8} {data : Payload}

theorem init_sound (lim : Limits) : Sound lim Output.init := by
  constructor
  · rfl
  · rfl
  · rfl
  · exact Nat.zero_le _
  · exact Nat.zero_le _
  · rfl
  · rfl

theorem totalBytes_append (a b : List Buf) : totalBytes (a ++ b) = totalBytes a + totalBytes b := by
  simp [totalBytes]

theorem references_append (a b : List Buf) : references (a ++ b) = references a + references b :=
  List.countP_append

theorem chunkBufs_data (chunks : ℕ) :
    (chunkBufs size head next chunks data).map Buf.data = chunkParts size head next chunks data := by
  induction chunks generalizing head data with
  | zero => rfl
  | succ chunks ih =>
    rw [chunkBufs, chunkParts, List.map_cons, List.map_append, ih]
    split_ifs <;> rfl

theorem chunkBufs_count (hsize : 0 < size) {chunks : ℕ} (hlast : (chunks - 1) * size < data.length) :
    (chunkBufs size head next chunks data).length = chunks * 2 ∧
      references (chunkBufs size head next chunks data) = chunks := by
  induction chunks generalizing head data with
  | zero => exact ⟨rfl, rfl⟩
  | succ chunks ih =>
    have hpos : 0 < data.length := by omega
    have hslice : data.take size ≠ [] := by
      rw [← List.length_pos_iff, List.length_take]
      omega
    have hrest : (chunks - 1) * size < (data.drop size).length ∨ chunks = 0 := by
      rcases Nat.eq_zero_or_pos chunks with hzero | hchunks
      · exact Or.inr hzero
      · left
        have hsplit : chunks * size = (chunks - 1) * size + size := by
          rw [← Nat.succ_mul, Nat.succ_eq_add_one, Nat.sub_add_cancel hchunks]
        rw [List.length_drop]
        rw [Nat.add_sub_cancel] at hlast
        omega
    rw [chunkBufs, if_neg hslice, List.singleton_append]
    rcases hrest with hrest | rfl
    · obtain ⟨hlength, hrefs⟩ := @ih next _ hrest
      constructor
      · rw [List.length_cons, List.length_cons, hlength]
        omega
      · have hcons : references (⟨false, head⟩ :: ⟨true, data.take size⟩ ::
            chunkBufs size next next chunks (data.drop size)) =
            references (chunkBufs size next next chunks (data.drop size)) + 1 := by
          simp [references]
        rw [hcons, hrefs]
    · exact ⟨rfl, rfl⟩

theorem chunkBufs_bytes {bound : ℕ} (hhead : head.length ≤ bound) (hnext : next.length ≤ bound)
    (chunks : ℕ) :
    totalBytes (chunkBufs size head next chunks data) ≤ data.length + bound * chunks := by
  induction chunks generalizing head data with
  | zero => exact Nat.zero_le _
  | succ chunks ih =>
    have hrest := @ih next (data.drop size) hnext
    have hslice : totalBytes (if data.take size = [] then [] else [⟨true, data.take size⟩]) =
        (data.take size).length := by
      by_cases h : data.take size = []
      · rw [if_pos h, h]
        rfl
      · rw [if_neg h]
        simp [totalBytes]
    have hdata : (data.take size).length + (data.drop size).length = data.length := by
      rw [← List.length_append, List.take_append_drop]
    have hcons : totalBytes (chunkBufs size head next (chunks + 1) data) =
        head.length + ((data.take size).length +
          totalBytes (chunkBufs size next next chunks (data.drop size))) := by
      rw [chunkBufs, ← hslice, ← totalBytes_append]
      simp [totalBytes]
    rw [hcons, Nat.mul_succ]
    omega

theorem chunkHead_length_le (out : Outgoing) (fmt field : ℕ) :
    (chunkHead out fmt field).length ≤ 16 := by
  unfold chunkHead ByteString.put24 ByteString.put32
  dsimp only
  split_ifs <;> simp

theorem wireBytes_some {maxBytes wire : ℕ} {bufs : List Buf}
    (h : wire + totalBytes bufs ≤ maxBytes) :
    wireBytes maxBytes wire bufs = some (wire + totalBytes bufs) := by
  induction bufs generalizing wire with
  | nil => rfl
  | cons b rest ih =>
    have hcons : totalBytes (b :: rest) = b.data.length + totalBytes rest := by simp [totalBytes]
    rw [hcons] at h ⊢
    rw [wireBytes, if_neg (by omega), ih (by omega), Nat.add_assoc]

theorem wireBytes_eq {maxBytes wire total : ℕ} {bufs : List Buf}
    (h : wireBytes maxBytes wire bufs = some total) (hwire : wire ≤ maxBytes) :
    total = wire + totalBytes bufs ∧ total ≤ maxBytes := by
  induction bufs generalizing wire with
  | nil =>
    cases h
    exact ⟨rfl, hwire⟩
  | cons b rest ih =>
    have hcons : totalBytes (b :: rest) = b.data.length + totalBytes rest := by simp [totalBytes]
    rw [wireBytes] at h
    split_ifs at h with hover
    obtain ⟨htotal, hle⟩ := ih h (by omega)
    exact ⟨by omega, hle⟩

theorem packetBufs_count {w : Writer} {parts refs : ℕ} (hsize : 0 < w.chunkSize)
    (hdata : out.data.length = out.len) (h : footprint w out.len = some (parts, refs)) :
    (packetBufs w out).length = parts ∧ references (packetBufs w out) = refs := by
  unfold footprint at h
  dsimp only at h
  split_ifs at h with h1 h2 h3
  · cases h
    have hempty : out.data = [] := List.length_eq_zero_iff.mp (hdata.trans h2)
    unfold packetBufs
    rw [h2, chunkCount_zero hsize, hempty]
    simp [chunkBufs, references]
  · cases h
    obtain ⟨hpos, -, hlast⟩ := chunkCount_spec hsize (Nat.pos_of_ne_zero h2)
    have hcount := chunkCount_pos hsize (Nat.pos_of_ne_zero h2)
    rw [hcount] at hlast
    rw [packetBufs, hcount]
    exact chunkBufs_count hsize (hlast.trans_eq hdata.symm)

theorem packetBufs_bytes (w : Writer) (out : Outgoing) :
    totalBytes (packetBufs w out) ≤ out.data.length + 16 * chunkCount w.chunkSize out.len :=
  chunkBufs_bytes (chunkHead_length_le _ _ _) (chunkHead_length_le _ _ _) _

theorem writerMessage_keeps {memory : Bool} {w w' : Writer} {parts : List (List UInt8)}
    (h : writerMessage memory w out = some (w', parts)) :
    w'.chunkSize = w.chunkSize ∧ w'.maxMessage = w.maxMessage ∧ out.data.length = out.len := by
  unfold writerMessage at h
  split_ifs at h with h1 h2 h3
  cases h
  refine ⟨rfl, rfl, ?_⟩
  rcases Nat.eq_zero_or_pos out.len with hzero | hpos
  · simp [Outgoing.data, hzero]
  · exact data_length hpos h2 h3

inductive Queued (lim : Limits) (mem : Memory) (o : Output) (out : Outgoing) :
    Output × Rc × ℕ → Prop where
  | refused (rc : Rc) (h : rc ≠ .ok) : Queued lim mem o out (o, rc, 0)
  | queued (w : Writer) (parts refs wire : ℕ) (data : List (List UInt8))
      (hfoot : footprint o.writer out.len = some (parts, refs))
      (hqueue : o.outQueue + parts ≤ lim.maxQueue) (hrefs : o.inFlight + refs ≤ lim.maxQueue)
      (hwriter : writerMessage mem.packet o.writer out = some (w, data))
      (hwire : wireBytes lim.maxBytes 0 (packetBufs o.writer out) = some wire)
      (hbytes : o.outBytes ≤ lim.maxBytes - wire) :
      Queued lim mem o out (o.append w (packetBufs o.writer out) wire, .ok, wire)

theorem queueMessage_cases (lim : Limits) (mem : Memory) (o : Output) (out : Outgoing)
    (maxWire : Option ℕ) : Queued lim mem o out (queueMessage lim mem o out maxWire) := by
  unfold queueMessage
  split
  · exact .refused _ (by decide)
  rename_i parts refs hfoot
  split
  · exact .refused _ (by decide)
  rename_i hroom
  split
  · exact .refused _ (by decide)
  rename_i w data hwriter
  split
  · exact .refused _ (by decide)
  rename_i wire hwire
  split
  · exact .refused _ (by decide)
  split
  · exact .refused _ (by decide)
  rename_i hbytes
  split
  · exact .refused _ (by decide)
  · exact .queued w parts refs wire data hfoot (by omega) (by omega) hwriter hwire (by omega)

theorem Sound.queueMessage (h : Sound lim o) (mem : Memory) (out : Outgoing)
    (maxWire : Option ℕ) : Sound lim (queueMessage lim mem o out maxWire).1 := by
  have hcases := queueMessage_cases lim mem o out maxWire
  generalize RtmpOutput.queueMessage lim mem o out maxWire = result at hcases ⊢
  cases hcases with
  | refused rc _ => exact h
  | queued w parts refs wire data hfoot hqueue hrefs hwriter hwire hbytes =>
    obtain ⟨hchunk, hmax, hdata⟩ := writerMessage_keeps hwriter
    obtain ⟨htotal, hle⟩ := wireBytes_eq hwire (Nat.zero_le _)
    have hsize : 0 < o.writer.chunkSize := by
      rw [h.chunkSize]
      decide
    obtain ⟨hlength, -⟩ := packetBufs_count hsize hdata hfoot
    constructor
    · change o.outQueue + _ = (o.out ++ _).length
      rw [List.length_append, h.queue]
    · change o.outBytes + wire = totalBytes (o.out ++ _)
      rw [totalBytes_append, h.bytes, htotal, Nat.zero_add]
    · change o.inFlight + _ = references (o.out ++ _)
      rw [references_append, h.refs]
    · change o.outQueue + _ ≤ lim.maxQueue
      omega
    · change o.outBytes + wire ≤ lim.maxBytes
      omega
    · exact hchunk.trans h.chunkSize
    · exact hmax.trans h.maxMessage

theorem Sound.queueRaw (h : Sound lim o) (mem : Bool) (data : List UInt8) :
    Sound lim (queueRaw lim mem o data).1 := by
  unfold RtmpOutput.queueRaw
  split
  · exact h
  split
  · exact h
  rename_i hroom _
  constructor
  · change o.outQueue + 1 = (o.out ++ _).length
    rw [List.length_append, h.queue]
    rfl
  · change o.outBytes + data.length = totalBytes (o.out ++ _)
    rw [totalBytes_append, h.bytes]
    simp [totalBytes]
  · change o.inFlight = references (o.out ++ _)
    rw [references_append, h.refs]
    rfl
  · change o.outQueue + 1 ≤ lim.maxQueue
    omega
  · change o.outBytes + data.length ≤ lim.maxBytes
    omega
  · exact h.chunkSize
  · exact h.maxMessage

theorem unsent_spec (n : ℕ) (bufs : List Buf) :
    (unsent n bufs).length ≤ bufs.length ∧
      references (unsent n bufs) =
        references (bufs.drop (bufs.length - (unsent n bufs).length)) ∧
      totalBytes (unsent n bufs) ≤ totalBytes bufs := by
  induction bufs generalizing n with
  | nil => cases n <;> exact ⟨le_rfl, rfl, le_rfl⟩
  | cons b rest ih =>
    cases n with
    | zero => simp [unsent]
    | succ n =>
      have hcons : totalBytes (b :: rest) = b.data.length + totalBytes rest := by
        simp [totalBytes]
      rw [unsent]
      split_ifs with hwhole
      · obtain ⟨hlength, hrefs, hbytes⟩ := ih (n + 1 - b.data.length)
        refine ⟨by simp only [List.length_cons]; omega, ?_, by omega⟩
        rw [hrefs, List.length_cons, Nat.succ_sub hlength, List.drop_succ_cons]
      · have hpart : totalBytes (⟨b.memory, b.data.drop (n + 1)⟩ :: rest) =
            (b.data.drop (n + 1)).length + totalBytes rest := by simp [totalBytes]
        rw [hpart, List.length_drop, hcons]
        refine ⟨le_rfl, ?_, by omega⟩
        simp only [List.length_cons, Nat.sub_self, List.drop_zero]
        cases b
        simp [references, List.countP_cons]

theorem Sound.flush (h : Sound lim o) (n : ℕ) : Sound lim (flush n o) := by
  obtain ⟨hlength, hrefs, hbytes⟩ := unsent_spec n o.out
  have hgone : (o.out.take (o.out.length - (unsent n o.out).length)).length =
      o.out.length - (unsent n o.out).length := by
    rw [List.length_take]
    omega
  have hsplit : references (o.out.take (o.out.length - (unsent n o.out).length)) +
      references (unsent n o.out) = references o.out := by
    rw [hrefs, ← references_append, List.take_append_drop]
  constructor
  · change o.outQueue - _ = (unsent n o.out).length
    rw [hgone, h.queue]
    omega
  · rfl
  · change o.inFlight - _ = references (unsent n o.out)
    rw [h.refs]
    omega
  · change o.outQueue - _ ≤ lim.maxQueue
    have := h.queue_le
    omega
  · change totalBytes (unsent n o.out) ≤ lim.maxBytes
    have hle := h.bytes_le
    rw [h.bytes] at hle
    omega
  · exact h.chunkSize
  · exact h.maxMessage

theorem Sound.inFlight_le (h : Sound lim o) : o.inFlight ≤ o.outQueue := by
  rw [h.refs, h.queue]
  exact List.countP_le_length

/-- What is done to an output queue, with what memory and the socket make of it. -/
inductive Op where
  | message (mem : Memory) (out : Outgoing) (maxWire : Option ℕ)
  | raw (mem : Bool) (data : List UInt8)
  | flush (n : ℕ)

def step (lim : Limits) (o : Output) : Op → Output
  | .message mem out maxWire => (queueMessage lim mem o out maxWire).1
  | .raw mem data => (queueRaw lim mem o data).1
  | .flush n => flush n o

def run (lim : Limits) (ops : List Op) : Output := ops.foldl (step lim) Output.init

theorem Sound.step (h : Sound lim o) (op : Op) : Sound lim (step lim o op) := by
  cases op with
  | message mem out maxWire => exact h.queueMessage mem out maxWire
  | raw mem data => exact h.queueRaw mem data
  | flush n => exact h.flush n

theorem run_sound (lim : Limits) (ops : List Op) : Sound lim (run lim ops) :=
  StepRun.invariant (fun _ op h => h.step op) (init_sound lim) ops

/-- The buffers of a whole payload of `len` bytes. -/
def partsOf (len : ℕ) : ℕ := if len = 0 then 1 else (len + outChunk - 1) / outChunk * 2

def whole (csid type streamId : ℕ) (timestamp : UInt32) (payload : Payload) : Outgoing :=
  ⟨csid, type, streamId, timestamp, some payload, 0, payload.length⟩

theorem partsOf_pos (len : ℕ) : 0 < partsOf len := by
  unfold partsOf
  split_ifs with h
  · exact Nat.one_pos
  · have : 0 < (len + outChunk - 1) / outChunk :=
      Nat.div_pos (by rw [outChunk]; omega) (by decide)
    omega

theorem partsOf_le_iff {len chunks : ℕ} (hpos : 0 < chunks) :
    partsOf len ≤ chunks * 2 ↔ len ≤ chunks * outChunk := by
  unfold partsOf outChunk
  split_ifs with h
  · omega
  · omega

theorem length_le_parts (len : ℕ) : len ≤ partsOf len * 2048 := by
  unfold partsOf outChunk
  split_ifs with h
  · omega
  · omega

theorem Sound.footprint (h : Sound lim o) (len : ℕ) :
    footprint o.writer len =
      if partsOf len ≤ maxOutParts then some (partsOf len, partsOf len / 2) else none := by
  unfold RtmpOutput.footprint partsOf
  rw [h.chunkSize, h.maxMessage]
  by_cases hzero : len = 0
  · subst len
    rfl
  · rw [if_neg hzero, if_neg hzero]
    unfold outChunk maxOutParts RtmpReader.maxMessage
    dsimp only
    by_cases hparts : (len + 4096 - 1) / 4096 * 2 ≤ 512
    · rw [if_neg (by omega), if_neg (by omega), if_pos hparts, Nat.mul_div_cancel _ Nat.two_pos]
    · rw [if_neg hparts, if_pos (show (len + 4096 - 1) / 4096 * 2 > 512 by omega)]
      split_ifs <;> rfl

theorem Sound.chunkCount (h : Sound lim o) (len : ℕ) :
    RtmpWriter.chunkCount o.writer.chunkSize len * 2 ≤ partsOf len + 1 := by
  unfold RtmpWriter.chunkCount partsOf
  rw [h.chunkSize]
  unfold outChunk
  by_cases hzero : len = 0
  · subst len
    decide
  · rw [if_neg hzero, if_neg (by omega)]
    omega

theorem Sound.writerMessage (h : Sound lim o) {csid : ℕ} (type streamId : ℕ) (timestamp : UInt32)
    {payload : Payload} (hcsid : csid < maxOutCsid) (hparts : partsOf payload.length ≤ maxOutParts) :
    ∃ w parts, RtmpWriter.writerMessage true o.writer
      (whole csid type streamId timestamp payload) = some (w, parts) := by
  have hcount := h.chunkCount payload.length
  have hlength := length_le_parts payload.length
  have hmax := h.maxMessage
  unfold maxOutParts at hparts
  unfold RtmpReader.maxMessage at hmax
  unfold RtmpWriter.writerMessage whole maxOutParts
  dsimp only
  rw [if_neg (by omega), if_neg (by simp), if_neg (by simp), if_neg (by omega), if_neg (by simp)]
  exact ⟨_, _, rfl⟩

def BytesRoom (lim : Limits) (o : Output) : Prop :=
  ∀ parts, o.outQueue + parts ≤ lim.maxQueue → o.outBytes + parts * 2064 ≤ lim.maxBytes

theorem Sound.admits (h : Sound lim o) (hlim : lim.maxQueue ≤ maxOutParts) {csid : ℕ}
    (type streamId : ℕ) (timestamp : UInt32) (payload : Payload) (hcsid : csid < maxOutCsid)
    (hroom : BytesRoom lim o) {maxWire : Option ℕ} (hwire : ∀ budget ∈ maxWire, lim.maxBytes ≤ budget) :
    if o.outQueue + partsOf payload.length ≤ lim.maxQueue then
      ∃ o' wire, RtmpOutput.queueMessage lim .ample o (whole csid type streamId timestamp payload) maxWire =
        (o', .ok, wire) ∧ o'.outQueue = o.outQueue + partsOf payload.length ∧
        o'.outBytes ≤ o.outBytes + partsOf payload.length * 2064
    else RtmpOutput.queueMessage lim .ample o (whole csid type streamId timestamp payload) maxWire =
      (o, .again, 0) := by
  have hfoot := h.footprint payload.length
  have hrefs := h.inFlight_le
  split_ifs with hparts
  · obtain ⟨w, data, hwriter⟩ := h.writerMessage type streamId timestamp hcsid
      (show partsOf payload.length ≤ maxOutParts by omega)
    rw [if_pos (by omega)] at hfoot
    obtain ⟨-, -, hdata⟩ := writerMessage_keeps hwriter
    have hsize : 0 < o.writer.chunkSize := by
      rw [h.chunkSize]
      decide
    obtain ⟨hlength, -⟩ := packetBufs_count hsize hdata hfoot
    have hpacket := packetBufs_bytes o.writer (whole csid type streamId timestamp payload)
    set bufs := packetBufs o.writer (whole csid type streamId timestamp payload) with hbufs
    have hbytes : totalBytes bufs ≤ partsOf payload.length * 2064 := by
      have hcount := h.chunkCount payload.length
      have hpos := partsOf_pos payload.length
      have hlen := length_le_parts payload.length
      rw [hdata] at hpacket
      change _ ≤ payload.length + 16 * RtmpWriter.chunkCount o.writer.chunkSize payload.length
        at hpacket
      omega
    have hfits := hroom _ hparts
    have hsum := @wireBytes_some lim.maxBytes 0 bufs (by omega)
    rw [Nat.zero_add] at hsum
    have hbudget : (maxWire.any fun budget => decide (totalBytes bufs > budget)) = false := by
      cases maxWire with
      | none => rfl
      | some budget =>
        have := hwire budget rfl
        simp only [Option.any_some, decide_eq_false_iff_not]
        omega
    refine ⟨o.append w bufs (totalBytes bufs), totalBytes bufs, ?_,
      congrArg (o.outQueue + ·) hlength, Nat.add_le_add_left hbytes _⟩
    unfold RtmpOutput.queueMessage
    rw [show (whole csid type streamId timestamp payload).len = payload.length from rfl, hfoot]
    dsimp only
    rw [if_neg (by omega), show Memory.ample.packet = true from rfl, hwriter]
    dsimp only
    rw [← hbufs, hsum]
    dsimp only
    rw [hbudget, if_neg (by decide), if_neg (by omega), if_neg (by decide)]
  · unfold RtmpOutput.queueMessage
    rw [show (whole csid type streamId timestamp payload).len = payload.length from rfl, hfoot]
    by_cases hmax : partsOf payload.length ≤ maxOutParts
    · rw [if_pos hmax]
      dsimp only
      rw [if_pos (Or.inl (by omega))]
    · rw [if_neg hmax]

theorem Sound.no_error (h : Sound lim o) {csid : ℕ} (type streamId : ℕ) (timestamp : UInt32)
    (payload : Payload) (hcsid : csid < maxOutCsid) (maxWire : Option ℕ) :
    (RtmpOutput.queueMessage lim .ample o (whole csid type streamId timestamp payload)
      maxWire).2.1 ≠ .error := by
  have hfoot := h.footprint payload.length
  unfold RtmpOutput.queueMessage
  rw [show (whole csid type streamId timestamp payload).len = payload.length from rfl, hfoot]
  by_cases hmax : partsOf payload.length ≤ maxOutParts
  · obtain ⟨w, data, hwriter⟩ := h.writerMessage type streamId timestamp hcsid hmax
    rw [if_pos hmax, show Memory.ample.packet = true from rfl, hwriter]
    dsimp only
    split
    · exact fun heq => nomatch heq
    split
    · exact fun heq => nomatch heq
    split
    · exact fun heq => nomatch heq
    split
    · exact fun heq => nomatch heq
    · rw [if_neg (by decide)]
      exact fun heq => nomatch heq
  · rw [if_neg hmax]
    exact fun heq => nomatch heq

def Slim (o : Output) : Prop := o.outBytes ≤ o.outQueue * 2064

theorem Slim.bytesRoom (h : Slim o) (hlim : lim.maxQueue * 2064 ≤ lim.maxBytes) :
    BytesRoom lim o := by
  intro parts hparts
  have := Nat.mul_le_mul_right 2064 hparts
  unfold Slim at h
  omega

theorem Sound.slim_empty (h : Sound lim o) (hempty : o.out = []) : o.outQueue = 0 ∧ Slim o := by
  have hqueue := h.queue
  have hbytes := h.bytes
  rw [hempty] at hqueue hbytes
  refine ⟨hqueue, ?_⟩
  unfold Slim
  rw [hbytes]
  exact Nat.zero_le _

end RtmpOutput
