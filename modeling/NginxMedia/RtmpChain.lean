import NginxMedia.RtmpOutput
import NginxMedia.SequenceRing

/-! The output queue of an RTMP connection link by link: the chain links and what each points
into, the ring of the references that the payload slices hold, and every allocation on the way.
`RtmpOutput` keeps the same queue by its counters only. -/
namespace RtmpChain

open MediaTypes RtmpWriter RtmpOutput

inductive Side where
  | player | dest
  deriving DecidableEq

def Side.limits : Side → Limits
  | .player => playerLimits
  | .dest => destLimits

def Side.budget : Side → ℕ → Option ℕ
  | .player, _ => none
  | .dest, budget => some budget

def Side.range : Side → Outgoing → Outgoing
  | .player, out => out
  | .dest, out => { out with offset := 0 }

inductive Part where
  | header (start len : ℕ)
  | slice (start len : ℕ)
  deriving DecidableEq

def Part.len : Part → ℕ
  | .header _ len => len
  | .slice _ len => len

structure Packet where
  head : List UInt8
  headLen : ℕ
  parts : List Part

def packetHead (head next : List UInt8) : ℕ → List UInt8
  | 0 => []
  | chunks + 1 => head ++ packetHead next next chunks

def packetParts (size : ℕ) (head next : List UInt8) : ℕ → ℕ → ℕ → ℕ → List Part
  | 0, _, _, _ => []
  | chunks + 1, p, pos, remain =>
    let take := if remain < size then remain else size
    .header p head.length :: ((if take > 0 then [.slice pos take] else []) ++
      packetParts size next next chunks (p + head.length) (pos + take) (remain - take))

def headSize (fmt field chunks : ℕ) : ℕ :=
  chunks * (1 + if field ≥ 0xFFFFFF then 4 else 0) +
    (if fmt = 0 then 11 else if fmt = 1 then 7 else 0)

/-- What `ngx_media_rtmp_writer_message()` puts into a packet. -/
def packetOf (w : Writer) (out : Outgoing) : Packet :=
  let chunks := chunkCount w.chunkSize out.len
  let head := chunkHead out (format w out) (tsField w out)
  let next := chunkHead out 3 (tsField w out)
  { head := packetHead head next chunks
    headLen := headSize (format w out) (tsField w out) chunks
    parts := packetParts w.chunkSize head next chunks 0 out.offset out.len }

/-- A link with the unsent bytes of its buffer; `shared` is the payload buffer that a `memory`
buffer points into. -/
structure Link where
  shared : Option ℕ
  data : List UInt8
  deriving DecidableEq

structure Queue where
  writer : Writer
  out : List Link
  outQueue : ℕ
  outBytes : ℕ
  inFlight : ℕ → ℕ
  inFlightHead : ℕ
  inFlightCount : ℕ
  refs : ℕ → ℕ

def Queue.init : Queue :=
  { writer := Writer.init outChunk RtmpReader.maxMessage
    out := []
    outQueue := 0
    outBytes := 0
    inFlight := fun _ => 0
    inFlightHead := 0
    inFlightCount := 0
    refs := fun _ => 0 }

structure Message where
  out : Outgoing
  buf : ℕ

def Queue.ref (q : Queue) (buf : ℕ) : Queue :=
  { q with refs := Function.update q.refs buf (q.refs buf + 1) }

def Queue.unref (q : Queue) (buf : ℕ) : Queue :=
  { q with refs := Function.update q.refs buf (q.refs buf - 1) }

def Queue.packetRef (q : Queue) (m : Message) : Queue :=
  if m.out.payload.isSome then q.ref m.buf else q

def Queue.packetDestroy (q : Queue) (m : Message) : Queue :=
  if m.out.payload.isSome then q.unref m.buf else q

def wireLoop (maxBytes : ℕ) : ℕ → List Part → Option ℕ
  | wire, [] => some wire
  | wire, part :: parts =>
    if part.len > maxBytes ∨ wire > maxBytes - part.len then none
    else wireLoop maxBytes (wire + part.len) parts

def linkOf (head payload : List UInt8) (buf : ℕ) : Part → Link
  | .header start len => ⟨none, (head.drop start).take len⟩
  | .slice start len => ⟨some buf, (payload.drop start).take len⟩

/-- The loop that builds the private chain; `mem` says of every allocation whether it succeeds,
a buffer and a link for each part. -/
def pendingLoop (mem : ℕ → Bool) (link : Part → Link) : ℕ → List Part → Option (List Link)
  | _, [] => some []
  | i, part :: parts =>
    if mem i = false then none
    else if mem (i + 1) = false then none
    else (pendingLoop mem link (i + 2) parts).map (link part :: ·)

def ringLoop (cap buf : ℕ) : List Part → Queue → Queue
  | [], q => q
  | .header _ _ :: parts, q => ringLoop cap buf parts q
  | .slice _ _ :: parts, q =>
    ringLoop cap buf parts
      { q.ref buf with
        inFlight := Function.update q.inFlight ((q.inFlightHead + q.inFlightCount) % cap) buf
        inFlightCount := q.inFlightCount + 1 }

/-- The private chain becomes visible. -/
def Queue.extend (q : Queue) (pending : List Link) (wire : ℕ) : Queue :=
  { q with
    out := q.out ++ pending
    outQueue := q.outQueue + pending.length
    outBytes := q.outBytes + wire }

/-- `ngx_media_rtmp_queue_message()` and `ngx_media_rtmp_dest_queue_message()`. Allocation 0 is
the packet's headers, 1 their copy. -/
def queueMessage (side : Side) (mem : ℕ → Bool) (q : Queue) (m : Message) (budget : ℕ) :
    Queue × Rc × ℕ :=
  let out := side.range m.out
  match footprint q.writer out.len with
  | none => (q, .again, 0)
  | some (parts, refs) =>
    if q.outQueue + parts > side.limits.maxQueue ∨
        q.inFlightCount + refs > side.limits.maxQueue then (q, .again, 0)
    else
      match writerMessage (mem 0) q.writer out with
      | none => (q, .error, 0)
      | some (w, _) =>
        let packet := packetOf q.writer out
        let held := q.packetRef m
        match wireLoop side.limits.maxBytes 0 packet.parts with
        | none => (held.packetDestroy m, .again, 0)
        | some wire =>
          if (side.budget budget).any fun budget => decide (wire > budget) then
            (held.packetDestroy m, .declined, 0)
          else if held.outBytes > side.limits.maxBytes - wire then
            (held.packetDestroy m, .again, 0)
          else if mem 1 = false then (held.packetDestroy m, .error, 0)
          else
            let head := packet.head.take packet.headLen
            let link := linkOf head (out.payload.getD []) m.buf
            match pendingLoop mem link 2 packet.parts with
            | none => (held.packetDestroy m, .error, 0)
            | some pending =>
              let ringed := ringLoop side.limits.maxQueue m.buf packet.parts
                (held.extend pending wire)
              (({ ringed with writer := w } : Queue).packetDestroy m, .ok, wire)

def chainBuf (mem : Bool) (q : Queue) (link : Link) : Option Queue :=
  if mem = false then none
  else
    some { q with
      out := q.out ++ [link]
      outQueue := q.outQueue + 1
      outBytes := q.outBytes + link.data.length }

def queueRaw (side : Side) (mem : ℕ → Bool) (q : Queue) (data : List UInt8) : Queue × Rc :=
  if q.outQueue + 1 > side.limits.maxQueue ∨ data.length > side.limits.maxBytes ∨
      q.outBytes > side.limits.maxBytes - data.length then (q, .again)
  else if mem 0 = false then (q, .error)
  else
    match chainBuf (mem 1) q ⟨none, data⟩ with
    | none => (q, .error)
    | some q' => (q', .ok)

/-- What `send_chain()` returns when the socket takes `n` bytes. -/
def unsent : ℕ → List Link → List Link
  | 0, links => links
  | _, [] => []
  | n + 1, l :: rest =>
    if l.data.length ≤ n + 1 then unsent (n + 1 - l.data.length) rest
    else ⟨l.shared, l.data.drop (n + 1)⟩ :: rest

def releaseLoop (cap : ℕ) : List Link → Queue → Queue × List ℕ
  | [], q => (q, [])
  | l :: rest, q =>
    if l.shared.isSome ∧ q.inFlightCount > 0 then
      let buf := q.inFlight q.inFlightHead
      let (q', released) := releaseLoop cap rest
        { q.unref buf with
          inFlightHead := (q.inFlightHead + 1) % cap
          inFlightCount := q.inFlightCount - 1
          outQueue := q.outQueue - 1 }
      (q', buf :: released)
    else releaseLoop cap rest { q with outQueue := q.outQueue - 1 }

def unsentBytes (links : List Link) : ℕ := (links.map fun l => l.data.length).sum

/-- `ngx_media_rtmp_flush()` and `ngx_media_rtmp_dest_flush()` when the socket takes `n` bytes,
with the references that are released. -/
def flush (side : Side) (n : ℕ) (q : Queue) : Queue × List ℕ :=
  if q.out = [] then (q, [])
  else
    let sentTail := unsent n q.out
    let gone := q.out.take (q.out.length - sentTail.length)
    let (q', released) := releaseLoop side.limits.maxQueue gone q
    ({ q' with out := sentTail, outBytes := unsentBytes sentTail }, released)

section
variable {size chunks p pos remain buf : ℕ} {head next before data : List UInt8}
  {payload : Payload} {w : Writer} {out : Outgoing}

def asLink (buf : ℕ) (b : Buf) : Link := ⟨if b.memory then some buf else none, b.data⟩

def asBuf (l : Link) : Buf := ⟨l.shared.isSome, l.data⟩

theorem asBuf_asLink (buf : ℕ) (b : Buf) : asBuf (asLink buf b) = b := by
  obtain ⟨memory, data⟩ := b
  cases memory <;> rfl

theorem packetParts_links (hp : before.length = p)
    (hdata : (payload.drop pos).take remain = data) (hlen : data.length = remain) :
    (packetParts size head next chunks p pos remain).map
        (linkOf (before ++ packetHead head next chunks) payload buf) =
      (chunkBufs size head next chunks data).map (asLink buf) ∧
    (packetParts size head next chunks p pos remain).map Part.len =
      (chunkBufs size head next chunks data).map fun b => b.data.length := by
  induction chunks generalizing head before p pos remain data with
  | zero => exact ⟨rfl, rfl⟩
  | succ chunks ih =>
    subst hp
    have htake : (if remain < size then remain else size) = min size remain := by
      split_ifs <;> omega
    have hslice : data.take size = (payload.drop pos).take (min size remain) := by
      rw [← hdata, List.take_take]
    have hsliceLen : (data.take size).length = min size remain := by
      rw [List.length_take, hlen]
    have hrest : (payload.drop (pos + min size remain)).take (remain - min size remain) =
        data.drop size := by
      rw [← hdata, List.drop_take, List.drop_drop]
      rcases Nat.le_total size remain with hle | hle
      · rw [Nat.min_eq_left hle]
      · rw [Nat.min_eq_right hle, Nat.sub_self, Nat.sub_eq_zero_of_le hle, List.take_zero,
          List.take_zero]
    have hrestLen : (data.drop size).length = remain - min size remain := by
      rw [List.length_drop, hlen]
      omega
    obtain ⟨hlinks, hlens⟩ := @ih _ _ _ next (before ++ head) _ rfl hrest hrestLen
    have hbuffer : before ++ packetHead head next (chunks + 1) =
        (before ++ head) ++ packetHead next next chunks := by
      rw [packetHead, List.append_assoc]
    have hheader : linkOf (before ++ packetHead head next (chunks + 1)) payload buf
        (.header before.length head.length) = asLink buf ⟨false, head⟩ := by
      rw [linkOf, packetHead, List.drop_left, List.take_left]
      rfl
    rw [List.length_append] at hlinks hlens
    rw [packetParts, chunkBufs, htake]
    rw [List.map_cons, List.map_append, List.map_cons, List.map_append, List.map_cons,
      List.map_append, List.map_cons, List.map_append, hheader, hbuffer, hlinks, hlens]
    by_cases hnone : data.take size = []
    · have hzero : min size remain = 0 := by rw [← hsliceLen, hnone, List.length_nil]
      rw [if_pos hnone, if_neg (by omega)]
      exact ⟨rfl, rfl⟩
    · have hpos : min size remain > 0 := by
        rw [← hsliceLen]
        exact List.length_pos_iff.mpr hnone
      rw [if_neg hnone, if_pos hpos]
      refine ⟨?_, ?_⟩
      · rw [List.map_singleton, List.map_singleton, linkOf, asLink, hslice]
        rfl
      · rw [List.map_singleton, List.map_singleton, Part.len, hsliceLen]
        rfl

theorem packetHead_length (head next : List UInt8) (chunks : ℕ) :
    (packetHead head next (chunks + 1)).length = head.length + chunks * next.length := by
  induction chunks generalizing head with
  | zero => rw [packetHead, packetHead, List.append_nil, Nat.zero_mul, Nat.add_zero]
  | succ chunks ih =>
    rw [packetHead, List.length_append, ih, Nat.succ_mul]
    omega

theorem packetOf_headLen (w : Writer) (out : Outgoing) :
    (packetOf w out).headLen = (packetOf w out).head.length := by
  have hchunks : 0 < chunkCount w.chunkSize out.len := by
    unfold chunkCount
    split_ifs with h
    · exact Nat.one_pos
    · exact Nat.pos_of_ne_zero h
  obtain ⟨chunks, hcount⟩ := Nat.exists_eq_add_one_of_ne_zero (Nat.ne_of_gt hchunks)
  have hfmt : format w out = 0 ∨ format w out = 1 := by
    unfold format
    split_ifs <;> simp
  have hnext : (chunkHead out 3 (tsField w out)).length =
      1 + if tsField w out ≥ 0xFFFFFF then 4 else 0 := by
    by_cases h : tsField w out ≥ 0xFFFFFF <;> simp [chunkHead, h]
  have hfirst : (chunkHead out (format w out) (tsField w out)).length =
      1 + (if tsField w out ≥ 0xFFFFFF then 4 else 0) +
        (if format w out = 0 then 11 else if format w out = 1 then 7 else 0) := by
    rw [chunkHead_size (by omega)]
    generalize (if tsField w out ≥ 0xFFFFFF then 4 else 0) = extended
    rcases hfmt with h | h
    · rw [h]
      exact Nat.add_right_comm 1 11 extended
    · rw [h]
      exact Nat.add_right_comm 1 7 extended
  unfold packetOf
  dsimp only
  rw [hcount, packetHead_length, hfirst, hnext, headSize, Nat.succ_mul]
  omega

theorem packetOf_links (hlen : out.data.length = out.len) (buf : ℕ) :
    (packetOf w out).parts.map (linkOf ((packetOf w out).head.take (packetOf w out).headLen)
        (out.payload.getD []) buf) = (packetBufs w out).map (asLink buf) ∧
      (packetOf w out).parts.map Part.len = (packetBufs w out).map fun b => b.data.length := by
  rw [packetOf_headLen, List.take_length]
  exact @packetParts_links w.chunkSize _ 0 _ _ buf _ _ [] _ _ rfl rfl hlen

end

end RtmpChain
