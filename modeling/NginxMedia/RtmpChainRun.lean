import NginxMedia.RtmpChainSteps

/-! Runs of the output queue of an RTMP connection: what its counters, its ring of references and
the bytes on the wire say of the chain after any run of messages, raw bytes and flushes. -/
namespace RtmpChain

open MediaTypes RtmpWriter RtmpOutput SequenceRing

variable {q q' : Queue} {m : Message} {side : Side} {mem : ℕ → Bool} {budget n : ℕ}

def Queue.counted (q : Queue) : Output :=
  { writer := q.writer
    out := q.out.map asBuf
    outQueue := q.outQueue
    outBytes := q.outBytes
    inFlight := q.inFlightCount }

theorem wireLoop_eq {parts : List Part} {bufs : List Buf} {maxBytes wire : ℕ}
    (h : parts.map Part.len = bufs.map fun b => b.data.length) :
    wireLoop maxBytes wire parts = wireBytes maxBytes wire bufs := by
  induction parts generalizing bufs wire with
  | nil =>
    obtain rfl := List.map_eq_nil_iff.mp h.symm
    rfl
  | cons part parts ih =>
    obtain ⟨b, rest, rfl, hb, hrest⟩ := List.map_eq_cons_iff.mp h.symm
    rw [wireLoop, wireBytes, ← hb, ih hrest.symm]

theorem asBuf_asLinks (buf : ℕ) (bufs : List Buf) : (bufs.map (asLink buf)).map asBuf = bufs := by
  rw [List.map_map]
  exact (List.map_congr_left fun b _ => asBuf_asLink buf b).trans (List.map_id _)

theorem ringLoop_keeps (cap buf : ℕ) (parts : List Part) (q : Queue) :
    (ringLoop cap buf parts q).out = q.out ∧ (ringLoop cap buf parts q).outQueue = q.outQueue ∧
      (ringLoop cap buf parts q).outBytes = q.outBytes ∧
      (ringLoop cap buf parts q).inFlightCount = q.inFlightCount + slices parts := by
  induction parts generalizing q with
  | nil => exact ⟨rfl, rfl, rfl, rfl⟩
  | cons part parts ih =>
    cases part with
    | header start len =>
      have hcount : slices (.header start len :: parts) = slices parts := by simp [slices]
      rw [hcount]
      exact ih q
    | slice start len =>
      have hcount : slices (.slice start len :: parts) = slices parts + 1 := by simp [slices]
      obtain ⟨hout, hqueue, hbytes, hinFlight⟩ := ih { q.ref buf with
        inFlight := Function.update q.inFlight ((q.inFlightHead + q.inFlightCount) % cap) buf
        inFlightCount := q.inFlightCount + 1 }
      refine ⟨hout, hqueue, hbytes, hinFlight.trans ?_⟩
      rw [hcount]
      dsimp only
      omega

theorem slices_eq {head payload : List UInt8} {buf : ℕ} (parts : List Part) :
    slices parts = references ((parts.map (linkOf head payload buf)).map asBuf) := by
  induction parts with
  | nil => rfl
  | cons part parts ih =>
    cases part with
    | header start len =>
      rw [List.map_cons, List.map_cons]
      simpa [slices, references, linkOf, asBuf] using ih
    | slice start len =>
      rw [List.map_cons, List.map_cons]
      simpa [slices, references, linkOf, asBuf] using ih

def linksOf (side : Side) (w : Writer) (m : Message) : List Link :=
  (packetBufs w (side.range m.out)).map (asLink m.buf)

structure Shown (side : Side) (q q' : Queue) (m : Message) (w : Writer) (wire : ℕ) : Prop where
  writer : q'.writer = w
  out : q'.out = q.out ++ linksOf side q.writer m
  outQueue : q'.outQueue = q.outQueue + (packetBufs q.writer (side.range m.out)).length
  outBytes : q'.outBytes = q.outBytes + wire
  count : q'.inFlightCount = q.inFlightCount + references (packetBufs q.writer (side.range m.out))

theorem shown_fields {w : Writer} {wire : ℕ} (hlen : (side.range m.out).data.length =
    (side.range m.out).len) : Shown side q (q.shown side m w wire) m w wire := by
  obtain ⟨hlinks, -⟩ := @packetOf_links q.writer _ hlen m.buf
  have hslices : slices (packetOf q.writer (side.range m.out)).parts =
      references (packetBufs q.writer (side.range m.out)) := by
    rw [slices_eq, hlinks, asBuf_asLinks]
  unfold Queue.shown
  dsimp only
  rw [hlinks, packetDestroy_eq, packetRef_eq]
  obtain ⟨hout, hqueue, hbytes, hcount⟩ := ringLoop_keeps side.limits.maxQueue m.buf
    (packetOf q.writer (side.range m.out)).parts
    (({ q with refs := (q.packetRef m).refs } : Queue).extend (linksOf side q.writer m) wire)
  refine ⟨rfl, hout, hqueue.trans ?_, hbytes, hcount.trans ?_⟩
  · rw [Queue.extend, linksOf, List.length_map]
  · rw [hslices]
    rfl

def packetExtra (m : Message) (buf : ℕ) : ℕ :=
  if m.out.payload.isSome ∧ buf = m.buf then 1 else 0

variable {cap released : ℕ} {taken : List ℕ}

theorem Ring.packetRef (h : Ring cap (fun _ => 0) q taken released) (m : Message) :
    Ring cap (packetExtra m) (q.packetRef m) taken released := by
  unfold Queue.packetRef packetExtra
  by_cases hpayload : m.out.payload.isSome
  · rw [if_pos hpayload]
    refine ⟨h.slots, h.head, h.count, fun buf => ?_⟩
    have hrefs := h.refs buf
    change Function.update q.refs m.buf (q.refs m.buf + 1) buf = _
    by_cases hbuf : buf = m.buf
    · subst hbuf
      rw [Function.update_self, hrefs, if_pos ⟨hpayload, rfl⟩]
    · rw [Function.update_of_ne hbuf, hrefs, if_neg fun hand => hbuf hand.2]
  · rw [if_neg hpayload]
    refine ⟨h.slots, h.head, h.count, fun buf => ?_⟩
    rw [h.refs buf, if_neg fun hand => hpayload hand.1]

theorem Ring.packetDestroy (h : Ring cap (packetExtra m) q taken released) :
    Ring cap (fun _ => 0) (q.packetDestroy m) taken released := by
  unfold Queue.packetDestroy
  unfold packetExtra at h
  by_cases hpayload : m.out.payload.isSome
  · rw [if_pos hpayload]
    refine ⟨h.slots, h.head, h.count, fun buf => ?_⟩
    have hrefs := h.refs buf
    change Function.update q.refs m.buf (q.refs m.buf - 1) buf = _
    by_cases hbuf : buf = m.buf
    · subst hbuf
      rw [if_pos ⟨hpayload, rfl⟩] at hrefs
      rw [Function.update_self, hrefs]
      rfl
    · rw [if_neg fun hand => hbuf hand.2] at hrefs
      rw [Function.update_of_ne hbuf, hrefs]
  · rw [if_neg hpayload]
    refine ⟨h.slots, h.head, h.count, fun buf => ?_⟩
    rw [h.refs buf, if_neg fun hand => hpayload hand.1]

theorem owners_append (a b : List Link) : owners (a ++ b) = owners a ++ owners b :=
  List.filterMap_append

theorem owners_asLink (buf : ℕ) (bufs : List Buf) :
    owners (bufs.map (asLink buf)) = List.replicate (references bufs) buf := by
  induction bufs with
  | nil => rfl
  | cons b rest ih =>
    obtain ⟨memory, data⟩ := b
    rw [List.map_cons, ← List.singleton_append, owners_append, ih]
    cases memory with
    | false => simp [owners, asLink, references]
    | true => simp [owners, asLink, references, List.replicate_succ]

theorem owners_length (links : List Link) :
    (owners links).length = references (links.map asBuf) := by
  induction links with
  | nil => rfl
  | cons l rest ih =>
    obtain ⟨shared, data⟩ := l
    rw [← List.singleton_append, owners_append, List.length_append, ih, List.map_append,
      references_append]
    cases shared <;> rfl

theorem shown_ring {w : Writer} {wire : ℕ}
    (h : Ring side.limits.maxQueue (fun _ => 0) q taken released)
    (hlen : (side.range m.out).data.length = (side.range m.out).len)
    (hroom : taken.length + references (packetBufs q.writer (side.range m.out)) ≤
      released + side.limits.maxQueue) :
    Ring side.limits.maxQueue (fun _ => 0) (q.shown side m w wire)
      (taken ++ owners (linksOf side q.writer m)) released := by
  obtain ⟨hlinks, -⟩ := @packetOf_links q.writer _ hlen m.buf
  have hslices : slices (packetOf q.writer (side.range m.out)).parts =
      references (packetBufs q.writer (side.range m.out)) := by
    rw [slices_eq, hlinks, asBuf_asLinks]
  have hheld := h.packetRef m
  have hshown : Ring side.limits.maxQueue (packetExtra m)
      ((q.packetRef m).extend (linksOf side q.writer m) wire) taken released :=
    ⟨hheld.slots, hheld.head, hheld.count, hheld.refs⟩
  have hringed := @ringLoop_ring _ _ _ _ _ m.buf _ hshown (hroom.trans_eq' (by rw [hslices]))
  unfold Queue.shown
  dsimp only
  rw [hlinks]
  refine Ring.packetDestroy ?_
  rw [hslices, ← owners_asLink] at hringed
  exact ⟨hringed.slots, hringed.head, hringed.count, hringed.refs⟩

theorem Shown.counted {w : Writer} {wire : ℕ} (h : Shown side q q' m w wire) :
    q'.counted = q.counted.append w (packetBufs q.writer (side.range m.out)) wire := by
  unfold Queue.counted Output.append
  rw [h.writer, h.out, h.outQueue, h.outBytes, h.count, List.map_append, linksOf, asBuf_asLinks]

@[simp] theorem counted_writer (q : Queue) : q.counted.writer = q.writer := rfl

@[simp] theorem counted_out (q : Queue) : q.counted.out = q.out.map asBuf := rfl

@[simp] theorem counted_outQueue (q : Queue) : q.counted.outQueue = q.outQueue := rfl

@[simp] theorem counted_outBytes (q : Queue) : q.counted.outBytes = q.outBytes := rfl

@[simp] theorem counted_inFlight (q : Queue) : q.counted.inFlight = q.inFlightCount := rfl

theorem queueMessage_refines (side : Side) (mem : ℕ → Bool) (q : Queue) (m : Message)
    (budget : ℕ) : ∃ chain, RtmpOutput.queueMessage side.limits ⟨mem 0, chain⟩ q.counted
        (side.range m.out) (side.budget budget) =
      (queueMessage side mem q m budget).map Queue.counted id := by
  unfold RtmpOutput.queueMessage queueMessage Queue.counted
  simp only [packetDestroy_packetRef, packetRef_outBytes]
  cases hfoot : footprint q.writer (side.range m.out).len with
  | none => exact ⟨true, rfl⟩
  | some foot =>
    obtain ⟨parts, refs⟩ := foot
    dsimp only
    by_cases hroom : q.outQueue + parts > side.limits.maxQueue ∨
        q.inFlightCount + refs > side.limits.maxQueue
    · simp only [if_pos hroom]
      exact ⟨true, rfl⟩
    simp only [if_neg hroom]
    cases hwriter : writerMessage (mem 0) q.writer (side.range m.out) with
    | none => exact ⟨true, rfl⟩
    | some written =>
      obtain ⟨w, data⟩ := written
      obtain ⟨-, -, hlen⟩ := writerMessage_keeps hwriter
      obtain ⟨-, hlens⟩ := @packetOf_links q.writer _ hlen m.buf
      dsimp only
      rw [wireLoop_eq hlens]
      cases hwire : wireBytes side.limits.maxBytes 0 (packetBufs q.writer (side.range m.out)) with
      | none => exact ⟨true, rfl⟩
      | some wire =>
        dsimp only
        by_cases hbudget : ((side.budget budget).any fun budget => decide (wire > budget)) = true
        · simp only [if_pos hbudget]
          exact ⟨true, rfl⟩
        by_cases hbytes : q.outBytes > side.limits.maxBytes - wire
        · simp only [if_neg hbudget, if_pos hbytes]
          exact ⟨true, rfl⟩
        simp only [if_neg hbudget, if_neg hbytes]
        by_cases hcopy : mem 1 = false
        · simp only [if_pos hcopy]
          exact ⟨false, rfl⟩
        simp only [if_neg hcopy]
        split
        · exact ⟨false, rfl⟩
        rename_i pending hpending
        refine ⟨true, ?_⟩
        rw [if_neg (by decide), pendingLoop_all hpending]
        have hshown := @shown_fields q m side w wire hlen
        exact congrArg (·, Rc.ok, wire) hshown.counted.symm

theorem queueRaw_refines (side : Side) (mem : ℕ → Bool) (q : Queue) (data : List UInt8) :
    ∃ chain, RtmpOutput.queueRaw side.limits chain q.counted data =
      (queueRaw side mem q data).map Queue.counted id := by
  unfold RtmpOutput.queueRaw queueRaw chainBuf Queue.counted
  dsimp only
  by_cases hroom : q.outQueue + 1 > side.limits.maxQueue ∨ data.length > side.limits.maxBytes ∨
      q.outBytes > side.limits.maxBytes - data.length
  · simp only [if_pos hroom]
    exact ⟨true, rfl⟩
  simp only [if_neg hroom]
  by_cases hcopy : mem 0 = false
  · simp only [if_pos hcopy]
    exact ⟨false, rfl⟩
  simp only [if_neg hcopy]
  by_cases hlink : mem 1 = false
  · simp only [if_pos hlink]
    exact ⟨false, rfl⟩
  · simp only [if_neg hlink]
    refine ⟨true, ?_⟩
    rw [if_neg (by decide)]
    simp only [Prod.map, List.map_append]
    rfl

theorem unsentBytes_eq (links : List Link) : unsentBytes links = totalBytes (links.map asBuf) := by
  unfold unsentBytes totalBytes
  rw [List.map_map]
  rfl

theorem flush_refines (h : Sound side.limits q.counted) (n : ℕ) :
    (flush side n q).1.counted = RtmpOutput.flush n q.counted := by
  unfold flush
  split
  · rename_i hempty
    have hqueue := h.queue
    have hbytes := h.bytes
    rw [counted_out, hempty] at hqueue hbytes
    have hnil : RtmpOutput.unsent n [] = [] := by cases n <;> rfl
    unfold RtmpOutput.flush
    rw [counted_out, hempty, List.map_nil, hnil]
    unfold Queue.counted
    dsimp only
    rw [hempty]
    simp only [counted_outBytes] at hbytes
    rw [hbytes]
    rfl
  · obtain ⟨hle, -, -, hmap⟩ := unsent_remains n q.out
    have hreleased := releaseLoop_released side.limits.maxQueue
      (q.out.take (q.out.length - (unsent n q.out).length)) q
    have hlength : (RtmpOutput.unsent n (q.out.map asBuf)).length = (unsent n q.out).length := by
      rw [← hmap, List.length_map]
    unfold RtmpOutput.flush
    rw [counted_out, ← hmap]
    unfold Queue.counted
    dsimp only
    rw [hreleased.writer, hreleased.outQueue, hreleased.count, unsentBytes_eq, List.length_map,
      List.length_map, ← List.map_take, List.length_map]

/-- What is done to an output queue, with what memory and the socket make of it. -/
inductive Op where
  | message (mem : ℕ → Bool) (m : Message) (budget : ℕ)
  | raw (mem : ℕ → Bool) (data : List UInt8)
  | flush (n : ℕ)

/-- What was accepted. -/
inductive Item where
  | message (out : Outgoing)
  | raw (data : List UInt8)

structure History where
  queue : Queue
  items : List Item
  links : List Link
  sent : List UInt8
  released : List ℕ

def History.init : History := ⟨Queue.init, [], [], [], []⟩

def History.accept (h : History) (q : Queue) (item : Item) : History :=
  { h with
    queue := q
    items := h.items ++ [item]
    links := h.links ++ q.out.drop h.queue.out.length }

def History.settle (h : History) (item : Item) (q : Queue) (rc : Rc) : History :=
  if rc = .ok then h.accept q item else { h with queue := q }

def step (side : Side) (h : History) : Op → History
  | .message mem m budget =>
    let (q, rc, _) := queueMessage side mem h.queue m budget
    h.settle (.message (side.range m.out)) q rc
  | .raw mem data =>
    let (q, rc) := queueRaw side mem h.queue data
    h.settle (.raw data) q rc
  | .flush n =>
    let (q, released) := flush side n h.queue
    { h with
      queue := q
      sent := h.sent ++ (bytes h.queue.out).take n
      released := h.released ++ released }

def run (side : Side) (ops : List Op) : History := ops.foldl (step side) History.init

def emit (w : Writer) : Item → Writer × List UInt8
  | .raw data => (w, data)
  | .message out =>
    match writerMessage true w out with
    | none => (w, [])
    | some (w', parts) => (w', parts.flatten)

def wireOf (items : List Item) : Writer × List UInt8 :=
  items.foldl (fun s item => ((emit s.1 item).1, s.2 ++ (emit s.1 item).2))
    (Queue.init.writer, [])

theorem wireOf_concat (items : List Item) (item : Item) :
    wireOf (items ++ [item]) =
      ((emit (wireOf items).1 item).1, (wireOf items).2 ++ (emit (wireOf items).1 item).2) := by
  rw [wireOf, List.foldl_concat]
  rfl

theorem writerMessage_memory {memory : Bool} {w : Writer} {out : Outgoing}
    {written : Writer × List (List UInt8)} (h : writerMessage memory w out = some written) :
    writerMessage true w out = some written ∧
      written.2 = (packetBufs w out).map Buf.data := by
  cases memory with
  | false =>
    unfold writerMessage at h
    rw [if_pos rfl] at h
    split_ifs at h
  | true =>
    refine ⟨h, ?_⟩
    unfold writerMessage at h
    split_ifs at h
    cases h
    exact (chunkBufs_data _).symm

theorem bytes_append (a b : List Link) : bytes (a ++ b) = bytes a ++ bytes b :=
  List.flatMap_append

theorem bytes_linksOf (side : Side) (w : Writer) (m : Message) :
    bytes (linksOf side w m) = ((packetBufs w (side.range m.out)).map Buf.data).flatten := by
  rw [bytes, linksOf, List.flatMap_map]
  exact List.flatMap_def

structure Books (side : Side) (h : History) : Prop where
  sound : Sound side.limits h.queue.counted
  ring : Ring side.limits.maxQueue (fun _ => 0) h.queue (owners h.links) h.released.length
  stream : h.sent ++ bytes h.queue.out = bytes h.links
  wire : wireOf h.items = (h.queue.writer, bytes h.links)
  parted : ∃ gone rest, h.links = gone ++ rest ∧ List.Forall₂ Remains h.queue.out rest ∧
    h.released = owners gone

theorem books_init (side : Side) : Books side History.init := by
  refine ⟨init_sound _, ⟨represents_empty fun _ => trivial, ?_, rfl, fun _ => rfl⟩, rfl, rfl,
    [], [], rfl, .nil, rfl⟩
  exact (Nat.zero_mod _).symm

variable {h : History}

theorem Books.accept (hb : Books side h) {item : Item} {links : List Link}
    (hout : q.out = h.queue.out ++ links) (hsound : Sound side.limits q.counted)
    (hring : Ring side.limits.maxQueue (fun _ => 0) q (owners h.links ++ owners links)
      h.released.length)
    (hemit : emit h.queue.writer item = (q.writer, bytes links)) :
    Books side (h.accept q item) := by
  obtain ⟨gone, rest, hlinks, hremains, hreleased⟩ := hb.parted
  have hnew : q.out.drop h.queue.out.length = links := by rw [hout, List.drop_left]
  unfold History.accept
  rw [hnew]
  refine ⟨hsound, ?_, ?_, ?_, gone, rest ++ links, ?_, ?_, hreleased⟩
  · rw [owners_append]
    exact hring
  · rw [hout, bytes_append, bytes_append, ← List.append_assoc, hb.stream]
  · rw [wireOf_concat, hb.wire]
    dsimp only
    rw [hemit, bytes_append]
  · rw [hlinks, List.append_assoc]
  · rw [hout]
    exact List.rel_append hremains (remains_refl links)

theorem Books.message (hb : Books side h) (mem : ℕ → Bool) (m : Message) (budget : ℕ) :
    Books side (step side h (.message mem m budget)) := by
  obtain ⟨chain, hrefines⟩ := queueMessage_refines side mem h.queue m budget
  have hsound := hb.sound.queueMessage ⟨mem 0, chain⟩ (side.range m.out) (side.budget budget)
  rw [hrefines] at hsound
  have hcases := queueMessage_cases side mem h.queue m budget
  change Books side (h.settle _ (queueMessage side mem h.queue m budget).1
    (queueMessage side mem h.queue m budget).2.1)
  generalize queueMessage side mem h.queue m budget = result at hcases hsound ⊢
  cases hcases with
  | refused rc hrc =>
    rw [History.settle, if_neg hrc]
    exact hb
  | queued w parts refs wire data hfoot hqueue hrefs hwriter hwire hbytes =>
    obtain ⟨htrue, hdata⟩ := writerMessage_memory hwriter
    obtain ⟨-, -, hlen⟩ := writerMessage_keeps hwriter
    have hsize : 0 < h.queue.writer.chunkSize := by
      have hchunk := hb.sound.chunkSize
      rw [counted_writer] at hchunk
      rw [hchunk]
      decide
    obtain ⟨-, hcount⟩ := packetBufs_count hsize hlen hfoot
    have hshown := @shown_fields h.queue m side w wire hlen
    have hle := hb.ring.slots.tail_le
    have hinFlight := hb.ring.count
    refine hb.accept hshown.out hsound (shown_ring hb.ring hlen ?_) ?_
    · rw [hcount]
      omega
    · rw [emit, htrue, hshown.writer, bytes_linksOf]
      exact congrArg (fun parts => (w, parts.flatten)) hdata

theorem Books.raw (hb : Books side h) (mem : ℕ → Bool) (data : List UInt8) :
    Books side (step side h (.raw mem data)) := by
  obtain ⟨chain, hrefines⟩ := queueRaw_refines side mem h.queue data
  have hsound := hb.sound.queueRaw chain data
  rw [hrefines] at hsound
  have hcases := queueRaw_cases side mem h.queue data
  change Books side (h.settle _ (queueRaw side mem h.queue data).1
    (queueRaw side mem h.queue data).2)
  generalize queueRaw side mem h.queue data = result at hcases hsound ⊢
  cases hcases with
  | refused rc hrc =>
    rw [History.settle, if_neg hrc]
    exact hb
  | queued hqueue hlen hbytes =>
    refine @Books.accept _ side h hb _ [⟨none, data⟩] rfl hsound ?_ ?_
    · rw [show owners [⟨none, data⟩] = [] from rfl, List.append_nil]
      exact ⟨hb.ring.slots, hb.ring.head, hb.ring.count, hb.ring.refs⟩
    · exact congrArg (h.queue.writer, ·) (List.append_nil data).symm

theorem remains_trans {a b c : List Link} (h : List.Forall₂ Remains a b)
    (h' : List.Forall₂ Remains b c) : List.Forall₂ Remains a c := by
  induction h generalizing c with
  | nil => exact h'
  | cons hl _ ih =>
    cases h' with
    | cons hl' hrest => exact .cons (hl.trans hl') (ih hrest)

theorem Books.flush (hb : Books side h) (n : ℕ) : Books side (step side h (.flush n)) := by
  have hsound := hb.sound.flush n
  rw [← flush_refines hb.sound] at hsound
  obtain ⟨gone, rest, hlinks, hremains, hreleased⟩ := hb.parted
  change Books side { h with
    queue := (RtmpChain.flush side n h.queue).1
    sent := h.sent ++ (bytes h.queue.out).take n
    released := h.released ++ (RtmpChain.flush side n h.queue).2 }
  by_cases hempty : h.queue.out = []
  · have hflush : RtmpChain.flush side n h.queue = (h.queue, []) := if_pos hempty
    have hnone : h.sent ++ (bytes h.queue.out).take n = h.sent := by
      rw [hempty, bytes, List.flatMap_nil, List.take_nil, List.append_nil]
    rw [hflush, hnone, List.append_nil]
    exact hb
  · have hflush : RtmpChain.flush side n h.queue =
        ({ (releaseLoop side.limits.maxQueue
            (h.queue.out.take (h.queue.out.length - (unsent n h.queue.out).length)) h.queue).1 with
          out := unsent n h.queue.out
          outBytes := unsentBytes (unsent n h.queue.out) },
          (releaseLoop side.limits.maxQueue
            (h.queue.out.take (h.queue.out.length - (unsent n h.queue.out).length)) h.queue).2) :=
      if_neg hempty
    rw [hflush] at hsound ⊢
    obtain ⟨hle, htail, hbytes, -⟩ := unsent_remains n h.queue.out
    generalize hk : h.queue.out.length - (unsent n h.queue.out).length = k at htail hsound ⊢
    have hgone := owners_remains (List.forall₂_take k hremains)
    have hleft : (owners h.links).drop h.released.length = owners rest := by
      rw [hlinks, owners_append, hreleased, List.drop_left]
    have hnext : owners (h.queue.out.take k) <+: (owners h.links).drop h.released.length := by
      rw [hleft, hgone]
      conv_rhs => rw [← List.take_append_drop k rest, owners_append]
      exact List.prefix_append _ _
    obtain ⟨hids, hring⟩ := releaseLoop_ring hb.ring hnext
    have hkeeps := releaseLoop_released side.limits.maxQueue (h.queue.out.take k) h.queue
    dsimp only at hsound ⊢
    refine ⟨hsound, ?_, ?_, ?_, gone ++ rest.take k, rest.drop k, ?_, ?_, ?_⟩
    · rw [hids, List.length_append]
      exact ⟨hring.slots, hring.head, hring.count, hring.refs⟩
    · rw [List.append_assoc, hbytes, List.take_append_drop]
      exact hb.stream
    · rw [hkeeps.writer]
      exact hb.wire
    · rw [List.append_assoc, List.take_append_drop]
      exact hlinks
    · exact remains_trans htail (List.forall₂_drop k hremains)
    · rw [hids, hreleased, owners_append, hgone]

theorem run_books (side : Side) (ops : List Op) : Books side (run side ops) :=
  StepRun.invariant (fun _ op hb => match op with
    | .message mem m budget => hb.message mem m budget
    | .raw mem data => hb.raw mem data
    | .flush n => hb.flush n) (books_init side) ops

/-- What the fields of a queue say of its chain, and what is known of what left it. -/
structure Accounted (side : Side) (h : History) : Prop where
  queue : h.queue.outQueue = h.queue.out.length
  unsent : h.queue.outBytes = (bytes h.queue.out).length
  count : h.queue.inFlightCount = (owners h.queue.out).length
  count_le : h.queue.inFlightCount ≤ side.limits.maxQueue
  slots : ∀ i (hi : i < (owners h.queue.out).length),
    h.queue.inFlight ((h.queue.inFlightHead + i) % side.limits.maxQueue) = (owners h.queue.out)[i]
  refs : ∀ buf, h.queue.refs buf = (owners h.queue.out).count buf
  released : ∃ gone rest, h.links = gone ++ rest ∧ List.Forall₂ Remains h.queue.out rest ∧
    h.released = owners gone ∧ bytes gone <+: h.sent
  stream : h.sent ++ bytes h.queue.out = (wireOf h.items).2
  writer : h.queue.writer = (wireOf h.items).1
  message_refused : ∀ mem m budget,
    (queueMessage side mem h.queue m budget).2.1 ≠ .ok →
      (queueMessage side mem h.queue m budget).1 = h.queue
  raw_refused : ∀ mem data, (queueRaw side mem h.queue data).2 ≠ .ok →
    (queueRaw side mem h.queue data).1 = h.queue

theorem totalBytes_eq (links : List Link) :
    totalBytes (links.map asBuf) = (bytes links).length := by
  rw [← unsentBytes_eq, unsentBytes, bytes, List.length_flatMap]

theorem Books.inFlight (hb : Books side h) :
    (owners h.links).drop h.released.length = owners h.queue.out ∧
      (owners h.links).length = h.released.length + (owners h.queue.out).length := by
  obtain ⟨gone, rest, hlinks, hremains, hreleased⟩ := hb.parted
  rw [hlinks, owners_append, hreleased, owners_remains hremains]
  exact ⟨List.drop_left, List.length_append⟩

theorem Books.departed (hb : Books side h) : ∃ gone rest, h.links = gone ++ rest ∧
    List.Forall₂ Remains h.queue.out rest ∧ h.released = owners gone ∧ bytes gone <+: h.sent := by
  obtain ⟨gone, rest, hlinks, hremains, hreleased⟩ := hb.parted
  have hstream := hb.stream
  have hle := bytes_remains hremains
  rw [hlinks, bytes_append] at hstream
  have hlength : (bytes gone).length ≤ h.sent.length := by
    have hsum := congrArg List.length hstream
    rw [List.length_append, List.length_append] at hsum
    omega
  exact ⟨gone, rest, hlinks, hremains, hreleased, List.prefix_of_prefix_length_le
    (List.prefix_append _ _) ⟨_, hstream⟩ hlength⟩

/-- After every run of messages, raw bytes and flushes, whatever memory and the socket do. -/
theorem queue_accounted (side : Side) (ops : List Op) : Accounted side (run side ops) := by
  have hb := run_books side ops
  obtain ⟨hdrop, hlength⟩ := hb.inFlight
  have hqueue := hb.sound.queue
  have hbytes := hb.sound.bytes
  have hrefs := hb.sound.refs
  have hle := hb.sound.inFlight_le
  have hroom := hb.sound.queue_le
  have hwire := hb.wire
  simp only [counted_out, counted_outQueue, counted_outBytes, counted_inFlight] at *
  refine ⟨?_, ?_, ?_, hle.trans hroom, ?_, ?_, hb.departed, ?_, ?_, ?_, ?_⟩
  · rw [hqueue, List.length_map]
  · rw [hbytes, totalBytes_eq]
  · rw [hrefs, owners_length]
  · intro i hi
    have hheld := hb.ring.slots.held ((run side ops).released.length + i) (by omega) (by omega)
    rw [hb.ring.head, Nat.mod_add_mod, hheld, ← List.getElem_drop (h := by rw [hdrop]; exact hi)]
    simp only [hdrop]
  · intro buf
    rw [hb.ring.refs, hdrop, Nat.add_zero]
  · rw [hb.stream, hwire]
  · rw [hwire]
  · exact fun mem m budget => queueMessage_refused
  · exact fun mem data => queueRaw_refused

end RtmpChain
