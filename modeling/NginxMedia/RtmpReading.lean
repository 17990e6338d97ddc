import NginxMedia.RtmpWorkerSteps

/-! The read handler of an RTMP destination among the others of its worker. What becomes of the
bytes is as in `RtmpReplies`; here the answers reach the scheduler, and every flush is
remembered. -/
namespace RtmpReading

open MediaTypes ByteString RtmpOutput RtmpDestination RtmpWorker
open RtmpReader (ChunkStream Reader msgChunkSize control setCs advance copied finish fault wanted
  parseHeader)
open RtmpReplies (Moment Target Recv send sendControl sendConnect sendPublishSequence sendPublish
  takeStreamId commandOf statusCode publishStart msgCommandAmf0 msgUserControl eventPingRequest
  eventPingResponse handshakeFeed inBuffer setReader countMessage readBuffer minus)

structure Reading where
  worker : Worker
  clock : ℕ
  notes : List Note

variable (env : ℕ → Moment) (target : Target) (i : ℕ)

def Reading.dest (t : Reading) : Dest := t.worker.dest i

def Reading.set (t : Reading) (d : Dest) : Reading := { t with worker := t.worker.setDest i d }

def Reading.tick (t : Reading) : Reading := { t with clock := t.clock + 1 }

def Reading.fail (t : Reading) : Reading := { t with worker := RtmpWorker.fail i t.worker }

def Reading.flush (socket : Option ℕ) (t : Reading) : Reading :=
  { t with
    worker := RtmpWorker.flush socket i t.worker
    notes := t.notes ++ [.flush t.worker i socket] }

/-- The server has accepted the stream. -/
def started (w : Worker) : Worker :=
  schedule i (maintenanceUpdate i (w.modify i fun s =>
    { s with dest := { s.dest with state := .publishing, cursor := 0 }, deadline := 0 }))

def onCommand (m : Moment) (t : Reading) (payload : Payload) : Reading :=
  match commandOf payload with
  | none => t
  | some (name, data) =>
    let d := t.dest i
    if name = ascii "_result" then
      match d.phase with
      | .connect => (t.set i (sendPublishSequence m.mem target d)).flush i m.socket
      | .create =>
        (t.set i (sendPublish (m.mem 0) target (takeStreamId data d))).flush i m.socket
      | .publish => t
    else if name = ascii "onStatus" then
      if d.phase ≠ .publish then t
      else
        match statusCode data with
        | none => t
        | some code =>
          if code = publishStart then { t with worker := started i t.worker } else t.fail i
    else t

def onMessage (m : Moment) (t : Reading) (type : ℕ) (payload : Payload) : Reading :=
  if type = msgCommandAmf0 then onCommand target i m t payload
  else if type = msgUserControl ∧ payload.length ≥ 6 ∧ byteAt payload 0 = 0 ∧
      byteAt payload 1 = eventPingRequest then
    t.set i (sendControl (m.mem 0) msgUserControl
      (payload.take 1 ++ low eventPingResponse :: (payload.drop 2).take 4) (t.dest i))
  else t

def Reading.withReader (t : Reading) (r : Reader) : Reading := t.set i (setReader (t.dest i) r)

def complete (t : Reading) (csid : ℕ) (cs : ChunkStream) : Reading × Rc :=
  let reader := (t.dest i).reader
  let r := setCs { reader with buffered := reader.buffered - cs.allocated } csid
    { cs with payload := none, allocated := 0 }
  match cs.payload with
  | none => (t.withReader i r, .ok)
  | some payload =>
    let payload := payload.take cs.length
    match control r cs payload with
    | (r, .ok) =>
      let t := onMessage target i (env t.clock) (t.withReader i r) cs.type payload
      ((t.set i (countMessage (t.dest i))).tick, .ok)
    | (r, _) => (t.withReader i r, .error)

inductive Step where
  | stop (t : Reading)
  | fail (t : Reading) (consumed : ℕ)
  | next (t : Reading) (consumed : ℕ)

def Step.after (h : ℕ) : Step → Step
  | .stop t => .stop t
  | .fail t consumed => .fail t (h + consumed)
  | .next t consumed => .next t (h + consumed)

def payloadStep (t : Reading) (csid : ℕ) (cs : ChunkStream) (bytes : List UInt8) : Step :=
  let part := bytes.take (wanted (t.dest i).reader cs)
  let r := advance (t.dest i).reader csid cs part
  if (copied cs part).received ≥ (copied cs part).length then
    match complete env target i (t.withReader i (finish r)) csid (copied cs part) with
    | (t, .ok) => .next t part.length
    | (t, _) => .fail t part.length
  else .next (t.withReader i r) part.length

def loopStep (t : Reading) (bytes : List UInt8) : Step :=
  let reader := (t.dest i).reader
  if reader.pendingRemaining > 0 then
    match reader.chunks reader.pendingCsid with
    | none => .fail (t.withReader i (fault reader)) 0
    | some cs => payloadStep env target i t reader.pendingCsid cs bytes
  else
    match parseHeader ⟨(env t.clock).alloc, fun _ _ => true⟩ reader bytes with
    | .more r => .stop (t.withReader i r)
    | .bad r => .fail (t.withReader i r) 0
    | .ready r csid cs h =>
      (payloadStep env target i (t.withReader i r) csid cs (bytes.drop h)).after h

def feedLoop : ℕ → Reading → List UInt8 → Reading × ℕ × Rc
  | 0, t, _ => (t, 0, .ok)
  | n + 1, t, bytes =>
    if bytes = [] then (t, 0, .ok)
    else
      match loopStep env target i t bytes with
      | .stop t => (t, 0, .ok)
      | .fail t consumed => (t, consumed, .error)
      | .next t consumed =>
        let rest := feedLoop n t (bytes.drop consumed)
        (rest.1, consumed + rest.2.1, rest.2.2)

def feed (t : Reading) (bytes : List UInt8) : Reading × ℕ × Rc :=
  feedLoop env target i (2 * bytes.length + 2) t bytes

def moved (consumed : ℕ) (d : Dest) : Dest :=
  if consumed = 0 then d
  else { d with pending := d.pending.drop consumed, pendingLen := minus d.pendingLen consumed }

def handshakeDone (m : Moment) (t : Reading) : Reading :=
  let d := t.dest i
  match queueRaw destLimits m.raw d.out d.handshake.c1 with
  | (out, .ok) =>
    (t.set i (sendConnect (m.mem 1) target
      (sendControl (m.mem 0) msgChunkSize (put32 outChunk) { d with out := out }))).flush i m.socket
  | (_, _) => t.fail i

def answerHandshake (t : Reading) : Reading × Bool :=
  let d := t.dest i
  if d.replySent = false ∧ d.handshake.state ≥ 2 then
    let t := (handshakeDone target i (env t.clock) (t.set i { d with replySent := true })).tick
    (t, decide ((t.dest i).state = .idle))
  else (t, false)

/-- The handshake is over. -/
def greeted (w : Worker) : Worker :=
  maintenanceUpdate i (w.modify i fun s =>
    { s with dest := { s.dest with state := .commands }, deadline := w.now })

def handshakePart (t : Reading) : Reading × Bool :=
  if (t.dest i).state ≠ .handshake then (t, false)
  else
    match handshakeFeed (t.dest i).handshake (inBuffer (t.dest i)) with
    | (hs, consumed, rc) =>
      let t := t.set i (moved consumed { t.dest i with handshake := hs })
      if rc = .error then (t.fail i, true)
      else
        match answerHandshake env target i t with
        | (t, true) => (t, true)
        | (t, false) =>
          if rc = .ok then ({ t with worker := greeted i t.worker }, false) else (t, false)

def chunkPart (t : Reading) : Reading × Bool :=
  if (t.dest i).state = .handshake ∨ (t.dest i).pendingLen = 0 then (t, false)
  else
    match feed env target i t (inBuffer (t.dest i)) with
    | (t, consumed, rc) =>
      if rc ≠ .ok then (t.fail i, true)
      else
        let t := t.set i (moved consumed (t.dest i))
        (t, decide ((t.dest i).state = .idle))

/-- What follows the loop. -/
def Reading.leave (t : Reading) : Reading :=
  if (t.dest i).out.out ≠ [] then t.flush i (env t.clock).socket else t

def receive (part : List UInt8) (d : Dest) : Dest :=
  { d with pending := inBuffer d ++ part, pendingLen := d.pendingLen + part.length }

def readLoop : List Recv → Reading → Reading
  | [], t => t.leave env i
  | recv :: rest, t =>
    let take := minus readBuffer (t.dest i).pendingLen
    if take = 0 then t.fail i
    else
      match recv with
      | .again => t.leave env i
      | .closed => t.fail i
      | .data bytes =>
        if bytes.take take = [] then t.fail i
        else
          match handshakePart env target i (t.set i (receive (bytes.take take) (t.dest i))) with
          | (t, true) => t
          | (t, false) =>
            match chunkPart env target i t with
            | (t, true) => t
            | (t, false) =>
              let t := (t.flush i (env t.clock).socket).tick
              if (t.dest i).connection = false then t else readLoop rest t

def readHandler (script : List Recv) (w : Worker) : Reading :=
  if (w.dest i).connection = false then ⟨w, 0, []⟩ else readLoop env target i script ⟨w, 0, []⟩

structure Reads (t t' : Reading) : Prop where
  keeps : Keeps i t.worker t'.worker
  tends : ∃ more, t'.notes = t.notes ++ more ∧
    ((∀ note ∈ more, ¬note.Harmful) → Tends t.worker t'.worker)

variable {env} {target} {i} {t t' t'' : Reading} {d d' : Dest} {w : Worker}

theorem Reads.refl (t : Reading) : Reads i t t :=
  ⟨.refl i t.worker, [], (List.append_nil _).symm, fun _ _ _ _ _ h => h⟩

theorem Reads.trans (h₁ : Reads i t t') (h₂ : Reads i t' t'') : Reads i t t'' := by
  obtain ⟨more, hnotes, htends⟩ := h₁.tends
  obtain ⟨more', hnotes', htends'⟩ := h₂.tends
  refine ⟨h₁.keeps.trans h₂.keeps, more ++ more', ?_, fun hall => ?_⟩
  · rw [hnotes', hnotes, List.append_assoc]
  · exact (htends fun note hn => hall note (List.mem_append_left _ hn)).trans h₁.keeps
      (htends' fun note hn => hall note (List.mem_append_right _ hn))

theorem Works.reads (h : Works i t.worker w) (clock : ℕ) : Reads i t ⟨w, clock, t.notes⟩ :=
  ⟨h.toKeeps, [], (List.append_nil _).symm, fun _ => h.tends⟩

theorem Reads.used (h : Reads i t t') (hi : t.worker.Used i) : t'.worker.Used i := by
  rw [h.keeps.onSlot.used_eq]
  exact hi

@[simp] theorem dest_set (t : Reading) (i : ℕ) (d : Dest) : (t.set i d).dest i = d :=
  dest_setDest t.worker i d

theorem set_reads (h : Quiet (t.dest i) d) : Reads i t (t.set i d) :=
  Works.reads (setDest_quiet h) t.clock

theorem fail_reads (hi : t.worker.Used i) : Reads i t (t.fail i) :=
  Works.reads (fail_works hi) t.clock

theorem flush_reads (hi : t.worker.Used i) (socket : Option ℕ) :
    Reads i t (t.flush i socket) := by
  refine ⟨flush_keeps hi socket, [.flush t.worker i socket], rfl, fun hall => ?_⟩
  exact flush_tends (hall _ (List.mem_singleton_self _))

theorem Reads.tick (h : Reads i t t') : Reads i t t'.tick := ⟨h.keeps, h.tends⟩

theorem send_quiet (mem : Option Memory) (csid type streamId : ℕ) (body : Payload) (d : Dest) :
    Quiet d (send mem csid type streamId body d) := by
  unfold send
  cases mem with
  | none => exact .refl d
  | some mem =>
    refine ⟨rfl, rfl, rfl, rfl, rfl, rfl, rfl, rfl, fun hempty => ?_⟩
    dsimp only at hempty
    have hcases := queueMessage_cases destLimits mem d.out
      (whole csid type streamId 0 body) (some destLimits.maxBytes)
    generalize queueMessage destLimits mem d.out (whole csid type streamId 0 body)
      (some destLimits.maxBytes) = result at hcases hempty
    cases hcases with
    | refused rc _ => exact hempty
    | queued w parts refs wire data hfoot hqueue hrefs hwriter hwire hbytes =>
      exact (List.append_eq_nil_iff.mp hempty).1

theorem sendBuilt_quiet (mem : Option Memory) (command : Option RtmpAmf.Writer) (d : Dest) :
    Quiet d (RtmpReplies.sendBuilt mem command d) := by
  unfold RtmpReplies.sendBuilt
  cases command with
  | none => exact .refl d
  | some w => exact send_quiet _ _ _ _ _ d

theorem sendPublishSequence_quiet (mem : ℕ → Option Memory) (target : Target) (d : Dest) :
    Quiet d (sendPublishSequence mem target d) :=
  (((sendBuilt_quiet (mem 0) _ d).trans (sendBuilt_quiet (mem 1) _ _)).trans
    (sendBuilt_quiet (mem 2) _ _)).phase .create

theorem sendPublish_quiet (mem : Option Memory) (target : Target) (data : List UInt8) (d : Dest) :
    Quiet d (sendPublish mem target (takeStreamId data d)) := by
  have htake : Quiet d (takeStreamId data d) := ⟨rfl, rfl, rfl, rfl, rfl, rfl, rfl, rfl, id⟩
  unfold sendPublish
  cases RtmpReplies.publishCommand target with
  | none => exact htake
  | some w => exact htake.trans ((send_quiet _ _ _ _ _ _).phase .publish)

theorem sendConnect_quiet (mem : Option Memory) (target : Target) (d : Dest) :
    Quiet d (sendConnect mem target d) := by
  unfold sendConnect
  cases RtmpReplies.connectCommand target with
  | none => exact .refl d
  | some w => exact (send_quiet _ _ _ _ _ d).phase .connect

theorem queueRaw_quiet {mem : Bool} {data : List UInt8} {out : Output}
    (h : queueRaw destLimits mem d.out data = (out, .ok)) : Quiet d { d with out := out } := by
  unfold queueRaw at h
  split at h
  · cases h
  split at h
  · cases h
  · cases h
    exact ⟨rfl, rfl, rfl, rfl, rfl, rfl, rfl, rfl, fun hempty =>
      absurd hempty (List.append_ne_nil_of_right_ne_nil _ (List.cons_ne_nil _ _))⟩

theorem started_onSlot (i : ℕ) (w : Worker) : OnSlot i w (started i w) := by
  have hmodify : OnSlot i w (w.modify i fun s =>
      { s with dest := { s.dest with state := .publishing, cursor := 0 }, deadline := 0 }) :=
    modify_onSlot rfl rfl
  exact (hmodify.trans (maintenanceUpdate_onSlot i _)).trans (schedule_onSlot i _)

theorem started_works (hi : w.Used i) : Works i w (started i w) := by
  have hmodify : Keeps i w (w.modify i fun s =>
      { s with dest := { s.dest with state := .publishing, cursor := 0 }, deadline := 0 }) :=
    modify_keeps rfl rfl rfl fun h => ⟨h.used, h.connection, h.prepared, fun _ => rfl⟩
  have hused := hmodify.onSlot.used_eq.symm ▸ hi
  have hupdate := maintenanceUpdate_works hused
  have hused' := hupdate.onSlot.used_eq.symm ▸ hused
  have hkeeps := hmodify.trans hupdate.toKeeps
  refine ⟨hkeeps.trans (schedule_keeps hused'), fun hole among hs hexiting ha => ?_⟩
  refine (started_onSlot i w).attended ha fun _ => ?_
  exact schedule_awake hused' (hkeeps.sound hole hs) (hkeeps.onSlot.exiting.trans hexiting)

theorem onCommand_reads (hi : t.worker.Used i) (m : Moment) (payload : Payload) :
    Reads i t (onCommand target i m t payload) := by
  have hsend : ∀ d, Quiet (t.dest i) d → Reads i t ((t.set i d).flush i m.socket) := by
    intro d hd
    have hset := set_reads hd
    exact hset.trans (flush_reads (hset.used hi) m.socket)
  unfold onCommand
  split
  · exact .refl t
  dsimp only
  split_ifs
  · split
    · exact hsend _ (sendPublishSequence_quiet _ _ _)
    · exact hsend _ (sendPublish_quiet _ _ _ _)
    · exact .refl t
  · exact .refl t
  · split
    · exact .refl t
    split_ifs
    · exact Works.reads (started_works hi) t.clock
    · exact fail_reads hi
  · exact .refl t

theorem onMessage_reads (hi : t.worker.Used i) (m : Moment) (type : ℕ) (payload : Payload) :
    Reads i t (onMessage target i m t type payload) := by
  unfold onMessage
  split_ifs
  · exact onCommand_reads hi m payload
  · exact set_reads (send_quiet _ _ _ _ _ _)
  · exact .refl t

theorem setReader_quiet (d : Dest) (r : Reader) : Quiet d (setReader d r) :=
  ⟨rfl, rfl, rfl, rfl, rfl, rfl, rfl, rfl, id⟩

theorem withReader_reads (t : Reading) (r : Reader) : Reads i t (t.withReader i r) :=
  set_reads (setReader_quiet _ r)

theorem complete_reads (hi : t.worker.Used i) (csid : ℕ) (cs : ChunkStream) :
    Reads i t (complete env target i t csid cs).1 := by
  unfold complete
  dsimp only
  split
  · exact withReader_reads t _
  rename_i payload _
  split
  · rename_i r _
    have hreader := withReader_reads (i := i) t r
    have hanswer := hreader.trans (@onMessage_reads target i _ (hreader.used hi)
      (env t.clock) cs.type (payload.take cs.length))
    exact (hanswer.trans (set_reads (setReader_quiet _ _))).tick
  · exact withReader_reads t _

def Step.reading : Step → Reading
  | .stop t => t
  | .fail t _ => t
  | .next t _ => t

theorem Step.reading_after (h : ℕ) (step : Step) : (step.after h).reading = step.reading := by
  cases step <;> rfl

theorem payloadStep_reads (hi : t.worker.Used i) (csid : ℕ) (cs : ChunkStream)
    (bytes : List UInt8) : Reads i t (payloadStep env target i t csid cs bytes).reading := by
  unfold payloadStep
  dsimp only
  split_ifs
  · have hreader := withReader_reads (i := i) t
      (finish (advance (t.dest i).reader csid cs (bytes.take (wanted (t.dest i).reader cs))))
    have hdone := hreader.trans (@complete_reads env target i _ (hreader.used hi)
      csid (copied cs (bytes.take (wanted (t.dest i).reader cs))))
    split
    · rename_i heq
      rw [heq] at hdone
      exact hdone
    · rename_i heq
      rw [heq] at hdone
      exact hdone
  · exact withReader_reads t _

theorem loopStep_reads (hi : t.worker.Used i) (bytes : List UInt8) :
    Reads i t (loopStep env target i t bytes).reading := by
  unfold loopStep
  dsimp only
  split_ifs
  · split
    · exact withReader_reads t _
    · exact payloadStep_reads hi _ _ bytes
  · split
    · exact withReader_reads t _
    · exact withReader_reads t _
    · rename_i r csid cs h _
      rw [Step.reading_after]
      have hreader := withReader_reads (i := i) t r
      exact hreader.trans (payloadStep_reads (hreader.used hi) csid cs _)

theorem feedLoop_reads (hi : t.worker.Used i) (n : ℕ) (bytes : List UInt8) :
    Reads i t (feedLoop env target i n t bytes).1 := by
  induction n generalizing t bytes with
  | zero => exact .refl t
  | succ n ih =>
    rw [feedLoop]
    split
    · exact .refl t
    have hstep := @loopStep_reads env target i t hi bytes
    generalize loopStep env target i t bytes = step at hstep ⊢
    cases step with
    | stop t' => exact hstep
    | fail t' consumed => exact hstep
    | next t' consumed => exact hstep.trans (ih (hstep.used hi) _)

theorem moved_quiet (consumed : ℕ) (d : Dest) : Quiet d (moved consumed d) := by
  unfold moved
  split
  · exact .refl d
  · exact ⟨rfl, rfl, rfl, rfl, rfl, rfl, rfl, rfl, id⟩

theorem handshakeDone_reads (hi : t.worker.Used i) (m : Moment) :
    Reads i t (handshakeDone target i m t) := by
  unfold handshakeDone
  dsimp only
  split
  · rename_i out hqueue
    have hquiet := ((queueRaw_quiet hqueue).trans (send_quiet (m.mem 0) csidControl msgChunkSize 0
      (put32 outChunk) _)).trans (sendConnect_quiet (m.mem 1) target _)
    have hset := set_reads hquiet
    exact hset.trans (flush_reads (hset.used hi) m.socket)
  · exact fail_reads hi

theorem answerHandshake_reads (hi : t.worker.Used i) :
    Reads i t (answerHandshake env target i t).1 := by
  unfold answerHandshake
  dsimp only
  split_ifs
  · have hset : Reads i t (t.set i { t.dest i with replySent := true }) :=
      set_reads ⟨rfl, rfl, rfl, rfl, rfl, rfl, rfl, rfl, id⟩
    exact (hset.trans (handshakeDone_reads (hset.used hi) (env t.clock))).tick
  · exact .refl t

theorem greeted_works (hi : w.Used i) (hstate : (w.dest i).state ≠ .publishing) :
    Works i w (greeted i w) := by
  have hmodify : Works i w (w.modify i fun s =>
      { s with dest := { s.dest with state := .commands }, deadline := w.now }) :=
    modify_idle rfl rfl rfl (fun h => ⟨h.used, h.connection, h.prepared, fun hmeta =>
      absurd (h.publishing hmeta) hstate⟩) nofun
  exact hmodify.trans (maintenanceUpdate_works (hmodify.onSlot.used_eq.symm ▸ hi))

theorem handshakeDone_state (m : Moment) (hstate : (t.dest i).state ≠ .publishing) :
    ((handshakeDone target i m t).dest i).state ≠ .publishing := by
  unfold handshakeDone
  dsimp only
  split
  · rename_i out hqueue
    have hquiet := ((queueRaw_quiet hqueue).trans (send_quiet (m.mem 0) csidControl msgChunkSize 0
      (put32 outChunk) _)).trans (sendConnect_quiet (m.mem 1) target _)
    have hset : ((t.set i (sendConnect (m.mem 1) target (sendControl (m.mem 0) msgChunkSize
        (put32 outChunk) { t.dest i with out := out }))).dest i).state = (t.dest i).state := by
      rw [dest_set]
      exact hquiet.state
    rcases flush_state m.socket i _ with hkept | hidle
    · exact fun heq => hstate (hset.symm.trans (hkept.symm.trans heq))
    · exact fun heq => absurd (hidle.symm.trans heq) (by decide)
  · have hidle : ((t.fail i).dest i).state = .idle := by
      change ((fail i t.worker).dest i).state = .idle
      dsimp only [RtmpWorker.fail]
      rw [release_dest]
      rfl
    rw [hidle]
    decide

theorem answerHandshake_state (hstate : (t.dest i).state ≠ .publishing) :
    (((answerHandshake env target i t).1).dest i).state ≠ .publishing := by
  unfold answerHandshake
  dsimp only
  split_ifs
  · refine handshakeDone_state (env t.clock) ?_
    rw [dest_set]
    exact hstate
  · exact hstate

theorem handshakePart_reads (hi : t.worker.Used i) :
    Reads i t (handshakePart env target i t).1 := by
  unfold handshakePart
  split_ifs with hstate
  · exact .refl t
  rw [not_not] at hstate
  generalize handshakeFeed (t.dest i).handshake (inBuffer (t.dest i)) = fed
  obtain ⟨hs, consumed, rc⟩ := fed
  dsimp only
  have hquiet : Quiet (t.dest i) (moved consumed { t.dest i with handshake := hs }) := by
    have hhs : Quiet (t.dest i) { t.dest i with handshake := hs } :=
      ⟨rfl, rfl, rfl, rfl, rfl, rfl, rfl, rfl, id⟩
    exact hhs.trans (moved_quiet consumed _)
  have hset := set_reads hquiet
  split
  · exact hset.trans (fail_reads (hset.used hi))
  have hanswer := hset.trans (@answerHandshake_reads env target i _ (hset.used hi))
  have hnot := @answerHandshake_state env target i
    (t.set i (moved consumed { t.dest i with handshake := hs })) (by
      rw [dest_set, hquiet.state, hstate]
      decide)
  generalize answerHandshake env target i _ = answered at hanswer hnot ⊢
  obtain ⟨t', returns⟩ := answered
  cases returns with
  | true => exact hanswer
  | false =>
    dsimp only at hanswer hnot ⊢
    split_ifs
    · exact hanswer.trans (Works.reads (greeted_works (hanswer.used hi) hnot) t'.clock)
    · exact hanswer

theorem chunkPart_reads (hi : t.worker.Used i) : Reads i t (chunkPart env target i t).1 := by
  unfold chunkPart
  split_ifs
  · exact .refl t
  have hfeed : Reads i t (feed env target i t (inBuffer (t.dest i))).1 := feedLoop_reads hi _ _
  generalize feed env target i t (inBuffer (t.dest i)) = fed at hfeed ⊢
  obtain ⟨t', consumed, rc⟩ := fed
  dsimp only at hfeed ⊢
  split_ifs
  · exact hfeed.trans (fail_reads (hfeed.used hi))
  · exact hfeed.trans (set_reads (moved_quiet consumed _))

theorem leave_reads (hi : t.worker.Used i) : Reads i t (t.leave env i) := by
  unfold Reading.leave
  split_ifs
  · exact flush_reads hi _
  · exact .refl t

theorem readLoop_reads (hi : t.worker.Used i) (script : List Recv) :
    Reads i t (readLoop env target i script t) := by
  induction script generalizing t with
  | nil => exact leave_reads hi
  | cons recv rest ih =>
    unfold readLoop
    dsimp only
    split
    · exact fail_reads hi
    cases recv with
    | again => exact leave_reads hi
    | closed => exact fail_reads hi
    | data bytes =>
      dsimp only
      split
      · exact fail_reads hi
      have hreceive : Reads i t (t.set i (receive (bytes.take
          (minus readBuffer (t.dest i).pendingLen)) (t.dest i))) :=
        set_reads ⟨rfl, rfl, rfl, rfl, rfl, rfl, rfl, rfl, id⟩
      have hshake := hreceive.trans
        (@handshakePart_reads env target i _ (hreceive.used hi))
      generalize handshakePart env target i _ = shaken at hshake ⊢
      obtain ⟨t₁, returns₁⟩ := shaken
      cases returns₁ with
      | true => exact hshake
      | false =>
        dsimp only at hshake ⊢
        have hchunk := hshake.trans
          (@chunkPart_reads env target i _ (hshake.used hi))
        generalize chunkPart env target i t₁ = chunked at hchunk ⊢
        obtain ⟨t₂, returns₂⟩ := chunked
        cases returns₂ with
        | true => exact hchunk
        | false =>
          dsimp only at hchunk ⊢
          have hflush := (hchunk.trans
            (flush_reads (hchunk.used hi) (env t₂.clock).socket)).tick
          split_ifs
          · exact hflush
          · exact hflush.trans (ih (hflush.used hi))

theorem readHandler_reads {hole : Option ℕ} (hs : Sound hole w) (script : List Recv) :
    Reads i ⟨w, 0, []⟩ (readHandler env target i script w) := by
  unfold readHandler
  split_ifs with hconnection
  · exact .refl _
  · have hi : w.Used i := (hs.proper i).used (by rwa [Bool.not_eq_false] at hconnection)
    exact readLoop_reads hi script

end RtmpReading
