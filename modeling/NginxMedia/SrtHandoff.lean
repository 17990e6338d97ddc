import NginxMedia.SrtSessions
import NginxMedia.TsFeed

/-! The events and the payload of one session go through two queues. What the demultiplexer of a
session is fed is what was queued for it, in every run in which the worker meets neither the
OPEN nor the CLOSE of a session on the wrong side of its chunks. -/
namespace SrtHandoff

open SrtIngest SrtSessions

variable {mem : TsDemux.Memory} {admits : ℕ → Bool} {w : World}

def dataOf (id : ℕ) (chunks : List Chunk) : List (List UInt8) :=
  (chunks.filter fun c => c.sessionId = id).map Chunk.data

def pending (w : World) : List Chunk := w.chunkBatch ++ w.ingest.payload.chunks

def unseen (w : World) : List Event := w.eventBatch ++ w.ingest.events

/-- What a demultiplexer becomes under the calls of `ngx_media_ts_demux_feed()`. -/
def fedAll (mem : TsDemux.Memory) (chunks : List (List UInt8)) : TsDemux.Demux :=
  chunks.foldl (TsDemux.feed mem) demuxStart

structure HandedOff (mem : TsDemux.Memory) (w : World) : Prop where
  live : ∀ i slot, w.slots i = some slot →
    dataOf slot.id w.queued = slot.fed ++ dataOf slot.id (pending w) ∧
      slot.demux = fedAll mem slot.fed
  closed : ∀ slot ∈ w.closedSlots, slot.fed = dataOf slot.id w.queued ∧
    ∃ demux, demux = fedAll mem slot.fed ∧
      slot.demux = { demux with core := TsDemux.flush mem demux.core }

def pushesOpen : ThreadPc → Bool
  | .opening _ _ => true
  | _ => false

def Overflows (w : World) (call : Call) : Prop :=
  match call with
  | .listen _ => w.thread = .start ∧ w.ingest.eventsFull
  | .receive i data =>
    w.thread = .poll ∧ (w.ingest.sessions i).isSome ∧ w.ingest.payload.full data.length
  | .thread _ => pushesOpen w.thread ∧ w.ingest.eventsFull
  | _ => Finishes w call ∧ w.ingest.eventsFull

def Admitted (admits : ℕ → Bool) (event : Event) : Prop :=
  event.type = .opened ∧ event.streamid ≠ [] ∧ admits event.sessionId = true

def InOrder (admits : ℕ → Bool) (w : World) : Call → Prop
  | .worker =>
    match w.worker with
    | .events (event :: _) =>
      event.type = .closed → (slotFind w event.sessionId).isSome →
        ∀ chunk ∈ w.ingest.payload.chunks, chunk.sessionId ≠ event.sessionId
    | .chunks (chunk :: _) =>
      ∀ event ∈ w.ingest.events, Admitted admits event → event.sessionId ≠ chunk.sessionId
    | _ => True
  | _ => True

def Allowed (admits : ℕ → Bool) (w : World) (call : Call) : Prop :=
  ¬ Overflows w call ∧ InOrder admits w call

instance (w : World) (call : Call) : Decidable (Overflows w call) :=
  match call with
  | .listen _ | .receive _ _ | .accept _ | .disconnect _ | .requested _ | .closeSession _
  | .thread _ | .worker => inferInstanceAs (Decidable (_ ∧ _))

instance (admits : ℕ → Bool) (event : Event) : Decidable (Admitted admits event) :=
  inferInstanceAs (Decidable (_ ∧ _ ∧ _))

instance (admits : ℕ → Bool) (w : World) (call : Call) : Decidable (InOrder admits w call) := by
  unfold InOrder
  split
  · split <;> infer_instance
  · infer_instance

instance (admits : ℕ → Bool) (w : World) (call : Call) : Decidable (Allowed admits w call) :=
  inferInstanceAs (Decidable (_ ∧ _))

theorem Allowed.fits {call : Call} (h : Allowed admits w call) : FinishFits w call := by
  intro hfinish
  have hroom : ¬ (Finishes w call ∧ w.ingest.eventsFull = true) := by
    cases call with
    | disconnect i => exact h.1
    | requested i => exact h.1
    | listen | accept | receive | closeSession | thread | worker => exact hfinish.elim
  exact Bool.eq_false_iff.mpr fun hfull => hroom ⟨hfinish, hfull⟩

section Data

variable {a b : List Chunk} {c : Chunk} {id : ℕ}

@[simp] theorem dataOf_append : dataOf id (a ++ b) = dataOf id a ++ dataOf id b := by
  simp [dataOf]

@[simp] theorem dataOf_nil : dataOf id [] = [] := rfl

theorem dataOf_cons_same (h : c.sessionId = id) : dataOf id (c :: a) = c.data :: dataOf id a := by
  simp [dataOf, h]

theorem dataOf_cons_other (h : c.sessionId ≠ id) : dataOf id (c :: a) = dataOf id a := by
  simp [dataOf, h]

theorem dataOf_none (h : ∀ c ∈ a, c.sessionId ≠ id) : dataOf id a = [] := by
  rw [dataOf, List.map_eq_nil_iff, List.filter_eq_nil_iff]
  intro c hc
  simpa using h c hc

end Data

structure Fed (mem : TsDemux.Memory) (admits : ℕ → Bool) (w : World) : Prop where
  announced : ∀ c ∈ w.queued, c.sessionId ∈ opens w.pushed
  suffix : pending w <:+ w.queued
  unread : ∀ event ∈ unseen w, Admitted admits event →
    dataOf event.sessionId w.queued = dataOf event.sessionId (pending w)
  handed : HandedOff mem w
  gone : ∀ slot ∈ w.closedSlots, slot.id ∈ closes w.handled

structure Inv (mem : TsDemux.Memory) (admits : ℕ → Bool) (w : World) : Prop where
  sessions : SrtSessions.Inv w
  fed : Fed mem admits w

theorem fed_start (eventsCapacity maxChunks maxBytes : ℕ) :
    Fed mem admits (start eventsCapacity maxChunks maxBytes) := by
  refine ⟨by simp [start], by simp [pending, World.chunkBatch, start],
    by simp [unseen, World.eventBatch, start], ⟨?_, ?_⟩, by simp [start]⟩
  · intro i slot hs
    cases hs
  · simp [start]

theorem Fed.of_same {v : World} (h : Fed mem admits w) (hqueued : v.queued = w.queued)
    (hpending : pending v = pending w) (hslots : v.slots = w.slots)
    (hclosed : v.closedSlots = w.closedSlots) (hopens : opens w.pushed ⊆ opens v.pushed)
    (hunseen : ∀ event ∈ unseen v, Admitted admits event → event ∈ unseen w)
    (hhandled : closes w.handled ⊆ closes v.handled) : Fed mem admits v := by
  refine ⟨?_, ?_, ?_, ⟨?_, ?_⟩, ?_⟩
  · rw [hqueued]
    exact fun c hc => hopens (h.announced c hc)
  · rw [hqueued, hpending]
    exact h.suffix
  · rw [hqueued, hpending]
    exact fun event hm ha => h.unread event (hunseen event hm ha) ha
  · rw [hqueued, hpending, hslots]
    exact h.handed.live
  · rw [hqueued, hclosed]
    exact h.handed.closed
  · rw [hclosed]
    exact fun slot hs => hhandled (h.gone slot hs)

theorem Fed.push (h : Fed mem admits w) (event : Event) (pc : ThreadPc)
    (htype : event.type ≠ .opened) : Fed mem admits (w.push event pc) := by
  have hpushed : opens w.pushed ⊆ opens (w.push event pc).pushed := by
    unfold World.push
    split
    · exact fun _ hx => hx
    · rw [opens_append]
      exact List.subset_append_left _ _
  have hpayload : (eventPush w.ingest event).payload = w.ingest.payload := by
    unfold eventPush
    split <;> rfl
  have hring : ∀ e ∈ (eventPush w.ingest event).events, e ∈ w.ingest.events ∨ e = event := by
    unfold eventPush
    split
    · exact fun e he => Or.inl he
    · intro e he
      simpa using he
  refine h.of_same rfl ?_ rfl rfl hpushed ?_ fun _ hx => hx
  · show _ ++ (eventPush w.ingest event).payload.chunks = _
    rw [hpayload]
    rfl
  · intro e he hadmit
    rcases List.mem_append.mp he with he | he
    · exact List.mem_append_left _ he
    · rcases hring e he with he | rfl
      · exact List.mem_append_right _ he
      · exact absurd hadmit.1 htype

theorem Fed.pushOpen {v : World} (h : Fed mem admits w) (event : Event)
    (hnew : event.sessionId ∉ opens w.pushed) (hqueued : v.queued = w.queued)
    (hpending : pending v = pending w) (hslots : v.slots = w.slots)
    (hclosed : v.closedSlots = w.closedSlots) (hpushed : v.pushed = w.pushed ++ [event])
    (hunseen : unseen v = unseen w ++ [event]) (hhandled : v.handled = w.handled) :
    Fed mem admits v := by
  refine ⟨?_, ?_, ?_, ⟨?_, ?_⟩, ?_⟩
  · rw [hqueued, hpushed, opens_append]
    exact fun c hc => List.mem_append_left _ (h.announced c hc)
  · rw [hqueued, hpending]
    exact h.suffix
  · rw [hqueued, hpending, hunseen]
    intro e he hadmit
    rcases List.mem_append.mp he with he | he
    · exact h.unread e he hadmit
    · obtain rfl : e = event := by simpa using he
      have hnone : ∀ c ∈ w.queued, c.sessionId ≠ e.sessionId := by
        intro c hc heq
        exact hnew (heq ▸ h.announced c hc)
      rw [dataOf_none hnone, dataOf_none fun c hc => hnone c (h.suffix.subset hc)]
  · rw [hqueued, hpending, hslots]
    exact h.handed.live
  · rw [hqueued, hclosed]
    exact h.handed.closed
  · rw [hclosed, hhandled]
    exact h.gone

theorem Fed.of_worker {v : World} (h : Fed mem admits w) (hqueued : v.queued = w.queued)
    (hworker : v.worker = w.worker) (hchunks : v.ingest.payload.chunks = w.ingest.payload.chunks)
    (hevents : v.ingest.events = w.ingest.events) (hslots : v.slots = w.slots)
    (hclosed : v.closedSlots = w.closedSlots) (hpushed : v.pushed = w.pushed)
    (hhandled : v.handled = w.handled) : Fed mem admits v := by
  have hpending : pending v = pending w := by
    simp only [pending, World.chunkBatch, hworker, hchunks]
  have hunseen : unseen v = unseen w := by
    simp only [unseen, World.eventBatch, hworker, hevents]
  refine h.of_same hqueued hpending hslots hclosed ?_ ?_ ?_
  · rw [hpushed]
    exact fun _ hx => hx
  · rw [hunseen]
    exact fun _ hm _ => hm
  · rw [hhandled]
    exact fun _ hx => hx

theorem fed_threadStep (h : Inv mem admits w) (written : Bool) :
    Fed mem admits (threadStep w written) := by
  cases hpc : w.thread with
  | opening i streamid =>
    have hl := h.sessions.ledger.of_pc hpc
    obtain ⟨id, hid, hnew, _⟩ := hl.opening i streamid rfl
    obtain ⟨state, hs, rfl⟩ := Option.map_eq_some_iff.mp hid
    simp only [threadStep, hpc, hs]
    by_cases hfull : w.ingest.eventsFull = true
    · rw [if_pos hfull]
      simp only [World.push, eventPush, hfull, if_true]
      exact h.fed.of_worker rfl rfl rfl rfl rfl rfl rfl rfl
    · rw [if_neg hfull]
      refine h.fed.pushOpen (openEvent state.id streamid) hnew rfl ?_ rfl rfl ?_ ?_ rfl
      · simp only [World.push, eventPush, hfull, if_false, Bool.false_eq_true]
        rfl
      · simp only [World.push, hfull, if_false, Bool.false_eq_true]
      · simp only [World.push, eventPush, hfull, if_false, Bool.false_eq_true]
        exact (List.append_assoc _ _ _).symm
  | write =>
    simp only [threadStep, hpc]
    split
    · exact h.fed.of_worker rfl rfl rfl rfl rfl rfl rfl rfl
    · exact h.fed.of_worker rfl rfl rfl rfl rfl rfl rfl rfl
  | start | poll | refused | closing | releasing | notify | set | unset =>
    simp only [threadStep, hpc]
    exact h.fed.of_worker rfl rfl rfl rfl rfl rfl rfl rfl

theorem Fed.queued {v : World} (h : Fed mem admits w) (chunk : Chunk)
    (hopen : chunk.sessionId ∈ opens w.pushed)
    (hlive : ∀ slot ∈ w.closedSlots, slot.id ≠ chunk.sessionId)
    (hqueued : v.queued = w.queued ++ [chunk]) (hpending : pending v = pending w ++ [chunk])
    (hunseen : unseen v = unseen w) (hslots : v.slots = w.slots)
    (hclosed : v.closedSlots = w.closedSlots) (hpushed : v.pushed = w.pushed)
    (hhandled : v.handled = w.handled) : Fed mem admits v := by
  refine ⟨?_, ?_, ?_, ⟨?_, ?_⟩, ?_⟩
  · rw [hqueued, hpushed]
    intro c hc
    rcases List.mem_append.mp hc with hc | hc
    · exact h.announced c hc
    · obtain rfl : c = chunk := by simpa using hc
      exact hopen
  · rw [hqueued, hpending]
    obtain ⟨before, hbefore⟩ := h.suffix
    exact ⟨before, by rw [← List.append_assoc, hbefore]⟩
  · rw [hqueued, hpending, hunseen]
    intro event hm hadmit
    rw [dataOf_append, dataOf_append, h.unread event hm hadmit]
  · rw [hqueued, hpending, hslots]
    intro i slot hs
    obtain ⟨hdata, hdemux⟩ := h.handed.live i slot hs
    rw [dataOf_append, dataOf_append, hdata, List.append_assoc]
    exact ⟨rfl, hdemux⟩
  · rw [hqueued, hclosed]
    intro slot hs
    have hnone : dataOf slot.id [chunk] = [] := by
      apply dataOf_none
      intro c hc heq
      obtain rfl : c = chunk := by simpa using hc
      exact hlive slot hs heq.symm
    rw [dataOf_append, hnone, List.append_nil]
    exact h.handed.closed slot hs
  · rw [hclosed, hhandled]
    exact h.gone

theorem fed_receive (h : Inv mem admits w) {i : Fin maxSessions} {state : SessionState}
    (hs : w.ingest.sessions i = some state) (hpoll : w.thread = .poll) (data : List UInt8) :
    Fed mem admits (receive w i state data) := by
  have hid : ids w.ingest.sessions i = some state.id := by simp [ids, hs]
  have hquiet : Quiet w.thread := by rw [hpoll]; trivial
  have hopen : state.id ∈ opens w.pushed := by
    rcases Ledger.known h.sessions.ledger i state.id hid with hk | ⟨_, hk⟩ | hk
    · exact hk
    · rw [hpoll] at hk
      cases hk
    · rw [hpoll] at hk
      cases hk
  have hlive : ∀ slot ∈ w.closedSlots, slot.id ≠ state.id := by
    intro slot hslot heq
    refine Ledger.quiet_unclosed h.sessions.ledger hquiet hid ?_
    rw [h.sessions.bound.split, closes_append, closes_append, ← heq]
    exact List.mem_append_left _ (List.mem_append_left _ (h.fed.gone slot hslot))
  unfold receive
  by_cases hnone : data = [] ∨ data.length > chunkMax
  · rw [if_pos hnone]
    exact h.fed
  · rw [if_neg hnone]
    have hne : data ≠ [] := fun he => hnone (Or.inl he)
    have hlen : ¬ (data.length = 0 ∨ data.length > chunkMax) := by
      rintro (hz | hz)
      · exact hne (List.length_eq_zero_iff.mp hz)
      · exact hnone (Or.inr hz)
    have hle : data.length ≤ chunkMax := by
      by_contra hgt
      exact hnone (Or.inr (by omega))
    by_cases hfull : w.ingest.payload.full data.length = true
    · have hno : w.ingest.payload.accepts data = false := by simp [Payload.accepts, hfull]
      simp only [Payload.write, hlen, hfull, hno, if_true, if_false, Bool.false_eq_true]
      exact h.fed.of_worker rfl rfl rfl rfl rfl rfl rfl rfl
    · have hyes : w.ingest.payload.accepts data = true := by
        simp [Payload.accepts, hfull, hne, hle]
      simp only [Payload.write, hlen, hfull, hyes, if_true, if_false, Bool.false_eq_true]
      refine h.fed.queued ⟨state.id, data⟩ hopen hlive rfl ?_ rfl rfl rfl rfl rfl
      exact (List.append_assoc _ _ _).symm

theorem demux_feed (slot : Slot) (data : List UInt8) (h : slot.demux = fedAll mem slot.fed) :
    (slot.feed mem data).demux = fedAll mem (slot.feed mem data).fed := by
  simp only [Slot.feed, fedAll, List.foldl_append, List.foldl_cons, List.foldl_nil, h]

theorem fed_handleEvent (h : Inv mem admits w) {event : Event} {rest : List Event}
    (hpc : w.worker = .events (event :: rest)) (horder : InOrder admits w .worker) :
    Fed mem admits { handleEvent mem admits w event with
      worker := .events rest, handled := w.handled ++ [event] } := by
  have hbatch : w.eventBatch = event :: rest := by simp only [World.eventBatch, hpc]
  have hchunks : w.chunkBatch = [] := by simp only [World.chunkBatch, hpc]
  have hunseen : ∀ v : World, v.worker = .events rest → v.ingest.events = w.ingest.events →
      ∀ e ∈ unseen v, Admitted admits e → e ∈ unseen w := by
    intro v hworker hevents e he _
    have hv : unseen v = rest ++ w.ingest.events := by
      simp only [unseen, World.eventBatch, hworker, hevents]
    rw [unseen, hbatch, List.cons_append]
    exact List.mem_cons_of_mem _ (hv ▸ he)
  have hpending : ∀ v : World, v.worker = .events rest →
      v.ingest.payload = w.ingest.payload → pending v = pending w := by
    intro v hworker hpayload
    rw [pending, pending, hchunks, hpayload]
    simp only [World.chunkBatch, hworker]
  have hgrow : closes w.handled ⊆ closes (w.handled ++ [event]) := by
    rw [closes_append]
    exact List.subset_append_left _ _
  -- what the worker asks of the session table is no matter here
  have hsame : ∀ sessions, Fed mem admits { w with
      ingest := { w.ingest with sessions }, worker := .events rest
      handled := w.handled ++ [event] } := by
    intro sessions
    exact h.fed.of_same rfl (hpending _ rfl rfl) rfl rfl (fun _ hx => hx) (hunseen _ rfl rfl) hgrow
  have hask : ∀ id, Fed mem admits { w with
      ingest := closeSession w.ingest id, worker := .events rest
      handled := w.handled ++ [event] } := by
    intro id
    rw [closeSession_frame]
    exact hsame _
  cases htype : event.type with
  | ready =>
    simp only [handleEvent, htype]
    exact hsame w.ingest.sessions
  | failed =>
    simp only [handleEvent, htype]
    exact hsame w.ingest.sessions
  | opened =>
    simp only [handleEvent, htype, slotOpen]
    split
    · next i hfree =>
      split
      · next hadmit =>
        -- nothing of the session has been taken, so all of it is still queued
        have hmem : event ∈ unseen w := by
          rw [unseen, hbatch]
          exact List.mem_cons_self
        have hunread := h.fed.unread event hmem ⟨htype, hadmit⟩
        have hbase := hsame w.ingest.sessions
        refine ⟨hbase.announced, hbase.suffix, hbase.unread, ⟨?_, hbase.handed.closed⟩, hbase.gone⟩
        intro j slot hj
        rcases SlotTable.update_some hj with ⟨_, hslot⟩ | ⟨_, hslot⟩
        · cases hslot
          refine ⟨hunread.trans (congrArg (dataOf event.sessionId) (Eq.symm ?_)), rfl⟩
          exact hpending _ rfl rfl
        · exact hbase.handed.live j slot hslot
      · exact hask event.sessionId
    · exact hask event.sessionId
  | closed =>
    simp only [handleEvent, htype, slotClose]
    split
    · exact hsame w.ingest.sessions
    · next i hfind =>
      obtain ⟨slot, hslot, hid⟩ := SlotTable.find_some hfind
      have hslotId : slot.id = event.sessionId := of_decide_eq_true hid
      have hbase := hsame w.ingest.sessions
      simp only [InOrder, hpc] at horder
      have hqueue := horder htype (by rw [hfind]; rfl)
      have hnone : dataOf slot.id (pending w) = [] := by
        rw [pending, hchunks, List.nil_append]
        exact dataOf_none fun c hc => by rw [hslotId]; exact hqueue c hc
      obtain ⟨hdata, hdemux⟩ := h.fed.handed.live i slot hslot
      rw [hnone, List.append_nil] at hdata
      rw [hslot, Option.map_some, Option.toList_some]
      refine ⟨hbase.announced, hbase.suffix, hbase.unread, ⟨?_, ?_⟩, ?_⟩
      · intro j other hj
        rcases SlotTable.update_some hj with ⟨_, hother⟩ | ⟨_, hother⟩
        · cases hother
        · exact hbase.handed.live j other hother
      · intro done hdone
        rcases List.mem_append.mp hdone with hdone | hdone
        · exact hbase.handed.closed done hdone
        · obtain rfl : done = slot.flush mem := by simpa using hdone
          exact ⟨hdata.symm, slot.demux, hdemux, rfl⟩
      · intro done hdone
        rcases List.mem_append.mp hdone with hdone | hdone
        · exact hbase.gone done hdone
        · obtain rfl : done = slot.flush mem := by simpa using hdone
          simp [closes_single, htype, Slot.flush, hslotId]

theorem fed_handleChunk (h : Inv mem admits w) {chunk : Chunk} {rest : List Chunk}
    (hpc : w.worker = .chunks (chunk :: rest)) (horder : InOrder admits w .worker) :
    Fed mem admits { handleChunk mem w chunk with worker := .chunks rest } := by
  have hevents : w.eventBatch = [] := by simp only [World.eventBatch, hpc]
  have hpending : pending w = chunk :: (rest ++ w.ingest.payload.chunks) := by
    simp only [pending, World.chunkBatch, hpc, List.cons_append]
  simp only [InOrder, hpc] at horder
  have hsuffix : rest ++ w.ingest.payload.chunks <:+ w.queued := by
    refine List.IsSuffix.trans ?_ h.fed.suffix
    rw [hpending]
    exact List.suffix_cons _ _
  have hunread : ∀ event ∈ [] ++ w.ingest.events, Admitted admits event →
      dataOf event.sessionId w.queued =
        dataOf event.sessionId (rest ++ w.ingest.payload.chunks) := by
    intro event hm hadmit
    have hold := h.fed.unread event (by rw [unseen, hevents]; exact hm) hadmit
    rw [hpending, dataOf_cons_other (horder event hm hadmit).symm] at hold
    exact hold
  have hother : ∀ i slot, w.slots i = some slot → slot.id ≠ chunk.sessionId →
      dataOf slot.id w.queued = slot.fed ++ dataOf slot.id (rest ++ w.ingest.payload.chunks) ∧
        slot.demux = fedAll mem slot.fed := by
    intro i slot hs hne
    have hold := h.fed.handed.live i slot hs
    rw [hpending, dataOf_cons_other hne.symm] at hold
    exact hold
  unfold handleChunk
  split
  · next hfind =>
    refine ⟨h.fed.announced, hsuffix, hunread, ⟨?_, h.fed.handed.closed⟩, h.fed.gone⟩
    intro i slot hs
    exact hother i slot hs (by simpa using SlotTable.find_none hfind hs)
  · next i hfind =>
    obtain ⟨slot, hslot, hid⟩ := SlotTable.find_some hfind
    have hslotId : slot.id = chunk.sessionId := of_decide_eq_true hid
    rw [hslot, Option.map_some]
    refine ⟨h.fed.announced, hsuffix, hunread, ⟨?_, h.fed.handed.closed⟩, h.fed.gone⟩
    intro j other hj
    rcases SlotTable.update_some hj with ⟨_, hs⟩ | ⟨hne, hs⟩
    · cases hs
      obtain ⟨hdata, hdemux⟩ := h.fed.handed.live i slot hslot
      rw [hpending, dataOf_cons_same hslotId.symm] at hdata
      refine ⟨?_, demux_feed slot chunk.data hdemux⟩
      show dataOf slot.id w.queued =
        (slot.fed ++ [chunk.data]) ++ dataOf slot.id (rest ++ w.ingest.payload.chunks)
      rw [hdata, List.append_assoc]
      rfl
    · refine hother j other hs fun heq => hne ?_
      exact h.sessions.bound.distinct j i other slot hs hslot (heq.trans hslotId.symm)

theorem fed_workerStep (h : Inv mem admits w) (horder : InOrder admits w .worker) :
    Fed mem admits (workerStep mem admits w) := by
  cases hpc : w.worker with
  | idle =>
    simp only [workerStep, hpc]
    refine h.fed.of_same rfl ?_ rfl rfl (fun _ hx => hx) ?_ fun _ hx => hx
    · simp only [pending, World.chunkBatch, hpc]
    · simp only [unseen, World.eventBatch, hpc]
      exact fun _ hm _ => hm
  | taken =>
    simp only [workerStep, hpc]
    refine h.fed.of_same rfl ?_ rfl rfl (fun _ hx => hx) ?_ fun _ hx => hx
    · simp only [pending, World.chunkBatch, hpc]
    · simp only [unseen, World.eventBatch, hpc]
      exact fun _ hm _ => hm
  | events batch =>
    cases batch with
    | nil =>
      rcases workerStep_eventRead mem admits hpc with ⟨hnone, heq⟩ | ⟨e, batch, rest, hring, heq⟩
      · rw [heq]
        refine h.fed.of_same rfl ?_ rfl rfl (fun _ hx => hx) ?_ fun _ hx => hx
        · simp only [pending, World.chunkBatch, hpc]
        · simp only [unseen, World.eventBatch, hpc]
          exact fun _ hm _ => hm
      · rw [heq]
        refine h.fed.of_same rfl ?_ rfl rfl (fun _ hx => hx) ?_ fun _ hx => hx
        · simp only [pending, World.chunkBatch, hpc]
        · simp only [unseen, World.eventBatch, hpc, hring, List.nil_append]
          exact fun _ hm _ => hm
    | cons event rest =>
      simp only [workerStep, hpc]
      exact fed_handleEvent h hpc horder
  | chunks batch =>
    cases batch with
    | nil =>
      rcases workerStep_chunkRead mem admits hpc with ⟨hnone, heq⟩ | ⟨c, batch, rest, _, hqueue, heq⟩
      · rw [heq]
        refine h.fed.of_same rfl ?_ rfl rfl (fun _ hx => hx) ?_ fun _ hx => hx
        · simp only [pending, World.chunkBatch, hpc]
        · simp only [unseen, World.eventBatch, hpc]
          exact fun _ hm _ => hm
      · rw [heq]
        refine h.fed.of_same rfl ?_ rfl rfl (fun _ hx => hx) ?_ fun _ hx => hx
        · simp only [pending, World.chunkBatch, hpc, hqueue, List.nil_append]
        · simp only [unseen, World.eventBatch, hpc]
          exact fun _ hm _ => hm
    | cons chunk rest =>
      simp only [workerStep, hpc]
      exact fed_handleChunk h hpc horder

theorem inv_start (eventsCapacity maxChunks maxBytes : ℕ) :
    Inv mem admits (start eventsCapacity maxChunks maxBytes) :=
  ⟨SrtSessions.inv_start _ _ _, fed_start _ _ _⟩

theorem fed_finish (h : Inv mem admits w) (i : Fin maxSessions) (state : SessionState) :
    Fed mem admits (sessionFinish w i state) :=
  h.fed.push _ _ (by simp [closeEvent])

theorem fed_step (h : Inv mem admits w) {call : Call} (horder : InOrder admits w call) :
    Fed mem admits (step mem admits w call) := by
  cases call with
  | listen ok =>
    simp only [step]
    split
    · have hpush := h.fed.push ⟨if ok then .ready else .failed, 0, 0, 0, []⟩ .notify
        (by cases ok <;> simp)
      exact hpush.of_worker rfl rfl rfl rfl rfl rfl rfl rfl
    · exact h.fed
  | accept streamid =>
    simp only [step]
    split
    · unfold sessionOpen
      split <;> exact h.fed.of_worker rfl rfl rfl rfl rfl rfl rfl rfl
    · exact h.fed
  | receive i data =>
    simp only [step]
    split
    · exact h.fed
    · next state hs =>
      split
      · next hpoll => exact fed_receive h hs hpoll data
      · exact h.fed
  | disconnect i =>
    simp only [step]
    split
    · exact h.fed
    · split
      · exact fed_finish h i _
      · exact h.fed
  | requested i =>
    simp only [step]
    split
    · exact h.fed
    · split
      · exact fed_finish h i _
      · exact h.fed
  | closeSession id =>
    simp only [step]
    rw [closeSession_frame]
    exact h.fed.of_worker rfl rfl rfl rfl rfl rfl rfl rfl
  | thread written => exact fed_threadStep h written
  | worker => exact fed_workerStep h horder

theorem inv_step (h : Inv mem admits w) {call : Call} (hallowed : Allowed admits w call) :
    Inv mem admits (step mem admits w call) :=
  ⟨SrtSessions.inv_step h.sessions hallowed.fits, fed_step h hallowed.2⟩

/-- The hand-off loses nothing, in every run in which no queue overflows and the worker meets
every session in order. -/
theorem nothing_lost (mem : TsDemux.Memory) (admits : ℕ → Bool)
    (eventsCapacity maxChunks maxBytes : ℕ) {calls : List Call}
    (hallowed : StepRun.Meets (step mem admits) (Allowed admits)
      (start eventsCapacity maxChunks maxBytes) calls) :
    HandedOff mem (run mem admits (start eventsCapacity maxChunks maxBytes) calls) := by
  have hstep : ∀ v call, Inv mem admits v → Allowed admits v call →
      Inv mem admits (step mem admits v call) := fun _ _ h hok => inv_step h hok
  exact (StepRun.invariant_of_meets hstep (inv_start _ _ _) hallowed).fed.handed

theorem nothing_lost_visit :
    HandedOff ⟨true, fun _ => true⟩
      (run ⟨true, fun _ => true⟩ (fun _ => true) (start 2 16 4096) visit) :=
  nothing_lost _ _ 2 16 4096 (by decide +kernel)

/-- The last chunk of a session and its CLOSE are both queued when the handler is called. -/
def lateTail : List Call :=
  [.listen true] ++ notifies ++ handler ++ [.accept [0x6B], .thread true] ++ notifies ++ handler ++
    [.receive 0 [0x47]] ++ notifies ++ [.disconnect 0, .thread true, .thread true] ++ notifies ++
    handler

/-- A session starts between the handler's last read of the events and its read of the chunks. -/
def earlyHead : List Call :=
  [.listen true] ++ notifies ++ [.worker, .worker, .worker, .worker, .worker] ++
    [.accept [0x6B], .thread true] ++ notifies ++ [.receive 0 [0x47]] ++ notifies ++
    handler ++ handler

/-- The slot is closed before the chunk is read, and a chunk is read before its session has a
slot. No queue overflows. -/
theorem chunk_lost :
    (∀ calls ∈ [lateTail, earlyHead],
      ¬ HandedOff ⟨true, fun _ => true⟩
        (run ⟨true, fun _ => true⟩ (fun _ => true) (start 8 16 4096) calls)) ∧
    ∀ calls ∈ [lateTail, earlyHead],
      (run ⟨true, fun _ => true⟩ (fun _ => true) (start 8 16 4096) calls).ingest.eventsDropped = 0 ∧
      (run ⟨true, fun _ => true⟩ (fun _ => true)
        (start 8 16 4096) calls).ingest.payload.chunksDropped = 0 := by
  refine ⟨?_, by decide +kernel⟩
  have htail : ¬ ∀ slot ∈ (run ⟨true, fun _ => true⟩ (fun _ => true)
      (start 8 16 4096) lateTail).closedSlots, slot.fed =
        dataOf slot.id (run ⟨true, fun _ => true⟩ (fun _ => true) (start 8 16 4096) lateTail).queued := by
    decide +kernel
  have hhead : ((run ⟨true, fun _ => true⟩ (fun _ => true) (start 8 16 4096) earlyHead).slots 0).any
      (fun slot => decide (dataOf slot.id (run ⟨true, fun _ => true⟩ (fun _ => true)
        (start 8 16 4096) earlyHead).queued ≠ slot.fed ++ dataOf slot.id (pending
          (run ⟨true, fun _ => true⟩ (fun _ => true) (start 8 16 4096) earlyHead)))) = true := by
    decide +kernel
  intro calls hcalls h
  rcases List.mem_pair.mp hcalls with rfl | rfl
  · exact htail fun slot hslot => (h.closed slot hslot).1
  · obtain ⟨slot, hslot, hne⟩ := (Option.any_eq_true _ _).mp hhead
    exact (of_decide_eq_true hne) (h.live 0 slot hslot).1

end SrtHandoff
