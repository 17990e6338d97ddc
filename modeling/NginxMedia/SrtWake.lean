import NginxMedia.SrtIngest

/-! No wake-up of the worker is lost: what is queued is covered by a byte on the eventfd, by a
byte that the ingest thread is about to write, or by a drain that will still see it. -/
namespace SrtWake

open SrtIngest

variable {mem : TsDemux.Memory} {admits : ℕ → Bool} {w : World}

/-- The ingest thread has pushed, and its `ngx_media_srt_notify()` writes the eventfd: it is past
the check of the flag, or it is before it and finds the flag clear, which only it sets. -/
def AboutToWrite (w : World) : Prop :=
  match w.thread with
  | .set | .write => True
  | .notify | .closing _ | .releasing _ => w.ingest.notified = false
  | _ => False

def Covered (w : World) : Prop := 0 < w.ingest.notifyFd ∨ AboutToWrite w

def DrainsEvents : WorkerPc → Prop
  | .taken | .events _ => True
  | _ => False

/-- The handler has been called and reads the payload queue again before it returns. -/
def DrainsChunks : WorkerPc → Prop
  | .taken | .events _ | .chunks _ => True
  | _ => False

structure Awake (w : World) : Prop where
  events : w.ingest.events ≠ [] → Covered w ∨ DrainsEvents w.worker
  chunks : w.ingest.payload.chunks ≠ [] → Covered w ∨ DrainsChunks w.worker

def FlagCovered (w : World) : Prop :=
  w.ingest.notified = true → 0 < w.ingest.notifyFd ∨ w.thread = .write ∨ w.worker = .taken

structure Inv (w : World) : Prop where
  flag : FlagCovered w
  written : w.thread ≠ .unset
  awake : Awake w

/-- Steps that touch neither the queues, the flag nor the eventfd. -/
theorem Inv.of_same {v : World} (h : Inv w) (hevents : v.ingest.events = w.ingest.events)
    (hchunks : v.ingest.payload.chunks = w.ingest.payload.chunks)
    (hfd : v.ingest.notifyFd = w.ingest.notifyFd) (hflag : v.ingest.notified = w.ingest.notified)
    (hthread : v.thread = w.thread) (hworker : v.worker = w.worker) : Inv v := by
  obtain ⟨hf, hw, ha⟩ := h
  have hcovered : Covered v = Covered w := by
    simp only [Covered, AboutToWrite, hfd, hflag, hthread]
  refine ⟨?_, ?_, ?_, ?_⟩
  · simpa only [FlagCovered, hfd, hflag, hthread, hworker] using hf
  · simpa only [hthread] using hw
  · simpa only [hevents, hcovered, hworker] using ha.events
  · simpa only [hchunks, hcovered, hworker] using ha.chunks

/-- A push leaves the thread before its check of the flag: whatever the queues hold now is
covered. -/
theorem Inv.pushed {v : World} (h : Inv w) (hthread : w.thread ≠ .write)
    (hfd : v.ingest.notifyFd = w.ingest.notifyFd) (hflag : v.ingest.notified = w.ingest.notified)
    (hworker : v.worker = w.worker) (hnext : v.thread = .notify ∨ ∃ i, v.thread = .closing i) :
    Inv v := by
  have hset : v.ingest.notified = true → 0 < v.ingest.notifyFd ∨ v.worker = .taken := by
    intro hn
    rw [hflag] at hn
    rw [hfd, hworker]
    rcases h.flag hn with hb | ht | hw
    · exact Or.inl hb
    · exact absurd ht hthread
    · exact Or.inr hw
  have hall : Covered v ∨ v.worker = .taken := by
    cases hn : v.ingest.notified with
    | true => exact (hset hn).imp Or.inl id
    | false =>
      refine Or.inl (Or.inr ?_)
      rcases hnext with ht | ⟨i, ht⟩ <;> simpa only [AboutToWrite, ht] using hn
  refine ⟨?_, ?_, ?_, ?_⟩
  · intro hn
    exact (hset hn).imp id Or.inr
  · rcases hnext with ht | ⟨i, ht⟩ <;> simp [ht]
  · intro _
    exact hall.imp id fun hw => by rw [hw]; trivial
  · intro _
    exact hall.imp id fun hw => by rw [hw]; trivial

theorem Inv.moved {v : World} (h : Inv w) (hevents : v.ingest.events = w.ingest.events)
    (hchunks : v.ingest.payload.chunks = w.ingest.payload.chunks)
    (hfd : v.ingest.notifyFd = w.ingest.notifyFd) (hflag : v.ingest.notified = w.ingest.notified)
    (hworker : v.worker = w.worker) (hthread : w.thread ≠ .write) (hunset : v.thread ≠ .unset)
    (habout : AboutToWrite w → AboutToWrite v) : Inv v := by
  have hcovered : Covered w → Covered v := by
    rintro (hb | ha)
    · exact Or.inl (by rwa [hfd])
    · exact Or.inr (habout ha)
  refine ⟨?_, hunset, ?_, ?_⟩
  · intro hn
    rw [hflag] at hn
    rw [hfd, hworker]
    rcases h.flag hn with hb | ht | hw
    · exact Or.inl hb
    · exact absurd ht hthread
    · exact Or.inr (Or.inr hw)
  · intro he
    rw [hevents] at he
    rw [hworker]
    exact (h.awake.events he).imp hcovered id
  · intro hc
    rw [hchunks] at hc
    rw [hworker]
    exact (h.awake.chunks hc).imp hcovered id

theorem inv_push (h : Inv w) (hthread : w.thread ≠ .write) (event : Event) {pc : ThreadPc}
    (hpc : pc = .notify ∨ ∃ i, pc = .closing i) : Inv (w.push event pc) := by
  have hsame : (eventPush w.ingest event).notifyFd = w.ingest.notifyFd ∧
      (eventPush w.ingest event).notified = w.ingest.notified := by
    unfold eventPush
    split <;> exact ⟨rfl, rfl⟩
  exact h.pushed hthread hsame.1 hsame.2 rfl hpc

theorem inv_threadStep (h : Inv w) : Inv (threadStep w true) := by
  cases hpc : w.thread with
  | start => simpa only [threadStep, hpc] using h
  | poll => simpa only [threadStep, hpc] using h
  | opening i streamid =>
    have hwrite : w.thread ≠ .write := by simp [hpc]
    simp only [threadStep, hpc]
    cases hs : w.ingest.sessions i with
    | none => exact h
    | some state =>
      simp only
      by_cases hfull : w.ingest.eventsFull = true
      · rw [if_pos hfull]
        refine h.moved ?_ ?_ ?_ ?_ rfl hwrite (by simp [World.push]) ?_
        · simp [World.push, eventPush, hfull]
        · simp [World.push, eventPush, hfull]
        · simp [World.push, eventPush, hfull]
        · simp [World.push, eventPush, hfull]
        · simp [AboutToWrite, hpc]
      · rw [if_neg hfull]
        have hpushed := inv_push h hwrite (openEvent state.id streamid) (Or.inl rfl)
        exact hpushed.of_same rfl rfl rfl rfl rfl rfl
  | refused i =>
    simp only [threadStep, hpc]
    exact h.moved rfl rfl rfl rfl rfl (by simp [hpc]) (by simp) (by simp [AboutToWrite, hpc])
  | closing i =>
    simp only [threadStep, hpc]
    exact h.moved rfl rfl rfl rfl rfl (by simp [hpc]) (by simp) (by simp [AboutToWrite, hpc])
  | releasing i =>
    simp only [threadStep, hpc]
    exact h.moved rfl rfl rfl rfl rfl (by simp [hpc]) (by simp)
      (by simp [AboutToWrite, hpc, sessionStateRelease])
  | notify =>
    simp only [threadStep, hpc]
    refine h.moved rfl rfl rfl rfl rfl (by simp [hpc]) (by split <;> simp) ?_
    intro ha
    have hclear : w.ingest.notified = false := by simpa only [AboutToWrite, hpc] using ha
    simp [AboutToWrite, hclear]
  | set =>
    simp only [threadStep, hpc]
    have hall : Covered { w with
        ingest := { w.ingest with notified := true }, thread := .write } :=
      Or.inr trivial
    exact ⟨fun _ => Or.inr (Or.inl rfl), by simp, fun _ => Or.inl hall, fun _ => Or.inl hall⟩
  | write =>
    simp only [threadStep, hpc, if_true]
    have hall : Covered { w with
        ingest := { w.ingest with notifyFd := w.ingest.notifyFd + 1 }, thread := .poll } :=
      Or.inl (Nat.succ_pos _)
    exact ⟨fun _ => Or.inl (Nat.succ_pos _), by simp, fun _ => Or.inl hall, fun _ => Or.inl hall⟩
  | unset => exact absurd hpc h.written

theorem Inv.drained {v : World} (h : Inv w) (hfd : v.ingest.notifyFd = w.ingest.notifyFd)
    (hflag : v.ingest.notified = w.ingest.notified) (hthread : v.thread = w.thread)
    (htaken : w.worker ≠ .taken)
    (hevents : v.ingest.events ≠ [] → DrainsEvents v.worker ∨
      w.ingest.events ≠ [] ∧ ¬ DrainsEvents w.worker)
    (hchunks : v.ingest.payload.chunks ≠ [] → DrainsChunks v.worker ∨
      w.ingest.payload.chunks ≠ [] ∧ ¬ DrainsChunks w.worker) : Inv v := by
  have hcovered : Covered v = Covered w := by
    simp only [Covered, AboutToWrite, hfd, hflag, hthread]
  refine ⟨?_, by rw [hthread]; exact h.written, ?_, ?_⟩
  · intro hn
    rw [hflag] at hn
    rw [hfd, hthread]
    rcases h.flag hn with hb | ht | hw
    · exact Or.inl hb
    · exact Or.inr (Or.inl ht)
    · exact absurd hw htaken
  · intro he
    rw [hcovered]
    rcases hevents he with hd | ⟨hne, hno⟩
    · exact Or.inr hd
    · exact (h.awake.events hne).imp id fun hd => absurd hd hno
  · intro hc
    rw [hcovered]
    rcases hchunks hc with hd | ⟨hne, hno⟩
    · exact Or.inr hd
    · exact (h.awake.chunks hne).imp id fun hd => absurd hd hno

theorem inv_workerStep (h : Inv w) : Inv (workerStep mem admits w) := by
  cases hpc : w.worker with
  | idle =>
    simp only [workerStep, hpc]
    refine ⟨fun _ => Or.inr (Or.inr rfl), h.written, fun _ => Or.inr trivial,
      fun _ => Or.inr trivial⟩
  | taken =>
    simp only [workerStep, hpc]
    refine ⟨?_, h.written, fun _ => Or.inr trivial, fun _ => Or.inr trivial⟩
    intro hn
    cases hn
  | events batch =>
    cases batch with
    | nil =>
      rcases workerStep_eventRead mem admits hpc with ⟨hnone, heq⟩ | ⟨_, _, _, _, heq⟩
      · rw [heq]
        exact h.drained rfl rfl rfl (by simp [hpc]) (fun he => absurd hnone he)
          fun _ => Or.inl trivial
      · rw [heq]
        exact h.drained rfl rfl rfl (by simp [hpc]) (fun _ => Or.inl trivial)
          fun _ => Or.inl trivial
    | cons event rest =>
      simp only [workerStep, hpc]
      obtain ⟨sessions, slots, closedSlots, heq⟩ := handleEvent_frame mem admits w event
      rw [heq]
      exact h.drained rfl rfl rfl (by simp [hpc]) (fun _ => Or.inl trivial)
        fun _ => Or.inl trivial
  | chunks batch =>
    cases batch with
    | nil =>
      -- the last read of the chunks: an event pushed since the events were drained is covered
      have hdrained : ¬ DrainsEvents w.worker := by simp [DrainsEvents, hpc]
      rcases workerStep_chunkRead mem admits hpc with ⟨hnone, heq⟩ | ⟨_, _, _, _, _, heq⟩
      · rw [heq]
        exact h.drained rfl rfl rfl (by simp [hpc]) (fun he => Or.inr ⟨he, hdrained⟩)
          fun hc => absurd hnone hc
      · rw [heq]
        exact h.drained rfl rfl rfl (by simp [hpc]) (fun he => Or.inr ⟨he, hdrained⟩)
          fun _ => Or.inl trivial
    | cons chunk rest =>
      simp only [workerStep, hpc]
      obtain ⟨slots, heq⟩ := handleChunk_frame mem w chunk
      rw [heq]
      exact h.drained rfl rfl rfl (by simp [hpc])
        (fun he => Or.inr ⟨he, by simp [DrainsEvents, hpc]⟩) fun _ => Or.inl trivial

theorem inv_start (eventsCapacity maxChunks maxBytes : ℕ) :
    Inv (start eventsCapacity maxChunks maxBytes) := by
  refine ⟨fun h => ?_, by simp [start], fun h => ?_, fun h => ?_⟩
  · cases h
  · simp [start] at h
  · simp [start] at h

theorem inv_step (h : Inv w) {call : Call} (hok : call ≠ .thread false) :
    Inv (step mem admits w call) := by
  cases call with
  | listen ok =>
    simp only [step]
    split_ifs with hpc
    · have hpushed := inv_push h (by simp [hpc])
        ⟨if ok then .ready else .failed, 0, 0, 0, []⟩ (Or.inl rfl)
      exact hpushed.of_same rfl rfl rfl rfl rfl rfl
    · exact h
  | accept streamid =>
    simp only [step]
    split_ifs with hpc
    · unfold sessionOpen
      split
      · exact h.of_same rfl rfl rfl rfl rfl rfl
      · exact h.moved rfl rfl rfl rfl rfl (by simp [hpc.2]) (by simp)
          (by simp [AboutToWrite, hpc.2])
    · exact h
  | receive i data =>
    simp only [step]
    split
    · exact h
    · split_ifs with hpc
      · unfold receive
        split
        · exact h
        · exact h.pushed (by simp [hpc]) rfl rfl rfl (Or.inl rfl)
      · exact h
  | disconnect i =>
    simp only [step]
    split
    · exact h
    · split_ifs with hpc
      · exact inv_push h (by simp [hpc]) _ (Or.inr ⟨i, rfl⟩)
      · exact h
  | requested i =>
    simp only [step]
    split
    · exact h
    · split_ifs with hpc
      · exact inv_push h (by simp [hpc.1]) _ (Or.inr ⟨i, rfl⟩)
      · exact h
  | closeSession id =>
    simp only [step]
    rw [closeSession_frame]
    exact h.of_same rfl rfl rfl rfl rfl rfl
  | thread written =>
    cases written with
    | true => exact inv_threadStep h
    | false => exact absurd rfl hok
  | worker => exact inv_workerStep h

/-- No wake-up is lost while the writes to the eventfd succeed. -/
theorem no_lost_wakeup (mem : TsDemux.Memory) (admits : ℕ → Bool)
    (eventsCapacity maxChunks maxBytes : ℕ) {calls : List Call}
    (hwrites : ∀ call ∈ calls, call ≠ .thread false) :
    Awake (run mem admits (start eventsCapacity maxChunks maxBytes) calls) := by
  have hstep : ∀ v call, Inv v → call ≠ .thread false → Inv (step mem admits v call) :=
    fun _ _ h hok => inv_step h hok
  have hinv := StepRun.invariant_of_meets hstep (inv_start eventsCapacity maxChunks maxBytes)
    (StepRun.meets_of_forall hwrites _)
  exact hinv.awake

/-- A session is accepted while the handler is between its last read of the events and its
return: the flag is clear, so the push writes a byte of its own. -/
def lateOpen : List Call :=
  [.listen true, .thread true, .thread true, .thread true, .worker, .worker, .worker, .worker,
    .worker, .accept [0x6B], .thread true, .worker]

theorem no_lost_wakeup_late_open :
    Awake (run ⟨true, fun _ => true⟩ (fun _ => true) (start 8 4 4096) lateOpen) :=
  no_lost_wakeup _ _ 8 4 4096 (by decide)

end SrtWake
