import NginxMedia.FifoLedger
import NginxMedia.TsDemux

/-! The event queue between an HLS reader's thread and the worker, in `ngx_media_hls_ingest.c`
and in `ngx_media_hls_pull.c`: a segment is demuxed at once, each callback of the demuxer puts
one event into the queue, and the worker takes them out one by one. A step is one access to the
queue under its lock. -/
namespace HlsHandoff

open MediaTypes TsDemux FifoLedger

def eventCapacity : ℕ := 128

def eventMaxTracks : ℕ := 8

inductive Event where
  | tracks (set : TrackSet)
  | frame (f : Frame)
  | transport (healthy : Bool)
  deriving DecidableEq, Repr

/-- The two readers differ in when they report their transport. -/
inductive Reader where
  | ingest
  | pull
  deriving DecidableEq, Repr

/-- The reader with its source; `todo` are the events of the segment at hand that its thread has
still to push. -/
structure State where
  todo : List Event
  events : Fifo Event
  dropped : ℕ
  tracks : Option TrackSet
  frames : ℕ
  removed : Bool
  deriving DecidableEq, Repr

inductive Call where
  | segment (outputs : List Output)
  | fetched (ok : Bool)
  | push
  | pop (copies : Bool)
  | remove
  deriving DecidableEq, Repr

def opened : State := ⟨[], .empty eventCapacity, 0, none, 0, false⟩

def callback : Output → Event
  | .tracks set => .tracks set
  | .frame f => .frame f

def Reader.segment (outputs : List Output) : Reader → List Event
  | .ingest => outputs.map callback ++ [.transport true]
  | .pull => outputs.map callback

def Reader.fetched (ok : Bool) : Reader → List Event
  | .ingest => []
  | .pull => [.transport ok]

def Event.oversize : Event → Bool
  | .tracks set => decide (set.length > eventMaxTracks)
  | _ => false

/-- `ngx_media_hls_ingest_tracks()` and its like: nobody looks at what the push returns. -/
def eventPush (s : State) (event : Event) : State :=
  if event.oversize then { s with events := s.events.refuse event }
  else
    { s with
      events := s.events.push event
      dropped := if s.events.full then s.dropped + 1 else s.dropped }

def tracksSet (copies : Bool) (set : TrackSet) : Option TrackSet := if copies then some set else none

/-- What `ngx_media_hls_ingest_event_drain()` does with one event. -/
def handle (s : State) (copies : Bool) : Event → State
  | .tracks set => { s with tracks := tracksSet copies set }
  | .frame _ => { s with frames := s.frames + 1 }
  | .transport _ => s

def eventPop (s : State) (copies : Bool) : State :=
  match s.events.queue.head? with
  | none => s
  | some event =>
    let s := { s with events := s.events.pop }
    if s.removed then s else handle s copies event

def step (reader : Reader) (s : State) : Call → State
  | .segment outputs => if s.todo = [] then { s with todo := reader.segment outputs } else s
  | .fetched ok => if s.todo = [] then { s with todo := reader.fetched ok } else s
  | .push =>
    match s.todo with
    | [] => s
    | event :: rest => { eventPush s event with todo := rest }
  | .pop copies => eventPop s copies
  | .remove => { s with removed := true }

def run (reader : Reader) (calls : List Call) : State := calls.foldl (step reader) opened

def Event.coded : Event → Option Frame
  | .frame f => if f.mediaType = .video ∧ f.config = false then some f else none
  | _ => none

def Event.trackSet : Event → Option TrackSet
  | .tracks set => some set
  | _ => none

def latest (events : List Event) : Option TrackSet := (events.filterMap Event.trackSet).getLast?

/-- After a video frame that was lost the next one that got in is a keyframe; `gap` says that
one was lost and none has got in since. -/
def resumesAtKey (gap : Bool) : List (Event × Bool) → Bool
  | [] => true
  | (event, ok) :: rest =>
    match event.coded with
    | none => resumesAtKey gap rest
    | some f => if ok then (!gap || f.keyframe) && resumesAtKey false rest
      else resumesAtKey true rest

structure Decodable (s : State) : Prop where
  order : s.events.Ordered
  video : resumesAtKey false s.events.offered = true
  tracks : s.removed = false → s.events.queue = [] →
    s.tracks = latest (s.events.offered.map Prod.fst)

def Event.matters (event : Event) : Bool := event.coded.isSome || event.trackSet.isSome

/-- Video frames and track changes find room in the queue, and memory suffices for a copy of a
track set. -/
def Ok (s : State) : Call → Prop
  | .push => ∀ event ∈ s.todo.head?, event.matters = true →
      s.events.full = false ∧ event.oversize = false
  | .pop copies => copies = true
  | _ => True

instance (s : State) (call : Call) : Decidable (Ok s call) :=
  match call with
  | .push => inferInstanceAs (Decidable (∀ event ∈ s.todo.head?, event.matters = true →
      s.events.full = false ∧ event.oversize = false))
  | .pop copies => inferInstanceAs (Decidable (copies = true))
  | .segment _ | .fetched _ | .remove => inferInstanceAs (Decidable True)

structure Inv (s : State) : Prop where
  order : s.events.Ordered
  accepted : ∀ x ∈ s.events.offered, x.1.matters = true → x.2 = true
  tracks : s.removed = false → s.tracks = latest s.events.taken

variable {s : State} {reader : Reader}

theorem latest_concat (events : List Event) (event : Event) :
    latest (events ++ [event]) = event.trackSet.or (latest events) := by
  unfold latest
  cases h : event.trackSet with
  | none => simp [h]
  | some set => simp [h]

theorem opened_inv : Inv opened := by
  constructor
  · exact ordered_empty eventCapacity
  · intro x hx
    cases hx
  · exact fun _ => rfl

theorem Inv.push (h : Inv s) {event : Event}
    (hok : event.matters = true → s.events.full = false ∧ event.oversize = false) :
    Inv (eventPush s event) := by
  have hrefuse : event.matters = false → Inv { s with events := s.events.refuse event } := by
    intro hm
    refine ⟨h.order.refuse event, fun x hx hxm => ?_, h.tracks⟩
    rcases List.mem_append.mp hx with hx | hx
    · exact h.accepted x hx hxm
    · rw [List.mem_singleton.mp hx, hm] at hxm
      cases hxm
  unfold eventPush
  by_cases hover : event.oversize = true
  · rw [if_pos hover]
    refine hrefuse (Bool.eq_false_iff.mpr fun hm => ?_)
    rw [(hok hm).2] at hover
    cases hover
  · rw [if_neg hover]
    by_cases hfull : s.events.full = true
    · have hm : event.matters = false := by
        refine Bool.eq_false_iff.mpr fun hm => ?_
        rw [(hok hm).1] at hfull
        cases hfull
      have hpush : s.events.push event = s.events.refuse event := if_pos hfull
      obtain ⟨h1, h2, h3⟩ := hrefuse hm
      rw [hpush]
      exact ⟨h1, h2, h3⟩
    · rw [push_of_room (Bool.eq_false_iff.mpr hfull)]
      refine ⟨h.order.accept event, fun x hx hxm => ?_, h.tracks⟩
      rcases List.mem_append.mp hx with hx | hx
      · exact h.accepted x hx hxm
      · rw [List.mem_singleton.mp hx]

theorem Inv.pop (h : Inv s) : Inv (eventPop s true) := by
  unfold eventPop
  cases hq : s.events.queue.head? with
  | none => exact h
  | some event =>
    have hpop : s.events.pop.taken = s.events.taken ++ [event] := by
      rw [Fifo.pop, hq]
      rfl
    have hlatest : s.removed = false → latest s.events.pop.taken = event.trackSet.or s.tracks := by
      intro hr
      rw [hpop, latest_concat, ← h.tracks hr]
    dsimp only
    by_cases hr : s.removed = true
    · rw [if_pos hr]
      refine ⟨h.order.pop, h.accepted, fun hf => ?_⟩
      rw [hr] at hf
      cases hf
    · rw [if_neg hr]
      have hkeep := hlatest (Bool.eq_false_iff.mpr hr)
      cases event with
      | tracks set => exact ⟨h.order.pop, h.accepted, fun _ => hkeep.symm⟩
      | frame f => exact ⟨h.order.pop, h.accepted, fun _ => hkeep.symm⟩
      | transport healthy => exact ⟨h.order.pop, h.accepted, fun _ => hkeep.symm⟩

theorem Inv.step (h : Inv s) {call : Call} (hok : Ok s call) : Inv (step reader s call) := by
  cases call with
  | segment outputs =>
    unfold HlsHandoff.step
    split_ifs
    · exact ⟨h.order, h.accepted, h.tracks⟩
    · exact h
  | fetched ok =>
    unfold HlsHandoff.step
    split_ifs
    · exact ⟨h.order, h.accepted, h.tracks⟩
    · exact h
  | push =>
    unfold HlsHandoff.step
    cases ht : s.todo with
    | nil => exact h
    | cons event rest =>
      have hpush := @Inv.push s h event fun hm => hok event (by rw [ht]; rfl) hm
      exact ⟨hpush.order, hpush.accepted, hpush.tracks⟩
  | pop copies =>
    obtain rfl : copies = true := hok
    exact h.pop
  | remove => exact ⟨h.order, h.accepted, fun hr => by cases hr⟩

theorem resumesAtKey_of_accepted {offered : List (Event × Bool)}
    (h : ∀ x ∈ offered, x.1.matters = true → x.2 = true) : resumesAtKey false offered = true := by
  induction offered with
  | nil => rfl
  | cons x rest ih =>
    have hrest := ih fun y hy => h y (List.mem_cons_of_mem _ hy)
    obtain ⟨event, ok⟩ := x
    unfold resumesAtKey
    cases hc : event.coded with
    | none => exact hrest
    | some f =>
      have hok : ok = true := h (event, ok) List.mem_cons_self (by simp [Event.matters, hc])
      rw [hok]
      exact hrest

theorem latest_accepted {offered : List (Event × Bool)}
    (h : ∀ x ∈ offered, x.1.matters = true → x.2 = true) :
    latest (accepted offered) = latest (offered.map Prod.fst) := by
  unfold latest accepted
  congr 1
  induction offered with
  | nil => rfl
  | cons x rest ih =>
    have hrest := ih fun y hy => h y (List.mem_cons_of_mem _ hy)
    obtain ⟨event, ok⟩ := x
    cases ok with
    | true =>
      rw [List.filter_cons_of_pos rfl, List.map_cons, List.map_cons, List.filterMap_cons,
        List.filterMap_cons, hrest]
    | false =>
      have hnone : event.trackSet = none := by
        cases ht : event.trackSet with
        | none => rfl
        | some set =>
          have := h (event, false) List.mem_cons_self (by simp [Event.matters, ht])
          cases this
      rw [List.filter_cons_of_neg (by simp), List.map_cons, List.filterMap_cons, hnone]
      exact hrest

theorem Inv.decodable (h : Inv s) : Decodable s := by
  refine ⟨h.order, resumesAtKey_of_accepted h.accepted, fun hr hq => ?_⟩
  have hall : s.events.taken = FifoLedger.accepted s.events.offered := by
    have horder := h.order
    rwa [Fifo.Ordered, hq, List.append_nil] at horder
  rw [h.tracks hr, hall]
  exact latest_accepted h.accepted

/-- While video frames and track changes find room, what the reader hands over stays
decodable. -/
theorem handed_decodable (reader : Reader) (calls : List Call)
    (hmeets : StepRun.Meets (step reader) Ok opened calls) : Decodable (run reader calls) := by
  have hstep : ∀ s call, Inv s → Ok s call → Inv (step reader s call) :=
    fun _ _ h hok => h.step hok
  exact (StepRun.invariant_of_meets hstep opened_inv hmeets).decodable

def picture (keyframe : Bool) : Output :=
  .frame { Frame.empty with codec := .h264, keyframe := keyframe, payload := some [0, 0, 0, 1, 0x41] }

def sound : Output := .frame { Frame.empty with mediaType := .audio, codec := .aac, trackIndex := 1 }

def video (width : ℕ) : Track := ⟨.video, .h264, .annexb, 0, 0, width, 0, 0, 0, 0, 0, none⟩

/-- One segment of 130 events while the worker is busy, then one picture more. -/
def flooded : List Call :=
  [.segment ([.tracks [video 1280], picture true] ++ List.replicate 126 sound ++
    [picture false, .tracks [video 1920]])] ++
  List.replicate 131 .push ++ List.replicate 128 (.pop true) ++
  [.segment [picture false], .push, .push, .pop true, .pop true]

theorem segment_overruns_queue :
    (¬ Decodable (run .ingest flooded) ∧ (run .ingest flooded).events.queue = [] ∧
      (run .ingest flooded).tracks = some [video 1280]) ∧
    ¬ Decodable (run .pull flooded) ∧ (run .pull flooded).events.queue = [] ∧
      (run .pull flooded).tracks = some [video 1280] := by
  have hvideo : ∀ reader : Reader,
      resumesAtKey false (run reader flooded).events.offered = false := by
    intro reader
    cases reader <;> decide +kernel
  have hundecodable : ∀ reader : Reader, ¬ Decodable (run reader flooded) := by
    intro reader h
    have hkey := h.video
    rw [hvideo reader] at hkey
    cases hkey
  refine ⟨⟨hundecodable .ingest, ?_, ?_⟩, hundecodable .pull, ?_, ?_⟩ <;> decide +kernel

/-- Two segments, with the worker visited in the middle of the first. -/
def paced : List Call :=
  [.fetched true, .push, .segment [.tracks [video 1280], picture true, sound, picture false],
    .push, .push, .pop true, .pop true, .push, .push, .push, .pop true, .pop true,
    .segment [.tracks [video 1920], picture true, sound], .push, .pop true, .pop true, .push, .push]

theorem handed_decodable_paced :
    Decodable (run .ingest paced) ∧ (run .pull paced).events.taken.length = 6 :=
  ⟨handed_decodable .ingest paced (by decide +kernel), by decide +kernel⟩

end HlsHandoff
