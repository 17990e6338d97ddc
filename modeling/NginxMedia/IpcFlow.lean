import Mathlib.Data.List.TakeDrop
import NginxMedia.IpcFrame
import NginxMedia.MediaTypes

/-! The sending side of a routed publisher: `ngx_media_ipc_flow_admit()` in front of
`ngx_media_route_frame()` and `ngx_media_ipc_flow_sent()` behind it, on a socket that takes as
many datagrams of a frame as it likes. Video that needs a frame which was lost is not sent. -/
namespace IpcFlow

open MediaTypes (MediaType)

open LossyStream IpcFrame

structure Flow where
  sequence : ℕ
  dropped : ℕ
  resyncs : ℕ
  resync : Bool
  deriving DecidableEq, Repr

def Flow.init : Flow := ⟨0, 0, 0, false⟩

/-- What the flow control looks at. -/
structure Kind where
  video : Bool
  keyframe : Bool
  config : Bool
  deriving DecidableEq, Repr

/-- `ngx_media_ipc_flow_admit()`: whether the frame is to be sent. -/
def flowAdmit (flow : Flow) (k : Kind) : Flow × Bool :=
  if flow.resync && k.video && !k.keyframe && !k.config then
    ({ flow with dropped := flow.dropped + 1, sequence := flow.sequence + 1 }, false)
  else (flow, true)

def flowSent (flow : Flow) (k : Kind) (ok : Bool) : Flow :=
  if ok = false then
    { flow with
      sequence := flow.sequence + 1
      resyncs := if flow.resync then flow.resyncs else flow.resyncs + 1
      resync := true }
  else
    { flow with
      sequence := flow.sequence + 1
      resync := if k.video && k.keyframe && !k.config then false else flow.resync }

/-- The connection of a publisher. -/
structure Route where
  hash : ℕ
  incarnation : ℕ
  session : ℕ

/-- A frame, whether there is an endpoint for it, and how many datagrams its socket takes before
it is full. -/
structure Offer where
  mediaType : MediaType
  codec : ℕ
  payloadFormat : ℕ
  trackIndex : ℕ
  pts : ℤ
  dts : ℤ
  keyframe : Bool
  config : Bool
  payload : Option (List UInt8)
  endpoint : Bool
  accepts : ℕ

def Offer.kind (o : Offer) : Kind := ⟨o.mediaType == .video, o.keyframe, o.config⟩

def messageType : MediaType → ℕ
  | .video => 4
  | .audio => 5
  | .data => 6

def mediaCode : MediaType → ℕ
  | .video => 1
  | .audio => 2
  | .data => 3

def routed (r : Route) (sequence : ℕ) (o : Offer) (payload : List UInt8) : Frame :=
  routeFrame (messageType o.mediaType) r.hash r.incarnation r.session sequence o.pts o.dts
    (mediaCode o.mediaType) o.codec o.payloadFormat o.trackIndex o.keyframe o.config payload

def sendFrame (r : Route) (sequence : ℕ) (o : Offer) : List Datagram × Bool :=
  match o.payload with
  | none => ([], false)
  | some payload =>
    if o.endpoint = false then ([], false)
    else
      let chunks := (routed r sequence o payload).chunks
      (chunks.take o.accepts, decide (chunks.length ≤ o.accepts))

structure Entry where
  offer : Offer
  sequence : ℕ
  written : List Datagram

structure State where
  flow : Flow
  log : List Entry

def frame (r : Route) (s : State) (o : Offer) : State :=
  match flowAdmit s.flow o.kind with
  | (flow, false) => ⟨flow, s.log ++ [⟨o, s.flow.sequence, []⟩]⟩
  | (flow, true) =>
    let sent := sendFrame r flow.sequence o
    ⟨flowSent flow o.kind sent.2, s.log ++ [⟨o, flow.sequence, sent.1⟩]⟩

def run (r : Route) (offers : List Offer) : State := offers.foldl (frame r) ⟨.init, []⟩

def Delivered (r : Route) (e : Entry) : Prop :=
  ∃ payload, e.offer.payload = some payload ∧
    e.written = (routed r e.sequence e.offer payload).chunks

def Restarts (r : Route) (e : Entry) : Prop :=
  Delivered r e ∧ e.offer.mediaType = .video ∧ e.offer.keyframe = true ∧ e.offer.config = false

def Missing (r : Route) (log : List Entry) : Prop :=
  ∃ before e after, log = before ++ e :: after ∧ e.offer.mediaType = .video ∧ ¬Delivered r e ∧
    ∀ x ∈ after, ¬Restarts r x

def Decodable (r : Route) (log : List Entry) : Prop :=
  ∀ before e after, log = before ++ e :: after → e.offer.mediaType = .video →
    e.offer.keyframe = false → e.offer.config = false → Delivered r e → ¬Missing r before

variable {r : Route} {s : State} {log : List Entry} {e : Entry}

theorem missing_append : Missing r (log ++ [e]) ↔
    (e.offer.mediaType = .video ∧ ¬Delivered r e) ∨ (Missing r log ∧ ¬Restarts r e) := by
  constructor
  · rintro ⟨before, x, after, heq, hvideo, hlost, hafter⟩
    rcases List.eq_nil_or_concat after with rfl | ⟨after, y, rfl⟩
    · obtain ⟨-, hlast⟩ := List.append_inj' heq rfl
      obtain rfl := (List.cons.inj hlast).1
      exact Or.inl ⟨hvideo, hlost⟩
    · rw [List.concat_eq_append, ← List.cons_append, ← List.append_assoc] at heq
      obtain ⟨hlog, hlast⟩ := List.append_inj' heq rfl
      obtain rfl := (List.cons.inj hlast).1
      refine Or.inr ⟨⟨before, x, after, hlog, hvideo, hlost, fun z hz => hafter z ?_⟩,
        hafter e ?_⟩
      · rw [List.concat_eq_append]
        exact List.mem_append_left _ hz
      · rw [List.concat_eq_append]
        exact List.mem_append_right _ List.mem_cons_self
  · rintro (⟨hvideo, hlost⟩ | ⟨⟨before, x, after, rfl, hvideo, hlost, hafter⟩, hlast⟩)
    · exact ⟨log, e, [], rfl, hvideo, hlost, fun _ hx => absurd hx List.not_mem_nil⟩
    · refine ⟨before, x, after ++ [e], by simp, hvideo, hlost, fun z hz => ?_⟩
      rcases List.mem_append.mp hz with hz | hz
      · exact hafter z hz
      · exact List.mem_singleton.mp hz ▸ hlast

theorem decodable_append (h : Decodable r log)
    (he : e.offer.mediaType = .video → e.offer.keyframe = false → e.offer.config = false →
      Delivered r e → ¬Missing r log) : Decodable r (log ++ [e]) := by
  intro before x after heq hvideo hkeyframe hconfig hdelivered
  rcases List.eq_nil_or_concat after with rfl | ⟨after, y, rfl⟩
  · obtain ⟨rfl, hlast⟩ := List.append_inj' heq rfl
    obtain rfl := (List.cons.inj hlast).1
    exact he hvideo hkeyframe hconfig hdelivered
  · rw [List.concat_eq_append, ← List.cons_append, ← List.append_assoc] at heq
    obtain ⟨hlog, -⟩ := List.append_inj' heq rfl
    exact h before x after hlog hvideo hkeyframe hconfig hdelivered

theorem chunks_ne_nil (f : Frame) : f.chunks ≠ [] := by
  unfold Frame.chunks send
  split_ifs with hempty
  · exact List.cons_ne_nil _ _
  · rw [sendFrom, if_pos (Nat.pos_of_ne_zero hempty)]
    exact List.cons_ne_nil _ _

theorem sendFrame_delivered (r : Route) (sequence : ℕ) (o : Offer) :
    Delivered r ⟨o, sequence, (sendFrame r sequence o).1⟩ ↔ (sendFrame r sequence o).2 = true := by
  unfold Delivered sendFrame
  cases hp : o.payload with
  | none =>
    refine ⟨?_, Bool.noConfusion⟩
    rintro ⟨payload, h, -⟩
    cases h
  | some payload =>
    have hwhole : ∀ written, (∃ p, some payload = some p ∧
        written = (routed r sequence o p).chunks) ↔
          written = (routed r sequence o payload).chunks := by
      intro written
      exact ⟨fun ⟨p, h, hw⟩ => Option.some.inj h ▸ hw, fun hw => ⟨payload, rfl, hw⟩⟩
    rw [hwhole]
    dsimp only
    split_ifs
    · exact ⟨fun h => absurd h.symm (chunks_ne_nil _), False.elim⟩
    · rw [decide_eq_true_eq]
      exact List.take_eq_self_iff _

structure Inv (r : Route) (s : State) : Prop where
  sequence : s.flow.sequence = s.log.length
  numbered : s.log.map Entry.sequence = List.range s.log.length
  waits : Missing r s.log → s.flow.resync = true
  decodable : Decodable r s.log

theorem numbered_append (h : log.map Entry.sequence = List.range log.length)
    (he : e.sequence = log.length) :
    (log ++ [e]).map Entry.sequence = List.range (log ++ [e]).length := by
  rw [List.map_append, List.map_singleton, List.length_append, List.length_singleton,
    List.range_succ, h, he]

theorem frame_inv (h : Inv r s) (o : Offer) : Inv r (frame r s o) := by
  unfold frame flowAdmit
  by_cases hdrop : (s.flow.resync && o.kind.video && !o.kind.keyframe && !o.kind.config) = true
  · rw [if_pos hdrop]
    have hlost : ¬Delivered r ⟨o, s.flow.sequence, []⟩ := fun ⟨_, _, hw⟩ =>
      chunks_ne_nil _ hw.symm
    have hresync : s.flow.resync = true := by
      simp only [Bool.and_eq_true] at hdrop
      exact hdrop.1.1.1
    refine ⟨?_, numbered_append h.numbered h.sequence, fun _ => hresync,
      decodable_append h.decodable fun _ _ _ hdelivered => absurd hdelivered hlost⟩
    rw [List.length_append, ← h.sequence]
    rfl
  · rw [if_neg hdrop]
    dsimp only
    have hsent := sendFrame_delivered r s.flow.sequence o
    have hcount : (flowSent s.flow o.kind (sendFrame r s.flow.sequence o).2).sequence =
        s.flow.sequence + 1 := by
      unfold flowSent
      split_ifs <;> rfl
    refine ⟨?_, numbered_append h.numbered h.sequence, fun hmissing => ?_,
      decodable_append h.decodable fun hvideo hkeyframe hconfig _ hmissing => hdrop ?_⟩
    · rw [hcount, List.length_append, h.sequence]
      rfl
    · unfold flowSent
      cases hok : (sendFrame r s.flow.sequence o).2 with
      | false => rw [if_pos rfl]
      | true =>
        have hdelivered := hsent.mpr hok
        rcases missing_append.mp hmissing with ⟨-, hlost⟩ | ⟨hmissing, hlast⟩
        · exact absurd hdelivered hlost
        · have hstays : ¬(o.kind.video && o.kind.keyframe && !o.kind.config) = true := by
            intro hrestart
            refine hlast ⟨hdelivered, ?_⟩
            simpa [Offer.kind, and_assoc] using hrestart
          rw [if_neg Bool.noConfusion, if_neg hstays]
          exact h.waits hmissing
    · have hkind : o.kind = ⟨true, false, false⟩ := by
        simp only [Offer.kind, Kind.mk.injEq, beq_iff_eq]
        exact ⟨hvideo, hkeyframe, hconfig⟩
      rw [h.waits hmissing, hkind]
      rfl

theorem run_inv (r : Route) (offers : List Offer) : Inv r (run r offers) := by
  have hinit : Inv r ⟨.init, []⟩ := by
    refine ⟨rfl, rfl, ?_, ?_⟩
    · rintro ⟨before, e, after, heq, -⟩
      exact absurd heq.symm (List.append_ne_nil_of_right_ne_nil _ (List.cons_ne_nil _ _))
    · intro before e after heq
      exact absurd heq.symm (List.append_ne_nil_of_right_ne_nil _ (List.cons_ne_nil _ _))
  exact List.foldlRecOn offers (frame r) hinit fun _ hs o _ => frame_inv hs o

theorem run_offers (r : Route) (offers : List Offer) :
    (run r offers).log.map Entry.offer = offers := by
  have hall : ∀ s, (offers.foldl (frame r) s).log.map Entry.offer =
      s.log.map Entry.offer ++ offers := by
    induction offers with
    | nil => exact fun s => (List.append_nil _).symm
    | cons o offers ih =>
      intro s
      have hstep : (frame r s o).log.map Entry.offer = s.log.map Entry.offer ++ [o] := by
        unfold frame
        split <;> simp
      rw [List.foldl_cons, ih, hstep, List.append_assoc]
      rfl
  exact hall ⟨.init, []⟩

/-- Whatever the socket takes: no video is delivered behind a loss that a keyframe has not made
good, and every frame offered has the next sequence number. -/
theorem flow_decodable (r : Route) (offers : List Offer) :
    Decodable r (run r offers).log ∧
      (run r offers).log.map Entry.offer = offers ∧
      (run r offers).log.map Entry.sequence = List.range offers.length ∧
      (run r offers).flow.sequence = offers.length := by
  have hinv := run_inv r offers
  have hlength : (run r offers).log.length = offers.length := by
    rw [← List.length_map (f := Entry.offer), run_offers]
  exact ⟨hinv.decodable, run_offers r offers, hlength ▸ hinv.numbered,
    hlength ▸ hinv.sequence⟩

end IpcFlow
