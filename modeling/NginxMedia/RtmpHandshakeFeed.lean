import NginxMedia.RtmpHandshake
import Mathlib.Data.List.Induction

/-! `ngx_media_rtmp_handshake_feed()`: the handshake fed with what has arrived of a client's
stream, the bytes it did not consume presented again. -/
namespace RtmpHandshake

open Sha256

inductive Phase where
  | version | c1 | c2 | done
  deriving DecidableEq

inductive Result where
  | again | error | ok
  deriving DecidableEq

/-- `have` is the length of `c1` or `c2`. `taken` and `built` are not in the source: the bytes
consumed so far, and how many they were at each reply. -/
structure Handshake where
  state : Phase
  complex : Bool
  c1 : Str
  c2 : Str
  out : Str
  taken : ℕ
  built : List ℕ

def handshakeInit : Handshake := ⟨.version, false, [], [], [], 0, []⟩

structure Call where
  hs : Handshake
  data : Str
  consumed : ℕ

def Call.advance (call : Call) (n : ℕ) : Call :=
  { hs := { call.hs with taken := call.hs.taken + n }
    data := call.data.drop n
    consumed := call.consumed + n }

def feedC2 (call : Call) : Result × Call :=
  let take := min (handshakeSize - call.hs.c2.length) call.data.length
  let c2 := call.hs.c2 ++ call.data.take take
  let call := call.advance take
  if c2.length < handshakeSize then (.again, { call with hs := { call.hs with c2 := c2 } })
  else (.ok, { call with hs := { call.hs with c2 := c2, state := .done } })

def feedC1 (random : UInt64 → Noise) (now : UInt64) (call : Call) : Option (Result × Call) :=
  let take := min (handshakeSize - call.hs.c1.length) call.data.length
  let c1 := call.hs.c1 ++ call.data.take take
  let call := call.advance take
  if c1.length < handshakeSize then some (.again, { call with hs := { call.hs with c1 := c1 } })
  else do
    let complex ← complexOf c1
    let out ← reply random now c1 complex
    let hs := { call.hs with
      state := .c2, complex := complex, c1 := c1, out := out,
      built := call.hs.built ++ [call.hs.taken] }
    return feedC2 { call with hs := hs }

def handshakeFeed (random : UInt64 → Noise) (now : UInt64) (hs : Handshake) (data : Str) :
    Option (Result × Call) :=
  let call : Call := ⟨hs, data, 0⟩
  match hs.state with
  | .version =>
    match data with
    | [] => some (.again, call)
    | version :: _ =>
      if version ≠ rtmpVersion then some (.error, call)
      else feedC1 random now { call.advance 1 with
        hs := { (call.advance 1).hs with state := .c1 } }
  | .c1 => feedC1 random now call
  | .c2 => some (feedC2 call)
  | .done => some (.ok, call)

/-- What one read brings, and the clock at it. -/
structure Arrival where
  bytes : Str
  now : UInt64

structure Conn where
  hs : Handshake
  pending : Str
  result : Result

def arrive (random : UInt64 → Noise) (conn : Conn) (arrival : Arrival) : Option Conn := do
  let data := conn.pending ++ arrival.bytes
  let (result, call) ← handshakeFeed random arrival.now conn.hs data
  return ⟨call.hs, data.drop call.consumed, result⟩

def run (random : UInt64 → Noise) (arrivals : List Arrival) : Option Conn :=
  arrivals.foldlM (arrive random) ⟨handshakeInit, [], .again⟩

def streamOf (arrivals : List Arrival) : Str := arrivals.flatMap Arrival.bytes

structure Client where
  arrivals : List Arrival
  version : ∀ v ∈ (streamOf arrivals).head?, v = rtmpVersion

def Client.stream (client : Client) : Str := streamOf client.arrivals

def c1Of (stream : Str) : Str := (stream.drop 1).take handshakeSize

def c1End : ℕ := 1 + handshakeSize

def c2End : ℕ := c1End + handshakeSize

def phaseAt (n : ℕ) : Phase :=
  if n = 0 then .version else if n < c1End then .c1 else if n < c2End then .c2 else .done

structure Behind (hs : Handshake) (m : Str) : Prop where
  size : m.length ≤ c2End
  state : hs.state = phaseAt m.length
  c1 : hs.c1 = c1Of m
  c2 : hs.c2 = m.drop c1End
  taken : hs.taken = m.length
  built : hs.built = if m.length < c1End then [] else [c1End]
  replied : c1End ≤ m.length → ∃ r : Reply, hs.out = r.bytes ∧ Accepted (c1Of m) r

structure Fed (m : Str) (call : Call) (done : Result × Call) : Prop where
  behind : Behind done.2.hs (m ++ call.data.take (c2End - m.length))
  consumed : done.2.consumed = call.consumed + min (c2End - m.length) call.data.length
  result : done.1 = if m.length + call.data.length < c2End then .again else .ok

section
variable {m : Str} {call : Call}

theorem c1Of_append (h : c1End ≤ m.length) (l : Str) : c1Of (m ++ l) = c1Of m := by
  have hlen : handshakeSize ≤ (m.drop 1).length := by
    rw [List.length_drop]
    unfold c1End at h
    omega
  rw [c1Of, List.drop_append_of_le_length (by unfold c1End at h; omega),
    List.take_append_of_le_length hlen]
  rfl

theorem c1Of_short (h : m.length ≤ c1End) : c1Of m = m.drop 1 := by
  refine List.take_of_length_le ?_
  rw [List.length_drop]
  unfold c1End at h
  omega

theorem phaseAt_c1 {n : ℕ} (h0 : 0 < n) (h : n < c1End) : phaseAt n = .c1 := by
  rw [phaseAt, if_neg (by omega), if_pos h]

theorem phaseAt_c2 {n : ℕ} (h1 : c1End ≤ n) (h : n < c2End) : phaseAt n = .c2 := by
  have hpos : 0 < c1End := by decide
  rw [phaseAt, if_neg (by omega), if_neg (by omega), if_pos h]

theorem phaseAt_done {n : ℕ} (h : c2End ≤ n) : phaseAt n = .done := by
  have hends : 0 < c1End ∧ c1End < c2End := by decide
  rw [phaseAt, if_neg (by omega), if_neg (by omega), if_neg (by omega)]

theorem feedC2_fed (h : Behind call.hs m) (h1 : c1End ≤ m.length) (h2 : m.length < c2End) :
    Fed m call (feedC2 call) := by
  have hc2 : call.hs.c2.length = m.length - c1End := by rw [h.c2, List.length_drop]
  have htake : min (handshakeSize - call.hs.c2.length) call.data.length =
      min (c2End - m.length) call.data.length := by
    rw [hc2]
    unfold c2End at *
    omega
  have hdata : call.data.take (min (c2End - m.length) call.data.length) =
      call.data.take (c2End - m.length) := (List.take_eq_take_min).symm
  have hlen : (call.data.take (c2End - m.length)).length =
      min (c2End - m.length) call.data.length := List.length_take
  have hwhole : (m ++ call.data.take (c2End - m.length)).length =
      m.length + min (c2End - m.length) call.data.length := by rw [List.length_append, hlen]
  have hnext : (m ++ call.data.take (c2End - m.length)).drop c1End =
      call.hs.c2 ++ call.data.take (c2End - m.length) := by
    rw [List.drop_append_of_le_length h1, h.c2]
  have hfull : (call.hs.c2 ++ call.data.take (c2End - m.length)).length < handshakeSize ↔
      m.length + call.data.length < c2End := by
    rw [List.length_append, hc2, hlen]
    unfold c2End at *
    omega
  have hbehind : ∀ state, state = phaseAt (m.length + min (c2End - m.length) call.data.length) →
      Behind { (call.advance (min (c2End - m.length) call.data.length)).hs with
        c2 := call.hs.c2 ++ call.data.take (c2End - m.length), state := state }
        (m ++ call.data.take (c2End - m.length)) := by
    intro state hstate
    constructor
    · rw [hwhole]
      omega
    · rw [hwhole]
      exact hstate
    · rw [c1Of_append h1]
      exact h.c1
    · exact hnext.symm
    · rw [hwhole, ← h.taken]
      rfl
    · have hbuilt := h.built
      rw [if_neg (by omega)] at hbuilt
      rw [hwhole, if_neg (by omega)]
      exact hbuilt
    · intro _
      rw [c1Of_append h1]
      exact h.replied h1
  unfold feedC2
  rw [htake]
  dsimp only
  rw [hdata]
  by_cases hagain : m.length + call.data.length < c2End
  · rw [if_pos (hfull.mpr hagain)]
    refine ⟨?_, rfl, (if_pos hagain).symm⟩
    have hstate : call.hs.state = phaseAt (m.length + min (c2End - m.length) call.data.length) := by
      rw [h.state, phaseAt_c2 h1 h2, phaseAt_c2 (by omega) (by omega)]
    exact hbehind _ hstate
  · rw [if_neg fun hlt => hagain (hfull.mp hlt)]
    refine ⟨hbehind .done ?_, rfl, (if_neg hagain).symm⟩
    rw [phaseAt_done (by omega)]

theorem answered_behind {hs : Handshake} {m : Str} (random : UInt64 → Noise) (now : UInt64)
    (h : m.length = c1End) (hc1 : hs.c1 = m.drop 1) (hc2 : hs.c2 = [])
    (htaken : hs.taken = m.length) (hbuilt : hs.built = []) :
    ∃ complex out, complexOf hs.c1 = some complex ∧ reply random now hs.c1 complex = some out ∧
      Behind { hs with
        state := .c2, complex := complex, out := out, built := hs.built ++ [hs.taken] } m := by
  have hwhole : hs.c1 = c1Of m := by rw [hc1, c1Of_short (by omega)]
  have hsize : hs.c1.length = handshakeSize := by
    rw [hc1, List.length_drop, h]
    rfl
  have hends : c1End ≤ m.length ∧ c1End < c2End := ⟨by omega, by decide⟩
  obtain ⟨complex, hcomplex, hasks⟩ := complexOf_inside hsize
  obtain ⟨r, hreply, haccepted⟩ := reply_accepted random now hsize hasks
  refine ⟨complex, r.bytes, hcomplex, hreply, by omega, ?_, hwhole, ?_, htaken, ?_, ?_⟩
  · rw [phaseAt_c2 hends.1 (by omega)]
  · rw [List.drop_of_length_le (by omega)]
    exact hc2
  · rw [if_neg (by omega)]
    dsimp only
    rw [hbuilt, htaken, h]
    rfl
  · rw [hwhole] at haccepted
    exact fun _ => ⟨r, rfl, haccepted⟩

theorem feedC1_fed (random : UInt64 → Noise) (now : UInt64) (h : Behind call.hs m)
    (h0 : 0 < m.length) (h1 : m.length < c1End) :
    ∃ done, feedC1 random now call = some done ∧ Fed m call done := by
  have hends : c1End + handshakeSize = c2End := rfl
  have hone : 1 + handshakeSize = c1End := rfl
  have hc1 : call.hs.c1 = m.drop 1 := by rw [h.c1, c1Of_short (by omega)]
  have hc1Size : call.hs.c1.length = m.length - 1 := by rw [hc1, List.length_drop]
  have hc2 : call.hs.c2 = [] := by rw [h.c2, List.drop_of_length_le (by omega)]
  have hbuilt := h.built
  rw [if_pos h1] at hbuilt
  have htake : min (handshakeSize - call.hs.c1.length) call.data.length =
      min (c1End - m.length) call.data.length := by
    rw [hc1Size]
    omega
  have hdata : call.data.take (min (c1End - m.length) call.data.length) =
      call.data.take (c1End - m.length) := (List.take_eq_take_min).symm
  have hlen : (call.data.take (c1End - m.length)).length =
      min (c1End - m.length) call.data.length := List.length_take
  have hwhole : (m ++ call.data.take (c1End - m.length)).length =
      m.length + min (c1End - m.length) call.data.length := by rw [List.length_append, hlen]
  have hnext : call.hs.c1 ++ call.data.take (c1End - m.length) =
      (m ++ call.data.take (c1End - m.length)).drop 1 := by
    rw [List.drop_append_of_le_length (by omega), hc1]
  have hfull : (call.hs.c1 ++ call.data.take (c1End - m.length)).length < handshakeSize ↔
      m.length + call.data.length < c1End := by
    rw [List.length_append, hc1Size, hlen]
    omega
  unfold feedC1
  rw [htake]
  dsimp only
  rw [hdata]
  by_cases hagain : m.length + call.data.length < c1End
  · have hall : call.data.take (c2End - m.length) = call.data.take (c1End - m.length) := by
      rw [List.take_of_length_le (by omega), List.take_of_length_le (by omega)]
    rw [if_pos (hfull.mpr hagain)]
    refine ⟨_, rfl, ?_, ?_, (if_pos (by omega)).symm⟩
    · rw [hall]
      refine ⟨by omega, ?_, ?_, ?_, ?_, ?_, fun hlong => absurd hlong (by omega)⟩
      · rw [hwhole, phaseAt_c1 (by omega) (by omega), ← phaseAt_c1 h0 h1]
        exact h.state
      · rw [c1Of_short (by omega)]
        exact hnext
      · rw [List.drop_of_length_le (by omega)]
        exact hc2
      · rw [hwhole, ← h.taken]
        rfl
      · rw [if_pos (by omega)]
        exact hbuilt
    · rw [show min (c2End - m.length) call.data.length = min (c1End - m.length) call.data.length by
        omega]
      rfl
  · have hend : (m ++ call.data.take (c1End - m.length)).length = c1End := by
      rw [hwhole]
      omega
    obtain ⟨complex, out, hcomplex, hreply, hbehind⟩ := @answered_behind
      { (call.advance (min (c1End - m.length) call.data.length)).hs with
        c1 := call.hs.c1 ++ call.data.take (c1End - m.length) } _
      random now hend hnext hc2 (by rw [hwhole, ← h.taken]; rfl) hbuilt
    dsimp only at hcomplex hreply
    rw [if_neg fun hlt => hagain (hfull.mp hlt), hcomplex]
    simp only [Option.bind_eq_bind, Option.bind_some]
    rw [hreply]
    simp only [Option.bind_some]
    refine ⟨_, rfl, ?_⟩
    -- the rest of the data is fed behind C1
    have hrest := @feedC2_fed _ ⟨_, call.data.drop (min (c1End - m.length) call.data.length),
      call.consumed + min (c1End - m.length) call.data.length⟩ hbehind (by omega) (by omega)
    have hdrop : min (c1End - m.length) call.data.length = c1End - m.length := by omega
    have hparts : call.data.take (c1End - m.length) ++
        (call.data.drop (c1End - m.length)).take (c2End - c1End) =
          call.data.take (c2End - m.length) := by
      rw [← List.take_add]
      congr 1
      omega
    obtain ⟨hdone, hconsumed, hresult⟩ := hrest
    dsimp only at hdone hconsumed hresult
    rw [hend, hdrop, List.append_assoc, hparts] at hdone
    rw [hend, List.length_drop, hdrop] at hconsumed hresult
    refine ⟨?_, ?_, ?_⟩
    · rw [hdrop]
      exact hdone
    · rw [hdrop]
      refine hconsumed.trans ?_
      omega
    · rw [hdrop]
      refine hresult.trans ?_
      congr 1
      rw [eq_iff_iff]
      omega

theorem handshakeFeed_fed (random : UInt64 → Noise) (now : UInt64) {hs : Handshake} {m data : Str}
    (h : Behind hs m) (hversion : ∀ v ∈ (m ++ data).head?, v = rtmpVersion) :
    ∃ done, handshakeFeed random now hs data = some done ∧ Fed m ⟨hs, data, 0⟩ done := by
  have hends : 0 < c1End ∧ c1End < c2End := by decide
  have hsize := h.size
  unfold handshakeFeed
  rw [h.state]
  by_cases h0 : m.length = 0
  · obtain rfl := List.eq_nil_of_length_eq_zero h0
    rw [h0, show phaseAt 0 = .version from rfl]
    cases data with
    | nil => exact ⟨_, rfl, h, rfl, rfl⟩
    | cons version rest =>
      obtain rfl : version = rtmpVersion := hversion version rfl
      have hfirst : Behind { ((⟨hs, rtmpVersion :: rest, 0⟩ : Call).advance 1).hs with
          state := .c1 } [rtmpVersion] := by
        refine ⟨by decide, rfl, h.c1, h.c2, ?_, h.built, fun hlong => absurd hlong (by decide)⟩
        exact congrArg (· + 1) h.taken
      obtain ⟨done, hfeed, hdone⟩ := @feedC1_fed _ ⟨_, rest, 0 + 1⟩ random now hfirst
        (by decide) (by decide)
      refine ⟨done, ?_, ?_⟩
      · exact hfeed
      · obtain ⟨hbehind, hconsumed, hresult⟩ := hdone
        refine ⟨hbehind, hconsumed.trans ?_, hresult.trans ?_⟩
        · simp only [List.length_cons, List.length_nil]
          omega
        · simp only [List.length_cons, List.length_nil]
          congr 1
          rw [eq_iff_iff]
          omega
  · by_cases h1 : m.length < c1End
    · rw [phaseAt_c1 (by omega) h1]
      exact @feedC1_fed _ ⟨hs, data, 0⟩ random now h (by omega) h1
    · by_cases h2 : m.length < c2End
      · rw [phaseAt_c2 (by omega) h2]
        exact ⟨_, rfl, @feedC2_fed _ ⟨hs, data, 0⟩ h (by omega) h2⟩
      · have hnone : data.take (c2End - m.length) = [] := by
          rw [show c2End - m.length = 0 by omega, List.take_zero]
        rw [phaseAt_done (by omega)]
        refine ⟨_, rfl, ?_, ?_, (if_neg (by dsimp only; omega)).symm⟩
        · dsimp only
          rw [hnone, List.append_nil]
          exact h
        · dsimp only
          omega

structure Holds (conn : Conn) (stream : Str) : Prop where
  behind : Behind conn.hs (stream.take c2End)
  pending : conn.pending = stream.drop c2End
  result : conn.result = if stream.length < c2End then .again else .ok

theorem holds_init : Holds ⟨handshakeInit, [], .again⟩ [] :=
  ⟨⟨by decide, rfl, rfl, rfl, rfl, rfl, fun hlong => absurd hlong (by decide)⟩, rfl, rfl⟩

theorem arrive_holds (random : UInt64 → Noise) {conn : Conn} {stream : Str} {arrival : Arrival}
    (h : Holds conn stream) (hversion : ∀ v ∈ (stream ++ arrival.bytes).head?, v = rtmpVersion) :
    ∃ next, arrive random conn arrival = some next ∧ Holds next (stream ++ arrival.bytes) := by
  have hdata : stream.take c2End ++ (conn.pending ++ arrival.bytes) =
      stream ++ arrival.bytes := by
    rw [h.pending, ← List.append_assoc, List.take_append_drop]
  have hlen : (stream.take c2End).length + (conn.pending ++ arrival.bytes).length =
      (stream ++ arrival.bytes).length := by rw [← List.length_append, hdata]
  have hsize : (stream.take c2End).length ≤ c2End := h.behind.size
  have htake : (stream.take c2End) ++ (conn.pending ++ arrival.bytes).take
      (c2End - (stream.take c2End).length) = (stream ++ arrival.bytes).take c2End := by
    have hall : (stream.take c2End).take c2End = stream.take c2End := List.take_of_length_le hsize
    rw [← hdata, @List.take_append _ (stream.take c2End), hall]
  have hdrop : (conn.pending ++ arrival.bytes).drop (c2End - (stream.take c2End).length) =
      (stream ++ arrival.bytes).drop c2End := by
    have hnone : (stream.take c2End).drop c2End = [] := List.drop_of_length_le hsize
    rw [← hdata, @List.drop_append _ (stream.take c2End), hnone, List.nil_append]
  obtain ⟨⟨result, call⟩, hfeed, hbehind, hconsumed, hresult⟩ :=
    handshakeFeed_fed random arrival.now h.behind (by rwa [hdata])
  dsimp only at hbehind hconsumed hresult
  rw [htake] at hbehind
  rw [hlen] at hresult
  refine ⟨⟨call.hs, (conn.pending ++ arrival.bytes).drop call.consumed, result⟩, ?_, hbehind,
    ?_, hresult⟩
  · rw [arrive]
    dsimp only
    rw [hfeed]
    rfl
  · rw [hconsumed, Nat.zero_add, ← hdrop]
    exact (List.drop_eq_drop_min).symm

theorem run_holds (random : UInt64 → Noise) {arrivals : List Arrival}
    (hversion : ∀ v ∈ (streamOf arrivals).head?, v = rtmpVersion) :
    ∃ conn, run random arrivals = some conn ∧ Holds conn (streamOf arrivals) := by
  induction arrivals using List.reverseRecOn with
  | nil => exact ⟨_, rfl, holds_init⟩
  | append_singleton arrivals arrival ih =>
    have hstream : streamOf (arrivals ++ [arrival]) = streamOf arrivals ++ arrival.bytes := by
      simp only [streamOf, List.flatMap_append, List.flatMap_singleton]
    rw [hstream] at hversion
    have hbefore : ∀ v ∈ (streamOf arrivals).head?, v = rtmpVersion := by
      intro v hv
      exact hversion v (List.mem_head?_append_of_mem_head? hv)
    obtain ⟨conn, hrun, hholds⟩ := ih hbefore
    obtain ⟨next, harrive, hnext⟩ := arrive_holds random hholds hversion
    refine ⟨next, ?_, ?_⟩
    · rw [run, List.foldlM_append]
      rw [run] at hrun
      rw [hrun]
      simp only [Option.bind_eq_bind, Option.bind_some, List.foldlM_cons, List.foldlM_nil, harrive,
        Option.pure_def]
    · rwa [hstream]

structure Answered (stream : Str) (conn : Conn) : Prop where
  taken : conn.hs.taken = min stream.length 3073
  pending : conn.pending = stream.drop 3073
  done : conn.result = .ok ↔ 3073 ≤ stream.length
  waits : conn.result = .again ↔ stream.length < 3073
  built : conn.hs.built = if 1537 ≤ stream.length then [1537] else []
  inside : conn.hs.c1.length ≤ handshakeSize ∧ conn.hs.c2.length ≤ handshakeSize
  reply : 1537 ≤ stream.length → ∃ r : Reply,
    conn.hs.out = r.bytes ∧ Accepted ((stream.drop 1).take handshakeSize) r

/-- However a client's stream is cut and whatever S1 holds, no access leaves a packet and the
client gets one reply, which it accepts. -/
theorem handshake_answered (random : UInt64 → Noise) (client : Client) :
    ∃ conn, run random client.arrivals = some conn ∧ Answered client.stream conn := by
  obtain ⟨conn, hrun, hbehind, hpending, hresult⟩ := run_holds random client.version
  have hend : c2End = 3073 := rfl
  have hc1End : c1End = 1537 := rfl
  have hlen : (client.stream.take c2End).length = min c2End client.stream.length :=
    List.length_take
  have hc1 : c1Of (client.stream.take c2End) = c1Of client.stream := by
    rw [c1Of, c1Of, List.drop_take, List.take_take]
    rfl
  refine ⟨conn, hrun, ?_, hpending, ?_, ?_, ?_, ⟨?_, ?_⟩, ?_⟩
  · rw [hbehind.taken]
    refine hlen.trans ?_
    omega
  · rw [hresult]
    change (if client.stream.length < c2End then Result.again else Result.ok) = .ok ↔ _
    split_ifs <;> simp <;> omega
  · rw [hresult]
    change (if client.stream.length < c2End then Result.again else Result.ok) = .again ↔ _
    split_ifs <;> simp <;> omega
  · rw [hbehind.built]
    change (if (client.stream.take c2End).length < c1End then _ else _) = _
    rw [hlen]
    split_ifs <;> first | rfl | omega
  · rw [hbehind.c1]
    exact List.length_take_le _ _
  · rw [hbehind.c2, List.length_drop]
    change (client.stream.take c2End).length - c1End ≤ handshakeSize
    have hparts : c1End + handshakeSize = c2End := rfl
    omega
  · intro hlong
    have hreplied := hbehind.replied
    change c1End ≤ (client.stream.take c2End).length → ∃ r : Reply,
      conn.hs.out = r.bytes ∧ Accepted (c1Of (client.stream.take c2End)) r at hreplied
    rw [hc1] at hreplied
    exact hreplied (by omega)

end

end RtmpHandshake
