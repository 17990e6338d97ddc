import NginxMedia.RtmpReplies

/-! Whether the read handler of an RTMP destination survives its answers. A visit keeps to its
buffer and stops at every release, unless a message made the destination release itself: then the
reader goes on, or the handler moves what it consumed in a buffer that is empty by now. -/
namespace RtmpSurvival

open MediaTypes ByteString RtmpDestination RtmpReplies
open RtmpAmf (typeString typeNumber typeNull typeObject)
open RtmpReader (ChunkStream Reader advance copied finish wanted parseHeader_size)

/-- What is asked of a visit. -/
structure Survives (trace : List Event) : Prop where
  within : ∀ e ∈ trace, e.Within
  quiet : ∀ before after, trace = before ++ .release :: after → ∀ e ∈ after, ¬e.Late

def Loud (target : Target) (trace : List Event) : Prop :=
  ∃ d m type payload, .message d m type payload ∈ trace ∧ Rejects m target d type payload

def Broken (trace : List Event) : Prop :=
  ∃ before after, trace = before ++ .release :: after ∧ ∃ e ∈ after, e.Late

structure Fit (d : Dest) : Prop where
  used : d.pendingLen ≤ d.pending.length
  room : d.pendingLen ≤ readBuffer

variable {env : ℕ → Moment} {target : Target} {m : Moment} {d : Dest} {t t' : Talk}
  {bytes : List UInt8} {n : ℕ} {trace more : List Event}

theorem Broken.survives (h : Broken trace) : ¬Survives trace := by
  obtain ⟨before, after, htrace, e, he, hlate⟩ := h
  exact fun hs => hs.quiet before after htrace e he hlate

theorem Broken.append (h : Broken trace) (more : List Event) : Broken (trace ++ more) := by
  obtain ⟨before, after, rfl, e, he, hlate⟩ := h
  exact ⟨before, after ++ more, by rw [List.append_assoc, List.cons_append], e,
    List.mem_append_left _ he, hlate⟩

theorem Loud.append (h : Loud target trace) (more : List Event) : Loud target (trace ++ more) := by
  obtain ⟨d, m, type, payload, hmem, hrejects⟩ := h
  exact ⟨d, m, type, payload, List.mem_append_left _ hmem, hrejects⟩

theorem broken_of_release (h : .release ∈ trace) {e : Event} (he : e.Late) (more : List Event) :
    Broken (trace ++ e :: more) := by
  obtain ⟨before, after, rfl⟩ := List.mem_iff_append.mp h
  refine ⟨before, after ++ e :: more, by rw [List.append_assoc, List.cons_append], e, ?_, he⟩
  exact List.mem_append_right _ List.mem_cons_self

theorem calm_quiet (h : ∀ e ∈ trace, e.Calm target) : ¬Loud target trace := by
  rintro ⟨d, m, type, payload, hmem, hrejects⟩
  exact h _ hmem hrejects

theorem calm_survives (h : ∀ e ∈ trace, e.Calm target) {last : List Event}
    (hlast : last = [] ∨ last = [.release]) : Survives (trace ++ last) := by
  constructor
  · intro e he
    rcases List.mem_append.mp he with hcalm | hend
    · exact (h e hcalm).within
    · rcases hlast with rfl | rfl
      · exact absurd hend List.not_mem_nil
      · rw [List.mem_singleton.mp hend]
        trivial
  · intro before after heq e he
    have hrelease : ∀ l : List Event, l = before ++ .release :: after → .release ∈ l := fun l hl =>
      hl ▸ List.mem_append_right _ List.mem_cons_self
    rcases hlast with rfl | rfl
    · rw [List.append_nil] at heq
      exact absurd (h _ (hrelease _ heq)) id
    · rcases List.append_eq_append_iff.mp heq with ⟨mid, hbefore, hrest⟩ | ⟨mid, hold, hrest⟩
      · cases mid with
        | nil =>
          rw [List.nil_append, List.cons.injEq] at hrest
          rw [← hrest.2] at he
          exact absurd he List.not_mem_nil
        | cons e' mid =>
          rw [List.cons_append, List.cons.injEq] at hrest
          exact absurd hrest.2.symm (List.append_ne_nil_of_right_ne_nil _ (List.cons_ne_nil _ _))
      · cases mid with
        | nil =>
          rw [List.nil_append, List.cons.injEq] at hrest
          rw [hrest.2] at he
          exact absurd he List.not_mem_nil
        | cons e' mid =>
          rw [List.cons_append, List.cons.injEq] at hrest
          rw [hold, ← hrest.1] at h
          exact absurd (h .release (List.mem_append_right _ List.mem_cons_self)) id

/-- A visit with nothing released so far. -/
structure Clean (target : Target) (t : Talk) : Prop where
  fit : Fit t.dest
  calm : ∀ e ∈ t.trace, e.Calm target

structure Over (target : Target) (t : Talk) : Prop where
  fit : Fit t.dest
  ended : ∃ events, (∀ e ∈ events, e.Calm target) ∧ t.trace = events ++ [.release]

/-- A visit that did not stop at a release that a message caused. -/
structure Burst (target : Target) (t : Talk) : Prop where
  broken : Broken t.trace
  loud : Loud target t.trace

theorem Clean.withReader (h : Clean target t) (r : Reader) : Clean target (t.withReader r) :=
  ⟨⟨h.fit.used, h.fit.room⟩, h.calm⟩

theorem Clean.note (h : Clean target t) {events : List Event}
    (hevents : ∀ e ∈ events, e.Calm target) : Clean target (t.note events) := by
  refine ⟨h.fit, fun e he => ?_⟩
  exact (List.mem_append.mp he).elim (h.calm e) (hevents e)

/-- A handler that leaves the buffer alone, or ends the visit. -/
theorem Clean.after (h : Clean target t) {result : Dest × Bool} (hr : Handled t.dest result) :
    (result.2 = false ∧ Clean target (t.after result) ∧
        (t.after result).dest.pendingLen = t.dest.pendingLen) ∨
      (result.2 = true ∧ Over target (t.after result) ∧ (t.after result).dest.state = .idle ∧
        (t.after result).dest.connection = false) := by
  cases hr with
  | kept d' hsame =>
    refine Or.inl ⟨rfl, ⟨⟨?_, ?_⟩, fun e he => ?_⟩, hsame.pendingLen⟩
    · change d'.pendingLen ≤ d'.pending.length
      rw [hsame.pending, hsame.pendingLen]
      exact h.fit.used
    · change d'.pendingLen ≤ readBuffer
      rw [hsame.pendingLen]
      exact h.fit.room
    · exact (List.mem_append.mp he).elim (h.calm e) fun hnil => absurd hnil List.not_mem_nil
  | released d' hlen hreader hstate hconnection =>
    refine Or.inr ⟨rfl, ⟨⟨?_, ?_⟩, t.trace, h.calm, rfl⟩, hstate, hconnection⟩
    · change d'.pendingLen ≤ _
      rw [hlen]
      exact Nat.zero_le _
    · change d'.pendingLen ≤ _
      rw [hlen]
      exact Nat.zero_le _

theorem countMessage_handled {r : Dest × Bool} (h : Handled d r) (hflag : r.2 = false) :
    (countMessage r.1).pending = d.pending ∧ (countMessage r.1).pendingLen = d.pendingLen := by
  cases h with
  | kept d' hsame => exact ⟨hsame.pending, hsame.pendingLen⟩
  | released d' _ _ _ _ => cases hflag

/-- A message that is complete: nothing becomes of the buffer, or it made the destination release
itself and nobody has noticed. -/
theorem complete_outcome (env : ℕ → Moment) (h : Clean target t) (csid : ℕ) (cs : ChunkStream) :
    (Clean target (complete env target t csid cs).1 ∧
        (complete env target t csid cs).1.dest.pendingLen = t.dest.pendingLen) ∨
      ((complete env target t csid cs).2 = .ok ∧
        Loud target (complete env target t csid cs).1.trace ∧
        .release ∈ (complete env target t csid cs).1.trace) := by
  unfold complete
  dsimp only
  split
  · exact Or.inl ⟨h.withReader _, rfl⟩
  split
  · rename_i payload _ _ r _
    generalize hd : setReader t.dest r = d
    generalize payload.take cs.length = payload'
    have hhandled := onMessage_handled (env t.clock) target d cs.type payload'
    have hrejects := onMessage_rejects (env t.clock) target d cs.type payload'
    generalize onMessage (env t.clock) target d cs.type payload' = answered at hhandled hrejects ⊢
    obtain ⟨d', released⟩ := answered
    cases released with
    | false =>
      left
      obtain ⟨hpending, hlen⟩ := countMessage_handled hhandled rfl
      rw [← hd] at hpending hlen
      refine ⟨⟨⟨?_, ?_⟩, ?_⟩, hlen⟩
      · change (countMessage d').pendingLen ≤ (countMessage d').pending.length
        rw [hpending, hlen]
        exact h.fit.used
      · change (countMessage d').pendingLen ≤ readBuffer
        rw [hlen]
        exact h.fit.room
      · intro e he
        change e ∈ (t.trace ++ [_]) ++ [] at he
        rw [List.append_nil] at he
        rcases List.mem_append.mp he with hold | hnew
        · exact h.calm e hold
        · rw [List.mem_singleton.mp hnew]
          exact fun hr => Bool.false_ne_true (hrejects.mpr hr)
    | true =>
      right
      refine ⟨rfl, ⟨d, _, _, payload', ?_, hrejects.mp rfl⟩, ?_⟩
      · exact List.mem_append_left _ (List.mem_append_right _ (List.mem_singleton_self _))
      · exact List.mem_append_right _ (List.mem_singleton_self _)
  · exact Or.inl ⟨h.withReader _, rfl⟩

inductive Passed (target : Target) (t : Talk) (bytes : List UInt8) : Step → Prop
  | stop (t' : Talk) (h : Clean target t') (hlen : t'.dest.pendingLen = t.dest.pendingLen) :
      Passed target t bytes (.stop t')
  | fail (t' : Talk) (n : ℕ) (h : Clean target t') (hlen : t'.dest.pendingLen = t.dest.pendingLen)
      (hn : n ≤ bytes.length) : Passed target t bytes (.fail t' n)
  | next (t' : Talk) (n : ℕ) (h : Clean target t') (hlen : t'.dest.pendingLen = t.dest.pendingLen)
      (hn : n ≤ bytes.length) : Passed target t bytes (.next t' n)
  | loud (t' : Talk) (n : ℕ) (h : Loud target t'.trace) (hrelease : .release ∈ t'.trace)
      (hn : n ≤ bytes.length) : Passed target t bytes (.next t' n)

theorem payloadStep_passed (env : ℕ → Moment) (h : Clean target t) (csid : ℕ) (cs : ChunkStream)
    (bytes : List UInt8) : Passed target t bytes (payloadStep env target t csid cs bytes) := by
  unfold payloadStep
  dsimp only
  have hpart : (bytes.take (wanted t.dest.reader cs)).length ≤ bytes.length := by
    rw [List.length_take]
    exact Nat.min_le_right _ _
  generalize bytes.take (wanted t.dest.reader cs) = part at hpart ⊢
  generalize advance t.dest.reader csid cs part = r
  split
  · have hcomplete := complete_outcome env (h.withReader (finish r)) csid (copied cs part)
    generalize complete env target (t.withReader (finish r)) csid (copied cs part) = done
      at hcomplete ⊢
    obtain ⟨t', rc⟩ := done
    rcases hcomplete with ⟨hclean, hlen⟩ | ⟨hok, hloud, hrelease⟩
    · cases rc with
      | ok => exact .next t' _ hclean hlen hpart
      | error => exact .fail t' _ hclean hlen hpart
      | again => exact .fail t' _ hclean hlen hpart
      | declined => exact .fail t' _ hclean hlen hpart
    · cases hok
      exact .loud t' _ hloud hrelease hpart
  · exact .next _ _ (h.withReader r) rfl hpart

theorem loopStep_passed (env : ℕ → Moment) (h : Clean target t) (hne : bytes ≠ []) :
    Passed target t bytes (loopStep env target t bytes) := by
  unfold loopStep
  dsimp only
  split
  · split
    · exact .fail _ 0 (h.withReader _) rfl (Nat.zero_le _)
    · exact payloadStep_passed env h _ _ bytes
  · split
    · exact .stop _ (h.withReader _) rfl
    · exact .fail _ 0 (h.withReader _) rfl (Nat.zero_le _)
    · rename_i r csid cs k hready
      obtain ⟨-, hk⟩ := parseHeader_size hne hready
      have hpayload := payloadStep_passed env (h.withReader r) csid cs (bytes.drop k)
      generalize payloadStep env target (t.withReader r) csid cs (bytes.drop k) = step
        at hpayload ⊢
      have hdrop : (bytes.drop k).length = bytes.length - k := List.length_drop
      cases hpayload with
      | stop t' hclean hlen => exact .stop t' hclean hlen
      | fail t' n hclean hlen hn => exact .fail t' _ hclean hlen (by omega)
      | next t' n hclean hlen hn => exact .next t' _ hclean hlen (by omega)
      | loud t' n hloud hrelease hn => exact .loud t' _ hloud hrelease (by omega)

theorem feedLoop_outcome (env : ℕ → Moment) (fuel : ℕ) (h : Clean target t) (hfuel : rounds t bytes < fuel) :
    (Clean target (feedLoop env target fuel t bytes).1 ∧
        (feedLoop env target fuel t bytes).1.dest.pendingLen = t.dest.pendingLen ∧
        (feedLoop env target fuel t bytes).2.1 ≤ bytes.length) ∨
      (Loud target (feedLoop env target fuel t bytes).1.trace ∧
        (Broken (feedLoop env target fuel t bytes).1.trace ∨
          (.release ∈ (feedLoop env target fuel t bytes).1.trace ∧
            (feedLoop env target fuel t bytes).2.1 = bytes.length ∧
            (feedLoop env target fuel t bytes).2.2 = .ok))) := by
  induction fuel generalizing t bytes with
  | zero => exact absurd hfuel (Nat.not_lt_zero _)
  | succ fuel ih =>
    rw [feedLoop]
    by_cases hne : bytes = []
    · rw [if_pos hne]
      exact Or.inl ⟨h, rfl, Nat.zero_le _⟩
    · rw [if_neg hne]
      have hnoted : Clean target (t.note [.pass bytes.length]) := h.note fun e he => by
        rw [List.mem_singleton.mp he]
        trivial
      have hpassed := loopStep_passed env hnoted hne
      have hprogress := fun t' n => @loopStep_progress env target (t.note [.pass bytes.length]) t'
        bytes n hne
      generalize loopStep env target (t.note [.pass bytes.length]) bytes = step
        at hpassed hprogress ⊢
      cases hpassed with
      | stop t' hclean hlen => exact Or.inl ⟨hclean, hlen, Nat.zero_le _⟩
      | fail t' n hclean hlen hn => exact Or.inl ⟨hclean, hlen, hn⟩
      | next t' n hclean hlen hn =>
        have hless : rounds t' (bytes.drop n) < rounds t bytes := hprogress t' n rfl
        have hdrop : (bytes.drop n).length = bytes.length - n := List.length_drop
        rcases @ih t' (bytes.drop n) hclean (by omega) with
          ⟨hclean', hlen', hconsumed⟩ | ⟨hloud, hend⟩
        · exact Or.inl ⟨hclean', hlen'.trans hlen, by dsimp only; omega⟩
        · refine Or.inr ⟨hloud, hend.imp_right ?_⟩
          rintro ⟨hrelease, hconsumed, hok⟩
          exact ⟨hrelease, by dsimp only; omega, hok⟩
      | loud t' n hloud hrelease hn =>
        have hless : rounds t' (bytes.drop n) < rounds t bytes := hprogress t' n rfl
        have hextends := feedLoop_extends env target fuel t' (bytes.drop n)
        obtain ⟨more, hmore⟩ := hextends
        dsimp only
        rw [← hmore]
        refine Or.inr ⟨hloud.append more, ?_⟩
        obtain ⟨fuel, rfl⟩ : ∃ k, fuel = k + 1 := ⟨fuel - 1, by omega⟩
        by_cases hrest : bytes.drop n = []
        · right
          have hall : n = bytes.length := by
            have := List.drop_eq_nil_iff.mp hrest
            omega
          rw [feedLoop, if_pos hrest]
          exact ⟨List.mem_append_left _ hrelease, hall, rfl⟩
        · left
          obtain ⟨rest, hpass⟩ := feedLoop_pass (feedLoop_extends env target fuel) t' hrest
          rw [hmore, ← hpass, List.append_assoc]
          exact broken_of_release hrelease (show (Event.pass _).Late from trivial) rest

theorem minus_of_le {a b : ℕ} (hle : b ≤ a) (ha : a < 2 ^ 64) : minus a b = a - b := by
  unfold minus
  omega

theorem inBuffer_length (h : Fit d) : (inBuffer d).length = d.pendingLen := by
  rw [inBuffer, List.length_take, Nat.min_eq_left h.used]

theorem Clean.moved (h : Clean target t) (hn : n ≤ t.dest.pendingLen) :
    Clean target (t.moved n) := by
  unfold Talk.moved
  split
  · exact h
  · have hroom := h.fit.room
    have hrest : minus t.dest.pendingLen n = t.dest.pendingLen - n :=
      minus_of_le hn (lt_of_le_of_lt hroom (by decide))
    have hle : t.dest.pendingLen - n ≤ readBuffer := by omega
    dsimp only
    rw [hrest]
    refine ⟨⟨?_, hle⟩, fun e he => ?_⟩
    · have hused := h.fit.used
      dsimp only
      rw [List.length_drop]
      omega
    · rcases List.mem_append.mp he with hold | hnew
      · exact h.calm e hold
      · rcases List.mem_cons.mp hnew with rfl | hlast
        · exact hn
        · rw [List.mem_singleton.mp hlast]
          exact hle

theorem Clean.receive (h : Clean target t) {part : List UInt8}
    (hpart : part.length ≤ minus readBuffer t.dest.pendingLen) :
    Clean target (t.receive part) := by
  have hroom := h.fit.room
  rw [minus_of_le hroom (by decide)] at hpart
  have hle : t.dest.pendingLen + part.length ≤ readBuffer := by omega
  refine ⟨⟨?_, hle⟩, fun e he => ?_⟩
  · change t.dest.pendingLen + part.length ≤ (inBuffer t.dest ++ part).length
    rw [List.length_append, inBuffer_length h.fit]
  · rcases List.mem_append.mp he with hold | hnew
    · exact h.calm e hold
    · rw [List.mem_singleton.mp hnew]
      exact hle

theorem Clean.fail (h : Clean target t) (env : ℕ → Moment) : Over target (t.fail env) := by
  rcases h.after (fail_handled t.dest t.dest (env t.clock).now) with ⟨hflag, -⟩ | ⟨-, hover, -⟩
  · cases hflag
  · exact hover

theorem Clean.flush (h : Clean target t) (env : ℕ → Moment) :
    Clean target (t.flush env) ∨ (Over target (t.flush env) ∧
      (t.flush env).dest.connection = false) := by
  rcases h.after (flush_handled (.refl t.dest) (env t.clock)) with
    ⟨-, hclean, -⟩ | ⟨-, hover, -, hconnection⟩
  · exact Or.inl hclean
  · exact Or.inr ⟨hover, hconnection⟩

theorem Clean.leave (h : Clean target t) (env : ℕ → Moment) :
    Clean target (t.leave env) ∨ Over target (t.leave env) := by
  unfold Talk.leave
  split
  · exact (h.flush env).imp_right And.left
  · exact Or.inl h

theorem takeC2_consumed (hs : Handshake) (data : List UInt8) (consumed : ℕ) :
    (takeC2 hs data consumed).2.1 ≤ consumed + data.length := by
  have hpart : (data.take (handshakeSize - hs.received)).length ≤ data.length :=
    List.length_take_le' _ _
  unfold takeC2
  dsimp only
  split_ifs <;> dsimp only <;> omega

theorem takeC1_consumed (hs : Handshake) (data : List UInt8) (consumed : ℕ) :
    (takeC1 hs data consumed).2.1 ≤ consumed + data.length := by
  have hpart : (data.take (handshakeSize - hs.received)).length ≤ data.length :=
    List.length_take_le' _ _
  unfold takeC1
  dsimp only
  generalize data.take (handshakeSize - hs.received) = part at hpart ⊢
  split
  · split
    · exact Nat.add_le_add_left hpart consumed
    · refine le_trans (takeC2_consumed _ _ _) ?_
      rw [List.length_drop]
      omega
  · exact takeC2_consumed hs data consumed

theorem handshakeFeed_consumed (hs : Handshake) (data : List UInt8) :
    (handshakeFeed hs data).2.1 ≤ data.length := by
  unfold handshakeFeed
  split
  · split
    · exact Nat.zero_le _
    rename_i hne
    have hpos := List.length_pos_iff.mpr hne
    split
    · exact Nat.zero_le _
    · refine le_trans (takeC1_consumed _ _ _) ?_
      rw [List.length_drop]
      omega
  · exact le_trans (takeC1_consumed _ _ _) (le_of_eq (Nat.zero_add _))

theorem handshakeDone_handled (m : Moment) (target : Target) (d : Dest) :
    Handled d (handshakeDone target m d) := by
  unfold handshakeDone
  split
  · rename_i out _
    have hraw : SameBuffer d { d with out := out } := ⟨rfl, rfl, rfl⟩
    exact flush_handled ((hraw.trans (send_same _ _ _ _ _ _)).trans (sendConnect_same _ _ _)) m
  · exact fail_handled d d m.now

theorem Clean.answer (h : Clean target t) (env : ℕ → Moment) :
    Clean target (answerHandshake env target t).1 ∨
      ((answerHandshake env target t).2 = true ∧ Over target (answerHandshake env target t).1) := by
  unfold answerHandshake
  split
  · have hreplied : Clean target { t with dest := { t.dest with replySent := true } } :=
      ⟨⟨h.fit.used, h.fit.room⟩, h.calm⟩
    rcases hreplied.after (handshakeDone_handled (env t.clock) target _) with
      ⟨-, hclean, -⟩ | ⟨-, hover, hidle, -⟩
    · exact Or.inl hclean
    · exact Or.inr ⟨decide_eq_true hidle, hover⟩
  · exact Or.inl h

theorem Clean.handshake (h : Clean target t) (env : ℕ → Moment) :
    Clean target (handshakePart env target t).1 ∨
      ((handshakePart env target t).2 = true ∧ Over target (handshakePart env target t).1) := by
  unfold handshakePart
  split
  · exact Or.inl h
  · have hconsumed := handshakeFeed_consumed t.dest.handshake (inBuffer t.dest)
    rw [inBuffer_length h.fit] at hconsumed
    generalize handshakeFeed t.dest.handshake (inBuffer t.dest) = r at hconsumed ⊢
    obtain ⟨hs, consumed, rc⟩ := r
    have hfed : Clean target { t with dest := { t.dest with handshake := hs } } :=
      ⟨⟨h.fit.used, h.fit.room⟩, h.calm⟩
    have hmoved := hfed.moved hconsumed
    dsimp only
    generalize Talk.moved _ consumed = t' at hmoved ⊢
    split
    · exact Or.inr ⟨rfl, hmoved.fail env⟩
    · have hanswer := hmoved.answer env
      generalize answerHandshake env target t' = answered at hanswer ⊢
      obtain ⟨t'', returned⟩ := answered
      cases returned with
      | true => exact hanswer
      | false =>
        have hclean := hanswer.resolve_right fun hover => Bool.false_ne_true hover.1
        left
        dsimp only
        split
        · exact ⟨⟨hclean.fit.used, hclean.fit.room⟩, hclean.calm⟩
        · exact hclean

theorem Burst.extend (h : Burst target t) (hextends : t.trace <+: t'.trace) : Burst target t' := by
  obtain ⟨more, hmore⟩ := hextends
  exact ⟨hmore ▸ h.broken.append more, hmore ▸ h.loud.append more⟩

/-- The chunk stream's part: a message that releases the destination is not noticed in time. -/
theorem Clean.chunks (h : Clean target t) (env : ℕ → Moment) :
    Clean target (chunkPart env target t).1 ∨
      ((chunkPart env target t).2 = true ∧ Over target (chunkPart env target t).1) ∨
      Burst target (chunkPart env target t).1 := by
  unfold chunkPart
  by_cases hskip : t.dest.state = .handshake ∨ t.dest.pendingLen = 0
  · rw [if_pos hskip]
    exact Or.inl h
  · rw [if_neg hskip]
    have hlength := inBuffer_length h.fit
    have hfuel : rounds t (inBuffer t.dest) < 2 * (inBuffer t.dest).length + 2 := by
      unfold rounds
      split_ifs <;> omega
    have hfeed := feedLoop_outcome env _ h hfuel
    rw [← feed] at hfeed
    generalize feed env target t (inBuffer t.dest) = r at hfeed ⊢
    obtain ⟨t', consumed, rc⟩ := r
    dsimp only at hfeed ⊢
    rcases hfeed with ⟨hclean, hsame, hconsumed⟩ | ⟨hloud, hend⟩
    · split
      · exact Or.inr (Or.inl ⟨rfl, hclean.fail env⟩)
      · exact Or.inl (hclean.moved (by omega))
    · right
      right
      rcases hend with hbroken | ⟨hrelease, hconsumed, hok⟩
      · split
        · exact Burst.extend ⟨hbroken, hloud⟩ (after_extends _ _)
        · exact Burst.extend ⟨hbroken, hloud⟩ (moved_extends _ _)
      · -- the bytes that the feed reports are moved in a buffer that is empty by now
        rw [if_neg (fun hne => hne hok)]
        have hpos : consumed ≠ 0 := by omega
        have hmoved : t'.moved consumed = { t' with
            dest := { t'.dest with
              pending := t'.dest.pending.drop consumed
              pendingLen := minus t'.dest.pendingLen consumed }
            trace := t'.trace ++ [.move consumed t'.dest.pendingLen,
              .length (minus t'.dest.pendingLen consumed)] } := if_neg hpos
        rw [hmoved]
        exact ⟨broken_of_release hrelease (show (Event.move _ _).Late from trivial) _,
          hloud.append _⟩

/-- Whatever the server sends and however it is cut: the visit is calm, or it ended with a release,
or it went on after a release that a message caused. -/
theorem readLoop_outcome (env : ℕ → Moment) (script : List Recv) (h : Clean target t) :
    Clean target (readLoop env target script t) ∨ Over target (readLoop env target script t) ∨
      Burst target (readLoop env target script t) := by
  induction script generalizing t with
  | nil => exact (h.leave env).imp_right Or.inl
  | cons recv rest ih =>
    rw [readLoop.eq_def]
    dsimp only
    split
    · exact Or.inr (Or.inl (h.fail env))
    cases recv with
    | again => exact (h.leave env).imp_right Or.inl
    | closed => exact Or.inr (Or.inl (h.fail env))
    | data bytes =>
      dsimp only
      split
      · exact Or.inr (Or.inl (h.fail env))
      have hreceived := h.receive (List.length_take_le (minus readBuffer t.dest.pendingLen) bytes)
      have hhandshake := hreceived.handshake env
      generalize handshakePart env target _ = r at hhandshake ⊢
      obtain ⟨t', returned⟩ := r
      cases returned with
      | true => exact hhandshake.imp_right fun hover => Or.inl hover.2
      | false =>
        have hclean := hhandshake.resolve_right fun hover => Bool.false_ne_true hover.1
        have hchunks := hclean.chunks env
        dsimp only
        generalize chunkPart env target t' = r at hchunks ⊢
        obtain ⟨t'', returned⟩ := r
        cases returned with
        | true => exact hchunks.imp_right fun hrest => hrest.imp_left And.right
        | false =>
          dsimp only
          rcases hchunks with hclean | ⟨hflag, -⟩ | hburst
          · rcases hclean.flush env with hflushed | ⟨hover, hconnection⟩
            · split
              · exact Or.inl hflushed
              · exact ih hflushed
            · rw [if_pos hconnection]
              exact Or.inr (Or.inl hover)
          · cases hflag
          · have hflushed := hburst.extend (after_extends t'' (flush (env t''.clock) t''.dest))
            right
            right
            split
            · exact hflushed
            · exact hflushed.extend (readLoop_extends env target rest _)

/-- What happens to a destination: `serve` is any other handler, which leaves the read buffer as it
is. -/
inductive Call where
  | read (env : ℕ → Moment) (script : List Recv)
  | serve (d : Dest)
  | release (now : ℕ)

structure Session where
  dest : Dest
  visits : List (List Event)

def callStep (target : Target) (s : Session) : Call → Session
  | .read env script =>
    let t := readHandler env target script s.dest
    ⟨t.dest, s.visits ++ [t.trace]⟩
  | .serve d => { s with dest := { d with pending := s.dest.pending, pendingLen := s.dest.pendingLen } }
  | .release now => { s with dest := s.dest.release now }

def run (target : Target) (d : Dest) (calls : List Call) : Session :=
  calls.foldl (callStep target) ⟨d.release 0, []⟩

/-- One visit stops at every release exactly when no message of it made the destination release
itself, and then the buffer fits again. -/
theorem readHandler_survives_iff (env : ℕ → Moment) (target : Target) (script : List Recv)
    (h : Fit d) :
    (Survives (readHandler env target script d).trace ↔
        ¬Loud target (readHandler env target script d).trace) ∧
      (Survives (readHandler env target script d).trace →
        Fit (readHandler env target script d).dest) := by
  have houtcome : Clean target (readHandler env target script d) ∨
      Over target (readHandler env target script d) ∨
      Burst target (readHandler env target script d) := by
    have hstart : Clean target ⟨d, [], 0⟩ := ⟨h, fun e he => absurd he List.not_mem_nil⟩
    unfold readHandler
    split
    · exact Or.inl hstart
    · exact readLoop_outcome env script hstart
  generalize readHandler env target script d = t at houtcome ⊢
  rcases houtcome with hclean | hover | hburst
  · have hsurvives := calm_survives hclean.calm (Or.inl rfl)
    rw [List.append_nil] at hsurvives
    exact ⟨iff_of_true hsurvives (calm_quiet hclean.calm), fun _ => hclean.fit⟩
  · obtain ⟨events, hcalm, htrace⟩ := hover.ended
    have hquiet : ¬Loud target t.trace := by
      rintro ⟨d, m, type, payload, hmem, hrejects⟩
      rw [htrace] at hmem
      rcases List.mem_append.mp hmem with hold | hlast
      · exact hcalm _ hold hrejects
      · cases List.mem_singleton.mp hlast
    exact ⟨iff_of_true (htrace ▸ calm_survives hcalm (Or.inr rfl)) hquiet, fun _ => hover.fit⟩
  · exact ⟨iff_of_false hburst.broken.survives fun hquiet => hquiet hburst.loud,
      fun hsurvives => absurd hsurvives hburst.broken.survives⟩

theorem run_fit (target : Target) (d : Dest) (calls : List Call) :
    ((∀ trace ∈ (run target d calls).visits, Survives trace) ↔
        ∀ trace ∈ (run target d calls).visits, ¬Loud target trace) ∧
      ((∀ trace ∈ (run target d calls).visits, Survives trace) →
        Fit (run target d calls).dest) := by
  induction calls using List.reverseRecOn with
  | nil =>
    have hnone : ∀ p : List Event → Prop, ∀ trace ∈ ([] : List (List Event)), p trace :=
      fun p trace htrace => absurd htrace List.not_mem_nil
    exact ⟨iff_of_true (hnone _) (hnone _), fun _ => ⟨Nat.zero_le _, Nat.zero_le _⟩⟩
  | append_singleton calls call ih =>
    obtain ⟨hiff, hfit⟩ := ih
    rw [run, List.foldl_append, List.foldl_cons, List.foldl_nil, ← run]
    generalize run target d calls = s at hiff hfit ⊢
    cases call with
    | read env script =>
      have hlast : ∀ p : List Event → Prop,
          (∀ trace ∈ s.visits ++ [(readHandler env target script s.dest).trace], p trace) ↔
            (∀ trace ∈ s.visits, p trace) ∧ p (readHandler env target script s.dest).trace := by
        intro p
        rw [List.forall_mem_append, List.forall_mem_singleton]
      change ((∀ trace ∈ s.visits ++ [_], _) ↔ ∀ trace ∈ s.visits ++ [_], _) ∧
        ((∀ trace ∈ s.visits ++ [_], _) → _)
      rw [hlast, hlast]
      by_cases hbefore : ∀ trace ∈ s.visits, Survives trace
      · have hvisit := readHandler_survives_iff env target script (hfit hbefore)
        exact ⟨and_congr hiff hvisit.1, fun hall => hvisit.2 hall.2⟩
      · exact ⟨iff_of_false (fun hall => hbefore hall.1) fun hall => hbefore (hiff.mpr hall.1),
          fun hall => absurd hall.1 hbefore⟩
    | serve d' => exact ⟨hiff, fun hall => ⟨(hfit hall).used, (hfit hall).room⟩⟩
    | release now => exact ⟨hiff, fun _ => ⟨Nat.zero_le _, Nat.zero_le _⟩⟩

/-- In every run, the visits of the read handler keep to the buffer and stop at every release
exactly when no message that a remote server completes makes the destination release itself. -/
theorem replies_survived_iff (target : Target) (d : Dest) (calls : List Call) :
    (∀ trace ∈ (run target d calls).visits, Survives trace) ↔
      ∀ trace ∈ (run target d calls).visits, ∀ d m type payload,
        .message d m type payload ∈ trace → ¬Rejects m target d type payload := by
  rw [(run_fit target d calls).1]
  refine forall_congr' fun trace => forall_congr' fun _ => ?_
  constructor
  · intro hquiet d m type payload hmem hrejects
    exact hquiet ⟨d, m, type, payload, hmem, hrejects⟩
  · rintro hall ⟨d, m, type, payload, hmem, hrejects⟩
    exact hall d m type payload hmem hrejects

/-- A worker with memory for everything, on a socket that takes everything. -/
def plain : Moment := ⟨fun _ => true, true, fun _ => some .ample, some 65536, 0⟩

def plainTarget : Target := ⟨ascii "live", ascii "camera", ascii "relay", 1935⟩

def connected : Dest where
  used := true
  prepared := true
  state := .handshake
  phase := .connect
  connection := true
  handshake := .init
  replySent := false
  reader := .init
  pending := []
  pendingLen := 0
  streamId := 0
  out := .init
  writeBlocked := false
  cursor := 0
  announced := false
  metadataSent := false
  batch := none
  lastSample := 0
  retryAt := 0
  transportErrors := 0
  backpressureEvents := 0
  sent := []

def commandChunk (body : List UInt8) : List UInt8 :=
  low csidCommand :: [0, 0, 0] ++ RtmpAmf.put16 0 ++ [low body.length, low msgCommandAmf0] ++
    [0, 0, 0, 0] ++ body

def amfText (s : String) : List UInt8 :=
  low typeString :: RtmpAmf.put16 (ascii s).length ++ ascii s

def amfZero : List UInt8 := low typeNumber :: RtmpAmf.put64 0

def resultChunk : List UInt8 := commandChunk (amfText "_result" ++ amfZero)

def rejectionChunk : List UInt8 :=
  commandChunk (amfText "onStatus" ++ amfZero ++ [low typeNull, low typeObject] ++
    RtmpAmf.put16 4 ++ ascii "code" ++ amfText "NetStream.Publish.BadName" ++
    [0, 0, low RtmpAmf.objectEnd])

def rejection : List Recv :=
  [.data (low rtmpVersion :: List.replicate (2 * handshakeSize) 0), .data resultChunk,
    .data resultChunk, .data rejectionChunk]

/-- The server's last answer is moved out of a buffer that the release has emptied. -/
theorem rejection_moves_released :
    ¬∀ trace ∈ (run plainTarget connected
      [.serve connected, .read (fun _ => plain) rejection]).visits, Survives trace := by
  intro hall
  have hlast := hall _ (List.mem_append_right [] (List.mem_singleton_self _))
  exact absurd hlast.within (by decide +kernel)

end RtmpSurvival
