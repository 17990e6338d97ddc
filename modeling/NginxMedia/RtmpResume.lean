import NginxMedia.CursorLog
import NginxMedia.RtmpProgress

/-! Where the receivers of a fan-out begin to read and whether they can decode what follows. A
receiver reads from its cursor or from the oldest unit that is retained, whatever the unit is:
neither the timer nor the pump looks for a keyframe, and only the pump announces the sequence
headers, once for a connection. -/
namespace RtmpResume

open MediaTypes RtmpFanout RtmpOutput RtmpDestination RtmpProgress CursorLog
open RtmpPrepare (Prepare)
open RtmpPlayer (Player Visit playLoop playTimer playLoop_succ)
open RtmpCursor (Stamped)

structure Decodable (sent : List Media) : Prop where
  headers : ∀ before u after, sent = before ++ u :: after → u.config = false →
    ∃ v ∈ before, v.config = true ∧ v.type = u.type
  keyframes : ∀ before u after, sent = before ++ u :: after → u.config = false →
    u.type = msgVideo → u.keyframe = false →
    ∃ v ∈ before, v.config = false ∧ v.type = msgVideo ∧ v.sequence < u.sequence ∧
      ∀ s, v.sequence ≤ s → s < u.sequence → ∃ w ∈ before, w.sequence = s

structure Opens (log : List Media) (start : Start Media) : Prop where
  headers : ∀ n < log.length, ∀ u ∈ log[start.position + n]?, u.config = false →
    ∃ v ∈ start.before ++ stretch log start.position n, v.config = true ∧ v.type = u.type
  keyframe : ∀ n < log.length, ∀ u ∈ log[start.position + n]?, u.config = false →
    u.type = msgVideo → u.keyframe = false →
    ∃ v ∈ stretch log start.position n, v.config = false ∧ v.type = msgVideo

instance (log : List Media) (start : Start Media) : Decidable (Opens log start) :=
  decidable_of_iff (_ ∧ _) ⟨fun h => ⟨h.1, h.2⟩, fun h => ⟨h.headers, h.keyframe⟩⟩

structure Watched (ρ : Type) where
  prep : Prepare
  pushed : List Push
  receiver : ρ
  starts : List (Start Media)

def Follows (sent : List Media) (position : ℕ) : Prop :=
  ∃ u ∈ sent.getLast?, u.sequence + 1 = position

instance (sent : List Media) (position : ℕ) : Decidable (Follows sent position) :=
  inferInstanceAs (Decidable (∃ u ∈ sent.getLast?, _))

def noteStart (position : ℕ) (before after : List Media) (starts : List (Start Media)) :
    List (Start Media) :=
  if before.length < after.length ∧ ¬Follows before position then
    starts ++ [⟨position, before⟩]
  else starts

def Watched.push {ρ : Type} (w : Watched ρ) (q : Push) : Watched ρ :=
  { w with
    prep := { w.prep with fan := RtmpFanout.push w.prep.fan q }
    pushed := w.pushed ++ [q] }

/-- What happens to a player and its fan-out: `serve` is any other handler of the session, which
may change the output queue. -/
inductive PlayerCall where
  | push (q : Push)
  | play
  | visit (v : Visit)
  | serve (out : Output)
  | close

def playerStep (w : Watched Player) : PlayerCall → Watched Player
  | .push q => w.push q
  | .play => { w with receiver := { w.receiver with playing := true } }
  | .visit v =>
    let p := playTimer v w.prep.fan w.receiver
    { w with
      receiver := p
      starts := noteStart (max w.receiver.cursor w.prep.fan.tail) w.receiver.sent p.sent w.starts }
  | .serve out => { w with receiver := { w.receiver with out := out } }
  | .close => { w with receiver := Player.closed }

def runPlayer (units maxBytes : ℕ) (calls : List PlayerCall) : Watched Player :=
  calls.foldl playerStep ⟨RtmpPrepare.init units maxBytes, [], Player.closed, []⟩

instance (prep : Prepare) (d : Dest) : Decidable (Jumps prep d) :=
  inferInstanceAs (Decidable (_ ∧ _))

def pumpAdds (env : Pump) (prep : Prepare) (d : Dest) : List Push :=
  if d.prepared = true ∧ d.state = .publishing ∧ Jumps prep d then
    (env.tracks.map (headersOf env.headerMem prep)).getD []
  else []

def pumpStart (env : Pump) (prep : Prepare) (d : Dest) : ℕ :=
  match introduce env prep d with
  | none => d.cursor
  | some (prep, d) => max d.cursor prep.fan.tail

/-- What happens to a destination and its fan-out: `publish` is the server's answer that starts
it, again if it comes again, and `serve` is any other handler, which leaves the place in the
fan-out and the units sent as they are. -/
inductive DestCall where
  | push (q : Push)
  | publish
  | pump (env : Pump) (unitBudget byteBudget : ℕ)
  | serve (d : Dest)
  | release (now : ℕ)

def destStep (w : Watched Dest) : DestCall → Watched Dest
  | .push q => w.push q
  | .publish => { w with receiver := { w.receiver with state := .publishing, cursor := 0 } }
  | .pump env unitBudget byteBudget =>
    let r := pump env unitBudget byteBudget w.prep w.receiver
    { prep := r.prep
      pushed := w.pushed ++ pumpAdds env w.prep w.receiver
      receiver := r.dest
      starts := noteStart (pumpStart env w.prep w.receiver) w.receiver.sent r.dest.sent w.starts }
  | .serve d =>
    { w with
      receiver :=
        { d with
          cursor := w.receiver.cursor
          announced := w.receiver.announced
          metadataSent := w.receiver.metadataSent
          sent := w.receiver.sent } }
  | .release now => { w with receiver := w.receiver.release now }

def runDest (units maxBytes : ℕ) (d : Dest) (calls : List DestCall) : Watched Dest :=
  calls.foldl destStep ⟨RtmpPrepare.init units maxBytes, [], d.release 0, []⟩

variable {fan : Fanout} {ps : List Push} {log sent sent' : List Media} {u : Media}
  {s cursor cursor' : ℕ} {starts : List (Start Media)}

theorem numbered_getElem? (ps : List Push) (s : ℕ) :
    (numbered ps)[s]? = ps[s]?.map (·.unit s) :=
  List.getElem?_mapIdx

theorem numbered_sequence (h : (numbered ps)[s]? = some u) : u.sequence = s := by
  rw [numbered_getElem?, Option.map_eq_some_iff] at h
  obtain ⟨p, -, rfl⟩ := h
  rfl

theorem numbered_append_more (ps more : List Push) :
    ∃ tail, numbered (ps ++ more) = numbered ps ++ tail :=
  ⟨_, List.mapIdx_append⟩

theorem next_numbered (h : Stamped fan ps) (hnext : next fan cursor = some u) :
    u.sequence = max cursor fan.tail ∧ (numbered ps)[max cursor fan.tail]? = some u := by
  obtain ⟨hsequence, -, p, hp, hunit⟩ := h.next hnext
  refine ⟨hsequence, ?_⟩
  rw [← hsequence, numbered_getElem?, hp, Option.map_some, ← hunit]

inductive Reads (log : List Media) (s cursor : ℕ) (sent : List Media) : ℕ → List Media → Prop
  | nothing : Reads log s cursor sent cursor sent
  | units (n : ℕ) (h : s + (n + 1) ≤ log.length) :
      Reads log s cursor sent (s + (n + 1)) (sent ++ stretch log s (n + 1))

theorem Reads.cons (hu : log[s]? = some u)
    (h : Reads log (s + 1) (s + 1) (sent ++ [u]) cursor' sent') :
    Reads log s cursor sent cursor' sent' := by
  have hone : stretch log s 1 = [u] := stretch_succ hu 0
  have hlt := (List.getElem?_eq_some_iff.mp hu).1
  cases h with
  | nothing =>
    rw [← hone]
    exact .units 0 hlt
  | units n hn =>
    rw [List.append_assoc, List.singleton_append, ← stretch_succ hu (n + 1),
      show s + 1 + (n + 1) = s + (n + 1 + 1) by omega]
    exact .units (n + 1) (by omega)

theorem playLoop_reads (h : Stamped fan ps) (mem : ℕ → Memory) (n : ℕ) (p : Player) :
    Reads (numbered ps) (max p.cursor fan.tail) p.cursor p.sent
      (playLoop mem fan n p).cursor (playLoop mem fan n p).sent := by
  induction n generalizing p with
  | zero => exact .nothing
  | succ n ih =>
    rcases playLoop_succ mem fan n p with hend | ⟨unit, out, wire, hnext, -, heq⟩
    · rw [hend]
      exact .nothing
    · obtain ⟨hsequence, hunit⟩ := next_numbered h hnext
      have hrest := ih (p.advance out unit)
      change Reads _ (max (unit.sequence + 1) fan.tail) (unit.sequence + 1) (p.sent ++ [unit])
        _ _ at hrest
      rw [hsequence, Nat.max_eq_left (by omega)] at hrest
      rw [heq]
      exact hrest.cons hunit

theorem pumpLoop_reads (h : Stamped fan ps) (mem : ℕ → Memory) (budget n : ℕ) (p : Pumping) :
    Reads (numbered ps) (max p.dest.cursor fan.tail) p.dest.cursor p.dest.sent
      (pumpLoop mem fan budget n p).dest.cursor (pumpLoop mem fan budget n p).dest.sent := by
  induction n generalizing p with
  | zero => exact .nothing
  | succ n ih =>
    rcases pumpLoop_succ mem fan budget n p with
      ⟨hend, -⟩ | ⟨unit, out, wire, hnext, -, heq⟩
    · rw [hend]
      exact .nothing
    · obtain ⟨hsequence, hunit⟩ := next_numbered h hnext
      have hrest := ih (p.advance out unit wire)
      change Reads _ (max (unit.sequence + 1) fan.tail) (unit.sequence + 1)
        (p.dest.sent ++ [unit]) _ _ at hrest
      rw [hsequence, Nat.max_eq_left (by omega)] at hrest
      rw [heq]
      exact hrest.cons hunit

structure Inv (fan : Fanout) (ps : List Push) (starts : List (Start Media)) (sent : List Media) :
    Prop where
  stamped : Stamped fan ps
  placed : Placed (numbered ps) starts sent
  going : ∀ position, Follows sent position → Continues (numbered ps) starts sent position

theorem follows_nil (position : ℕ) : ¬Follows [] position := by
  rintro ⟨u, hu, -⟩
  exact nomatch hu

theorem Inv.restart (h : Inv fan ps starts sent) : Inv fan ps starts [] where
  stamped := h.stamped
  placed := placed_nil _ _
  going := fun position hfollows => absurd hfollows (follows_nil position)

theorem Inv.grow (h : Inv fan ps starts sent) {fan' : Fanout} {more : List Push}
    (hstamped : Stamped fan' (ps ++ more)) : Inv fan' (ps ++ more) starts sent := by
  obtain ⟨tail, htail⟩ := numbered_append_more ps more
  refine ⟨hstamped, ?_, ?_⟩
  · rw [htail]
    exact h.placed.grow tail
  · intro position hfollows
    rw [htail]
    exact (h.going position hfollows).grow tail

theorem follows_stretch {n position : ℕ} (h : s + (n + 1) ≤ (numbered ps).length)
    (hfollows : Follows (sent ++ stretch (numbered ps) s (n + 1)) position) :
    position = s + (n + 1) := by
  obtain ⟨v, hlast⟩ : ∃ v, (numbered ps)[s + n]? = some v :=
    ⟨_, List.getElem?_eq_getElem (by omega)⟩
  obtain ⟨u, hu, rfl⟩ := hfollows
  rw [← stretch_append (numbered ps) s n 1, stretch_succ hlast 0, stretch_zero,
    ← List.append_assoc, List.getLast?_concat, Option.mem_some_iff] at hu
  rw [← hu, numbered_sequence hlast, Nat.add_assoc]

theorem Inv.read (h : Inv fan ps starts sent)
    (hreads : Reads (numbered ps) s cursor sent cursor' sent') :
    Inv fan ps (noteStart s sent sent' starts) sent' := by
  cases hreads with
  | nothing =>
    rw [noteStart, if_neg (by omega)]
    exact h
  | units n hn =>
    have hlonger : sent.length < (sent ++ stretch (numbered ps) s (n + 1)).length := by
      rw [List.length_append, stretch_length hn]
      omega
    -- the stretch is read behind the last unit, or from a start of its own
    have hgoing : Placed (numbered ps)
          (noteStart s sent (sent ++ stretch (numbered ps) s (n + 1)) starts) sent ∧
        Continues (numbered ps)
          (noteStart s sent (sent ++ stretch (numbered ps) s (n + 1)) starts) sent s := by
      unfold noteStart
      by_cases hfollows : Follows sent s
      · rw [if_neg (fun hnote => hnote.2 hfollows)]
        exact ⟨h.placed, h.going s hfollows⟩
      · rw [if_pos ⟨hlonger, hfollows⟩]
        exact ⟨h.placed.mono _, continues_start _ _ _ (by omega)⟩
    refine ⟨h.stamped, hgoing.1.resume hgoing.2 hn, ?_⟩
    intro position hposition
    rw [follows_stretch hn hposition]
    exact hgoing.2.read hn

theorem noteStart_nil (position : ℕ) (sent : List Media) (starts : List (Start Media)) :
    noteStart position sent [] starts = starts :=
  if_neg fun h => absurd h.1 (Nat.not_lt_zero _)

theorem playTimer_sent (v : Visit) (fan : Fanout) (p : Player) :
    (playTimer v fan p).sent = [] ∨
      ∃ n, (playTimer v fan p).sent = (playLoop v.mem fan n p).sent := by
  unfold playTimer
  split_ifs
  · exact Or.inr ⟨0, rfl⟩
  · exact Or.inl rfl
  · unfold RtmpPlayer.flush
    split_ifs
    · exact Or.inr ⟨_, rfl⟩
    · cases v.socket with
      | none => exact Or.inl rfl
      | some n => exact Or.inr ⟨_, rfl⟩

theorem Inv.visit {p : Player} (h : Inv fan ps starts p.sent) (v : Visit) :
    Inv fan ps (noteStart (max p.cursor fan.tail) p.sent (playTimer v fan p).sent starts)
      (playTimer v fan p).sent := by
  rcases playTimer_sent v fan p with hclosed | ⟨n, hsent⟩
  · rw [hclosed, noteStart_nil]
    exact h.restart
  · rw [hsent]
    exact h.read (playLoop_reads h.stamped v.mem n p)

variable {env : Pump} {prep prep' : Prepare} {d d' : Dest}

theorem flush_sent (now : ℕ) (socket : Option ℕ) (d : Dest) :
    (d.flush now socket).sent = [] ∨ (d.flush now socket).sent = d.sent := by
  unfold Dest.flush
  split_ifs
  · exact Or.inr rfl
  · cases socket with
    | none => exact Or.inl rfl
    | some n => exact Or.inr rfl

theorem pumpEnd_sent (env : Pump) (prep : Prepare) (queued : ℕ) (p : Pumping) :
    (pumpEnd env prep queued p).dest.sent = [] ∨
      (pumpEnd env prep queued p).dest.sent = p.dest.sent := by
  unfold pumpEnd
  dsimp only
  generalize hd : (if (p.blocked = true ∨ p.dest.out.outQueue ≥ destLimits.maxQueue) ∧
    (next prep.fan p.dest.cursor).isSome = true then
      { p.dest with backpressureEvents := p.dest.backpressureEvents + 1 } else p.dest) = d
  have hcounted : d.sent = p.dest.sent := by
    rw [← hd]
    split_ifs <;> rfl
  generalize hflushed : (if p.units > 0 ∨ d.out.outBytes > queued then
    d.flush env.now env.socket else d) = flushed
  have hsame : flushed.sent = [] ∨ flushed.sent = p.dest.sent := by
    rw [← hflushed, ← hcounted]
    split_ifs
    · exact flush_sent _ _ _
    · exact Or.inr rfl
  split_ifs
  · exact hsame
  · exact hsame
  · exact hsame

theorem pumpEnd_prep (env : Pump) (prep : Prepare) (queued : ℕ) (p : Pumping) :
    (pumpEnd env prep queued p).prep = prep := by
  simp only [pumpEnd, apply_ite Pumped.prep, ite_self]

theorem sendMetadata_sent (env : Pump) (tracks : List Track) (d : Dest) :
    (sendMetadata env tracks d).sent = d.sent := by
  unfold sendMetadata
  split_ifs
  · rfl
  · cases env.metadata with
    | none => rfl
    | some bytes => rfl

theorem sampleResources_sent (env : Pump) (d : Dest) : (sampleResources env d).sent = d.sent := by
  unfold sampleResources
  split_ifs <;> rfl

theorem announceOnce_stamped (h : Stamped prep.fan ps) (env : Pump) (tracks : List Track)
    (hsent : d.metadataSent = false) :
    (announceOnce env tracks prep d).2.sent = d.sent ∧
      Stamped (announceOnce env tracks prep d).1.fan
        (ps ++ if Jumps prep d then headersOf env.headerMem prep tracks else []) := by
  by_cases hjumps : Jumps prep d
  · rw [if_pos hjumps]
    obtain ⟨-, hannounced, hcursor, htail⟩ := hjumps
    have hstamped := announce_stamped h env.headerMem tracks
    unfold announceOnce
    rw [if_neg (by simp [hannounced])]
    dsimp only
    rw [if_pos ⟨hcursor, htail⟩]
    generalize announce env.headerMem prep tracks = r at hstamped ⊢
    obtain ⟨next, rc⟩ := r
    cases rc
    · exact ⟨rfl, hstamped⟩
    · exact ⟨rfl, hstamped⟩
    · exact ⟨rfl, hstamped⟩
    · exact ⟨rfl, hstamped⟩
  · rw [if_neg hjumps, List.append_nil, announceOnce_stay hsent hjumps]
    exact ⟨rfl, h⟩

theorem introduce_stamped (env : Pump) (h : Stamped prep.fan ps) (hprepared : d.prepared = true)
    (hstate : d.state = .publishing) :
    (introduce env prep d = none ∧ pumpAdds env prep d = []) ∨
      ∃ prep' d', introduce env prep d = some (prep', d') ∧ d'.sent = d.sent ∧
        Stamped prep'.fan (ps ++ pumpAdds env prep d) := by
  unfold introduce pumpAdds
  simp only [hprepared, hstate, true_and]
  by_cases hsent : d.metadataSent = true
  · right
    have hstay : ¬Jumps prep d := fun hj => absurd (hj.1.symm.trans hsent) (by decide)
    rw [if_pos hsent, if_neg hstay, List.append_nil]
    exact ⟨prep, d, rfl, rfl, h⟩
  · rw [Bool.not_eq_true] at hsent
    rw [if_neg (by simp [hsent])]
    cases env.tracks with
    | none => exact Or.inl ⟨rfl, by split_ifs <;> rfl⟩
    | some tracks =>
      right
      obtain ⟨hsame, hstamped⟩ := announceOnce_stamped h env tracks hsent
      exact ⟨_, _, rfl, (sendMetadata_sent env tracks _).trans hsame, hstamped⟩

theorem Inv.pump (h : Inv prep.fan ps starts d.sent) (env : Pump) (unitBudget byteBudget : ℕ) :
    Inv (pump env unitBudget byteBudget prep d).prep.fan (ps ++ pumpAdds env prep d)
      (noteStart (pumpStart env prep d) d.sent
        (RtmpDestination.pump env unitBudget byteBudget prep d).dest.sent starts)
      (RtmpDestination.pump env unitBudget byteBudget prep d).dest.sent := by
  by_cases hready : d.prepared = false ∨ d.state ≠ .publishing
  · have hadds : pumpAdds env prep d = [] := by
      unfold pumpAdds
      rw [if_neg]
      rintro ⟨hprepared, hstate, -⟩
      rcases hready with hno | hno
      · exact absurd (hprepared.symm.trans hno) (by decide)
      · exact hno hstate
    unfold RtmpDestination.pump
    rw [if_pos hready, hadds, List.append_nil]
    exact h.read (@Reads.nothing _ (pumpStart env prep d) d.cursor _)
  · rw [not_or, Bool.not_eq_false, not_not] at hready
    unfold RtmpDestination.pump
    rw [if_neg (by simp [hready])]
    rcases introduce_stamped env h.stamped hready.1 hready.2 with
      ⟨hnone, hadds⟩ | ⟨prep', d', hsome, hsent, hstamped⟩
    · rw [hnone, hadds, List.append_nil]
      exact h.read (@Reads.nothing _ (pumpStart env prep d) d.cursor _)
    · have hstart : pumpStart env prep d = max d'.cursor prep'.fan.tail := by
        unfold pumpStart
        rw [hsome]
      rw [hsome, hstart]
      dsimp only
      have hgrown := h.grow hstamped
      generalize hp : pumpLoop env.mem prep'.fan byteBudget _ _ = p
      have hreads := pumpLoop_reads hstamped env.mem byteBudget
        (min ((sampleResources env d').batch.elim 0 Batch.units) unitBudget)
        ⟨sampleResources env d', 0, 0, false, false, false⟩
      rw [hp] at hreads
      change Reads _ (max (sampleResources env d').cursor _) (sampleResources env d').cursor
        (sampleResources env d').sent _ _ at hreads
      rw [(sampleResources_same env d').2, sampleResources_sent, hsent] at hreads
      split_ifs
      · change Inv _ _ (noteStart _ _ [] _) []
        rw [noteStart_nil]
        exact hgrown.restart
      · rw [pumpEnd_prep]
        rcases pumpEnd_sent env prep' d.out.outBytes p with hreleased | hkept
        · rw [hreleased, noteStart_nil]
          exact hgrown.restart
        · rw [hkept]
          exact hgrown.read hreads

theorem Inv.playerStep {w : Watched Player} (h : Inv w.prep.fan w.pushed w.starts w.receiver.sent)
    (call : PlayerCall) :
    Inv (playerStep w call).prep.fan (playerStep w call).pushed (playerStep w call).starts
      (playerStep w call).receiver.sent := by
  cases call with
  | push q => exact h.grow (h.stamped.push q)
  | play => exact h
  | visit v => exact h.visit v
  | serve out => exact h
  | close => exact h.restart

theorem Inv.destStep {w : Watched Dest} (h : Inv w.prep.fan w.pushed w.starts w.receiver.sent)
    (call : DestCall) :
    Inv (destStep w call).prep.fan (destStep w call).pushed (destStep w call).starts
      (destStep w call).receiver.sent := by
  cases call with
  | push q => exact h.grow (h.stamped.push q)
  | publish => exact h
  | pump env unitBudget byteBudget => exact h.pump env unitBudget byteBudget
  | serve d => exact h
  | release now => exact h.restart

theorem init_inv (units maxBytes : ℕ) : Inv (RtmpFanout.init units maxBytes) [] [] [] where
  stamped := RtmpCursor.init_stamped units maxBytes
  placed := placed_nil _ _
  going := fun position hfollows => absurd hfollows (follows_nil position)

theorem runPlayer_inv (units maxBytes : ℕ) (calls : List PlayerCall) :
    Inv (runPlayer units maxBytes calls).prep.fan (runPlayer units maxBytes calls).pushed
      (runPlayer units maxBytes calls).starts (runPlayer units maxBytes calls).receiver.sent := by
  induction calls using List.reverseRecOn with
  | nil => exact init_inv units maxBytes
  | append_singleton calls call ih =>
    rw [runPlayer, List.foldl_append]
    exact ih.playerStep call

theorem runDest_inv (units maxBytes : ℕ) (d : Dest) (calls : List DestCall) :
    Inv (runDest units maxBytes d calls).prep.fan (runDest units maxBytes d calls).pushed
      (runDest units maxBytes d calls).starts (runDest units maxBytes d calls).receiver.sent := by
  induction calls using List.reverseRecOn with
  | nil => exact init_inv units maxBytes
  | append_singleton calls call ih =>
    rw [runDest, List.foldl_append]
    exact ih.destStep call

theorem stretch_between {n : ℕ} {v : Media} (hu : (numbered ps)[s + n]? = some u)
    (hv : v ∈ stretch (numbered ps) s n) :
    v.sequence < u.sequence ∧ ∀ r, v.sequence ≤ r → r < u.sequence →
      ∃ w ∈ stretch (numbered ps) s n, w.sequence = r := by
  obtain ⟨k, hk, hat⟩ := mem_stretch.mp hv
  have hlt := (List.getElem?_eq_some_iff.mp hu).1
  rw [numbered_sequence hu, numbered_sequence hat]
  refine ⟨by omega, fun r hlow hhigh => ?_⟩
  obtain ⟨w, hw⟩ : ∃ w, (numbered ps)[r]? = some w := ⟨_, List.getElem?_eq_getElem (by omega)⟩
  refine ⟨w, mem_stretch.mpr ⟨r - s, by omega, ?_⟩, numbered_sequence hw⟩
  rw [← hw, Nat.add_sub_cancel' (by omega)]

theorem Inv.decodable (h : Inv fan ps starts sent)
    (hopens : ∀ start ∈ starts, Opens (numbered ps) start) : Decodable sent := by
  constructor
  · intro before u after heq hcoded
    obtain ⟨start, hstart, n, hbefore, hat⟩ := h.placed.each before u after heq
    have hlt := (List.getElem?_eq_some_iff.mp hat).1
    rw [hbefore]
    exact (hopens start hstart).headers n (by omega) u hat hcoded
  · intro before u after heq hcoded hvideo hinter
    obtain ⟨start, hstart, n, hbefore, hat⟩ := h.placed.each before u after heq
    have hlt := (List.getElem?_eq_some_iff.mp hat).1
    obtain ⟨v, hv, hvcoded, hvvideo⟩ :=
      (hopens start hstart).keyframe n (by omega) u hat hcoded hvideo hinter
    obtain ⟨hless, hbetween⟩ := stretch_between hat hv
    rw [hbefore]
    refine ⟨v, List.mem_append_right _ hv, hvcoded, hvvideo, hless, fun s hlow hhigh => ?_⟩
    obtain ⟨w, hw, hsequence⟩ := hbetween s hlow hhigh
    exact ⟨w, List.mem_append_right _ hw, hsequence⟩

/-- In every run of a fan-out with one of its receivers, the receiver can decode what it has been
sent if the units pushed from each position it began to read at open as a stream does. -/
theorem receivers_decodable (units maxBytes : ℕ) :
    (∀ calls : List PlayerCall,
      (∀ start ∈ (runPlayer units maxBytes calls).starts,
        Opens (numbered (runPlayer units maxBytes calls).pushed) start) →
      Decodable (runPlayer units maxBytes calls).receiver.sent) ∧
    ∀ (d : Dest) (calls : List DestCall),
      (∀ start ∈ (runDest units maxBytes d calls).starts,
        Opens (numbered (runDest units maxBytes d calls).pushed) start) →
      Decodable (runDest units maxBytes d calls).receiver.sent :=
  ⟨fun calls hopens => (runPlayer_inv units maxBytes calls).decodable hopens,
    fun d calls hopens => (runDest_inv units maxBytes d calls).decodable hopens⟩

def header : Push := ⟨msgVideo, 1, 0, [0x17, 0, 0, 0, 0, 1], true, true⟩
def keyframe : Push := ⟨msgVideo, 0, 0, [0x17, 1, 0, 0, 0, 5], true, false⟩
def inter : Push := ⟨msgVideo, 0, 40, [0x27, 1, 0, 0, 0, 1], false, false⟩

/-- A player that joins a programme with a ring of its own. -/
theorem receivers_decodable_from_start :
    (runPlayer 2048 (32 * 1024 * 1024)
      [.push header, .push keyframe, .play, .visit plainVisit, .push inter,
        .visit plainVisit]).receiver.sent.length = 3 ∧
    Decodable (runPlayer 2048 (32 * 1024 * 1024)
      [.push header, .push keyframe, .play, .visit plainVisit, .push inter,
        .visit plainVisit]).receiver.sent :=
  ⟨by decide +kernel, (receivers_decodable 2048 (32 * 1024 * 1024)).1
    [.push header, .push keyframe, .play, .visit plainVisit, .push inter, .visit plainVisit]
    (by decide +kernel)⟩

theorem first_sent (h : Stamped fan ps) {p : Player} (hplaying : p.playing = true)
    (hout : p.out = Output.init) (hnew : p.sent = []) (hnext : next fan p.cursor = some u)
    (hsize : u.size ≤ 32 * outChunk) : ∃ rest, (playTimer plainVisit fan p).sent = u :: rest := by
  obtain ⟨hqueue, hslim⟩ := (init_sound playerLimits).slim_empty rfl
  have hadmitted := unit_admitted h (init_sound playerLimits) hslim (by decide) (by decide) 1
    (show 4 < RtmpWriter.maxOutCsid by decide) hnext none (by simp)
  rw [hqueue, Nat.zero_add, show playerLimits.maxQueue = 32 * 2 from rfl,
    if_pos ((partsOf_le_iff (by decide)).mpr hsize)] at hadmitted
  obtain ⟨out, wire, hqueued⟩ := hadmitted
  have hloop : (playTimer plainVisit fan p).sent =
      (playLoop (fun _ => .ample) fan 31 (p.advance out u)).sent := by
    have hround : playLoop (fun _ => .ample) fan 32 p =
        playLoop (fun _ => .ample) fan 31 (p.advance out u) := by
      rw [playLoop, if_pos (by rw [hout]; decide), hnext]
      dsimp only
      rw [hout, hqueued]
    rw [← hround]
    simp only [playTimer, hplaying, plainVisit, Bool.true_eq_false, if_false]
    unfold RtmpPlayer.flush
    split
    · rfl
    · rfl
  rw [hloop]
  have hreads := playLoop_reads h (fun _ => .ample) 31 (p.advance out u)
  change Reads _ _ _ (p.sent ++ [u]) _ _ at hreads
  rw [hnew, List.nil_append] at hreads
  generalize (playLoop (fun _ => Memory.ample) fan 31 (p.advance out u)).sent = sent at hreads ⊢
  generalize (playLoop (fun _ => Memory.ample) fan 31 (p.advance out u)).cursor = cursor at hreads
  cases hreads with
  | nothing => exact ⟨[], rfl⟩
  | units n hn => exact ⟨_, rfl⟩

theorem runPlayer_pushes (w : Watched Player) (qs : List Push) :
    (qs.map PlayerCall.push).foldl playerStep w =
      { w with
        prep := { w.prep with fan := RtmpFanout.run w.prep.fan (qs.map Call.push) }
        pushed := w.pushed ++ qs } := by
  induction qs generalizing w with
  | nil => rw [List.append_nil]; rfl
  | cons q qs ih =>
    rw [List.map_cons, List.foldl_cons, ih]
    change ({ w with
      prep := { w.prep with fan := RtmpFanout.run _ _ }
      pushed := w.pushed ++ [q] ++ qs } : Watched Player) = _
    rw [List.append_assoc]
    rfl

theorem runPlayer_late (units maxBytes : ℕ) (qs : List Push) (q : Push) (v : Visit) :
    (runPlayer units maxBytes
      (qs.map PlayerCall.push ++ [.push q, .play, .visit v])).receiver.sent =
      (playTimer v (RtmpFanout.push
        (RtmpFanout.run (RtmpFanout.init units maxBytes) (qs.map Call.push)) q)
        ⟨true, 0, Output.init, []⟩).sent := by
  rw [runPlayer, List.foldl_append, runPlayer_pushes]
  rfl

theorem numbered_second (a b : Push) (rest : List Push) :
    (numbered (a :: b :: rest))[1]? = some (b.unit 1) :=
  numbered_getElem? _ 1

/-- A group of pictures that fills the ring. -/
def longGroup : List Push := header :: keyframe :: List.replicate 1022 inter

theorem longGroup_length : longGroup.length = 1024 := by
  rw [longGroup, List.length_cons, List.length_cons, List.length_replicate]

theorem longGroup_sum : ((longGroup.drop 0).map (·.payload.length)).sum = 6 * 1024 := by
  rw [List.drop_zero, longGroup, List.map_cons, List.map_cons, List.map_replicate, List.sum_cons,
    List.sum_cons, List.sum_replicate]
  rfl

theorem next_full {fan : Fanout} {ps : List Push} (h : RtmpFanout.Inv fan ps) (p : Push)
    (htail : fan.tail = 0) (hcapacity : 1 < fan.capacity) (hfull : fan.head = fan.capacity)
    {u : Media} (hu : fan.units 1 = u) (hpayload : u.payload ≠ none) :
    next (RtmpFanout.push fan p) 0 = some u := by
  rw [h.push_full p (by omega) (by omega)]
  have hone : 1 % fan.capacity = 1 := Nat.mod_eq_of_lt hcapacity
  have hkept : Function.update (overwrite fan p).units (fan.tail % fan.capacity)
      { p.unit fan.head with payload := none } 1 = u := by
    rw [htail, Nat.zero_mod, Function.update_of_ne Nat.one_ne_zero, overwrite, hfull, Nat.mod_self]
    exact (Function.update_of_ne Nat.one_ne_zero (p.unit fan.capacity) fan.units).trans hu
  have hhead : (overwrite fan p).head = fan.head + 1 := rfl
  have hslots : (overwrite fan p).capacity = fan.capacity := rfl
  have hstart : (if 0 < fan.tail + 1 then fan.tail + 1 else 0) = 1 := by
    rw [if_pos (by omega), htail]
  unfold RtmpFanout.next
  dsimp only
  rw [hstart, hhead, hslots, if_neg (by omega), if_neg (by omega), hone, hkept, if_neg hpayload]

theorem next_longGroup {fan : Fanout} (hinv : RtmpFanout.Inv fan longGroup)
    (hcapacity : fan.capacity = 1024) (hmax : fan.maxBytes = 32 * 1024 * 1024) :
    next (RtmpFanout.push fan inter) 0 = some (keyframe.unit 1) := by
  have hhead := hinv.head_eq
  rw [longGroup_length] at hhead
  have htail : fan.tail = 0 := by
    by_contra hne
    have hneeded := hinv.needed 0 (Nat.pos_of_ne_zero hne)
    rw [retained_numbered, longGroup_sum, hmax] at hneeded
    omega
  have hheld := hinv.ring.held 1 (by rw [numbered_length, longGroup_length]; decide) (by omega)
  have hsecond : (numbered longGroup)[1]? = some (keyframe.unit 1) :=
    numbered_second header keyframe (List.replicate 1022 inter)
  rw [List.getElem?_eq_some_iff] at hsecond
  rw [hcapacity] at hheld
  exact next_full hinv inter htail (by omega) (by omega) (hheld.trans hsecond.2) (by decide)

theorem longGroup_next :
    next (RtmpFanout.push (RtmpFanout.run (RtmpFanout.init 2048 (32 * 1024 * 1024))
      (longGroup.map Call.push)) inter) 0 = some (keyframe.unit 1) := by
  have hpushes : pushes (longGroup.map Call.push) = longGroup := by
    rw [pushes, List.filterMap_map]
    exact List.filterMap_some
  have hinit : (RtmpFanout.init 2048 (32 * 1024 * 1024)).capacity = 1024 := by decide
  have hinv := run_inv 2048 (32 * 1024 * 1024) (longGroup.map Call.push) (by
    intro i hi
    rw [hpushes, longGroup_length, hinit] at hi
    exact absurd hi (Nat.not_lt_of_le (Nat.le_add_left 1024 i)))
  rw [hpushes] at hinv
  exact next_longGroup hinv ((run_capacity _ _).trans hinit) (run_maxBytes _ _)

/-- The sequence header has been evicted when the player joins, and its first unit is the keyframe
without it. -/
theorem late_player_lacks_header :
    ¬Decodable (runPlayer 2048 (32 * 1024 * 1024)
      (longGroup.map PlayerCall.push ++
        [.push inter, .play, .visit plainVisit])).receiver.sent := by
  have hstamped := (RtmpCursor.run_stamped 2048 (32 * 1024 * 1024)
    (longGroup.map Call.push)).push inter
  obtain ⟨rest, hsent⟩ := first_sent hstamped (p := ⟨true, 0, Output.init, []⟩) rfl rfl rfl
    longGroup_next (by decide)
  intro hdecodable
  rw [runPlayer_late, hsent] at hdecodable
  obtain ⟨v, hv, -⟩ := hdecodable.headers [] _ rest rfl rfl
  exact nomatch hv

end RtmpResume
