import NginxMedia.RtmpResume
import NginxMedia.RtmpVisits

/-! What the events of a worker keep. A visit of the scheduler serves a destination to its end, or
puts it back; whatever else may leave one behind is in the notes. -/
namespace RtmpVisits

open MediaTypes RtmpFanout RtmpOutput RtmpPrepare RtmpDestination RtmpWorker
open RtmpReplies (Moment Target Recv)

variable {w w' : Worker} {i j : ℕ} {d d' : Dest} {env : Pump} {prep prep' : Prepare}
  {among : ℕ → Prop} {hole : Option ℕ} {n m : ℕ}

structure Stays (d d' : Dest) : Prop where
  used : d'.used = d.used
  on : (d'.connection = d.connection ∧ d'.prepared = d.prepared ∧ d'.state = d.state) ∨
    (d'.connection = false ∧ d'.metadataSent = false)

theorem fail_stays (now : ℕ) (h : d'.used = d.used) : Stays d (d'.fail now) :=
  ⟨h, Or.inr ⟨rfl, rfl⟩⟩

theorem Stays.proper (h : Stays d d') (hd : Proper d) (hconnection : d.connection = true)
    (hprepared : d.prepared = true) (hstate : d.state = .publishing) : Proper d' := by
  rcases h.on with ⟨hc, hp, hs⟩ | ⟨hc, hm⟩
  · refine ⟨fun _ => ?_, fun _ => hc.trans hconnection, fun _ => hp.trans hprepared, fun _ =>
      hs.trans hstate⟩
    rw [h.used]
    exact hd.used hconnection
  · constructor <;> intro htrue
    · rw [hc] at htrue
      cases htrue
    all_goals
      rw [hm] at htrue
      cases htrue

theorem flush_stays (now : ℕ) (socket : Option ℕ) (h : d'.used = d.used)
    (hon : d'.connection = d.connection ∧ d'.prepared = d.prepared ∧ d'.state = d.state) :
    Stays d (d'.flush now socket) := by
  unfold Dest.flush
  split
  · exact ⟨h, Or.inl hon⟩
  · cases socket with
    | none => exact fail_stays now h
    | some n => exact ⟨h, Or.inl hon⟩

/-- What a pump does not change before its flush. -/
structure Held (d d' : Dest) : Prop where
  used : d'.used = d.used
  connection : d'.connection = d.connection
  prepared : d'.prepared = d.prepared
  state : d'.state = d.state

theorem Held.refl (d : Dest) : Held d d := ⟨rfl, rfl, rfl, rfl⟩

theorem Held.trans {d'' : Dest} (h₁ : Held d d') (h₂ : Held d' d'') : Held d d'' :=
  ⟨h₂.used.trans h₁.used, h₂.connection.trans h₁.connection, h₂.prepared.trans h₁.prepared,
    h₂.state.trans h₁.state⟩

theorem sendMetadata_held (env : Pump) (tracks : List Track) (d : Dest) :
    Held d (sendMetadata env tracks d) := by
  unfold sendMetadata
  split
  · exact .refl d
  split
  · exact .refl d
  · exact ⟨rfl, rfl, rfl, rfl⟩

theorem announceOnce_held (env : Pump) (tracks : List Track) (prep : Prepare) (d : Dest) :
    Held d (announceOnce env tracks prep d).2 := by
  unfold announceOnce
  split
  · exact .refl d
  dsimp only
  split
  · split <;> exact ⟨rfl, rfl, rfl, rfl⟩
  · exact ⟨rfl, rfl, rfl, rfl⟩

theorem introduce_held (h : introduce env prep d = some (prep', d')) : Held d d' := by
  unfold introduce at h
  split at h
  · cases h
    exact .refl d
  split at h
  · cases h
  · rename_i tracks _
    cases h
    have hheld := (announceOnce_held env tracks prep d).trans (sendMetadata_held env tracks _)
    exact ⟨hheld.used, hheld.connection, hheld.prepared, hheld.state⟩

theorem sampleResources_held (env : Pump) (d : Dest) : Held d (sampleResources env d) := by
  unfold sampleResources
  split <;> exact ⟨rfl, rfl, rfl, rfl⟩

theorem pumpLoop_held (mem : ℕ → Memory) (fan : Fanout) (budget n : ℕ) (p : Pumping) :
    Held p.dest (pumpLoop mem fan budget n p).dest := by
  induction n generalizing p with
  | zero => exact .refl _
  | succ n ih =>
    rcases RtmpProgress.pumpLoop_succ mem fan budget n p with
      ⟨hdest, -⟩ | ⟨unit, out, wire, -, -, heq⟩
    · rw [hdest]
      exact .refl _
    · rw [heq]
      have hadvance : Held p.dest (p.advance out unit wire).dest := ⟨rfl, rfl, rfl, rfl⟩
      exact hadvance.trans (ih _)

/-- After the loop: the destination stays or is released, and what it is not told to come back for
it cannot be served, or waits for its time. -/
theorem pumpEnd_left (env : Pump) (prep : Prepare) (queued : ℕ) (p : Pumping)
    (hheld : Held d p.dest) :
    Stays d (pumpEnd env prep queued p).dest ∧
      ((pumpEnd env prep queued p).more = false →
        Servable prep.fan (pumpEnd env prep queued p).dest → d.used = true → d.connection = true →
        (pumpEnd env prep queued p).dest.retryAt ≠ 0) := by
  unfold pumpEnd
  dsimp only
  generalize hcounted : (if (p.blocked = true ∨ p.dest.out.outQueue ≥ destLimits.maxQueue) ∧
    (next prep.fan p.dest.cursor).isSome = true then
      { p.dest with backpressureEvents := p.dest.backpressureEvents + 1 } else p.dest) = counted
  have hkept : Held d counted := by
    rw [← hcounted]
    split
    · exact hheld.trans ⟨rfl, rfl, rfl, rfl⟩
    · exact hheld
  generalize hflushed : (if p.units > 0 ∨ counted.out.outBytes > queued then
    counted.flush env.now env.socket else counted) = flushed
  have hstays : Stays d flushed := by
    rw [← hflushed]
    split
    · exact flush_stays _ _ hkept.used ⟨hkept.connection, hkept.prepared, hkept.state⟩
    · exact ⟨hkept.used, Or.inl ⟨hkept.connection, hkept.prepared, hkept.state⟩⟩
  split
  · rename_i hstops
    refine ⟨hstays, fun _ hservable hused hconnection => ?_⟩
    have hon : flushed.connection = true := by
      rcases hstays.on with ⟨hc, -, -⟩ | ⟨-, hm⟩
      · exact hc.trans hconnection
      · have hmeta := hservable.metadata
        rw [hm] at hmeta
        cases hmeta
    rcases hstops with hstop | hstop | hstop | hstop | hstop
    · rw [hstays.used, hused] at hstop
      cases hstop
    · exact absurd hservable.publishing hstop
    · rw [hon] at hstop
      cases hstop
    · rw [hservable.unblocked] at hstop
      cases hstop
    · exact absurd hservable.empty hstop
  split
  · refine ⟨⟨hstays.used, hstays.on⟩, fun _ _ _ _ => ?_⟩
    change env.now + queueRetry ≠ 0
    unfold queueRetry
    omega
  · refine ⟨hstays, fun hmore hservable _ _ => ?_⟩
    dsimp only at hmore hservable
    rw [hservable.waiting] at hmore
    cases hmore

structure Left (d : Dest) (p : Pumped) : Prop where
  used : p.dest.used = d.used
  proper : Proper p.dest
  settled : p.more = false → Servable p.prep.fan p.dest → p.dest.retryAt ≠ 0

theorem pump_left (env : Pump) (units bytes : ℕ) (prep : Prepare) (hd : Proper d)
    (hused : d.used = true) (hconnection : d.connection = true) :
    Left d (RtmpDestination.pump env units bytes prep d) := by
  unfold RtmpDestination.pump
  split
  · rename_i hunfit
    refine ⟨rfl, hd, fun _ hservable => ?_⟩
    rcases hunfit with hunfit | hunfit
    · rw [hservable.prepared] at hunfit
      cases hunfit
    · exact absurd hservable.publishing hunfit
  rename_i hfit
  rw [not_or, Bool.not_eq_false, not_not] at hfit
  cases hintroduce : introduce env prep d with
  | none =>
    refine ⟨rfl, hd, fun _ hservable => ?_⟩
    unfold introduce at hintroduce
    rw [if_pos hservable.metadata] at hintroduce
    cases hintroduce
  | some introduced =>
    obtain ⟨prep', d'⟩ := introduced
    dsimp only
    have hheld : Held d (pumpLoop env.mem prep'.fan bytes
        (min ((sampleResources env d').batch.elim 0 Batch.units) units)
        ⟨sampleResources env d', 0, 0, false, false, false⟩).dest :=
      ((introduce_held hintroduce).trans (sampleResources_held env d')).trans
        (pumpLoop_held _ _ _ _ ⟨sampleResources env d', 0, 0, false, false, false⟩)
    generalize pumpLoop env.mem prep'.fan bytes
      (min ((sampleResources env d').batch.elim 0 Batch.units) units)
      ⟨sampleResources env d', 0, 0, false, false, false⟩ = p at hheld ⊢
    split
    · have hstays : Stays d (p.dest.fail env.now) := fail_stays env.now hheld.used
      exact ⟨hstays.used, hstays.proper hd hconnection hfit.1 hfit.2, fun _ hservable =>
        absurd hservable.metadata nofun⟩
    · obtain ⟨hstays, hsettled⟩ := pumpEnd_left env prep' d.out.outBytes p hheld
      refine ⟨hstays.used, hstays.proper hd hconnection hfit.1 hfit.2, fun hmore hservable => ?_⟩
      exact hsettled hmore (by rwa [RtmpResume.pumpEnd_prep] at hservable) hused hconnection

theorem headerOf_nil {mem : ℕ → Bool} {track : Track} (h : headerOf mem prep track = []) :
    (prepareSequence mem prep track.mediaType track).prep.fan = prep.fan := by
  rcases (prepareSequence_sequenced mem prep track.mediaType track).fan with hsame | hpush
  · exact hsame
  · unfold headerOf at h
    dsimp only at h
    rw [if_neg (by rw [hpush, RtmpCursor.push_head]; omega)] at h
    cases h

theorem announce_nil {mem : ℕ → Bool} {tracks : List Track} (h : headersOf mem prep tracks = []) :
    (announce mem prep tracks).1.fan = prep.fan := by
  induction tracks generalizing prep with
  | nil => rfl
  | cons track rest ih =>
    rw [announce]
    rw [headersOf] at h
    have hheader : headerOf mem prep track = [] := by
      split at h
      · exact (List.append_eq_nil_iff.mp h).1
      · exact h
    have hsame := headerOf_nil hheader
    generalize prepareSequence mem prep track.mediaType track = r at h hsame ⊢
    obtain ⟨next, record, body, rc⟩ := r
    cases rc with
    | ok => exact (ih (List.append_eq_nil_iff.mp h).2).trans hsame
    | error => exact hsame
    | again => exact hsame
    | declined => exact hsame

theorem announceOnce_fan {tracks : List Track} (hfresh : d.metadataSent = false)
    (htracks : env.tracks = some tracks) (hquiet : ¬Announces env prep d) :
    (announceOnce env tracks prep d).1.fan = prep.fan := by
  unfold announceOnce
  split
  · rfl
  rename_i hannounced
  dsimp only
  split
  · rename_i hbehind
    have hnone : headersOf env.headerMem prep tracks = [] := by
      by_contra hsome
      exact hquiet ⟨⟨hfresh, Bool.eq_false_iff.mpr hannounced, hbehind.1⟩, hbehind.2, tracks,
        htracks, hsome⟩
    have hsame := announce_nil hnone
    generalize announce env.headerMem prep tracks = announced at hsame ⊢
    obtain ⟨next, rc⟩ := announced
    cases rc <;> exact hsame
  · rfl

theorem introduce_fan (h : introduce env prep d = some (prep', d'))
    (hquiet : ¬Announces env prep d) : prep'.fan = prep.fan := by
  unfold introduce at h
  split at h
  · cases h
    rfl
  rename_i hfresh
  split at h
  · cases h
  · rename_i tracks htracks
    dsimp only at h
    rw [Option.some.injEq, Prod.mk.injEq] at h
    rw [← h.1]
    exact announceOnce_fan (Bool.eq_false_iff.mpr hfresh) htracks hquiet

theorem pump_fan (env : Pump) (units bytes : ℕ) (hquiet : ¬Announces env prep d) :
    (RtmpDestination.pump env units bytes prep d).prep.fan = prep.fan := by
  unfold RtmpDestination.pump
  split
  · rfl
  cases hintroduce : introduce env prep d with
  | none => rfl
  | some introduced =>
    have hfan := introduce_fan hintroduce hquiet
    dsimp only
    split
    · exact hfan
    · rw [RtmpResume.pumpEnd_prep]
      exact hfan

structure Frame (w w' : Worker) : Prop where
  used : w'.Used = w.Used
  stream : ∀ j, (w'.slots j).stream = (w.slots j).stream
  destinations : w'.destinations = w.destinations
  initialized : w'.initialized = w.initialized
  exiting : w'.exiting = w.exiting
  running : w'.running = w.running

theorem Frame.refl (w : Worker) : Frame w w := ⟨rfl, fun _ => rfl, rfl, rfl, rfl, rfl⟩

theorem Frame.trans {w'' : Worker} (h₁ : Frame w w') (h₂ : Frame w' w'') : Frame w w'' where
  used := h₂.used.trans h₁.used
  stream j := (h₂.stream j).trans (h₁.stream j)
  destinations := h₂.destinations.trans h₁.destinations
  initialized := h₂.initialized.trans h₁.initialized
  exiting := h₂.exiting.trans h₁.exiting
  running := h₂.running.trans h₁.running

theorem frame_of_onSlot (h : OnSlot i w w') : Frame w w' :=
  ⟨h.used_eq, h.stream_eq, h.destinations, h.initialized, h.exiting, h.running⟩

theorem pumped_dest (i : ℕ) (p : Pumped) (w : Worker) : (pumped i p w).dest i = p.dest :=
  congrArg Slot.dest (slots_modify_self _ i _)

theorem pumped_slot (p : Pumped) (w : Worker) (hj : j ≠ i) :
    (pumped i p w).slots j = w.slots j :=
  slots_modify_of_ne _ _ hj

theorem pumped_stream (i : ℕ) (p : Pumped) (w : Worker) (j : ℕ) :
    ((pumped i p w).slots j).stream = (w.slots j).stream :=
  slots_modify_field Slot.stream _ i _ rfl j

theorem pumped_queued (i : ℕ) (p : Pumped) (w : Worker) (j : ℕ) :
    ((pumped i p w).slots j).queued = (w.slots j).queued :=
  slots_modify_field Slot.queued _ i _ rfl j

theorem pumped_frame {p : Pumped} (hused : p.dest.used = (w.dest i).used) :
    Frame w (pumped i p w) := by
  refine ⟨?_, pumped_stream i p w, rfl, rfl, rfl, rfl⟩
  funext j
  unfold Worker.Used
  by_cases hj : j = i
  · subst j
    rw [pumped_dest, hused]
  · rw [Worker.dest, pumped_slot p w hj, Worker.dest]

theorem pumped_sound {p : Pumped} (hused : p.dest.used = (w.dest i).used) (hproper : Proper p.dest)
    (hs : Sound hole w) : Sound hole (pumped i p w) := by
  have hsame := (pumped_frame hused).used
  refine ⟨?_, hs.posted, ?_, ?_, ?_, ?_⟩
  · obtain ⟨xs, hlist⟩ := hs.list
    exact ⟨xs, hlist.linked, fun j => by rw [pumped_queued, hlist.marked], hlist.counted⟩
  · rw [hsame]
    exact hs.kept
  · rw [hsame]
    exact hs.filled
  · intro j hj
    rw [hsame]
    rw [pumped_queued] at hj
    exact hs.queued j hj
  · intro j
    by_cases hj : j = i
    · subst j
      rw [pumped_dest]
      exact hproper
    · rw [Worker.dest, pumped_slot p w hj]
      exact hs.proper j

theorem pumped_attended {p : Pumped} (hfan : ¬Announces env (w.preps (w.slots i).stream)
      (w.dest i) → p.prep.fan = (w.preps (w.slots i).stream).fan)
    (hsafe : ¬Disturbs w i env) (ha : Attended (fun j => j ≠ i) w) :
    Attended (fun j => j ≠ i) (pumped i p w) := by
  intro j hj hready
  have hslot := pumped_slot p w hj
  have hdest : (pumped i p w).dest j = w.dest j := congrArg Slot.dest hslot
  have hawake : Awake w j → Awake (pumped i p w) j := by
    unfold Awake
    rw [hdest, hslot]
    exact id
  apply hawake
  by_contra hasleep
  unfold Awake at hasleep
  rw [not_or, Bool.not_eq_true, not_not] at hasleep
  unfold Ready at hready
  rw [hdest] at hready
  have hnew : (pumped i p w).fan j = (Function.update w.preps (w.slots i).stream p.prep
      (w.slots j).stream).fan := by
    unfold Worker.fan
    rw [hslot]
    rfl
  rw [hnew] at hready
  by_cases hstream : (w.slots j).stream = (w.slots i).stream
  · rw [hstream, Function.update_self] at hready
    by_cases hannounces : Announces env (w.preps (w.slots i).stream) (w.dest i)
    · exact hsafe ⟨hannounces, j, hj, hstream, hready.publishing, hready.unblocked, hready.empty,
        hready.metadata, hready.prepared, hasleep.1, hasleep.2⟩
    · rw [hfan hannounces, ← hstream] at hready
      exact (ha j hj hready).elim (fun hq => by rw [hasleep.1] at hq; cases hq)
        fun hr => hr hasleep.2
  · rw [Function.update_of_ne hstream] at hready
    exact (ha j hj hready).elim (fun hq => by rw [hasleep.1] at hq; cases hq)
      fun hr => hr hasleep.2

theorem pump_works (hi : (pumped i (pump env n m i w).2 w).Used i) :
    Works i (pumped i (pump env n m i w).2 w) (pump env n m i w).1 := by
  unfold pump
  dsimp only
  split
  · exact .refl i _
  · exact maintenanceUpdate_works hi

theorem pump_dest : (pump env n m i w).1.dest i = (pump env n m i w).2.dest := by
  unfold pump
  dsimp only
  split
  · exact pumped_dest i _ w
  · rw [(maintenanceUpdate_slot i _).1, pumped_dest]

theorem serve_keeps (hs : Sound none w) (hi : w.Used i)
    (hconnection : (w.dest i).connection = true) :
    Frame w (serve env n m i w).1 ∧ Sound none (serve env n m i w).1 ∧
      (¬Disturbs w i env → w.exiting = false → Attended (fun j => j ≠ i) w →
        Attended (fun _ => True) (serve env n m i w).1) := by
  have hleft : Left (w.dest i) (pump env n m i w).2 :=
    pump_left { env with now := w.now } n m _ (hs.proper i) hi hconnection
  have hfan : ¬Announces env (w.preps (w.slots i).stream) (w.dest i) →
      (pump env n m i w).2.prep.fan = (w.preps (w.slots i).stream).fan := fun hquiet =>
    pump_fan { env with now := w.now } n m fun h => hquiet ⟨h.fresh, h.behind, h.headers⟩
  have hframe := pumped_frame hleft.used
  have hused : (pumped i (pump env n m i w).2 w).Used i := by
    rw [hframe.used]
    exact hi
  have hworks := pump_works hused
  have hsound := pumped_sound hleft.used hleft.proper hs
  have hafter := hworks.sound none hsound
  have hframe' := hframe.trans (frame_of_onSlot hworks.onSlot)
  have hused' : (pump env n m i w).1.Used i := by
    rw [hframe'.used]
    exact hi
  have hothers : ¬Disturbs w i env → w.exiting = false → Attended (fun j => j ≠ i) w →
      Attended (fun j => j ≠ i) (pump env n m i w).1 := fun hsafe hexiting ha =>
    hworks.tends none _ hsound (hframe.exiting.trans hexiting) (pumped_attended hfan hsafe ha)
  unfold serve
  dsimp only
  split
  · have hschedule := schedule_keeps hused'
    refine ⟨hframe'.trans (frame_of_onSlot hschedule.onSlot), hschedule.sound none hafter, ?_⟩
    intro hsafe hexiting ha j _ hready
    refine schedule_attended hused' hafter (hframe'.exiting.trans hexiting)
      (hothers hsafe hexiting ha) j ?_ hready
    exact (eq_or_ne j i).symm
  · rename_i hmore
    refine ⟨hframe', hafter, fun hsafe hexiting ha j _ hready => ?_⟩
    by_cases hj : j = i
    · subst j
      unfold Ready at hready
      unfold Awake
      rw [pump_dest] at hready ⊢
      have hshared : (pump env n m i w).1.fan i = (pump env n m i w).2.prep.fan := by
        rw [hworks.onSlot.fan_eq]
        unfold Worker.fan
        rw [pumped_stream]
        exact congrArg Prepare.fan (Function.update_self ..)
      rw [hshared] at hready
      exact Or.inr (hleft.settled (Bool.eq_false_iff.mpr hmore) hready)
    · exact hothers hsafe hexiting ha j hj hready

structure Turns (w : Worker) (r : Worker × List Note) : Prop where
  frame : Frame w r.1
  sound : Sound none w → Sound none r.1
  tends : (∀ note ∈ r.2, ¬note.Harmful) → Sound none w → w.exiting = false →
    Attended (fun _ => True) w → Attended (fun _ => True) r.1

theorem Turns.refl (w : Worker) : Turns w (w, []) :=
  ⟨.refl w, fun h => h, fun _ _ _ ha => ha⟩

theorem turns_of_works (h : Works i w w') : Turns w (w', []) :=
  ⟨frame_of_onSlot h.onSlot, h.sound none, fun _ hs hexiting ha => h.tends none _ hs hexiting ha⟩

theorem visitLoop_turns (v : Visit) (k served units bytes : ℕ) {notes : List Note}
    (h : Turns w (w', notes)) (hs : Sound none w) :
    Turns w (visitLoop v k served units bytes (w', notes)) := by
  induction k generalizing served units bytes w' notes with
  | zero => exact h
  | succ k ih =>
    unfold visitLoop
    dsimp only
    split
    · exact h
    rename_i i hhead
    split
    · exact h
    have hsound' := h.sound hs
    have hoff := unschedule_keeps i w'
    have hframe := h.frame.trans (frame_of_onSlot hoff.onSlot)
    have hsound := hoff.sound none hsound'
    have hothers : (∀ note ∈ notes, ¬note.Harmful) → w.exiting = false →
        Attended (fun _ => True) w → Attended (fun j => j ≠ i) (unschedule i w') := by
      intro hall hexiting ha j hj
      exact hoff.onSlot.attended_others (h.tends hall hs hexiting ha) j ⟨trivial, hj⟩
    split
    · rename_i hskipped
      refine ih _ _ _ ⟨hframe, fun _ => hsound, fun hall _ hexiting ha j _ hready => ?_⟩
      by_cases hj : j = i
      · subst j
        rcases hskipped with hskip | hskip | hskip | hskip | hskip
        · have hproper := hsound.proper i
          rw [hproper.used (hproper.connection hready.metadata)] at hskip
          cases hskip
        · exact absurd hready.publishing hskip
        · rw [(hsound.proper i).connection hready.metadata] at hskip
          cases hskip
        · rw [hready.unblocked] at hskip
          cases hskip
        · exact absurd hready.empty hskip
      · exact hothers hall hexiting ha j hj hready
    · rename_i hserved
      unfold Skipped at hserved
      simp only [not_or, Bool.not_eq_false, not_not] at hserved
      obtain ⟨hframe', hsound'', htends⟩ := serve_keeps
        (n := schedUnits - units) (m := schedBytes - bytes) hsound hserved.1 hserved.2.2.1
      have hturn : Turns w ((serve (v.env served) (schedUnits - units) (schedBytes - bytes) i
          (unschedule i w')).1, notes ++ [.pump (unschedule i w') i (v.env served)]) := by
        refine ⟨hframe.trans hframe', fun _ => hsound'', fun hall _ hexiting ha => ?_⟩
        refine htends (hall _ (List.mem_append_right _ (List.mem_singleton_self _)))
          (hframe.exiting.trans hexiting) ?_
        exact hothers (fun note hn => hall note (List.mem_append_left _ hn)) hexiting ha
      split
      · exact hturn
      · exact ih _ _ _ hturn

theorem schedulerHandler_turns (v : Visit) (hrunning : w.running = false) (hs : Sound none w) :
    Turns w (schedulerHandler v { w with posted := false }) := by
  have hstart : Sound none { w with posted := false, running := true } :=
    ⟨hs.list.imp fun _ hl => ⟨hl.linked, hl.marked, hl.counted⟩, fun _ => Or.inr rfl, hs.kept,
      hs.filled, hs.queued, hs.proper⟩
  have hloop := visitLoop_turns v (w.runnable + schedDests + 1) 0 0 0
    (.refl { w with posted := false, running := true }) hstart
  unfold schedulerHandler
  dsimp only
  generalize visitLoop v (w.runnable + schedDests + 1) 0 0 0
    ({ w with posted := false, running := true }, []) = r at hloop ⊢
  obtain ⟨w', notes⟩ := r
  have hsound := hloop.sound hstart
  refine ⟨?_, fun _ => ?_, fun hall _ hexiting ha => hloop.tends hall hstart hexiting ha⟩
  · exact ⟨hloop.frame.used, hloop.frame.stream, hloop.frame.destinations,
      hloop.frame.initialized, hloop.frame.exiting, hrunning.symm⟩
  · refine ⟨hsound.list.imp fun _ hl => ⟨hl.linked, hl.marked, hl.counted⟩, fun hhead => ?_,
      hsound.kept, hsound.filled, hsound.queued, hsound.proper⟩
    change w'.run.head ≠ none at hhead
    obtain ⟨i, hi⟩ := Option.ne_none_iff_exists'.mp hhead
    left
    change (w'.posted || w'.run.head.isSome) = true
    rw [hi, Option.isSome_some, Bool.or_true]

theorem connected_works (hi : w.Used i) (hstate : (w.dest i).state ≠ .publishing) (raw : Bool)
    (packet : List UInt8) (socket : Option ℕ) : Works i w (connected raw packet socket i w) := by
  have hmodify : Works i w (w.modify i fun s =>
      { s with dest := { s.dest with state := .handshake }, deadline := w.now }) :=
    modify_idle rfl rfl rfl (fun h => ⟨h.used, h.connection, h.prepared, fun hmeta =>
      absurd (h.publishing hmeta) hstate⟩) nofun
  have hupdate := hmodify.trans (maintenanceUpdate_works (hmodify.onSlot.used_eq.symm ▸ hi))
  have hshake : ((maintenanceUpdate i (w.modify i fun s =>
      { s with dest := { s.dest with state := .handshake }, deadline := w.now })).dest i).state =
      .handshake := by
    rw [(maintenanceUpdate_slot i _).1]
    exact congrArg (fun s : Slot => s.dest.state) (slots_modify_self w i _)
  unfold connected
  dsimp only
  generalize maintenanceUpdate i (w.modify i fun s =>
    { s with dest := { s.dest with state := .handshake }, deadline := w.now }) = w₂
    at hupdate hshake ⊢
  have hused := hupdate.onSlot.used_eq.symm ▸ hi
  split
  · rename_i out hqueue
    have hset := setDest_quiet (w := w₂) (i := i) (RtmpReading.queueRaw_quiet hqueue)
    have hused' := hset.onSlot.used_eq.symm ▸ hused
    refine (hupdate.trans hset).trans ⟨flush_keeps hused' socket, flush_tends fun hstrands => ?_⟩
    have hpub := hstrands.publishing
    rw [dest_setDest] at hpub
    exact absurd (hshake.symm.trans hpub) nofun
  · exact hupdate.trans (fail_works hused)

theorem connect_works (hi : w.Used i) (hstate : (w.dest i).state ≠ .publishing) (c : Connect) :
    Works i w (connect c i w).1 := by
  have hopen : Works i w (w.setDest i { w.dest i with connection := true }) := by
    refine modify_idle rfl rfl rfl
      (fun h => ⟨fun _ => hi, fun _ => rfl, h.prepared, h.publishing⟩) ?_
    exact hstate
  have hused : (w.setDest i { w.dest i with connection := true }).Used i :=
    hopen.onSlot.used_eq.symm ▸ hi
  cases c with
  | declined => exact .refl i w
  | unavailable => exact .refl i w
  | refused => exact hopen.trans (release_works hused)
  | inProgress =>
    have hwait : Works i (w.setDest i { w.dest i with connection := true })
        ((w.setDest i { w.dest i with connection := true }).modify i fun s =>
          { s with dest := { s.dest with state := .connecting }, deadline := w.now }) := by
      refine modify_idle rfl rfl rfl (fun h => ⟨h.used, h.connection, h.prepared, fun hmeta =>
        absurd (h.publishing hmeta) ?_⟩) nofun
      change ((w.setDest i _).dest i).state ≠ _
      rw [dest_setDest]
      exact hstate
    exact hopen.trans hwait
  | connected raw packet socket =>
    refine hopen.trans (connected_works hused ?_ raw packet socket)
    rw [dest_setDest]
    exact hstate

theorem setDest_waits (hused : d.used = (w.dest i).used) (hproper : Proper (w.dest i) → Proper d)
    (hretry : d.retryAt ≠ 0) : Works i w (w.setDest i d) := by
  have hkeeps := setDest_keeps (w := w) (i := i) hused hproper
  refine ⟨hkeeps, fun hole among _ _ ha => hkeeps.onSlot.attended ha fun _ _ => ?_⟩
  right
  rwa [dest_setDest]

theorem reconnect_works (hi : w.Used i) (hstate : (w.dest i).state ≠ .publishing) (c : Connect) :
    Works i w (reconnect c i w) := by
  have hset : Works i w (w.setDest i { w.dest i with retryAt := 0 }) := by
    refine modify_idle rfl rfl rfl (fun h => ⟨h.used, h.connection, h.prepared, h.publishing⟩) ?_
    exact hstate
  have hconnect := hset.trans (connect_works (hset.onSlot.used_eq.symm ▸ hi)
    (by rw [dest_setDest]; exact hstate) c)
  unfold reconnect
  generalize connect c i (w.setDest i { w.dest i with retryAt := 0 }) = r at hconnect ⊢
  obtain ⟨w', rc⟩ := r
  dsimp only at hconnect ⊢
  split
  · exact hconnect
  · refine hconnect.trans (setDest_waits rfl
      (fun h => ⟨h.used, h.connection, h.prepared, h.publishing⟩) ?_)
    change w'.now + retryDelay ≠ 0
    unfold retryDelay
    omega

theorem resume_works (hi : w.Used i) : Works i w (resume i w) := by
  have hset : Keeps i w (w.setDest i { w.dest i with retryAt := 0 }) :=
    setDest_keeps rfl fun h => ⟨h.used, h.connection, h.prepared, h.publishing⟩
  have hused := hset.onSlot.used_eq.symm ▸ hi
  refine ⟨hset.trans (schedule_keeps hused), fun hole among hs hexiting ha => ?_⟩
  refine (hset.onSlot.trans (schedule_onSlot i _)).attended ha fun _ => ?_
  exact schedule_awake hused (hset.sound hole hs) (hset.onSlot.exiting.trans hexiting)

theorem reported_works (i : ℕ) (w : Worker) : Works i w (reported i w) := by
  have hkeeps : Keeps i w (reported i w) :=
    modify_keeps rfl rfl rfl fun h => ⟨h.used, h.connection, h.prepared, h.publishing⟩
  have hdest : (reported i w).dest i =
      { w.dest i with transportErrors := 0, backpressureEvents := 0 } :=
    congrArg Slot.dest (slots_modify_self w i _)
  have hqueued : ((reported i w).slots i).queued = (w.slots i).queued :=
    slots_modify_field Slot.queued w i _ rfl i
  refine ⟨hkeeps, fun hole among _ _ ha => hkeeps.onSlot.attended ha fun hin hready => ?_⟩
  unfold Ready at hready
  rw [hkeeps.onSlot.fan_eq, hdest] at hready
  unfold Awake
  rw [hqueued, hdest]
  exact ha i hin ⟨hready.publishing, hready.unblocked, hready.empty, hready.metadata,
    hready.prepared, hready.waiting⟩

theorem attend_keeps (hi : w.Used i) (c : Connect) :
    Works i w (attend c i w) ∧ (Sound (some i) w → Sound none (attend c i w)) := by
  have hfirst : Works i w (if TimedOut w.now (w.slots i) then fail i w else w) := by
    split
    · exact fail_works hi
    · exact .refl i w
  unfold attend
  dsimp only
  generalize (if TimedOut w.now (w.slots i) then fail i w else w) = w₁ at hfirst ⊢
  have hused₁ := hfirst.onSlot.used_eq.symm ▸ hi
  have hsecond : Works i w (if Retries .idle w₁.now (w₁.dest i) then reconnect c i w₁ else w₁) := by
    split
    · rename_i hretries
      exact hfirst.trans (reconnect_works hused₁ (by rw [hretries.2.1]; nofun) c)
    · exact hfirst
  generalize (if Retries .idle w₁.now (w₁.dest i) then reconnect c i w₁ else w₁) = w₂ at hsecond ⊢
  have hused₂ := hsecond.onSlot.used_eq.symm ▸ hi
  have hthird : Works i w (if Retries .publishing w₂.now (w₂.dest i) then resume i w₂ else w₂) := by
    split
    · exact hsecond.trans (resume_works hused₂)
    · exact hsecond
  generalize (if Retries .publishing w₂.now (w₂.dest i) then resume i w₂ else w₂) = w₃
    at hthird ⊢
  have hfourth : Works i w (if w₃.now - (w₃.slots i).lastReport ≥ reportInterval then
      reported i w₃ else w₃) := by
    split
    · exact hthird.trans (reported_works i w₃)
    · exact hthird
  generalize (if w₃.now - (w₃.slots i).lastReport ≥ reportInterval then
    reported i w₃ else w₃) = w₄ at hfourth ⊢
  have hused₄ := hfourth.onSlot.used_eq.symm ▸ hi
  exact ⟨hfourth.trans (maintenanceUpdate_works hused₄), fun hs =>
    maintenanceUpdate_sound (hfourth.sound (some i) hs) hused₄ (Or.inr rfl)⟩

theorem maintenanceRemove_onSlot (i : ℕ) (w : Worker) : OnSlot i w (maintenanceRemove i w) :=
  ⟨fun _ _ => rfl, rfl, rfl, rfl, rfl, rfl, rfl, rfl, rfl⟩

theorem maintenanceLoop_turns (connects : ℕ → Connect) (k processed : ℕ) (h : Turns w (w', []))
    (hs : Sound none w) : Turns w (maintenanceLoop connects k processed w', []) := by
  induction k generalizing processed w' with
  | zero => exact h
  | succ k ih =>
    unfold maintenanceLoop
    split
    · exact h
    rename_i i hhead
    split
    · exact h
    have hsound := h.sound hs
    have hi : w'.Used i := hsound.kept.members i (List.mem_of_mem_head? hhead)
    have hout := maintenanceRemove_onSlot i w'
    have hused := hout.used_eq.symm ▸ hi
    dsimp only
    split
    · rename_i hunused
      rw [hused] at hunused
      cases hunused
    obtain ⟨hworks, hback⟩ := attend_keeps hused (connects processed)
    have hremoved := maintenanceRemove_sound hsound hi
    refine ih (processed + 1) ⟨?_, fun _ => hback hremoved, fun hnotes _ hexiting ha => ?_⟩
    · exact (h.frame.trans (frame_of_onSlot hout)).trans (frame_of_onSlot hworks.onSlot)
    · exact hworks.tends (some i) _ hremoved (h.frame.exiting.trans hexiting)
        (h.tends hnotes hs hexiting ha)

theorem maintenanceHandler_turns (connects : ℕ → Connect) (hs : Sound none w) :
    Turns w (maintenanceHandler connects w, []) :=
  maintenanceLoop_turns connects _ 0 (.refl w) hs

theorem readHandler_turns (env : ℕ → Moment) (target : Target) (i : ℕ) (script : List Recv)
    (hs : Sound none w) : Turns w ((RtmpReading.readHandler env target i script w).worker,
      (RtmpReading.readHandler env target i script w).notes) := by
  have hreads := @RtmpReading.readHandler_reads env target i w none hs script
  obtain ⟨more, hnotes, htends⟩ := hreads.tends
  rw [List.nil_append] at hnotes
  refine ⟨frame_of_onSlot hreads.keeps.onSlot, hreads.keeps.sound none,
    fun hall hs hexiting ha => ?_⟩
  rw [hnotes] at hall
  exact htends hall none _ hs hexiting ha

theorem writeHandler_turns (failed raw : Bool) (packet : List UInt8) (socket : Option ℕ) (i : ℕ)
    (hs : Sound none w) : Turns w (writeHandler failed raw packet socket i w, []) := by
  unfold writeHandler
  split
  · exact .refl w
  rename_i hconnection
  have hi : w.Used i := (hs.proper i).used (by rwa [Bool.not_eq_false] at hconnection)
  split
  · rename_i hstate
    split
    · exact turns_of_works (fail_works hi)
    · exact turns_of_works (connected_works hi (by rw [hstate]; nofun) raw packet socket)
  · have hflush := flush_keeps hi socket
    have hused := hflush.onSlot.used_eq.symm ▸ hi
    have hothers : Attended (fun _ => True) w →
        Attended (fun j => True ∧ j ≠ i) (flush socket i w) := fun ha =>
      hflush.onSlot.attended_others ha
    dsimp only
    split
    · have hkeeps := hflush.trans (schedule_keeps hused)
      refine ⟨frame_of_onSlot hkeeps.onSlot, hkeeps.sound none,
        fun _ hs hexiting ha j _ hready => ?_⟩
      refine schedule_attended hused (hflush.sound none hs)
        (hflush.onSlot.exiting.trans hexiting) (hothers ha) j ?_ hready
      exact (eq_or_ne j i).elim Or.inr fun hj => Or.inl ⟨trivial, hj⟩
    · rename_i hunfit
      refine ⟨frame_of_onSlot hflush.onSlot, hflush.sound none, fun _ hs _ ha j _ hready => ?_⟩
      by_cases hj : j = i
      · subst j
        refine absurd ⟨?_, hready.publishing, hready.unblocked⟩ hunfit
        exact ((hflush.sound none hs).proper i).connection hready.metadata
      · exact hothers ha j ⟨trivial, hj⟩ hready

def Enrolled (w : Worker) : Prop :=
  ∀ i, w.Used i → i ∈ w.destinations (w.slots i).stream ∧ w.initialized = true

theorem Frame.enrolled (h : Frame w w') (he : Enrolled w) : Enrolled w' := by
  intro i hi
  rw [h.used] at hi
  rw [h.stream, h.destinations, h.initialized]
  exact he i hi

theorem scheduleAll_keeps (stream : ℕ) (slots : List ℕ) (w : Worker) :
    Frame w (slots.foldl (fun w i =>
        if (w.dest i).used = true ∧ (w.slots i).stream = stream then schedule i w else w) w) ∧
      (Sound none w → Sound none (slots.foldl (fun w i =>
        if (w.dest i).used = true ∧ (w.slots i).stream = stream then schedule i w else w) w)) ∧
      (Sound none w → w.exiting = false → Attended among w →
        Attended (fun j => among j ∨ (j ∈ slots ∧ (w.slots j).stream = stream)) (slots.foldl
          (fun w i => if (w.dest i).used = true ∧ (w.slots i).stream = stream then schedule i w
            else w) w)) := by
  induction slots generalizing w among with
  | nil =>
    refine ⟨.refl w, id, fun _ _ ha j hj => ha j (hj.resolve_right ?_)⟩
    rintro ⟨hmem, -⟩
    exact absurd hmem List.not_mem_nil
  | cons i rest ih =>
    rw [List.foldl_cons]
    split
    · rename_i hin
      have hschedule := schedule_keeps hin.1
      have hframe := frame_of_onSlot hschedule.onSlot
      obtain ⟨hrestFrame, hrestSound, hrestAttended⟩ :=
        @ih (fun j => among j ∨ j = i) (schedule i w)
      refine ⟨hframe.trans hrestFrame, fun hs => hrestSound (hschedule.sound none hs), ?_⟩
      intro hs hexiting ha j hj hready
      refine hrestAttended (hschedule.sound none hs) (hframe.exiting.trans hexiting)
        (schedule_attended hin.1 hs hexiting ha) j ?_ hready
      rcases hj with hj | ⟨hmem, hstream⟩
      · exact Or.inl (Or.inl hj)
      · rcases List.mem_cons.mp hmem with rfl | hmem
        · exact Or.inl (Or.inr rfl)
        · exact Or.inr ⟨hmem, by rw [hframe.stream]; exact hstream⟩
    · rename_i hout
      obtain ⟨hrestFrame, hrestSound, hrestAttended⟩ := @ih among w
      refine ⟨hrestFrame, hrestSound, fun hs hexiting ha j hj hready => ?_⟩
      rcases hj with hj | ⟨hmem, hstream⟩
      · exact hrestAttended hs hexiting ha j (Or.inl hj) hready
      · rcases List.mem_cons.mp hmem with rfl | hmem
        · have hproper := (hrestSound hs).proper j
          have hused := hproper.used (hproper.connection hready.metadata)
          change Worker.Used _ j at hused
          rw [hrestFrame.used] at hused
          exact absurd ⟨hused, hstream⟩ hout
        · exact hrestAttended hs hexiting ha j (Or.inr ⟨hmem, hstream⟩) hready

theorem mediaArrives_turns (stream : ℕ) (units : List Push) (hs : Sound none w)
    (he : Enrolled w) : Turns w (mediaArrives stream units w, []) := by
  have hpushed : Frame w (pushed stream units w) := ⟨rfl, fun _ => rfl, rfl, rfl, rfl, rfl⟩
  have hsound : Sound none (pushed stream units w) :=
    ⟨hs.list.imp fun _ hl => ⟨hl.linked, hl.marked, hl.counted⟩, hs.posted, hs.kept, hs.filled,
      hs.queued, hs.proper⟩
  have hothers : Attended (fun _ => True) w →
      Attended (fun j => (w.slots j).stream ≠ stream) (pushed stream units w) := by
    intro ha j hj hready
    have hsame : (pushed stream units w).fan j = w.fan j :=
      congrArg Prepare.fan (Function.update_of_ne hj ..)
    unfold Ready at hready
    rw [hsame] at hready
    exact ha j trivial hready
  unfold mediaArrives
  generalize pushed stream units w = w₁ at hpushed hsound hothers ⊢
  have hused : ∀ {v : Worker}, Frame w v → Sound none v → ∀ j, Ready v j → w.Used j := by
    intro v hframe hv j hready
    have hproper := hv.proper j
    have huse : v.Used j := hproper.used (hproper.connection hready.metadata)
    rwa [hframe.used] at huse
  unfold mediaReady
  split
  · rename_i hfresh
    refine ⟨hpushed, fun _ => hsound, fun _ _ _ _ j _ hready => ?_⟩
    have hinit := (he j (hused hpushed hsound j hready)).2
    rw [← hpushed.initialized, hfresh] at hinit
    cases hinit
  · obtain ⟨hframe, hkept, hattended⟩ := @scheduleAll_keeps
      (fun j => (w.slots j).stream ≠ stream) stream (w₁.destinations stream) w₁
    refine ⟨hpushed.trans hframe, fun _ => hkept hsound, fun _ _ hexiting ha j _ hready => ?_⟩
    refine hattended hsound (hpushed.exiting.trans hexiting) (hothers ha) j ?_ hready
    by_cases hstream : (w.slots j).stream = stream
    · right
      have hin := (he j (hused (hpushed.trans hframe) (hkept hsound) j hready)).1
      rw [hpushed.destinations, hpushed.stream, ← hstream]
      exact ⟨hin, rfl⟩
    · exact Or.inl hstream

theorem wipe_slot (i : ℕ) (w : Worker) : (wipe i w).slots i = .blank := Function.update_self ..

theorem wipe_other (w : Worker) (hj : j ≠ i) : (wipe i w).slots j = w.slots j :=
  Function.update_of_ne hj ..

theorem wipe_books {xs : List ℕ} {used : ℕ → Prop} (hlist : Listed w xs) (hout : i ∉ xs)
    (hposted : w.run.head ≠ none → w.posted = true ∨ w.running = true) (hkept : Kept w.heap used)
    (hheap : i ∉ w.heap.items) (hused : ∀ j, j ≠ i → (w.Used j ↔ used j))
    (hfilled : ∀ j, j ≠ i → used j → j ∈ w.heap.items) (hqueued : ∀ j ∈ xs, used j)
    (hproper : ∀ j, j ≠ i → Proper (w.dest j)) : Sound none (wipe i w) := by
  have hblank : ¬(wipe i w).Used i := by
    unfold Worker.Used
    rw [Worker.dest, wipe_slot]
    exact Bool.false_ne_true
  have hsame : ∀ j, (wipe i w).Used j ↔ j ≠ i ∧ used j := by
    intro j
    by_cases hj : j = i
    · subst j
      exact iff_of_false hblank fun h => h.1 rfl
    · unfold Worker.Used
      rw [Worker.dest, wipe_other w hj]
      exact (hused j hj).trans ⟨fun h => ⟨hj, h⟩, fun h => h.2⟩
  have hindex : ∀ j, j ≠ i → (wipe i w).heap.index j = w.heap.index j := fun j hj =>
    Function.update_of_ne hj ..
  have hne : ∀ j ∈ w.heap.items, j ≠ i := by
    rintro j hj rfl
    exact hheap hj
  refine ⟨⟨xs, hlist.linked.clear hout, fun j => ?_, hlist.counted⟩, ?_, ⟨?_, ?_, ?_, ?_⟩, ?_, ?_,
    ?_⟩
  · by_cases hj : j = i
    · subst j
      rw [wipe_slot]
      exact iff_of_false hout Bool.false_ne_true
    · rw [wipe_other w hj]
      exact hlist.marked j
  · exact hposted
  · intro k j hj
    have hmem : j ∈ w.heap.items := List.mem_of_getElem? hj
    rw [hindex j (hne j hmem)]
    exact hkept.indexed k j hj
  · exact fun j hj => (hsame j).mpr ⟨hne j hj, hkept.members j hj⟩
  · intro j hj hnot
    obtain ⟨hji, hold⟩ := (hsame j).mp hj
    rw [hindex j hji]
    exact hkept.away j hold hnot
  · exact fun j hj => hkept.bound j ((hsame j).mp hj).2
  · intro j hj
    obtain ⟨hji, hold⟩ := (hsame j).mp hj
    exact Or.inl (hfilled j hji hold)
  · intro j hj
    have hji : j ≠ i := by
      rintro rfl
      rw [wipe_slot] at hj
      cases hj
    rw [wipe_other w hji] at hj
    exact (hsame j).mpr ⟨hji, hqueued j ((hlist.marked j).mpr hj)⟩
  · intro j
    by_cases hj : j = i
    · subst j
      rw [Worker.dest, wipe_slot]
      refine ⟨?_, ?_, ?_, ?_⟩ <;>
      · exact fun h => absurd h Bool.false_ne_true
    · rw [Worker.dest, wipe_other w hj]
      exact hproper j hj

theorem wipe_sound (hs : Sound hole w) (hhole : hole = none ∨ hole = some i)
    (hqueued : (w.slots i).queued = false) (hheap : i ∉ w.heap.items) : Sound none (wipe i w) := by
  obtain ⟨xs, hlist⟩ := hs.list
  refine wipe_books hlist ?_ hs.posted hs.kept hheap (fun _ _ => Iff.rfl) ?_ ?_
    fun j _ => hs.proper j
  · rw [hlist.marked, hqueued]
    nofun
  · intro j hj hused
    rcases hs.filled j hused with hin | hh
    · exact hin
    · rcases hhole with rfl | rfl
      · cases hh
      · exact absurd (Option.some.inj hh).symm hj
  · exact fun j hj => hs.queued j ((hlist.marked j).mp hj)

theorem attended_of_others (hothers : ∀ j, j ≠ i → w'.slots j = w.slots j)
    (hpreps : w'.preps = w.preps) (hself : (w'.dest i).metadataSent = false)
    (ha : Attended (fun _ => True) w) : Attended (fun _ => True) w' := by
  intro j _ hready
  by_cases hj : j = i
  · subst j
    have hmeta := hready.metadata
    rw [hself] at hmeta
    cases hmeta
  · have hsame := hothers j hj
    unfold Ready Worker.fan at hready
    rw [hpreps, Worker.dest, hsame] at hready
    unfold Awake
    rw [Worker.dest, hsame]
    exact ha j trivial hready

theorem freeSlot_spec (h : freeSlot w = some i) : ¬w.Used i ∧ i < destMax := by
  have hfree := List.find?_some h
  have hmem := List.mem_of_find?_eq_some h
  refine ⟨fun hused => ?_, List.mem_range.mp hmem⟩
  rw [Worker.Used] at hused
  rw [hused] at hfree
  cases hfree

end RtmpVisits
