import NginxMedia.MediaProgram

/-! Which promotion a deferred switch completes. A command state remembers the source of the
most recent accepted promotion; the operator and the selector promote through one path. -/
namespace MediaPromotion

open MediaTypes MediaStream StreamMoves MediaProgram StepRun

def promoted (s : Stream) : Call → Option ℕ
  | .promote r => if usable s r then some r else none
  | .selectorRun now => runTarget s now
  | .selectorSwitchback now => switchbackTarget s now
  | _ => none

structure Commanded where
  program : Program
  latest : Option ℕ

def command (m : Commanded) (call : Call) : Commanded :=
  ⟨step m.program call, (promoted m.program.stream call).or m.latest⟩

def commanded (feed : MediaFeed.Feed) (selector : SelectorConf) : Commanded :=
  ⟨start feed selector, none⟩

def Awaits (s : Stream) (r : ℕ) : Prop := r ∈ s.sources ∧ (s.source r).state = .awaitingSync

instance (s : Stream) (r : ℕ) : Decidable (Awaits s r) := inferInstanceAs (Decidable (_ ∧ _))

/-- No promotion is accepted while another source waits for its own. -/
def Unrivalled (m : Commanded) (call : Call) : Prop :=
  ∀ r ∈ promoted m.program.stream call, ∀ q ∈ m.program.stream.sources,
    (m.program.stream.source q).state = .awaitingSync → q = r

instance (m : Commanded) (call : Call) : Decidable (Unrivalled m call) := by
  unfold Unrivalled
  infer_instance

/-- The program changes hands to `latest` only, and gets frames of its source and of
`latest` only. -/
structure Follows (latest : Option ℕ) (s t : Stream) : Prop where
  active : ∀ a, t.active = some a → s.active = some a ∨ latest = some a
  writes : ∃ ws, t.writes = s.writes ++ ws ∧
    ∀ w ∈ ws, s.active = some w.source ∨ latest = some w.source

theorem Follows.refl (latest : Option ℕ) (s : Stream) : Follows latest s s :=
  ⟨fun _ ha => Or.inl ha, [], (List.append_nil _).symm, by simp⟩

theorem Follows.trans {latest : Option ℕ} {s t u : Stream} (h : Follows latest s t)
    (k : Follows latest t u) : Follows latest s u := by
  obtain ⟨ws, hws, hall⟩ := h.writes
  obtain ⟨vs, hvs, kall⟩ := k.writes
  constructor
  · intro a ha
    exact (k.active a ha).elim (h.active a) Or.inr
  · refine ⟨ws ++ vs, by rw [hvs, hws, List.append_assoc], fun w hw => ?_⟩
    rcases List.mem_append.mp hw with hw | hw
    · exact hall w hw
    · exact (kall w hw).elim (h.active w.source) Or.inr

theorem Follows.of_eq {latest : Option ℕ} {s t : Stream} (hw : t.writes = s.writes)
    (ha : ∀ a, t.active = some a → s.active = some a) : Follows latest s t :=
  ⟨fun a h => Or.inl (ha a h), [], by rw [hw, List.append_nil], by simp⟩

theorem follows_of_move {latest : Option ℕ} {s t : Stream} (h : Inv s)
    (m : Move (fun _ r => latest = some r) s t) : Follows latest s t := by
  cases m with
  | quiet hs => exact Follows.of_eq hs.writes fun a ha => hs.active ▸ ha
  | add => exact Follows.of_eq rfl fun _ ha => ha
  | note => exact Follows.of_eq rfl fun _ ha => ha
  | cache => exact Follows.of_eq rfl fun _ ha => ha
  | await => exact Follows.of_eq rfl fun _ ha => ha
  | vacate a ha => exact Follows.of_eq rfl fun b hb => by simp [vacate, splice] at hb
  | unlist => exact Follows.of_eq rfl fun _ ha => ha
  | write r frame now ha =>
    have hw := (h.writeProgram_wrote r frame now).1
    refine ⟨fun a hact => Or.inl (hw.active ▸ hact), _, hw.writes, fun w hmem => ?_⟩
    rw [List.mem_singleton.mp hmem]
    exact Or.inl ha
  | activate r now ha hr hlatest =>
    have hact := h.activated ha hr now
    obtain ⟨ws, hws, -, hall⟩ := hact.writes
    refine ⟨fun a hsome => Or.inr ?_, ws, hws, fun w hw => Or.inr ?_⟩
    · rw [hlatest, ← hact.active, hsome]
    · rw [hlatest, (hall w hw).1]

theorem follows_of_moves {latest : Option ℕ} {s t : Stream} (h : Inv s)
    (m : Moves (fun _ r => latest = some r) s t) : Follows latest s t := by
  induction m with
  | refl => exact Follows.refl latest s
  | tail hm m ih => exact ih.trans (follows_of_move (Moves.inv hm h) m)

def Waits (except : Option ℕ) (s t : Stream) : Prop :=
  ∀ q, Awaits t q → Awaits s q ∨ except = some q

theorem waits_refl (e : Option ℕ) (s : Stream) : Waits e s s := fun _ h => Or.inl h

theorem Waits.trans {e : Option ℕ} {s t u : Stream} (h : Waits e s t) (k : Waits e t u) :
    Waits e s u := fun q hq => (k q hq).elim (h q) Or.inr

theorem waits_same {e : Option ℕ} {s t : Stream} (h : Same s t) : Waits e s t := by
  rintro q ⟨hq, hst⟩
  rw [h.sources] at hq
  rw [(h.cell q).state] at hst
  exact Or.inl ⟨hq, hst⟩

theorem waits_alter {e : Option ℕ} (s : Stream) (r : ℕ) {f : Source → Source}
    (hf : (f (s.source r)).state = .awaitingSync → (s.source r).state = .awaitingSync) :
    Waits e s (alter s r f) := by
  rintro q ⟨hq, hst⟩
  refine Or.inl ⟨hq, ?_⟩
  by_cases hqr : q = r
  · subst q
    rw [alter_source_self] at hst
    exact hf hst
  · rwa [alter_source_ne s hqr] at hst

theorem waits_recorded {e : Option ℕ} (s : Stream) (r : ℕ) (frame : Frame) (now : ℕ) :
    Waits e s (recorded s r frame now) :=
  waits_alter s r (f := fun src => arrived src frame now) id

theorem waits_switchNow {e : Option ℕ} {s : Stream} (h : Inv s) {r : ℕ} (hr : r ∈ s.sources)
    (hne : s.active ≠ some r) (now : ℕ) : Waits e s (switchNow s r now).1 := by
  rintro q ⟨hq, hst⟩
  rw [switchNow_sources] at hq
  rw [switchNow_awaiting h hr hne now hst] at hst
  exact Or.inl ⟨hq, hst⟩

theorem waits_switchResolve {e : Option ℕ} {s : Stream} (h : Inv s) :
    Waits e s (switchResolve s) := by
  have hfold : ∀ (refs : List ℕ) (t : Stream), Inv t → (∀ r ∈ refs, r ∈ t.sources) →
      Waits e t (refs.foldl resolveOne t) := by
    intro refs
    induction refs with
    | nil => exact fun t _ _ => waits_refl e t
    | cons r rest ih =>
      intro t ht hrefs
      have hr := hrefs r List.mem_cons_self
      have hrest : ∀ q ∈ rest, q ∈ t.sources := fun q hq => hrefs q (List.mem_cons_of_mem _ hq)
      change Waits e t (rest.foldl resolveOne (resolveOne t r))
      unfold resolveOne
      split_ifs with hres
      · have hne := resolvable_not_active ht hres
        have hone : Moves (fun _ _ => True) t (switchNow t r (t.source r).lastMedia).1 :=
          switchNow_moves hr hne _ fun _ _ _ => trivial
        refine (waits_switchNow ht hr hne _).trans (ih _ (hone.inv ht) fun q hq => ?_)
        rw [switchNow_sources]
        exact hrest q hq
      · exact ih t ht hrest
  exact hfold s.sources s h fun _ hr => hr

theorem waits_sourceRemove {e : Option ℕ} {s : Stream} (h : Inv s) (r : ℕ) :
    Waits e s (sourceRemove s r) := by
  rintro q ⟨hq, hst⟩
  obtain ⟨hq, hne⟩ := sourceRemove_sources s r q hq h
  refine Or.inl ⟨hq, ?_⟩
  have hcell : (sourceRemove s r).source q = s.source q := by
    unfold sourceRemove
    split_ifs
    · dsimp only
      split_ifs
      · change (alter (alter s r Source.removed) r Source.demoted).source q = s.source q
        rw [alter_source_ne _ hne, alter_source_ne _ hne]
      · exact alter_source_ne s hne _
    · rfl
  rwa [hcell] at hst

theorem waits_sourceAdd {e : Option ℕ} {s : Stream} (id : List UInt8) (type priority : ℕ)
    (admitted allocated : Bool) :
    Waits e s (sourceAdd s id type priority admitted allocated).1 := by
  unfold sourceAdd
  split_ifs
  · exact waits_refl e s
  · exact waits_refl e s
  · exact waits_refl e s
  · split
    · exact waits_refl e s
    · rintro q ⟨hq, hst⟩
      by_cases hfresh : q = s.fresh
      · subst q
        simp [Source.new] at hst
      · refine Or.inl ⟨?_, ?_⟩
        · rcases List.mem_append.mp hq with hq | hq
          · exact hq
          · exact absurd (List.mem_singleton.mp hq) hfresh
        · dsimp only at hst
          rwa [Function.update_of_ne hfresh] at hst

theorem waits_publish {e : Option ℕ} {s : Stream} (h : Inv s) (r : ℕ) (frame : Frame)
    (now : ℕ) : Waits e s (publish s r frame now).1 := by
  by_cases hu : usable s r = true
  · by_cases hact : s.active = some r
    · have hlive : Moves (fun _ _ => True) s (liveFrame s r frame now) :=
        liveFrame_moves hact frame now
      have hinv := hlive.inv h
      obtain ⟨hactive, -, hsources⟩ := liveFrame_kept s r frame now
      rw [publish_live hu ((h.state_iff r).mpr hact)]
      refine Waits.trans ?_ (waits_switchResolve hinv)
      rintro q ⟨hq, hst⟩
      rw [hsources] at hq
      by_cases hqr : q = r
      · subst q
        have := (hinv.state_iff r).mpr (hactive.trans hact)
        exact absurd (this.symm.trans hst) (by simp)
      · rw [liveFrame_source_ne s hqr] at hst
        exact Or.inl ⟨hq, hst⟩
    · have hpush : Moves (fun _ _ => True) s (cachedFrame s r frame now) :=
        (recorded_moves r frame now).tail
          (Move.cache r frame (List.mem_append_right _ (List.mem_singleton_self _)))
      have hcached : Waits e s (cachedFrame s r frame now) :=
        (waits_recorded s r frame now).trans (waits_alter _ r id)
      rw [publish_standby hu fun hst => hact ((h.state_iff r).mp hst)]
      split_ifs
      · have hlisted : r ∈ (cachedFrame s r frame now).sources := h.usable_listed hu
        exact hcached.trans (waits_switchNow (hpush.inv h) hlisted hact now)
      · exact hcached
  · rw [publish, if_neg hu]
    exact waits_refl e s

theorem waits_promote {s : Stream} (h : Inv s) (r : ℕ) : Waits (some r) s (promote s r).1 := by
  unfold promote
  split_ifs with hu hact
  · exact waits_alter s r (f := fun src => { src with pendingSwitch := false }) id
  · have hwait : Waits (some r) s (alter s r Source.awaiting) := by
      rintro q ⟨hq, hst⟩
      by_cases hqr : q = r
      · exact Or.inr (by rw [hqr])
      · rw [alter_source_ne s hqr] at hst
        exact Or.inl ⟨hq, hst⟩
    have hone : Move (fun _ _ => True) s (alter s r Source.awaiting) := Move.await r hact
    dsimp only
    split_ifs
    · exact hwait.trans (waits_switchNow (hone.inv h) (h.usable_listed hu) hact _)
    · exact hwait
  · exact waits_refl _ s

theorem waits_failover {s t : Stream} (hs : Same s t) (h : Inv s) (res : SelectorResult) :
    Waits (res.best.or res.emergency) s (failover t res).1 := by
  unfold failover
  split
  · next best hbest =>
    rw [hbest, Option.some_or]
    exact (waits_same hs).trans (waits_promote (hs.inv h) best)
  · next hbest =>
    split
    · next emergency hemergency =>
      have hcount : Same t { t with emergencySwitches := t.emergencySwitches + 1 } :=
        ⟨rfl, rfl, rfl, rfl, rfl, rfl, rfl, fun _ h => h, fun _ => Kept.refl _⟩
      rw [hbest, hemergency, Option.none_or]
      exact ((waits_same hs).trans (waits_same hcount)).trans
        (waits_promote ((hs.trans hcount).inv h) emergency)
    · exact waits_same hs

theorem waits_selectorRun {s : Stream} (h : Inv s) (now : ℕ) :
    Waits (runTarget s now) s (selectorRun s now).1 := by
  have hs := (selectorEvaluate_same s now).1
  unfold runTarget selectorRun
  dsimp only
  cases ha : (selectorEvaluate s now).1.active with
  | none => exact waits_failover hs h _
  | some a =>
    dsimp only
    split_ifs with helig
    · split
      · next best hbest =>
        split_ifs with hprio
        · rw [hbest, Option.filter_some, if_pos (decide_eq_true hprio)]
          exact (waits_same hs).trans (waits_promote (hs.inv h) best)
        · exact waits_same hs
      · exact waits_same hs
    · exact waits_failover hs h _

theorem waits_selectorSwitchback {s : Stream} (h : Inv s) (now : ℕ) :
    Waits (switchbackTarget s now) s (selectorSwitchback s now).1 := by
  have hs := (selectorEvaluate_same s now).1
  unfold switchbackTarget selectorSwitchback
  split_ifs with hnever
  · exact waits_refl _ s
  · dsimp only
    cases hbest : (selectorEvaluate s now).2.best with
    | none => exact waits_same hs
    | some best =>
      have hpromote := (waits_same hs).trans (waits_promote (hs.inv h) best)
      cases ha : (selectorEvaluate s now).1.active with
      | none => exact hpromote
      | some a =>
        dsimp only
        split_ifs with hprio
        · exact waits_same hs
        · rw [Option.filter_some, if_pos (decide_eq_true hprio)]
          exact hpromote

theorem waits_step {p : Program} (h : Inv p.stream) (call : Call) :
    Waits (promoted p.stream call) p.stream (step p call).stream := by
  cases call with
  | sourceAdd id type priority admitted allocated => exact waits_sourceAdd _ _ _ _ _
  | sourceRemove r => exact waits_sourceRemove h r
  | retire => exact fun q hq => absurd hq.1 (by simp [step, streamStep, retire])
  | leaseBegin r => exact waits_same (leaseBegin_same _ r)
  | leaseEnd r => exact waits_same (leaseEnd_same _ r)
  | publish r frame now => exact waits_publish h r frame now
  | promote r =>
    by_cases hu : usable p.stream r = true
    · have hp : promoted p.stream (.promote r) = some r := if_pos hu
      rw [hp]
      exact waits_promote h r
    · have hp : (step p (.promote r)).stream = p.stream := by
        change (promote p.stream r).1 = p.stream
        rw [promote, if_neg hu]
      rw [hp]
      exact waits_refl _ _
  | switchResolve => exact waits_switchResolve h
  | selectorRun now => exact waits_selectorRun h now
  | selectorSwitchback now => exact waits_selectorSwitchback h now
  | observe r o =>
    refine waits_alter p.stream r (f := fun src => MediaProgram.observe src o) ?_
    rw [(observe_kept _ o).state]
    exact id
  | read i maxUnits maxBytes now => exact waits_refl _ _
  | cursorInit i => exact waits_refl _ _
  | resync i mode => exact waits_refl _ _

structure Current (m : Commanded) : Prop where
  inv : Inv m.program.stream
  waiting : ∀ q, Awaits m.program.stream q → m.latest = some q

theorem promoted_latest {m : Commanded} {call : Call} {r : ℕ}
    (h : promoted m.program.stream call = some r) : (command m call).latest = some r := by
  rw [command, h, Option.some_or]

theorem Current.permits {m : Commanded} (h : Current m) (call : Call) :
    Permits (fun _ r => (command m call).latest = some r) m.program.stream call := by
  have hwaiting : ∀ q ∈ m.program.stream.sources,
      (m.program.stream.source q).state = .awaitingSync → m.latest = some q :=
    fun q hq hst => h.waiting q ⟨hq, hst⟩
  cases call with
  | publish r frame now =>
    refine ⟨fun _ _ _ q hq hres t _ => ?_, fun hu hst _ _ t _ => ?_⟩
    · exact hwaiting q hq (resolvable_awaiting hres)
    · exact hwaiting r (h.inv.usable_listed hu) hst
  | promote r => exact fun hu _ _ _ t _ => promoted_latest (if_pos hu)
  | switchResolve =>
    exact fun _ q hq hres t _ => hwaiting q hq (resolvable_awaiting hres)
  | selectorRun now => exact fun r hr _ _ t _ => promoted_latest hr
  | selectorSwitchback now => exact fun r hr _ _ t _ => promoted_latest hr
  | sourceAdd => trivial
  | sourceRemove => trivial
  | retire => trivial
  | leaseBegin => trivial
  | leaseEnd => trivial
  | observe => trivial
  | read => trivial
  | cursorInit => trivial
  | resync => trivial

theorem current_command (m : Commanded) (call : Call) (h : Current m) (hu : Unrivalled m call) :
    Current (command m call) := by
  refine ⟨(step_inv h.inv call).1, fun q hq => ?_⟩
  rcases waits_step h.inv call q hq with hq | hq
  · -- a promotion of another source would have a rival
    cases hp : promoted m.program.stream call with
    | none =>
      change (promoted m.program.stream call).or m.latest = some q
      rw [hp, Option.none_or]
      exact h.waiting q hq
    | some r =>
      obtain rfl := hu r hp q hq.1 hq.2
      exact promoted_latest hp
  · exact promoted_latest hq

theorem commanded_current {conf : MediaFeed.Conf} {allocated : Bool} {feed : MediaFeed.Feed}
    (h : MediaFeed.init conf allocated = some feed) (selector : SelectorConf) :
    Current (commanded feed selector) :=
  ⟨start_inv h selector, fun q hq => by simp [commanded, start, MediaStream.init, Awaits] at hq⟩

/-- In every run without a promotion accepted over a waiting rival, one source at most waits
for its switch, and every call hands the program to the source promoted last or to nobody. -/
theorem latest_promotion_wins {conf : MediaFeed.Conf} {allocated : Bool}
    {feed : MediaFeed.Feed} (h : MediaFeed.init conf allocated = some feed)
    (selector : SelectorConf) (calls : List Call)
    (hok : Meets command Unrivalled (commanded feed selector) calls) :
    (∀ q r, Awaits (calls.foldl command (commanded feed selector)).program.stream q →
      Awaits (calls.foldl command (commanded feed selector)).program.stream r → q = r) ∧
    ∀ call, Follows (command (calls.foldl command (commanded feed selector)) call).latest
      (calls.foldl command (commanded feed selector)).program.stream
      (command (calls.foldl command (commanded feed selector)) call).program.stream := by
  have hcur := StepRun.invariant_of_meets current_command (commanded_current h selector) hok
  constructor
  · intro q r hq hr
    exact Option.some.inj ((hcur.waiting q hq).symm.trans (hcur.waiting r hr))
  · intro call
    exact follows_of_moves hcur.inv (streamStep_moves hcur.inv call (hcur.permits call))

/-- The second source is promoted with the first one on air, and takes over with its
keyframe. -/
theorem latest_promotion_wins_takeover :
    Follows (command ((takeover ++ [Call.promote 1]).foldl command
        (commanded smallFeed selectorAuto)) (.publish 1 (videoFrame true false 700) 20)).latest
      ((takeover ++ [Call.promote 1]).foldl command
        (commanded smallFeed selectorAuto)).program.stream
      (command ((takeover ++ [Call.promote 1]).foldl command
        (commanded smallFeed selectorAuto))
          (.publish 1 (videoFrame true false 700) 20)).program.stream := by
  refine (latest_promotion_wins smallFeed_init selectorAuto _ ?_).2 _
  simp only [takeover, List.cons_append, List.nil_append, Meets]
  refine ⟨?_, ?_, ?_, ?_, ?_, ?_, trivial⟩ <;> decide

/-- Two sources are promoted before either has a keyframe; the operator's last word is the
second one, and it goes on air with its keyframe. The first one's keyframe takes it off. -/
def superseded : List Call :=
  [.sourceAdd [97] 1 1 true true, .sourceAdd [98] 1 2 true true, .promote 0, .promote 1,
    .publish 1 (videoFrame true false 700) 20]

theorem superseded_promotion_takes_effect :
    Awaits ((superseded.take 4).foldl command
        (commanded smallFeed selectorAuto)).program.stream 0 ∧
      Awaits ((superseded.take 4).foldl command
        (commanded smallFeed selectorAuto)).program.stream 1 ∧
      (superseded.foldl command (commanded smallFeed selectorAuto)).latest = some 1 ∧
      ¬ Follows (command (superseded.foldl command (commanded smallFeed selectorAuto))
          (.publish 0 (videoFrame true false 100) 30)).latest
        (superseded.foldl command (commanded smallFeed selectorAuto)).program.stream
        (command (superseded.foldl command (commanded smallFeed selectorAuto))
          (.publish 0 (videoFrame true false 100) 30)).program.stream := by
  refine ⟨by decide, by decide, by decide, fun hf => ?_⟩
  have hactive := hf.active 0 rfl
  exact absurd hactive (by decide)

end MediaPromotion
