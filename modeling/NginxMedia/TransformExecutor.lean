import NginxMedia.StepRun

/-! The transform executor, `ngx_media_executor.c`, and the calls that the runtime makes on it. What
the child and the system do (a fork that fails, an exit, a broken pipe) comes with each call. -/
namespace TransformExecutor

def maxInputChunks : ℕ := 8
def defaultInputBytes : ℕ := 8 * 1024 * 1024
def ioBudget : ℕ := 256 * 1024
def maxExecutable : ℕ := 4096

def restartLimit : ℕ := 32

/-- A child that has run for longer clears the count of restarts. -/
def steadyMsec : ℕ := 10000

/-- `NGX_MEDIA_EXECUTOR_STOPPED` and so on. -/
inductive State where
  | stopped
  | running
  | restarting
  | failed
  deriving DecidableEq, Repr

inductive EventType where
  | started
  | restarted
  | failed
  | stopped
  | epoch
  deriving DecidableEq, Repr

/-- `ngx_media_executor_conf_t`, less what goes on the command line of the child. -/
structure Conf where
  executable : List UInt8
  maxInputChunks : ℕ
  maxInputBytes : ℕ
  restartMin : ℕ
  restartMax : ℕ
  deriving DecidableEq, Repr

/-- `ngx_media_executor_t`: `input` is what is left of each queued chunk, `child` whether there is
a process, `wired` what the I/O callback makes of `executor_events_ready`. The events told to the
owner are a history, each with its epoch. -/
structure Executor where
  conf : Conf
  input : List ℕ
  inputBytes : ℕ
  child : Bool
  wired : Bool
  state : State
  epoch : ℕ
  startedAt : ℕ
  restartAt : ℕ
  backoff : ℕ
  restarts : ℕ
  inputDropped : ℕ
  events : List (EventType × ℕ)
  deriving DecidableEq, Repr

inductive Rc where
  | ok
  | again
  | error
  deriving DecidableEq, Repr

inductive Spawn where
  | failed
  | child (wired : Bool)
  deriving DecidableEq, Repr

/-- What `waitpid()` says of the child. -/
inductive Wait where
  | alive
  | exited
  | interrupted
  | error
  deriving DecidableEq, Repr

/-- What `write()` says of the child's input. -/
inductive Write where
  | wrote (n : ℕ)
  | interrupted
  | again
  | error
  deriving DecidableEq, Repr

def confDefault : Conf := ⟨[], maxInputChunks, defaultInputBytes, 250, 5000⟩

def init (conf : Conf) : Option Executor :=
  if conf.executable.length = 0 ∨ conf.executable.length ≥ maxExecutable then none
  else
    let chunks := if conf.maxInputChunks = 0 ∨ conf.maxInputChunks > maxInputChunks then
      confDefault.maxInputChunks else conf.maxInputChunks
    let bytes := if conf.maxInputBytes = 0 then confDefault.maxInputBytes else conf.maxInputBytes
    let restartMin := if conf.restartMin = 0 then confDefault.restartMin else conf.restartMin
    let restartMax := if conf.restartMax < restartMin then confDefault.restartMax else conf.restartMax
    some {
      conf := ⟨conf.executable, chunks, bytes, restartMin, restartMax⟩
      input := [], inputBytes := 0, child := false, wired := false, state := .stopped, epoch := 0
      startedAt := 0, restartAt := 0, backoff := restartMin, restarts := 0, inputDropped := 0
      events := [] }

def tell (e : Executor) (type : EventType) : Executor :=
  { e with events := e.events ++ [(type, e.epoch)] }

def spawn (e : Executor) (now : ℕ) : Spawn → Executor × Rc
  | .failed => (e, .error)
  | .child wired =>
    let e := { e with
      child := true, wired, state := .running, startedAt := now, restartAt := 0
      epoch := e.epoch + 1 }
    (tell (tell e (if e.restarts = 0 then .started else .restarted)) .epoch, .ok)

def start (e : Executor) (now : ℕ) (outcome : Spawn) : Executor × Rc :=
  if e.state = .running then (e, .ok)
  else if e.state = .failed then (e, .error)
  else if e.restartAt ≠ 0 ∧ now < e.restartAt then (e, .again)
  else
    match spawn e now outcome with
    | (e, .ok) => (e, .ok)
    | (e, _) => ({ e with state := .restarting, restartAt := now + e.backoff }, .error)

def feed (e : Executor) (len : ℕ) : Executor × Rc :=
  if len = 0 then (e, .error)
  else if e.state ≠ .running ∨ e.input.length ≥ e.conf.maxInputChunks
      ∨ len > e.conf.maxInputBytes ∨ e.inputBytes > e.conf.maxInputBytes - len then
    ({ e with inputDropped := e.inputDropped + 1 }, .again)
  else ({ e with input := e.input ++ [len], inputBytes := e.inputBytes + len }, .ok)

def writeInput (e : Executor) (budget : ℕ) : List Write → Executor
  | [] => e
  | result :: rest =>
    match e.input with
    | [] => e
    | len :: more =>
      if budget = 0 then e
      else
        match result with
        | .wrote n =>
          let n := min n (min len budget)
          if n = 0 then { e with state := .failed }
          else
            writeInput { e with
              input := if len - n = 0 then more else (len - n) :: more
              inputBytes := e.inputBytes - n } (budget - n) rest
        | .interrupted => writeInput e budget rest
        | .again => e
        | .error => { e with state := .failed }

def release (e : Executor) : Executor :=
  { e with child := false, wired := false, input := [], inputBytes := 0 }

def dead (e : Executor) (now : ℕ) : Executor :=
  let e := tell (release e) .failed
  if e.restarts ≥ restartLimit then tell { e with state := .failed } .stopped
  else
    { e with
      state := .restarting, restartAt := now + e.backoff
      backoff := if e.backoff < e.conf.restartMax then min (e.backoff * 2) e.conf.restartMax
        else e.backoff
      restarts := e.restarts + 1 }

def reap (e : Executor) (now : ℕ) (wait : Wait) : Executor :=
  if e.state ≠ .running ∨ e.child = false then e
  else
    match wait with
    | .exited | .error => dead e now
    | .alive | .interrupted =>
      if e.startedAt ≠ 0 ∧ now - e.startedAt > steadyMsec then
        { e with restarts := 0, backoff := e.conf.restartMin }
      else e

/-- `ngx_media_executor_io()`, less what it reads. -/
def io (e : Executor) (now : ℕ) (writes : List Write) (wait : Wait) : Executor :=
  if e.state ≠ .running then e
  else
    let e := writeInput e ioBudget writes
    if e.state = .failed then dead e now else reap e now wait

def maintenance (e : Executor) (now : ℕ) (outcome : Spawn) (wait : Wait) : Executor :=
  if e.state = .restarting then (start e now outcome).1 else reap e now wait

def stop (e : Executor) : Executor := tell { release e with state := .stopped } .stopped

/-- The part of `ngx_media_runtime_outputs_t` that the executor belongs to, and the clock. -/
structure Outputs where
  executor : Option Executor
  transformReady : Bool
  generation : ℕ
  now : ℕ
  deriving DecidableEq, Repr

structure Visit where
  generation : ℕ
  restart : Spawn
  bursts : List ℕ
  revive : Spawn
  wait : Wait
  writes : List Write
  ioWait : Wait
  deriving DecidableEq, Repr

/-- `transformInit` is `ngx_media_runtime_transform_init()`, `visit` is
`ngx_media_runtime_outputs_drain()`, `io` a descriptor's handler, `unwire` a handler whose
events cannot be kept, `stop` is `ngx_media_runtime_outputs_stop()`. -/
inductive Call where
  | transformInit (conf : Conf) (generation : ℕ) (outcome : Spawn)
  | visit (visit : Visit)
  | io (writes : List Write) (wait : Wait)
  | unwire
  | stop
  | elapse (msec : ℕ)
  deriving DecidableEq, Repr

def transformInit (conf : Conf) (now : ℕ) (outcome : Spawn) : Option Executor :=
  match init conf with
  | none => none
  | some e =>
    match start e now outcome with
    | (e, .ok) => some e
    | _ => none

def switched (e : Executor) (now : ℕ) (outcome : Spawn) : Executor := (start (stop e) now outcome).1

def feedAll (e : Executor) (bursts : List ℕ) : Executor :=
  bursts.foldl (fun e len => (feed e len).1) e

def outputsDrain (e : Executor) (generation now : ℕ) (v : Visit) : Executor :=
  let e := if generation ≠ v.generation then switched e now v.restart else e
  let e := maintenance (feedAll e v.bursts) now v.revive v.wait
  if e.wired then e else io e now v.writes v.ioWait

def step (w : Outputs) : Call → Outputs
  | .transformInit conf generation outcome =>
    if w.transformReady then w
    else
      match transformInit conf w.now outcome with
      | none => { w with executor := none, generation }
      | some e => { w with executor := some e, transformReady := true, generation }
  | .visit v =>
    { w with
      executor := if w.transformReady then
        w.executor.map fun e => outputsDrain e w.generation w.now v else w.executor
      generation := v.generation }
  | .io writes wait => { w with executor := w.executor.map fun e => io e w.now writes wait }
  | .unwire => { w with executor := w.executor.map fun e => { e with wired := false } }
  | .stop => { w with executor := none, transformReady := false }
  | .elapse msec => { w with now := w.now + msec }

def fresh (now : ℕ) : Outputs := ⟨none, false, 0, now⟩

def run (w : Outputs) (calls : List Call) : Outputs := calls.foldl step w

structure Sane (e : Executor) : Prop where
  restartMin : 0 < e.conf.restartMin
  backoff : 0 < e.backoff
  scheduled : e.state = .restarting → e.restartAt ≠ 0
  limit : e.state = .failed → restartLimit ≤ e.restarts

def Waiting (e : Executor) (now : ℕ) : Prop := e.restartAt ≠ 0 ∧ now < e.restartAt

instance (e : Executor) (now : ℕ) : Decidable (Waiting e now) :=
  inferInstanceAs (Decidable (_ ∧ _))

variable {e : Executor} {now : ℕ}

theorem init_sane {conf : Conf} (h : init conf = some e) : Sane e ∧ e.restartAt = 0 := by
  unfold init at h
  split at h
  · cases h
  · cases h
    have hmin : 0 < if conf.restartMin = 0 then confDefault.restartMin else conf.restartMin := by
      split
      · decide
      · omega
    exact ⟨⟨hmin, hmin, fun h => (by cases h), fun h => (by cases h)⟩, rfl⟩

theorem start_sane (h : Sane e) (outcome : Spawn) : Sane (start e now outcome).1 := by
  unfold start
  split_ifs with hrunning hfailed hwaiting
  · exact h
  · exact h
  · exact h
  · cases outcome with
    | failed =>
      refine ⟨h.restartMin, h.backoff, fun _ => ?_, fun hs => (by cases hs)⟩
      have := h.backoff
      show now + e.backoff ≠ 0
      omega
    | child wired => exact ⟨h.restartMin, h.backoff, fun hs => (by cases hs), fun hs => (by cases hs)⟩

theorem start_stopped (outcome : Spawn) (h : (start e now outcome).1.state = .stopped) :
    e.state = .stopped ∧ Waiting e now := by
  unfold start at h
  split_ifs at h with hrunning hfailed hwaiting
  · exact absurd (hrunning.symm.trans h) (by decide)
  · exact absurd (hfailed.symm.trans h) (by decide)
  · exact ⟨h, hwaiting⟩
  · cases outcome with
    | failed => cases h
    | child wired => cases h

theorem feed_frame (e : Executor) (len : ℕ) :
    ∃ input inputBytes inputDropped, (feed e len).1 = { e with input, inputBytes, inputDropped } := by
  unfold feed
  split_ifs
  · exact ⟨e.input, e.inputBytes, e.inputDropped, rfl⟩
  · exact ⟨e.input, e.inputBytes, _, rfl⟩
  · exact ⟨_, _, e.inputDropped, rfl⟩

theorem feedAll_frame (e : Executor) (bursts : List ℕ) :
    ∃ input inputBytes inputDropped,
      feedAll e bursts = { e with input, inputBytes, inputDropped } := by
  induction bursts generalizing e with
  | nil => exact ⟨e.input, e.inputBytes, e.inputDropped, rfl⟩
  | cons len rest ih =>
    obtain ⟨input, inputBytes, inputDropped, heq⟩ := feed_frame e len
    obtain ⟨i, b, d, hrest⟩ := ih (feed e len).1
    refine ⟨i, b, d, ?_⟩
    show feedAll (feed e len).1 rest = _
    rw [hrest, heq]

theorem writeInput_frame (e : Executor) (budget : ℕ) (writes : List Write) :
    ∃ input inputBytes state, writeInput e budget writes = { e with input, inputBytes, state } ∧
      (state = e.state ∨ state = .failed) := by
  induction writes generalizing e budget with
  | nil => exact ⟨e.input, e.inputBytes, e.state, rfl, Or.inl rfl⟩
  | cons result rest ih =>
    unfold writeInput
    split
    · exact ⟨e.input, e.inputBytes, e.state, rfl, Or.inl rfl⟩
    · split_ifs with hbudget
      · exact ⟨e.input, e.inputBytes, e.state, rfl, Or.inl rfl⟩
      · cases result with
        | wrote n =>
          simp only
          split
          · exact ⟨e.input, e.inputBytes, .failed, rfl, Or.inr rfl⟩
          · exact ih _ _
        | interrupted => exact ih e budget
        | again => exact ⟨e.input, e.inputBytes, e.state, rfl, Or.inl rfl⟩
        | error => exact ⟨e.input, e.inputBytes, .failed, rfl, Or.inr rfl⟩

theorem dead_sane (hmin : 0 < e.conf.restartMin) (hbackoff : 0 < e.backoff) :
    Sane (dead e now) ∧ (dead e now).state ≠ .stopped := by
  unfold dead
  simp only
  split
  · next hlimit => exact ⟨⟨hmin, hbackoff, fun h => (by cases h), fun _ => hlimit⟩, State.noConfusion⟩
  · refine ⟨⟨hmin, ?_, fun _ => ?_, fun h => (by cases h)⟩, State.noConfusion⟩
    · show 0 < if e.backoff < e.conf.restartMax then min (e.backoff * 2) e.conf.restartMax
        else e.backoff
      split <;> omega
    · show now + e.backoff ≠ 0
      omega

def Alive (e : Executor) : Prop := Sane e ∧ e.state ≠ .stopped

theorem reap_alive (h : Alive e) (wait : Wait) : Alive (reap e now wait) := by
  unfold reap
  split
  · exact h
  · cases wait with
    | exited => exact dead_sane h.1.restartMin h.1.backoff
    | error => exact dead_sane h.1.restartMin h.1.backoff
    | alive | interrupted =>
      simp only
      split
      · next hrun _ =>
        have hrunning : e.state = .running := by
          by_contra hne
          exact hrun (Or.inl hne)
        refine ⟨⟨h.1.restartMin, h.1.restartMin, h.1.scheduled, ?_⟩, h.2⟩
        intro hfailed
        exact absurd (hrunning.symm.trans hfailed) (by decide)
      · exact h

theorem io_alive (h : Alive e) (writes : List Write) (wait : Wait) :
    Alive (io e now writes wait) := by
  unfold io
  split
  · exact h
  · obtain ⟨input, inputBytes, state, heq, hstate⟩ := writeInput_frame e ioBudget writes
    simp only [heq]
    split
    · exact dead_sane h.1.restartMin h.1.backoff
    · next hne =>
      obtain rfl : state = e.state := hstate.resolve_right hne
      refine reap_alive ?_ wait
      exact ⟨⟨h.1.restartMin, h.1.backoff, h.1.scheduled, h.1.limit⟩, h.2⟩

theorem maintenance_alive (h : Alive e) (outcome : Spawn) (wait : Wait) :
    Alive (maintenance e now outcome wait) := by
  unfold maintenance
  split
  · refine ⟨start_sane h.1 outcome, fun hstop => h.2 ?_⟩
    exact (start_stopped outcome hstop).1
  · exact reap_alive h wait

theorem stop_sane (h : Sane e) : Sane (stop e) :=
  ⟨h.restartMin, h.backoff, fun hs => (by cases hs), fun hs => (by cases hs)⟩

theorem switched_alive (h : Alive e) (hready : ¬ Waiting e now) (outcome : Spawn) :
    Alive (switched e now outcome) := by
  refine ⟨start_sane (stop_sane h.1) outcome, fun hstop => hready ?_⟩
  exact (start_stopped outcome hstop).2

theorem outputsDrain_alive (h : Alive e) {generation : ℕ} (v : Visit)
    (hready : generation ≠ v.generation → ¬ Waiting e now) :
    Alive (outputsDrain e generation now v) := by
  have hswitch : Alive (if generation ≠ v.generation then switched e now v.restart else e) := by
    split
    · next hne => exact switched_alive h (hready hne) v.restart
    · exact h
  unfold outputsDrain
  generalize (if generation ≠ v.generation then switched e now v.restart else e) = f at hswitch ⊢
  obtain ⟨input, inputBytes, inputDropped, heq⟩ := feedAll_frame f v.bursts
  have hfed : Alive (feedAll f v.bursts) := by
    rw [heq]
    exact ⟨⟨hswitch.1.restartMin, hswitch.1.backoff, hswitch.1.scheduled, hswitch.1.limit⟩,
      hswitch.2⟩
  have hkept := @maintenance_alive _ now hfed v.revive v.wait
  simp only
  split
  · exact hkept
  · exact io_alive hkept v.writes v.ioWait

def Kept (w : Outputs) : Prop :=
  w.transformReady = true → ∃ e, w.executor = some e ∧
    (e.state = .running ∨ (e.state = .restarting ∧ e.restartAt ≠ 0) ∨
      (e.state = .failed ∧ restartLimit ≤ e.restarts))

def SwitchReady (w : Outputs) : Call → Prop
  | .visit v => w.transformReady = true → w.generation ≠ v.generation →
      ∀ e ∈ w.executor, ¬ Waiting e w.now
  | _ => True

def Inv (w : Outputs) : Prop := w.transformReady = true → ∃ e, w.executor = some e ∧ Alive e

theorem Inv.kept {w : Outputs} (h : Inv w) : Kept w := by
  intro hready
  obtain ⟨e, he, hsane, hstop⟩ := h hready
  refine ⟨e, he, ?_⟩
  cases hs : e.state with
  | stopped => exact absurd hs hstop
  | running => exact Or.inl rfl
  | restarting => exact Or.inr (Or.inl ⟨rfl, hsane.scheduled hs⟩)
  | failed => exact Or.inr (Or.inr ⟨rfl, hsane.limit hs⟩)

theorem transformInit_alive {conf : Conf} {outcome : Spawn}
    (h : transformInit conf now outcome = some e) : Alive e := by
  unfold transformInit at h
  cases hinit : init conf with
  | none => simp [hinit] at h
  | some first =>
    obtain ⟨hsane, hrestart⟩ := init_sane hinit
    simp only [hinit] at h
    have hstart := @start_sane first now hsane outcome
    have hstop := @start_stopped first now outcome
    generalize start first now outcome = result at h hstart hstop
    obtain ⟨next, rc⟩ := result
    cases rc with
    | ok =>
      cases h
      refine ⟨hstart, fun hs => ?_⟩
      exact (hstop hs).2.1 hrestart
    | again => cases h
    | error => cases h

theorem inv_step {w : Outputs} (h : Inv w) {call : Call} (hready : SwitchReady w call) :
    Inv (step w call) := by
  cases call with
  | transformInit conf generation outcome =>
    simp only [step]
    split
    · exact h
    · next hno =>
      split
      · intro hyes
        exact absurd hyes hno
      · next e he => exact fun _ => ⟨e, rfl, transformInit_alive he⟩
  | visit v =>
    intro hyes
    obtain ⟨e, he, halive⟩ := h hyes
    have hyes' : w.transformReady = true := hyes
    refine ⟨outputsDrain e w.generation w.now v, ?_, outputsDrain_alive halive v ?_⟩
    · simp [step, hyes', he]
    · exact fun hne => hready hyes' hne e (by rw [he]; rfl)
  | io writes wait =>
    intro hyes
    obtain ⟨e, he, halive⟩ := h hyes
    exact ⟨io e w.now writes wait, by simp [step, he], io_alive halive writes wait⟩
  | unwire =>
    intro hyes
    obtain ⟨e, he, halive⟩ := h hyes
    refine ⟨{ e with wired := false }, by simp [step, he], ?_⟩
    exact ⟨⟨halive.1.restartMin, halive.1.backoff, halive.1.scheduled, halive.1.limit⟩, halive.2⟩
  | stop =>
    intro hyes
    cases hyes
  | elapse msec => exact h

/-- The executor is never abandoned, in every run in which no switch meets its backoff. -/
theorem executor_kept (now : ℕ) {calls : List Call}
    (hready : StepRun.Meets step SwitchReady (fresh now) calls) : Kept (run (fresh now) calls) := by
  have hstep : ∀ w call, Inv w → SwitchReady w call → Inv (step w call) :=
    fun _ _ h hok => inv_step h hok
  have hfresh : Inv (fresh now) := fun h => by cases h
  exact (StepRun.invariant_of_meets hstep hfresh hready).kept

instance (w : Outputs) (call : Call) : Decidable (SwitchReady w call) :=
  match call with
  | .visit _ =>
    have : DecidablePred fun e => ¬ Waiting e w.now := fun _ => inferInstance
    inferInstanceAs (Decidable (_ → _ → ∀ e ∈ w.executor, ¬ Waiting e w.now))
  | .transformInit _ _ _ | .io _ _ | .unwire | .stop | .elapse _ => inferInstanceAs (Decidable True)

def ffmpeg : Conf := ⟨[0x66], 0, 0, 0, 0⟩

def quiet (generation : ℕ) : Call := .visit ⟨generation, .child true, [], .child true, .alive, [], .alive⟩

/-- The child dies, its restart comes due, and then the programme switches. -/
def lateSwitch : List Call :=
  [.transformInit ffmpeg 1 (.child true), .io [] .exited, .elapse 250, quiet 1, quiet 2]

theorem executor_kept_late_switch : Kept (run (fresh 1000) lateSwitch) :=
  executor_kept 1000 (by decide)

/-- The child dies and the programme switches within 250 ms. Later visits come after the time of the
restart. -/
def earlySwitch : List Call :=
  [.transformInit ffmpeg 1 (.child true), .io [] .exited, .elapse 100, quiet 2, .elapse 10000,
    quiet 2, quiet 2]

/-- Maintenance revives an executor that is restarting only, so the one left stopped by the switch
stays stopped. -/
theorem executor_abandoned :
    ¬ Kept (run (fresh 1000) earlySwitch) ∧
      (run (fresh 1000) earlySwitch).executor.map Executor.state = some .stopped := by
  refine ⟨?_, by decide⟩
  intro h
  obtain ⟨e, he, halive⟩ := h (by decide)
  have hstopped : (run (fresh 1000) earlySwitch).executor.map Executor.state = some .stopped := by
    decide
  rw [he, Option.map_some, Option.some.injEq] at hstopped
  rcases halive with hr | ⟨hr, _⟩ | ⟨hr, _⟩
  · exact absurd (hstopped.symm.trans hr) State.noConfusion
  · exact absurd (hstopped.symm.trans hr) State.noConfusion
  · exact absurd (hstopped.symm.trans hr) State.noConfusion

end TransformExecutor
