import NginxMedia.BudgetDrain
import NginxMedia.MediaGraph
import NginxMedia.MediaStream
import NginxMedia.OwnerDir

/-! The loop of a timer visit of `ngx_media_runtime.c`: for each stream that the worker owns it
refreshes the record of the owner directory, runs the selector and drains the programme feed into
the consumers, all under one budget. How often a stream was supervised is a history. -/
namespace RuntimeVisit

open MediaTypes MediaGraph OutputDrain BudgetDrain

def prepareUnits : ℕ := 64
def prepareBytes : ℕ := 1024 * 1024

structure Package where
  feed : MediaFeed.Feed
  cursor : MediaFeed.Cursor

/-- `ngx_media_runtime_outputs_t`, with the package of a transform. -/
structure Output where
  out : Outputs
  package : Option Package

structure Entry where
  application : Str
  name : Str
  stream : MediaStream.Stream
  tracksAt : ℕ → ℕ
  output : Option Output
  prepare : Option MediaFeed.Cursor
  heartbeats : ℕ
  selections : ℕ

/-- What surrounds the loop at one entry: the readings of the clock at its head and in each of the
drains, the answers of the directory's lock and clock, and the outputs that
`ngx_media_runtime_outputs_get()` makes where there are none. -/
structure Turn where
  clock : ℕ
  outputClock : ℕ → ℕ
  packageClock : ℕ → ℕ
  prepareClock : ℕ → ℕ
  locked : Bool
  wall : ℕ
  made : Option (Option Package)

/-- The worker, whether its policy has a file consumer, and `ngx_current_msec`. -/
structure Visitor where
  worker : OwnerDir.Worker
  slot : ℕ
  fileConsumer : Bool
  now : ℕ

def Entry.hash (e : Entry) : ℕ := (ownerHash e.application e.name).toNat

def isOwner (v : Visitor) (hash : ℕ) : Bool := OwnerDir.ownerSlot hash v.worker.workers = v.slot

def heartbeat (v : Visitor) (turn : Turn) (d : OwnerDir.Directory) (e : Entry) :
    OwnerDir.Directory :=
  OwnerDir.heartbeat d v.worker turn.wall turn.locked e.hash v.slot e.stream.generation
    e.stream.programFrames e.stream.sources.length

def supervised (v : Visitor) (e : Entry) : Entry :=
  { e with
    stream := (MediaStream.selectorRun e.stream v.now).1
    heartbeats := e.heartbeats + 1
    selections := e.selections + 1 }

def getOutput (v : Visitor) (turn : Turn) (e : Entry) : Option Output :=
  match v.fileConsumer, e.output with
  | true, none => turn.made.map fun package =>
      ⟨⟨TsMux.muxInit TsMux.confDefault, none, none, MediaFeed.cursorInit e.stream.feed, 0, 0, []⟩,
        package⟩
  | _, output => output

def activeTracks (e : Entry) : Active :=
  match e.stream.active with
  | none => none
  | some source => (e.stream.source source).tracks.map fun tracks => (e.tracksAt source, tracks)

def readings (clock : ℕ → ℕ) : List ℕ := (List.range rounds).map clock

def packageDrain (v : Visitor) (turn : Turn) (package : Option Package) (budget : Budget) :
    Option Package × Budget :=
  match package with
  | none => (none, budget)
  | some p =>
    match drain batchUnits batchBytes v.now (readings turn.packageClock) p.feed p.cursor budget with
    | (feed, cursor, budget) => (some ⟨feed, cursor⟩, budget)

def drainOutput (v : Visitor) (turn : Turn) (e : Entry) (budget : Budget) : Entry × Budget :=
  match getOutput v turn e with
  | none => ({ e with output := none }, budget)
  | some o =>
    match outputsDrain (activeTracks e) v.now (readings turn.outputClock)
        ⟨e.stream.feed, o.out, [], 0, [], false⟩ budget with
    | (p, budget) =>
      match packageDrain v turn o.package budget with
      | (package, budget) =>
        ({ e with stream := { e.stream with feed := p.feed }, output := some ⟨p.out, package⟩ },
          budget)

def drainPrepare (v : Visitor) (turn : Turn) (e : Entry) (budget : Budget) : Entry × Budget :=
  match activeTracks e, e.prepare with
  | some _, some cursor =>
    match drain prepareUnits prepareBytes v.now (readings turn.prepareClock) e.stream.feed cursor
        budget with
    | (feed, cursor, budget) =>
      ({ e with stream := { e.stream with feed := feed }, prepare := some cursor }, budget)
  | _, _ => (e, budget)

def drainEntry (v : Visitor) (turn : Turn) (e : Entry) (budget : Budget) : Entry × Budget :=
  match drainOutput v turn e budget with
  | (e, budget) => drainPrepare v turn e budget

/-- The loop of `ngx_media_runtime_visit()` over the registry, on a timer visit. -/
def visitLoop (v : Visitor) :
    List (Entry × Turn) → OwnerDir.Directory → Budget → List Entry × OwnerDir.Directory × Budget
  | [], d, budget => ([], d, budget)
  | (e, turn) :: rest, d, budget =>
    match budgetReady budget turn.clock with
    | (budget, false) => (e :: rest.map Prod.fst, d, budget)
    | (budget, true) =>
      if isOwner v e.hash = false then
        match visitLoop v rest d budget with
        | (others, d, budget) => (e :: others, d, budget)
      else
        let d := heartbeat v turn d e
        match drainEntry v turn (supervised v e) budget with
        | (e, budget) =>
          if budget.exhausted then (e :: rest.map Prod.fst, d, budget)
          else
            match visitLoop v rest d budget with
            | (others, d, budget) => (e :: others, d, budget)

/-- The timer visit, once it has come to the registry. -/
def periodicVisit (v : Visitor) (started : ℕ) (entries : List (Entry × Turn))
    (d : OwnerDir.Directory) : List Entry × OwnerDir.Directory × Budget :=
  visitLoop v entries d ⟨0, 0, started, false⟩

def outputMedia (v : Visitor) (turn : Turn) (e : Entry) : List Frame :=
  match getOutput v turn e with
  | none => []
  | some o =>
    waiting e.stream.feed o.out.cursor ++
      match o.package with
      | none => []
      | some p => waiting p.feed p.cursor

def prepareMedia (e : Entry) : List Frame :=
  match activeTracks e, e.prepare with
  | some _, some cursor => waiting e.stream.feed cursor
  | _, _ => []

def media (v : Visitor) (turn : Turn) (e : Entry) : List Frame :=
  outputMedia v turn e ++ prepareMedia e

/-- The media that waits in the streams of the worker once their selectors have run. -/
def ahead (v : Visitor) (entries : List (Entry × Turn)) : List Frame :=
  entries.flatMap fun (e, turn) => if isOwner v e.hash then media v turn (supervised v e) else []

def Turn.drains (turn : Turn) : List ℕ :=
  readings turn.outputClock ++ readings turn.packageClock ++ readings turn.prepareClock

def Monotone (started : ℕ) (turns : List Turn) : Prop :=
  (∀ turn ∈ turns, started ≤ turn.clock ∧ turn.clock < 2 ^ 64 ∧
      ∀ clock ∈ turn.drains, turn.clock ≤ clock) ∧
    turns.Pairwise fun a b => a.clock ≤ b.clock ∧ ∀ clock ∈ a.drains, clock ≤ b.clock

variable {v : Visitor} {turn : Turn} {e : Entry} {budget : Budget}

theorem readings_enough (clock : ℕ → ℕ) : rounds ≤ (readings clock).length := by
  simp [readings]

theorem packageDrain_paid (package : Option Package) (budget : Budget) :
    Paid (readings turn.packageClock)
      (match package with
        | none => []
        | some p => waiting p.feed p.cursor)
      budget (packageDrain v turn package budget).2 := by
  unfold packageDrain
  cases package with
  | none => exact Paid.nothing _ _
  | some p =>
    exact (drain_drained (by decide) (by decide) (readings_enough _) p.feed p.cursor budget).paid

structure Outputted (v : Visitor) (turn : Turn) (e : Entry) (budget : Budget)
    (r : Entry × Budget) : Prop where
  paid : Paid (readings turn.outputClock ++ readings turn.packageClock) (outputMedia v turn e)
    budget r.2
  ring : SameRing e.stream.feed r.1.stream.feed
  tracks : activeTracks r.1 = activeTracks e
  prepare : r.1.prepare = e.prepare
  heartbeats : r.1.heartbeats = e.heartbeats
  selections : r.1.selections = e.selections

theorem drainOutput_outputted (v : Visitor) (turn : Turn) (e : Entry) (budget : Budget) :
    Outputted v turn e budget (drainOutput v turn e budget) := by
  unfold drainOutput
  cases hout : getOutput v turn e with
  | none =>
    refine ⟨?_, ⟨rfl, rfl, rfl, rfl, rfl, rfl, rfl⟩, rfl, rfl, rfl, rfl⟩
    unfold outputMedia
    rw [hout]
    exact Paid.nothing _ _
  | some o =>
    have hsame := outputsDrain_drain ⟨e.stream.feed, o.out, [], 0, [], false⟩ (activeTracks e) v.now
      (readings turn.outputClock) budget
    have hdrained := @drain_drained v.now batchUnits batchBytes (by decide) (by decide)
      (readings turn.outputClock) (readings_enough _) e.stream.feed o.out.cursor budget
    dsimp only at hsame ⊢
    rw [← hsame] at hdrained
    generalize outputsDrain (activeTracks e) v.now (readings turn.outputClock)
      ⟨e.stream.feed, o.out, [], 0, [], false⟩ budget = r at hdrained ⊢
    obtain ⟨p, left⟩ := r
    have hpackage := @packageDrain_paid v turn o.package left
    dsimp only at hdrained hpackage ⊢
    generalize packageDrain v turn o.package left = r at hpackage ⊢
    obtain ⟨package, last⟩ := r
    refine ⟨?_, hdrained.ring, rfl, rfl, rfl, rfl⟩
    unfold outputMedia
    rw [hout]
    exact hdrained.paid.append hpackage

theorem drainPrepare_paid (v : Visitor) (turn : Turn) (e : Entry) (budget : Budget) :
    Paid (readings turn.prepareClock) (prepareMedia e) budget
        (drainPrepare v turn e budget).2 ∧
      (drainPrepare v turn e budget).1.heartbeats = e.heartbeats ∧
      (drainPrepare v turn e budget).1.selections = e.selections := by
  unfold drainPrepare prepareMedia
  cases activeTracks e with
  | none => exact ⟨Paid.nothing _ _, rfl, rfl⟩
  | some tracks =>
    cases e.prepare with
    | none => exact ⟨Paid.nothing _ _, rfl, rfl⟩
    | some cursor =>
      exact ⟨(drain_drained (by decide) (by decide) (readings_enough _) e.stream.feed cursor
        budget).paid, rfl, rfl⟩

structure EntryDrained (v : Visitor) (turn : Turn) (e : Entry) (budget : Budget)
    (r : Entry × Budget) : Prop where
  paid : Paid turn.drains (media v turn e) budget r.2
  heartbeats : r.1.heartbeats = e.heartbeats
  selections : r.1.selections = e.selections

theorem drainEntry_drained (v : Visitor) (turn : Turn) (e : Entry) (budget : Budget) :
    EntryDrained v turn e budget (drainEntry v turn e budget) := by
  have hout := drainOutput_outputted v turn e budget
  unfold drainEntry
  generalize drainOutput v turn e budget = r at hout ⊢
  obtain ⟨e', left⟩ := r
  obtain ⟨hpaid, hheartbeats, hselections⟩ := drainPrepare_paid v turn e' left
  have hmedia : prepareMedia e' = prepareMedia e := by
    have htracks := hout.tracks
    have hprepare := hout.prepare
    dsimp only at htracks hprepare
    unfold prepareMedia
    rw [htracks, hprepare]
    cases activeTracks e with
    | none => rfl
    | some tracks =>
      cases e.prepare with
      | none => rfl
      | some cursor => exact hout.ring.waiting cursor
  rw [hmedia] at hpaid
  exact ⟨hout.paid.append hpaid, hheartbeats.trans hout.heartbeats,
    hselections.trans hout.selections⟩

def Supervised (v : Visitor) (e e' : Entry) : Prop :=
  isOwner v e.hash = true → e'.heartbeats = e.heartbeats + 1 ∧ e'.selections = e.selections + 1

def Afforded (v : Visitor) (budget : Budget) (sofar : List Frame) : List (Entry × Turn) → Prop
  | [] => True
  | (e, turn) :: rest =>
    (isOwner v e.hash = true → Ready (budgetAccount budget sofar) turn.clock) ∧
      Afforded v budget
        (sofar ++ if isOwner v e.hash then media v turn (supervised v e) else []) rest

def AllSupervised (v : Visitor) (entries : List (Entry × Turn)) (after : List Entry) : Prop :=
  List.Forall₂ (Supervised v) (entries.map Prod.fst) after

instance (v : Visitor) (e e' : Entry) : Decidable (Supervised v e e') :=
  inferInstanceAs (Decidable (_ → _))

instance (v : Visitor) (entries : List (Entry × Turn)) (after : List Entry) :
    Decidable (AllSupervised v entries after) :=
  inferInstanceAs (Decidable (List.Forall₂ _ _ _))

variable {rest : List (Entry × Turn)} {sofar : List Frame} {started t : ℕ}

theorem allSupervised_self :
    AllSupervised v rest (rest.map Prod.fst) ↔ ∀ p ∈ rest, isOwner v p.1.hash = false := by
  induction rest with
  | nil => exact ⟨fun _ _ hp => (nomatch hp), fun _ => List.Forall₂.nil⟩
  | cons p rest ih =>
    unfold AllSupervised at ih ⊢
    rw [List.map_cons, List.forall₂_cons, ih, List.forall_mem_cons]
    refine and_congr_left fun _ => ⟨?_, ?_⟩
    · intro hown
      cases howner : isOwner v p.1.hash with
      | false => rfl
      | true => exact absurd (hown howner).1 (by omega)
    · intro hother howner
      rw [hother] at howner
      cases howner

theorem afforded_spent {first extra : List Frame} (hspent : ¬Ready (budgetAccount budget first) t)
    (hstart : budget.started ≤ t) (hlate : ∀ p ∈ rest, t ≤ p.2.clock ∧ p.2.clock < 2 ^ 64) :
    Afforded v budget (first ++ extra) rest ↔ ∀ p ∈ rest, isOwner v p.1.hash = false := by
  induction rest generalizing extra with
  | nil => exact ⟨fun _ _ hp => (nomatch hp), fun _ => trivial⟩
  | cons p rest ih =>
    obtain ⟨e, turn⟩ := p
    obtain ⟨hfirst, hothers⟩ := List.forall_mem_cons.mp hlate
    unfold Afforded
    rw [List.append_assoc, ih hothers, List.forall_mem_cons]
    refine and_congr_left fun _ => ⟨?_, ?_⟩
    · intro hready
      cases howner : isOwner v e.hash with
      | false => rfl
      | true => exact absurd ((hready howner).earlier hstart hfirst.1 hfirst.2) hspent
    · intro hother howner
      rw [hother] at howner
      cases howner

theorem Monotone.tail {turn : Turn} {turns : List Turn} (h : Monotone started (turn :: turns)) :
    Monotone started turns :=
  ⟨fun other hother => h.1 other (List.mem_cons_of_mem _ hother), (List.pairwise_cons.mp h.2).2⟩

theorem visitLoop_supervises (rest : List (Entry × Turn)) (d : OwnerDir.Directory)
    (hfresh : budget.exhausted = false)
    (hclock : Monotone budget.started (rest.map Prod.snd)) :
    AllSupervised v rest (visitLoop v rest d (budgetAccount budget sofar)).1 ↔
      Afforded v budget sofar rest := by
  induction rest generalizing d sofar with
  | nil => exact ⟨fun _ => trivial, fun _ => List.Forall₂.nil⟩
  | cons p rest ih =>
    obtain ⟨e, turn⟩ := p
    rw [List.map_cons] at hclock
    obtain ⟨hstart, hbound, hdrains⟩ := hclock.1 turn List.mem_cons_self
    have hbehind : ∀ p ∈ rest, turn.clock ≤ p.2.clock ∧ p.2.clock < 2 ^ 64 := by
      intro p hp
      have hin : p.2 ∈ rest.map Prod.snd := List.mem_map.mpr ⟨p, hp, rfl⟩
      exact ⟨((List.pairwise_cons.mp hclock.2).1 p.2 hin).1,
        (hclock.1 p.2 (List.mem_cons_of_mem _ hin)).2.1⟩
    unfold visitLoop
    by_cases hready : Ready (budgetAccount budget sofar) turn.clock
    · rw [budgetReady_of_ready hready]
      dsimp only
      cases howner : isOwner v e.hash with
      | false =>
        rw [if_pos rfl]
        have hsupervised : Supervised v e e := fun howns => nomatch howner.symm.trans howns
        have hafforded : Afforded v budget sofar ((e, turn) :: rest) ↔
            Afforded v budget sofar rest := by
          rw [Afforded, howner, if_neg (by decide), List.append_nil]
          exact ⟨And.right, fun h => ⟨nofun, h⟩⟩
        have hrest := @ih sofar d hclock.tail
        rw [hafforded, ← hrest]
        generalize visitLoop v rest d (budgetAccount budget sofar) = r
        unfold AllSupervised
        rw [List.map_cons, List.forall₂_cons]
        exact and_iff_right hsupervised
      | true =>
        rw [if_neg (by decide)]
        obtain ⟨hpaid, hheartbeats, hselections⟩ := drainEntry_drained v turn (supervised v e)
          (budgetAccount budget sofar)
        generalize drainEntry v turn (supervised v e) (budgetAccount budget sofar) = r at *
        obtain ⟨e', left⟩ := r
        have hsupervised : Supervised v e e' := fun _ => ⟨hheartbeats, hselections⟩
        have hafforded : Afforded v budget sofar ((e, turn) :: rest) ↔
            Afforded v budget (sofar ++ media v turn (supervised v e)) rest := by
          rw [Afforded, howner, if_pos rfl]
          exact ⟨And.right, fun h => ⟨fun _ => hready, h⟩⟩
        rw [hafforded]
        dsimp only at hpaid ⊢
        cases hleft : left.exhausted with
        | true =>
          obtain ⟨clock, hclocks, first, more, hmedia, hspent⟩ := hpaid.spent hfresh hleft
          have hlate : ∀ p ∈ rest, clock ≤ p.2.clock ∧ p.2.clock < 2 ^ 64 := fun p hp =>
            ⟨((List.pairwise_cons.mp hclock.2).1 p.2 (List.mem_map.mpr ⟨p, hp, rfl⟩)).2 clock
              hclocks, (hbehind p hp).2⟩
          rw [if_pos rfl, hmedia, ← List.append_assoc]
          rw [budgetAccount_append] at hspent
          rw [afforded_spent hspent (hstart.trans (hdrains clock hclocks)) hlate,
            ← allSupervised_self]
          unfold AllSupervised
          rw [List.map_cons, List.forall₂_cons]
          exact and_iff_right hsupervised
        | false =>
          have hrest := @ih (sofar ++ media v turn (supervised v e)) (heartbeat v turn d e)
            hclock.tail
          rw [if_neg (by decide), hpaid.whole hleft, budgetAccount_append, ← hrest]
          generalize visitLoop v rest (heartbeat v turn d e)
            (budgetAccount budget (sofar ++ media v turn (supervised v e))) = r
          unfold AllSupervised
          rw [List.map_cons, List.forall₂_cons]
          exact and_iff_right hsupervised
    · rw [budgetReady_of_spent hready]
      dsimp only
      have hnone := @afforded_spent v budget ((e, turn) :: rest) turn.clock sofar [] hready hstart
        (List.forall_mem_cons.mpr ⟨⟨Nat.le_refl _, hbound⟩, hbehind⟩)
      rw [List.append_nil] at hnone
      rw [hnone]
      exact @allSupervised_self v ((e, turn) :: rest)

theorem afforded_iff {entries : List (Entry × Turn)} :
    Afforded v budget sofar entries ↔
      ∀ before e turn after, entries = before ++ (e, turn) :: after → isOwner v e.hash = true →
        Ready (budgetAccount budget (sofar ++ ahead v before)) turn.clock := by
  induction entries generalizing sofar with
  | nil =>
    refine ⟨fun _ before e turn after hsplit => ?_, fun _ => trivial⟩
    simp at hsplit
  | cons p rest ih =>
    obtain ⟨e, turn⟩ := p
    unfold Afforded
    rw [ih]
    constructor
    · rintro ⟨hfirst, hothers⟩ before e' turn' after hsplit howner
      cases before with
      | nil =>
        obtain ⟨hhead, _⟩ := List.cons.inj hsplit
        obtain ⟨rfl, rfl⟩ := Prod.mk.inj hhead
        simpa [ahead] using hfirst howner
      | cons q before =>
        obtain ⟨rfl, hrest⟩ := List.cons.inj hsplit
        have hready := hothers before e' turn' after hrest howner
        rw [List.append_assoc] at hready
        exact hready
    · intro h
      refine ⟨fun howner => ?_, fun before e' turn' after hsplit howner => ?_⟩
      · have hready := h [] e turn rest rfl howner
        simpa [ahead] using hready
      · have hready := h ((e, turn) :: before) e' turn' after (by rw [hsplit]; rfl) howner
        rw [List.append_assoc]
        exact hready

/-- A timer visit supervises every stream of its worker exactly when, at each of them, the budget
would still be ready with all the media accounted that waits before it. -/
theorem visit_supervises_iff {entries : List (Entry × Turn)} (d : OwnerDir.Directory)
    (hclock : Monotone started (entries.map Prod.snd)) :
    AllSupervised v entries (periodicVisit v started entries d).1 ↔
      ∀ before e turn after, entries = before ++ (e, turn) :: after → isOwner v e.hash = true →
        Ready (budgetAccount ⟨0, 0, started, false⟩ (ahead v before)) turn.clock := by
  have hloop := @visitLoop_supervises v ⟨0, 0, started, false⟩ [] entries d rfl hclock
  rw [afforded_iff] at hloop
  exact hloop

/-- A worker that is alone, so that every stream is its own. -/
def alone : Visitor := ⟨⟨1, 1, 1⟩, 0, false, 1000⟩

def turnAt (clock : ℕ) : Turn :=
  ⟨clock, fun _ => clock, fun _ => clock, fun _ => clock, true, 0, none⟩

def busy (feed : MediaFeed.Feed) (name : Str) (n : ℕ) : Entry where
  application := [108]
  name := name
  stream := MediaStream.init ((List.replicate n keyFrame).foldl
    (fun feed frame => (MediaFeed.publish feed frame 0).1) feed) ⟨5000, 5000, true, .auto⟩
  tracksAt := id
  output := some ⟨⟨TsMux.muxInit TsMux.confDefault, none, none, ⟨1, 0⟩, 0, 0, []⟩, none⟩
  prepare := none
  heartbeats := 0
  selections := 0

theorem visit_supervises_two : ∃ feed, MediaFeed.init ⟨2048, 0, 0⟩ true = some feed ∧
    AllSupervised alone [(busy feed [97] 2, turnAt 7), (busy feed [98] 0, turnAt 8)]
      (periodicVisit alone 7 [(busy feed [97] 2, turnAt 7), (busy feed [98] 0, turnAt 8)]
        (OwnerDir.shmCreate 4)).1 := by
  refine ⟨_, rfl, (visit_supervises_iff _ ?_).mpr ((@afforded_iff _ _ [] _).mp ?_)⟩
  · unfold Monotone
    decide +kernel
  · refine ⟨fun _ => ?_, fun _ => ?_, trivial⟩
    · decide +kernel
    · decide +kernel

/-- Sixty-four frames wait in the first of two streams; the second has no heartbeat and its
selector does not run. -/
theorem busy_stream_starves : ∃ feed, MediaFeed.init ⟨2048, 0, 0⟩ true = some feed ∧
    Monotone 7 [turnAt 7, turnAt 7] ∧
    ¬AllSupervised alone [(busy feed [97] 64, turnAt 7), (busy feed [98] 0, turnAt 7)]
      (periodicVisit alone 7 [(busy feed [97] 64, turnAt 7), (busy feed [98] 0, turnAt 7)]
        (OwnerDir.shmCreate 4)).1 := by
  refine ⟨_, rfl, ?_, ?_⟩
  · unfold Monotone
    decide +kernel
  · decide +kernel

end RuntimeVisit
