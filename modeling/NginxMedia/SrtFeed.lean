import NginxMedia.StepRun
import Mathlib.Data.List.Induction

/-! One SRT egress lane of `ngx_media_srt_output.c`: the bounded queue that carries the bursts of
several programme routes from the publisher to the lane's sender. The units between tail and
head are a list. A slot is cleared when its unit is popped or dropped, so the slot that a push
takes is free. The history records what the lane did with each unit. -/
namespace SrtFeed

def maxUnits : ℕ := 64
def maxBytes : ℕ := 8 * 1024 * 1024

structure FeedUnit where
  len : ℕ
  route : ℕ
  keyframe : Bool
  deriving DecidableEq, Repr

structure FeedQueue where
  units : List FeedUnit
  bytes : ℕ
  dropped : ℕ
  resync : Bool
  deriving DecidableEq, Repr

inductive Event where
  | queued (u : FeedUnit)
  | dropped (u : FeedUnit)
  | popped (u : FeedUnit)
  deriving DecidableEq, Repr

def feedDropAll (q : FeedQueue) : FeedQueue :=
  { q with units := []
           bytes := q.bytes - (q.units.map FeedUnit.len).sum
           dropped := q.dropped + q.units.length }

def full (q : FeedQueue) (len : ℕ) : Bool :=
  q.units.length ≥ maxUnits ∨ q.bytes > maxBytes - len

def store (q : FeedQueue) (u : FeedUnit) : FeedQueue :=
  { q with units := q.units ++ [u], bytes := q.bytes + u.len, resync := false }

def feedPush (q : FeedQueue) (u : FeedUnit) : FeedQueue × List Event :=
  let emptied := { feedDropAll q with resync := true }
  let lost := q.units.map .dropped
  if u.len > maxBytes then
    ({ emptied with dropped := emptied.dropped + 1 }, lost ++ [.dropped u])
  else if q.resync ∧ u.keyframe = false then
    ({ q with dropped := q.dropped + 1 }, [.dropped u])
  else if full q u.len then
    if u.keyframe then (store emptied u, lost ++ [.queued u])
    else ({ emptied with dropped := emptied.dropped + 1 }, lost ++ [.dropped u])
  else (store q u, [.queued u])

def feedPop (q : FeedQueue) : FeedQueue × List Event :=
  match q.units with
  | [] => (q, [])
  | u :: rest => ({ q with units := rest, bytes := q.bytes - u.len }, [.popped u])

structure Lane where
  queue : FeedQueue
  log : List Event
  deriving DecidableEq, Repr

inductive Call where
  | push (u : FeedUnit)
  | pop
  deriving DecidableEq, Repr

def answer (q : FeedQueue) : Call → FeedQueue × List Event
  | .push u => feedPush q u
  | .pop => feedPop q

def step (lane : Lane) (call : Call) : Lane :=
  ⟨(answer lane.queue call).1, lane.log ++ (answer lane.queue call).2⟩

def initial : Lane := ⟨⟨[], 0, 0, false⟩, []⟩

def run (calls : List Call) : Lane := calls.foldl step initial

def Isolated (log : List Event) : Prop :=
  ∀ before between rest lost u,
    log = before ++ .dropped lost :: between ++ .popped u :: rest → lost.route = u.route →
      (∀ v, .popped v ∈ between → v.route ≠ u.route) → u.keyframe = true

/-- What a push can do: it keeps the queue and appends to it, or it loses all that waits and
perhaps the new unit too. -/
theorem feedPush_cases (q : FeedQueue) (u : FeedUnit) :
    (q.resync = true ∧ u.keyframe = false ∧
      feedPush q u = ({ q with dropped := q.dropped + 1 }, [.dropped u])) ∨
    ((q.resync = true → u.keyframe = true) ∧ u.len ≤ maxBytes ∧ full q u.len = false ∧
      feedPush q u = (store q u, [.queued u])) ∨
    (u.len ≤ maxBytes ∧ u.keyframe = true ∧
      feedPush q u = (store { feedDropAll q with resync := true } u,
        q.units.map .dropped ++ [.queued u])) ∨
    feedPush q u =
      ({ feedDropAll q with resync := true, dropped := (feedDropAll q).dropped + 1 },
        (q.units ++ [u]).map .dropped) := by
  by_cases hbig : u.len > maxBytes
  · right; right; right
    simp [feedPush, hbig]
  · by_cases hwait : q.resync = true ∧ u.keyframe = false
    · left
      exact ⟨hwait.1, hwait.2, by simp [feedPush, hbig, hwait]⟩
    · right
      have hsync : q.resync = true → u.keyframe = true := by simpa using hwait
      by_cases hfull : full q u.len = true
      · right
        by_cases hkey : u.keyframe = true
        · left
          exact ⟨by omega, hkey, by simp [feedPush, hbig, hfull, hkey]⟩
        · right
          have hcold : q.resync = false := by simpa [hkey] using hsync
          simp [feedPush, hbig, hfull, hkey, hcold]
      · left
        simp only [Bool.not_eq_true] at hfull
        exact ⟨hsync, by omega, hfull, by simp [feedPush, hbig, hwait, hfull]⟩

structure Bounded (q : FeedQueue) : Prop where
  account : q.bytes = (q.units.map FeedUnit.len).sum
  units_le : q.units.length ≤ maxUnits
  bytes_le : q.bytes ≤ maxBytes
  idle : q.resync = true → q.units = []

theorem feedDropAll_bounded {q : FeedQueue} (h : Bounded q) (dropped : ℕ) :
    Bounded { feedDropAll q with resync := true, dropped := dropped } := by
  constructor
  · simp [feedDropAll, h.account]
  · simp [feedDropAll]
  · simp [feedDropAll, h.account]
  · simp [feedDropAll]

theorem store_bounded {q : FeedQueue} (h : Bounded q) {u : FeedUnit}
    (hfull : full q u.len = false) (hlen : u.len ≤ maxBytes) : Bounded (store q u) := by
  simp only [full, decide_eq_false_iff_not, not_or] at hfull
  constructor
  · simp [store, h.account]
  · simp only [store, List.length_append, List.length_singleton]
    omega
  · simp only [store]
    omega
  · simp [store]

theorem feedPush_bounded {q : FeedQueue} (h : Bounded q) (u : FeedUnit) :
    Bounded (feedPush q u).1 := by
  rcases feedPush_cases q u with ⟨-, -, he⟩ | ⟨-, hlen, hfull, he⟩ | ⟨hlen, -, he⟩ | he
  · rw [he]
    exact ⟨h.account, h.units_le, h.bytes_le, h.idle⟩
  · rw [he]
    exact store_bounded h hfull hlen
  · rw [he]
    apply store_bounded (feedDropAll_bounded h _) _ hlen
    simp [full, feedDropAll, h.account, maxUnits]
  · rw [he]
    exact feedDropAll_bounded h _

theorem feedPop_bounded {q : FeedQueue} (h : Bounded q) : Bounded (feedPop q).1 := by
  have haccount := h.account
  have hunits := h.units_le
  have hbytes := h.bytes_le
  unfold feedPop
  split
  · exact h
  · next u rest he =>
    rw [he] at haccount hunits
    simp only [List.map_cons, List.sum_cons, List.length_cons] at haccount hunits
    constructor
    · simp only
      omega
    · simp only
      omega
    · simp only
      omega
    · intro hs
      simpa [he] using h.idle hs

theorem run_bounded (calls : List Call) : Bounded (run calls).queue := by
  apply StepRun.invariant (I := fun lane : Lane => Bounded lane.queue)
  · intro lane call h
    cases call with
    | push u => exact feedPush_bounded h u
    | pop => exact feedPop_bounded h
  · exact ⟨rfl, Nat.zero_le _, Nat.zero_le _, fun _ => rfl⟩

def starved (r : ℕ) (log : List Event) : Bool :=
  log.foldl (fun b e =>
    match e with
    | .queued _ => b
    | .dropped u => b || decide (u.route = r)
    | .popped u => b && decide (u.route ≠ r)) false

def owes (r : ℕ) (log : List Event) : Bool :=
  log.foldl (fun b e =>
    match e with
    | .queued u => b && decide (¬(u.route = r ∧ u.keyframe))
    | .dropped u => b || decide (u.route = r)
    | .popped _ => b) false

@[simp] theorem starved_nil (r : ℕ) : starved r [] = false := rfl

@[simp] theorem starved_queued (r : ℕ) (log : List Event) (u : FeedUnit) :
    starved r (log ++ [.queued u]) = starved r log := by
  simp [starved]

@[simp] theorem starved_popped (r : ℕ) (log : List Event) (u : FeedUnit) :
    starved r (log ++ [.popped u]) = (starved r log && decide (u.route ≠ r)) := by
  simp [starved]

@[simp] theorem owes_nil (r : ℕ) : owes r [] = false := rfl

@[simp] theorem owes_queued (r : ℕ) (log : List Event) (u : FeedUnit) :
    owes r (log ++ [.queued u]) =
      (owes r log && decide (¬(u.route = r ∧ u.keyframe))) := by
  simp [owes]

@[simp] theorem owes_popped (r : ℕ) (log : List Event) (u : FeedUnit) :
    owes r (log ++ [.popped u]) = owes r log := by
  simp [owes]

theorem starved_dropped (r : ℕ) (log : List Event) (us : List FeedUnit) :
    starved r (log ++ us.map .dropped) = true ↔
      starved r log = true ∨ ∃ u ∈ us, u.route = r := by
  induction us generalizing log with
  | nil => simp
  | cons u rest ih =>
    have hone : starved r (log ++ [.dropped u]) = (starved r log || decide (u.route = r)) := by
      simp [starved]
    rw [List.map_cons, List.append_cons, ih, hone]
    simp [or_assoc]

theorem owes_dropped (r : ℕ) (log : List Event) (us : List FeedUnit) :
    owes r (log ++ us.map .dropped) = true ↔ owes r log = true ∨ ∃ u ∈ us, u.route = r := by
  induction us generalizing log with
  | nil => simp
  | cons u rest ih =>
    have hone : owes r (log ++ [.dropped u]) = (owes r log || decide (u.route = r)) := by
      simp [owes]
    rw [List.map_cons, List.append_cons, ih, hone]
    simp [or_assoc]

theorem starved_of_loss {r : ℕ} {before between : List Event} {lost : FeedUnit}
    (hr : lost.route = r) (hnone : ∀ v, .popped v ∈ between → v.route ≠ r) :
    starved r (before ++ .dropped lost :: between) = true := by
  induction between using List.reverseRecOn with
  | nil =>
    rw [show before ++ [Event.dropped lost] = before ++ [lost].map .dropped by simp,
      starved_dropped]
    exact Or.inr ⟨lost, by simp, hr⟩
  | append_singleton rest e ih =>
    have hrest := ih fun v hv => hnone v (by simp [hv])
    rw [← List.cons_append, ← List.append_assoc]
    cases e with
    | queued u =>
      rw [starved_queued]
      exact hrest
    | dropped u =>
      rw [show [Event.dropped u] = [u].map .dropped by simp, starved_dropped]
      exact Or.inl hrest
    | popped u =>
      have hu := hnone u (by simp)
      rw [starved_popped]
      simp [hrest, hu]

theorem isolated_append {log : List Event} (h : Isolated log) {e : Event}
    (he : ∀ u, e = .popped u → starved u.route log = true → u.keyframe = true) :
    Isolated (log ++ [e]) := by
  intro before between rest lost u hsplit hroute hnone
  induction rest using List.reverseRecOn with
  | nil =>
    obtain ⟨hlog, hlast⟩ := List.append_inj' hsplit rfl
    apply he u (by simpa using hlast)
    rw [hlog]
    exact starved_of_loss hroute hnone
  | append_singleton rest last _ =>
    rw [← List.cons_append, ← List.append_assoc] at hsplit
    exact h before between rest lost u (List.append_inj' hsplit rfl).1 hroute hnone

theorem isolated_dropped {log : List Event} (h : Isolated log) (us : List FeedUnit) :
    Isolated (log ++ us.map .dropped) := by
  induction us generalizing log with
  | nil => simpa using h
  | cons u rest ih =>
    rw [List.map_cons, List.append_cons]
    exact ih (isolated_append h (by simp))

def ofRoute (r : ℕ) (units : List FeedUnit) : List FeedUnit :=
  units.filter fun u => u.route = r

theorem ofRoute_concat (r : ℕ) (units : List FeedUnit) (u : FeedUnit) :
    ofRoute r (units ++ [u]) = ofRoute r units ++ if u.route = r then [u] else [] := by
  by_cases hu : u.route = r <;> simp [ofRoute, hu]

structure Fed (lane : Lane) : Prop where
  bounded : Bounded lane.queue
  isolated : Isolated lane.log
  first : ∀ r u, starved r lane.log = true → (ofRoute r lane.queue.units).head? = some u →
    u.keyframe = true
  awaits : ∀ r, starved r lane.log = true → ofRoute r lane.queue.units = [] →
    owes r lane.log = true

theorem fed_initial : Fed initial := by
  constructor
  · exact run_bounded []
  · intro before between rest lost u h
    simp [initial] at h
  · simp [initial]
  · simp [initial]

theorem Fed.lose {lane : Lane} (h : Fed lane) {q : FeedQueue} (hq : Bounded q)
    (hempty : q.units = []) (us : List FeedUnit) (hall : ∀ u ∈ lane.queue.units, u ∈ us) :
    Fed ⟨q, lane.log ++ us.map .dropped⟩ := by
  constructor
  · exact hq
  · exact isolated_dropped h.isolated us
  · simp [hempty, ofRoute]
  · intro r hstarved _
    rw [owes_dropped]
    rcases (starved_dropped r lane.log us).mp hstarved with hold | hnew
    · by_cases hnone : ofRoute r lane.queue.units = []
      · exact Or.inl (h.awaits r hold hnone)
      · right
        obtain ⟨u, hu⟩ := List.exists_mem_of_ne_nil _ hnone
        simp only [ofRoute, List.mem_filter, decide_eq_true_eq] at hu
        exact ⟨u, hall u hu.1, hu.2⟩
    · exact Or.inr hnew

theorem Fed.store {lane : Lane} (h : Fed lane) {u : FeedUnit}
    (hq : Bounded (SrtFeed.store lane.queue u))
    (hpays : owes u.route lane.log = true → u.keyframe = true) :
    Fed ⟨SrtFeed.store lane.queue u, lane.log ++ [.queued u]⟩ := by
  constructor
  · exact hq
  · exact isolated_append h.isolated (by simp)
  · intro r v hstarved hhead
    rw [starved_queued] at hstarved
    simp only [SrtFeed.store, ofRoute_concat, List.head?_append] at hhead
    cases hold : (ofRoute r lane.queue.units).head? with
    | some w =>
      have hwv : w = v := by simpa [hold] using hhead
      subst hwv
      exact h.first r w hstarved hold
    | none =>
      have hnone := List.head?_eq_none_iff.mp hold
      rw [hold, Option.none_or] at hhead
      by_cases hur : u.route = r
      · have huv : u = v := by simpa [hur] using hhead
        subst huv hur
        exact hpays (h.awaits _ hstarved hnone)
      · simp [hur] at hhead
  · intro r hstarved hnone
    rw [starved_queued] at hstarved
    simp only [SrtFeed.store, ofRoute_concat, List.append_eq_nil_iff] at hnone
    have hur : u.route ≠ r := by simpa using hnone.2
    simpa [hur] using h.awaits r hstarved hnone.1

theorem Fed.pop {lane : Lane} (h : Fed lane) : Fed (step lane .pop) := by
  have hq : Bounded (feedPop lane.queue).1 := feedPop_bounded h.bounded
  cases hunits : lane.queue.units with
  | nil =>
    have hsame : step lane .pop = lane := by simp [step, answer, feedPop, hunits]
    rw [hsame]
    exact h
  | cons u rest =>
    have hpop : feedPop lane.queue =
        ({ lane.queue with units := rest, bytes := lane.queue.bytes - u.len }, [.popped u]) := by
      simp [feedPop, hunits]
    rw [hpop] at hq
    simp only [step, answer, hpop]
    constructor
    · exact hq
    · apply isolated_append h.isolated
      intro v hv hstarved
      cases hv
      exact h.first u.route u hstarved (by simp [ofRoute, hunits])
    · intro r v hstarved hhead
      simp only [starved_popped, Bool.and_eq_true, decide_eq_true_eq] at hstarved
      apply h.first r v hstarved.1
      simpa [ofRoute, hunits, hstarved.2] using hhead
    · intro r hstarved hnone
      simp only [starved_popped, Bool.and_eq_true, decide_eq_true_eq] at hstarved
      rw [owes_popped]
      apply h.awaits r hstarved.1
      simpa [ofRoute, hunits, hstarved.2] using hnone

def Pays (lane : Lane) : Call → Prop
  | .push u =>
    .queued u ∈ (feedPush lane.queue u).2 → owes u.route lane.log = true → u.keyframe = true
  | .pop => True

instance (lane : Lane) (call : Call) : Decidable (Pays lane call) :=
  match call with
  | .push u => inferInstanceAs (Decidable
      (.queued u ∈ (feedPush lane.queue u).2 → owes u.route lane.log = true → u.keyframe = true))
  | .pop => inferInstanceAs (Decidable True)

theorem Fed.push {lane : Lane} (h : Fed lane) {u : FeedUnit} (hpays : Pays lane (.push u)) :
    Fed (step lane (.push u)) := by
  have hq := feedPush_bounded h.bounded u
  simp only [Pays] at hpays
  simp only [step, answer]
  rcases feedPush_cases lane.queue u with
    ⟨hresync, -, he⟩ | ⟨-, -, -, he⟩ | ⟨-, hkey, he⟩ | he <;> rw [he] at hq hpays ⊢
  · have hempty := h.bounded.idle hresync
    exact h.lose hq hempty [u] (by simp [hempty])
  · exact h.store hq (hpays (by simp))
  · have hlost := h.lose
      (feedDropAll_bounded h.bounded (feedDropAll lane.queue).dropped) rfl lane.queue.units
      (fun _ hv => hv)
    rw [← List.append_assoc]
    exact hlost.store hq (fun _ => hkey)
  · exact h.lose hq rfl _ (fun v hv => by simp [hv])

theorem fed_run {calls : List Call} (hmeets : StepRun.Meets step Pays initial calls) :
    Fed (run calls) := by
  refine StepRun.invariant_of_meets ?_ fed_initial hmeets
  intro lane call h hpays
  cases call with
  | push u => exact h.push hpays
  | pop => exact h.pop

theorem lone_route_step {r : ℕ} {lane : Lane} {call : Call}
    (h : owes r lane.log = true → lane.queue.resync = true)
    (hcall : ∀ u, call = .push u → u.route = r) :
    Pays lane call ∧
      (owes r (step lane call).log = true → (step lane call).queue.resync = true) := by
  cases call with
  | pop =>
    refine ⟨trivial, ?_⟩
    simp only [step, answer, feedPop]
    split
    · simpa using h
    · simpa using h
  | push u =>
    have hu := hcall u rfl
    simp only [Pays, step, answer]
    rcases feedPush_cases lane.queue u with
      ⟨hresync, -, he⟩ | ⟨hkey, -, -, he⟩ | ⟨-, hkey, he⟩ | he <;> rw [he]
    · exact ⟨by simp, fun _ => hresync⟩
    · constructor
      · intro _ howes
        rw [hu] at howes
        exact hkey (h howes)
      · intro howes
        rw [owes_queued] at howes
        simp only [hu, true_and, Bool.and_eq_true, decide_eq_true_eq] at howes
        exact absurd (hkey (h howes.1)) howes.2
    · refine ⟨fun _ _ => hkey, ?_⟩
      rw [← List.append_assoc, owes_queued]
      simp [hu, hkey]
    · refine ⟨?_, fun _ => rfl⟩
      simp

/-- A lane that carries one route resumes only at a keyframe. -/
theorem lone_route {r : ℕ} {calls : List Call} (h : ∀ u, .push u ∈ calls → u.route = r) :
    Isolated (run calls).log := by
  have hmeets : StepRun.Meets step Pays initial calls := by
    apply StepRun.meets_of_invariant
      (I := fun lane : Lane => owes r lane.log = true → lane.queue.resync = true)
      (P := fun call => ∀ u, call = .push u → u.route = r)
    · intro lane call hlane hcall
      exact lone_route_step hlane hcall
    · simp [initial]
    · rintro call hmem u rfl
      exact h u hmem
  exact (fed_run hmeets).isolated

theorem lone_route_overrun :
    Isolated (run [.push ⟨maxBytes + 1, 1, true⟩, .push ⟨1316, 1, false⟩, .push ⟨1316, 1, true⟩,
      .pop, .pop]).log :=
  lone_route (r := 1) (by
    intro u hu
    simp only [List.mem_cons, Call.push.injEq, List.not_mem_nil, or_false, reduceCtorEq] at hu
    rcases hu with rfl | rfl | rfl <;> rfl)

end SrtFeed
