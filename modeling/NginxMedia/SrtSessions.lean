import NginxMedia.SrtIngest

/-! Every session that the worker opened is closed: while a CLOSE finds room in the event ring,
it is queued before its transport session goes. -/
namespace SrtSessions

open SrtIngest

variable {mem : TsDemux.Memory} {admits : ℕ → Bool} {w : World}

def opens (events : List Event) : List ℕ :=
  (events.filter fun e => e.type = .opened).map Event.sessionId

def closes (events : List Event) : List ℕ :=
  (events.filter fun e => e.type = .closed).map Event.sessionId

def read (w : World) : List Event := w.handled ++ w.eventBatch

structure Accounted (w : World) : Prop where
  once : (opens (read w)).Nodup
  closed : ∀ id ∈ opens w.pushed, id ∈ w.transportClosed →
    id ∈ closes w.ingest.events ∨ id ∈ closes (read w)
  bound : ∀ i slot, w.slots i = some slot → slot.id ∈ w.transportClosed →
    slot.id ∈ closes w.ingest.events ∨ slot.id ∈ closes w.eventBatch

def Finishes (w : World) : Call → Prop
  | .disconnect i => w.thread = .poll ∧ (w.ingest.sessions i).isSome
  | .requested i => w.thread = .poll ∧ (w.ingest.sessions i).any SessionState.closeRequested
  | _ => False

/-- A session is finished only while the event ring has room. -/
def FinishFits (w : World) (call : Call) : Prop :=
  Finishes w call → w.ingest.eventsFull = false

instance (w : World) (call : Call) : Decidable (Finishes w call) :=
  match call with
  | .disconnect _ | .requested _ => inferInstanceAs (Decidable (_ ∧ _))
  | .listen _ | .accept _ | .receive _ _ | .closeSession _ | .thread _ | .worker =>
    inferInstanceAs (Decidable False)

instance (w : World) (call : Call) : Decidable (FinishFits w call) :=
  inferInstanceAs (Decidable (_ → _))

section Events

variable {a b : List Event} {e : Event} {id : ℕ}

@[simp] theorem opens_nil : opens [] = [] := rfl

@[simp] theorem closes_nil : closes [] = [] := rfl

@[simp] theorem opens_append : opens (a ++ b) = opens a ++ opens b := by
  simp [opens]

@[simp] theorem closes_append : closes (a ++ b) = closes a ++ closes b := by
  simp [closes]

theorem opens_single (e : Event) : opens [e] = if e.type = .opened then [e.sessionId] else [] := by
  by_cases h : e.type = .opened <;> simp [opens, h]

theorem closes_single (e : Event) : closes [e] = if e.type = .closed then [e.sessionId] else [] := by
  by_cases h : e.type = .closed <;> simp [closes, h]

@[simp] theorem opens_openEvent (id : ℕ) (streamid : List UInt8) :
    opens [openEvent id streamid] = [id] := rfl

@[simp] theorem closes_openEvent (id : ℕ) (streamid : List UInt8) :
    closes [openEvent id streamid] = [] := rfl

@[simp] theorem opens_closeEvent (state : SessionState) : opens [closeEvent state] = [] := rfl

@[simp] theorem closes_closeEvent (state : SessionState) :
    closes [closeEvent state] = [state.id] := rfl

end Events

def Quiet : ThreadPc → Prop
  | .opening _ _ | .refused _ | .closing _ | .releasing _ => False
  | _ => True

structure Ledger (ids : Fin maxSessions → Option ℕ) (opened : ℕ) (thread : ThreadPc)
    (pushed : List Event) (closed : List ℕ) : Prop where
  fresh : ∀ i id, ids i = some id → id ≤ opened
  distinct : ∀ i j id, ids i = some id → ids j = some id → i = j
  opensLe : ∀ id ∈ opens pushed, id ≤ opened
  once : (opens pushed).Nodup
  paired : ∀ before, before <+: pushed → closes before ⊆ opens before
  opening : ∀ i streamid, thread = .opening i streamid →
    ∃ id, ids i = some id ∧ id ∉ opens pushed ∧ id ∉ closed
  refused : ∀ i, thread = .refused i → ∃ id, ids i = some id ∧ id ∉ opens pushed
  known : ∀ i id, ids i = some id →
    id ∈ opens pushed ∨ (∃ streamid, thread = .opening i streamid) ∨ thread = .refused i
  finishing : ∀ i, thread = .closing i ∨ thread = .releasing i →
    ∃ id, ids i = some id ∧ id ∈ closes pushed
  unclosed : ∀ i id, ids i = some id → id ∈ closes pushed →
    thread = .closing i ∨ thread = .releasing i
  closedLe : ∀ id ∈ closed, id ≤ opened
  settled : ∀ id ∈ closed, id ∈ opens pushed → id ∈ closes pushed

section Ledger

variable {ids : Fin maxSessions → Option ℕ} {opened : ℕ} {thread pc : ThreadPc}
  {pushed : List Event} {closed : List ℕ} {i : Fin maxSessions} {id : ℕ} {streamid : List UInt8}

theorem Ledger.quiet_unclosed (h : Ledger ids opened thread pushed closed) (hq : Quiet thread)
    (hid : ids i = some id) : id ∉ closes pushed := by
  intro hclose
  rcases h.unclosed i id hid hclose with rfl | rfl <;> exact hq.elim

theorem Ledger.moved (h : Ledger ids opened thread pushed closed) (hq : Quiet thread)
    (hpc : Quiet pc) : Ledger ids opened pc pushed closed := by
  refine { h with opening := ?_, refused := ?_, known := ?_, finishing := ?_, unclosed := ?_ }
  · rintro i streamid rfl
    exact hpc.elim
  · rintro i rfl
    exact hpc.elim
  · intro i id hid
    rcases h.known i id hid with hk | ⟨streamid, rfl⟩ | rfl
    · exact Or.inl hk
    · exact hq.elim
    · exact hq.elim
  · rintro i (rfl | rfl) <;> exact hpc.elim
  · intro i id hid hclose
    exact absurd hclose (h.quiet_unclosed hq hid)

theorem Ledger.announced (h : Ledger ids opened thread pushed closed) {e : Event}
    (ho : opens [e] = []) (hc : closes [e] = []) :
    Ledger ids opened thread (pushed ++ [e]) closed := by
  have hopens : opens (pushed ++ [e]) = opens pushed := by simp [ho]
  have hcloses : closes (pushed ++ [e]) = closes pushed := by simp [hc]
  refine ⟨h.fresh, h.distinct, hopens ▸ h.opensLe, hopens ▸ h.once, ?_, hopens ▸ h.opening,
    hopens ▸ h.refused, hopens ▸ h.known, hcloses ▸ h.finishing, hcloses ▸ h.unclosed, h.closedLe,
    hopens ▸ hcloses ▸ h.settled⟩
  intro before hpre
  rcases List.prefix_concat_iff.mp hpre with rfl | hpre
  · rw [hopens, hcloses]
    exact h.paired pushed (List.prefix_refl pushed)
  · exact h.paired before hpre

theorem Ledger.accepted (h : Ledger ids opened thread pushed closed) (hq : Quiet thread)
    (hfree : ids i = none) (streamid : List UInt8) :
    Ledger (Function.update ids i (some (opened + 1))) (opened + 1) (.opening i streamid) pushed
      closed := by
  have hnew : opened + 1 ∉ opens pushed := fun hm => by have := h.opensLe _ hm; omega
  have hnotClosed : opened + 1 ∉ closed := fun hm => by have := h.closedLe _ hm; omega
  refine ⟨?_, ?_, ?_, h.once, h.paired, ?_, ?_, ?_, ?_, ?_, ?_, h.settled⟩
  · intro j id hj
    rcases SlotTable.update_some hj with ⟨_, hid⟩ | ⟨_, hid⟩
    · cases hid
      exact Nat.le_refl _
    · have := h.fresh j id hid
      omega
  · intro j k id hj hk
    rcases SlotTable.update_some hj with ⟨rfl, hid⟩ | ⟨_, hid⟩ <;>
      rcases SlotTable.update_some hk with ⟨rfl, hid'⟩ | ⟨_, hid'⟩
    · rfl
    · cases hid
      have := h.fresh k _ hid'
      omega
    · cases hid'
      have := h.fresh j _ hid
      omega
    · exact h.distinct j k id hid hid'
  · intro id hid
    have := h.opensLe id hid
    omega
  · intro j streamid' hj
    cases hj
    exact ⟨opened + 1, by simp, hnew, hnotClosed⟩
  · intro j hj
    cases hj
  · intro j id hj
    rcases SlotTable.update_some hj with ⟨rfl, _⟩ | ⟨_, hid⟩
    · exact Or.inr (Or.inl ⟨streamid, rfl⟩)
    · rcases h.known j id hid with hk | ⟨_, rfl⟩ | rfl
      · exact Or.inl hk
      · exact hq.elim
      · exact hq.elim
  · rintro j (hj | hj) <;> cases hj
  · intro j id hj hclose
    rcases SlotTable.update_some hj with ⟨_, hid⟩ | ⟨_, hid⟩
    · cases hid
      exact absurd (h.paired pushed (List.prefix_refl pushed) hclose) hnew
    · exact absurd hclose (h.quiet_unclosed hq hid)
  · intro id hid
    have := h.closedLe id hid
    omega

theorem Ledger.openQueued (h : Ledger ids opened (.opening i streamid) pushed closed)
    (hid : ids i = some id) :
    Ledger ids opened .notify (pushed ++ [openEvent id streamid]) closed := by
  obtain ⟨id', hid', hnot, hnotClosed⟩ := h.opening i streamid rfl
  obtain rfl : id = id' := by simpa [hid] using hid'
  refine ⟨h.fresh, h.distinct, ?_, ?_, ?_, ?_, ?_, ?_, ?_, ?_, h.closedLe, ?_⟩
  · intro x hx
    rcases List.mem_append.mp (opens_append ▸ hx) with hx | hx
    · exact h.opensLe x hx
    · obtain rfl : x = id := by simpa using hx
      exact h.fresh i x hid
  · rw [opens_append, opens_openEvent, List.nodup_append]
    refine ⟨h.once, List.nodup_singleton id, ?_⟩
    rintro x hx y hy rfl
    obtain rfl : x = id := by simpa using hy
    exact hnot hx
  · intro before hpre
    rcases List.prefix_concat_iff.mp hpre with rfl | hpre
    · have hold := h.paired pushed (List.prefix_refl pushed)
      simp only [closes_append, closes_openEvent, List.append_nil, opens_append]
      exact List.subset_append_of_subset_left _ hold
    · exact h.paired before hpre
  · intro j s hj
    cases hj
  · intro j hj
    cases hj
  · intro j x hj
    left
    rw [opens_append, opens_openEvent, List.mem_append, List.mem_singleton]
    rcases h.known j x hj with hk | ⟨s, hs⟩ | hr
    · exact Or.inl hk
    · cases hs
      exact Or.inr (by simpa [hid] using hj.symm)
    · cases hr
  · rintro j (hj | hj) <;> cases hj
  · intro j x hj hclose
    rw [closes_append, closes_openEvent, List.append_nil] at hclose
    rcases h.unclosed j x hj hclose with hs | hs <;> cases hs
  · intro x hx hopen
    rw [closes_append, closes_openEvent, List.append_nil]
    rcases List.mem_append.mp (opens_append ▸ hopen) with ho | ho
    · exact h.settled x hx ho
    · obtain rfl : x = id := by simpa using ho
      exact absurd hx hnotClosed

theorem Ledger.openRefused (h : Ledger ids opened (.opening i streamid) pushed closed) :
    Ledger ids opened (.refused i) pushed closed := by
  refine { h with opening := ?_, refused := ?_, known := ?_, finishing := ?_, unclosed := ?_ }
  · intro j s hj
    cases hj
  · intro j hj
    cases hj
    obtain ⟨id, hid, hnot, _⟩ := h.opening i streamid rfl
    exact ⟨id, hid, hnot⟩
  · intro j id hid
    rcases h.known j id hid with hk | ⟨s, hs⟩ | hr
    · exact Or.inl hk
    · cases hs
      exact Or.inr (Or.inr rfl)
    · cases hr
  · rintro j (hj | hj) <;> cases hj
  · intro j id hid hclose
    rcases h.unclosed j id hid hclose with hs | hs <;> cases hs

theorem Ledger.release (h : Ledger ids opened thread pushed closed) (i : Fin maxSessions) :
    (∀ j id, Function.update ids i none j = some id → id ≤ opened) ∧
      ∀ j k id, Function.update ids i none j = some id →
        Function.update ids i none k = some id → j = k := by
  constructor
  · intro j x hj
    rcases SlotTable.update_some hj with ⟨_, hx⟩ | ⟨_, hx⟩
    · cases hx
    · exact h.fresh j x hx
  · intro j k x hj hk
    rcases SlotTable.update_some hj with ⟨_, hx⟩ | ⟨_, hx⟩
    · cases hx
    · rcases SlotTable.update_some hk with ⟨_, hy⟩ | ⟨_, hy⟩
      · cases hy
      · exact h.distinct j k x hx hy

theorem Ledger.refusedReleased (h : Ledger ids opened (.refused i) pushed closed)
    (hid : ids i = some id) :
    Ledger (Function.update ids i none) opened .poll pushed (closed ++ [id]) := by
  obtain ⟨id', hid', hnot⟩ := h.refused i rfl
  obtain rfl : id = id' := by simpa [hid] using hid'
  obtain ⟨hfresh, hdistinct⟩ := h.release i
  refine ⟨hfresh, hdistinct, h.opensLe, h.once, h.paired, ?_, ?_, ?_, ?_, ?_, ?_, ?_⟩
  · intro j s hj
    cases hj
  · intro j hj
    cases hj
  · intro j x hj
    rcases SlotTable.update_some hj with ⟨_, hx⟩ | ⟨hne, hx⟩
    · cases hx
    · rcases h.known j x hx with hk | ⟨s, hs⟩ | hr
      · exact Or.inl hk
      · cases hs
      · cases hr
        exact absurd rfl hne
  · rintro j (hj | hj) <;> cases hj
  · intro j x hj hclose
    rcases SlotTable.update_some hj with ⟨_, hx⟩ | ⟨_, hx⟩
    · cases hx
    · rcases h.unclosed j x hx hclose with hs | hs <;> cases hs
  · intro x hx
    rcases List.mem_append.mp hx with hx | hx
    · exact h.closedLe x hx
    · obtain rfl : x = id := by simpa using hx
      exact h.fresh i x hid
  · intro x hx hopen
    rcases List.mem_append.mp hx with hx | hx
    · exact h.settled x hx hopen
    · obtain rfl : x = id := by simpa using hx
      exact absurd hopen hnot

theorem Ledger.closeQueued (h : Ledger ids opened thread pushed closed) (hq : Quiet thread)
    (hid : ids i = some id) {state : SessionState} (hstate : state.id = id) :
    Ledger ids opened (.closing i) (pushed ++ [closeEvent state]) closed := by
  have hknown : id ∈ opens pushed := by
    rcases h.known i id hid with hk | ⟨_, rfl⟩ | rfl
    · exact hk
    · exact hq.elim
    · exact hq.elim
  have hopens : opens (pushed ++ [closeEvent state]) = opens pushed := by simp
  have hcloses : closes (pushed ++ [closeEvent state]) = closes pushed ++ [id] := by
    simp [hstate]
  refine ⟨h.fresh, h.distinct, hopens ▸ h.opensLe, hopens ▸ h.once, ?_, ?_, ?_, ?_, ?_, ?_,
    h.closedLe, ?_⟩
  · intro before hpre
    rcases List.prefix_concat_iff.mp hpre with rfl | hpre
    · rw [hopens, hcloses]
      intro x hx
      rcases List.mem_append.mp hx with hx | hx
      · exact h.paired pushed (List.prefix_refl pushed) hx
      · obtain rfl : x = id := by simpa using hx
        exact hknown
    · exact h.paired before hpre
  · intro j s hj
    cases hj
  · intro j hj
    cases hj
  · intro j x hj
    rw [hopens]
    rcases h.known j x hj with hk | ⟨_, rfl⟩ | rfl
    · exact Or.inl hk
    · exact hq.elim
    · exact hq.elim
  · rintro j (hj | hj)
    · cases hj
      exact ⟨id, hid, by rw [hcloses]; exact List.mem_append_right _ (by simp)⟩
    · cases hj
  · intro j x hj hclose
    rw [hcloses] at hclose
    rcases List.mem_append.mp hclose with hclose | hclose
    · exact absurd hclose (h.quiet_unclosed hq hj)
    · obtain rfl : x = id := by simpa using hclose
      rw [h.distinct i j x hid hj]
      exact Or.inl rfl
  · intro x hx hopen
    rw [hopens] at hopen
    rw [hcloses]
    exact List.mem_append_left _ (h.settled x hx hopen)

theorem Ledger.transportClosed (h : Ledger ids opened (.closing i) pushed closed)
    (hid : ids i = some id) : Ledger ids opened (.releasing i) pushed (closed ++ [id]) := by
  obtain ⟨id', hid', hclose⟩ := h.finishing i (Or.inl rfl)
  obtain rfl : id = id' := by simpa [hid] using hid'
  refine { h with opening := ?_, refused := ?_, known := ?_, finishing := ?_, unclosed := ?_,
                  closedLe := ?_, settled := ?_ }
  · intro j s hj
    cases hj
  · intro j hj
    cases hj
  · intro j x hj
    rcases h.known j x hj with hk | ⟨_, hs⟩ | hs
    · exact Or.inl hk
    · cases hs
    · cases hs
  · rintro j (hj | hj)
    · cases hj
    · cases hj
      exact ⟨id, hid, hclose⟩
  · intro j x hj hx
    rcases h.unclosed j x hj hx with hs | hs
    · cases hs
      exact Or.inr rfl
    · cases hs
  · intro x hx
    rcases List.mem_append.mp hx with hx | hx
    · exact h.closedLe x hx
    · obtain rfl : x = id := by simpa using hx
      exact h.fresh i x hid
  · intro x hx hopen
    rcases List.mem_append.mp hx with hx | hx
    · exact h.settled x hx hopen
    · obtain rfl : x = id := by simpa using hx
      exact hclose

theorem Ledger.released (h : Ledger ids opened (.releasing i) pushed closed) :
    Ledger (Function.update ids i none) opened .notify pushed closed := by
  obtain ⟨hfresh, hdistinct⟩ := h.release i
  refine ⟨hfresh, hdistinct, h.opensLe, h.once, h.paired, ?_, ?_, ?_, ?_, ?_, h.closedLe,
    h.settled⟩
  · intro j s hj
    cases hj
  · intro j hj
    cases hj
  · intro j x hj
    rcases SlotTable.update_some hj with ⟨_, hx⟩ | ⟨_, hx⟩
    · cases hx
    · rcases h.known j x hx with hk | ⟨_, hs⟩ | hs
      · exact Or.inl hk
      · cases hs
      · cases hs
  · rintro j (hj | hj) <;> cases hj
  · intro j x hj hclose
    rcases SlotTable.update_some hj with ⟨_, hx⟩ | ⟨hne, hx⟩
    · cases hx
    · rcases h.unclosed j x hx hclose with hs | hs
      · cases hs
      · cases hs
        exact absurd rfl hne

end Ledger

def ids (sessions : Fin maxSessions → Option SessionState) (i : Fin maxSessions) : Option ℕ :=
  (sessions i).map SessionState.id

def LedgerOf (w : World) : Prop :=
  Ledger (ids w.ingest.sessions) w.ingest.sessionsOpened w.thread w.pushed w.transportClosed

theorem LedgerOf.of_pc {pc : ThreadPc} (h : LedgerOf w) (hpc : w.thread = pc) :
    Ledger (ids w.ingest.sessions) w.ingest.sessionsOpened pc w.pushed w.transportClosed := by
  rw [← hpc]
  exact h

theorem ids_update (sessions : Fin maxSessions → Option SessionState) (i : Fin maxSessions)
    (state : Option SessionState) :
    ids (Function.update sessions i state) =
      Function.update (ids sessions) i (state.map SessionState.id) := by
  funext j
  by_cases hj : j = i
  · subst j
    simp [ids]
  · simp [ids, hj]

theorem ids_replace {sessions : Fin maxSessions → Option SessionState} {i : Fin maxSessions}
    {state next : SessionState} (hs : sessions i = some state) (hid : next.id = state.id) :
    ids (Function.update sessions i (some next)) = ids sessions := by
  rw [ids_update, Option.map_some, hid, Function.update_eq_self_iff]
  simp [ids, hs]

theorem ids_closeSession (g : Ingest) (id : ℕ) :
    ids (closeSession g id).sessions = ids g.sessions := by
  unfold closeSession
  split
  · rfl
  · next i hfind =>
    obtain ⟨state, hs, _⟩ := SlotTable.find_some hfind
    simp only [hs, Option.map_some]
    refine ids_replace hs ?_
    rfl

structure Bound (w : World) : Prop where
  split : w.pushed = w.handled ++ w.eventBatch ++ w.ingest.events
  held : ∀ i slot, w.slots i = some slot →
    slot.id ∈ opens w.handled ∧ slot.id ∉ closes w.handled
  distinct : SlotTable.Distinct Slot.id w.slots

structure Inv (w : World) : Prop where
  ledger : LedgerOf w
  bound : Bound w

/-- What the worker keeps depends on neither the thread nor the session table. -/
theorem Bound.of_same {v : World} (h : Bound w) (hslots : v.slots = w.slots)
    (hhandled : v.handled = w.handled) (hworker : v.worker = w.worker)
    (hsplit : v.pushed = w.handled ++ w.eventBatch ++ v.ingest.events) : Bound v := by
  have hbatch : v.eventBatch = w.eventBatch := by simp only [World.eventBatch, hworker]
  refine ⟨by rw [hhandled, hbatch]; exact hsplit, ?_, by rw [hslots]; exact h.distinct⟩
  rw [hslots, hhandled]
  exact h.held

theorem Bound.push (h : Bound w) (event : Event) (pc : ThreadPc) : Bound (w.push event pc) := by
  refine h.of_same rfl rfl rfl ?_
  by_cases hfull : w.ingest.eventsFull = true
  · simp only [World.push, eventPush, hfull, if_true]
    exact h.split
  · simp only [World.push, eventPush, hfull]
    rw [if_neg Bool.false_ne_true, if_neg Bool.false_ne_true, h.split]
    simp only [List.append_assoc]

theorem bound_threadStep (h : Bound w) (written : Bool) : Bound (threadStep w written) := by
  cases hpc : w.thread with
  | opening i streamid =>
    simp only [threadStep, hpc]
    split
    · exact h
    · split
      · exact h.push _ _
      · exact (h.push _ _).of_same rfl rfl rfl (h.push _ _).split
  | write =>
    simp only [threadStep, hpc]
    split
    · exact h.of_same rfl rfl rfl h.split
    · exact h.of_same rfl rfl rfl h.split
  | start | poll | refused | closing | releasing | notify | set | unset =>
    simp only [threadStep, hpc]
    exact h.of_same rfl rfl rfl h.split

theorem ledger_threadStep (h : LedgerOf w) (written : Bool) : LedgerOf (threadStep w written) := by
  cases hpc : w.thread with
  | start => simpa only [threadStep, hpc] using h
  | poll => simpa only [threadStep, hpc] using h
  | opening i streamid =>
    have hl := h.of_pc hpc
    obtain ⟨id, hid, _⟩ := hl.opening i streamid rfl
    obtain ⟨state, hs, rfl⟩ := Option.map_eq_some_iff.mp hid
    simp only [threadStep, hpc, hs]
    by_cases hfull : w.ingest.eventsFull = true
    · rw [if_pos hfull]
      simpa [LedgerOf, World.push, eventPush, hfull] using hl.openRefused
    · rw [if_neg hfull]
      simpa [LedgerOf, World.push, eventPush, hfull] using hl.openQueued hid
  | refused i =>
    have hl := h.of_pc hpc
    obtain ⟨id, hid, _⟩ := hl.refused i rfl
    obtain ⟨state, hs, rfl⟩ := Option.map_eq_some_iff.mp hid
    have hnext := hl.refusedReleased hid
    simpa only [threadStep, hpc, LedgerOf, sessionStateRelease, ids_update, hs, Option.map_some,
      Option.map_none, Option.toList_some] using hnext
  | closing i =>
    have hl := h.of_pc hpc
    obtain ⟨id, hid, _⟩ := hl.finishing i (Or.inl rfl)
    obtain ⟨state, hs, rfl⟩ := Option.map_eq_some_iff.mp hid
    have hnext := hl.transportClosed hid
    simpa only [threadStep, hpc, LedgerOf, hs, Option.map_some, Option.toList_some] using hnext
  | releasing i =>
    have hl := h.of_pc hpc
    have hnext := hl.released
    simpa only [threadStep, hpc, LedgerOf, sessionStateRelease, ids_update,
      Option.map_none] using hnext
  | notify =>
    simp only [threadStep, hpc]
    refine Ledger.moved h (by rw [hpc]; trivial) ?_
    split <;> trivial
  | set =>
    simp only [threadStep, hpc]
    exact Ledger.moved h (by rw [hpc]; trivial) trivial
  | write =>
    simp only [threadStep, hpc]
    split
    · exact Ledger.moved h (by rw [hpc]; trivial) trivial
    · exact Ledger.moved h (by rw [hpc]; trivial) trivial
  | unset =>
    simp only [threadStep, hpc]
    exact Ledger.moved h (by rw [hpc]; trivial) trivial

theorem ledger_closeSession (h : LedgerOf w) (id : ℕ) :
    LedgerOf { w with ingest := closeSession w.ingest id } := by
  have hopened : (closeSession w.ingest id).sessionsOpened = w.ingest.sessionsOpened := by
    rw [closeSession_frame]
  unfold LedgerOf
  rw [ids_closeSession, hopened]
  exact h

theorem ledger_handleEvent (h : LedgerOf w) (event : Event) :
    LedgerOf (handleEvent mem admits w event) := by
  unfold handleEvent
  split
  · exact h
  · exact h
  · unfold slotOpen
    split
    · split
      · exact h
      · exact ledger_closeSession h _
    · exact ledger_closeSession h _
  · unfold slotClose
    split
    · exact h
    · exact h

theorem ledger_workerStep (h : LedgerOf w) : LedgerOf (workerStep mem admits w) := by
  cases hpc : w.worker with
  | idle =>
    simp only [workerStep, hpc]
    exact h
  | taken =>
    simp only [workerStep, hpc]
    exact h
  | events batch =>
    cases batch with
    | nil =>
      rcases workerStep_eventRead mem admits hpc with ⟨_, heq⟩ | ⟨_, _, _, _, heq⟩ <;>
        (rw [heq]; exact h)
    | cons event rest =>
      simp only [workerStep, hpc]
      exact ledger_handleEvent h event
  | chunks batch =>
    cases batch with
    | nil =>
      rcases workerStep_chunkRead mem admits hpc with ⟨_, heq⟩ | ⟨_, _, _, _, _, heq⟩ <;>
        (rw [heq]; exact h)
    | cons chunk rest =>
      simp only [workerStep, hpc]
      obtain ⟨slots, heq⟩ := handleChunk_frame mem w chunk
      rw [heq]
      exact h

theorem Inv.opened_new (h : Inv w) {event : Event} {rest : List Event}
    (hbatch : w.eventBatch = event :: rest) (hopen : event.type = .opened) :
    event.sessionId ∉ opens w.handled ∧ event.sessionId ∉ closes w.handled := by
  have hsplit : w.pushed = w.handled ++ (event :: rest ++ w.ingest.events) := by
    rw [h.bound.split, hbatch, List.append_assoc]
  have honce := h.ledger.once
  rw [hsplit, opens_append, List.nodup_append] at honce
  have hnot : event.sessionId ∉ opens w.handled := by
    intro hm
    refine honce.2.2 _ hm event.sessionId ?_ rfl
    simp [opens, hopen]
  refine ⟨hnot, fun hm => hnot (h.ledger.paired w.handled ?_ hm)⟩
  rw [hsplit]
  exact List.prefix_append _ _

theorem Inv.held_handleEvent (h : Inv w) {event : Event} {rest : List Event}
    (hbatch : w.eventBatch = event :: rest) :
    (∀ i slot, (handleEvent mem admits w event).slots i = some slot →
      slot.id ∈ opens (w.handled ++ [event]) ∧ slot.id ∉ closes (w.handled ++ [event])) ∧
    SlotTable.Distinct Slot.id (handleEvent mem admits w event).slots := by
  have hkeep : closes [event] = [] → ∀ i slot, w.slots i = some slot →
      slot.id ∈ opens (w.handled ++ [event]) ∧ slot.id ∉ closes (w.handled ++ [event]) := by
    intro hc i slot hs
    obtain ⟨hopen, hclose⟩ := h.bound.held i slot hs
    rw [opens_append, closes_append, hc, List.append_nil]
    exact ⟨List.mem_append_left _ hopen, hclose⟩
  cases htype : event.type with
  | ready =>
    simp only [handleEvent, htype]
    exact ⟨hkeep (by simp [closes_single, htype]), h.bound.distinct⟩
  | failed =>
    simp only [handleEvent, htype]
    exact ⟨hkeep (by simp [closes_single, htype]), h.bound.distinct⟩
  | opened =>
    have hnone : closes [event] = [] := by simp [closes_single, htype]
    obtain ⟨hopen, hclose⟩ := h.opened_new hbatch htype
    simp only [handleEvent, htype, slotOpen]
    split
    · next i hfree =>
      split
      · constructor
        · intro j slot hj
          rcases SlotTable.update_some hj with ⟨_, hslot⟩ | ⟨_, hslot⟩
          · cases hslot
            rw [opens_append, closes_append, hnone, List.append_nil, opens_single, if_pos htype]
            exact ⟨List.mem_append_right _ (by simp), hclose⟩
          · exact hkeep hnone j slot hslot
        · apply h.bound.distinct.store
          intro j slot hj hkey
          refine absurd (h.bound.held j slot hj).1 ?_
          rw [hkey]
          exact hopen
      · exact ⟨hkeep hnone, h.bound.distinct⟩
    · exact ⟨hkeep hnone, h.bound.distinct⟩
  | closed =>
    have hsome : closes [event] = [event.sessionId] := by simp [closes_single, htype]
    have hopens : opens (w.handled ++ [event]) = opens w.handled := by
      simp [opens_single, htype]
    rw [hopens, closes_append, hsome]
    simp only [handleEvent, htype, slotClose]
    split
    · next hfind =>
      refine ⟨?_, h.bound.distinct⟩
      intro j slot hj
      have hne : slot.id ≠ event.sessionId := by simpa using SlotTable.find_none hfind hj
      refine ⟨(h.bound.held j slot hj).1, ?_⟩
      simpa [hne] using (h.bound.held j slot hj).2
    · next i hfind =>
      obtain ⟨found, hfound, hid⟩ := SlotTable.find_some hfind
      refine ⟨?_, h.bound.distinct.release i⟩
      intro j slot hj
      rcases SlotTable.update_some hj with ⟨_, hslot⟩ | ⟨hne, hslot⟩
      · cases hslot
      · have hother : slot.id ≠ event.sessionId := by
          intro he
          refine hne (h.bound.distinct j i slot found hslot hfound ?_)
          rw [he]
          exact (of_decide_eq_true hid).symm
        refine ⟨(h.bound.held j slot hslot).1, ?_⟩
        simpa [hother] using (h.bound.held j slot hslot).2

theorem bound_workerStep (h : Inv w) : Bound (workerStep mem admits w) := by
  cases hpc : w.worker with
  | idle =>
    simp only [workerStep, hpc]
    refine ⟨?_, h.bound.held, h.bound.distinct⟩
    simpa [World.eventBatch, hpc] using h.bound.split
  | taken =>
    simp only [workerStep, hpc]
    refine ⟨?_, h.bound.held, h.bound.distinct⟩
    simpa [World.eventBatch, hpc] using h.bound.split
  | events batch =>
    have hbatch : w.eventBatch = batch := by simp only [World.eventBatch, hpc]
    have hsplit := h.bound.split
    rw [hbatch] at hsplit
    cases batch with
    | nil =>
      rcases workerStep_eventRead mem admits hpc with ⟨hnone, heq⟩ | ⟨e, batch, rest, hring, heq⟩
      · rw [heq]
        exact ⟨hsplit, h.bound.held, h.bound.distinct⟩
      · rw [heq]
        refine ⟨?_, h.bound.held, h.bound.distinct⟩
        simpa [World.eventBatch, hring] using hsplit
    | cons event rest =>
      simp only [workerStep, hpc]
      obtain ⟨hheld, hdistinct⟩ := @Inv.held_handleEvent mem admits _ h _ _ hbatch
      obtain ⟨sessions, slots, closedSlots, heq⟩ := handleEvent_frame mem admits w event
      rw [heq] at hheld hdistinct ⊢
      refine ⟨?_, hheld, hdistinct⟩
      simpa [World.eventBatch] using hsplit
  | chunks batch =>
    have hsplit : w.pushed = w.handled ++ [] ++ w.ingest.events := by
      simpa only [World.eventBatch, hpc] using h.bound.split
    cases batch with
    | nil =>
      rcases workerStep_chunkRead mem admits hpc with ⟨_, heq⟩ | ⟨_, _, _, _, _, heq⟩ <;>
        (rw [heq]; exact ⟨hsplit, h.bound.held, h.bound.distinct⟩)
    | cons chunk rest =>
      simp only [workerStep, hpc, handleChunk]
      split
      · exact ⟨hsplit, h.bound.held, h.bound.distinct⟩
      · next i hfind =>
        obtain ⟨found, hfound, _⟩ := SlotTable.find_some hfind
        rw [hfound, Option.map_some]
        refine ⟨hsplit, ?_, h.bound.distinct.replace hfound rfl⟩
        intro j slot hj
        rcases SlotTable.update_some hj with ⟨_, hslot⟩ | ⟨_, hslot⟩
        · cases hslot
          exact h.bound.held i found hfound
        · exact h.bound.held j slot hslot

theorem inv_start (eventsCapacity maxChunks maxBytes : ℕ) :
    Inv (start eventsCapacity maxChunks maxBytes) := by
  constructor
  · constructor <;> simp [start, ids]
  · constructor
    · rfl
    · intro i slot hs
      cases hs
    · exact SlotTable.distinct_empty _

theorem inv_finish (h : Inv w) {i : Fin maxSessions} {state : SessionState}
    (hs : w.ingest.sessions i = some state) (hpoll : w.thread = .poll)
    (hroom : w.ingest.eventsFull = false) : Inv (sessionFinish w i state) := by
  refine ⟨?_, h.bound.push _ _⟩
  have hid : ids w.ingest.sessions i = some state.id := by simp [ids, hs]
  have hnext := Ledger.closeQueued h.ledger (by rw [hpoll]; trivial) hid rfl
  simpa [LedgerOf, sessionFinish, World.push, eventPush, hroom] using hnext

theorem inv_listen (h : Inv w) (hstart : w.thread = .start) (ok : Bool) : Inv (listen w ok) := by
  have hbound := h.bound.push ⟨if ok then .ready else .failed, 0, 0, 0, []⟩ .notify
  refine ⟨?_, hbound.of_same rfl rfl rfl hbound.split⟩
  have hquiet : Quiet w.thread := by rw [hstart]; trivial
  have hopens : opens [⟨if ok then .ready else .failed, 0, 0, 0, []⟩] = [] := by
    cases ok <;> rfl
  have hcloses : closes [⟨if ok then .ready else .failed, 0, 0, 0, []⟩] = [] := by
    cases ok <;> rfl
  have hmoved : Quiet .notify := trivial
  by_cases hfull : w.ingest.eventsFull = true
  · simpa [LedgerOf, SrtIngest.listen, World.push, eventPush, hfull] using
      Ledger.moved h.ledger hquiet hmoved
  · simpa [LedgerOf, SrtIngest.listen, World.push, eventPush, hfull] using
      (Ledger.announced h.ledger hopens hcloses).moved hquiet hmoved

theorem inv_accept (h : Inv w) (hpoll : w.thread = .poll) (streamid : List UInt8) :
    Inv (sessionOpen w streamid) := by
  unfold sessionOpen
  split
  · exact ⟨h.ledger, h.bound.of_same rfl rfl rfl h.bound.split⟩
  · next i hfree =>
    refine ⟨?_, h.bound.of_same rfl rfl rfl h.bound.split⟩
    have hnone : ids w.ingest.sessions i = none := by simp [ids, SlotTable.alloc_free hfree]
    have hnext := Ledger.accepted h.ledger (by rw [hpoll]; trivial) hnone streamid
    simpa only [LedgerOf, ids_update, Option.map_some] using hnext

theorem inv_receive (h : Inv w) {i : Fin maxSessions} {state : SessionState}
    (hs : w.ingest.sessions i = some state) (hpoll : w.thread = .poll) (data : List UInt8) :
    Inv (receive w i state data) := by
  unfold receive
  split
  · exact h
  · refine ⟨?_, h.bound.of_same rfl rfl rfl h.bound.split⟩
    have hids := @ids_replace _ _ _ { state with
      bytes := state.bytes + data.length, chunks := state.chunks + 1 } hs rfl
    simp only [LedgerOf, hids]
    exact Ledger.moved h.ledger (by rw [hpoll]; trivial) trivial

theorem inv_step (h : Inv w) {call : Call} (hfits : FinishFits w call) :
    Inv (step mem admits w call) := by
  cases call with
  | listen ok =>
    simp only [step]
    split
    · next hstart => exact inv_listen h hstart ok
    · exact h
  | accept streamid =>
    simp only [step]
    split
    · next hpoll => exact inv_accept h hpoll.2 streamid
    · exact h
  | receive i data =>
    simp only [step]
    split
    · exact h
    · next state hs =>
      split
      · next hpoll => exact inv_receive h hs hpoll data
      · exact h
  | disconnect i =>
    simp only [step]
    split
    · exact h
    · next state hs =>
      split
      · next hpoll => exact inv_finish h hs hpoll (hfits ⟨hpoll, by simp [hs]⟩)
      · exact h
  | requested i =>
    simp only [step]
    split
    · exact h
    · next state hs =>
      split
      · next hpoll =>
        exact inv_finish h hs hpoll.1 (hfits ⟨hpoll.1, by simpa [hs] using hpoll.2⟩)
      · exact h
  | closeSession id =>
    refine ⟨ledger_closeSession h.ledger id, h.bound.of_same rfl rfl rfl ?_⟩
    simp only [step]
    rw [closeSession_frame]
    exact h.bound.split
  | thread written => exact ⟨ledger_threadStep h.ledger written, bound_threadStep h.bound written⟩
  | worker => exact ⟨ledger_workerStep h.ledger, bound_workerStep h⟩

theorem Inv.accounted (h : Inv w) : Accounted w := by
  have hsplit : w.pushed = read w ++ w.ingest.events := h.bound.split
  have honce := h.ledger.once
  rw [hsplit, opens_append] at honce
  have hclosed : ∀ id ∈ opens w.pushed, id ∈ w.transportClosed →
      id ∈ closes w.ingest.events ∨ id ∈ closes (read w) := by
    intro id hopen hid
    have hclose := h.ledger.settled id hid hopen
    rw [hsplit, closes_append, List.mem_append] at hclose
    exact hclose.symm
  refine ⟨(List.nodup_append.mp honce).1, hclosed, ?_⟩
  intro i slot hs hid
  obtain ⟨hopen, hnot⟩ := h.bound.held i slot hs
  have hpushed : slot.id ∈ opens w.pushed := by
    rw [h.bound.split, opens_append, opens_append]
    exact List.mem_append_left _ (List.mem_append_left _ hopen)
  rcases hclosed slot.id hpushed hid with hring | hread
  · exact Or.inl hring
  · rw [read, closes_append, List.mem_append] at hread
    exact Or.inr (hread.resolve_left hnot)

/-- Every session the worker opened is closed, in every run in which a session is finished only
while the event ring has room. -/
theorem sessions_closed (mem : TsDemux.Memory) (admits : ℕ → Bool)
    (eventsCapacity maxChunks maxBytes : ℕ) {calls : List Call}
    (hfits : StepRun.Meets (step mem admits) FinishFits (start eventsCapacity maxChunks maxBytes)
      calls) : Accounted (run mem admits (start eventsCapacity maxChunks maxBytes) calls) := by
  have hstep : ∀ v call, Inv v → FinishFits v call → Inv (step mem admits v call) :=
    fun _ _ h hok => inv_step h hok
  exact (StepRun.invariant_of_meets hstep (inv_start _ _ _) hfits).accounted

def notifies : List Call := [.thread true, .thread true, .thread true]

def handler : List Call := List.replicate 8 .worker

/-- A publisher comes and goes while the worker is up to date. -/
def visit : List Call :=
  [.listen true] ++ notifies ++ handler ++ [.accept [0x6B], .thread true] ++ notifies ++ handler ++
    [.receive 0 [0x47]] ++ notifies ++ handler ++ [.disconnect 0, .thread true, .thread true] ++
    notifies ++ handler

theorem sessions_closed_visit :
    Accounted (run ⟨true, fun _ => true⟩ (fun _ => true) (start 2 16 4096) visit) :=
  sessions_closed _ _ 2 16 4096 (by decide +kernel)

/-- The same while the worker is busy elsewhere, with a ring of two events. -/
def stalled : List Call :=
  [.listen true] ++ notifies ++ [.accept [0x6B], .thread true] ++ notifies ++
    [.disconnect 0, .thread true, .thread true] ++ notifies ++ handler

/-- The ring holds READY and OPEN, so the CLOSE is dropped. The worker reads what there is and its
slot stays bound to a session that no longer exists. -/
theorem close_dropped :
    ¬ Accounted (run ⟨true, fun _ => true⟩ (fun _ => true) (start 2 16 4096) stalled) ∧
      ((run ⟨true, fun _ => true⟩ (fun _ => true) (start 2 16 4096) stalled).slots 0).isSome ∧
      (run ⟨true, fun _ => true⟩ (fun _ => true) (start 2 16 4096) stalled).pushed =
        [⟨.ready, 0, 0, 0, []⟩, openEvent 1 [0x6B]] := by
  refine ⟨?_, by decide +kernel, by decide +kernel⟩
  intro h
  have hclose := h.closed 1 (by decide +kernel) (by decide +kernel)
  revert hclose
  decide +kernel

end SrtSessions
