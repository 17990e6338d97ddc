import NginxMedia.GraphWire
import NginxMedia.IpcFrame
import NginxMedia.SlotTable
import NginxMedia.StepRun

/-! The repair journal of the graph: an operation is entered before it is broadcast, cleared
when one broadcast has reached every connected peer, and sent again from the tick otherwise.
What goes over the sockets is kept as a history that no function reads. -/
namespace GraphJournal

open MediaTypes MediaGraph GraphWire IpcFrame

def capacity : ℕ := 256
def perTick : ℕ := 4

def msgGraph : ℕ := 10

/-- `ngx_media_graph_repair_t` of a used slot; the payload is the number of its buffer. -/
structure Entry where
  header : Header
  payload : ℕ
  length : ℕ
  deriving DecidableEq

structure Buffer where
  bytes : List UInt8
  refs : ℤ
  deriving DecidableEq, Repr

/-- What one `ngx_media_ipc_send()` wrote to one peer. -/
structure Transmission where
  peer : ℕ
  payload : ℕ
  datagrams : List Datagram
  deriving DecidableEq

/-- The worker's place: `worker_processes`, whether `ngx_media_route_worker_init()` has run, and
its own slot. -/
structure Config where
  workerProcesses : ℕ
  started : Bool
  slot : ℕ

def Config.workerCount (cfg : Config) : ℕ :=
  if cfg.workerProcesses = 0 then 1 else cfg.workerProcesses

def Config.routeWorkers (cfg : Config) : ℕ := if cfg.started then cfg.workerCount else 0

structure State where
  journal : Fin capacity → Option Entry
  cursor : ℕ
  /-- the peers whose endpoint is open -/
  endpoints : ℕ → Bool
  buffers : List Buffer
  /-- everything written to the sockets, oldest first -/
  sent : List Transmission

def addressed (cfg : Config) (s : State) : List ℕ :=
  if cfg.routeWorkers < 2 ∨ cfg.slot ≥ cfg.routeWorkers then []
  else (List.range cfg.routeWorkers).filter fun i => i != cfg.slot && s.endpoints i

def bytesOf (s : State) (payload : ℕ) : List UInt8 :=
  match s.buffers[payload]? with
  | none => []
  | some buf => buf.bytes

def message (s : State) (header : Header) (payload length : ℕ) : List Datagram :=
  IpcFrame.send header ((bytesOf s payload).take length)

def broadcast (cfg : Config) (s : State) (header : Header) (payload length : ℕ)
    (written : ℕ → ℕ) : ℕ × ℕ × State :=
  let peers := addressed cfg s
  let datagrams := message s header payload length
  let took := peers.filter fun i => decide (datagrams.length ≤ written i)
  (peers.length, took.length,
    { s with
      sent := s.sent ++ peers.map fun i => ⟨i, payload, datagrams.take (written i)⟩ })

def addRefs (s : State) (payload : ℕ) (change : ℤ) : State :=
  { s with
    buffers := s.buffers.modify payload fun buf => { buf with refs := buf.refs + change } }

def repairEnqueue (s : State) (header : Header) (payload length : ℕ) :
    Option (Fin capacity × State) :=
  if length = 0 then none
  else
    match SlotTable.alloc s.journal with
    | none => none
    | some i =>
      some (i, addRefs { s with
        journal := Function.update s.journal i (some ⟨header, payload, length⟩) } payload 1)

def repairClear (s : State) (i : Fin capacity) : State :=
  match s.journal i with
  | none => s
  | some e => addRefs { s with journal := Function.update s.journal i none } e.payload (-1)

def nextUsed (s : State) : Option (Fin capacity) :=
  ((List.range capacity).map fun offset =>
    (⟨(s.cursor + offset) % capacity, Nat.mod_lt _ (by decide)⟩ : Fin capacity)).find? fun i =>
      (s.journal i).isSome

/-- One attempt of `ngx_media_graph_repair_tick()`; nothing when the journal is empty. -/
def repairAttempt (cfg : Config) (s : State) (written : ℕ → ℕ) : Option State :=
  match nextUsed s with
  | none => none
  | some i =>
    match s.journal i with
    | none => none
    | some e =>
      match broadcast cfg { s with cursor := (i + 1) % capacity } e.header e.payload e.length
          written with
      | (peers, delivered, s) =>
        some (if peers > 0 ∧ delivered = peers then repairClear s i else s)

def repairTick (cfg : Config) : List (ℕ → ℕ) → State → State
  | [], s => s
  | written :: rest, s =>
    match repairAttempt cfg s written with
    | none => s
    | some s => repairTick cfg rest s

def graphHeader (op : Op) : Header where
  version := ipcVersion
  type := msgGraph
  flags := 0
  length := 0
  total := 0
  offset := 0
  hash := (ownerHash op.application op.name).toNat
  incarnation := op.incarnation
  sequence := 0
  pts := 0
  dts := 0
  mediaType := 0
  codec := 0
  payloadFormat := 0
  trackIndex := 0
  keyframe := 0
  config := 0
  sourceType := 0
  priority := 0
  session := 0

def sendReserved (cfg : Config) (s : State) (header : Header) (payload length : ℕ)
    (reserved : Option (Fin capacity)) (written : ℕ → ℕ) : State × Rc :=
  match broadcast cfg s header payload length written with
  | (peers, delivered, s) =>
    if peers = 0 ∧ cfg.workerCount ≤ 1 ∨ peers > 0 ∧ delivered = peers then
      let s := match reserved with
        | none => s
        | some i => repairClear s i
      (addRefs s payload (-1), .ok)
    else (addRefs s payload (-1), .again)

def graphSend (cfg : Config) (s : State) (op : Op) (allocs : Bool) (written : ℕ → ℕ) :
    State × Rc :=
  match encode op allocs with
  | none => (s, .error)
  | some bytes =>
    let payload := s.buffers.length
    let s := { s with buffers := s.buffers ++ [⟨bytes, 1⟩] }
    if cfg.workerCount > 1 then
      match repairEnqueue s (graphHeader op) payload bytes.length with
      | none => (addRefs s payload (-1), .error)
      | some (i, s) => sendReserved cfg s (graphHeader op) payload bytes.length (some i) written
    else sendReserved cfg s (graphHeader op) payload bytes.length none written

variable {cfg : Config} {s s' : State} {header : Header} {payload length : ℕ}
variable {bytes : List UInt8} {i : Fin capacity} {e : Entry} {own : ℕ → ℤ}

def Connected (cfg : Config) (s : State) (peer : ℕ) : Prop :=
  cfg.slot < cfg.routeWorkers ∧ peer < cfg.routeWorkers ∧ peer ≠ cfg.slot ∧
    s.endpoints peer = true

def Reached (s : State) (peer : ℕ) (header : Header) (payload : ℕ) (bytes : List UInt8) : Prop :=
  ∃ t ∈ s.sent, t.peer = peer ∧ t.payload = payload ∧ t.datagrams = IpcFrame.send header bytes

def Journaled (s : State) (header : Header) (payload : ℕ) (bytes : List UInt8) : Prop :=
  (∃ i, s.journal i = some ⟨header, payload, bytes.length⟩) ∧ bytesOf s payload = bytes

def Kept (cfg : Config) (s : State) (header : Header) (payload : ℕ) (bytes : List UInt8) : Prop :=
  ∀ peer, Connected cfg s peer →
    Reached s peer header payload bytes ∨ Journaled s header payload bytes

structure Extends (s s' : State) : Prop where
  endpoints : ∀ peer, s'.endpoints peer = true → s.endpoints peer = true
  sent : ∀ t ∈ s.sent, t ∈ s'.sent
  buffers : s.buffers.length ≤ s'.buffers.length
  bytes : ∀ b, b < s.buffers.length → bytesOf s' b = bytesOf s b
  journal : ∀ i e, s.journal i = some e → s'.journal i = some e

theorem Kept.extends (hp : payload < s.buffers.length) (h : Extends s s')
    (hk : Kept cfg s header payload bytes) : Kept cfg s' header payload bytes := by
  rintro peer ⟨hslot, hlt, hne, hopen⟩
  rcases hk peer ⟨hslot, hlt, hne, h.endpoints peer hopen⟩ with ⟨t, ht, hpeer, hpay, hdata⟩ | hj
  · exact Or.inl ⟨t, h.sent t ht, hpeer, hpay, hdata⟩
  · obtain ⟨⟨i, hi⟩, hbytes⟩ := hj
    exact Or.inr ⟨⟨i, h.journal i _ hi⟩, (h.bytes payload hp).trans hbytes⟩

theorem addRefs_length (s : State) (payload : ℕ) (change : ℤ) :
    (addRefs s payload change).buffers.length = s.buffers.length := by
  simp [addRefs]

theorem bytesOf_addRefs (s : State) (payload : ℕ) (change : ℤ) (b : ℕ) :
    bytesOf (addRefs s payload change) b = bytesOf s b := by
  unfold bytesOf addRefs
  rw [List.getElem?_modify]
  cases s.buffers[b]? with
  | none => rfl
  | some buf =>
    by_cases hb : payload = b
    · simp [hb]
    · simp [hb]

theorem extends_addRefs (s : State) (payload : ℕ) (change : ℤ) :
    Extends s (addRefs s payload change) where
  endpoints := fun _ h => h
  sent := fun _ h => h
  buffers := (addRefs_length s payload change).ge
  bytes := fun b _ => bytesOf_addRefs s payload change b
  journal := fun _ _ h => h

theorem mem_addressed {peer : ℕ} (h : Connected cfg s peer) : peer ∈ addressed cfg s := by
  obtain ⟨hslot, hlt, hne, hopen⟩ := h
  unfold addressed
  rw [if_neg (by omega), List.mem_filter]
  exact ⟨List.mem_range.mpr hlt, by simp [hne, hopen]⟩

structure Told (cfg : Config) (s : State) (header : Header) (payload length : ℕ)
    (out : ℕ × ℕ × State) : Prop where
  forward : Extends s out.2.2
  journal : out.2.2.journal = s.journal
  buffers : out.2.2.buffers = s.buffers
  sent : ∀ t ∈ out.2.2.sent, t ∈ s.sent ∨ t.payload = payload
  delivered : out.2.1 ≤ out.1
  reached : out.2.1 = out.1 → ∀ peer, Connected cfg s peer →
    Reached out.2.2 peer header payload ((bytesOf s payload).take length)

theorem broadcast_told (cfg : Config) (s : State) (header : Header) (payload length : ℕ)
    (written : ℕ → ℕ) :
    Told cfg s header payload length (broadcast cfg s header payload length written) where
  forward := ⟨fun _ h => h, fun _ h => List.mem_append_left _ h, Nat.le_refl _, fun _ _ => rfl,
    fun _ _ h => h⟩
  journal := rfl
  buffers := rfl
  sent := by
    intro t ht
    rcases List.mem_append.mp ht with hold | hnew
    · exact Or.inl hold
    · obtain ⟨peer, _, rfl⟩ := List.mem_map.mp hnew
      exact Or.inr rfl
  delivered := List.length_filter_le _ _
  reached := by
    intro hall peer hpeer
    have hin := mem_addressed hpeer
    have hfull : (message s header payload length).length ≤ written peer := by
      have hfilter := List.length_filter_eq_length_iff.mp hall peer hin
      simpa using hfilter
    refine ⟨⟨peer, payload, (message s header payload length).take (written peer)⟩, ?_, rfl, rfl,
      List.take_of_length_le hfull⟩
    exact List.mem_append_right _ (List.mem_map.mpr ⟨peer, hin, rfl⟩)

theorem repairClear_some (h : s.journal i = some e) :
    repairClear s i =
      addRefs { s with journal := Function.update s.journal i none } e.payload (-1) := by
  unfold repairClear
  rw [h]

/-- Once an entry's message has reached every connected peer, clearing it loses no message. -/
theorem Kept.clear (hi : s.journal i = some e)
    (hreached : ∀ peer, Connected cfg s peer →
      Reached s peer e.header e.payload ((bytesOf s e.payload).take e.length))
    (hk : Kept cfg s header payload bytes) : Kept cfg (repairClear s i) header payload bytes := by
  rw [repairClear_some hi]
  intro peer hpeer
  have hbefore : Connected cfg s peer := hpeer
  rcases hk peer hbefore with hr | ⟨⟨j, hj⟩, hbytes⟩
  · exact Or.inl hr
  · by_cases hij : j = i
    · left
      rw [hij, hi] at hj
      have he := Option.some.inj hj
      have hthere := hreached peer hbefore
      rw [he, hbytes, List.take_of_length_le (Nat.le_refl _)] at hthere
      exact hthere
    · right
      refine ⟨⟨j, ?_⟩, ?_⟩
      · exact (Function.update_of_ne hij _ _).trans hj
      · rw [bytesOf_addRefs]
        exact hbytes

def Counted (s : State) (own : ℕ → ℤ) : Prop :=
  ∀ b buf, s.buffers[b]? = some buf →
    buf.refs = (SlotTable.held Entry.payload s.journal b : ℤ) + own b

theorem Counted.congr {own' : ℕ → ℤ} (h : Counted s own) (heq : ∀ b, own' b = own b) :
    Counted s own' := by
  intro b buf hget
  rw [heq b]
  exact h b buf hget

theorem Counted.addRefs (h : Counted s own) (payload : ℕ) (change : ℤ) :
    Counted (addRefs s payload change) fun b => own b + if b = payload then change else 0 := by
  intro b buf hget
  unfold GraphJournal.addRefs at hget ⊢
  dsimp only at hget ⊢
  rw [List.getElem?_modify] at hget
  cases hold : s.buffers[b]? with
  | none => simp [hold] at hget
  | some old =>
    have hrefs := h b old hold
    rw [hold, Option.map_eq_map, Option.map_some, Option.some.injEq] at hget
    by_cases hb : payload = b
    · rw [← hget, if_pos hb, if_pos hb.symm]
      dsimp only
      omega
    · rw [← hget, if_neg hb, if_neg (Ne.symm hb), Int.add_zero]
      exact hrefs

theorem Counted.store (h : Counted s own) (i : Fin capacity) (v : Option Entry) :
    Counted { s with journal := Function.update s.journal i v } fun b =>
      own b + SlotTable.weight Entry.payload b (s.journal i) -
        SlotTable.weight Entry.payload b v := by
  intro b buf hget
  have hrefs := h b buf hget
  have hheld := SlotTable.held_update Entry.payload s.journal i v b
  dsimp only
  omega

theorem Counted.clear (h : Counted s own) (i : Fin capacity) : Counted (repairClear s i) own := by
  cases hi : s.journal i with
  | none =>
    unfold repairClear
    rw [hi]
    exact h
  | some e =>
    rw [repairClear_some hi]
    refine ((h.store i none).addRefs e.payload (-1)).congr ?_
    intro b
    rw [hi, SlotTable.weight_some, SlotTable.weight_none]
    by_cases hb : b = e.payload
    · simp [hb]
    · simp [hb]

theorem Counted.enter (h : Counted s own) (hi : s.journal i = none) :
    Counted (GraphJournal.addRefs { s with journal := Function.update s.journal i (some e) }
      e.payload 1) own := by
  refine ((h.store i (some e)).addRefs e.payload 1).congr ?_
  intro b
  rw [hi, SlotTable.weight_some, SlotTable.weight_none]
  by_cases hb : b = e.payload
  · simp [hb]
  · simp [hb]

def Unused (s : State) (b : ℕ) : Prop :=
  (∀ t ∈ s.sent, t.payload ≠ b) ∧ ∀ i e, s.journal i = some e → e.payload ≠ b

structure Sound (s : State) (own : ℕ → ℤ) : Prop where
  distinct : SlotTable.Distinct Entry.payload s.journal
  known : ∀ i e, s.journal i = some e → e.payload < s.buffers.length
  written : ∀ t ∈ s.sent, t.payload < s.buffers.length
  counted : Counted s own

/-- What becomes of the messages numbered below `n`: those kept stay kept, and those of no call
stay unused. -/
structure Carries (cfg : Config) (n : ℕ) (s s' : State) : Prop where
  buffers : s.buffers.length ≤ s'.buffers.length
  kept : ∀ header payload bytes, payload < n →
    Kept cfg s header payload bytes → Kept cfg s' header payload bytes
  unused : ∀ b, b < n → Unused s b → Unused s' b

variable {n : ℕ}

theorem Carries.refl (cfg : Config) (n : ℕ) (s : State) : Carries cfg n s s where
  buffers := Nat.le_refl _
  kept := fun _ _ _ _ h => h
  unused := fun _ _ h => h

theorem Carries.trans {s'' : State} (h : Carries cfg n s s') (h' : Carries cfg n s' s'') :
    Carries cfg n s s'' where
  buffers := Nat.le_trans h.buffers h'.buffers
  kept := fun header payload bytes hp hk => h'.kept header payload bytes hp
    (h.kept header payload bytes hp hk)
  unused := fun b hb hu => h'.unused b hb (h.unused b hb hu)

theorem Carries.weaken {m : ℕ} (h : Carries cfg n s s') (hm : m ≤ n) : Carries cfg m s s' where
  buffers := h.buffers
  kept := fun header payload bytes hp => h.kept header payload bytes (Nat.lt_of_lt_of_le hp hm)
  unused := fun b hb => h.unused b (Nat.lt_of_lt_of_le hb hm)

theorem Extends.carries (h : Extends s s') (hn : n ≤ s.buffers.length)
    (hsent : ∀ t ∈ s'.sent, t ∈ s.sent ∨ n ≤ t.payload)
    (hjournal : ∀ i e, s'.journal i = some e → s.journal i = some e ∨ n ≤ e.payload) :
    Carries cfg n s s' where
  buffers := h.buffers
  kept := fun _ _ _ hp hk => hk.extends (Nat.lt_of_lt_of_le hp hn) h
  unused := by
    rintro b hb ⟨hwritten, hentered⟩
    constructor
    · intro t ht
      rcases hsent t ht with hold | hnew
      · exact hwritten t hold
      · omega
    · intro i e he
      rcases hjournal i e he with hold | hnew
      · exact hentered i e hold
      · omega

theorem Sound.addRefs (h : Sound s own) (payload : ℕ) (change : ℤ) :
    Sound (addRefs s payload change) fun b => own b + if b = payload then change else 0 where
  distinct := h.distinct
  known := fun i e he => Nat.lt_of_lt_of_le (h.known i e he) (extends_addRefs ..).buffers
  written := fun t ht => Nat.lt_of_lt_of_le (h.written t ht) (extends_addRefs ..).buffers
  counted := h.counted.addRefs payload change

theorem Sound.told {out : ℕ × ℕ × State} (h : Sound s own)
    (ht : Told cfg s header payload length out) (hp : payload < s.buffers.length) :
    Sound out.2.2 own where
  distinct := by
    rw [ht.journal]
    exact h.distinct
  known := by
    rw [ht.journal, ht.buffers]
    exact h.known
  written := by
    intro t hin
    rw [ht.buffers]
    rcases ht.sent t hin with hold | hnew
    · exact h.written t hold
    · rw [hnew]
      exact hp
  counted := by
    unfold Counted
    rw [ht.journal, ht.buffers]
    exact h.counted

theorem Sound.clear (h : Sound s own) (i : Fin capacity) : Sound (repairClear s i) own := by
  have hcounted := h.counted.clear i
  cases hi : s.journal i with
  | none =>
    unfold repairClear
    rw [hi]
    exact h
  | some e =>
    rw [repairClear_some hi] at hcounted ⊢
    refine ⟨h.distinct.release i, ?_, ?_, hcounted⟩
    · intro j x hx
      rcases SlotTable.update_some hx with ⟨_, hnone⟩ | ⟨_, hold⟩
      · cases hnone
      · exact Nat.lt_of_lt_of_le (h.known j x hold) (extends_addRefs ..).buffers
    · intro t ht
      exact Nat.lt_of_lt_of_le (h.written t ht) (extends_addRefs ..).buffers

theorem Sound.enter (h : Sound s own) (hi : s.journal i = none)
    (hp : e.payload < s.buffers.length) (hnew : ∀ j x, s.journal j = some x →
      x.payload ≠ e.payload) :
    Sound (GraphJournal.addRefs { s with journal := Function.update s.journal i (some e) }
      e.payload 1) own where
  distinct := h.distinct.store fun j y hy hkey => absurd hkey (hnew j y hy)
  known := by
    intro j x hx
    rcases SlotTable.update_some hx with ⟨_, hsame⟩ | ⟨_, hold⟩
    · rw [← Option.some.inj hsame]
      exact Nat.lt_of_lt_of_le hp (extends_addRefs ..).buffers
    · exact Nat.lt_of_lt_of_le (h.known j x hold) (extends_addRefs ..).buffers
  written := fun t ht => Nat.lt_of_lt_of_le (h.written t ht) (extends_addRefs ..).buffers
  counted := h.counted.enter hi

theorem held_none {b : ℕ} (h : ∀ i e, s.journal i = some e → e.payload ≠ b) :
    SlotTable.held Entry.payload s.journal b = 0 := by
  refine Finset.sum_eq_zero fun i _ => ?_
  cases hi : s.journal i with
  | none => rfl
  | some e => rw [SlotTable.weight_some, if_neg (h i e hi).symm]

theorem Sound.push (h : Sound s fun _ => 0) (bytes : List UInt8) :
    Sound { s with buffers := s.buffers ++ [⟨bytes, 1⟩] } fun b =>
      if b = s.buffers.length then 1 else 0 where
  distinct := h.distinct
  known := by
    intro i e he
    have hold := h.known i e he
    simp only [List.length_append]
    omega
  written := by
    intro t ht
    have hold := h.written t ht
    simp only [List.length_append]
    omega
  counted := by
    intro b buf hget
    dsimp only at hget ⊢
    by_cases hb : b = s.buffers.length
    · have hnone : SlotTable.held Entry.payload s.journal b = 0 := by
        refine held_none fun i e he => ?_
        have hlt := h.known i e he
        omega
      rw [hb, List.getElem?_concat_length, Option.some.injEq] at hget
      rw [hnone, if_pos hb, ← hget]
      rfl
    · have hlt : b < s.buffers.length := by
        have hbound := (List.getElem?_eq_some_iff.mp hget).1
        simp only [List.length_append, List.length_singleton] at hbound
        omega
      rw [List.getElem?_append_left hlt] at hget
      rw [if_neg hb]
      exact h.counted b buf hget

theorem bytesOf_push (s : State) (bytes : List UInt8) :
    bytesOf { s with buffers := s.buffers ++ [⟨bytes, 1⟩] } s.buffers.length = bytes := by
  unfold bytesOf
  rw [List.getElem?_concat_length]

theorem extends_push (s : State) (bytes : List UInt8) :
    Extends s { s with buffers := s.buffers ++ [⟨bytes, 1⟩] } where
  endpoints := fun _ h => h
  sent := fun _ h => h
  buffers := by simp
  bytes := by
    intro b hb
    unfold bytesOf
    dsimp only
    rw [List.getElem?_append_left hb]
  journal := fun _ _ h => h

theorem Told.carries {out : ℕ × ℕ × State} (h : Told cfg s header payload length out)
    (hn : n ≤ payload) (hp : payload < s.buffers.length) : Carries cfg n s out.2.2 := by
  refine h.forward.carries (by omega) ?_ ?_
  · intro t ht
    rcases h.sent t ht with hold | hnew
    · exact Or.inl hold
    · exact Or.inr (hnew ▸ hn)
  · intro i e he
    rw [h.journal] at he
    exact Or.inl he

theorem Told.carries_entry {out : ℕ × ℕ × State} (h : Told cfg s e.header e.payload length out)
    (hi : s.journal i = some e) : Carries cfg s.buffers.length s out.2.2 where
  buffers := h.forward.buffers
  kept := fun _ _ _ hp hk => hk.extends hp h.forward
  unused := by
    rintro b _ ⟨hwritten, hentered⟩
    constructor
    · intro t ht
      rcases h.sent t ht with hold | hnew
      · exact hwritten t hold
      · rw [hnew]
        exact hentered i e hi
    · rw [h.journal]
      exact hentered

theorem carries_addRefs (cfg : Config) (s : State) (hn : n ≤ s.buffers.length) (payload : ℕ)
    (change : ℤ) : Carries cfg n s (addRefs s payload change) :=
  (extends_addRefs s payload change).carries hn (fun _ ht => Or.inl ht) fun _ _ he => Or.inl he

theorem repairClear_journal {j : Fin capacity} {x : Entry}
    (h : (repairClear s i).journal j = some x) : j ≠ i ∧ s.journal j = some x := by
  cases hi : s.journal i with
  | none =>
    unfold repairClear at h
    rw [hi] at h
    refine ⟨?_, h⟩
    rintro rfl
    rw [hi] at h
    cases h
  | some e =>
    rw [repairClear_some hi] at h
    rcases SlotTable.update_some h with ⟨_, hnone⟩ | hold
    · cases hnone
    · exact hold

theorem repairClear_other {j : Fin capacity} (h : j ≠ i) :
    (repairClear s i).journal j = s.journal j := by
  cases hi : s.journal i with
  | none =>
    unfold repairClear
    rw [hi]
  | some e =>
    rw [repairClear_some hi]
    exact Function.update_of_ne h _ _

theorem carries_clear (n : ℕ) (hi : s.journal i = some e)
    (hreached : ∀ peer, Connected cfg s peer →
      Reached s peer e.header e.payload ((bytesOf s e.payload).take e.length)) :
    Carries cfg n s (repairClear s i) where
  buffers := by
    rw [repairClear_some hi]
    exact (extends_addRefs ..).buffers
  kept := fun _ _ _ _ hk => hk.clear hi hreached
  unused := by
    rintro b _ ⟨hwritten, hentered⟩
    refine ⟨?_, fun j x hx => hentered j x (repairClear_journal hx).2⟩
    rw [repairClear_some hi]
    exact hwritten

theorem not_connected (h : cfg.workerCount ≤ 1) {peer : ℕ} : ¬Connected cfg s peer := by
  rintro ⟨hslot, hlt, hne, _⟩
  unfold Config.routeWorkers at hslot hlt
  by_cases hstarted : cfg.started
  · rw [if_pos hstarted] at hslot hlt
    omega
  · rw [if_neg hstarted] at hslot
    omega

theorem carries_enter (hi : s.journal i = none) (hn : n ≤ s.buffers.length) (he : n ≤ e.payload) :
    Carries cfg n s (addRefs { s with journal := Function.update s.journal i (some e) }
      e.payload 1) := by
  have hlast := carries_addRefs cfg
    { s with journal := Function.update s.journal i (some e) } hn e.payload 1
  refine Carries.trans ?_ hlast
  refine Extends.carries ?_ hn (fun _ ht => Or.inl ht) ?_
  · refine ⟨fun _ h => h, fun _ h => h, Nat.le_refl _, fun _ _ => rfl, ?_⟩
    intro j x hx
    have hne : j ≠ i := by
      rintro rfl
      rw [hi] at hx
      cases hx
    exact (Function.update_of_ne hne _ _).trans hx
  · intro j x hx
    rcases SlotTable.update_some hx with ⟨_, hsame⟩ | ⟨_, hold⟩
    · right
      rw [← Option.some.inj hsame]
      exact he
    · exact Or.inl hold

structure Broadcasted (cfg : Config) (n : ℕ) (own : ℕ → ℤ) (header : Header) (payload : ℕ)
    (bytes : List UInt8) (reserved : Option (Fin capacity)) (s : State) (r : State × Rc) :
    Prop where
  sound : Sound r.1 fun b => own b + if b = payload then -1 else 0
  carries : Carries cfg n s r.1
  kept : Kept cfg r.1 header payload bytes
  accepted : r.2 ≠ .error
  journal : ∀ j, some j ≠ reserved → r.1.journal j = s.journal j

theorem sendReserved_spec {reserved : Option (Fin capacity)} (cfg : Config) (header : Header)
    (hs : Sound s own) (hn : n ≤ payload) (hp : payload < s.buffers.length)
    (hbytes : bytesOf s payload = bytes)
    (hreserved : ∀ i, reserved = some i → s.journal i = some ⟨header, payload, bytes.length⟩)
    (hnone : reserved = none → cfg.workerCount ≤ 1) (written : ℕ → ℕ) :
    Broadcasted cfg n own header payload bytes reserved s
      (sendReserved cfg s header payload bytes.length reserved written) := by
  have htold := broadcast_told cfg s header payload bytes.length written
  unfold sendReserved
  generalize broadcast cfg s header payload bytes.length written = out at htold ⊢
  have hsound := hs.told htold hp
  have hcarries := htold.carries hn hp
  obtain ⟨hforward, hsame, _, _, hle, hreach⟩ := htold
  obtain ⟨peers, delivered, after⟩ := out
  dsimp only at hsound hcarries hforward hsame hle hreach ⊢
  rw [hbytes, List.take_of_length_le (Nat.le_refl _)] at hreach
  have hpafter : payload < after.buffers.length := Nat.lt_of_lt_of_le hp hforward.buffers
  by_cases hall : peers = 0 ∧ cfg.workerCount ≤ 1 ∨ peers > 0 ∧ delivered = peers
  · rw [if_pos hall]
    have hthere : ∀ peer, Connected cfg after peer → Reached after peer header payload bytes :=
      fun peer hpeer => hreach (by omega) peer
        ⟨hpeer.1, hpeer.2.1, hpeer.2.2.1, hforward.endpoints peer hpeer.2.2.2⟩
    have hkept : Kept cfg after header payload bytes := fun peer hpeer => Or.inl (hthere peer hpeer)
    cases reserved with
    | none =>
      have hlast := carries_addRefs cfg after (Nat.le_refl _) payload (-1)
      refine ⟨hsound.addRefs payload (-1), hcarries.trans (hlast.weaken (by omega)),
        hlast.kept _ _ _ hpafter hkept, by simp, fun j _ => congrFun hsame j⟩
    | some i =>
      have hentry : after.journal i = some ⟨header, payload, bytes.length⟩ := by
        rw [hsame]
        exact hreserved i rfl
      have hafter : bytesOf after payload = bytes := (hforward.bytes payload hp).trans hbytes
      have hclear := carries_clear after.buffers.length hentry (by
        dsimp only
        rw [hafter, List.take_of_length_le (Nat.le_refl _)]
        exact hthere)
      have hbuffers : after.buffers.length ≤ (repairClear after i).buffers.length := hclear.buffers
      have hwhole := hclear.trans
        (carries_addRefs cfg (repairClear after i) hbuffers payload (-1))
      refine ⟨(hsound.clear i).addRefs payload (-1), hcarries.trans (hwhole.weaken (by omega)),
        hwhole.kept _ _ _ hpafter hkept, by simp, ?_⟩
      intro j hj
      have hne : j ≠ i := fun h => hj (congrArg some h)
      exact (repairClear_other hne).trans (congrFun hsame j)
  · rw [if_neg hall]
    have hkept : Kept cfg after header payload bytes := by
      intro peer hpeer
      cases reserved with
      | none => exact absurd hpeer (not_connected (hnone rfl))
      | some i =>
        refine Or.inr ⟨⟨i, ?_⟩, ?_⟩
        · rw [hsame]
          exact hreserved i rfl
        · rw [hforward.bytes payload hp, hbytes]
    have hlast := carries_addRefs cfg after (Nat.le_refl _) payload (-1)
    exact ⟨hsound.addRefs payload (-1), hcarries.trans (hlast.weaken (by omega)),
      hlast.kept _ _ _ hpafter hkept, by simp, fun j _ => congrFun hsame j⟩

theorem repairEnqueue_some (h : repairEnqueue s header payload length = some (i, s')) :
    s.journal i = none ∧
      s' = addRefs { s with
        journal := Function.update s.journal i (some ⟨header, payload, length⟩) } payload 1 := by
  unfold repairEnqueue at h
  by_cases hlength : length = 0
  · rw [if_pos hlength] at h
    cases h
  · rw [if_neg hlength] at h
    cases halloc : SlotTable.alloc s.journal with
    | none => simp [halloc] at h
    | some j =>
      rw [halloc, Option.some.injEq, Prod.mk.injEq] at h
      obtain ⟨rfl, rfl⟩ := h
      exact ⟨SlotTable.alloc_free halloc, rfl⟩

/-- What a call of `ngx_media_graph_send()` comes to. -/
structure SendOutcome (cfg : Config) (s : State) (op : Op) (allocs : Bool) (r : State × Rc) :
    Prop where
  sound : Sound r.1 fun _ => 0
  carries : Carries cfg s.buffers.length s r.1
  entries : ∀ i e, s.journal i = some e → r.1.journal i = some e
  refused : r.2 = .error → r.1.sent = s.sent ∧ r.1.journal = s.journal
  numbered : ∀ bytes, encode op allocs = some bytes → s.buffers.length < r.1.buffers.length
  accepted : r.2 ≠ .error → ∃ bytes, encode op allocs = some bytes ∧
    Kept cfg r.1 (graphHeader op) s.buffers.length bytes

theorem Broadcasted.outcome {op : Op} {allocs : Bool} {r : State × Rc}
    {reserved : Option (Fin capacity)} (hencode : encode op allocs = some bytes)
    (h : Broadcasted cfg s.buffers.length (fun b => if b = s.buffers.length then 1 else 0)
      (graphHeader op) s.buffers.length bytes reserved s' r)
    (hbefore : Carries cfg s.buffers.length s s')
    (hnumber : s.buffers.length < s'.buffers.length)
    (hentries : ∀ i e, s.journal i = some e → some i ≠ reserved ∧ s'.journal i = some e) :
    SendOutcome cfg s op allocs r where
  sound := by
    refine ⟨h.sound.distinct, h.sound.known, h.sound.written, h.sound.counted.congr ?_⟩
    intro b
    by_cases hb : b = s.buffers.length
    · simp [hb]
    · simp [hb]
  carries := hbefore.trans h.carries
  entries := by
    intro i e he
    obtain ⟨hne, hthere⟩ := hentries i e he
    exact (h.journal i hne).trans hthere
  refused := fun hrc => absurd hrc h.accepted
  numbered := fun _ _ => Nat.lt_of_lt_of_le hnumber h.carries.buffers
  accepted := fun _ => ⟨bytes, hencode, h.kept⟩

theorem graphSend_spec (cfg : Config) (hs : Sound s fun _ => 0) (op : Op) (allocs : Bool)
    (written : ℕ → ℕ) : SendOutcome cfg s op allocs (graphSend cfg s op allocs written) := by
  unfold graphSend
  cases hencode : encode op allocs with
  | none =>
    change SendOutcome cfg s op allocs (s, Rc.error)
    refine ⟨hs, Carries.refl _ _ _, fun _ _ h => h, fun _ => ⟨rfl, rfl⟩, ?_,
      fun h => absurd rfl h⟩
    intro bytes hsome
    rw [hencode] at hsome
    cases hsome
  | some bytes =>
    have hpush := hs.push bytes
    have hpushed : Carries cfg s.buffers.length s
        { s with buffers := s.buffers ++ [⟨bytes, 1⟩] } :=
      (extends_push s bytes).carries (Nat.le_refl _) (fun _ h => Or.inl h) fun _ _ h => Or.inl h
    have hbytes := bytesOf_push s bytes
    have hnumber : s.buffers.length < (s.buffers ++ [Buffer.mk bytes 1]).length := by simp
    dsimp only
    by_cases hworkers : cfg.workerCount > 1
    · rw [if_pos hworkers]
      rcases henqueue : repairEnqueue { s with buffers := s.buffers ++ [⟨bytes, 1⟩] }
        (graphHeader op) s.buffers.length bytes.length with _ | ⟨i, entered⟩
      · dsimp only
        refine ⟨?_, hpushed.trans (carries_addRefs cfg _ hnumber.le _ _), fun _ _ h => h,
          fun _ => ⟨rfl, rfl⟩, ?_, fun h => absurd rfl h⟩
        · have hlast := hpush.addRefs s.buffers.length (-1)
          refine ⟨hlast.distinct, hlast.known, hlast.written, hlast.counted.congr ?_⟩
          intro b
          by_cases hb : b = s.buffers.length
          · simp [hb]
          · simp [hb]
        · intro _ _
          dsimp only
          rw [addRefs_length]
          exact hnumber
      · obtain ⟨hfree, rfl⟩ := repairEnqueue_some henqueue
        have hknown : ∀ j x, s.journal j = some x → x.payload ≠ s.buffers.length := by
          intro j x hx
          have hlt := hs.known j x hx
          omega
        have henter := @Sound.enter _ i ⟨graphHeader op, s.buffers.length, bytes.length⟩ _ hpush
          hfree hnumber hknown
        have hentered := @carries_enter cfg _ i ⟨graphHeader op, s.buffers.length, bytes.length⟩ _
          hfree hnumber.le (Nat.le_refl _)
        have hbefore := hpushed.trans hentered
        have hlonger := hnumber.trans_eq (addRefs_length { s with
          journal := Function.update s.journal i
            (some ⟨graphHeader op, s.buffers.length, bytes.length⟩)
          buffers := s.buffers ++ [⟨bytes, 1⟩] } s.buffers.length 1).symm
        have hslot : ∀ j, some i = some j → (addRefs { s with
            journal := Function.update s.journal i
              (some ⟨graphHeader op, s.buffers.length, bytes.length⟩)
            buffers := s.buffers ++ [⟨bytes, 1⟩] } s.buffers.length 1).journal j =
            some ⟨graphHeader op, s.buffers.length, bytes.length⟩ := by
          intro j hj
          rw [← Option.some.inj hj]
          exact Function.update_self _ _ _
        have hsent := sendReserved_spec cfg (graphHeader op) henter (Nat.le_refl _) hlonger
          ((bytesOf_addRefs _ _ _ _).trans hbytes) hslot (fun h => nomatch h) written
        · refine hsent.outcome hencode hbefore hlonger ?_
          intro j x hx
          have hne : j ≠ i := by
            rintro rfl
            rw [hfree] at hx
            cases hx
          exact ⟨fun h => hne (Option.some.inj h), (Function.update_of_ne hne _ _).trans hx⟩
    · rw [if_neg hworkers]
      have hsent := @sendReserved_spec _ _ _ _ _ none cfg (graphHeader op) hpush (Nat.le_refl _)
        hnumber hbytes (fun _ h => nomatch h) (fun _ => by omega) written
      exact hsent.outcome hencode hpushed hnumber fun i e he => ⟨nofun, he⟩

theorem nextUsed_some (h : nextUsed s = some i) : ∃ e, s.journal i = some e := by
  unfold nextUsed at h
  have hused := List.find?_some h
  exact Option.isSome_iff_exists.mp hused

def Shrinks (s s' : State) : Prop :=
  ∀ i, s'.journal i = s.journal i ∨ s'.journal i = none

theorem Shrinks.trans {s'' : State} (h : Shrinks s s') (h' : Shrinks s' s'') : Shrinks s s'' := by
  intro i
  rcases h' i with hsame | hgone
  · rw [hsame]
    exact h i
  · exact Or.inr hgone

theorem shrinks_clear (s : State) (i : Fin capacity) : Shrinks s (repairClear s i) := by
  intro j
  cases hj : (repairClear s i).journal j with
  | none => exact Or.inr rfl
  | some x => exact Or.inl (repairClear_journal hj).2.symm

structure Ticked (cfg : Config) (s s' : State) : Prop where
  sound : Sound s' fun _ => 0
  carries : Carries cfg s.buffers.length s s'
  shrinks : Shrinks s s'

theorem Ticked.trans {s'' : State} (h : Ticked cfg s s') (h' : Ticked cfg s' s'') :
    Ticked cfg s s'' where
  sound := h'.sound
  carries := h.carries.trans (h'.carries.weaken h.carries.buffers)
  shrinks := h.shrinks.trans h'.shrinks

theorem rebroadcast_spec (cfg : Config) (hs : Sound s fun _ => 0) (hi : s.journal i = some e)
    (written : ℕ → ℕ) :
    Ticked cfg s (match broadcast cfg s e.header e.payload e.length written with
      | (peers, delivered, s) =>
        if peers > 0 ∧ delivered = peers then repairClear s i else s) := by
  have hp := hs.known i e hi
  have htold := broadcast_told cfg s e.header e.payload e.length written
  generalize broadcast cfg s e.header e.payload e.length written = out at htold ⊢
  have hsound := hs.told htold hp
  have hcarries := htold.carries_entry hi
  obtain ⟨hforward, hsame, _, _, _, hreach⟩ := htold
  obtain ⟨peers, delivered, after⟩ := out
  dsimp only at hsound hcarries hforward hsame hreach ⊢
  have hshrinks : Shrinks s after := fun j => Or.inl (congrFun hsame j)
  by_cases hall : peers > 0 ∧ delivered = peers
  · rw [if_pos hall]
    refine ⟨hsound.clear i, hcarries.trans ?_, hshrinks.trans (shrinks_clear after i)⟩
    refine carries_clear _ ((congrFun hsame i).trans hi) ?_
    rintro peer ⟨hslot, hlt, hne, hopen⟩
    rw [hforward.bytes e.payload hp]
    exact hreach hall.2 peer ⟨hslot, hlt, hne, hforward.endpoints peer hopen⟩
  · rw [if_neg hall]
    exact ⟨hsound, hcarries, hshrinks⟩

theorem repairAttempt_spec (hs : Sound s fun _ => 0) {written : ℕ → ℕ}
    (h : repairAttempt cfg s written = some s') : Ticked cfg s s' := by
  unfold repairAttempt at h
  cases hnext : nextUsed s with
  | none => simp [hnext] at h
  | some i =>
    obtain ⟨e, he⟩ := nextUsed_some hnext
    rw [hnext] at h
    dsimp only at h
    rw [he] at h
    have hmoved : Ticked cfg s { s with cursor := (i + 1) % capacity } :=
      ⟨⟨hs.distinct, hs.known, hs.written, hs.counted⟩,
        ⟨Nat.le_refl _, fun _ _ _ _ hk => hk, fun _ _ hu => hu⟩, fun _ => Or.inl rfl⟩
    have hagain := @rebroadcast_spec _ i e cfg hmoved.sound he written
    rw [← Option.some.inj h]
    exact hmoved.trans hagain

theorem repairTick_spec (cfg : Config) (hs : Sound s fun _ => 0) (attempts : List (ℕ → ℕ)) :
    Ticked cfg s (repairTick cfg attempts s) := by
  induction attempts generalizing s with
  | nil => exact ⟨hs, Carries.refl cfg _ s, fun _ => Or.inl rfl⟩
  | cons written rest ih =>
    unfold repairTick
    cases hattempt : repairAttempt cfg s written with
    | none => exact ⟨hs, Carries.refl cfg _ s, fun _ => Or.inl rfl⟩
    | some after =>
      have hfirst := repairAttempt_spec hs hattempt
      exact hfirst.trans (ih hfirst.sound)

/-- A call of `ngx_media_graph_send()`, with the number of its payload when it made one. -/
structure Call where
  op : Op
  payload : Option ℕ
  rc : Rc

/-- The worker and the calls made so far. -/
structure World where
  state : State
  calls : List Call

inductive Event where
  | send (op : Op) (allocs : Bool) (written : ℕ → ℕ)
  | tick (written : Fin perTick → ℕ → ℕ)
  | close (peer : ℕ)

def step (cfg : Config) (w : World) : Event → World
  | .send op allocs written =>
    match graphSend cfg w.state op allocs written with
    | (s, rc) =>
      ⟨s, w.calls ++ [⟨op, (encode op allocs).map fun _ => w.state.buffers.length, rc⟩]⟩
  | .tick written => { w with state := repairTick cfg (List.ofFn written) w.state }
  | .close peer =>
    { w with
      state := { w.state with endpoints := Function.update w.state.endpoints peer false } }

/-- A worker that has sent nothing, with the endpoints that are open. -/
def started (endpoints : ℕ → Bool) : World where
  state := ⟨fun _ => none, 0, endpoints, [], []⟩
  calls := []

/-- A call that returned `NGX_OK` or `NGX_AGAIN` has its message kept for every peer. -/
def Call.Settled (cfg : Config) (s : State) (call : Call) : Prop :=
  ∃ payload bytes, call.payload = some payload ∧ encode call.op true = some bytes ∧
    Kept cfg s (graphHeader call.op) payload bytes

/-- What holds of every run. -/
structure Inv (cfg : Config) (w : World) : Prop where
  sound : Sound w.state fun _ => 0
  numbered : ∀ call ∈ w.calls, ∀ b, call.payload = some b → b < w.state.buffers.length
  apart : w.calls.Pairwise fun c d => ∀ b, c.payload = some b → d.payload ≠ some b
  accepted : ∀ call ∈ w.calls, call.rc ≠ .error → call.Settled cfg w.state
  refused : ∀ call ∈ w.calls, call.rc = .error → ∀ b, call.payload = some b → Unused w.state b

variable {w : World}

theorem encode_allocs {op : Op} {allocs : Bool} (h : encode op allocs = some bytes) :
    encode op true = some bytes := by
  cases allocs with
  | true => exact h
  | false =>
    unfold encode at h
    split_ifs at h
    simp at *

/-- The calls made before a step that carries their messages. -/
theorem Inv.carried (h : Inv cfg w) (hs : Sound s' fun _ => 0)
    (hc : Carries cfg w.state.buffers.length w.state s') : Inv cfg { w with state := s' } where
  sound := hs
  numbered := fun call hcall b hb => Nat.lt_of_lt_of_le (h.numbered call hcall b hb) hc.buffers
  apart := h.apart
  accepted := by
    intro call hcall hrc
    obtain ⟨payload, bytes, hpayload, hencode, hkept⟩ := h.accepted call hcall hrc
    exact ⟨payload, bytes, hpayload, hencode,
      hc.kept _ payload bytes (h.numbered call hcall payload hpayload) hkept⟩
  refused := fun call hcall hrc b hb =>
    hc.unused b (h.numbered call hcall b hb) (h.refused call hcall hrc b hb)

theorem Inv.send (h : Inv cfg w) (op : Op) (allocs : Bool) (written : ℕ → ℕ) :
    Inv cfg (step cfg w (.send op allocs written)) := by
  have hsend := graphSend_spec cfg h.sound op allocs written
  unfold step
  dsimp only
  generalize graphSend cfg w.state op allocs written = r at hsend ⊢
  obtain ⟨s, rc⟩ := r
  have hold := h.carried hsend.sound hsend.carries
  have hnew : ∀ b, (encode op allocs).map (fun _ => w.state.buffers.length) = some b →
      b = w.state.buffers.length ∧ b < s.buffers.length := by
    intro b hb
    obtain ⟨bytes, hencode, rfl⟩ := Option.map_eq_some_iff.mp hb
    exact ⟨rfl, hsend.numbered bytes hencode⟩
  refine ⟨hsend.sound, ?_, ?_, ?_, ?_⟩
  · intro call hcall b hb
    rcases List.mem_append.mp hcall with hin | hlast
    · exact hold.numbered call hin b hb
    · rw [List.mem_singleton.mp hlast] at hb
      exact (hnew b hb).2
  · refine List.pairwise_append.mpr ⟨h.apart, List.pairwise_singleton _ _, ?_⟩
    intro c hc d hd b hb hb'
    rw [List.mem_singleton.mp hd] at hb'
    have hlt := h.numbered c hc b hb
    have heq := (hnew b hb').1
    omega
  · intro call hcall hrc
    rcases List.mem_append.mp hcall with hin | hlast
    · exact hold.accepted call hin hrc
    · rw [List.mem_singleton.mp hlast] at hrc ⊢
      obtain ⟨bytes, hencode, hkept⟩ := hsend.accepted hrc
      refine ⟨w.state.buffers.length, bytes, ?_, encode_allocs hencode, hkept⟩
      rw [hencode]
      rfl
  · intro call hcall hrc b hb
    rcases List.mem_append.mp hcall with hin | hlast
    · exact hold.refused call hin hrc b hb
    · rw [List.mem_singleton.mp hlast] at hrc hb
      obtain ⟨hsent, hjournal⟩ := hsend.refused hrc
      obtain ⟨rfl, _⟩ := hnew b hb
      constructor
      · intro t ht
        have hlt := h.sound.written t (hsent ▸ ht)
        omega
      · intro i e he
        have hlt := h.sound.known i e (hjournal ▸ he)
        omega

theorem Inv.step (h : Inv cfg w) (event : Event) : Inv cfg (step cfg w event) := by
  cases event with
  | send op allocs written => exact h.send op allocs written
  | tick written =>
    have htick := repairTick_spec cfg h.sound (List.ofFn written)
    exact h.carried htick.sound htick.carries
  | close peer =>
    have hextends : Extends w.state
        { w.state with endpoints := Function.update w.state.endpoints peer false } := by
      refine ⟨?_, fun _ ht => ht, Nat.le_refl _, fun _ _ => rfl, fun _ _ he => he⟩
      intro other hopen
      change Function.update w.state.endpoints peer false other = true at hopen
      by_cases hother : other = peer
      · rw [hother, Function.update_self] at hopen
        cases hopen
      · rwa [Function.update_of_ne hother] at hopen
    exact h.carried ⟨h.sound.distinct, h.sound.known, h.sound.written, h.sound.counted⟩
      (hextends.carries (Nat.le_refl _) (fun _ ht => Or.inl ht) fun _ _ he => Or.inl he)

theorem Inv.started (cfg : Config) (endpoints : ℕ → Bool) : Inv cfg (started endpoints) where
  sound := ⟨SlotTable.distinct_empty _, nofun, nofun, nofun⟩
  numbered := nofun
  apart := List.Pairwise.nil
  accepted := nofun
  refused := nofun

theorem Inv.run (cfg : Config) (endpoints : ℕ → Bool) (events : List Event) :
    Inv cfg (events.foldl (GraphJournal.step cfg) (GraphJournal.started endpoints)) :=
  StepRun.invariant (fun _ event h => h.step event) (Inv.started cfg endpoints) events

theorem Inv.entries (h : Inv cfg w) (event : Event) (hi : w.state.journal i = some e) :
    (GraphJournal.step cfg w event).state.journal i = some e ∨
      (GraphJournal.step cfg w event).state.journal i = none := by
  cases event with
  | send op allocs written =>
    exact Or.inl ((graphSend_spec cfg h.sound op allocs written).entries i e hi)
  | tick written =>
    rcases (repairTick_spec cfg h.sound (List.ofFn written)).shrinks i with hsame | hgone
    · exact Or.inl (hsame.trans hi)
    · exact Or.inr hgone
  | close peer => exact Or.inl hi

/-- A buffer has one reference while the journal has an entry for it, and none otherwise. -/
theorem Sound.refs (h : Sound s fun _ => 0) {b : ℕ} {buf : Buffer}
    (hb : s.buffers[b]? = some buf) :
    (buf.refs = 1 ∧ ∃ i e, s.journal i = some e ∧ e.payload = b) ∨
      (buf.refs = 0 ∧ ∀ i e, s.journal i = some e → e.payload ≠ b) := by
  have hrefs := h.counted b buf hb
  by_cases hin : ∃ i e, s.journal i = some e ∧ e.payload = b
  · obtain ⟨i, e, hi, rfl⟩ := hin
    rw [h.distinct.held_one hi] at hrefs
    exact Or.inl ⟨hrefs, i, e, hi, rfl⟩
  · right
    have hnone : ∀ i e, s.journal i = some e → e.payload ≠ b :=
      fun i e hi hpayload => hin ⟨i, e, hi, hpayload⟩
    have hheld : SlotTable.held Entry.payload s.journal b = 0 := held_none hnone
    rw [hheld] at hrefs
    exact ⟨hrefs, hnone⟩

/-- Over every run of sends and ticks, whatever the sockets take and whichever endpoints close: the
message of a call that did not return `NGX_ERROR` is written to each peer still connected or waits
in the journal, that of one that did is not, and the journal's reference to a payload lasts as long
as its one entry. -/
theorem repair_journal_keeps (cfg : Config) (endpoints : ℕ → Bool) (events : List Event) :
    let w := events.foldl (GraphJournal.step cfg) (GraphJournal.started endpoints)
    (w.calls.Pairwise fun c d => ∀ b, c.payload = some b → d.payload ≠ some b) ∧
      (∀ call ∈ w.calls, call.rc ≠ .error → call.Settled cfg w.state) ∧
      (∀ call ∈ w.calls, call.rc = .error →
        ∀ t ∈ w.state.sent, call.payload ≠ some t.payload) ∧
      (∀ op allocs written, (graphSend cfg w.state op allocs written).2 = .error →
        (graphSend cfg w.state op allocs written).1.sent = w.state.sent ∧
          (graphSend cfg w.state op allocs written).1.journal = w.state.journal) ∧
      (∀ event i e, w.state.journal i = some e →
        (GraphJournal.step cfg w event).state.journal i = some e ∨
          (GraphJournal.step cfg w event).state.journal i = none) ∧
      ∀ b buf, w.state.buffers[b]? = some buf →
        (buf.refs = 1 ∧ ∃ i e, w.state.journal i = some e ∧ e.payload = b) ∨
          (buf.refs = 0 ∧ ∀ i e, w.state.journal i = some e → e.payload ≠ b) := by
  intro w
  have hinv : Inv cfg w := Inv.run cfg endpoints events
  refine ⟨hinv.apart, hinv.accepted, ?_,
    fun op allocs written => (graphSend_spec cfg hinv.sound op allocs written).refused,
    fun event i e hi => hinv.entries event hi, fun b buf hb => hinv.sound.refs hb⟩
  intro call hcall hrc t ht hpayload
  exact (hinv.refused call hcall hrc t.payload hpayload).1 t ht rfl

end GraphJournal
