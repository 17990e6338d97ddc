import NginxMedia.RtmpWorker

/-! What the steps of a worker keep: the run list holds the destinations that are marked, the heap
holds those in use, and a destination that can be served is marked or waits for a time. -/
namespace RtmpWorker

open MediaTypes RtmpFanout RtmpOutput RtmpPrepare RtmpDestination
open DoublyLinked (Links Linked)
open IndexedHeap (Heap Indexed Removed)

def Worker.Used (w : Worker) (i : ℕ) : Prop := (w.dest i).used = true

structure Listed (w : Worker) (xs : List ℕ) : Prop where
  linked : Linked w.run xs
  marked : ∀ i, i ∈ xs ↔ (w.slots i).queued = true
  counted : w.runnable = xs.length

/-- The heap holds slots of `used`, and knows which it does not hold. -/
structure Kept (h : Heap ℕ) (used : ℕ → Prop) : Prop where
  indexed : Indexed h
  members : ∀ i ∈ h.items, used i
  away : ∀ i, used i → i ∉ h.items → h.index i = destMax
  bound : ∀ i, used i → i < destMax

structure Servable (fan : Fanout) (d : Dest) : Prop where
  publishing : d.state = .publishing
  unblocked : d.writeBlocked = false
  empty : d.out.out = []
  metadata : d.metadataSent = true
  prepared : d.prepared = true
  waiting : (next fan d.cursor).isSome = true

def Worker.fan (w : Worker) (i : ℕ) : Fanout := (w.preps (w.slots i).stream).fan

def Ready (w : Worker) (i : ℕ) : Prop := Servable (w.fan i) (w.dest i)

def Awake (w : Worker) (i : ℕ) : Prop := (w.slots i).queued = true ∨ (w.dest i).retryAt ≠ 0

structure Proper (d : Dest) : Prop where
  used : d.connection = true → d.used = true
  connection : d.metadataSent = true → d.connection = true
  prepared : d.metadataSent = true → d.prepared = true
  publishing : d.metadataSent = true → d.state = .publishing

structure Sound (hole : Option ℕ) (w : Worker) : Prop where
  list : ∃ xs, Listed w xs
  posted : w.run.head ≠ none → w.posted = true ∨ w.running = true
  kept : Kept w.heap w.Used
  filled : ∀ i, w.Used i → i ∈ w.heap.items ∨ hole = some i
  queued : ∀ i, (w.slots i).queued = true → w.Used i
  proper : ∀ i, Proper (w.dest i)

def Attended (among : ℕ → Prop) (w : Worker) : Prop := ∀ i, among i → Ready w i → Awake w i

structure OnSlot (i : ℕ) (w w' : Worker) : Prop where
  others : ∀ j, j ≠ i → w'.slots j = w.slots j
  used : (w'.dest i).used = (w.dest i).used
  stream : (w'.slots i).stream = (w.slots i).stream
  preps : w'.preps = w.preps
  destinations : w'.destinations = w.destinations
  initialized : w'.initialized = w.initialized
  exiting : w'.exiting = w.exiting
  running : w'.running = w.running
  now : w'.now = w.now

variable {w w' w'' : Worker} {i j : ℕ} {hole : Option ℕ} {among : ℕ → Prop} {f : Slot → Slot}
  {d : Dest}
  {xs : List ℕ} {h : Heap ℕ} {used : ℕ → Prop}

theorem OnSlot.refl (i : ℕ) (w : Worker) : OnSlot i w w :=
  ⟨fun _ _ => rfl, rfl, rfl, rfl, rfl, rfl, rfl, rfl, rfl⟩

theorem OnSlot.trans (h₁ : OnSlot i w w') (h₂ : OnSlot i w' w'') : OnSlot i w w'' where
  others j hj := (h₂.others j hj).trans (h₁.others j hj)
  used := h₂.used.trans h₁.used
  stream := h₂.stream.trans h₁.stream
  preps := h₂.preps.trans h₁.preps
  destinations := h₂.destinations.trans h₁.destinations
  initialized := h₂.initialized.trans h₁.initialized
  exiting := h₂.exiting.trans h₁.exiting
  running := h₂.running.trans h₁.running
  now := h₂.now.trans h₁.now

theorem OnSlot.used_eq (h : OnSlot i w w') : w'.Used = w.Used := by
  funext j
  by_cases hj : j = i
  · subst j
    exact congrArg (· = true) h.used
  · exact congrArg (fun s : Slot => s.dest.used = true) (h.others j hj)

theorem OnSlot.stream_eq (h : OnSlot i w w') (j : ℕ) :
    (w'.slots j).stream = (w.slots j).stream := by
  by_cases hj : j = i
  · subst j
    exact h.stream
  · rw [h.others j hj]

@[simp] theorem slots_modify_self (w : Worker) (i : ℕ) (f : Slot → Slot) :
    (w.modify i f).slots i = f (w.slots i) :=
  Function.update_self ..

theorem slots_modify_of_ne (w : Worker) (f : Slot → Slot) (hj : j ≠ i) :
    (w.modify i f).slots j = w.slots j :=
  Function.update_of_ne hj ..

theorem slots_modify_field {β : Type*} (g : Slot → β) (w : Worker) (i : ℕ) (f : Slot → Slot)
    (h : g (f (w.slots i)) = g (w.slots i)) (j : ℕ) :
    g ((w.modify i f).slots j) = g (w.slots j) := by
  by_cases hj : j = i
  · subst j
    rw [slots_modify_self, h]
  · rw [slots_modify_of_ne w f hj]

theorem modify_onSlot (hused : (f (w.slots i)).dest.used = (w.slots i).dest.used)
    (hstream : (f (w.slots i)).stream = (w.slots i).stream) : OnSlot i w (w.modify i f) where
  others j hj := slots_modify_of_ne w f hj
  used := by rw [Worker.dest, slots_modify_self, hused, Worker.dest]
  stream := by rw [slots_modify_self, hstream]
  preps := rfl
  destinations := rfl
  initialized := rfl
  exiting := rfl
  running := rfl
  now := rfl

theorem OnSlot.fan_eq (h : OnSlot i w w') (j : ℕ) : w'.fan j = w.fan j := by
  unfold Worker.fan
  rw [h.preps, h.stream_eq]

theorem OnSlot.attended (h : OnSlot i w w') (ha : Attended among w)
    (hself : among i → Ready w' i → Awake w' i) : Attended among w' := by
  intro j hin hready
  by_cases hj : j = i
  · subst j
    exact hself hin hready
  · have hsame := h.others j hj
    have hdest : w'.dest j = w.dest j := congrArg Slot.dest hsame
    unfold Ready at hready
    rw [h.fan_eq, hdest] at hready
    unfold Awake
    rw [hdest, hsame]
    exact ha j hin hready

theorem OnSlot.attended_others (h : OnSlot i w w') (ha : Attended among w) :
    Attended (fun j => among j ∧ j ≠ i) w' := by
  have hothers : Attended (fun j => among j ∧ j ≠ i) w := fun j hin => ha j hin.1
  exact h.attended hothers fun hself => absurd rfl hself.2

structure Keeps (i : ℕ) (w w' : Worker) : Prop where
  onSlot : OnSlot i w w'
  sound : ∀ hole, Sound hole w → Sound hole w'

/-- What a step keeps of the service. -/
def Tends (w w' : Worker) : Prop :=
  ∀ hole among, Sound hole w → w.exiting = false → Attended among w → Attended among w'

structure Works (i : ℕ) (w w' : Worker) : Prop extends Keeps i w w' where
  tends : Tends w w'

theorem Keeps.refl (i : ℕ) (w : Worker) : Keeps i w w := ⟨.refl i w, fun _ h => h⟩

theorem Keeps.trans (h₁ : Keeps i w w') (h₂ : Keeps i w' w'') : Keeps i w w'' :=
  ⟨h₁.onSlot.trans h₂.onSlot, fun hole h => h₂.sound hole (h₁.sound hole h)⟩

theorem Works.refl (i : ℕ) (w : Worker) : Works i w w := ⟨.refl i w, fun _ _ _ _ h => h⟩

theorem Tends.trans (h₁ : Tends w w') (hkeeps : Keeps i w w') (h₂ : Tends w' w'') :
    Tends w w'' := by
  intro hole among hsound hexiting ha
  exact h₂ hole among (hkeeps.sound hole hsound) (hkeeps.onSlot.exiting.trans hexiting)
    (h₁ hole among hsound hexiting ha)

theorem Works.trans (h₁ : Works i w w') (h₂ : Works i w' w'') : Works i w w'' :=
  ⟨h₁.toKeeps.trans h₂.toKeeps, h₁.tends.trans h₁.toKeeps h₂.tends⟩

theorem modify_keeps (hused : (f (w.slots i)).dest.used = (w.slots i).dest.used)
    (hstream : (f (w.slots i)).stream = (w.slots i).stream)
    (hqueued : (f (w.slots i)).queued = (w.slots i).queued)
    (hproper : Proper (w.slots i).dest → Proper (f (w.slots i)).dest) :
    Keeps i w (w.modify i f) := by
  have honslot := modify_onSlot hused hstream
  have hmark : ∀ j, ((w.modify i f).slots j).queued = (w.slots j).queued := by
    intro j
    by_cases hj : j = i
    · subst j
      rw [slots_modify_self, hqueued]
    · rw [slots_modify_of_ne w f hj]
  refine ⟨honslot, fun hole hs => ⟨?_, hs.posted, ?_, ?_, ?_, ?_⟩⟩
  · obtain ⟨xs, hlist⟩ := hs.list
    exact ⟨xs, hlist.linked, fun j => by rw [hmark, hlist.marked], hlist.counted⟩
  · rw [honslot.used_eq]
    exact hs.kept
  · rw [honslot.used_eq]
    exact hs.filled
  · intro j hj
    rw [hmark] at hj
    rw [honslot.used_eq]
    exact hs.queued j hj
  · intro j
    by_cases hji : j = i
    · subst j
      rw [Worker.dest, slots_modify_self]
      exact hproper (hs.proper i)
    · have hsame : (w.modify i f).dest j = w.dest j :=
        congrArg Slot.dest (slots_modify_of_ne w f hji)
      rw [hsame]
      exact hs.proper j

theorem Kept.room (hk : Kept h used) (hi : used i) (hout : i ∉ h.items) :
    h.items.length < destMax := by
  have hnodup : (i :: h.items).Nodup := List.nodup_cons.mpr ⟨hout, hk.indexed.nodup⟩
  have hsub : i :: h.items ⊆ List.range destMax := by
    intro j hj
    rw [List.mem_range]
    rcases List.mem_cons.mp hj with rfl | hj
    · exact hk.bound _ hi
    · exact hk.bound j (hk.members j hj)
  have hlen := (hnodup.subperm hsub).length_le
  rw [List.length_range, List.length_cons] at hlen
  omega

theorem Kept.length_le (hk : Kept h used) : h.items.length ≤ destMax := by
  have hsub : h.items ⊆ List.range destMax := fun j hj =>
    List.mem_range.mpr (hk.bound j (hk.members j hj))
  have hlen := (hk.indexed.nodup.subperm hsub).length_le
  rwa [List.length_range] at hlen

theorem Kept.remove (hk : Kept h used) (hi : used i) (before : ℕ → ℕ → Bool) :
    Kept (IndexedHeap.remove before destMax h i) used ∧
      ∀ j, j ∈ (IndexedHeap.remove before destMax h i).items ↔ j ∈ h.items ∧ j ≠ i := by
  by_cases hmem : i ∈ h.items
  · have hr := hk.indexed.remove before destMax hmem
    refine ⟨⟨hr.indexed, fun j hj => hk.members j ((hr.mem j).mp hj).1, fun j hj hout => ?_,
      hk.bound⟩, hr.mem⟩
    by_cases hji : j = i
    · rw [hji]
      exact hr.self
    · have hold : j ∉ h.items := fun hin => hout ((hr.mem j).mpr ⟨hin, hji⟩)
      rw [hr.away j hold]
      exact hk.away j hj hold
  · rw [IndexedHeap.remove_absent h (by rw [hk.away i hi hmem]; exact hk.length_le)]
    refine ⟨hk, fun j => ⟨fun hj => ⟨hj, ?_⟩, fun hj => hj.1⟩⟩
    rintro rfl
    exact hmem hj

theorem Kept.insert (hk : Kept h used) (hi : used i) (hout : i ∉ h.items)
    (before : ℕ → ℕ → Bool) :
    Kept (IndexedHeap.insert before destMax h i) used ∧
      ∀ j, j ∈ (IndexedHeap.insert before destMax h i).items ↔ j = i ∨ j ∈ h.items := by
  obtain ⟨hindexed, hmem, haway⟩ := hk.indexed.insert before (hk.room hi hout) hout
  refine ⟨⟨hindexed, fun j hj => ?_, fun j hj hnot => ?_, hk.bound⟩, hmem⟩
  · rcases (hmem j).mp hj with rfl | hold
    · exact hi
    · exact hk.members j hold
  · have hne : j ≠ i := fun heq => hnot ((hmem j).mpr (Or.inl heq))
    have hold : j ∉ h.items := fun hin => hnot ((hmem j).mpr (Or.inr hin))
    rw [haway j hne hold]
    exact hk.away j hj hold

theorem Sound.withHeap (hs : Sound hole w) {h : Heap ℕ} (hkept : Kept h w.Used)
    {hole' : Option ℕ} (hfilled : ∀ i, w.Used i → i ∈ h.items ∨ hole' = some i) :
    Sound hole' { w with heap := h } :=
  ⟨hs.list.imp fun _ hl => ⟨hl.linked, hl.marked, hl.counted⟩, hs.posted, hkept, hfilled,
    hs.queued, hs.proper⟩

theorem maintenanceRemove_sound (hs : Sound none w) (hi : w.Used i) :
    Sound (some i) (maintenanceRemove i w) := by
  obtain ⟨hkept, hmem⟩ := hs.kept.remove hi w.before
  refine hs.withHeap hkept fun j hj => ?_
  by_cases hji : j = i
  · exact Or.inr (congrArg some hji.symm)
  · exact Or.inl ((hmem j).mpr ⟨(hs.filled j hj).resolve_right nofun, hji⟩)

theorem maintenanceUpdate_used (hi : w.Used i) : maintenanceUpdate i w =
    maintenanceInsert i ((maintenanceRemove i w).modify i fun s =>
      { s with maintenanceAt := dueAt s }) := by
  unfold maintenanceUpdate
  exact if_pos hi

theorem maintenanceUpdate_sound (hs : Sound hole w) (hi : w.Used i) {hole' : Option ℕ}
    (hhole : hole = hole' ∨ hole = some i) : Sound hole' (maintenanceUpdate i w) := by
  obtain ⟨hkept, hmem⟩ := hs.kept.remove hi w.before
  have hmodified := (modify_keeps (w := w) (i := i)
    (f := fun s => { s with maintenanceAt := dueAt s }) rfl rfl rfl fun h => h).sound hole hs
  rw [maintenanceUpdate_used hi]
  have hnot : i ∉ (maintenanceRemove i w).heap.items := fun hin => ((hmem i).mp hin).2 rfl
  obtain ⟨hinserted, hmem'⟩ := hkept.insert hi hnot
    ((maintenanceRemove i w).modify i fun s => { s with maintenanceAt := dueAt s }).before
  have hused : (w.modify i fun s => { s with maintenanceAt := dueAt s }).Used = w.Used :=
    (modify_onSlot (f := fun s => { s with maintenanceAt := dueAt s }) rfl rfl).used_eq
  refine hmodified.withHeap (by rw [hused]; exact hinserted) fun j hj => ?_
  rw [hused] at hj
  by_cases hji : j = i
  · exact Or.inl ((hmem' j).mpr (Or.inl hji))
  · rcases hs.filled j hj with hin | hh
    · exact Or.inl ((hmem' j).mpr (Or.inr ((hmem j).mpr ⟨hin, hji⟩)))
    · rcases hhole with rfl | rfl
      · exact Or.inr hh
      · exact absurd (Option.some.inj hh).symm hji

theorem maintenanceUpdate_onSlot (i : ℕ) (w : Worker) : OnSlot i w (maintenanceUpdate i w) := by
  unfold maintenanceUpdate
  dsimp only
  split
  · have h := modify_onSlot (w := maintenanceRemove i w) (i := i)
      (f := fun s => { s with maintenanceAt := dueAt s }) rfl rfl
    exact ⟨h.others, h.used, h.stream, rfl, rfl, rfl, rfl, rfl, rfl⟩
  · exact ⟨fun _ _ => rfl, rfl, rfl, rfl, rfl, rfl, rfl, rfl, rfl⟩

theorem maintenanceUpdate_slot (i : ℕ) (w : Worker) :
    (maintenanceUpdate i w).dest i = w.dest i ∧
      ((maintenanceUpdate i w).slots i).queued = (w.slots i).queued := by
  unfold maintenanceUpdate
  dsimp only
  split
  · have h := fun {β : Type} (g : Slot → β) => slots_modify_field g (maintenanceRemove i w) i
      fun s => { s with maintenanceAt := dueAt s }
    exact ⟨h Slot.dest rfl i, h Slot.queued rfl i⟩
  · exact ⟨rfl, rfl⟩

theorem maintenanceUpdate_works (hi : w.Used i) : Works i w (maintenanceUpdate i w) := by
  have honslot := maintenanceUpdate_onSlot i w
  obtain ⟨hdest, hqueued⟩ := maintenanceUpdate_slot i w
  refine ⟨⟨honslot, fun hole hs => maintenanceUpdate_sound hs hi (Or.inl rfl)⟩, ?_⟩
  intro hole among _ _ ha
  refine honslot.attended ha fun hin hready => ?_
  unfold Ready at hready
  rw [honslot.fan_eq, hdest] at hready
  unfold Awake
  rw [hdest, hqueued]
  exact ha i hin hready

theorem Listed.head (h : Listed w xs) : w.run.head = xs.head? := h.linked.head_eq

theorem enqueue_onSlot (i : ℕ) (w : Worker) : OnSlot i w (enqueue i w) := by
  unfold enqueue
  split
  · exact .refl i w
  · have h := modify_onSlot (w := w) (i := i) (f := fun s => { s with queued := true }) rfl rfl
    exact ⟨h.others, h.used, h.stream, rfl, rfl, rfl, rfl, rfl, rfl⟩

theorem enqueue_dest (i : ℕ) (w : Worker) (j : ℕ) : (enqueue i w).dest j = w.dest j := by
  unfold enqueue
  split
  · rfl
  · exact slots_modify_field Slot.dest w i (fun s => { s with queued := true }) rfl j

theorem enqueue_sound (hs : Sound hole w) (i : ℕ) : Sound hole (enqueue i w) := by
  have honslot := enqueue_onSlot i w
  have hused := honslot.used_eq
  have hdest := enqueue_dest i w
  unfold enqueue at hused hdest ⊢
  split_ifs at hused hdest ⊢ with hunfit
  · exact hs
  have hfit : (w.dest i).used = true ∧ (w.slots i).queued = false := by
    unfold Unfit at hunfit
    simp only [not_or, Bool.not_eq_false, Bool.not_eq_true] at hunfit
    exact ⟨hunfit.1, hunfit.2.2.2.1⟩
  obtain ⟨xs, hlist⟩ := hs.list
  have hout : i ∉ xs := by
    intro hmem
    rw [hlist.marked, hfit.2] at hmem
    cases hmem
  have hmark : ∀ j, ((w.modify i fun s => { s with queued := true }).slots j).queued = true ↔
      j = i ∨ (w.slots j).queued = true := by
    intro j
    by_cases hj : j = i
    · subst j
      rw [slots_modify_self]
      exact ⟨fun _ => Or.inl rfl, fun _ => rfl⟩
    · rw [slots_modify_of_ne w _ hj]
      exact ⟨Or.inr, fun h => h.resolve_left hj⟩
  refine ⟨⟨xs ++ [i], hlist.linked.pushBack hout, fun j => ?_, ?_⟩, fun _ => ?_, ?_, ?_, ?_, ?_⟩
  · refine Iff.trans ?_ (hmark j).symm
    rw [List.mem_append, List.mem_singleton, hlist.marked, or_comm]
  · change w.runnable + 1 = _
    rw [hlist.counted, List.length_append]
    rfl
  · change (w.posted || !w.running) = true ∨ w.running = true
    cases w.running with
    | true => exact Or.inr rfl
    | false => exact Or.inl (by rw [Bool.not_false, Bool.or_true])
  · rw [hused]
    exact hs.kept
  · rw [hused]
    exact hs.filled
  · intro j hj
    rw [hused]
    rcases (hmark j).mp hj with rfl | hold
    · exact hfit.1
    · exact hs.queued j hold
  · intro j
    rw [hdest]
    exact hs.proper j

theorem enqueue_awake (hs : Sound hole w) (hexiting : w.exiting = false)
    (h : Ready (enqueue i w) i) :
    Awake (enqueue i w) i := by
  unfold Ready at h
  rw [enqueue_dest] at h
  obtain ⟨hpub, hunblocked, hempty, hmeta, hprep, -⟩ := h
  have hproper := hs.proper i
  by_cases hqueued : (w.slots i).queued = true
  · have hunfit : Unfit w i := Or.inr (Or.inr (Or.inr (Or.inl hqueued)))
    unfold enqueue
    rw [if_pos hunfit]
    exact Or.inl hqueued
  · have hfit : ¬Unfit w i := by
      unfold Unfit
      rw [hproper.used (hproper.connection hmeta), hproper.connection hmeta, hpub, hunblocked,
        hempty, hexiting]
      simp [hqueued]
    unfold enqueue
    rw [if_neg hfit]
    left
    change ((w.modify i fun s => { s with queued := true }).slots i).queued = true
    rw [slots_modify_self]

theorem setDest_onSlot (hused : d.used = (w.dest i).used) : OnSlot i w (w.setDest i d) :=
  modify_onSlot hused rfl

@[simp] theorem dest_setDest (w : Worker) (i : ℕ) (d : Dest) : (w.setDest i d).dest i = d :=
  congrArg Slot.dest (slots_modify_self w i _)

@[simp] theorem queued_setDest (w : Worker) (i : ℕ) (d : Dest) :
    ((w.setDest i d).slots i).queued = (w.slots i).queued :=
  slots_modify_field Slot.queued w i _ rfl i

/-- The books after a change of a destination. -/
theorem setDest_keeps (hused : d.used = (w.dest i).used) (hproper : Proper (w.dest i) → Proper d) :
    Keeps i w (w.setDest i d) :=
  modify_keeps hused rfl rfl hproper

theorem schedule_onSlot (i : ℕ) (w : Worker) : OnSlot i w (schedule i w) := by
  unfold schedule
  dsimp only
  split_ifs
  · exact .refl i w
  · have hset := setDest_onSlot (w := w) (i := i) (d := { w.dest i with retryAt := 0 }) rfl
    exact (hset.trans (maintenanceUpdate_onSlot i _)).trans (enqueue_onSlot i _)
  · exact enqueue_onSlot i w

theorem schedule_keeps (hi : w.Used i) : Keeps i w (schedule i w) := by
  refine ⟨schedule_onSlot i w, fun hole hs => ?_⟩
  unfold schedule
  dsimp only
  split_ifs
  · exact hs
  · have hset := setDest_keeps (w := w) (i := i) (d := { w.dest i with retryAt := 0 }) rfl
      fun h => ⟨h.used, h.connection, h.prepared, h.publishing⟩
    have hused : (w.setDest i { w.dest i with retryAt := 0 }).Used i := by
      rw [hset.onSlot.used_eq]
      exact hi
    exact enqueue_sound ((maintenanceUpdate_works hused).sound hole (hset.sound hole hs)) i
  · exact enqueue_sound hs i

theorem schedule_awake (hi : w.Used i) (hs : Sound hole w) (hexiting : w.exiting = false)
    (h : Ready (schedule i w) i) : Awake (schedule i w) i := by
  unfold schedule at h ⊢
  dsimp only at h ⊢
  split_ifs at h ⊢ with hretry hlater
  · exact Or.inr hretry.2
  · have hset := setDest_keeps (w := w) (i := i) (d := { w.dest i with retryAt := 0 }) rfl
      fun h => ⟨h.used, h.connection, h.prepared, h.publishing⟩
    have hused : (w.setDest i { w.dest i with retryAt := 0 }).Used i := by
      rw [hset.onSlot.used_eq]
      exact hi
    have hwork := maintenanceUpdate_works hused
    exact enqueue_awake (hwork.sound hole (hset.sound hole hs))
      ((hset.onSlot.trans hwork.onSlot).exiting.trans hexiting) h
  · exact enqueue_awake hs hexiting h

theorem schedule_attended (hi : w.Used i) (hs : Sound hole w) (hexiting : w.exiting = false)
    (ha : Attended among w) : Attended (fun j => among j ∨ j = i) (schedule i w) := by
  intro j hin hready
  by_cases hj : j = i
  · subst j
    exact schedule_awake hi hs hexiting hready
  · exact (schedule_onSlot i w).attended_others ha j ⟨hin.resolve_right hj, hj⟩ hready

theorem unschedule_onSlot (i : ℕ) (w : Worker) : OnSlot i w (unschedule i w) := by
  unfold unschedule
  split
  · exact .refl i w
  · have h := modify_onSlot (w := w) (i := i) (f := fun s => { s with queued := false }) rfl rfl
    exact ⟨h.others, h.used, h.stream, rfl, rfl, rfl, rfl, rfl, rfl⟩

theorem unschedule_dest (i : ℕ) (w : Worker) (j : ℕ) : (unschedule i w).dest j = w.dest j := by
  unfold unschedule
  split
  · rfl
  · exact slots_modify_field Slot.dest w i (fun s => { s with queued := false }) rfl j

theorem unschedule_queued (i : ℕ) (w : Worker) : ((unschedule i w).slots i).queued = false := by
  unfold unschedule
  split
  · assumption
  · change ((w.modify i fun s => { s with queued := false }).slots i).queued = false
    rw [slots_modify_self]

theorem Listed.unschedule (h : Listed w xs) (i : ℕ) : Listed (unschedule i w) (xs.erase i) := by
  unfold RtmpWorker.unschedule
  split_ifs with hqueued
  · have hout : i ∉ xs := by
      rw [h.marked, hqueued]
      nofun
    rwa [List.erase_of_not_mem hout]
  · have hin : i ∈ xs := (h.marked i).mpr (by rwa [Bool.not_eq_false] at hqueued)
    refine ⟨h.linked.unlink hin, fun j => ?_, ?_⟩
    · rw [h.linked.nodup.mem_erase_iff, h.marked]
      change _ ↔ ((w.modify i fun s => { s with queued := false }).slots j).queued = true
      by_cases hj : j = i
      · subst hj
        rw [slots_modify_self]
        exact ⟨fun hmem => absurd rfl hmem.1, nofun⟩
      · rw [slots_modify_of_ne w _ hj]
        exact ⟨fun hmem => hmem.2, fun hmark => ⟨hj, hmark⟩⟩
    · change w.runnable - 1 = _
      rw [List.length_erase_of_mem hin, h.counted]

theorem unschedule_posted (hlist : Listed w xs)
    (hposted : w.run.head ≠ none → w.posted = true ∨ w.running = true) (i : ℕ)
    (hhead : (unschedule i w).run.head ≠ none) :
    (unschedule i w).posted = true ∨ (unschedule i w).running = true := by
  have hnonempty : w.run.head ≠ none := by
    intro hnone
    rw [hlist.head, List.head?_eq_none_iff] at hnone
    have hafter := hlist.unschedule i
    rw [hafter.head, hnone] at hhead
    exact hhead rfl
  have hbefore := hposted hnonempty
  unfold unschedule
  split <;> exact hbefore

theorem unschedule_heap (i : ℕ) (w : Worker) : (unschedule i w).heap = w.heap := by
  unfold unschedule
  split <;> rfl

theorem unschedule_keeps (i : ℕ) (w : Worker) : Keeps i w (unschedule i w) := by
  have honslot := unschedule_onSlot i w
  refine ⟨honslot, fun hole hs => ?_⟩
  obtain ⟨xs, hlist⟩ := hs.list
  refine ⟨⟨xs.erase i, hlist.unschedule i⟩, unschedule_posted hlist hs.posted i, ?_, ?_, ?_, ?_⟩
  · rw [honslot.used_eq, unschedule_heap]
    exact hs.kept
  · rw [honslot.used_eq, unschedule_heap]
    exact hs.filled
  · intro j hj
    rw [honslot.used_eq]
    by_cases hji : j = i
    · rw [hji, unschedule_queued] at hj
      cases hj
    · rw [honslot.others j hji] at hj
      exact hs.queued j hj
  · intro j
    rw [unschedule_dest]
    exact hs.proper j

theorem release_onSlot (i : ℕ) (w : Worker) : OnSlot i w (release i w) := by
  unfold release
  have hmodify : OnSlot i (unschedule i w) ((unschedule i w).modify i fun s =>
      { s with dest := s.dest.release (unschedule i w).now, deadline := 0 }) :=
    modify_onSlot rfl rfl
  exact ((unschedule_onSlot i w).trans hmodify).trans (maintenanceUpdate_onSlot i _)

theorem release_dest (i : ℕ) (w : Worker) : (release i w).dest i = (w.dest i).release w.now := by
  unfold release
  rw [(maintenanceUpdate_slot i _).1]
  refine (congrArg Slot.dest (slots_modify_self _ i _)).trans ?_
  change (Worker.dest _ i).release _ = _
  rw [unschedule_dest, (unschedule_onSlot i w).now]

theorem release_works (hi : w.Used i) : Works i w (release i w) := by
  have hmodify : Keeps i (unschedule i w) ((unschedule i w).modify i fun s =>
      { s with dest := s.dest.release (unschedule i w).now, deadline := 0 }) :=
    modify_keeps rfl rfl rfl fun _ => ⟨nofun, nofun, nofun, nofun⟩
  have hkeeps := (unschedule_keeps i w).trans hmodify
  have hused : ((unschedule i w).modify i fun s =>
      { s with dest := s.dest.release (unschedule i w).now, deadline := 0 }).Used i := by
    rw [hkeeps.onSlot.used_eq]
    exact hi
  refine ⟨hkeeps.trans (maintenanceUpdate_works hused).toKeeps, fun hole among _ _ ha => ?_⟩
  refine (release_onSlot i w).attended ha fun _ hready => ?_
  have hmeta := hready.metadata
  rw [release_dest] at hmeta
  cases hmeta

/-- What the scheduler asks about stays, but that there may be more to send. -/
structure Quiet (d d' : Dest) : Prop where
  used : d'.used = d.used
  prepared : d'.prepared = d.prepared
  state : d'.state = d.state
  connection : d'.connection = d.connection
  writeBlocked : d'.writeBlocked = d.writeBlocked
  cursor : d'.cursor = d.cursor
  metadataSent : d'.metadataSent = d.metadataSent
  retryAt : d'.retryAt = d.retryAt
  out : d'.out.out = [] → d.out.out = []

theorem Quiet.refl (d : Dest) : Quiet d d := ⟨rfl, rfl, rfl, rfl, rfl, rfl, rfl, rfl, id⟩

theorem Quiet.trans {d' d'' : Dest} (h₁ : Quiet d d') (h₂ : Quiet d' d'') : Quiet d d'' where
  used := h₂.used.trans h₁.used
  prepared := h₂.prepared.trans h₁.prepared
  state := h₂.state.trans h₁.state
  connection := h₂.connection.trans h₁.connection
  writeBlocked := h₂.writeBlocked.trans h₁.writeBlocked
  cursor := h₂.cursor.trans h₁.cursor
  metadataSent := h₂.metadataSent.trans h₁.metadataSent
  retryAt := h₂.retryAt.trans h₁.retryAt
  out hempty := h₁.out (h₂.out hempty)

theorem Quiet.phase {d' : Dest} (h : Quiet d d') (phase : Phase) :
    Quiet d { d' with phase := phase } :=
  ⟨h.used, h.prepared, h.state, h.connection, h.writeBlocked, h.cursor, h.metadataSent, h.retryAt,
    h.out⟩

theorem Quiet.proper {d' : Dest} (h : Quiet d d') (hd : Proper d) : Proper d' := by
  constructor
  · rw [h.connection, h.used]
    exact hd.used
  · rw [h.metadataSent, h.connection]
    exact hd.connection
  · rw [h.metadataSent, h.prepared]
    exact hd.prepared
  · rw [h.metadataSent, h.state]
    exact hd.publishing

theorem Quiet.servable {d' : Dest} {fan : Fanout} (h : Quiet d d') (hd : Servable fan d') :
    Servable fan d := by
  obtain ⟨hpub, hunblocked, hempty, hmeta, hprep, hwait⟩ := hd
  rw [h.state] at hpub
  rw [h.writeBlocked] at hunblocked
  rw [h.metadataSent] at hmeta
  rw [h.prepared] at hprep
  rw [h.cursor] at hwait
  exact ⟨hpub, hunblocked, h.out hempty, hmeta, hprep, hwait⟩

theorem setDest_quiet (h : Quiet (w.dest i) d) : Works i w (w.setDest i d) := by
  have hkeeps := setDest_keeps (w := w) (i := i) h.used h.proper
  refine ⟨hkeeps, fun hole among _ _ ha => hkeeps.onSlot.attended ha fun hin hr => ?_⟩
  unfold Ready at hr
  rw [hkeeps.onSlot.fan_eq, dest_setDest] at hr
  unfold Awake
  rw [queued_setDest, dest_setDest, h.retryAt]
  exact ha i hin (h.servable hr)

theorem modify_idle {f : Slot → Slot} (hused : (f (w.slots i)).dest.used = (w.slots i).dest.used)
    (hstream : (f (w.slots i)).stream = (w.slots i).stream)
    (hqueued : (f (w.slots i)).queued = (w.slots i).queued)
    (hproper : Proper (w.slots i).dest → Proper (f (w.slots i)).dest)
    (hidle : (f (w.slots i)).dest.state ≠ .publishing) : Works i w (w.modify i f) := by
  have hkeeps := modify_keeps hused hstream hqueued hproper
  refine ⟨hkeeps, fun hole among _ _ ha => hkeeps.onSlot.attended ha fun _ hready => ?_⟩
  have hpub := hready.publishing
  rw [Worker.dest, slots_modify_self] at hpub
  exact absurd hpub hidle

theorem fail_onSlot (i : ℕ) (w : Worker) : OnSlot i w (fail i w) := by
  have hset := setDest_onSlot (w := w) (i := i)
    (d := { w.dest i with transportErrors := (w.dest i).transportErrors + 1 }) rfl
  exact hset.trans (release_onSlot i _)

theorem fail_works (hi : w.Used i) : Works i w (fail i w) := by
  have hset : Works i w (w.setDest i
      { w.dest i with transportErrors := (w.dest i).transportErrors + 1 }) :=
    setDest_quiet ⟨rfl, rfl, rfl, rfl, rfl, rfl, rfl, rfl, id⟩
  refine hset.trans (release_works ?_)
  rw [hset.onSlot.used_eq]
  exact hi

structure Strands (w : Worker) (i : ℕ) (socket : Option ℕ) : Prop where
  publishing : (w.dest i).state = .publishing
  metadata : (w.dest i).metadataSent = true
  prepared : (w.dest i).prepared = true
  waiting : (next (w.fan i) (w.dest i).cursor).isSome = true
  queued : (w.slots i).queued = false
  retryAt : (w.dest i).retryAt = 0
  pending : (w.dest i).out.out ≠ []
  drained : ∃ n ∈ socket, unsent n (w.dest i).out.out = []

theorem flush_onSlot (socket : Option ℕ) (i : ℕ) (w : Worker) : OnSlot i w (flush socket i w) := by
  unfold flush
  dsimp only
  split
  · exact .refl i w
  · cases socket with
    | none => exact fail_onSlot i w
    | some n => exact setDest_onSlot rfl

theorem flush_keeps (hi : w.Used i) (socket : Option ℕ) : Keeps i w (flush socket i w) := by
  unfold flush
  dsimp only
  split
  · exact .refl i w
  · cases socket with
    | none => exact (fail_works hi).toKeeps
    | some n =>
      exact setDest_keeps rfl fun h => ⟨h.used, h.connection, h.prepared, h.publishing⟩

theorem flush_state (socket : Option ℕ) (i : ℕ) (w : Worker) :
    ((flush socket i w).dest i).state = (w.dest i).state ∨
      ((flush socket i w).dest i).state = .idle := by
  unfold flush
  dsimp only
  split
  · exact Or.inl rfl
  · cases socket with
    | none =>
      right
      dsimp only [fail]
      rw [release_dest]
      rfl
    | some n =>
      left
      rw [dest_setDest]

theorem flush_tends {socket : Option ℕ} (hsafe : ¬Strands w i socket) :
    Tends w (flush socket i w) := by
  intro hole among hs hexiting ha
  refine (flush_onSlot socket i w).attended ha fun hin hready => ?_
  have honslot := flush_onSlot socket i w
  unfold Ready at hready
  rw [honslot.fan_eq] at hready
  unfold flush at hready ⊢
  dsimp only at hready ⊢
  split at hready
  · rename_i hquiet
    rw [if_pos hquiet]
    exact ha i hin hready
  · rename_i hbusy
    rw [if_neg hbusy]
    cases socket with
    | none =>
      have hmeta := hready.metadata
      dsimp only [fail] at hmeta
      rw [release_dest] at hmeta
      cases hmeta
    | some n =>
      obtain ⟨hpub, hunblocked, hempty, hmeta, hprep, hwait⟩ := hready
      rw [dest_setDest] at hpub hempty hmeta hprep hwait
      unfold Awake
      rw [queued_setDest, dest_setDest]
      by_contra hasleep
      rw [not_or, Bool.not_eq_true, not_not] at hasleep
      rw [not_or] at hbusy
      exact hsafe ⟨hpub, hmeta, hprep, hwait, hasleep.1, hasleep.2, hbusy.2, n, rfl, hempty⟩

structure Idle (w : Worker) (i : ℕ) : Prop where
  publishing : (w.dest i).state = .publishing
  unblocked : (w.dest i).writeBlocked = false
  empty : (w.dest i).out.out = []
  metadata : (w.dest i).metadataSent = true
  prepared : (w.dest i).prepared = true
  queued : (w.slots i).queued = false
  retryAt : (w.dest i).retryAt = 0

structure Announces (env : Pump) (prep : Prepare) (d : Dest) : Prop where
  fresh : d.metadataSent = false ∧ d.announced = false ∧ d.cursor = 0
  behind : 0 < prep.fan.tail
  headers : ∃ tracks ∈ env.tracks, headersOf env.headerMem prep tracks ≠ []

structure Disturbs (w : Worker) (i : ℕ) (env : Pump) : Prop where
  announces : Announces env (w.preps (w.slots i).stream) (w.dest i)
  idle : ∃ j, j ≠ i ∧ (w.slots j).stream = (w.slots i).stream ∧ Idle w j

inductive Note where
  | flush (w : Worker) (i : ℕ) (socket : Option ℕ)
  | pump (w : Worker) (i : ℕ) (env : Pump)

def Note.Harmful : Note → Prop
  | .flush w i socket => Strands w i socket
  | .pump w i env => Disturbs w i env

end RtmpWorker
