import NginxMedia.HeapOrder
import NginxMedia.RtmpStranded

/-! The maintenance heap over the calls that its destinations make: slots are taken and freed,
looked after at any times, and taken out while they are served. -/
namespace RtmpMaintenance

open RtmpWorker RtmpDestination
open RtmpVisits (alloc freeSlot remove wipe)
open IndexedHeap (Heap Indexed Ordered byKey rank)

/-- What the destinations do to the heap, and to the fields that say when a slot is due. -/
inductive Op where
  | alloc
  | times (i lastReport retryAt deadline : ℕ) (state : State)
  | update (i : ℕ)
  | take (i : ℕ)
  | remove (i : ℕ)

/-- A worker, and the slots whose last operation put them in. -/
structure Books where
  worker : Worker
  inside : ℕ → Bool

def Books.mark (b : Books) (i : ℕ) (inside : Bool) (w : Worker) : Books :=
  ⟨w, Function.update b.inside i inside⟩

def perform (b : Books) : Op → Books
  | .alloc =>
    match freeSlot b.worker with
    | none => b
    | some i => b.mark i false (alloc i b.worker)
  | .times i lastReport retryAt deadline state =>
    { b with
      worker := b.worker.modify i fun s =>
        { s with
          dest := { s.dest with retryAt := retryAt, state := state }
          lastReport := lastReport
          deadline := deadline } }
  | .update i =>
    if (b.worker.dest i).used then b.mark i true (maintenanceUpdate i b.worker) else b
  | .take i =>
    if (b.worker.dest i).used then b.mark i false (maintenanceRemove i b.worker) else b
  | .remove i =>
    if (b.worker.dest i).used then b.mark i false (remove i b.worker) else b

def run (preps : ℕ → RtmpPrepare.Prepare) (ops : List Op) : Books :=
  ops.foldl perform ⟨Worker.init preps, fun _ => false⟩

def due (w : Worker) (i : ℕ) : ℕ := (w.slots i).maintenanceAt

structure Tended (w : Worker) (inside : ℕ → Bool) : Prop where
  kept : Kept w.heap w.Used
  ordered : Ordered (rank (due w) w.heap.items)
  members : ∀ i, i ∈ w.heap.items ↔ inside i = true

variable {w w' : Worker} {inside : ℕ → Bool} {i : ℕ}

theorem before_eq (w : Worker) : w.before = byKey (due w) := rfl

theorem members_mark {items items' : List ℕ} {inside : ℕ → Bool} (b : Bool)
    (hmem : ∀ j, j ∈ items ↔ inside j = true)
    (hself : i ∈ items' ↔ b = true) (hrest : ∀ j, j ≠ i → (j ∈ items' ↔ j ∈ items)) (j : ℕ) :
    j ∈ items' ↔ Function.update inside i b j = true := by
  by_cases hji : j = i
  · subst j
    rw [Function.update_self]
    exact hself
  · rw [Function.update_of_ne hji, hrest j hji]
    exact hmem j

theorem Tended.take (h : Tended w inside) (hi : w.Used i) :
    Tended (maintenanceRemove i w) (Function.update inside i false) := by
  obtain ⟨hkept, hmem⟩ := h.kept.remove hi w.before
  refine ⟨hkept, ?_, ?_⟩
  · unfold maintenanceRemove
    rw [before_eq]
    exact IndexedHeap.remove_ordered h.ordered
  · apply members_mark false h.members
    · exact ⟨fun hin => absurd rfl ((hmem i).mp hin).2, nofun⟩
    · exact fun j hj => (hmem j).trans (and_iff_left hj)

theorem Tended.modify (h : Tended w inside) {f : Slot → Slot}
    (hused : (f (w.slots i)).dest.used = (w.slots i).dest.used)
    (hdue : i ∈ w.heap.items → (f (w.slots i)).maintenanceAt = (w.slots i).maintenanceAt) :
    Tended (w.modify i f) inside := by
  have hsame : (w.modify i f).Used = w.Used := by
    funext j
    exact congrArg (· = true) (slots_modify_field (fun s => s.dest.used) w i f hused j)
  refine ⟨?_, ?_, h.members⟩
  · rw [hsame]
    exact h.kept
  · have hrank : rank (due (w.modify i f)) w.heap.items = rank (due w) w.heap.items := by
      apply IndexedHeap.rank_congr
      intro j hj
      unfold due
      by_cases hji : j = i
      · subst j
        rw [slots_modify_self, hdue hj]
      · rw [slots_modify_of_ne w f hji]
    change Ordered (rank (due (w.modify i f)) w.heap.items)
    rw [hrank]
    exact h.ordered

theorem Tended.update (h : Tended w inside) (hi : w.Used i) :
    Tended (maintenanceUpdate i w) (Function.update inside i true) := by
  rw [maintenanceUpdate_used hi]
  have hout := h.take hi
  have hnot : i ∉ (maintenanceRemove i w).heap.items := by
    rw [hout.members, Function.update_self]
    nofun
  have hdated := hout.modify (i := i)
    (f := fun s => { s with maintenanceAt := dueAt s }) rfl fun hin => absurd hin hnot
  have hused : ((maintenanceRemove i w).modify i fun s =>
      { s with maintenanceAt := dueAt s }).Used i := by
    unfold Worker.Used Worker.dest
    rw [slots_modify_self]
    exact hi
  generalize (maintenanceRemove i w).modify i
    (fun s => { s with maintenanceAt := dueAt s }) = w' at hdated hused ⊢
  have hnot' : i ∉ w'.heap.items := by
    rw [hdated.members, Function.update_self]
    nofun
  obtain ⟨hkept, hmem⟩ := hdated.kept.insert hused hnot' w'.before
  refine ⟨hkept, ?_, ?_⟩
  · unfold maintenanceInsert
    rw [before_eq]
    exact IndexedHeap.insert_ordered hdated.ordered
  · intro j
    have hj : j ∈ (maintenanceInsert i w').heap.items ↔
        Function.update (Function.update inside i false) i true j = true :=
      members_mark true hdated.members ⟨fun _ => rfl, fun _ => (hmem i).mpr (Or.inl rfl)⟩
        (fun j hji => (hmem j).trans (or_iff_right hji)) j
    rwa [Function.update_idem] at hj

theorem Tended.elsewhere (h : Tended w inside) (hout : i ∉ w.heap.items)
    (hitems : w'.heap.items = w.heap.items)
    (hslots : ∀ j, j ≠ i → w'.slots j = w.slots j)
    (hindex : ∀ j, j ≠ i → w'.heap.index j = w.heap.index j)
    (hself : w'.Used i → w'.heap.index i = destMax ∧ i < destMax) :
    Tended w' (Function.update inside i false) := by
  have hne : ∀ j ∈ w.heap.items, j ≠ i := fun j hj hji => hout (hji ▸ hj)
  have hused : ∀ j, j ≠ i → (w'.Used j ↔ w.Used j) := by
    intro j hj
    unfold Worker.Used Worker.dest
    rw [hslots j hj]
  refine ⟨⟨?_, ?_, ?_, ?_⟩, ?_, ?_⟩
  · intro k j hk
    rw [hitems] at hk
    rw [hindex j (hne j (List.mem_of_getElem? hk))]
    exact h.kept.indexed k j hk
  · intro j hj
    rw [hitems] at hj
    exact (hused j (hne j hj)).mpr (h.kept.members j hj)
  · intro j hj hnot
    rw [hitems] at hnot
    by_cases hji : j = i
    · rw [hji] at hj ⊢
      exact (hself hj).1
    · rw [hindex j hji]
      exact h.kept.away j ((hused j hji).mp hj) hnot
  · intro j hj
    by_cases hji : j = i
    · rw [hji] at hj ⊢
      exact (hself hj).2
    · exact h.kept.bound j ((hused j hji).mp hj)
  · have hrank : rank (due w') w.heap.items = rank (due w) w.heap.items :=
      IndexedHeap.rank_congr fun j hj => by rw [due, due, hslots j (hne j hj)]
    rw [hitems, hrank]
    exact h.ordered
  · rw [hitems]
    exact members_mark false h.members ⟨fun hin => absurd hin hout, nofun⟩ fun _ _ => Iff.rfl

theorem Tended.alloc (h : Tended w inside) (hi : freeSlot w = some i) :
    Tended (alloc i w) (Function.update inside i false) := by
  unfold freeSlot at hi
  have hunused : ¬w.Used i := by
    have hfound := List.find?_some hi
    unfold Worker.Used
    simpa using hfound
  have hbound := List.mem_range.mp (List.mem_of_find?_eq_some hi)
  have hitems : (RtmpVisits.alloc i w).heap.items = w.heap.items := rfl
  apply h.elsewhere (fun hin => hunused (h.kept.members i hin)) hitems
  · intro j hj
    rw [RtmpStranded.alloc_slots, Function.update_of_ne hj]
  · intro j hj
    change Function.update (Function.update w.heap.index i 0) i destMax j = _
    rw [Function.update_of_ne hj, Function.update_of_ne hj]
  · exact fun _ => ⟨Function.update_self .., hbound⟩

theorem unschedule_due (i : ℕ) (w : Worker) : due (unschedule i w) = due w := by
  funext j
  unfold unschedule
  split
  · rfl
  · exact slots_modify_field Slot.maintenanceAt w i (fun s => { s with queued := false }) rfl j

theorem Tended.remove (h : Tended w inside) (hi : w.Used i) :
    Tended (remove i w) (Function.update inside i false) := by
  have hqueued := unschedule_queued i (w.setDest i { w.dest i with used := false })
  have hheap := unschedule_heap i (w.setDest i { w.dest i with used := false })
  have hslots := (unschedule_onSlot i (w.setDest i { w.dest i with used := false })).others
  have hdest := unschedule_dest i (w.setDest i { w.dest i with used := false }) i
  have hdue : due (unschedule i (w.setDest i { w.dest i with used := false })) = due w :=
    (unschedule_due i _).trans (funext (slots_modify_field Slot.maintenanceAt w i _ rfl))
  unfold RtmpVisits.remove
  rw [if_neg (by rw [hi]; nofun)]
  dsimp only
  generalize unschedule i (w.setDest i { w.dest i with used := false }) = v
    at hqueued hheap hslots hdest hdue ⊢
  have htaken := h.take hi
  have hsame : (maintenanceRemove i v).heap = (maintenanceRemove i w).heap := by
    unfold maintenanceRemove
    rw [before_eq, before_eq, hdue, hheap]
    rfl
  have hnot : i ∉ (maintenanceRemove i w).heap.items := by
    rw [htaken.members, Function.update_self]
    nofun
  have haway : (maintenanceRemove i v).heap.items.length ≤
      (maintenanceRemove i v).heap.index i := by
    rw [hsame, htaken.kept.away i hi hnot]
    exact htaken.kept.length_le
  have hunused : ¬(maintenanceRemove i v).Used i := by
    unfold Worker.Used
    change ¬(v.dest i).used = true
    rw [hdest, dest_setDest]
    nofun
  rw [RtmpStranded.release_unused (w := maintenanceRemove i v) hqueued hunused haway,
    RtmpStranded.wipe_modify]
  have hitems : (wipe i (maintenanceRemove i v)).heap.items = (maintenanceRemove i w).heap.items := by
    change (maintenanceRemove i v).heap.items = _
    rw [hsame]
  have hwiped : Tended (wipe i (maintenanceRemove i v))
      (Function.update (Function.update inside i false) i false) := by
    apply htaken.elsewhere hnot hitems
    · intro j hj
      change Function.update v.slots i Slot.blank j = w.slots j
      rw [Function.update_of_ne hj, hslots j hj]
      exact slots_modify_of_ne w _ hj
    · intro j hj
      change Function.update (maintenanceRemove i v).heap.index i 0 j = _
      rw [Function.update_of_ne hj, hsame]
    · intro hused
      change (Function.update v.slots i Slot.blank i).dest.used = true at hused
      rw [Function.update_self] at hused
      cases hused
  rw [Function.update_idem] at hwiped
  exact ⟨hwiped.kept, hwiped.ordered, hwiped.members⟩

theorem perform_tended {b : Books} (h : Tended b.worker b.inside) (op : Op) :
    Tended (perform b op).worker (perform b op).inside := by
  cases op with
  | alloc =>
    unfold perform
    cases hfree : freeSlot b.worker with
    | none => exact h
    | some i => exact h.alloc hfree
  | times i lastReport retryAt deadline state =>
    exact h.modify (f := fun s =>
      { s with
        dest := { s.dest with retryAt := retryAt, state := state }
        lastReport := lastReport
        deadline := deadline }) rfl fun _ => rfl
  | update i =>
    unfold perform
    dsimp only
    split_ifs with hi
    · exact h.update hi
    · exact h
  | take i =>
    unfold perform
    dsimp only
    split_ifs with hi
    · exact h.take hi
    · exact h
  | remove i =>
    unfold perform
    dsimp only
    split_ifs with hi
    · exact h.remove hi
    · exact h

theorem run_tended (preps : ℕ → RtmpPrepare.Prepare) (ops : List Op) :
    Tended (run preps ops).worker (run preps ops).inside := by
  have hinit : Tended (Worker.init preps) fun _ => false := by
    refine ⟨⟨?_, ?_, ?_, ?_⟩, ?_, ?_⟩
    · exact fun k i hk => by cases hk
    · exact fun i hi => by cases hi
    · exact fun i hi => by cases hi
    · exact fun i hi => by cases hi
    · exact fun c _ => le_of_eq rfl
    · exact fun i => ⟨fun hi => (List.not_mem_nil hi).elim, nofun⟩
  exact StepRun.invariant (I := fun b : Books => Tended b.worker b.inside)
    (fun b op hb => perform_tended hb op) hinit ops

/-- After any operations the heap is in order, its slots are those last put in and know their place,
any other slot in use has an index behind them, and the root is due first. -/
theorem maintenance_heap (preps : ℕ → RtmpPrepare.Prepare) (ops : List Op) :
    let b := run preps ops
    let heap := b.worker.heap
    (∀ c i j, 0 < c → heap.items[(c - 1) / 2]? = some i → heap.items[c]? = some j →
      due b.worker i ≤ due b.worker j) ∧
    heap.items.Nodup ∧
    (∀ k i, heap.items[k]? = some i → heap.index i = k ∧ b.worker.Used i ∧ i < destMax) ∧
    (∀ i, b.worker.Used i → i ∉ heap.items → heap.items.length ≤ heap.index i) ∧
    (∀ i, i ∈ heap.items ↔ b.inside i = true) ∧
    (∀ root, heap.items.head? = some root → ∀ i ∈ heap.items,
      due b.worker root ≤ due b.worker i) ∧
    heap.items.length ≤ destMax := by
  have h := run_tended preps ops
  dsimp only
  generalize run preps ops = b at h ⊢
  refine ⟨?_, h.kept.indexed.nodup, ?_, ?_, h.members, ?_, h.kept.length_le⟩
  · intro c i j hc hi hj
    have hle := h.ordered c hc
    rw [IndexedHeap.rank_some hi, IndexedHeap.rank_some hj] at hle
    exact WithTop.coe_le_coe.mp hle
  · intro k i hk
    have hused := h.kept.members i (List.mem_of_getElem? hk)
    exact ⟨h.kept.indexed k i hk, hused, h.kept.bound i hused⟩
  · intro i hi hout
    rw [h.kept.away i hi hout]
    exact h.kept.length_le
  · exact fun root hroot i hi => IndexedHeap.root_first h.ordered hroot hi

end RtmpMaintenance
