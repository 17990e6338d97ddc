import NginxMedia.RtmpSurvival
import NginxMedia.RtmpVisitSteps

/-! Whether a destination that can be served is ever left behind. The run list and its event are
kept in every run; the destinations are served as long as no read event empties the queue of one
that has units waiting, and none announces headers that others have to send. -/
namespace RtmpStranded

open MediaTypes ByteString RtmpFanout RtmpOutput RtmpPrepare RtmpDestination RtmpWorker
open RtmpVisits
open RtmpReplies (Moment Target Recv)

variable {w w' : Worker} {i j : ℕ} {hole : Option ℕ} {stream : ℕ} {prepared pool : Bool}

structure Settled (w : Worker) : Prop where
  sound : Sound none w
  enrolled : Enrolled w
  running : w.running = false

structure Continues (w w' : Worker) : Prop where
  settled : Settled w'
  exiting : w'.exiting = w.exiting
  attended : w.exiting = false → Attended (fun _ => True) w → Attended (fun _ => True) w'

theorem Continues.refl (h : Settled w) : Continues w w := ⟨h, rfl, fun _ ha => ha⟩

theorem unused_out (hs : Sound none w) (hi : ¬w.Used i) :
    (w.slots i).queued = false ∧ i ∉ w.heap.items :=
  ⟨Bool.eq_false_iff.mpr fun hq => hi (hs.queued i hq), fun hmem => hi (hs.kept.members i hmem)⟩

def fresh (stream : ℕ) (prepared : Bool) (now : ℕ) : Slot :=
  { Slot.blank with
    dest := { Slot.blank.dest with used := true, prepared := prepared }
    stream := stream
    lastReport := now }

/-- A slot that is taken and set up. -/
def placed (stream : ℕ) (prepared : Bool) (i : ℕ) (w : Worker) : Worker :=
  configure stream prepared i { alloc i w with initialized := true }

theorem alloc_slots (i : ℕ) (w : Worker) : (alloc i w).slots = Function.update w.slots i
    { Slot.blank with dest := { Slot.blank.dest with used := true } } := by
  have hself : (wipe i w).slots i = .blank := Function.update_self ..
  unfold alloc Worker.setDest Worker.modify
  dsimp only
  rw [Worker.dest, hself]
  exact Function.update_idem ..

theorem placed_slots (i : ℕ) (w : Worker) : (placed stream prepared i w).slots =
    Function.update w.slots i (fresh stream prepared w.now) := by
  have hself : (alloc i w).slots i =
      { Slot.blank with dest := { Slot.blank.dest with used := true } } := by
    rw [alloc_slots, Function.update_self]
  unfold placed configure Worker.modify
  dsimp only
  rw [hself, alloc_slots]
  exact Function.update_idem ..

theorem taken_sound (hs : Sound none w) (hi : ¬w.Used i) (hbound : i < destMax) {s : Slot}
    (hslots : w'.slots = Function.update w.slots i s) (hused : s.dest.used = true)
    (hidle : s.queued = false ∧ s.dest.metadataSent = false) (hrun : w'.run = w.run.clear i)
    (hcount : w'.runnable = w.runnable) (hposted : w'.posted = w.posted)
    (hrunning : w'.running = w.running)
    (hheap : w'.heap =
      ⟨w.heap.items, Function.update (Function.update w.heap.index i 0) i destMax⟩) :
    Sound (some i) w' := by
  obtain ⟨hqueued, hout⟩ := unused_out hs hi
  obtain ⟨xs, hlist⟩ := hs.list
  have hnot : i ∉ xs := by
    rw [hlist.marked, hqueued]
    exact Bool.false_ne_true
  have hself : w'.slots i = s := by rw [hslots, Function.update_self]
  have hother : ∀ j, j ≠ i → w'.slots j = w.slots j := fun j hj => by
    rw [hslots, Function.update_of_ne hj]
  have huse : ∀ j, w'.Used j ↔ j = i ∨ w.Used j := by
    intro j
    unfold Worker.Used
    by_cases hj : j = i
    · subst j
      rw [Worker.dest, hself]
      exact iff_of_true hused (Or.inl rfl)
    · rw [Worker.dest, hother j hj, Worker.dest]
      exact ⟨Or.inr, fun h => h.resolve_left hj⟩
  have hne : ∀ j ∈ w.heap.items, j ≠ i := by
    rintro j hj rfl
    exact hout hj
  have hindex : ∀ j, j ≠ i → w'.heap.index j = w.heap.index j := by
    intro j hj
    rw [hheap]
    exact (Function.update_of_ne hj ..).trans (Function.update_of_ne hj ..)
  have hitems : w'.heap.items = w.heap.items := by rw [hheap]
  refine ⟨⟨xs, ?_, fun j => ?_, hcount.trans hlist.counted⟩, ?_, ⟨?_, ?_, ?_, ?_⟩, ?_, ?_, ?_⟩
  · rw [hrun]
    exact hlist.linked.clear hnot
  · by_cases hj : j = i
    · subst j
      rw [hself, hidle.1]
      exact iff_of_false hnot Bool.false_ne_true
    · rw [hother j hj]
      exact hlist.marked j
  · rw [hrun, hposted, hrunning]
    exact hs.posted
  · intro k j hj
    rw [hitems] at hj
    rw [hindex j (hne j (List.mem_of_getElem? hj))]
    exact hs.kept.indexed k j hj
  · intro j hj
    rw [hitems] at hj
    exact (huse j).mpr (Or.inr (hs.kept.members j hj))
  · intro j hj hnotin
    rw [hitems] at hnotin
    by_cases hji : j = i
    · subst j
      rw [hheap]
      exact Function.update_self ..
    · rw [hindex j hji]
      exact hs.kept.away j (((huse j).mp hj).resolve_left hji) hnotin
  · intro j hj
    rcases (huse j).mp hj with rfl | hold
    · exact hbound
    · exact hs.kept.bound j hold
  · intro j hj
    rw [hitems]
    rcases (huse j).mp hj with rfl | hold
    · exact Or.inr rfl
    · exact Or.inl ((hs.filled j hold).resolve_right (Option.some_ne_none j).symm)
  · intro j hj
    by_cases hji : j = i
    · exact (huse j).mpr (Or.inl hji)
    · rw [hother j hji] at hj
      exact (huse j).mpr (Or.inr (hs.queued j hj))
  · intro j
    by_cases hji : j = i
    · subst j
      rw [Worker.dest, hself]
      refine ⟨fun _ => hused, ?_, ?_, ?_⟩ <;>
      · rw [hidle.2]
        exact fun h => absurd h Bool.false_ne_true
    · rw [Worker.dest, hother j hji]
      exact hs.proper j

theorem wiped_enrolled (he : Enrolled w) (hdestinations : w'.destinations = w.destinations)
    (hothers : ∀ j, j ≠ i → w'.slots j = w.slots j) (hinitialized : w'.initialized = true) :
    Enrolled (wipe i w') := by
  intro j hj
  have hji : j ≠ i := by
    rintro rfl
    unfold Worker.Used at hj
    rw [Worker.dest, wipe_slot] at hj
    cases hj
  have hused : w.Used j := by
    unfold Worker.Used at hj ⊢
    rwa [Worker.dest, wipe_other w' hji, hothers j hji] at hj
  rw [wipe_other w' hji, hothers j hji]
  refine ⟨?_, hinitialized⟩
  change j ∈ w'.destinations _
  rw [hdestinations]
  exact (he j hused).1

structure Replaces (i : ℕ) (w w' : Worker) : Prop where
  sound : Sound (some i) w'
  others : ∀ j, j ≠ i → w'.slots j = w.slots j
  preps : w'.preps = w.preps
  destinations : w'.destinations = w.destinations
  initialized : w'.initialized = true
  exiting : w'.exiting = w.exiting
  running : w'.running = w.running
  idle : (w'.slots i).queued = false ∧ (w'.dest i).metadataSent = false
  heap : i ∉ w'.heap.items

theorem alloc_replaces (hs : Sound none w) (hi : ¬w.Used i) (hbound : i < destMax) :
    Replaces i w { alloc i w with initialized := true } := by
  have hslots := alloc_slots i w
  refine ⟨taken_sound hs hi hbound hslots rfl ⟨rfl, rfl⟩ rfl rfl rfl rfl rfl, fun j hj => ?_, rfl,
    rfl, rfl, rfl, rfl, ?_, (unused_out hs hi).2⟩
  · exact (congrFun hslots j).trans (Function.update_of_ne hj ..)
  · have hself := (congrFun hslots i).trans (Function.update_self ..)
    exact ⟨congrArg Slot.queued hself, congrArg (fun s : Slot => s.dest.metadataSent) hself⟩

theorem placed_replaces (hs : Sound none w) (hi : ¬w.Used i) (hbound : i < destMax) :
    Replaces i w (placed stream prepared i w) := by
  have hslots := @placed_slots stream prepared i w
  refine ⟨taken_sound hs hi hbound hslots rfl ⟨rfl, rfl⟩ rfl rfl rfl rfl rfl, fun j hj => ?_, rfl,
    rfl, rfl, rfl, rfl, ?_, (unused_out hs hi).2⟩
  · rw [hslots, Function.update_of_ne hj]
  · unfold Worker.dest
    rw [hslots, Function.update_self]
    exact ⟨rfl, rfl⟩

theorem Replaces.wiped (h : Replaces i w w') (he : Settled w) : Continues w (wipe i w') := by
  refine ⟨⟨wipe_sound h.sound (Or.inr rfl) h.idle.1 h.heap,
    wiped_enrolled he.enrolled h.destinations h.others h.initialized, h.running.trans he.running⟩,
    h.exiting, fun _ ha => ?_⟩
  refine attended_of_others (i := i) (fun j hj => ?_) h.preps ?_ ha
  · rw [wipe_other w' hj, h.others j hj]
  · rw [Worker.dest, wipe_slot]
    rfl

theorem placed_dest (i : ℕ) (w : Worker) : (placed stream prepared i w).dest i =
    { Slot.blank.dest with used := true, prepared := prepared } := by
  unfold Worker.dest
  rw [placed_slots, Function.update_self]
  rfl

/-- The end of an `add`: the destination is in its stream's list and in the heap. -/
theorem enlisted_continues (h : Settled w) {v : Worker} (hplaced : Replaces i w v)
    (hused : v.Used i) (hstream : (v.slots i).stream = stream) (hworks : Works i v w') :
    Continues w (maintenanceUpdate i (enlist stream i w')) := by
  have hsound' := hworks.sound (some i) hplaced.sound
  have hsound : Sound (some i) (enlist stream i w') :=
    ⟨hsound'.list.imp fun _ hl => ⟨hl.linked, hl.marked, hl.counted⟩, hsound'.posted, hsound'.kept,
      hsound'.filled, hsound'.queued, hsound'.proper⟩
  have hused' : (enlist stream i w').Used i := by
    change w'.Used i
    rw [hworks.onSlot.used_eq]
    exact hused
  have hupdate := maintenanceUpdate_onSlot i (enlist stream i w')
  have hdestinations : (maintenanceUpdate i (enlist stream i w')).destinations =
      Function.update w.destinations stream (w.destinations stream ++ [i]) := by
    rw [hupdate.destinations]
    unfold enlist
    dsimp only
    rw [hworks.onSlot.destinations, hplaced.destinations]
  refine ⟨⟨maintenanceUpdate_sound hsound hused' (Or.inr rfl), fun j hj => ?_, ?_⟩, ?_, ?_⟩
  · have hinitialized : (maintenanceUpdate i (enlist stream i w')).initialized = true := by
      rw [hupdate.initialized]
      exact hworks.onSlot.initialized.trans hplaced.initialized
    refine ⟨?_, hinitialized⟩
    rw [hdestinations, hupdate.stream_eq]
    change j ∈ (Function.update w.destinations stream (w.destinations stream ++ [i]) : ℕ → List ℕ)
      (w'.slots j).stream
    rw [hworks.onSlot.stream_eq]
    by_cases hji : j = i
    · rw [hji, hstream, Function.update_self]
      exact List.mem_append_right _ (List.mem_singleton_self i)
    · have hold : w.Used j := by
        rw [hupdate.used_eq] at hj
        change w'.Used j at hj
        rw [hworks.onSlot.used_eq] at hj
        unfold Worker.Used Worker.dest at hj ⊢
        rwa [hplaced.others j hji] at hj
      rw [hplaced.others j hji]
      have hin := (h.enrolled j hold).1
      by_cases hs : (w.slots j).stream = stream
      · rw [hs] at hin ⊢
        rw [Function.update_self]
        exact List.mem_append_left _ hin
      · rwa [Function.update_of_ne hs]
  · exact (hupdate.running.trans (hworks.onSlot.running.trans hplaced.running)).trans h.running
  · exact hupdate.exiting.trans (hworks.onSlot.exiting.trans hplaced.exiting)
  · intro hexiting ha
    have hv : Attended (fun _ => True) v :=
      attended_of_others hplaced.others hplaced.preps hplaced.idle.2 ha
    have hexits := hplaced.exiting.trans hexiting
    have hw' : Attended (fun _ => True) (enlist stream i w') :=
      hworks.tends (some i) _ hplaced.sound hexits hv
    exact (maintenanceUpdate_works hused').tends (some i) _ hsound
      (hworks.onSlot.exiting.trans hexits) hw'

theorem add_continues (h : Settled w) (c : Connect) :
    Continues w (add stream prepared pool c w) := by
  unfold add
  cases hfree : freeSlot w with
  | none => exact .refl h
  | some i =>
    obtain ⟨hi, hbound⟩ := freeSlot_spec hfree
    dsimp only
    split
    · exact (alloc_replaces h.sound hi hbound).wiped h
    have hplaced := @placed_replaces w i stream prepared h.sound hi hbound
    have hdest := @placed_dest stream prepared i w
    have hused : (placed stream prepared i w).Used i := by
      unfold Worker.Used
      rw [hdest]
    have hstream : ((placed stream prepared i w).slots i).stream = stream := by
      rw [placed_slots, Function.update_self]
      rfl
    have hconnect := connect_works hused (by rw [hdest]; nofun) c
    have hdeclined : (connect c i (placed stream prepared i w)).2 = .declined →
        (connect c i (placed stream prepared i w)).1 = placed stream prepared i w := by
      cases c with
      | declined => exact fun _ => rfl
      | unavailable => nofun
      | refused => nofun
      | inProgress => nofun
      | connected raw packet socket =>
        unfold connect
        dsimp only
        split <;> nofun
    change Continues w (admitted stream (connect c i (placed stream prepared i w)).2 i
      (connect c i (placed stream prepared i w)).1)
    generalize connect c i (placed stream prepared i w) = r at hconnect hdeclined ⊢
    obtain ⟨w', rc⟩ := r
    dsimp only at hconnect hdeclined ⊢
    unfold admitted
    split
    · rename_i hrc
      rw [hdeclined hrc]
      exact hplaced.wiped h
    · refine enlisted_continues h hplaced hused hstream ?_
      split
      · exact hconnect
      · refine hconnect.trans (setDest_waits rfl
          (fun hp => ⟨hp.used, hp.connection, hp.prepared, hp.publishing⟩) ?_)
        dsimp only
        split_ifs with hzero
        · unfold retryDelay
          omega
        · exact hzero

theorem maintenanceRemove_absent (haway : w.heap.items.length ≤ w.heap.index i) :
    maintenanceRemove i w = w := by
  unfold maintenanceRemove
  rw [IndexedHeap.remove_absent _ haway]

theorem release_unused (hqueued : (w.slots i).queued = false) (hunused : ¬w.Used i)
    (haway : w.heap.items.length ≤ w.heap.index i) :
    release i w = w.modify i fun s => { s with dest := s.dest.release w.now, deadline := 0 } := by
  have hoff : unschedule i w = w := if_pos hqueued
  have hsame : ¬(w.modify i fun s =>
      { s with dest := s.dest.release w.now, deadline := 0 }).Used i := by
    unfold Worker.Used Worker.dest
    rw [slots_modify_self]
    exact hunused
  have hkept := maintenanceRemove_absent (i := i)
    (w := w.modify i fun s => { s with dest := s.dest.release w.now, deadline := 0 }) haway
  unfold release
  dsimp only
  rw [hoff]
  unfold maintenanceUpdate
  dsimp only
  rw [hkept]
  exact if_neg hsame

theorem wipe_modify (f : Slot → Slot) : wipe i (w.modify i f) = wipe i w := by
  unfold wipe Worker.modify
  dsimp only
  rw [Function.update_idem]

theorem remove_continues (h : Settled w) (i : ℕ) : Continues w (remove i w) := by
  unfold remove
  split
  · exact .refl h
  rename_i hin
  have hi : w.Used i := by
    unfold Worker.Used
    rwa [Bool.not_eq_false] at hin
  dsimp only
  -- the slot is no longer in use, but still in the list and in the heap
  have hmark : ∀ j, ((w.setDest i { w.dest i with used := false }).slots j).queued =
      (w.slots j).queued := slots_modify_field Slot.queued w i _ rfl
  obtain ⟨xs, hlist⟩ := h.sound.list
  have hlist₁ : Listed (w.setDest i { w.dest i with used := false }) xs :=
    ⟨hlist.linked, fun j => by rw [hmark, hlist.marked], hlist.counted⟩
  have hlist₂ := hlist₁.unschedule i
  have hposted := unschedule_posted hlist₁ h.sound.posted i
  have honslot := unschedule_onSlot i (w.setDest i { w.dest i with used := false })
  have hdest := unschedule_dest i (w.setDest i { w.dest i with used := false }) i
  have hqueued := unschedule_queued i (w.setDest i { w.dest i with used := false })
  have hheap := unschedule_heap i (w.setDest i { w.dest i with used := false })
  generalize unschedule i (w.setDest i { w.dest i with used := false }) = w₂
    at hlist₂ hposted honslot hdest hqueued hheap ⊢
  have hother : ∀ j, j ≠ i → w₂.slots j = w.slots j := fun j hj =>
    (honslot.others j hj).trans (slots_modify_of_ne w _ hj)
  obtain ⟨hkept, hmem⟩ := h.sound.kept.remove hi w₂.before
  rw [show w.heap = w₂.heap from hheap.symm] at hkept hmem
  have hgone : i ∉ (maintenanceRemove i w₂).heap.items := fun hin => ((hmem i).mp hin).2 rfl
  have hunused : ¬(maintenanceRemove i w₂).Used i := by
    unfold Worker.Used
    change ¬(w₂.dest i).used = true
    rw [hdest, dest_setDest]
    nofun
  have haway : (maintenanceRemove i w₂).heap.items.length ≤
      (maintenanceRemove i w₂).heap.index i := by
    have hindex : (maintenanceRemove i w₂).heap.index i = destMax := hkept.away i hi hgone
    rw [hindex]
    exact hkept.length_le
  rw [release_unused (w := maintenanceRemove i w₂) hqueued hunused haway, wipe_modify]
  have hused : ∀ j, j ≠ i → ((maintenanceRemove i w₂).Used j ↔ w.Used j) := by
    intro j hj
    unfold Worker.Used Worker.dest
    change (w₂.slots j).dest.used = true ↔ _
    rw [hother j hj]
  have hsound : Sound none (wipe i (maintenanceRemove i w₂)) := by
    refine wipe_books ⟨hlist₂.linked, hlist₂.marked, hlist₂.counted⟩ ?_ hposted
      hkept hgone hused (fun j hj hold => (hmem j).mpr ⟨?_, hj⟩) (fun j hj => ?_) fun j hj => ?_
    · exact fun hin => (hlist.linked.nodup.mem_erase_iff.mp hin).1 rfl
    · rw [hheap]
      exact (h.sound.filled j hold).resolve_right nofun
    · exact h.sound.queued j ((hlist.marked j).mp (List.mem_of_mem_erase hj))
    · change Proper (w₂.dest j)
      rw [Worker.dest, hother j hj]
      exact h.sound.proper j
  have hwiped : ∀ j, j ≠ i → (wipe i (maintenanceRemove i w₂)).slots j = w.slots j := fun j hj =>
    (wipe_other _ hj).trans (hother j hj)
  refine ⟨⟨⟨hsound.list.imp fun _ hl => ⟨hl.linked, hl.marked, hl.counted⟩, hsound.posted,
    hsound.kept, hsound.filled, hsound.queued, hsound.proper⟩, fun j hj => ?_, ?_⟩, ?_,
    fun _ ha => ?_⟩
  · have hji : j ≠ i := by
      rintro rfl
      change ((wipe j (maintenanceRemove j w₂)).dest j).used = true at hj
      rw [Worker.dest, wipe_slot] at hj
      cases hj
    have hold : w.Used j := by
      change ((wipe i (maintenanceRemove i w₂)).slots j).dest.used = true at hj
      rwa [hwiped j hji] at hj
    obtain ⟨hin, hinit⟩ := h.enrolled j hold
    refine ⟨?_, honslot.initialized.trans hinit⟩
    change j ∈ (Function.update w₂.destinations (w.slots i).stream
      ((w₂.destinations (w.slots i).stream).erase i) : ℕ → List ℕ)
      ((wipe i (maintenanceRemove i w₂)).slots j).stream
    rw [hwiped j hji, honslot.destinations]
    by_cases hs : (w.slots j).stream = (w.slots i).stream
    · rw [hs] at hin ⊢
      rw [Function.update_self]
      exact (List.mem_erase_of_ne hji).mpr hin
    · rwa [Function.update_of_ne hs]
  · exact honslot.running.trans h.running
  · exact honslot.exiting
  · refine attended_of_others (i := i) hwiped honslot.preps ?_ ha
    change ((wipe i (maintenanceRemove i w₂)).dest i).metadataSent = false
    rw [Worker.dest, wipe_slot]
    rfl

theorem init_settled (preps : ℕ → Prepare) : Settled (Worker.init preps) := by
  have hunused : ∀ i, ¬(Worker.init preps).Used i := fun _ h => by cases h
  have hlist : Listed (Worker.init preps) [] :=
    ⟨DoublyLinked.linked_empty, fun i => ⟨fun h => (List.not_mem_nil h).elim, nofun⟩, rfl⟩
  refine ⟨⟨⟨[], hlist⟩, fun h => (h rfl).elim, ⟨?_, ?_, ?_, ?_⟩, ?_, ?_,
    fun _ => ⟨nofun, nofun, nofun, nofun⟩⟩, ?_, rfl⟩
  · intro k i hi
    cases hi
  · exact fun i hi => (List.not_mem_nil hi).elim
  · exact fun i hi => (hunused i hi).elim
  · exact fun i hi => (hunused i hi).elim
  · exact fun i hi => (hunused i hi).elim
  · exact fun i hi => by cases hi
  · exact fun i hi => (hunused i hi).elim

theorem settled_of_turns (h : Settled w) {r : Worker × List Note} (ht : Turns w r) :
    Settled r.1 :=
  ⟨ht.sound h.sound, ht.frame.enrolled h.enrolled, ht.frame.running.trans h.running⟩

structure Proceeds (w : Worker) (r : Worker × List Note) : Prop where
  settled : Settled r.1
  exiting : r.1.exiting = w.exiting
  attended : (∀ note ∈ r.2, ¬note.Harmful) → w.exiting = false →
    Attended (fun _ => True) w → Attended (fun _ => True) r.1

theorem proceeds_of_turns (h : Settled w) {r : Worker × List Note} (ht : Turns w r) :
    Proceeds w r :=
  ⟨settled_of_turns h ht, ht.frame.exiting, fun hnotes hexiting ha =>
    ht.tends hnotes h.sound hexiting ha⟩

theorem Continues.proceeds (h : Continues w w') : Proceeds w (w', []) :=
  ⟨h.settled, h.exiting, fun _ => h.attended⟩

theorem perform_proceeds (h : Settled w) (e : Event) (he : e ≠ .exit) :
    Proceeds w (perform w e) := by
  cases e with
  | time now =>
    refine ⟨⟨⟨?_, h.sound.posted, h.sound.kept, h.sound.filled, h.sound.queued, h.sound.proper⟩,
      h.enrolled, h.running⟩, rfl, fun _ _ ha => ha⟩
    exact h.sound.list.imp fun _ hl => ⟨hl.linked, hl.marked, hl.counted⟩
  | exit => exact (he rfl).elim
  | media stream units =>
    exact proceeds_of_turns h (mediaArrives_turns stream units h.sound h.enrolled)
  | visit v =>
    unfold perform
    dsimp only
    split
    · exact proceeds_of_turns h (schedulerHandler_turns v h.running h.sound)
    · exact proceeds_of_turns h (.refl w)
  | maintenance connects =>
    exact proceeds_of_turns h (maintenanceHandler_turns connects h.sound)
  | write i failed raw packet socket =>
    exact proceeds_of_turns h (writeHandler_turns failed raw packet socket i h.sound)
  | read i env target script =>
    exact proceeds_of_turns h (readHandler_turns env target i script h.sound)
  | add stream prepared pool c => exact (add_continues h c).proceeds
  | remove i => exact (remove_continues h i).proceeds

theorem perform_settled (h : Settled w) (e : Event) : Settled (RtmpVisits.step w e) := by
  by_cases he : e = .exit
  · subst e
    refine ⟨⟨?_, h.sound.posted, h.sound.kept, h.sound.filled, h.sound.queued, h.sound.proper⟩,
      h.enrolled, h.running⟩
    exact h.sound.list.imp fun _ hl => ⟨hl.linked, hl.marked, hl.counted⟩
  · exact (perform_proceeds h e he).settled

theorem run_settled (preps : ℕ → Prepare) (events : List Event) :
    Settled (RtmpVisits.run preps events) :=
  @StepRun.invariant _ _ RtmpVisits.step Settled (fun _ e h => perform_settled h e) _
    (init_settled preps) events

/-- The run list holds the destinations that are marked as queued, once each, linked both ways and
counted; while it holds any, the scheduler event is posted. -/
def Orderly (w : Worker) : Prop := ∃ xs, Listed w xs ∧ (xs ≠ [] → w.posted = true)

def Served (w : Worker) : Prop :=
  ∀ i, (w.dest i).state = .publishing → (w.dest i).writeBlocked = false →
    (w.dest i).out.out = [] → (w.dest i).metadataSent = true →
    (next (w.fan i) (w.dest i).cursor).isSome = true →
    (w.slots i).queued = true ∨ ((w.dest i).retryAt ≠ 0 ∧ i ∈ w.heap.items)

/-- An event of a worker that runs on. No flush of the read handler empties the queue of a
destination that has units waiting and is not in the run list, and no visit announces headers while
another destination of the stream stands idle. -/
def Allowed (w : Worker) (e : Event) : Prop :=
  e ≠ .exit ∧ ∀ note ∈ (perform w e).2, ¬note.Harmful

theorem Settled.orderly (h : Settled w) : Orderly w := by
  obtain ⟨xs, hlist⟩ := h.sound.list
  refine ⟨xs, hlist, fun hne => ?_⟩
  have hhead : w.run.head ≠ none := by
    rw [hlist.head]
    exact fun hnone => hne (List.head?_eq_none_iff.mp hnone)
  exact (h.sound.posted hhead).resolve_right (by rw [h.running]; nofun)

theorem Settled.served (h : Settled w) (ha : Attended (fun _ => True) w) : Served w := by
  intro i hpublishing hunblocked hempty hmetadata hwaiting
  have hproper := h.sound.proper i
  have hused : w.Used i := hproper.used (hproper.connection hmetadata)
  refine (ha i trivial ⟨hpublishing, hunblocked, hempty, hmetadata,
    hproper.prepared hmetadata, hwaiting⟩).imp id fun hretry => ⟨hretry, ?_⟩
  exact (h.sound.filled i hused).resolve_right nofun

/-- In every run the run list and its event are kept; in a run without the two kinds of event that
leave a destination asleep, every destination that can be served is served. -/
theorem destinations_served (preps : ℕ → Prepare) (events : List Event) :
    Orderly (RtmpVisits.run preps events) ∧
      (StepRun.Meets RtmpVisits.step Allowed (Worker.init preps) events →
        Served (RtmpVisits.run preps events)) := by
  refine ⟨(run_settled preps events).orderly, fun hmeets => ?_⟩
  have hinit : Attended (fun _ => True) (Worker.init preps) := fun i _ hready => by
    cases hready.publishing
  have hrun : Settled (RtmpVisits.run preps events) ∧
      (RtmpVisits.run preps events).exiting = false ∧
      Attended (fun _ => True) (RtmpVisits.run preps events) := by
    refine StepRun.invariant_of_meets (I := fun w => Settled w ∧ w.exiting = false ∧
      Attended (fun _ => True) w) ?_ ⟨init_settled preps, rfl, hinit⟩ hmeets
    rintro w e ⟨h, hexiting, ha⟩ ⟨he, hnotes⟩
    have hnext := perform_proceeds h e he
    exact ⟨hnext.settled, hnext.exiting.trans hexiting, hnext.attended hnotes hexiting ha⟩
  exact hrun.1.served hrun.2.2

def agreementChunk : List UInt8 :=
  RtmpSurvival.commandChunk (RtmpSurvival.amfText "onStatus" ++ RtmpSurvival.amfZero ++
    [low RtmpAmf.typeNull, low RtmpAmf.typeObject] ++ RtmpAmf.put16 4 ++ ascii "code" ++
    RtmpSurvival.amfText "NetStream.Publish.Start" ++ [0, 0, low RtmpAmf.objectEnd])

def agreement : List Recv :=
  [.data (low RtmpReplies.rtmpVersion :: List.replicate (2 * RtmpReplies.handshakeSize) 0),
    .data RtmpSurvival.resultChunk, .data RtmpSurvival.resultChunk, .data agreementChunk]

def opening : List Event :=
  [.add 0 true true (.connected true [0] (some 65536)),
    .read 0 (fun _ => RtmpSurvival.plain) RtmpSurvival.plainTarget agreement]

/-- A visit with tracks but no metadata to send. -/
def visited (socket : ℕ) : Visit :=
  ⟨fun _ => ⟨some [], none, fun _ => true, .ample, fun _ => .ample, false, 0, some socket⟩,
    fun _ => false⟩

def early : Note → Bool
  | .flush w i _ => !(w.dest i).metadataSent
  | .pump w i _ => (w.fan i).tail == 0

theorem early_harmless {note : Note} (h : early note = true) : ¬note.Harmful := by
  cases note with
  | flush w i socket =>
    intro hstrands
    rw [early, hstrands.metadata] at h
    cases h
  | pump w i env =>
    intro hdisturbs
    have htail : (w.fan i).tail = 0 := by simpa [early] using h
    have hbehind := hdisturbs.announces.behind
    unfold Worker.fan at htail
    omega

def plainPreps : ℕ → Prepare := fun _ => RtmpPrepare.init 4 0

/-- The destination is served after its first visit. -/
theorem opening_served : Served (RtmpVisits.run plainPreps
    (opening ++ [.visit (visited 65536), .media 0 [oneByte]])) := by
  have hread : (perform (opening.take 1 |>.foldl RtmpVisits.step (.init plainPreps))
      (.read 0 (fun _ => RtmpSurvival.plain) RtmpSurvival.plainTarget agreement)).2.all
        early = true := by decide +kernel
  have hvisit : (perform (opening.foldl RtmpVisits.step (.init plainPreps))
      (.visit (visited 65536))).2.all early = true := by decide +kernel
  have hsilent : ∀ note ∈ ([] : List Note), ¬note.Harmful := fun _ hnote =>
    (List.not_mem_nil hnote).elim
  refine (destinations_served plainPreps _).2 ⟨⟨Event.noConfusion, hsilent⟩,
    ⟨Event.noConfusion, ?_⟩, ⟨Event.noConfusion, ?_⟩, ⟨Event.noConfusion, hsilent⟩, trivial⟩
  · exact fun note hnote => early_harmless (List.all_eq_true.mp hread note hnote)
  · exact fun note hnote => early_harmless (List.all_eq_true.mp hvisit note hnote)

def blocked : List Event :=
  opening ++ [.media 0 [oneByte], .visit (visited 0), .media 0 [oneByte],
    .read 0 (fun _ => RtmpSurvival.plain) RtmpSurvival.plainTarget [.again]]

theorem blocked_asleep : (∀ e ∈ blocked, e ≠ .exit) ∧
    ¬Served (RtmpVisits.run plainPreps blocked) := by
  refine ⟨?_, fun hserved => ?_⟩
  · rintro e he rfl
    simp [blocked, opening] at he
  have hrun : ∃ w, w = RtmpVisits.run plainPreps blocked ∧ (w.dest 0).state = .publishing ∧
      (w.dest 0).writeBlocked = false ∧ (w.dest 0).out.out = [] ∧
      (w.dest 0).metadataSent = true ∧ (next (w.fan 0) (w.dest 0).cursor).isSome = true ∧
      (w.slots 0).queued = false ∧ (w.dest 0).retryAt = 0 := ⟨_, rfl, by decide +kernel⟩
  obtain ⟨w, hw, hpublishing, hunblocked, hempty, hmetadata, hwaiting, hqueued, hretry⟩ := hrun
  rw [← hw] at hserved
  rcases hserved 0 hpublishing hunblocked hempty hmetadata hwaiting with hmarked | ⟨htime, -⟩
  · rw [hqueued] at hmarked
    cases hmarked
  · exact htime hretry

end RtmpStranded
