import NginxMedia.StreamLinks

/-! Where every entry of the registry is over a run, and when it is released. -/
namespace StreamReferences

open ObjectHeap

variable {st st' st'' : State} {s a d i : ℕ} {y : Stream}

structure Kept (st st' : State) : Prop where
  entries : st'.entries = st.entries
  draining : st'.draining = st.draining
  count : st'.count = st.count
  drainingCount : st'.drainingCount = st.drainingCount
  released : st'.released = st.released
  models : st'.models.streams = st.models.streams
  length : st'.streams.length = st.streams.length
  there : ∀ i, (get st'.streams i).isSome = (get st.streams i).isSome
  streamCount : ObjectHeap.count st'.streams (fun _ => true) =
    ObjectHeap.count st.streams fun _ => true

theorem Kept.refl (st : State) : Kept st st :=
  ⟨rfl, rfl, rfl, rfl, rfl, rfl, rfl, fun _ => rfl, rfl⟩

theorem Kept.trans (h : Kept st st') (h' : Kept st' st'') : Kept st st'' where
  entries := h'.entries.trans h.entries
  draining := h'.draining.trans h.draining
  count := h'.count.trans h.count
  drainingCount := h'.drainingCount.trans h.drainingCount
  released := h'.released.trans h.released
  models := h'.models.trans h.models
  length := h'.length.trans h.length
  there i := (h'.there i).trans (h.there i)
  streamCount := h'.streamCount.trans h.streamCount

theorem kept_onStream (st : State) (s : ℕ) (f : Stream → Stream) : Kept st (onStream st s f) where
  entries := rfl
  draining := rfl
  count := rfl
  drainingCount := rfl
  released := rfl
  models := rfl
  length := length_modify _ _ _
  there i := by
    rw [onStream, get_modify]
    split
    · rw [Option.isSome_map]
    · rfl
  streamCount := count_modify (f := f) (fun _ => rfl) _ _

theorem kept_streamRetain (st : State) (s : ℕ) : Kept st (streamRetain st s) :=
  kept_onStream st s _

theorem kept_streamRelease (st : State) (s : ℕ) : Kept st (streamRelease st s) :=
  kept_onStream st s _

theorem kept_objects (st : State) (sources : List (Option Source))
    (destinations : List (Option Destination)) (m n : ℤ) :
    Kept st { st with sources, destinations,
                      models := { st.models with sources := m, destinations := n } } :=
  ⟨rfl, rfl, rfl, rfl, rfl, rfl, rfl, fun _ => rfl, rfl⟩

theorem kept_onSource (st : State) (a : ℕ) (f : Source → Source) : Kept st (onSource st a f) :=
  kept_objects st _ _ _ _

theorem kept_onDestination (st : State) (d : ℕ) (f : Destination → Destination) :
    Kept st (onDestination st d f) :=
  kept_objects st _ _ _ _

theorem kept_sourceRelease (st : State) (a : ℕ) : Kept st (sourceRelease st a) := by
  unfold sourceRelease
  cases get st.sources a with
  | none => exact Kept.refl st
  | some x =>
    simp only []
    split
    · exact Kept.refl st
    split
    · exact kept_onSource st a _
    · exact (kept_objects st _ _ _ _).trans (kept_streamRelease _ _)

theorem kept_destinationRelease (st : State) (d : ℕ) : Kept st (destinationRelease st d) := by
  unfold destinationRelease
  cases get st.destinations d with
  | none => exact Kept.refl st
  | some x =>
    simp only []
    split
    · exact kept_onDestination st d _
    · exact (kept_objects st _ _ _ _).trans (kept_streamRelease _ _)

theorem kept_sourceAdd (limits : Limits) (st : State) (s : ℕ) (id : Str) (type priority : ℕ)
    (memory : SourceMemory) : Kept st (sourceAdd limits st s id type priority memory) := by
  unfold sourceAdd
  cases get st.streams s with
  | none => exact Kept.refl st
  | some y =>
    simp only []
    split
    · exact Kept.refl st
    split
    · exact Kept.refl st
    split
    · exact Kept.refl st
    split
    · exact kept_objects st _ _ _ _
    cases stringSet id memory.id with
    | none => exact kept_objects st _ _ _ _
    | some copy =>
      simp only []
      split
      · exact ((kept_objects st _ _ _ _).trans (kept_streamRetain _ s)).trans
          (kept_sourceRelease _ _)
      · exact ((kept_objects st _ _ _ _).trans (kept_streamRetain _ s)).trans
          (kept_onStream _ s _)

theorem kept_sourceRemove (st : State) (s a : ℕ) : Kept st (sourceRemove st s a) := by
  unfold sourceRemove
  cases get st.sources a with
  | none => exact Kept.refl st
  | some x =>
    simp only []
    split
    · exact Kept.refl st
    · exact ((kept_onSource st a _).trans (kept_onStream _ s _)).trans (kept_sourceRelease _ a)

theorem kept_destinationAdd (limits : Limits) (st : State) (s : ℕ) (id : Str) (type : ℕ)
    (memory : DestinationMemory) : Kept st (destinationAdd limits st s id type memory) := by
  unfold destinationAdd
  cases get st.streams s with
  | none => exact Kept.refl st
  | some y =>
    simp only []
    split
    · exact Kept.refl st
    split
    · exact Kept.refl st
    split
    · exact Kept.refl st
    split
    · exact kept_objects st _ _ _ _
    cases stringSet id memory.id with
    | none => exact kept_objects st _ _ _ _
    | some copy =>
      exact ((kept_objects st _ _ _ _).trans (kept_streamRetain _ s)).trans (kept_onStream _ s _)

theorem kept_destinationRemove (st : State) (s d : ℕ) : Kept st (destinationRemove st s d) := by
  unfold destinationRemove
  cases get st.destinations d with
  | none => exact Kept.refl st
  | some x =>
    simp only []
    split
    · exact Kept.refl st
    · exact (kept_onStream st s _).trans (kept_destinationRelease _ d)

theorem kept_call (limits : Limits) (st : State) (c : Call) : Kept st (call limits st c) := by
  cases c with
  | streamRetain s => exact (kept_streamRetain st s).trans (kept_onStream _ s _)
  | streamRelease s =>
    simp only [call]
    split
    · exact Kept.refl st
    · split
      · exact Kept.refl st
      · exact (kept_onStream st s _).trans (kept_streamRelease _ s)
  | sourceAdd s id type priority memory => exact kept_sourceAdd limits st s id type priority memory
  | sourceRemove s a => exact kept_sourceRemove st s a
  | sourceRetain a => exact (kept_onSource st a _).trans (kept_onSource _ a _)
  | sourceRelease a =>
    simp only [call]
    split
    · exact Kept.refl st
    · split
      · exact Kept.refl st
      · exact (kept_onSource st a _).trans (kept_sourceRelease _ a)
  | leaseBegin s a =>
    simp only [call, streamLeaseBegin]
    split
    · split
      · exact Kept.refl st
      · exact (kept_onSource st a _).trans (kept_onSource _ a _)
    · exact Kept.refl st
  | leaseEnd a =>
    simp only [call, sourceLeaseEnd]
    split
    · exact Kept.refl st
    · split
      · exact (kept_onSource st a _).trans (kept_sourceRelease _ a)
      · exact Kept.refl st
  | destinationAdd s id type memory => exact kept_destinationAdd limits st s id type memory
  | destinationRemove s id =>
    simp only [call]
    split
    · exact Kept.refl st
    · split
      · exact Kept.refl st
      · exact kept_destinationRemove st s _
  | destinationRetain d => exact (kept_onDestination st d _).trans (kept_onDestination _ d _)
  | destinationRelease d =>
    simp only [call]
    split
    · exact Kept.refl st
    · split
      · exact Kept.refl st
      · exact (kept_onDestination st d _).trans (kept_destinationRelease _ d)

theorem kept_foldl {α : Type} {f : State → α → State} (hf : ∀ st a, Kept st (f st a)) (l : List α)
    (st : State) : Kept st (l.foldl f st) := by
  induction l generalizing st with
  | nil => exact Kept.refl st
  | cons a l ih => exact (hf st a).trans (ih (f st a))

theorem kept_streamRetire (st : State) (s : ℕ) : Kept st (streamRetire st s) := by
  unfold streamRetire
  refine Kept.trans ?_ (kept_onStream _ s _)
  refine Kept.trans ?_ (kept_foldl (fun st a => kept_sourceRemove st s a) _ _)
  refine Kept.trans ?_ (kept_onStream _ s _)
  refine Kept.trans ?_ (kept_foldl (fun st d => kept_destinationRemove st s d) _ _)
  exact kept_onStream st s _

theorem destinationRelease_lists (st : State) (d : ℕ) (hy : get st.streams s = some y) :
    ∃ w, get (destinationRelease st d).streams s = some w ∧ w.sources = y.sources ∧
      w.destinations = y.destinations := by
  unfold destinationRelease
  cases get st.destinations d with
  | none => exact ⟨y, hy, rfl, rfl⟩
  | some x =>
    simp only []
    split
    · exact ⟨y, hy, rfl, rfl⟩
    · rw [streamRelease, onStream, get_modify]
      split
      · rename_i hs
        refine ⟨{ y with references := y.references - 1 }, ?_, rfl, rfl⟩
        exact congrArg (Option.map _) hy
      · exact ⟨y, hy, rfl, rfl⟩

theorem sourceRelease_lists (st : State) (a : ℕ) (hy : get st.streams s = some y) :
    ∃ w, get (sourceRelease st a).streams s = some w ∧ w.sources = y.sources := by
  unfold sourceRelease
  cases get st.sources a with
  | none => exact ⟨y, hy, rfl⟩
  | some x =>
    simp only []
    split
    · exact ⟨y, hy, rfl⟩
    split
    · exact ⟨y, hy, rfl⟩
    · rw [streamRelease, onStream, get_modify]
      split
      · refine ⟨{ y with references := y.references - 1 }, ?_, rfl⟩
        exact congrArg (Option.map _) hy
      · exact ⟨y, hy, rfl⟩

theorem get_onStream (hy : get st.streams s = some y) (f : Stream → Stream) :
    get (onStream st s f).streams s = some (f y) := by
  rw [onStream, get_modify, if_pos rfl, hy]
  rfl

theorem Linked.removeDestinations (h : Linked .nothing st) (hy : get st.streams s = some y)
    {l : List ℕ} (hl : y.destinations = l) :
    Linked .nothing (l.foldl (fun st d => destinationRemove st s d) st) ∧
      ∃ w, get (l.foldl (fun st d => destinationRemove st s d) st).streams s = some w ∧
        w.destinations = [] := by
  induction l generalizing st y with
  | nil => exact ⟨h, y, hy, hl⟩
  | cons d l ih =>
    have hmem : d ∈ y.destinations := by rw [hl]; exact List.mem_cons_self
    have hnext := h.removeDestination hy hmem
    obtain ⟨z, hz, hs⟩ := h.destinations.there s y hy d hmem
    have hdrop : destinationRemove st s d =
        destinationRelease (onStream st s fun y => y.unlistDestination d) d := by
      rw [destinationRemove, hz]
      simp only [hs, ne_eq, not_true_eq_false, if_false]
    obtain ⟨w, hw, -, hlist⟩ := destinationRelease_lists
      (onStream st s fun y => y.unlistDestination d) d (get_onStream hy _)
    rw [← hdrop] at hw
    refine ih hnext hw ?_
    rw [hlist, Stream.unlistDestination, hl, List.erase_cons_head]

theorem Linked.removeSources (h : Linked .nothing st) (hy : get st.streams s = some y)
    {l : List ℕ} (hl : y.sources = l) :
    Linked .nothing (l.foldl (fun st a => sourceRemove st s a) st) ∧
      ∃ w, get (l.foldl (fun st a => sourceRemove st s a) st).streams s = some w ∧
        w.sources = [] := by
  induction l generalizing st y with
  | nil => exact ⟨h, y, hy, hl⟩
  | cons a l ih =>
    have hmem : a ∈ y.sources := by rw [hl]; exact List.mem_cons_self
    have hnext := h.removeSource s a
    obtain ⟨x, hx, hs⟩ := h.sources.there s y hy a hmem
    obtain ⟨w, hw, hlink⟩ := h.sources.object a x hx
    obtain rfl := Option.some.inj ((hs ▸ hw).symm.trans hy)
    have hmark : x.pendingRemove = false := by
      have := hlink.removed
      rwa [decide_eq_true hmem] at this
    have hdrop : sourceRemove st s a =
        sourceRelease (onStream (onSource st a Source.marked) s fun y => y.unlistSource a) a := by
      rw [sourceRemove, hx]
      simp only [hs, hmark, ne_eq, not_true_eq_false, Bool.false_eq_true, or_self, if_false]
    have hmarked : get (onSource st a Source.marked).streams s = some w := hy
    obtain ⟨v, hv, hlist⟩ := sourceRelease_lists
      (onStream (onSource st a Source.marked) s fun y => y.unlistSource a) a
      (get_onStream hmarked _)
    rw [← hdrop] at hv
    refine ih hnext hv ?_
    rw [hlist, Stream.unlistSource, hl, List.erase_cons_head]

theorem Linked.still (h : Linked .nothing st) {f : Stream → Stream}
    (hsources : ∀ y, get st.streams s = some y → (f y).sources = y.sources)
    (hdestinations : ∀ y, get st.streams s = some y → (f y).destinations = y.destinations)
    (href : ∀ y, (f y).references = y.references) (hheld : ∀ y, (f y).holders = y.holders) :
    Linked .nothing (onStream st s f) :=
  h.changeStream hsources hdestinations (fun y _ => by rw [href, hheld]) (fun _ _ => rfl)
    (fun _ => rfl) (fun _ => rfl)

theorem Linked.dropDestinations (h : Linked .nothing st) (s : ℕ) :
    Linked .nothing ((destinationsOf st s).foldl (fun st d => destinationRemove st s d) st) ∧
      ∀ w, get ((destinationsOf st s).foldl (fun st d => destinationRemove st s d) st).streams s =
        some w → w.destinations = [] := by
  unfold destinationsOf
  cases hy : get st.streams s with
  | none => exact ⟨h, fun w hw => nomatch hy.symm.trans hw⟩
  | some y =>
    obtain ⟨hlinked, w, hw, hnil⟩ := h.removeDestinations hy rfl
    exact ⟨hlinked, fun v hv => Option.some.inj (hw.symm.trans hv) ▸ hnil⟩

theorem Linked.dropSources (h : Linked .nothing st) (s : ℕ) :
    Linked .nothing ((sourcesOf st s).foldl (fun st a => sourceRemove st s a) st) ∧
      ∀ w, get ((sourcesOf st s).foldl (fun st a => sourceRemove st s a) st).streams s =
        some w → w.sources = [] := by
  unfold sourcesOf
  cases hy : get st.streams s with
  | none => exact ⟨h, fun w hw => nomatch hy.symm.trans hw⟩
  | some y =>
    obtain ⟨hlinked, w, hw, hnil⟩ := h.removeSources hy rfl
    exact ⟨hlinked, fun v hv => Option.some.inj (hw.symm.trans hv) ▸ hnil⟩

theorem Linked.retire (h : Linked .nothing st) (s : ℕ) : Linked .nothing (streamRetire st s) := by
  have hstopped : Linked .nothing (onStream st s fun y => { y with running := false }) :=
    h.still (fun _ _ => rfl) (fun _ _ => rfl) (fun _ => rfl) (fun _ => rfl)
  obtain ⟨hdropped, hnil⟩ := hstopped.dropDestinations s
  have hcleared := hdropped.still (s := s) (f := fun y => { y with destinations := [] })
    (fun _ _ => rfl) (fun y hy => (hnil y hy).symm) (fun _ => rfl) (fun _ => rfl)
  obtain ⟨hremoved, hnone⟩ := hcleared.dropSources s
  exact hremoved.still (fun y hy => (hnone y hy).symm) (fun _ _ => rfl) (fun _ => rfl)
    (fun _ => rfl)

theorem Linked.idle (h : Linked .nothing st) (hy : get st.streams s = some y)
    (h0 : y.references = 0) :
    (∀ a x, get st.sources a = some x → x.stream ≠ s) ∧
      (∀ d z, get st.destinations d = some z → z.stream ≠ s) ∧
      y.sources = [] ∧ y.destinations = [] := by
  have href := h.references s y hy
  rw [ofStream_nothing] at href
  have hsources : ∀ a x, get st.sources a = some x → x.stream ≠ s := by
    intro a x hx hs
    have : 0 < sourcesFor st s := count_pos hx (decide_eq_true hs)
    omega
  have hdestinations : ∀ d z, get st.destinations d = some z → z.stream ≠ s := by
    intro d z hz hs
    have : 0 < destinationsFor st s := count_pos hz (decide_eq_true hs)
    omega
  refine ⟨hsources, hdestinations, List.eq_nil_iff_forall_not_mem.mpr fun a ha => ?_,
    List.eq_nil_iff_forall_not_mem.mpr fun d hd => ?_⟩
  · obtain ⟨x, hx, hs⟩ := h.sources.there s y hy a ha
    exact hsources a x hx hs
  · obtain ⟨z, hz, hs⟩ := h.destinations.there s y hy d hd
    exact hdestinations d z hz hs

theorem Linked.retire_idle (h : Linked .nothing st) (hy : get st.streams s = some y)
    (h0 : y.references = 0) :
    ∃ w, get (streamRetire st s).streams s = some w ∧ w.references = 0 := by
  obtain ⟨-, -, hsources, hdestinations⟩ := h.idle hy h0
  have h1 := get_onStream hy fun y => { y with running := false }
  have h2 := get_onStream h1 fun y => { y with destinations := [] }
  have h3 := get_onStream h2 fun y => { y with sources := [], running := false }
  refine ⟨{ y with running := false, destinations := [], sources := [] }, ?_, h0⟩
  simp only [streamRetire, destinationsOf, sourcesOf, h1, h2, Option.map_some, Option.getD_some,
    hdestinations, hsources, List.foldl_nil]
  exact h3

theorem Linked.freeStream (h : Linked .nothing st) (hy : get st.streams i = some y)
    (h0 : y.references = 0) (m : ℤ) (released : List (ℕ × ℤ)) :
    Linked .nothing { st with streams := free st.streams i
                              models := { st.models with streams := m }, released } where
  references := by
    intro s w hw
    rw [get_free] at hw
    split at hw
    · cases hw
    · exact h.references s w hw
  sources := h.sources.parent_free (h.idle hy h0).1
  destinations := h.destinations.parent_free (h.idle hy h0).2.1
  sourceCount := h.sourceCount
  destinationCount := h.destinationCount

/-- Where the entries are: `off` are those taken off a list and not yet put on the other or
released. -/
structure Placed (off : List ℕ) (st : State) : Prop where
  places : (off ++ (st.entries ++ (st.draining ++ st.released.map Prod.fst))).Perm
    (List.range st.streams.length)
  there : ∀ i, (get st.streams i).isSome ↔ i ∈ off ∨ i ∈ st.entries ∨ i ∈ st.draining
  idle : ∀ r ∈ st.released, r.2 = 0
  models : st.models.streams = ObjectHeap.count st.streams fun _ => true

theorem Placed.kept {off : List ℕ} (h : Placed off st) (hk : Kept st st') : Placed off st' where
  places := by
    rw [hk.entries, hk.draining, hk.released, hk.length]
    exact h.places
  there i := by
    rw [hk.there, hk.entries, hk.draining]
    exact h.there i
  idle := by
    rw [hk.released]
    exact h.idle
  models := by
    rw [hk.models, hk.streamCount]
    exact h.models

theorem Placed.unlinkEntry (h : Placed [] st) (hi : i ∈ st.entries) (count : ℤ) :
    Placed [i] { st with entries := st.entries.erase i, count } where
  places := by
    have hperm := List.perm_cons_erase hi
    have := (hperm.append_right (st.draining ++ st.released.map Prod.fst)).symm.trans h.places
    exact this
  there j := by
    have hmem : j ∈ st.entries ↔ j = i ∨ j ∈ st.entries.erase i := by
      rw [(List.perm_cons_erase hi).mem_iff, List.mem_cons]
    have := h.there j
    simp only [List.not_mem_nil, false_or, hmem] at this
    simp only [List.mem_singleton, this, or_assoc]
  idle := h.idle
  models := h.models

theorem Placed.unlinkDraining (h : Placed [] st) (hi : i ∈ st.draining) (n : ℤ) :
    Placed [i] { st with draining := st.draining.erase i, drainingCount := n } where
  places := by
    have hperm := (List.perm_cons_erase hi).append_right (st.released.map Prod.fst)
    have hentries := hperm.append_left st.entries
    exact (List.perm_middle.symm.trans hentries.symm).trans h.places
  there j := by
    have hmem : j ∈ st.draining ↔ j = i ∨ j ∈ st.draining.erase i := by
      rw [(List.perm_cons_erase hi).mem_iff, List.mem_cons]
    have := h.there j
    simp only [List.not_mem_nil, false_or, hmem] at this
    simp only [List.mem_singleton, this]
    tauto
  idle := h.idle
  models := h.models

theorem Placed.toDraining (h : Placed [i] st) (n : ℤ) :
    Placed [] { st with draining := st.draining ++ [i], drainingCount := n } where
  places := by
    refine List.Perm.trans ?_ h.places
    simp only [List.nil_append, List.append_assoc, List.singleton_append]
    refine (List.Perm.append_left st.entries ?_).trans List.perm_middle
    exact List.perm_middle
  there j := by
    have := h.there j
    simp only [List.mem_singleton] at this
    simp only [List.not_mem_nil, false_or, List.mem_append, List.mem_singleton, this]
    tauto
  idle := h.idle
  models := h.models

theorem Placed.off (h : Placed [i] st) : i ∉ st.entries ∧ i ∉ st.draining := by
  have hnodup : (i :: (st.entries ++ (st.draining ++ st.released.map Prod.fst))).Nodup :=
    h.places.nodup_iff.mpr List.nodup_range
  have hnot := (List.nodup_cons.mp hnodup).1
  simp only [List.mem_append, not_or] at hnot
  exact ⟨hnot.1, hnot.2.1⟩

structure Settled (st : State) : Prop where
  linked : Linked .nothing st
  placed : Placed [] st

structure Lists (st st' : State) : Prop where
  entries : st'.entries = st.entries
  draining : st'.draining = st.draining
  count : st'.count = st.count
  drainingCount : st'.drainingCount = st.drainingCount

theorem entryRelease_settled (h : Linked .nothing st) (hp : Placed [i] st)
    (h0 : referencesOf st i = 0) :
    Settled (entryRelease st i) ∧ Lists st (entryRelease st i) := by
  obtain ⟨y, hy⟩ := Option.isSome_iff_exists.mp ((hp.there i).mpr (Or.inl (by simp)))
  have hzero : y.references = 0 := by
    rw [referencesOf, hy] at h0
    exact h0
  obtain ⟨w, hw, hidle⟩ := h.retire_idle hy hzero
  have hkept := kept_streamRetire st i
  have hretired := hp.kept hkept
  have hreleased : entryRelease st i =
      { streamRetire st i with
        streams := free (streamRetire st i).streams i
        models := { (streamRetire st i).models with
          streams := (streamRetire st i).models.streams - 1 }
        released := (streamRetire st i).released ++ [(i, w.references)] } := by
    rw [entryRelease]
    simp only [hw]
  rw [hreleased]
  refine ⟨⟨(h.retire i).freeStream hw hidle _ _, ?_⟩, hkept.entries, hkept.draining, hkept.count,
    hkept.drainingCount⟩
  constructor
  · rw [length_free]
    refine List.Perm.trans ?_ hretired.places
    simp only [List.nil_append, List.map_append, List.map_cons, List.map_nil,
      List.singleton_append]
    rw [← List.append_assoc, ← List.append_assoc, ← List.append_assoc (streamRetire st i).entries]
    exact List.perm_append_singleton i _
  · intro j
    obtain ⟨hentries, hdraining⟩ := hretired.off
    have hj := hretired.there j
    rw [get_free]
    simp only [List.mem_singleton] at hj
    simp only [List.not_mem_nil, false_or]
    split
    · subst j
      simp [hentries, hdraining]
    · rename_i hne
      simpa [hne] using hj
  · intro r hr
    rcases List.mem_append.mp hr with hr | hr
    · exact hretired.idle r hr
    · rw [List.mem_singleton.mp hr]
      exact hidle
  · have hcount := count_free hw fun _ => true
    have := hretired.models
    simp only [if_true] at hcount
    simp only []
    omega

structure Counted (st : State) : Prop where
  count : st.count = st.entries.length
  drainingCount : st.drainingCount = st.draining.length

/-- Between two calls on the registry. -/
structure Sound (st : State) : Prop extends Settled st, Counted st

theorem Linked.move (h : Linked .nothing st) (entries draining : List ℕ) (count n : ℤ) :
    Linked .nothing { st with entries, draining, count, drainingCount := n } :=
  ⟨h.references, h.sources, h.destinations, h.sourceCount, h.destinationCount⟩

theorem Sound.drainEntry (h : Sound st) (readers : ℕ → Readers) (hi : i ∈ st.draining) :
    Sound (drainEntry readers st i) ∧
      ∀ j ∈ st.draining, j ≠ i → j ∈ (drainEntry readers st i).draining := by
  unfold StreamReferences.drainEntry
  split
  · exact ⟨h, fun j hj _ => hj⟩
  · rename_i hguard
    obtain ⟨-, h0⟩ := not_or.mp hguard
    obtain ⟨hsettled, hlists⟩ := entryRelease_settled
      (h.linked.move st.entries (st.draining.erase i) st.count (st.drainingCount - 1))
      (h.placed.unlinkDraining hi (st.drainingCount - 1)) (not_not.mp h0)
    refine ⟨⟨hsettled, ?_, ?_⟩, ?_⟩
    · rw [hlists.count, hlists.entries]
      exact h.count
    · rw [hlists.drainingCount, hlists.draining]
      have := List.length_erase_of_mem hi
      have := List.length_pos_of_mem hi
      have := h.drainingCount
      simp only []
      omega
    · intro j hj hne
      rw [hlists.draining]
      exact (List.mem_erase_of_ne hne).mpr hj

theorem Placed.draining_nodup (h : Placed [] st) : st.draining.Nodup := by
  have hnodup := h.places.nodup_iff.mpr List.nodup_range
  rw [List.nil_append] at hnodup
  exact (List.nodup_append.mp (List.nodup_append.mp hnodup).2.1).1

theorem Sound.registryDrain (h : Sound st) (readers : ℕ → Readers) :
    Sound (registryDrain readers st) := by
  have hwalk : ∀ (l : List ℕ) (st : State), Sound st → l.Nodup → (∀ i ∈ l, i ∈ st.draining) →
      Sound (l.foldl (StreamReferences.drainEntry readers) st) := by
    intro l
    induction l with
    | nil => exact fun st h _ _ => h
    | cons i l ih =>
      intro st h hnodup hsub
      obtain ⟨hi, hnodup⟩ := List.nodup_cons.mp hnodup
      obtain ⟨hnext, hleft⟩ := h.drainEntry readers (hsub i List.mem_cons_self)
      refine ih _ hnext hnodup fun j hj => ?_
      exact hleft j (hsub j (List.mem_cons_of_mem i hj)) fun heq => hi (heq ▸ hj)
  exact hwalk st.draining st h h.placed.draining_nodup fun i hi => hi

theorem Settled.retire (h : Settled st) (s : ℕ) : Settled (streamRetire st s) :=
  ⟨h.linked.retire s, h.placed.kept (kept_streamRetire st s)⟩

theorem Settled.releaseDraining (h : Settled st) (n : ℤ) (hi : i ∈ st.draining) :
    Settled (releaseEntry false (st, n) i).1 ∧
      (releaseEntry false (st, n) i).1.entries = st.entries ∧
      ((releaseEntry false (st, n) i).1.draining.length - (releaseEntry false (st, n) i).2 : ℤ) =
        st.draining.length - n - 1 ∧
      ∀ j ∈ st.draining, j ≠ i → j ∈ (releaseEntry false (st, n) i).1.draining := by
  have hkept := kept_streamRetire st i
  have hretired := h.retire i
  simp only [releaseEntry, Bool.false_eq_true, if_false]
  split
  · refine ⟨hretired, hkept.entries, ?_, ?_⟩
    · simp only [hkept.draining]
      omega
    · exact fun j hj _ => hkept.draining ▸ hj
  · rename_i h0
    have hmem : i ∈ (streamRetire st i).draining := hkept.draining ▸ hi
    obtain ⟨hsettled, hlists⟩ := entryRelease_settled
      (hretired.linked.move _ ((streamRetire st i).draining.erase i) _ _)
      (hretired.placed.unlinkDraining hmem (streamRetire st i).drainingCount) (not_not.mp h0)
    refine ⟨hsettled, hlists.entries.trans hkept.entries, ?_, ?_⟩
    · have hlength := List.length_erase_of_mem hmem
      have hpos := List.length_pos_of_mem hmem
      simp only [hlists.draining]
      rw [hkept.draining] at hlength hpos ⊢
      omega
    · intro j hj hne
      rw [hlists.draining, hkept.draining]
      exact (List.mem_erase_of_ne hne).mpr hj

theorem Settled.releaseLive (h : Settled st) (n : ℤ) (hi : i ∈ st.entries) :
    Settled (releaseEntry true (st, n) i).1 ∧
      (releaseEntry true (st, n) i).1.entries = st.entries.erase i ∧
      ((releaseEntry true (st, n) i).1.draining.length - (releaseEntry true (st, n) i).2 : ℤ) =
        st.draining.length - n ∧
      (releaseEntry true (st, n) i).1.drainingCount = st.drainingCount := by
  have hkept := kept_streamRetire st i
  have hretired := h.retire i
  have hmem : i ∈ (streamRetire st i).entries := hkept.entries ▸ hi
  have hunlinked := hretired.placed.unlinkEntry hmem (streamRetire st i).count
  simp only [releaseEntry, if_true]
  split
  · refine ⟨⟨hretired.linked.move _ _ _ _, hunlinked.toDraining _⟩, ?_, ?_, hkept.drainingCount⟩
    · simp only [hkept.entries]
    · simp only [hkept.draining, List.length_append, List.length_singleton]
      omega
  · rename_i h0
    obtain ⟨hsettled, hlists⟩ := entryRelease_settled
      (hretired.linked.move ((streamRetire st i).entries.erase i) _ _ _) hunlinked (not_not.mp h0)
    refine ⟨hsettled, ?_, ?_, hlists.drainingCount.trans hkept.drainingCount⟩
    · rw [hlists.entries, hkept.entries]
    · rw [hlists.draining]
      simp only [hkept.draining]

theorem Settled.releaseDrainingQueue (h : Settled st) :
    Settled (releaseQueue false st).1 ∧
      ((releaseQueue false st).1.draining.length : ℤ) = (releaseQueue false st).2 := by
  have hwalk : ∀ (l : List ℕ) (st : State) (n : ℤ), Settled st → l.Nodup →
      (∀ i ∈ l, i ∈ st.draining) → (st.draining.length : ℤ) = n + l.length →
      Settled (l.foldl (releaseEntry false) (st, n)).1 ∧
        ((l.foldl (releaseEntry false) (st, n)).1.draining.length : ℤ) =
          (l.foldl (releaseEntry false) (st, n)).2 := by
    intro l
    induction l with
    | nil =>
      intro st n h _ _ hlength
      exact ⟨h, by simpa using hlength⟩
    | cons i l ih =>
      intro st n h hnodup hsub hlength
      obtain ⟨hi, hnodup⟩ := List.nodup_cons.mp hnodup
      obtain ⟨hnext, -, hcount, hleft⟩ := h.releaseDraining n (hsub i List.mem_cons_self)
      refine ih (releaseEntry false (st, n) i).1 (releaseEntry false (st, n) i).2 hnext hnodup
        (fun j hj => ?_) ?_
      · exact hleft j (hsub j (List.mem_cons_of_mem i hj)) fun heq => hi (heq ▸ hj)
      · rw [List.length_cons] at hlength
        omega
  exact hwalk st.draining st 0 h h.placed.draining_nodup (fun i hi => hi) (by omega)

theorem Settled.releaseLiveQueue (h : Settled st)
    (hn : st.drainingCount = st.draining.length) :
    Settled (releaseQueue true st).1 ∧ (releaseQueue true st).1.entries = [] ∧
      ((releaseQueue true st).1.draining.length : ℤ) =
        (releaseQueue true st).1.drainingCount + (releaseQueue true st).2 := by
  have hwalk : ∀ (l : List ℕ) (st : State) (n : ℤ), Settled st → st.entries = l →
      (st.draining.length : ℤ) = st.drainingCount + n →
      Settled (l.foldl (releaseEntry true) (st, n)).1 ∧
        (l.foldl (releaseEntry true) (st, n)).1.entries = [] ∧
        ((l.foldl (releaseEntry true) (st, n)).1.draining.length : ℤ) =
          (l.foldl (releaseEntry true) (st, n)).1.drainingCount +
            (l.foldl (releaseEntry true) (st, n)).2 := by
    intro l
    induction l with
    | nil => exact fun st n h hl hlength => ⟨h, hl, hlength⟩
    | cons i l ih =>
      intro st n h hl hlength
      have hi : i ∈ st.entries := hl ▸ List.mem_cons_self
      obtain ⟨hnext, hentries, hcount, hdraining⟩ := h.releaseLive n hi
      refine ih (releaseEntry true (st, n) i).1 (releaseEntry true (st, n) i).2 hnext ?_ ?_
      · rw [hentries, hl, List.erase_cons_head]
      · omega
  exact hwalk st.entries st 0 h rfl (by omega)

theorem Sound.registryDestroy (h : Sound st) : Sound (registryDestroy st) := by
  obtain ⟨hdraining, hretained⟩ := h.toSettled.releaseDrainingQueue
  have hset : Settled { (releaseQueue false st).1 with
      drainingCount := (releaseQueue false st).2 } :=
    ⟨hdraining.linked.move _ _ _ _, hdraining.placed.places, hdraining.placed.there,
      hdraining.placed.idle, hdraining.placed.models⟩
  obtain ⟨hlive, hnil, hmoved⟩ := hset.releaseLiveQueue hretained.symm
  refine ⟨⟨hlive.linked.move _ _ _ _, hlive.placed.places, hlive.placed.there, hlive.placed.idle,
    hlive.placed.models⟩, ?_, ?_⟩
  · simp only [StreamReferences.registryDestroy, hnil, List.length_nil]
    rfl
  · exact hmoved.symm

theorem Counted.kept (h : Counted st) (hk : Kept st st') : Counted st' where
  count := by
    rw [hk.count, hk.entries]
    exact h.count
  drainingCount := by
    rw [hk.drainingCount, hk.draining]
    exact h.drainingCount

theorem Sound.call (h : Sound st) (limits : Limits) (c : Call) : Sound (call limits st c) :=
  ⟨⟨h.linked.call limits c, h.placed.kept (kept_call limits st c)⟩,
    h.toCounted.kept (kept_call limits st c)⟩

theorem Sound.calls (h : Sound st) (limits : Limits) (calls : List Call) :
    Sound (calls.foldl (StreamReferences.call limits) st) :=
  StepRun.invariant (fun _ c h => h.call limits c) h calls

theorem Sound.stop (h : Sound st) (s : ℕ) :
    Sound (onStream st s fun y => { y with running := false }) :=
  ⟨⟨h.linked.still (fun _ _ => rfl) (fun _ _ => rfl) (fun _ => rfl) (fun _ => rfl),
    h.placed.kept (kept_onStream st s _)⟩, h.toCounted.kept (kept_onStream st s _)⟩

theorem Sound.retire (h : Sound st) (s : ℕ) : Sound (streamRetire st s) :=
  ⟨h.toSettled.retire s, h.toCounted.kept (kept_streamRetire st s)⟩

/-- What leaves the registry's list is put with the draining entries, or is released. -/
theorem Sound.unlink (h : Sound st) (hs : s ∈ st.entries) (gone : Prop) [Decidable gone] :
    Sound (if gone ∧ referencesOf st s = 0 then
        entryRelease { st with entries := st.entries.erase s, count := st.count - 1 } s
      else { st with entries := st.entries.erase s, count := st.count - 1,
                     draining := st.draining ++ [s], drainingCount := st.drainingCount + 1 }) := by
  have hunlinked := h.placed.unlinkEntry hs (st.count - 1)
  have hlength := List.length_erase_of_mem hs
  have hpos := List.length_pos_of_mem hs
  have hcount := h.count
  have hdraining := h.drainingCount
  split
  · rename_i hidle
    obtain ⟨hsettled, hlists⟩ := entryRelease_settled
      (h.linked.move (st.entries.erase s) st.draining (st.count - 1) st.drainingCount) hunlinked
      hidle.2
    refine ⟨hsettled, ?_, ?_⟩
    · rw [hlists.count, hlists.entries]
      simp only []
      omega
    · rw [hlists.drainingCount, hlists.draining]
      exact hdraining
  · refine ⟨⟨h.linked.move _ _ _ _, hunlinked.toDraining _⟩, ?_, ?_⟩
    · simp only []
      omega
    · simp only [List.length_append, List.length_singleton]
      omega

theorem Sound.streamRemove (h : Sound st) (limits : Limits) (s : ℕ) (first closing : List Call)
    (readers : Readers) : Sound (streamRemove limits st s first closing readers) := by
  unfold StreamReferences.streamRemove
  split
  · exact h
  · rename_i hs
    have hfirst := h.calls limits first
    have hclosed := (hfirst.stop s).calls limits closing
    have hkept := (((kept_foldl (fun st c => kept_call limits st c) first st).trans
      (kept_onStream _ s fun y => { y with running := false })).trans
      (kept_foldl (fun st c => kept_call limits st c) closing _)).trans (kept_streamRetire _ s)
    have hmem := hkept.entries.symm ▸ not_not.mp hs
    exact (hclosed.retire s).unlink hmem readers.Gone

theorem models_undone (st : State) :
    { st with models := { st.models with streams := st.models.streams + 1 - 1 } } = st := by
  rw [Int.add_sub_cancel]

theorem Linked.newStream (h : Linked .nothing st) (application name : Str) (entries : List ℕ)
    (count m : ℤ) :
    Linked .nothing { st with streams := alloc st.streams { application, name }
                              entries, count, models := { st.models with streams := m } } where
  references := by
    intro s y hy
    rw [get_alloc] at hy
    split at hy
    · subst s
      obtain rfl := Option.some.inj hy
      have hsources : sourcesFor st st.streams.length = 0 := by
        refine count_eq_zero fun a x hx => decide_eq_false fun hs => ?_
        obtain ⟨w, hw, -⟩ := h.sources.object a x hx
        exact absurd (get_lt hw) (by omega)
      have hdestinations : destinationsFor st st.streams.length = 0 := by
        refine count_eq_zero fun d z hz => decide_eq_false fun hs => ?_
        obtain ⟨w, hw, -⟩ := h.destinations.object d z hz
        exact absurd (get_lt hw) (by omega)
      rw [ofStream_nothing]
      simp only [sourcesFor, destinationsFor] at *
      omega
    · exact h.references s y hy
  sources := h.sources.parent_alloc rfl
  destinations := h.destinations.parent_alloc rfl
  sourceCount := h.sourceCount
  destinationCount := h.destinationCount

theorem Sound.newStream (h : Sound st) (application name : Str) :
    Sound { st with streams := alloc st.streams { application, name }
                    entries := st.entries ++ [st.streams.length], count := st.count + 1
                    models := { st.models with streams := st.models.streams + 1 } } := by
  refine ⟨⟨h.linked.newStream application name _ _ _, ?_⟩, ?_, h.drainingCount⟩
  · constructor
    · simp only [List.nil_append, length_alloc, List.range_succ, List.append_assoc,
        List.singleton_append]
      refine List.perm_middle.trans ?_
      refine (List.perm_append_singleton _ _).symm.trans ?_
      exact h.placed.places.append_right _
    · intro j
      have hj := h.placed.there j
      simp only [List.not_mem_nil, false_or] at hj
      simp only [get_alloc, List.not_mem_nil, false_or, List.mem_append, List.mem_singleton]
      split
      · simp_all
      · rename_i hne
        simp only [hj, hne, or_false]
    · exact h.placed.idle
    · have hcount := count_alloc st.streams { application, name } fun _ => true
      have := h.placed.models
      simp only [if_true] at hcount ⊢
      omega
  · have := h.count
    simp only [List.length_append, List.length_singleton]
    omega

theorem Sound.streamStage (h : Sound st) (limits : Limits) (application name : Str)
    (memory : EntryMemory) : Sound (streamStage limits st application name memory) := by
  unfold StreamReferences.streamStage
  split
  · exact h
  split
  · exact h
  simp only [models_undone]
  split
  · exact h
  split
  · exact h
  split
  · exact h
  exact h.newStream application name

theorem Sound.streamCreate (h : Sound st) (limits : Limits) (application name : Str)
    (memory : EntryMemory) : Sound (streamCreate limits st application name memory) := by
  unfold StreamReferences.streamCreate
  split
  · exact h
  split
  · exact h
  · exact h.streamStage limits application name memory

theorem Sound.next (h : Sound st) (limits : Limits) (e : Event) : Sound (next limits st e) := by
  cases e with
  | call c => exact h.call limits c
  | create application name memory => exact h.streamCreate limits application name memory
  | stage application name memory => exact h.streamStage limits application name memory
  | remove s first closing readers => exact h.streamRemove limits s first closing readers
  | drain readers => exact h.registryDrain readers
  | destroy => exact h.registryDestroy

theorem sound_initial : Sound {} where
  linked := by
    refine ⟨?_, ⟨?_, ?_, ?_⟩, ⟨?_, ?_, ?_⟩, rfl, rfl⟩ <;>
      exact fun i x hx => absurd (get_lt hx) (Nat.not_lt_zero i)
  placed := ⟨List.Perm.refl _, fun i => by simp [ObjectHeap.get],
    fun r hr => absurd hr List.not_mem_nil, rfl⟩
  count := rfl
  drainingCount := rfl

theorem sound_run (limits : Limits) (events : List Event) : Sound (run limits events) :=
  StepRun.invariant (fun _ e h => h.next limits e) sound_initial events

structure Accounted (st : State) : Prop where
  references : ∀ i y, get st.streams i = some y →
    y.references = sourcesFor st i + destinationsFor st i + y.holders
  places : (st.entries ++ st.draining ++ st.released.map Prod.fst).Perm
    (List.range st.streams.length)
  unreleased : ∀ i, (get st.streams i).isSome ↔ i ∈ st.entries ∨ i ∈ st.draining
  released : ∀ r ∈ st.released, r.2 = 0
  count : st.count = st.entries.length
  drainingCount : st.drainingCount = st.draining.length
  models : st.models =
    { streams := ObjectHeap.count st.streams fun _ => true
      sources := ObjectHeap.count st.sources fun _ => true
      destinations := ObjectHeap.count st.destinations fun _ => true }

/-- Whatever the limits, the order of the calls and the memory that fails, after every run each
entry is live, draining or released, and it is released once, without references. -/
theorem run_accounted (limits : Limits) (events : List Event) : Accounted (run limits events) := by
  have h := sound_run limits events
  constructor
  · intro i y hy
    have href := h.linked.references i y hy
    rw [ofStream_nothing, Int.add_zero] at href
    exact href
  · rw [List.append_assoc]
    exact h.placed.places
  · intro i
    have hi := h.placed.there i
    simpa only [List.not_mem_nil, false_or] using hi
  · exact h.placed.idle
  · exact h.count
  · exact h.drainingCount
  · rw [← h.placed.models, ← h.linked.sourceCount, ← h.linked.destinationCount]

end StreamReferences
