import NginxMedia.StreamReferences

/-! What ties the objects of a stream together, and that every call on them keeps it: each
reference is accounted for, and an object in a list is there. -/
namespace StreamReferences

open ObjectHeap

/-- A reference that no holder accounts for: it has just been taken, or is about to be given
back. -/
inductive Owed where
  | nothing
  | stream (s : ℕ)
  | source (a : ℕ)
  | destination (d : ℕ)

def Owed.ofStream : Owed → ℕ → ℤ
  | .stream s, i => if i = s then 1 else 0
  | _, _ => 0

def Owed.ofSource : Owed → ℕ → ℤ
  | .source a, i => if i = a then 1 else 0
  | _, _ => 0

def Owed.ofDestination : Owed → ℕ → ℤ
  | .destination d, i => if i = d then 1 else 0
  | _, _ => 0

@[simp] theorem ofStream_nothing (i : ℕ) : Owed.nothing.ofStream i = 0 := rfl
@[simp] theorem ofStream_stream (s i : ℕ) :
    (Owed.stream s).ofStream i = if i = s then 1 else 0 := rfl
@[simp] theorem ofStream_source (a i : ℕ) : (Owed.source a).ofStream i = 0 := rfl
@[simp] theorem ofStream_destination (d i : ℕ) : (Owed.destination d).ofStream i = 0 := rfl
@[simp] theorem ofSource_nothing (i : ℕ) : Owed.nothing.ofSource i = 0 := rfl
@[simp] theorem ofSource_stream (s i : ℕ) : (Owed.stream s).ofSource i = 0 := rfl
@[simp] theorem ofSource_source (a i : ℕ) :
    (Owed.source a).ofSource i = if i = a then 1 else 0 := rfl
@[simp] theorem ofSource_destination (d i : ℕ) : (Owed.destination d).ofSource i = 0 := rfl
@[simp] theorem ofDestination_nothing (i : ℕ) : Owed.nothing.ofDestination i = 0 := rfl
@[simp] theorem ofDestination_stream (s i : ℕ) : (Owed.stream s).ofDestination i = 0 := rfl
@[simp] theorem ofDestination_source (a i : ℕ) : (Owed.source a).ofDestination i = 0 := rfl
@[simp] theorem ofDestination_destination (d i : ℕ) :
    (Owed.destination d).ofDestination i = if i = d then 1 else 0 := rfl

def sourcesFor (st : State) (s : ℕ) : ℕ := ObjectHeap.count st.sources fun x => x.stream = s

def destinationsFor (st : State) (s : ℕ) : ℕ :=
  ObjectHeap.count st.destinations fun x => x.stream = s

structure SourceLink (o : Owed) (a : ℕ) (x : Source) (listed : Bool) : Prop where
  references : x.references =
    (if listed then 1 else 0) + x.holders + x.writers + o.ofSource a
  positive : 0 < x.references
  removed : x.pendingRemove = !listed

structure DestinationLink (o : Owed) (d : ℕ) (x : Destination) (listed : Bool) : Prop where
  references : x.references = (if listed then 1 else 0) + x.holders + o.ofDestination d
  positive : 0 < x.references

structure Linked (o : Owed) (st : State) : Prop where
  references : ∀ s y, get st.streams s = some y →
    y.references = sourcesFor st s + destinationsFor st s + y.holders + o.ofStream s
  sources : Owned Source.stream Stream.sources (SourceLink o) st.streams st.sources
  destinations : Owned Destination.stream Stream.destinations (DestinationLink o) st.streams
    st.destinations
  sourceCount : st.models.sources = ObjectHeap.count st.sources fun _ => true
  destinationCount : st.models.destinations = ObjectHeap.count st.destinations fun _ => true

variable {o o' : Owed} {st : State} {s a d i : ℕ} {x : Source} {z : Destination} {y : Stream}

theorem Linked.waive (h : Linked o st)
    (hs : ∀ s y, get st.streams s = some y → o'.ofStream s = o.ofStream s)
    (ha : ∀ a x, get st.sources a = some x → o'.ofSource a = o.ofSource a)
    (hd : ∀ d z, get st.destinations d = some z → o'.ofDestination d = o.ofDestination d) :
    Linked o' st where
  references s y hy := by
    rw [hs s y hy]
    exact h.references s y hy
  sources := h.sources.mono fun a x l hx ⟨href, hpos, hl⟩ => ⟨by rw [ha a x hx, href], hpos, hl⟩
  destinations := h.destinations.mono fun d z l hz ⟨href, hpos⟩ => ⟨by rw [hd d z hz, href], hpos⟩
  sourceCount := h.sourceCount
  destinationCount := h.destinationCount

/-- A change of a stream's record that leaves its lists and settles its references. -/
theorem Linked.changeStream (h : Linked o st) {f : Stream → Stream}
    (hsources : ∀ y, get st.streams s = some y → (f y).sources = y.sources)
    (hdestinations : ∀ y, get st.streams s = some y → (f y).destinations = y.destinations)
    (hf : ∀ y, get st.streams s = some y → (f y).references - (f y).holders - o'.ofStream s =
      y.references - y.holders - o.ofStream s)
    (hother : ∀ i ≠ s, o'.ofStream i = o.ofStream i)
    (hsource : ∀ i, o'.ofSource i = o.ofSource i)
    (hdestination : ∀ i, o'.ofDestination i = o.ofDestination i) :
    Linked o' (onStream st s f) where
  references := by
    intro i y hy
    rw [onStream, get_modify] at hy
    split at hy
    · subst i
      obtain ⟨y₀, hy₀, rfl⟩ := Option.map_eq_some_iff.mp hy
      have := h.references s y₀ hy₀
      have := hf y₀ hy₀
      simp only [sourcesFor, destinationsFor, onStream] at *
      omega
    · rename_i hne
      rw [hother i hne]
      exact h.references i y hy
  sources := (h.sources.parent hsources).mono
    fun a x l _ ⟨href, hpos, hl⟩ => ⟨by rw [hsource, href], hpos, hl⟩
  destinations := (h.destinations.parent hdestinations).mono
    fun d x l _ ⟨href, hpos⟩ => ⟨by rw [hdestination, href], hpos⟩
  sourceCount := h.sourceCount
  destinationCount := h.destinationCount

theorem Linked.retain (h : Linked .nothing st) : Linked (.stream s) (streamRetain st s) :=
  h.changeStream (fun _ _ => rfl) (fun _ _ => rfl) (fun y _ => by simp; omega)
    (fun i hi => by simp [hi]) (fun _ => rfl) (fun _ => rfl)

theorem Linked.release (h : Linked (.stream s) st) : Linked .nothing (streamRelease st s) :=
  h.changeStream (fun _ _ => rfl) (fun _ _ => rfl) (fun y _ => by simp; omega)
    (fun i hi => by simp [hi]) (fun _ => rfl) (fun _ => rfl)

theorem Linked.changeSource (h : Linked o st) {f : Source → Source}
    (hstream : ∀ x, (f x).stream = x.stream)
    (hf : ∀ x l, get st.sources a = some x → SourceLink o a x l → SourceLink o' a (f x) l)
    (hother : ∀ i ≠ a, o'.ofSource i = o.ofSource i)
    (hs : ∀ i, o'.ofStream i = o.ofStream i)
    (hdestination : ∀ i, o'.ofDestination i = o.ofDestination i) :
    Linked o' (onSource st a f) where
  references := by
    intro s y hy
    have hcount : sourcesFor (onSource st a f) s = sourcesFor st s :=
      count_modify (fun x => by rw [hstream]) st.sources a
    rw [hs, hcount]
    exact h.references s y hy
  sources := h.sources.change hstream hf
    fun b x l hb ⟨href, hpos, hl⟩ => ⟨by rw [hother b hb, href], hpos, hl⟩
  destinations := h.destinations.mono
    fun d x l _ ⟨href, hpos⟩ => ⟨by rw [hdestination, href], hpos⟩
  sourceCount := by
    have hcount : ObjectHeap.count (modify st.sources a f) (fun _ => true) =
        ObjectHeap.count st.sources fun _ => true := count_modify (f := f) (fun _ => rfl) _ _
    exact h.sourceCount.trans (congrArg Nat.cast hcount.symm)
  destinationCount := h.destinationCount

theorem Linked.changeDestination (h : Linked o st) {f : Destination → Destination}
    (hstream : ∀ x, (f x).stream = x.stream)
    (hf : ∀ x l, get st.destinations d = some x → DestinationLink o d x l →
      DestinationLink o' d (f x) l)
    (hother : ∀ i ≠ d, o'.ofDestination i = o.ofDestination i)
    (hs : ∀ i, o'.ofStream i = o.ofStream i) (hsource : ∀ i, o'.ofSource i = o.ofSource i) :
    Linked o' (onDestination st d f) where
  references := by
    intro s y hy
    have hcount : destinationsFor (onDestination st d f) s =
        destinationsFor st s := count_modify (fun x => by rw [hstream]) st.destinations d
    rw [hs, hcount]
    exact h.references s y hy
  sources := h.sources.mono
    fun a x l _ ⟨href, hpos, hl⟩ => ⟨by rw [hsource, href], hpos, hl⟩
  destinations := h.destinations.change hstream hf
    fun b x l hb ⟨href, hpos⟩ => ⟨by rw [hother b hb, href], hpos⟩
  sourceCount := h.sourceCount
  destinationCount := by
    have hcount : ObjectHeap.count (modify st.destinations d f) (fun _ => true) =
        ObjectHeap.count st.destinations fun _ => true := count_modify (f := f) (fun _ => rfl) _ _
    exact h.destinationCount.trans (congrArg Nat.cast hcount.symm)

theorem Linked.freeSource (h : Linked (.source a) st) (hx : get st.sources a = some x)
    (hlast : x.references = 1) :
    Linked (.stream x.stream)
      { st with sources := free st.sources a
                models := { st.models with sources := st.models.sources - 1 } } where
  references := by
    intro s y hy
    have hall := h.references s y hy
    have hfree := count_free hx fun x => x.stream = s
    simp only [sourcesFor, destinationsFor, decide_eq_true_eq, ofStream_source, ofStream_stream,
      eq_comm (a := s)] at *
    split_ifs at * <;> omega
  sources := by
    have hgone := h.sources.free hx fun l hl => by
      have := hl.references
      rw [ofSource_source, if_pos rfl, hlast] at this
      cases l with
      | false => rfl
      | true =>
        rw [if_pos rfl] at this
        omega
    refine hgone.mono fun b w l hw ⟨href, hpos, hl⟩ => ⟨?_, hpos, hl⟩
    have hne : b ≠ a := by
      rintro rfl
      rw [get_free, if_pos rfl] at hw
      cases hw
    rw [href, ofSource_source, if_neg hne, ofSource_stream]
  destinations := h.destinations.mono
    fun d x l _ ⟨href, hpos⟩ => ⟨by rw [href, ofDestination_source, ofDestination_stream], hpos⟩
  sourceCount := by
    have := count_free hx fun _ => true
    have := h.sourceCount
    simp only [if_true] at *
    omega
  destinationCount := h.destinationCount

theorem Linked.freeDestination (h : Linked (.destination d) st)
    (hz : get st.destinations d = some z) (hlast : z.references = 1) :
    Linked (.stream z.stream)
      { st with
        destinations := free st.destinations d
        models := { st.models with destinations := st.models.destinations - 1 } } where
  references := by
    intro s y hy
    have hall := h.references s y hy
    have hfree := count_free hz fun x => x.stream = s
    simp only [sourcesFor, destinationsFor, decide_eq_true_eq, ofStream_destination,
      ofStream_stream, eq_comm (a := s)] at *
    split_ifs at * <;> omega
  sources := h.sources.mono
    fun d x l _ ⟨href, hpos, hl⟩ => ⟨by rw [href, ofSource_destination, ofSource_stream], hpos, hl⟩
  destinations := by
    have hgone := h.destinations.free hz fun l hl => by
      have := hl.references
      rw [ofDestination_destination, if_pos rfl, hlast] at this
      cases l with
      | false => rfl
      | true =>
        rw [if_pos rfl] at this
        omega
    refine hgone.mono fun b w l hw ⟨href, hpos⟩ => ⟨?_, hpos⟩
    have hne : b ≠ d := by
      rintro rfl
      rw [get_free, if_pos rfl] at hw
      cases hw
    rw [href, ofDestination_destination, if_neg hne, ofDestination_stream]
  sourceCount := h.sourceCount
  destinationCount := by
    have := count_free hz fun _ => true
    have := h.destinationCount
    simp only [if_true] at *
    omega

theorem Linked.releaseSource (h : Linked (.source a) st) :
    Linked .nothing (sourceRelease st a) := by
  unfold sourceRelease
  cases hx : get st.sources a with
  | none =>
    refine h.waive (fun _ _ _ => rfl) (fun b w hw => ?_) (fun _ _ _ => rfl)
    have hne : b ≠ a := by
      rintro rfl
      rw [hx] at hw
      cases hw
    rw [ofSource_source, if_neg hne, ofSource_nothing]
  | some x =>
    obtain ⟨y, hy, hlink⟩ := h.sources.object a x hx
    have hpos := hlink.positive
    simp only []
    rw [if_neg (by omega)]
    by_cases hlast : x.references = 1
    · rw [if_neg (by omega)]
      exact (h.freeSource hx hlast).release
    · rw [if_pos (by omega)]
      refine h.changeSource (fun _ => rfl) ?_ (fun i hi => by simp [hi]) (fun _ => rfl)
        (fun _ => rfl)
      intro w l hw ⟨href, hpos, hl⟩
      obtain rfl := Option.some.inj (hw.symm.trans hx)
      rw [ofSource_source, if_pos rfl] at href
      have hlost : w.references - 1 = (if l then 1 else 0) + w.holders + w.writers + 0 := by omega
      have hleft : 0 < w.references - 1 := by omega
      exact ⟨hlost, hleft, hl⟩

theorem Linked.releaseDestination (h : Linked (.destination d) st) :
    Linked .nothing (destinationRelease st d) := by
  unfold destinationRelease
  cases hz : get st.destinations d with
  | none =>
    refine h.waive (fun _ _ _ => rfl) (fun _ _ _ => rfl) (fun b w hw => ?_)
    have hne : b ≠ d := by
      rintro rfl
      rw [hz] at hw
      cases hw
    rw [ofDestination_destination, if_neg hne, ofDestination_nothing]
  | some z =>
    obtain ⟨y, hy, hlink⟩ := h.destinations.object d z hz
    have hpos := hlink.positive
    simp only []
    by_cases hlast : z.references = 1
    · rw [if_neg (by omega)]
      have hfree := (h.freeDestination hz hlast).release
      rw [← free_modify st.destinations d fun x => { x with references := x.references - 1 }]
        at hfree
      exact hfree
    · rw [if_pos hlast]
      refine h.changeDestination (fun _ => rfl) ?_ (fun i hi => by simp [hi]) (fun _ => rfl)
        (fun _ => rfl)
      intro w l hw ⟨href, hpos⟩
      obtain rfl := Option.some.inj (hw.symm.trans hz)
      rw [ofDestination_destination, if_pos rfl] at href
      have hlost : w.references - 1 = (if l then 1 else 0) + w.holders + 0 := by omega
      have hleft : 0 < w.references - 1 := by omega
      exact ⟨hlost, hleft⟩

theorem Linked.holdSource (h : Linked .nothing st) {f : Source → Source}
    (hstream : ∀ x, (f x).stream = x.stream) (hremoved : ∀ x, (f x).pendingRemove = x.pendingRemove)
    (href : ∀ x, (f x).references = x.references + 1)
    (hheld : ∀ x, ((f x).holders + (f x).writers : ℤ) = x.holders + x.writers + 1) :
    Linked .nothing (onSource st a f) := by
  refine h.changeSource hstream ?_ (fun _ _ => rfl) (fun _ => rfl) (fun _ => rfl)
  intro x l _ hlink
  have h1 := hlink.references
  have h2 := hlink.positive
  have h3 := href x
  have h4 := hheld x
  simp only [ofSource_nothing] at h1
  exact ⟨by rw [ofSource_nothing]; omega, by omega, by rw [hremoved, hlink.removed]⟩

theorem Linked.letGoSource (h : Linked .nothing st) {f : Source → Source}
    (hx : get st.sources a = some x)
    (hstream : ∀ x, (f x).stream = x.stream) (hremoved : (f x).pendingRemove = x.pendingRemove)
    (href : (f x).references = x.references)
    (hheld : ((f x).holders + (f x).writers + 1 : ℤ) = x.holders + x.writers) :
    Linked (.source a) (onSource st a f) := by
  refine h.changeSource hstream ?_ (fun i hi => by simp [hi]) (fun _ => rfl) (fun _ => rfl)
  intro w l hw hlink
  obtain rfl := Option.some.inj (hw.symm.trans hx)
  have h1 := hlink.references
  have h2 := hlink.positive
  simp only [ofSource_nothing] at h1
  exact ⟨by rw [ofSource_source, if_pos rfl]; omega, by omega, by rw [hremoved, hlink.removed]⟩

theorem Linked.references_unlist (h : Linked o st) {f : Stream → Stream}
    (href : ∀ y, (f y).references = y.references) (hheld : ∀ y, (f y).holders = y.holders)
    (hy : get (modify st.streams s f) i = some y) :
    y.references = sourcesFor st i + destinationsFor st i + y.holders + o.ofStream i := by
  rw [get_modify] at hy
  split at hy
  · obtain ⟨y₀, hy₀, rfl⟩ := Option.map_eq_some_iff.mp hy
    rw [href, hheld]
    exact h.references i y₀ hy₀
  · exact h.references i y hy

theorem Linked.unlistSource (h : Linked .nothing st) (hx : get st.sources a = some x)
    (hmark : x.pendingRemove = false) :
    Linked (.source a)
      (onStream (onSource st a Source.marked) x.stream fun y => y.unlistSource a) where
  references := by
    intro s y hy
    have hcount : sourcesFor (onSource st a Source.marked) s = sourcesFor st s :=
      count_modify (f := Source.marked) (fun _ => rfl) st.sources a
    have hall := h.references_unlist (f := fun y => y.unlistSource a) (fun _ => rfl)
      (fun _ => rfl) hy
    rw [← hcount] at hall
    exact hall
  sources := by
    obtain ⟨y, hy, hlink⟩ := h.sources.object a x hx
    have hlisted : a ∈ y.sources := by
      have := hlink.removed
      rw [hmark] at this
      simpa using this
    have hmarked : Owned Source.stream Stream.sources
        (fun b w l => if b = a then w.references = (if l then 1 else 0) + w.holders + w.writers ∧
          w.pendingRemove = true else SourceLink .nothing b w l) st.streams
        (modify st.sources a Source.marked) := by
      refine h.sources.change (fun _ => rfl) ?_ fun b w l hb hw => by rwa [if_neg hb]
      intro w l _ hw
      rw [if_pos rfl]
      exact ⟨hw.references.trans (Int.add_zero _), rfl⟩
    have hget : get (modify st.sources a Source.marked) a = some x.marked := by
      rw [get_modify, if_pos rfl, hx]
      rfl
    refine hmarked.detach hget hy hlisted (f := fun y => y.unlistSource a) (fun _ => rfl) ?_ ?_
    · intro hw
      rw [if_pos rfl, if_pos rfl] at hw
      obtain ⟨href, hremoved⟩ := hw
      refine ⟨?_, hlink.positive, hremoved⟩
      rw [ofSource_source, if_pos rfl, href, if_neg Bool.false_ne_true]
      omega
    · intro b w l hb hw
      rw [if_neg hb] at hw
      exact ⟨by rw [hw.references, ofSource_source, if_neg hb, ofSource_nothing], hw.positive,
        hw.removed⟩
  destinations := (h.destinations.parent (f := fun y => y.unlistSource a)
    fun _ _ => rfl).mono fun _ _ _ _ hd => ⟨hd.references, hd.positive⟩
  sourceCount := by
    have hcount := count_modify (f := Source.marked) (p := fun _ => true) (fun _ => rfl)
      st.sources a
    exact h.sourceCount.trans (congrArg Nat.cast hcount.symm)
  destinationCount := h.destinationCount

theorem Linked.removeSource (h : Linked .nothing st) (s a : ℕ) :
    Linked .nothing (sourceRemove st s a) := by
  unfold sourceRemove
  cases hx : get st.sources a with
  | none => exact h
  | some x =>
    simp only []
    split_ifs with hguard
    · exact h
    · obtain ⟨hs, hlisted⟩ := not_or.mp hguard
      obtain rfl := not_ne_iff.mp hs
      exact (h.unlistSource hx (Bool.eq_false_iff.mpr hlisted)).releaseSource

theorem Linked.unlistDestination (h : Linked .nothing st) (hz : get st.destinations d = some z)
    (hy : get st.streams z.stream = some y) (hlisted : d ∈ y.destinations) :
    Linked (.destination d) (onStream st z.stream fun y => y.unlistDestination d) where
  references := fun _ _ hi => h.references_unlist (f := fun y => y.unlistDestination d)
    (fun _ => rfl) (fun _ => rfl) hi
  sources := (h.sources.parent (f := fun y => y.unlistDestination d) fun _ _ => rfl).mono
    fun _ _ _ _ hs => ⟨hs.references, hs.positive, hs.removed⟩
  destinations := by
    refine h.destinations.detach hz hy hlisted (f := fun y => y.unlistDestination d)
      (fun _ => rfl) ?_ ?_
    · intro hw
      refine ⟨?_, hw.positive⟩
      rw [hw.references, ofDestination_destination, if_pos rfl, ofDestination_nothing, if_pos rfl,
        if_neg Bool.false_ne_true]
      omega
    · intro b w l hb hw
      exact ⟨by rw [hw.references, ofDestination_destination, if_neg hb, ofDestination_nothing],
        hw.positive⟩
  sourceCount := h.sourceCount
  destinationCount := h.destinationCount

theorem Linked.removeDestination (h : Linked .nothing st) (hy : get st.streams s = some y)
    (hd : d ∈ y.destinations) : Linked .nothing (destinationRemove st s d) := by
  obtain ⟨z, hz, rfl⟩ := h.destinations.there s y hy d hd
  unfold destinationRemove
  rw [hz]
  simp only [ne_eq, not_true_eq_false, if_false]
  exact (h.unlistDestination hz hy hd).releaseDestination

theorem Linked.addSource (h : Linked (.stream s) st) (hy : get st.streams s = some y) (id : Str)
    (type priority : ℕ) :
    Linked .nothing
      (onStream
        { st with sources := alloc st.sources { stream := s, id, type, priority }
                  models := { st.models with sources := st.models.sources + 1 } } s
        fun y => y.listSource st.sources.length) where
  references := by
    intro i w hw
    have hall := h.references_unlist (f := fun y => y.listSource st.sources.length) (fun _ => rfl)
      (fun _ => rfl) hw
    have hcount := count_alloc st.sources { stream := s, id, type, priority } fun x => x.stream = i
    simp only [sourcesFor, destinationsFor, onStream, ofStream_stream, ofStream_nothing,
      decide_eq_true_eq, eq_comm (a := i)] at *
    split_ifs at * <;> omega
  sources := by
    have hadd := h.sources.add (x := { stream := s, id, type, priority }) hy
      (f := fun y => y.listSource st.sources.length) (fun _ => rfl) ⟨rfl, Int.one_pos, rfl⟩
    exact hadd.mono fun _ _ _ _ hs => ⟨hs.references, hs.positive, hs.removed⟩
  destinations := (h.destinations.parent (f := fun y => y.listSource st.sources.length)
    fun _ _ => rfl).mono fun _ _ _ _ hd => ⟨hd.references, hd.positive⟩
  sourceCount := by
    have hcount := count_alloc st.sources { stream := s, id, type, priority } fun _ => true
    have := h.sourceCount
    simp only [if_true, onStream] at *
    omega
  destinationCount := h.destinationCount

theorem Linked.addDestination (h : Linked (.stream s) st) (hy : get st.streams s = some y)
    (id : Str) (type : ℕ) :
    Linked .nothing
      (onStream
        { st with
          destinations := alloc st.destinations { stream := s, id, type }
          models := { st.models with destinations := st.models.destinations + 1 } } s
        fun y => y.listDestination st.destinations.length) where
  references := by
    intro i w hw
    have hall := h.references_unlist (f := fun y => y.listDestination st.destinations.length)
      (fun _ => rfl) (fun _ => rfl) hw
    have hcount := count_alloc st.destinations { stream := s, id, type } fun x => x.stream = i
    simp only [sourcesFor, destinationsFor, onStream, ofStream_stream, ofStream_nothing,
      decide_eq_true_eq, eq_comm (a := i)] at *
    split_ifs at * <;> omega
  sources := (h.sources.parent (f := fun y => y.listDestination st.destinations.length)
    fun _ _ => rfl).mono fun _ _ _ _ hs => ⟨hs.references, hs.positive, hs.removed⟩
  destinations := by
    have hadd := h.destinations.add (x := { stream := s, id, type }) hy
      (f := fun y => y.listDestination st.destinations.length) (fun _ => rfl) ⟨rfl, Int.one_pos⟩
    exact hadd.mono fun _ _ _ _ hd => ⟨hd.references, hd.positive⟩
  sourceCount := h.sourceCount
  destinationCount := by
    have hcount := count_alloc st.destinations { stream := s, id, type } fun _ => true
    have := h.destinationCount
    simp only [if_true, onStream] at *
    omega

theorem Linked.discardSource (h : Linked .nothing st) (x : Source) :
    Linked .nothing { st with sources := free (alloc st.sources x) st.sources.length } where
  references := by
    intro s y hy
    have hcount := count_free_alloc st.sources x fun x => x.stream = s
    have hall := h.references s y hy
    simp only [sourcesFor, destinationsFor] at *
    omega
  sources := h.sources.congr (get_free_alloc st.sources x)
  destinations := h.destinations
  sourceCount := h.sourceCount.trans (congrArg Nat.cast (count_free_alloc _ _ _).symm)
  destinationCount := h.destinationCount

theorem sources_undone (st : State) :
    { st with models := { st.models with sources := st.models.sources + 1 - 1 } } = st := by
  rw [Int.add_sub_cancel]

theorem destinations_undone (st : State) :
    { st with models := { st.models with destinations := st.models.destinations + 1 - 1 } } =
      st := by
  rw [Int.add_sub_cancel]

theorem release_fresh (st : State) {x : Source} (hx : x.references = 1) :
    sourceRelease { st with sources := alloc st.sources x
                            models := { st.models with sources := st.models.sources + 1 } }
      st.sources.length =
      streamRelease { st with sources := free (alloc st.sources x) st.sources.length }
        x.stream := by
  have hget : get (alloc st.sources x) st.sources.length = some x := by rw [get_alloc, if_pos rfl]
  unfold sourceRelease
  simp only [hget, hx]
  rw [if_neg (by decide), if_neg (by decide), Int.add_sub_cancel]

theorem Linked.addedSource (h : Linked .nothing st) (limits : Limits) (s : ℕ) (id : Str)
    (type priority : ℕ) (memory : SourceMemory) :
    Linked .nothing (sourceAdd limits st s id type priority memory) := by
  unfold sourceAdd
  cases hy : get st.streams s with
  | none => exact h
  | some y =>
    simp only []
    split
    · exact h
    split
    · exact h
    split
    · exact h
    split
    · rw [sources_undone]
      exact h
    cases stringSet id memory.id with
    | none =>
      simp only []
      rw [sources_undone]
      exact h
    | some copy =>
      have hretained : get (streamRetain st s).streams s =
          some { y with references := y.references + 1 } := by
        rw [streamRetain, onStream, get_modify, if_pos rfl, hy]
        rfl
      simp only []
      split
      · have hfresh := release_fresh (streamRetain st s)
          (x := { stream := s, id := copy, type, priority }) rfl
        have hundone := (h.retain (s := s)).release.discardSource
          { stream := s, id := copy, type, priority }
        exact hfresh ▸ hundone
      · exact h.retain.addSource hretained copy type priority

theorem Linked.addedDestination (h : Linked .nothing st) (limits : Limits) (s : ℕ) (id : Str)
    (type : ℕ) (memory : DestinationMemory) :
    Linked .nothing (destinationAdd limits st s id type memory) := by
  unfold destinationAdd
  cases hy : get st.streams s with
  | none => exact h
  | some y =>
    simp only []
    split
    · exact h
    split
    · exact h
    split
    · exact h
    split
    · rw [destinations_undone]
      exact h
    cases stringSet id memory.id with
    | none =>
      simp only []
      rw [destinations_undone]
      exact h
    | some copy =>
      have hretained : get (streamRetain st s).streams s =
          some { y with references := y.references + 1 } := by
        rw [streamRetain, onStream, get_modify, if_pos rfl, hy]
        rfl
      exact h.retain.addDestination hretained copy type

theorem Linked.holdDestination (h : Linked .nothing st) {f : Destination → Destination}
    (hstream : ∀ x, (f x).stream = x.stream) (href : ∀ x, (f x).references = x.references + 1)
    (hheld : ∀ x, (f x).holders = x.holders + 1) : Linked .nothing (onDestination st d f) := by
  refine h.changeDestination hstream ?_ (fun _ _ => rfl) (fun _ => rfl) (fun _ => rfl)
  intro z l _ hlink
  have h1 := hlink.references
  have h2 := hlink.positive
  have h3 := href z
  have h4 := hheld z
  simp only [ofDestination_nothing] at h1
  exact ⟨by rw [ofDestination_nothing]; omega, by omega⟩

theorem Linked.letGoDestination (h : Linked .nothing st) {f : Destination → Destination}
    (hz : get st.destinations d = some z) (hstream : ∀ x, (f x).stream = x.stream)
    (href : (f z).references = z.references) (hheld : (f z).holders + 1 = z.holders) :
    Linked (.destination d) (onDestination st d f) := by
  refine h.changeDestination hstream ?_ (fun i hi => by simp [hi]) (fun _ => rfl) (fun _ => rfl)
  intro w l hw hlink
  obtain rfl := Option.some.inj (hw.symm.trans hz)
  have h1 := hlink.references
  have h2 := hlink.positive
  simp only [ofDestination_nothing] at h1
  exact ⟨by rw [ofDestination_destination, if_pos rfl]; omega, by omega⟩

theorem Linked.call (h : Linked .nothing st) (limits : Limits) (c : Call) :
    Linked .nothing (call limits st c) := by
  cases c with
  | streamRetain s =>
    refine h.retain.changeStream (fun _ _ => rfl) (fun _ _ => rfl) (fun y _ => ?_) (fun i hi => ?_)
      (fun _ => rfl) (fun _ => rfl)
    · simp only [ofStream_nothing, ofStream_stream, if_true]
      omega
    · rw [ofStream_stream, if_neg hi, ofStream_nothing]
  | streamRelease s =>
    simp only [StreamReferences.call]
    cases hy : get st.streams s with
    | none => exact h
    | some y =>
      simp only []
      split_ifs with hheld
      · exact h
      · refine Linked.release ?_
        refine h.changeStream (fun _ _ => rfl) (fun _ _ => rfl) (fun w hw => ?_) (fun i hi => ?_)
          (fun _ => rfl) (fun _ => rfl)
        · obtain rfl := Option.some.inj (hw.symm.trans hy)
          simp only [ofStream_nothing, ofStream_stream, if_true]
          omega
        · rw [ofStream_stream, if_neg hi, ofStream_nothing]
  | sourceAdd s id type priority memory => exact h.addedSource limits s id type priority memory
  | sourceRemove s a => exact h.removeSource s a
  | sourceRetain a =>
    simp only [StreamReferences.call, sourceRetain, onSource, modify_modify]
    exact h.holdSource (fun _ => rfl) (fun _ => rfl) (fun _ => rfl) fun x => by
      simp only [Function.comp]
      omega
  | sourceRelease a =>
    simp only [StreamReferences.call]
    cases hx : get st.sources a with
    | none => exact h
    | some x =>
      simp only []
      split_ifs with hheld
      · exact h
      · refine Linked.releaseSource (h.letGoSource hx (fun _ => by rfl) (by rfl) (by rfl) ?_)
        simp only []
        omega
  | leaseBegin s a =>
    simp only [StreamReferences.call, streamLeaseBegin]
    split
    · split_ifs
      · exact h
      · simp only [sourceLeaseBegin, sourceRetain, onSource, modify_modify]
        exact h.holdSource (fun _ => rfl) (fun _ => rfl) (fun _ => rfl) fun x => by
          simp only [Function.comp]
          omega
    · exact h
  | leaseEnd a =>
    simp only [StreamReferences.call, sourceLeaseEnd]
    cases hx : get st.sources a with
    | none => exact h
    | some x =>
      simp only []
      split_ifs with hwriters
      · refine Linked.releaseSource (h.letGoSource hx (fun _ => by rfl) (by rfl) (by rfl) ?_)
        simp only []
        omega
      · exact h
  | destinationAdd s id type memory => exact h.addedDestination limits s id type memory
  | destinationRemove s id =>
    simp only [StreamReferences.call]
    cases hy : get st.streams s with
    | none => exact h
    | some y =>
      cases hd : destinationFind st y id with
      | none => simpa only [hd] using h
      | some d =>
        simp only [hd]
        exact h.removeDestination hy (List.mem_of_find?_eq_some hd)
  | destinationRetain d =>
    simp only [StreamReferences.call, destinationRetain, onDestination, modify_modify]
    exact h.holdDestination (fun _ => rfl) (fun _ => rfl) fun _ => rfl
  | destinationRelease d =>
    simp only [StreamReferences.call]
    cases hz : get st.destinations d with
    | none => exact h
    | some z =>
      simp only []
      split_ifs with hheld
      · exact h
      · refine Linked.releaseDestination
          (h.letGoDestination hz (fun _ => by rfl) (by rfl) ?_)
        simp only []
        omega

end StreamReferences
