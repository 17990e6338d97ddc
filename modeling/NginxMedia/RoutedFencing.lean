import NginxMedia.RoutedSessions

/-! Fencing of routed sessions. A source is served by one slot, the slots' references are the
ones they took, and what a superseded session still sends reaches nothing of its successor. -/
namespace RoutedFencing

open RoutedSessions
open IpcFrame (Header)
open SlotTable (Distinct held weight)

variable {env : Env} {w w' : World} {i j : Fin maxRouted} {slot other : Slot} {header : Header}
  {payload : Option (List UInt8)} {p : Slot → Bool}

/-- The session that was admitted last for a source. -/
def latest (accepted : List (ℕ × ℕ)) (x : ℕ) : Option ℕ :=
  (accepted.reverse.find? fun a => decide (a.2 = x)).map Prod.fst

theorem latest_concat (accepted : List (ℕ × ℕ)) (session x y : ℕ) :
    latest (accepted ++ [(session, y)]) x = if y = x then some session else latest accepted x := by
  by_cases h : y = x <;> simp [latest, h]

def Listed (w : World) : Prop :=
  ∀ st ∈ w.streams, ∀ x ∈ st.sources, x < w.fresh

structure Inv (w : World) : Prop where
  distinct : Distinct Slot.source w.slots
  known : ∀ i slot, w.slots i = some slot → slot.source < w.fresh
  listed : Listed w
  sourceRefs : ∀ x, w.sourceRefs x = held Slot.source w.slots x
  streamRefs : ∀ x, w.streamRefs x = held Slot.stream w.slots x
  latest : ∀ i slot, w.slots i = some slot → latest w.accepted slot.source = some slot.session

theorem initial_inv : Inv initial where
  distinct := SlotTable.distinct_empty _
  known := by
    intro i slot h
    cases h
  listed := by
    intro st h
    cases h
  sourceRefs := by
    intro x
    simp [initial, SlotTable.held_empty]
  streamRefs := by
    intro x
    simp [initial, SlotTable.held_empty]
  latest := by
    intro i slot h
    cases h

theorem Inv.source_ne (h : Inv w) (hi : w.slots i = some slot) (hj : w.slots j = some other)
    (hne : j ≠ i) : other.source ≠ slot.source := by
  intro heq
  exact hne (h.distinct j i other slot hj hi heq)

structure Still (w w' : World) : Prop where
  slots : w'.slots = w.slots
  sourceRefs : w'.sourceRefs = w.sourceRefs
  streamRefs : w'.streamRefs = w.streamRefs
  accepted : w'.accepted = w.accepted
  published : w'.published = w.published
  fresh : w.fresh ≤ w'.fresh
  listed : Listed w → Listed w'

theorem Still.refl (w : World) : Still w w :=
  ⟨rfl, rfl, rfl, rfl, rfl, le_rfl, id⟩

theorem Still.trans {v : World} (h : Still w w') (h' : Still w' v) : Still w v where
  slots := h'.slots.trans h.slots
  sourceRefs := h'.sourceRefs.trans h.sourceRefs
  streamRefs := h'.streamRefs.trans h.streamRefs
  accepted := h'.accepted.trans h.accepted
  published := h'.published.trans h.published
  fresh := h.fresh.trans h'.fresh
  listed := fun hl => h'.listed (h.listed hl)

theorem Inv.still (h : Inv w) (hs : Still w w') : Inv w' where
  distinct := by
    rw [hs.slots]
    exact h.distinct
  known := by
    intro i slot hi
    rw [hs.slots] at hi
    exact lt_of_lt_of_le (h.known i slot hi) hs.fresh
  listed := hs.listed h.listed
  sourceRefs := by
    rw [hs.slots, hs.sourceRefs]
    exact h.sourceRefs
  streamRefs := by
    rw [hs.slots, hs.streamRefs]
    exact h.streamRefs
  latest := by
    rw [hs.slots, hs.accepted]
    exact h.latest

theorem setSource_still (w : World) (x : ℕ) (f : Source → Source) : Still w (w.setSource x f) :=
  ⟨rfl, rfl, rfl, rfl, rfl, le_rfl, id⟩

theorem setStream_still (w : World) (handle : ℕ) {f : Stream → Stream}
    (hf : ∀ st, (f st).sources ⊆ st.sources) : Still w (w.setStream handle f) := by
  refine ⟨rfl, rfl, rfl, rfl, rfl, le_rfl, ?_⟩
  intro hl st hst x hx
  obtain ⟨st₀, hst₀, rfl⟩ := List.mem_map.mp hst
  apply hl st₀ hst₀ x
  by_cases hh : st₀.handle = handle
  · rw [if_pos hh] at hx
    exact hf st₀ hx
  · rwa [if_neg hh] at hx

theorem streamCreate_still (w : World) (application name : MediaGraph.Str) (incarnation : ℕ) :
    Still w (w.streamCreate application name incarnation) := by
  refine ⟨rfl, rfl, rfl, rfl, rfl, le_rfl, ?_⟩
  intro hl st hst x hx
  rcases List.mem_append.mp hst with hst | hst
  · exact hl st hst x hx
  · rw [List.mem_singleton.mp hst] at hx
    cases hx

theorem sourceAdd_still (w : World) (handle : ℕ) (id : MediaGraph.Str) (type priority : ℕ) :
    Still w (w.sourceAdd handle id type priority) := by
  refine ⟨rfl, rfl, rfl, rfl, rfl, Nat.le_succ _, ?_⟩
  intro hl st hst x hx
  obtain ⟨st₀, hst₀, rfl⟩ := List.mem_map.mp hst
  change x < w.fresh + 1
  by_cases hh : st₀.handle = handle
  · rw [if_pos hh] at hx
    rcases List.mem_append.mp hx with hx | hx
    · exact Nat.lt_succ_of_lt (hl st₀ hst₀ x hx)
    · rw [List.mem_singleton.mp hx]
      exact Nat.lt_succ_self _
  · rw [if_neg hh] at hx
    exact Nat.lt_succ_of_lt (hl st₀ hst₀ x hx)

theorem sourceRemove_still (w : World) (x : ℕ) : Still w (w.sourceRemove x) := by
  unfold World.sourceRemove
  split
  · exact Still.refl w
  · apply (setSource_still w x _).trans
    apply setStream_still
    intro st y hy
    exact List.mem_of_mem_filter hy

theorem streamRemove_still (w : World) (handle : ℕ) : Still w (w.streamRemove handle) := by
  have hremoved : ∀ xs : List ℕ, Still w (xs.foldl World.sourceRemove w) := fun xs =>
    StepRun.invariant (fun v x hv => hv.trans (sourceRemove_still v x)) (Still.refl w) xs
  refine (hremoved _).trans ⟨rfl, rfl, rfl, rfl, rfl, le_rfl, ?_⟩
  intro hl st hst
  exact hl st (List.mem_of_mem_filter hst)

theorem mismatch_still (w : World) (hash : ℕ) : Still w (w.mismatch hash) := by
  unfold World.mismatch
  split
  · exact ⟨rfl, rfl, rfl, rfl, rfl, le_rfl, id⟩
  · exact Still.refl w

def Kept (w w' : World) (i : Fin maxRouted) (slot : Slot) : Prop :=
  w'.slots i = some slot ∧ w'.sources slot.source = w.sources slot.source

theorem sourceRemove_other (w : World) {x y : ℕ} (h : x ≠ y) :
    (w.sourceRemove y).sources x = w.sources x := by
  unfold World.sourceRemove
  split
  · rfl
  · exact Function.update_of_ne h _ _

theorem sourceClose_still (env : Env) (w : World) (slot : Slot) :
    Still w (sourceClose env w slot) := by
  unfold sourceClose
  dsimp only
  split
  · exact Still.refl w
  · split
    · exact sourceRemove_still w _
    · exact setSource_still w _ _

theorem sourceClose_other (env : Env) (w : World) (slot : Slot) {x : ℕ} (h : x ≠ slot.source) :
    (sourceClose env w slot).sources x = w.sources x := by
  unfold sourceClose
  dsimp only
  split
  · rfl
  · split
    · exact sourceRemove_other w h
    · exact Function.update_of_ne h _ _

theorem refs_added (refs : ℕ → ℤ) (key : Slot → ℕ) (slot : Slot) (c : ℤ) (x : ℕ) :
    Function.update refs (key slot) (refs (key slot) + c) x =
      refs x + c * weight key x (some slot) := by
  rw [SlotTable.weight_some, Function.update_apply]
  by_cases h : x = key slot
  · rw [if_pos h, if_pos h, h]
    simp
  · rw [if_neg h, if_neg h]
    simp

theorem refs_held {refs : ℕ → ℤ} {key : Slot → ℕ} {t : Fin maxRouted → Option Slot}
    (h : ∀ x, refs x = held key t x) (i : Fin maxRouted) (v : Option Slot) (x : ℕ) :
    (held key (Function.update t i v) x : ℤ) = refs x - weight key x (t i) + weight key x v := by
  have := SlotTable.held_update key t i v x
  rw [h x]
  omega

theorem routedClose_published (env : Env) (w : World) (i : Fin maxRouted) :
    (routedClose env w i).published = w.published := by
  unfold routedClose
  split
  · rfl
  · exact (sourceClose_still env w _).published

theorem Inv.close (h : Inv w) (env : Env) (i : Fin maxRouted) : Inv (routedClose env w i) := by
  unfold routedClose
  split
  · exact h
  · rename_i slot hi
    have hs := sourceClose_still env w slot
    have hc := h.still hs
    have hold : (sourceClose env w slot).slots i = some slot := by rw [hs.slots, hi]
    constructor
    · exact hc.distinct.release i
    · intro j other hj
      rcases SlotTable.update_some hj with ⟨-, hnone⟩ | ⟨-, hj⟩
      · cases hnone
      · exact hc.known j other hj
    · exact hc.listed
    · intro x
      have href := refs_added (sourceClose env w slot).sourceRefs Slot.source slot (-1) x
      have hheld := refs_held hc.sourceRefs i none x
      rw [hold, SlotTable.weight_none] at hheld
      refine href.trans (Eq.trans ?_ hheld.symm)
      omega
    · intro x
      have href := refs_added (sourceClose env w slot).streamRefs Slot.stream slot (-1) x
      have hheld := refs_held hc.streamRefs i none x
      rw [hold, SlotTable.weight_none] at hheld
      refine href.trans (Eq.trans ?_ hheld.symm)
      omega
    · intro j other hj
      rcases SlotTable.update_some hj with ⟨-, hnone⟩ | ⟨-, hj⟩
      · cases hnone
      · exact hc.latest j other hj

theorem Inv.kept_close (h : Inv w) (env : Env) (hj : w.slots j = some other) (hne : j ≠ i) :
    Kept w (routedClose env w i) j other := by
  unfold routedClose
  split
  · exact ⟨hj, rfl⟩
  · rename_i slot hi
    constructor
    · have hslots := congrFun (sourceClose_still env w slot).slots j
      exact (Function.update_of_ne hne none _).trans (hslots.trans hj)
    · exact sourceClose_other env w slot (h.source_ne hi hj hne)

theorem closeWhere_inv (h : Inv w) (env : Env) (p : World → Slot → Bool) :
    Inv (closeWhere env p w) ∧ (closeWhere env p w).published = w.published := by
  refine StepRun.invariant (I := fun v => Inv v ∧ v.published = w.published) ?_ ⟨h, rfl⟩ _
  rintro v i ⟨hv, hp⟩
  split
  · exact ⟨hv.close env i, (routedClose_published env v i).trans hp⟩
  · exact ⟨hv, hp⟩

theorem closeWhere_kept (h : Inv w) (env : Env) {p : World → Slot → Bool}
    (hj : w.slots j = some other)
    (hp : ∀ v : World, v.sources other.source = w.sources other.source → p v other = false) :
    Kept w (closeWhere env p w) j other := by
  suffices hall : Inv (closeWhere env p w) ∧ Kept w (closeWhere env p w) j other from hall.2
  refine StepRun.invariant (I := fun v => Inv v ∧ Kept w v j other) ?_ ⟨h, hj, rfl⟩ _
  rintro v i ⟨hv, hslot, hsource⟩
  by_cases hij : j = i
  · subst i
    rw [if_neg (by simp [hslot, hp v hsource])]
    exact ⟨hv, hslot, hsource⟩
  · split
    · obtain ⟨hslot', hsource'⟩ := hv.kept_close env hslot hij
      exact ⟨hv.close env i, hslot', hsource'.trans hsource⟩
    · exact ⟨hv, hslot, hsource⟩

theorem target_source {x : ℕ} (h : Inv w) (ht : w.target (some x) = some i)
    (hj : w.slots j = some other) (hx : other.source = x) : j = i := by
  unfold World.target at ht
  cases hf : SlotTable.find w.slots fun slot => decide (slot.source = x) with
  | none =>
    have hother := SlotTable.find_none hf hj
    simp [hx] at hother
  | some k =>
    obtain ⟨slot, hk, hslot⟩ := SlotTable.find_some hf
    simp only [Option.bind_some, hf, Option.some_or, Option.some.injEq] at ht
    rw [← ht]
    exact h.distinct j k other slot hj hk (hx.trans (of_decide_eq_true hslot).symm)

theorem openStream_still {application name : MediaGraph.Str} {incarnation handle : ℕ}
    (h : openStream env w application name incarnation = some (handle, w')) : Still w w' := by
  unfold openStream at h
  split at h
  · cases h
    exact Still.refl w
  · split at h
    · cases h
      exact streamCreate_still w _ _ _
    · cases h

theorem openSource_still {source : Option ℕ} {id : MediaGraph.Str} {handle x : ℕ} {created : Bool}
    (h : openSource env w handle source id header = some (x, created, w')) : Still w w' := by
  unfold openSource at h
  split at h
  · cases h
    exact Still.refl w
  · split at h
    · cases h
      exact sourceAdd_still w _ _ _ _
    · cases h

theorem openSource_fresh {source : Option ℕ} {id : MediaGraph.Str} {handle x : ℕ} {created : Bool}
    (h : openSource env w handle source id header = some (x, created, w')) :
    source = some x ∨ (source = none ∧ x = w.fresh ∧ w'.fresh = w.fresh + 1) := by
  unfold openSource at h
  split at h
  · cases h
    exact Or.inl rfl
  · split at h
    · cases h
      exact Or.inr ⟨rfl, rfl, rfl⟩
    · cases h

theorem openHealth_still (env : Env) (w : World) (handle x : ℕ) :
    Still w (openHealth env w handle x) := by
  refine (setStream_still w handle ?_).trans
    ((setSource_still _ x _).trans (setStream_still _ handle ?_))
  · intro st
    cases env.policy
    · exact List.Subset.refl _
    · exact List.Subset.refl _
  · intro st
    exact List.Subset.refl _

theorem refs_opened {refs : ℕ → ℤ} {key : Slot → ℕ} {t : Fin maxRouted → Option Slot}
    (h : ∀ x, refs x = held key t x) (i : Fin maxRouted) (slot : Slot) (x : ℕ) :
    Function.update ((t i).elim refs fun old =>
        Function.update refs (key old) (refs (key old) - 1)) (key slot)
        (((t i).elim refs fun old =>
          Function.update refs (key old) (refs (key old) - 1)) (key slot) + 1) x =
      (held key (Function.update t i (some slot)) x : ℤ) := by
  have hheld := refs_held h i (some slot) x
  rw [refs_added, hheld, one_mul]
  congr 1
  cases ht : t i with
  | none => simp
  | some old =>
    have hback := refs_added refs key old (-1) x
    refine hback.trans ?_
    omega

theorem Inv.open {peer handle x : ℕ} {created : Bool} (h : Inv w) (hx : x < w.fresh)
    (hfresh : ∀ j other, w.slots j = some other → other.source = x → j = i) :
    Inv (openSlot w i peer header handle x created) := by
  have hslots : (openSlot w i peer header handle x created).slots =
      Function.update w.slots i
        (some (Slot.opened (w.slots i) peer header handle x created)) := by
    unfold openSlot
    cases w.slots i <;> rfl
  have hfreshes : (openSlot w i peer header handle x created).fresh = w.fresh := by
    unfold openSlot
    cases w.slots i <;> rfl
  constructor
  · rw [hslots]
    exact h.distinct.store hfresh
  · intro j other hj
    rw [hslots] at hj
    rw [hfreshes]
    rcases SlotTable.update_some hj with ⟨-, hnew⟩ | ⟨-, hj⟩
    · cases hnew
      exact hx
    · exact h.known j other hj
  · have hstreams : (openSlot w i peer header handle x created).streams = w.streams := by
      unfold openSlot
      cases w.slots i <;> rfl
    unfold Listed
    rw [hstreams, hfreshes]
    exact h.listed
  · intro y
    rw [hslots, ← refs_opened h.sourceRefs]
    unfold openSlot
    cases w.slots i <;> rfl
  · intro y
    rw [hslots, ← refs_opened h.streamRefs]
    unfold openSlot
    cases w.slots i <;> rfl
  · intro j other hj
    rw [hslots] at hj
    refine (latest_concat w.accepted header.session other.source x).trans ?_
    rcases SlotTable.update_some hj with ⟨-, hnew⟩ | ⟨hne, hj⟩
    · cases hnew
      exact if_pos rfl
    · rw [if_neg fun heq => hne (hfresh j other hj heq.symm)]
      exact h.latest j other hj

theorem openSlot_published (w : World) (i : Fin maxRouted) (peer : ℕ) (header : Header)
    (handle x : ℕ) (created : Bool) :
    (openSlot w i peer header handle x created).published = w.published := by
  unfold openSlot
  cases w.slots i <;> rfl

theorem sourceFind_fresh (h : Listed w) {application name id : MediaGraph.Str} {x : ℕ}
    (hx : (w.stream application name).bind (fun st => w.sourceFind st id) = some x) :
    x < w.fresh := by
  obtain ⟨st, hst, hfind⟩ := Option.bind_eq_some_iff.mp hx
  exact h st (List.mem_of_find?_eq_some hst) x (List.mem_of_find?_eq_some hfind)

theorem Inv.admitted {w₁ w₂ : World} {source : Option ℕ} {id : MediaGraph.Str}
    {peer handle x : ℕ} {created : Bool} (h : Inv w) (hknown : ∀ x, source = some x → x < w.fresh)
    (ht : w.target source = some i) (h₁ : Still w w₁)
    (h₂ : openSource env w₁ handle source id header = some (x, created, w₂)) :
    Inv (openSlot (openHealth env w₂ handle x) i peer header handle x created) ∧
      (openSlot (openHealth env w₂ handle x) i peer header handle x created).published =
        w.published := by
  have hs := (h₁.trans (openSource_still h₂)).trans (openHealth_still env w₂ handle x)
  constructor
  · rcases openSource_fresh h₂ with hsource | ⟨hnone, hx, hfresh⟩
    · refine (h.still hs).open (lt_of_lt_of_le (hknown x hsource) hs.fresh) ?_
      intro j other hj hother
      rw [hs.slots] at hj
      rw [hsource] at ht
      exact target_source h ht hj hother
    · have hhealth := (openHealth_still env w₂ handle x).fresh
      refine (h.still hs).open (by omega) ?_
      intro j other hj hother
      rw [hs.slots] at hj
      have hbound := h.known j other hj
      have hgrown := h₁.fresh
      omega
  · exact (openSlot_published _ _ _ _ _ _ _).trans hs.published

theorem Inv.routeOpen (h : Inv w) (env : Env) (peer : ℕ) (header : Header)
    (payload : Option (List UInt8)) :
    Inv (routeOpen env w peer header payload).1 ∧
      (routeOpen env w peer header payload).1.published = w.published := by
  have hkeep : Inv w ∧ w.published = w.published := ⟨h, rfl⟩
  unfold RoutedSessions.routeOpen
  dsimp only
  split
  · exact hkeep
  split
  · exact hkeep
  rename_i application name sourceId _
  split
  · exact hkeep
  split
  · exact ⟨h.still ⟨rfl, rfl, rfl, rfl, rfl, le_rfl, fun hl => hl⟩, rfl⟩
  split
  · exact hkeep
  split
  · exact ⟨h.still ⟨rfl, rfl, rfl, rfl, rfl, le_rfl, fun hl => hl⟩, rfl⟩
  rename_i i ht
  split
  · exact hkeep
  split
  · exact hkeep
  rename_i handle w₁ hstream
  have h₁ := openStream_still hstream
  split
  · exact ⟨h.still h₁, h₁.published⟩
  rename_i x created w₂ hsource
  exact h.admitted (fun _ => sourceFind_fresh h.listed) ht h₁ hsource

theorem served_ne (hf : SlotTable.find w.slots (fun slot => p slot) = some i)
    (hp : ∀ slot, p slot = true → slot.session = header.session)
    (hj : w.slots j = some other) (hne : header.session ≠ other.session) : j ≠ i := by
  rintro rfl
  obtain ⟨slot, hslot, hserves⟩ := SlotTable.find_some hf
  rw [hj, Option.some.injEq] at hslot
  subst slot
  exact hne (hp other hserves).symm

theorem Slot.session_of_serves (h : slot.serves header = true) : slot.session = header.session := by
  simp only [RoutedSessions.Slot.serves, decide_eq_true_eq] at h
  exact h.2.2

theorem Inv.routeClose (h : Inv w) (env : Env) (header : Header) :
    Inv (routeClose env w header).1 ∧ (routeClose env w header).1.published = w.published := by
  unfold RoutedSessions.routeClose
  split
  · exact ⟨h.still (mismatch_still w _), (mismatch_still w _).published⟩
  · exact ⟨h.close env _, routedClose_published env w _⟩

theorem mismatch_sources (w : World) (hash : ℕ) : (w.mismatch hash).sources = w.sources := by
  unfold World.mismatch
  split
  · rfl
  · rfl

theorem Inv.kept_routeClose (h : Inv w) (env : Env) (hj : w.slots j = some other)
    (hne : header.session ≠ other.session) : Kept w (RoutedSessions.routeClose env w header).1 j other := by
  unfold RoutedSessions.routeClose
  split
  · exact ⟨(congrFun (mismatch_still w _).slots j).trans hj,
      congrFun (mismatch_sources w _) other.source⟩
  · rename_i i hf
    exact h.kept_close env hj (served_ne hf (fun _ => Slot.session_of_serves) hj hne)

inductive Tracked (env : Env) (w : World) (header : Header) : World → Prop where
  | idle : Tracked env w header w
  | mismatch : Tracked env w header (w.mismatch header.hash)
  | set (i : Fin maxRouted) (slot : Slot) (f : Source → Source)
      (hf : SlotTable.find w.slots (fun slot => slot.serves header && !w.deleted slot) = some i)
      (hi : w.slots i = some slot) : Tracked env w header (w.setSource slot.source f)

theorem routeTracks_cases (env : Env) (w : World) (header : Header)
    (payload : Option (List UInt8)) : Tracked env w header (routeTracks env w header payload).1 := by
  unfold routeTracks
  dsimp only
  split
  · exact .idle
  split
  · exact .idle
  split
  · exact .idle
  split
  · exact .idle
  split
  · exact .mismatch
  rename_i i hf
  split
  · exact .idle
  · rename_i slot hi
    dsimp only
    exact .set i slot _ hf hi

theorem Inv.routeTracks (h : Inv w) (env : Env) (header : Header)
    (payload : Option (List UInt8)) :
    Inv (routeTracks env w header payload).1 ∧
      (routeTracks env w header payload).1.published = w.published := by
  have hstill : Still w (RoutedSessions.routeTracks env w header payload).1 := by
    have hcases := routeTracks_cases env w header payload
    generalize (RoutedSessions.routeTracks env w header payload).1 = w' at hcases ⊢
    cases hcases with
    | idle => exact Still.refl w
    | mismatch => exact mismatch_still w _
    | set i slot f hf hi => exact setSource_still w _ _
  exact ⟨h.still hstill, hstill.published⟩

theorem Inv.kept_routeTracks (h : Inv w) (env : Env) (payload : Option (List UInt8))
    (hj : w.slots j = some other) (hne : header.session ≠ other.session) :
    Kept w (RoutedSessions.routeTracks env w header payload).1 j other := by
  have hcases := routeTracks_cases env w header payload
  generalize (RoutedSessions.routeTracks env w header payload).1 = w' at hcases ⊢
  cases hcases with
  | idle => exact ⟨hj, rfl⟩
  | mismatch =>
    exact ⟨(congrFun (mismatch_still w _).slots j).trans hj,
      congrFun (mismatch_sources w _) other.source⟩
  | set i slot f hf hi =>
    have hji : j ≠ i := by
      refine served_ne hf ?_ hj hne
      intro slot hslot
      exact Slot.session_of_serves (Bool.and_eq_true_iff.mp hslot).1
    exact ⟨hj, Function.update_of_ne (h.source_ne hi hj hji) _ _⟩

structure Served (w w' : World) (i : Fin maxRouted) (slot : Slot) : Prop where
  slots : ∃ next : Slot, next.source = slot.source ∧ next.stream = slot.stream ∧
    next.session = slot.session ∧ w'.slots = Function.update w.slots i (some next)
  others : ∀ x, x ≠ slot.source → w'.sources x = w.sources x
  sourceRefs : w'.sourceRefs = w.sourceRefs
  streamRefs : w'.streamRefs = w.streamRefs
  accepted : w'.accepted = w.accepted
  fresh : w'.fresh = w.fresh
  streams : w'.streams = w.streams

theorem Inv.served (h : Inv w) (hi : w.slots i = some slot) (hs : Served w w' i slot) : Inv w' := by
  obtain ⟨next, hsource, hstream, hsession, hslots⟩ := hs.slots
  constructor
  · rw [hslots]
    exact h.distinct.replace hi hsource
  · intro j other hj
    rw [hslots] at hj
    rw [hs.fresh]
    rcases SlotTable.update_some hj with ⟨-, hnew⟩ | ⟨-, hj⟩
    · cases hnew
      rw [hsource]
      exact h.known i slot hi
    · exact h.known j other hj
  · unfold Listed
    rw [hs.streams, hs.fresh]
    exact h.listed
  · intro x
    have hheld := refs_held h.sourceRefs i (some next) x
    rw [hi, SlotTable.weight_some, SlotTable.weight_some, hsource] at hheld
    rw [hslots, hs.sourceRefs, hheld]
    omega
  · intro x
    have hheld := refs_held h.streamRefs i (some next) x
    rw [hi, SlotTable.weight_some, SlotTable.weight_some, hstream] at hheld
    rw [hslots, hs.streamRefs, hheld]
    omega
  · intro j other hj
    rw [hslots] at hj
    rw [hs.accepted]
    rcases SlotTable.update_some hj with ⟨-, hnew⟩ | ⟨-, hj⟩
    · cases hnew
      rw [hsource, hsession]
      exact h.latest i slot hi
    · exact h.latest j other hj

theorem sequence_same (slot : Slot) (header : Header) :
    (slot.sequence header).source = slot.source ∧ (slot.sequence header).stream = slot.stream ∧
      (slot.sequence header).session = slot.session := by
  unfold RoutedSessions.Slot.sequence
  split
  · exact ⟨rfl, rfl, rfl⟩
  · exact ⟨rfl, rfl, rfl⟩

theorem routeChunk_served (env : Env) (w : World) (i : Fin maxRouted) (slot : Slot)
    (header : Header) (payload : List UInt8) :
    Served w (routeChunk env w i slot header payload).1 i slot ∧
      ((routeChunk env w i slot header payload).1.published = w.published ∨
        (routeChunk env w i slot header payload).1.published =
          w.published ++ [(header.session, slot.source)]) := by
  obtain ⟨hsource, hstream, hsession⟩ := sequence_same slot header
  unfold routeChunk
  rcases IpcFrame.feed (fun h => env.bytes h.total) slot.frame ⟨header, payload⟩ with
    ⟨frame, status⟩
  dsimp only
  generalize hv : (if frame.restarts ≠ slot.frame.restarts then
    { w with stats := { w.stats with frameRestarts := w.stats.frameRestarts + 1 } } else w) = v
  have hsame : ∃ stats, v = { w with stats := stats } := by
    rw [← hv]
    split
    · exact ⟨_, rfl⟩
    · exact ⟨_, rfl⟩
  obtain ⟨stats, rfl⟩ := hsame
  cases status with
  | error =>
    exact ⟨⟨⟨{ slot with frame := frame }, rfl, rfl, rfl, rfl⟩, fun _ _ => rfl, rfl, rfl, rfl, rfl,
      rfl⟩, Or.inl rfl⟩
  | again =>
    exact ⟨⟨⟨{ slot.sequence header with frame := frame }, hsource, hstream, hsession, rfl⟩,
      fun _ _ => rfl, rfl, rfl, rfl, rfl, rfl⟩, Or.inl rfl⟩
  | ok =>
    exact ⟨⟨⟨{ slot.sequence header with frame := frame.reset }, hsource, hstream, hsession, rfl⟩,
      fun _ hx => Function.update_of_ne hx _ _, rfl, rfl, rfl, rfl, rfl⟩, Or.inr rfl⟩

inductive Framed (env : Env) (w : World) (header : Header) : World → Prop where
  | missed (stats : Stats) : Framed env w header { w with stats := stats }
  | closed (i : Fin maxRouted) (hf : SlotTable.find w.slots (Slot.serves header) = some i) :
    Framed env w header (routedClose env w i)
  | chunk (i : Fin maxRouted) (slot : Slot) (p : List UInt8)
      (hf : SlotTable.find w.slots (Slot.serves header) = some i) (hi : w.slots i = some slot) :
    Framed env w header (routeChunk env w i slot header p).1

theorem routeFrame_cases (env : Env) (w : World) (header : Header)
    (payload : Option (List UInt8)) : Framed env w header (routeFrame env w header payload).1 := by
  unfold routeFrame
  split
  · split
    · dsimp only
      unfold World.mismatch
      split
      · exact .missed _
      · exact .missed _
    · exact .missed _
  · rename_i i hf
    split
    · exact .missed _
    · rename_i slot hi
      split
      · exact .closed i hf
      · split
        · exact .missed _
        · rename_i p
          exact .chunk i slot p hf hi

def Grows (w w' : World) (session : ℕ) : Prop :=
  w'.published = w.published ∨
    ∃ x, latest w.accepted x = some session ∧ w'.published = w.published ++ [(session, x)]

theorem Inv.routeFrame (h : Inv w) (env : Env) (header : Header)
    (payload : Option (List UInt8)) :
    Inv (routeFrame env w header payload).1 ∧
      Grows w (RoutedSessions.routeFrame env w header payload).1 header.session := by
  have hcases := routeFrame_cases env w header payload
  generalize (RoutedSessions.routeFrame env w header payload).1 = w' at hcases ⊢
  cases hcases with
  | missed stats => exact ⟨h.still ⟨rfl, rfl, rfl, rfl, rfl, le_rfl, fun hl => hl⟩, Or.inl rfl⟩
  | closed i hf => exact ⟨h.close env i, Or.inl (routedClose_published env w i)⟩
  | chunk i slot p hf hi =>
    obtain ⟨hserved, hpublished⟩ := routeChunk_served env w i slot header p
    refine ⟨h.served hi hserved, hpublished.imp_right fun hgrown => ⟨slot.source, ?_, hgrown⟩⟩
    obtain ⟨found, hfound, hserves⟩ := SlotTable.find_some hf
    rw [hi, Option.some.injEq] at hfound
    subst found
    rw [← Slot.session_of_serves hserves]
    exact h.latest i slot hi

theorem Inv.kept_routeFrame (h : Inv w) (env : Env) (payload : Option (List UInt8))
    (hj : w.slots j = some other) (hne : header.session ≠ other.session) :
    Kept w (RoutedSessions.routeFrame env w header payload).1 j other := by
  have hcases := routeFrame_cases env w header payload
  generalize (RoutedSessions.routeFrame env w header payload).1 = w' at hcases ⊢
  cases hcases with
  | missed stats => exact ⟨hj, rfl⟩
  | closed i hf =>
    exact h.kept_close env hj (served_ne hf (fun _ => Slot.session_of_serves) hj hne)
  | chunk i slot p hf hi =>
    have hji := served_ne hf (fun _ => Slot.session_of_serves) hj hne
    obtain ⟨hserved, -⟩ := routeChunk_served env w i slot header p
    obtain ⟨next, -, -, -, hslots⟩ := hserved.slots
    constructor
    · rw [hslots, Function.update_of_ne hji]
      exact hj
    · exact hserved.others _ (h.source_ne hi hj hji)

def Publishes (w w' : World) : Call → Prop
  | .message _ header _ _ _ => Grows w w' header.session
  | _ => w'.published = w.published

theorem Inv.routeSink (h : Inv w) (env : Env) (peer : ℕ) (header : Header)
    (payload : Option (List UInt8)) :
    Inv (routeSink env w peer header payload).1 ∧
      Grows w (routeSink env w peer header payload).1 header.session ∧
      (header.type = msgOpen →
        (routeSink env w peer header payload).1.published = w.published) := by
  unfold RoutedSessions.routeSink
  split
  · exact ⟨h, Or.inl rfl, fun _ => rfl⟩
  split
  · obtain ⟨hinv, hsame⟩ := h.routeOpen env peer header payload
    exact ⟨hinv, Or.inl hsame, fun _ => hsame⟩
  rename_i hopen
  split
  · obtain ⟨hinv, hsame⟩ := h.routeTracks env header payload
    exact ⟨hinv, Or.inl hsame, fun _ => hsame⟩
  split
  · obtain ⟨hinv, hsame⟩ := h.routeClose env header
    exact ⟨hinv, Or.inl hsame, fun _ => hsame⟩
  · obtain ⟨hinv, hgrows⟩ := h.routeFrame env header payload
    exact ⟨hinv, hgrows, fun ho => absurd ho hopen⟩

theorem Inv.receive (h : Inv w) (env : Env) (peer : ℕ) (header : Header)
    (payload : Option (List UInt8)) (replied : Bool) :
    Inv (receive env w peer header payload replied) ∧
      Grows w (receive env w peer header payload replied) header.session := by
  unfold RoutedSessions.receive
  split
  · exact ⟨h, Or.inl rfl⟩
  dsimp only
  obtain ⟨hinv, hgrows, hopen⟩ := h.routeSink env peer header payload
  split
  · rename_i hback
    obtain ⟨hclosed, hsame⟩ := hinv.routeClose env header
    exact ⟨hclosed, Or.inl (hsame.trans (hopen hback.1))⟩
  · exact ⟨hinv, hgrows⟩

theorem Inv.step (h : Inv w) (call : Call) :
    Inv (step w call) ∧ Publishes w (RoutedSessions.step w call) call := by
  cases call with
  | message peer header payload replied env => exact h.receive env peer header payload replied
  | lost peer env =>
    obtain ⟨hinv, hsame⟩ := closeWhere_inv h env fun _ slot => decide (slot.peer = peer)
    exact ⟨hinv, hsame⟩
  | fence env =>
    obtain ⟨hinv, hsame⟩ := closeWhere_inv h env fun w slot =>
      decide (slot.session / 2 ^ 32 ≠ env.pid slot.peer) || (w.sources slot.source).pendingRemove
    exact ⟨hinv, hsame⟩
  | streamCreate application name incarnation =>
    simp only [RoutedSessions.step]
    split
    · exact ⟨h.still (streamCreate_still _ _ _ _), rfl⟩
    · exact ⟨h, rfl⟩
  | streamRemove handle =>
    have hs := streamRemove_still w handle
    exact ⟨h.still hs, hs.published⟩
  | sourceAdd handle id type priority =>
    simp only [RoutedSessions.step]
    split
    · exact ⟨h.still (sourceAdd_still _ _ _ _ _), rfl⟩
    · exact ⟨h, rfl⟩
  | sourceRemove x =>
    have hs := sourceRemove_still w x
    exact ⟨h.still hs, hs.published⟩
  | setKey x => exact ⟨h.still (setSource_still w x fun s => { s with keySet := true }), rfl⟩

theorem run_inv (calls : List Call) : Inv (run calls) :=
  StepRun.invariant (fun _ call h => (h.step call).1) initial_inv calls

def Spares (w : World) (slot : Slot) : Call → Prop
  | .message _ header _ _ _ => header.type ≠ msgOpen ∧ header.session ≠ slot.session
  | .lost peer _ => peer ≠ slot.peer
  | .fence env => slot.session / 2 ^ 32 = env.pid slot.peer ∧
      (w.sources slot.source).pendingRemove = false
  | _ => False

theorem Inv.spared (h : Inv w) (hi : w.slots i = some slot) {call : Call}
    (hs : Spares w slot call) : Kept w (RoutedSessions.step w call) i slot := by
  cases call with
  | message peer header payload replied env =>
    obtain ⟨hopen, hne⟩ := hs
    simp only [RoutedSessions.step, RoutedSessions.receive, RoutedSessions.routeSink, hopen,
      if_false, false_and]
    split
    · exact ⟨hi, rfl⟩
    split
    · exact ⟨hi, rfl⟩
    split
    · exact h.kept_routeTracks env payload hi hne
    split
    · exact h.kept_routeClose env hi hne
    · exact h.kept_routeFrame env payload hi hne
  | lost peer env =>
    apply closeWhere_kept h env hi
    intro v _
    exact decide_eq_false fun heq => hs heq.symm
  | fence env =>
    obtain ⟨hpid, hpending⟩ := hs
    apply closeWhere_kept h env hi
    intro v hv
    rw [hv, hpending, hpid]
    simp
  | streamCreate => exact hs.elim
  | streamRemove => exact hs.elim
  | sourceAdd => exact hs.elim
  | sourceRemove => exact hs.elim
  | setKey => exact hs.elim

/-- Sessions of one source never share it: a slot a source, one reference each on the source and
on the stream, frames only from the session that was admitted last, and nothing that an earlier
session still sends reaches its successor. -/
theorem routed_sessions_fenced (calls : List Call) :
    Distinct Slot.source (run calls).slots ∧
      (∀ x, (run calls).sourceRefs x = held Slot.source (run calls).slots x ∧
        (run calls).streamRefs x = held Slot.stream (run calls).slots x) ∧
      (∀ i slot, (run calls).slots i = some slot → (run calls).sourceRefs slot.source = 1) ∧
      (∀ call, Publishes (run calls) (step (run calls) call) call) ∧
      ∀ i slot call, (run calls).slots i = some slot → Spares (run calls) slot call →
        Kept (run calls) (step (run calls) call) i slot := by
  have h := run_inv calls
  refine ⟨h.distinct, fun x => ⟨h.sourceRefs x, h.streamRefs x⟩, ?_,
    fun call => (h.step call).2, fun _ _ _ hi hs => h.spared hi hs⟩
  intro i slot hi
  rw [h.sourceRefs, h.distinct.held_one hi]
  rfl

def openHeader (session : ℕ) : Header :=
  ⟨1, msgOpen, 0, 15, 15, 0, (MediaGraph.ownerHash [97] [98]).toNat, 5, 0, 0, 0, 0, 0, 0, 0, 0, 0,
    sourceRtmp, 0, session⟩

def bothWorkers : Env :=
  ⟨true, true, true, true, true, true, fun _ => true, fun peer => peer + 6, none, 0⟩

def takeover : List Call :=
  [.message 1 (openHeader (7 * 2 ^ 32 + 1))
      (some [1, 0, 0, 0, 1, 0, 0, 0, 1, 0, 0, 0, 97, 98, 99]) true bothWorkers,
    .message 2 (openHeader (8 * 2 ^ 32 + 1))
      (some [1, 0, 0, 0, 1, 0, 0, 0, 1, 0, 0, 0, 97, 98, 99]) true bothWorkers]

def lateClose : Call :=
  .message 1 { openHeader (7 * 2 ^ 32 + 1) with type := msgClose } none true bothWorkers

theorem routed_sessions_fenced_takeover :
    ((run takeover).slots 0).map Slot.session = some (8 * 2 ^ 32 + 1) ∧
      ((run (takeover ++ [lateClose])).slots 0).map Slot.session = some (8 * 2 ^ 32 + 1) := by
  have hsession : ((run takeover).slots 0).map Slot.session = some (8 * 2 ^ 32 + 1) := by
    decide +kernel
  obtain ⟨slot, hslot, hs⟩ := Option.map_eq_some_iff.mp hsession
  have hkept := (routed_sessions_fenced takeover).2.2.2.2 0 slot lateClose hslot
    ⟨by decide, by rw [hs]; decide⟩
  refine ⟨hsession, ?_⟩
  rw [run, List.foldl_append]
  exact (congrArg (Option.map Slot.session) hkept.1).trans (congrArg some hs)

end RoutedFencing
