import Mathlib.Data.List.Count
import Mathlib.Tactic.Common

/-! A heap of objects: an object gets the next address when it is made, is changed in place and is
freed once; an address is not used again. Nothing here names a particular object. -/
namespace ObjectHeap

variable {α : Type*} {h : List (Option α)} {i j : ℕ} {x : α} {f : α → α} {p : α → Bool}

/-- The object at an address, unless none was made there or it has been freed. -/
def get (h : List (Option α)) (i : ℕ) : Option α := h[i]?.join

def alloc (h : List (Option α)) (x : α) : List (Option α) := h ++ [some x]

def modify (h : List (Option α)) (i : ℕ) (f : α → α) : List (Option α) := h.modify i (Option.map f)

def free (h : List (Option α)) (i : ℕ) : List (Option α) := h.set i none

/-- How many objects satisfy `p`. -/
def count (h : List (Option α)) (p : α → Bool) : ℕ := h.countP fun o => o.any p

@[simp] theorem length_alloc (h : List (Option α)) (x : α) :
    (alloc h x).length = h.length + 1 := by
  simp [alloc]

@[simp] theorem length_modify (h : List (Option α)) (i : ℕ) (f : α → α) :
    (modify h i f).length = h.length := by
  simp [modify]

@[simp] theorem length_free (h : List (Option α)) (i : ℕ) : (free h i).length = h.length := by
  simp [free]

theorem get_lt (hx : get h i = some x) : i < h.length := by
  by_contra hle
  rw [get, List.getElem?_eq_none (Nat.le_of_not_lt hle)] at hx
  cases hx

theorem get_alloc (h : List (Option α)) (x : α) (j : ℕ) :
    get (alloc h x) j = if j = h.length then some x else get h j := by
  by_cases hj : j = h.length
  · rw [if_pos hj, hj, get, alloc, List.getElem?_concat_length, Option.join_some]
  · rw [if_neg hj, get, get, alloc]
    by_cases hlt : j < h.length
    · rw [List.getElem?_append_left hlt]
    · rw [List.getElem?_eq_none (by simp; omega), List.getElem?_eq_none (by omega)]

theorem get_modify (h : List (Option α)) (i : ℕ) (f : α → α) (j : ℕ) :
    get (modify h i f) j = if j = i then (get h j).map f else get h j := by
  rw [get, modify, List.getElem?_modify]
  by_cases hj : j = i
  · subst j
    rw [if_pos rfl, get]
    cases h[i]? with
    | none => simp
    | some o => simp
  · rw [if_neg hj, get]
    simp [Ne.symm hj]

theorem get_free (h : List (Option α)) (i j : ℕ) :
    get (free h i) j = if j = i then none else get h j := by
  rw [get, get, free, List.getElem?_set]
  by_cases hj : j = i
  · subst j
    rw [if_pos rfl, if_pos rfl]
    split <;> rfl
  · rw [if_neg hj, if_neg (Ne.symm hj)]

theorem count_alloc (h : List (Option α)) (x : α) (p : α → Bool) :
    count (alloc h x) p = count h p + if p x then 1 else 0 := by
  rw [count, count, alloc, List.countP_append, List.countP_singleton]
  rfl

theorem count_modify (hf : ∀ x, p (f x) = p x) (h : List (Option α)) (i : ℕ) :
    count (modify h i f) p = count h p := by
  have hany : ∀ o : Option α, (o.map f).any p = o.any p := by
    intro o
    cases o with
    | none => rfl
    | some x => exact hf x
  induction h generalizing i with
  | nil => simp [modify]
  | cons o h ih =>
    cases i with
    | zero => simp [count, modify, List.countP_cons, hany]
    | succ i =>
      have hrest := ih i
      simp only [count, modify, List.modify_succ_cons, List.countP_cons] at hrest ⊢
      rw [hrest]

theorem count_free (hx : get h i = some x) (p : α → Bool) :
    count h p = count (free h i) p + if p x then 1 else 0 := by
  induction h generalizing i with
  | nil => simp [get] at hx
  | cons o h ih =>
    cases i with
    | zero =>
      have ho : o = some x := by simpa [get] using hx
      simp [ho, count, free, List.countP_cons]
    | succ i =>
      have hrest := ih (i := i) (by simpa [get] using hx)
      simp only [count, free, List.set_cons_succ, List.countP_cons] at hrest ⊢
      omega

theorem count_pos (hx : get h i = some x) (hp : p x = true) : 0 < count h p := by
  have := count_free hx p
  rw [if_pos hp] at this
  omega

theorem count_eq_zero (hp : ∀ i x, get h i = some x → p x = false) : count h p = 0 := by
  refine List.countP_eq_zero.mpr fun o ho => ?_
  obtain ⟨i, hi⟩ := List.mem_iff_getElem?.mp ho
  cases o with
  | none => simp
  | some x =>
    have := hp i x (by rw [get, hi, Option.join_some])
    simp [this]

theorem modify_modify (h : List (Option α)) (i : ℕ) (f g : α → α) :
    modify (modify h i f) i g = modify h i (g ∘ f) := by
  rw [modify, modify, List.modify_modify_eq, Option.map_comp_map]
  rfl

theorem free_modify (h : List (Option α)) (i : ℕ) (f : α → α) :
    free (modify h i f) i = free h i := by
  refine List.ext_getElem? fun j => ?_
  rw [free, free, modify, List.getElem?_set, List.getElem?_set, List.length_modify,
    List.getElem?_modify]
  by_cases hj : i = j
  · rw [if_pos hj, if_pos hj]
  · rw [if_neg hj, if_neg hj]
    simp [hj]

theorem get_free_alloc (h : List (Option α)) (x : α) (j : ℕ) :
    get (free (alloc h x) h.length) j = get h j := by
  rw [get_free, get_alloc]
  by_cases hj : j = h.length
  · rw [if_pos hj, get, List.getElem?_eq_none (Nat.le_of_eq hj.symm), Option.join_none]
  · rw [if_neg hj, if_neg hj]

theorem count_free_alloc (h : List (Option α)) (x : α) (p : α → Bool) :
    count (free (alloc h x) h.length) p = count h p := by
  have hnew : get (alloc h x) h.length = some x := by rw [get_alloc, if_pos rfl]
  have hfree := count_free hnew p
  rw [count_alloc] at hfree
  omega

section Owned

variable {β : Type*} {owner : α → ℕ} {children : β → List ℕ} {ok ok' : ℕ → α → Bool → Prop}
  {parents : List (Option β)} {objects : List (Option α)} {a s : ℕ} {y : β}

structure Owned (owner : α → ℕ) (children : β → List ℕ) (ok : ℕ → α → Bool → Prop)
    (parents : List (Option β)) (objects : List (Option α)) : Prop where
  object : ∀ a x, get objects a = some x →
    ∃ y, get parents (owner x) = some y ∧ ok a x (decide (a ∈ children y))
  nodup : ∀ s y, get parents s = some y → (children y).Nodup
  there : ∀ s y, get parents s = some y →
    ∀ a ∈ children y, ∃ x, get objects a = some x ∧ owner x = s

theorem Owned.mono (h : Owned owner children ok parents objects)
    (hok : ∀ a x l, get objects a = some x → ok a x l → ok' a x l) :
    Owned owner children ok' parents objects where
  object := by
    intro a x hx
    obtain ⟨y, hy, ha⟩ := h.object a x hx
    exact ⟨y, hy, hok a x _ hx ha⟩
  nodup := h.nodup
  there := h.there

theorem Owned.congr {objects' : List (Option α)} (h : Owned owner children ok parents objects)
    (hget : ∀ a, get objects' a = get objects a) : Owned owner children ok parents objects' where
  object a x hx := h.object a x (hget a ▸ hx)
  nodup := h.nodup
  there s y hy a ha := by
    rw [hget]
    exact h.there s y hy a ha

theorem Owned.parent (h : Owned owner children ok parents objects) {f : β → β}
    (hf : ∀ y, get parents s = some y → children (f y) = children y) :
    Owned owner children ok (modify parents s f) objects where
  object := by
    intro a x hx
    obtain ⟨y, hy, ha⟩ := h.object a x hx
    rw [get_modify, hy]
    split
    · rename_i hs
      exact ⟨f y, rfl, by rwa [hf y (hs ▸ hy)]⟩
    · exact ⟨y, rfl, ha⟩
  nodup := by
    intro i y hy
    rw [get_modify] at hy
    split at hy
    · subst i
      obtain ⟨y₀, hy₀, rfl⟩ := Option.map_eq_some_iff.mp hy
      rw [hf y₀ hy₀]
      exact h.nodup s y₀ hy₀
    · exact h.nodup i y hy
  there := by
    intro i y hy
    rw [get_modify] at hy
    split at hy
    · subst i
      obtain ⟨y₀, hy₀, rfl⟩ := Option.map_eq_some_iff.mp hy
      rw [hf y₀ hy₀]
      exact h.there s y₀ hy₀
    · exact h.there i y hy

theorem Owned.change (h : Owned owner children ok parents objects) {f : α → α}
    (howner : ∀ x, owner (f x) = owner x)
    (hok : ∀ x l, get objects a = some x → ok a x l → ok' a (f x) l)
    (hother : ∀ b x l, b ≠ a → ok b x l → ok' b x l) :
    Owned owner children ok' parents (modify objects a f) where
  object := by
    intro b x hx
    rw [get_modify] at hx
    split at hx
    · subst b
      obtain ⟨x₀, hx₀, rfl⟩ := Option.map_eq_some_iff.mp hx
      obtain ⟨y, hy, ha⟩ := h.object a x₀ hx₀
      exact ⟨y, by rwa [howner], hok x₀ _ hx₀ ha⟩
    · rename_i hne
      obtain ⟨y, hy, hb⟩ := h.object b x hx
      exact ⟨y, hy, hother b x _ hne hb⟩
  nodup := h.nodup
  there := by
    intro s y hy b hb
    obtain ⟨x, hx, hs⟩ := h.there s y hy b hb
    rw [get_modify, hx]
    split
    · exact ⟨f x, rfl, by rw [howner, hs]⟩
    · exact ⟨x, rfl, hs⟩

theorem Owned.add (h : Owned owner children ok parents objects) {x : α}
    (hy : get parents (owner x) = some y) {f : β → β}
    (hf : ∀ y, children (f y) = children y ++ [objects.length]) (hok : ok objects.length x true) :
    Owned owner children ok (modify parents (owner x) f) (alloc objects x) := by
  have hfresh : ∀ s y, get parents s = some y → objects.length ∉ children y := by
    intro s y hy hmem
    obtain ⟨x, hx, -⟩ := h.there s y hy _ hmem
    exact absurd (get_lt hx) (Nat.lt_irrefl _)
  have hthere : ∀ s y, get parents s = some y →
      ∀ a ∈ children y, ∃ z, get (alloc objects x) a = some z ∧ owner z = s := by
    intro s y hy a ha
    obtain ⟨z, hz, hs⟩ := h.there s y hy a ha
    exact ⟨z, by rw [get_alloc, if_neg (Nat.ne_of_lt (get_lt hz)), hz], hs⟩
  constructor
  · intro a z hz
    rw [get_alloc] at hz
    split at hz
    · obtain rfl := Option.some.inj hz
      subst a
      refine ⟨f y, by rw [get_modify, if_pos rfl, hy]; rfl, ?_⟩
      rw [hf, decide_eq_true (List.mem_append_right _ (List.mem_singleton.mpr rfl))]
      exact hok
    · rename_i hne
      obtain ⟨w, hw, ha⟩ := h.object a z hz
      rw [get_modify, hw]
      split
      · refine ⟨f w, rfl, ?_⟩
        rw [hf]
        simpa [hne] using ha
      · exact ⟨w, rfl, ha⟩
  · intro s w hw
    rw [get_modify] at hw
    split at hw
    · obtain ⟨w₀, hw₀, rfl⟩ := Option.map_eq_some_iff.mp hw
      rw [hf]
      refine List.nodup_append.mpr ⟨h.nodup s w₀ hw₀, by simp, ?_⟩
      rintro b hb c hc rfl
      rw [List.mem_singleton.mp hc] at hb
      exact hfresh s w₀ hw₀ hb
    · exact h.nodup s w hw
  · intro s w hw
    rw [get_modify] at hw
    split at hw
    · rename_i hs
      obtain ⟨w₀, hw₀, rfl⟩ := Option.map_eq_some_iff.mp hw
      intro b hb
      rw [hf, List.mem_append] at hb
      rcases hb with hb | hb
      · exact hthere s w₀ hw₀ b hb
      · rw [List.mem_singleton.mp hb, get_alloc, if_pos rfl]
        exact ⟨x, rfl, hs.symm⟩
    · exact hthere s w hw

theorem Owned.detach (h : Owned owner children ok parents objects) (hx : get objects a = some x)
    (hy : get parents (owner x) = some y) (ha : a ∈ children y)
    {f : β → β} (hf : ∀ y, children (f y) = (children y).erase a)
    (hok : ok a x true → ok' a x false) (hother : ∀ b x l, b ≠ a → ok b x l → ok' b x l) :
    Owned owner children ok' (modify parents (owner x) f) objects where
  object := by
    intro b z hz
    obtain ⟨w, hw, hb⟩ := h.object b z hz
    rw [get_modify, hw]
    by_cases hba : b = a
    · subst b
      obtain rfl := Option.some.inj (hz.symm.trans hx)
      obtain rfl := Option.some.inj (hw.symm.trans hy)
      rw [if_pos rfl]
      refine ⟨f w, rfl, ?_⟩
      rw [hf, decide_eq_false fun hmem => (h.nodup _ w hw).not_mem_erase hmem]
      rw [decide_eq_true ha] at hb
      exact hok hb
    · split
      · refine ⟨f w, rfl, ?_⟩
        rw [hf]
        simpa only [List.mem_erase_of_ne hba] using hother b z _ hba hb
      · exact ⟨w, rfl, hother b z _ hba hb⟩
  nodup := by
    intro i y hy
    rw [get_modify] at hy
    split at hy
    · obtain ⟨y₀, hy₀, rfl⟩ := Option.map_eq_some_iff.mp hy
      rw [hf]
      exact (h.nodup i y₀ hy₀).erase a
    · exact h.nodup i y hy
  there := by
    intro i y hy b hb
    rw [get_modify] at hy
    split at hy
    · obtain ⟨y₀, hy₀, rfl⟩ := Option.map_eq_some_iff.mp hy
      rw [hf] at hb
      exact h.there i y₀ hy₀ b (List.mem_of_mem_erase hb)
    · exact h.there i y hy b hb

theorem Owned.free (h : Owned owner children ok parents objects) (hx : get objects a = some x)
    (hok : ∀ l, ok a x l → l = false) : Owned owner children ok parents (free objects a) where
  object := by
    intro b z hz
    rw [get_free] at hz
    split at hz
    · cases hz
    · exact h.object b z hz
  nodup := h.nodup
  there := by
    intro s y hy b hb
    obtain ⟨z, hz, hs⟩ := h.there s y hy b hb
    have hba : b ≠ a := by
      rintro rfl
      obtain rfl := Option.some.inj (hz.symm.trans hx)
      obtain ⟨w, hw, hl⟩ := h.object b z hz
      rw [hs, hy] at hw
      obtain rfl := Option.some.inj hw
      exact of_decide_eq_false (hok _ hl) hb
    exact ⟨z, by rw [get_free, if_neg hba, hz], hs⟩

theorem Owned.parent_alloc (h : Owned owner children ok parents objects) {y : β}
    (hy : children y = []) : Owned owner children ok (alloc parents y) objects where
  object := by
    intro a x hx
    obtain ⟨w, hw, ha⟩ := h.object a x hx
    exact ⟨w, by rw [get_alloc, if_neg (Nat.ne_of_lt (get_lt hw)), hw], ha⟩
  nodup := by
    intro s w hw
    rw [get_alloc] at hw
    split at hw
    · obtain rfl := Option.some.inj hw
      rw [hy]
      exact List.nodup_nil
    · exact h.nodup s w hw
  there := by
    intro s w hw
    rw [get_alloc] at hw
    split at hw
    · obtain rfl := Option.some.inj hw
      rw [hy]
      exact fun a ha => absurd ha List.not_mem_nil
    · exact h.there s w hw

theorem Owned.parent_free (h : Owned owner children ok parents objects)
    (hs : ∀ a x, get objects a = some x → owner x ≠ s) :
    Owned owner children ok (ObjectHeap.free parents s) objects where
  object := by
    intro a x hx
    obtain ⟨y, hy, ha⟩ := h.object a x hx
    exact ⟨y, by rw [get_free, if_neg (hs a x hx), hy], ha⟩
  nodup := by
    intro i y hy
    rw [get_free] at hy
    split at hy
    · cases hy
    · exact h.nodup i y hy
  there := by
    intro i y hy
    rw [get_free] at hy
    split at hy
    · cases hy
    · exact h.there i y hy

end Owned

end ObjectHeap
