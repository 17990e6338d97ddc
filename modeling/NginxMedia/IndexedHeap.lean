import Mathlib.Data.List.Nodup
import Mathlib.Logic.Function.Basic
import Mathlib.Tactic.Common

/-! A binary heap in an array whose elements know their places, so that one can be taken out of the
middle. What is proved is that every element keeps knowing its place. Nothing here names a
particular element or order. -/
namespace IndexedHeap

structure Heap (α : Type*) where
  items : List α
  index : α → ℕ

variable {α : Type*} {h h' h'' : Heap α} {before : α → α → Bool} {a b : α} {i j n cap : ℕ}

def Indexed (h : Heap α) : Prop := ∀ i a, h.items[i]? = some a → h.index a = i

/-- The same elements, each of which knows its place; the others are left alone. -/
structure Rearranged (h h' : Heap α) : Prop where
  indexed : Indexed h'
  mem : ∀ a, a ∈ h'.items ↔ a ∈ h.items
  length : h'.items.length = h.items.length
  away : ∀ a, a ∉ h.items → h'.index a = h.index a

theorem Rearranged.refl (hi : Indexed h) : Rearranged h h :=
  ⟨hi, fun _ => Iff.rfl, rfl, fun _ _ => rfl⟩

theorem Rearranged.trans (h₁ : Rearranged h h') (h₂ : Rearranged h' h'') : Rearranged h h'' where
  indexed := h₂.indexed
  mem a := (h₂.mem a).trans (h₁.mem a)
  length := h₂.length.trans h₁.length
  away a ha := (h₂.away a (fun hmem => ha ((h₁.mem a).mp hmem))).trans (h₁.away a ha)

theorem Indexed.nodup (hi : Indexed h) : h.items.Nodup := by
  rw [List.nodup_iff_injective_get]
  intro i j heq
  have hfirst := hi i.val _ (List.getElem?_eq_getElem i.isLt)
  have hsecond := hi j.val _ (List.getElem?_eq_getElem j.isLt)
  rw [List.get_eq_getElem, List.get_eq_getElem] at heq
  exact Fin.ext (hfirst.symm.trans (by rw [heq, hsecond]))

/-- One element has left. -/
structure Removed (cap : ℕ) (h : Heap α) (a : α) (h' : Heap α) : Prop where
  indexed : Indexed h'
  mem : ∀ b, b ∈ h'.items ↔ b ∈ h.items ∧ b ≠ a
  self : h'.index a = cap
  away : ∀ b, b ∉ h.items → h'.index b = h.index b

theorem Removed.rearranged (h₁ : Removed cap h a h') (h₂ : Rearranged h' h'') :
    Removed cap h a h'' where
  indexed := h₂.indexed
  mem b := (h₂.mem b).trans (h₁.mem b)
  self := (h₂.away a fun hmem => ((h₁.mem a).mp hmem).2 rfl).trans h₁.self
  away b hb := (h₂.away b fun hmem => hb ((h₁.mem b).mp hmem).1).trans (h₁.away b hb)

variable [DecidableEq α]

def Heap.place (h : Heap α) (a : α) (i : ℕ) : Heap α :=
  ⟨h.items.set i a, Function.update h.index a i⟩

def Heap.swap (h : Heap α) (i j : ℕ) : Heap α :=
  match h.items[i]?, h.items[j]? with
  | some a, some b => (h.place b i).place a j
  | _, _ => h

def Heap.precedes (before : α → α → Bool) (h : Heap α) (i j : ℕ) : Bool :=
  match h.items[i]?, h.items[j]? with
  | some a, some b => before a b
  | _, _ => false

/-- An element moves up while it comes before its parent; `i` steps reach the root. -/
def siftUp (before : α → α → Bool) : ℕ → ℕ → Heap α → Heap α
  | 0, _, h => h
  | n + 1, i, h =>
    let parent := (i - 1) / 2
    if i > 0 ∧ h.precedes before i parent then siftUp before n parent (h.swap i parent) else h

def smallest (before : α → α → Bool) (h : Heap α) (i : ℕ) : ℕ :=
  let left := i * 2 + 1
  let right := left + 1
  let first := if h.precedes before left i then left else i
  if h.precedes before right first then right else first

def siftDown (before : α → α → Bool) : ℕ → ℕ → Heap α → Heap α
  | 0, _, h => h
  | n + 1, i, h =>
    let child := smallest before h i
    if child = i then h else siftDown before n child (h.swap i child)

/-- The last element takes the place of the one that goes; `cap` marks an element outside. -/
def remove (before : α → α → Bool) (cap : ℕ) (h : Heap α) (a : α) : Heap α :=
  let i := h.index a
  if i ≥ h.items.length then h
  else
    let last := h.items.length - 1
    let rest : Heap α := ⟨h.items.dropLast, Function.update h.index a cap⟩
    if i = last then rest
    else
      match h.items[last]? with
      | none => rest
      | some replacement =>
        let h := rest.place replacement i
        if i > 0 ∧ h.precedes before i ((i - 1) / 2) then siftUp before i i h
        else siftDown before h.items.length i h

def insert (before : α → α → Bool) (cap : ℕ) (h : Heap α) (a : α) : Heap α :=
  if h.items.length ≥ cap then h
  else
    let i := h.items.length
    siftUp before i i ⟨h.items ++ [a], Function.update h.index a i⟩

theorem Indexed.swap (hi : Indexed h) (i j : ℕ) : Rearranged h (h.swap i j) := by
  unfold Heap.swap
  split
  · rename_i a b ha hb
    have hia := hi i a ha
    have hjb := hi j b hb
    obtain ⟨hilt, higet⟩ := List.getElem?_eq_some_iff.mp ha
    obtain ⟨hjlt, hjget⟩ := List.getElem?_eq_some_iff.mp hb
    have hget : ∀ k c, ((h.items.set i b).set j a)[k]? = some c →
        (k = j ∧ c = a) ∨ (k ≠ j ∧ k = i ∧ c = b) ∨ (k ≠ j ∧ k ≠ i ∧ h.items[k]? = some c) := by
      intro k c hk
      by_cases hkj : k = j
      · subst k
        rw [List.getElem?_set_self (by rwa [List.length_set])] at hk
        exact Or.inl ⟨rfl, (Option.some.inj hk).symm⟩
      · rw [List.getElem?_set_ne (Ne.symm hkj)] at hk
        by_cases hki : k = i
        · subst k
          rw [List.getElem?_set_self hilt] at hk
          exact Or.inr (Or.inl ⟨hkj, rfl, (Option.some.inj hk).symm⟩)
        · rw [List.getElem?_set_ne (Ne.symm hki)] at hk
          exact Or.inr (Or.inr ⟨hkj, hki, hk⟩)
    have hmema : a ∈ h.items := List.mem_of_getElem? ha
    have hmemb : b ∈ h.items := List.mem_of_getElem? hb
    refine ⟨?_, ?_, ?_, ?_⟩
    · intro k c hk
      change Function.update (Function.update h.index b i) a j c = k
      rcases hget k c hk with ⟨rfl, rfl⟩ | ⟨hkj, rfl, rfl⟩ | ⟨hkj, hki, hk⟩
      · rw [Function.update_self]
      · rw [Function.update_of_ne, Function.update_self]
        rintro rfl
        exact hkj (hia.symm.trans hjb)
      · have hkc := hi k c hk
        rw [Function.update_of_ne, Function.update_of_ne, hkc]
        · rintro rfl
          exact hkj (hkc.symm.trans hjb)
        · rintro rfl
          exact hki (hkc.symm.trans hia)
    · intro c
      change c ∈ (h.items.set i b).set j a ↔ c ∈ h.items
      constructor
      · intro hc
        obtain ⟨k, hk⟩ := List.mem_iff_getElem?.mp hc
        rcases hget k c hk with ⟨-, rfl⟩ | ⟨-, -, rfl⟩ | ⟨-, -, hk⟩
        · exact hmema
        · exact hmemb
        · exact List.mem_of_getElem? hk
      · intro hc
        obtain ⟨k, hk⟩ := List.mem_iff_getElem?.mp hc
        by_cases hki : k = i
        · subst k
          rw [Option.some.inj (hk.symm.trans ha)]
          exact List.mem_set (by rwa [List.length_set]) a
        by_cases hkj : k = j
        · subst k
          rw [Option.some.inj (hk.symm.trans hb)]
          have hplaced : ((h.items.set i b).set j a)[i]? = some b := by
            rw [List.getElem?_set_ne hki, List.getElem?_set_self hilt]
          exact List.mem_of_getElem? hplaced
        · have hplaced : ((h.items.set i b).set j a)[k]? = some c := by
            rw [List.getElem?_set_ne (Ne.symm hkj), List.getElem?_set_ne (Ne.symm hki), hk]
          exact List.mem_of_getElem? hplaced
    · change ((h.items.set i b).set j a).length = h.items.length
      rw [List.length_set, List.length_set]
    · intro c hc
      change Function.update (Function.update h.index b i) a j c = h.index c
      rw [Function.update_of_ne, Function.update_of_ne]
      · rintro rfl
        exact hc hmemb
      · rintro rfl
        exact hc hmema
  · exact .refl hi

theorem Indexed.siftUp (hi : Indexed h) (before : α → α → Bool) (n i : ℕ) :
    Rearranged h (siftUp before n i h) := by
  induction n generalizing i h with
  | zero => exact .refl hi
  | succ n ih =>
    rw [IndexedHeap.siftUp]
    split_ifs
    · have hswap := hi.swap i ((i - 1) / 2)
      exact hswap.trans (ih hswap.indexed _)
    · exact .refl hi

theorem Indexed.siftDown (hi : Indexed h) (before : α → α → Bool) (n i : ℕ) :
    Rearranged h (siftDown before n i h) := by
  induction n generalizing i h with
  | zero => exact .refl hi
  | succ n ih =>
    rw [IndexedHeap.siftDown]
    split_ifs
    · exact .refl hi
    · have hswap := hi.swap i (smallest before h i)
      exact hswap.trans (ih hswap.indexed _)

theorem remove_absent (h : Heap α) (ha : h.items.length ≤ h.index a) :
    remove before cap h a = h := by
  unfold remove
  rw [if_pos ha]

theorem Indexed.remove (hi : Indexed h) (before : α → α → Bool) (cap : ℕ) (ha : a ∈ h.items) :
    Removed cap h a (remove before cap h a) := by
  obtain ⟨k, hk⟩ := List.mem_iff_getElem?.mp ha
  have hka := hi k a hk
  obtain ⟨hklt, -⟩ := List.getElem?_eq_some_iff.mp hk
  -- an element of the shorter array is one of the old array, in its old place
  have hshort : ∀ i b, h.items.dropLast[i]? = some b ↔
      i < h.items.length - 1 ∧ h.items[i]? = some b := by
    intro i b
    rw [List.getElem?_dropLast]
    split_ifs with hlt <;> simp [hlt]
  have hnear : ∀ b, b ∈ h.items → b ≠ a → h.index b ≠ k := by
    intro b hb hba heq
    obtain ⟨i, hib⟩ := List.mem_iff_getElem?.mp hb
    rw [hi i b hib] at heq
    exact hba (Option.some.inj ((heq ▸ hib).symm.trans hk))
  unfold IndexedHeap.remove
  rw [hka, if_neg (Nat.not_le_of_lt hklt)]
  by_cases hlast : k = h.items.length - 1
  · rw [if_pos hlast]
    refine ⟨?_, ?_, Function.update_self .., ?_⟩
    · intro i b hb
      obtain ⟨hlt, hold⟩ := (hshort i b).mp hb
      refine (Function.update_of_ne ?_ _ _).trans (hi i b hold)
      rintro rfl
      have hib := hi i b hold
      omega
    · intro b
      constructor
      · intro hb
        obtain ⟨i, hb⟩ := List.mem_iff_getElem?.mp hb
        obtain ⟨hlt, hold⟩ := (hshort i b).mp hb
        refine ⟨List.mem_of_getElem? hold, ?_⟩
        rintro rfl
        have hib := hi i b hold
        omega
      · rintro ⟨hb, hba⟩
        have hne := hnear b hb hba
        obtain ⟨i, hib⟩ := List.mem_iff_getElem?.mp hb
        have hlt := (List.getElem?_eq_some_iff.mp hib).1
        rw [hi i b hib] at hne
        exact List.mem_of_getElem? ((hshort i b).mpr ⟨by omega, hib⟩)
    · intro b hb
      refine Function.update_of_ne ?_ _ _
      rintro rfl
      exact hb ha
  · rw [if_neg hlast]
    obtain ⟨r, hr⟩ : ∃ r, h.items[h.items.length - 1]? = some r :=
      ⟨_, List.getElem?_eq_getElem (by omega)⟩
    have hindexr := hi _ r hr
    have hra : r ≠ a := by
      rintro rfl
      omega
    -- the last element in the place of the one that goes
    have hfilled : ∀ i b, (h.items.dropLast.set k r)[i]? = some b ↔
        (i = k ∧ b = r) ∨ (i ≠ k ∧ i < h.items.length - 1 ∧ h.items[i]? = some b) := by
      intro i b
      by_cases hik : i = k
      · subst i
        rw [List.getElem?_set_self (by rw [List.length_dropLast]; omega)]
        simp [eq_comm]
      · rw [List.getElem?_set_ne (Ne.symm hik), hshort]
        simp [hik]
    have hbase : Removed cap h a
        ((⟨h.items.dropLast, Function.update h.index a cap⟩ : Heap α).place r k) := by
      refine ⟨?_, ?_, ?_, ?_⟩
      · intro i b hb
        change Function.update (Function.update h.index a cap) r k b = i
        rcases (hfilled i b).mp hb with ⟨rfl, rfl⟩ | ⟨hik, hlt, hold⟩
        · exact Function.update_self ..
        · have hib := hi i b hold
          rw [Function.update_of_ne, Function.update_of_ne, hib]
          · rintro rfl
            omega
          · rintro rfl
            omega
      · intro b
        change b ∈ h.items.dropLast.set k r ↔ _
        constructor
        · intro hb
          obtain ⟨i, hb⟩ := List.mem_iff_getElem?.mp hb
          rcases (hfilled i b).mp hb with ⟨rfl, rfl⟩ | ⟨hik, hlt, hold⟩
          · exact ⟨List.mem_of_getElem? hr, hra⟩
          · refine ⟨List.mem_of_getElem? hold, ?_⟩
            rintro rfl
            exact hik ((hi i b hold).symm.trans hka)
        · rintro ⟨hb, hba⟩
          have hne := hnear b hb hba
          obtain ⟨i, hib⟩ := List.mem_iff_getElem?.mp hb
          have hlt := (List.getElem?_eq_some_iff.mp hib).1
          rw [hi i b hib] at hne
          by_cases hend : i = h.items.length - 1
          · rw [hend, hr] at hib
            have hbr := (Option.some.inj hib).symm
            exact List.mem_of_getElem? ((hfilled k b).mpr (Or.inl ⟨rfl, hbr⟩))
          · exact List.mem_of_getElem? ((hfilled i b).mpr (Or.inr ⟨hne, by omega, hib⟩))
      · exact (Function.update_of_ne hra.symm _ _).trans (Function.update_self ..)
      · intro b hb
        refine (Function.update_of_ne ?_ _ _).trans (Function.update_of_ne ?_ _ _)
        · rintro rfl
          exact hb (List.mem_of_getElem? hr)
        · rintro rfl
          exact hb ha
    simp only [hr]
    split_ifs
    · exact hbase.rearranged (hbase.indexed.siftUp before k k)
    · exact hbase.rearranged (hbase.indexed.siftDown before _ k)

theorem Indexed.insert (hi : Indexed h) (before : α → α → Bool) (hroom : h.items.length < cap)
    (ha : a ∉ h.items) :
    Indexed (insert before cap h a) ∧
      (∀ b, b ∈ (insert before cap h a).items ↔ b = a ∨ b ∈ h.items) ∧
      ∀ b, b ≠ a → b ∉ h.items → (insert before cap h a).index b = h.index b := by
  have hgrown : Indexed ⟨h.items ++ [a], Function.update h.index a h.items.length⟩ := by
    intro i b hb
    change Function.update h.index a h.items.length b = i
    change (h.items ++ [a])[i]? = some b at hb
    by_cases hlt : i < h.items.length
    · rw [List.getElem?_append_left hlt] at hb
      rw [Function.update_of_ne, hi i b hb]
      rintro rfl
      exact ha (List.mem_of_getElem? hb)
    · rw [List.getElem?_append_right (Nat.le_of_not_lt hlt)] at hb
      obtain ⟨hzero, rfl⟩ : i - h.items.length = 0 ∧ a = b := by
        cases hsub : i - h.items.length with
        | zero =>
          rw [hsub] at hb
          exact ⟨rfl, Option.some.inj hb⟩
        | succ n =>
          rw [hsub] at hb
          cases hb
      rw [Function.update_self]
      omega
  have hsift := hgrown.siftUp before h.items.length h.items.length
  unfold IndexedHeap.insert
  rw [if_neg (Nat.not_le_of_lt hroom)]
  refine ⟨hsift.indexed, fun b => ?_, fun b hba hb => ?_⟩
  · rw [hsift.mem b]
    simp [or_comm]
  · rw [hsift.away b (by simp [hb, hba])]
    exact Function.update_of_ne hba _ _

end IndexedHeap
