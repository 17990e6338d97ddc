import NginxMedia.IndexedHeap
import Mathlib.Logic.Equiv.Basic
import Mathlib.Order.WithBot

/-! The order of a heap whose elements know their places. An element out of order is sifted up or
down; from what each of the two needs, the heap is ordered again. A place behind the last element
ranks behind all elements. -/
namespace IndexedHeap

section Ranks

variable {γ : Type*} [LinearOrder γ] {v : ℕ → γ} {i s : ℕ}

/-- Nothing comes before its parent. -/
def Ordered (v : ℕ → γ) : Prop := ∀ c, 0 < c → v ((c - 1) / 2) ≤ v c

structure UpOrder (v : ℕ → γ) (i : ℕ) : Prop where
  pairs : ∀ c, 0 < c → c ≠ i → v ((c - 1) / 2) ≤ v c
  grand : ∀ c, 0 < i → 0 < c → (c - 1) / 2 = i → v ((i - 1) / 2) ≤ v c

structure DownOrder (v : ℕ → γ) (i : ℕ) : Prop where
  pairs : ∀ c, 0 < c → (c - 1) / 2 ≠ i → v ((c - 1) / 2) ≤ v c
  grand : ∀ c, 0 < i → 0 < c → (c - 1) / 2 = i → v ((i - 1) / 2) ≤ v c

theorem Ordered.root (ho : Ordered v) (c : ℕ) : v 0 ≤ v c := by
  induction c using Nat.strongRecOn with
  | ind c ih =>
    rcases Nat.eq_zero_or_pos c with rfl | hpos
    · exact le_refl _
    · exact (ih ((c - 1) / 2) (by omega)).trans (ho c hpos)

theorem UpOrder.finish (h : UpOrder v i) (hstop : 0 < i → v ((i - 1) / 2) ≤ v i) : Ordered v := by
  intro c hc
  by_cases hci : c = i
  · subst c
    exact hstop hc
  · exact h.pairs c hc hci

theorem DownOrder.finish (h : DownOrder v i)
    (hstop : ∀ c, 0 < c → (c - 1) / 2 = i → v i ≤ v c) : Ordered v := by
  intro c hc
  by_cases hci : (c - 1) / 2 = i
  · rw [hci]
    exact hstop c hc hci
  · exact h.pairs c hc hci

theorem UpOrder.move (h : UpOrder v i) (hi : 0 < i) (hlt : v i < v ((i - 1) / 2)) :
    UpOrder (v ∘ Equiv.swap i ((i - 1) / 2)) ((i - 1) / 2) := by
  obtain ⟨p, hp⟩ : ∃ p, (i - 1) / 2 = p := ⟨_, rfl⟩
  rw [hp] at hlt ⊢
  constructor
  · intro c hc hcp
    simp only [Function.comp_apply]
    by_cases hci : c = i
    · subst c
      rw [hp, Equiv.swap_apply_left, Equiv.swap_apply_right]
      exact hlt.le
    rw [Equiv.swap_apply_of_ne_of_ne hci hcp]
    by_cases hchild : (c - 1) / 2 = i
    · rw [hchild, Equiv.swap_apply_left, ← hp]
      exact h.grand c hi hc hchild
    by_cases hsibling : (c - 1) / 2 = p
    · rw [hsibling, Equiv.swap_apply_right]
      exact hlt.le.trans (hsibling ▸ h.pairs c hc hci)
    · rw [Equiv.swap_apply_of_ne_of_ne hchild hsibling]
      exact h.pairs c hc hci
  · intro c hpos hc hcp
    have hup := h.pairs p hpos (by omega)
    have hstays : Equiv.swap i p ((p - 1) / 2) = (p - 1) / 2 :=
      Equiv.swap_apply_of_ne_of_ne (by omega) (by omega)
    simp only [Function.comp_apply]
    rw [hstays]
    by_cases hci : c = i
    · subst c
      rw [Equiv.swap_apply_left]
      exact hup
    · rw [Equiv.swap_apply_of_ne_of_ne hci (by omega)]
      exact hup.trans (hcp ▸ h.pairs c hc hci)

/-- One step down, to the first of the children. -/
theorem DownOrder.move (h : DownOrder v i) (hs : 0 < s) (hchild : (s - 1) / 2 = i)
    (hlt : v s < v i) (hfirst : ∀ c, 0 < c → (c - 1) / 2 = i → v s ≤ v c) :
    DownOrder (v ∘ Equiv.swap i s) s := by
  constructor
  · intro c hc hcs
    simp only [Function.comp_apply]
    by_cases hci : (c - 1) / 2 = i
    · rw [hci, Equiv.swap_apply_left]
      by_cases hcs' : c = s
      · subst c
        rw [Equiv.swap_apply_right]
        exact hlt.le
      · rw [Equiv.swap_apply_of_ne_of_ne (by omega) hcs']
        exact hfirst c hc hci
    · rw [Equiv.swap_apply_of_ne_of_ne hci hcs]
      by_cases hci' : c = i
      · subst c
        rw [Equiv.swap_apply_left]
        exact h.grand s hc hs hchild
      · rw [Equiv.swap_apply_of_ne_of_ne hci' (by rintro rfl; exact hci hchild)]
        exact h.pairs c hc hci
  · intro c _ hc hcs
    simp only [Function.comp_apply]
    rw [hchild, Equiv.swap_apply_left, Equiv.swap_apply_of_ne_of_ne (by omega) (by omega), ← hcs]
    exact h.pairs c hc (by omega)

variable [OrderTop γ] {x : γ} {last : ℕ}

/-- The ranks in front of a place, with another one at `i`. -/
def filled (v : ℕ → γ) (i last : ℕ) (x : γ) (c : ℕ) : γ :=
  if c = i then x else if last ≤ c then ⊤ else v c

theorem Ordered.filled_grand (ho : Ordered v) (hlast : i < last) (c : ℕ) (hi : 0 < i)
    (hc : 0 < c) (hci : (c - 1) / 2 = i) :
    filled v i last x ((i - 1) / 2) ≤ filled v i last x c := by
  unfold filled
  rw [if_neg (by omega : (i - 1) / 2 ≠ i), if_neg (by omega : ¬last ≤ (i - 1) / 2),
    if_neg (by omega : c ≠ i)]
  split_ifs
  · exact le_top
  · exact (ho i hi).trans (hci ▸ ho c hc)

theorem Ordered.filled_up (ho : Ordered v) (hlast : i < last)
    (hchild : ∀ c, 0 < c → (c - 1) / 2 = i → c < last → x ≤ v c) :
    UpOrder (filled v i last x) i := by
  refine ⟨fun c hc hci => ?_, ho.filled_grand hlast⟩
  unfold filled
  rw [if_neg hci]
  by_cases hcl : last ≤ c
  · rw [if_pos hcl]
    exact le_top
  · rw [if_neg hcl, if_neg (by omega : ¬last ≤ (c - 1) / 2)]
    split_ifs with hparent
    · exact hchild c hc hparent (by omega)
    · exact ho c hc

theorem Ordered.filled_down (ho : Ordered v) (hlast : i < last)
    (hparent : 0 < i → v ((i - 1) / 2) ≤ x) : DownOrder (filled v i last x) i := by
  refine ⟨fun c hc hci => ?_, ho.filled_grand hlast⟩
  unfold filled
  rw [if_neg hci]
  by_cases hcp : c = i
  · subst c
    rw [if_pos rfl, if_neg (by omega)]
    exact hparent hc
  · rw [if_neg hcp]
    by_cases hcl : last ≤ c
    · rw [if_pos hcl]
      exact le_top
    · rw [if_neg hcl, if_neg (by omega)]
      exact ho c hc

end Ranks

variable {α β : Type*} {key key' : α → β} {h : Heap α} {items : List α} {a : α} {i j n cap : ℕ}

def rank (key : α → β) (items : List α) (i : ℕ) : WithTop β :=
  items[i]?.elim ⊤ fun a => (key a : WithTop β)

theorem rank_some (ha : items[i]? = some a) : rank key items i = key a := by
  rw [rank, ha]
  rfl

theorem rank_none (hi : items.length ≤ i) : rank key items i = ⊤ := by
  rw [rank, List.getElem?_eq_none hi]
  rfl

theorem rank_congr (hkey : ∀ a ∈ items, key a = key' a) : rank key items = rank key' items := by
  funext i
  cases ha : items[i]? with
  | none =>
    rw [rank, rank, ha]
    rfl
  | some a => rw [rank_some ha, rank_some ha, hkey a (List.mem_of_getElem? ha)]

theorem rank_swap [DecidableEq α] (hi : i < h.items.length) (hj : j < h.items.length) :
    rank key (h.swap i j).items = rank key h.items ∘ Equiv.swap i j ∧
      (h.swap i j).items.length = h.items.length := by
  unfold Heap.swap
  rw [List.getElem?_eq_getElem hi, List.getElem?_eq_getElem hj]
  simp only [Heap.place, List.length_set, and_true]
  funext c
  rw [Function.comp_apply]
  by_cases hcj : c = j
  · subst c
    rw [Equiv.swap_apply_right, rank, List.getElem?_set_self (by rwa [List.length_set]),
      rank_some (List.getElem?_eq_getElem hi)]
    rfl
  by_cases hci : c = i
  · subst c
    rw [Equiv.swap_apply_left, rank, List.getElem?_set_ne (Ne.symm hcj),
      List.getElem?_set_self hi, rank_some (List.getElem?_eq_getElem hj)]
    rfl
  · rw [Equiv.swap_apply_of_ne_of_ne hci hcj, rank, List.getElem?_set_ne (Ne.symm hcj),
      List.getElem?_set_ne (Ne.symm hci)]
    rfl

variable [LinearOrder β]

def byKey (key : α → β) (a b : α) : Bool := decide (key a < key b)

theorem precedes_iff (hj : j < h.items.length) :
    h.precedes (byKey key) i j = true ↔ rank key h.items i < rank key h.items j := by
  have hb := List.getElem?_eq_getElem hj
  unfold Heap.precedes
  cases ha : h.items[i]? with
  | none =>
    rw [rank_none (List.getElem?_eq_none_iff.mp ha)]
    simp
  | some a =>
    rw [hb, rank_some ha, rank_some hb]
    simp [byKey]

theorem smallest_spec (hi : i < h.items.length) :
    (smallest (byKey key) h i = i ∨
      0 < smallest (byKey key) h i ∧ (smallest (byKey key) h i - 1) / 2 = i ∧
        smallest (byKey key) h i < h.items.length ∧
        rank key h.items (smallest (byKey key) h i) < rank key h.items i) ∧
      ∀ c, 0 < c → (c - 1) / 2 = i →
        rank key h.items (smallest (byKey key) h i) ≤ rank key h.items c := by
  have hin : ∀ c k, rank key h.items c < rank key h.items k → c < h.items.length := by
    intro c k hlt
    by_contra hout
    rw [rank_none (Nat.le_of_not_lt hout)] at hlt
    exact not_top_lt hlt
  have hchildren : ∀ c, 0 < c → (c - 1) / 2 = i → c = i * 2 + 1 ∨ c = i * 2 + 1 + 1 := by
    intro c hc hci
    omega
  unfold smallest
  dsimp only
  by_cases hleft : h.precedes (byKey key) (i * 2 + 1) i = true
  · have hl := (precedes_iff hi).mp hleft
    rw [if_pos hleft]
    by_cases hright : h.precedes (byKey key) (i * 2 + 1 + 1) (i * 2 + 1) = true
    · have hr := (precedes_iff (hin _ _ hl)).mp hright
      rw [if_pos hright]
      refine ⟨Or.inr ⟨by omega, by omega, hin _ _ hr, hr.trans hl⟩, fun c hc hci => ?_⟩
      rcases hchildren c hc hci with rfl | rfl
      · exact hr.le
      · exact le_refl _
    · rw [if_neg hright]
      refine ⟨Or.inr ⟨by omega, by omega, hin _ _ hl, hl⟩, fun c hc hci => ?_⟩
      rcases hchildren c hc hci with rfl | rfl
      · exact le_refl _
      · exact not_lt.mp fun hlt => hright ((precedes_iff (hin _ _ hl)).mpr hlt)
  · have hl := not_lt.mp fun hlt => hleft ((precedes_iff hi).mpr hlt)
    rw [if_neg hleft]
    by_cases hright : h.precedes (byKey key) (i * 2 + 1 + 1) i = true
    · have hr := (precedes_iff hi).mp hright
      rw [if_pos hright]
      refine ⟨Or.inr ⟨by omega, by omega, hin _ _ hr, hr⟩, fun c hc hci => ?_⟩
      rcases hchildren c hc hci with rfl | rfl
      · exact hr.le.trans hl
      · exact le_refl _
    · rw [if_neg hright]
      refine ⟨Or.inl rfl, fun c hc hci => ?_⟩
      rcases hchildren c hc hci with rfl | rfl
      · exact hl
      · exact not_lt.mp fun hlt => hright ((precedes_iff hi).mpr hlt)

theorem root_first (ho : Ordered (rank key h.items)) {root b : α}
    (hroot : h.items.head? = some root) (hb : b ∈ h.items) : key root ≤ key b := by
  obtain ⟨i, hi⟩ := List.mem_iff_getElem?.mp hb
  rw [List.head?_eq_getElem?] at hroot
  have hle := ho.root i
  rw [rank_some hroot, rank_some hi] at hle
  exact WithTop.coe_le_coe.mp hle

variable [DecidableEq α]

theorem siftUp_ordered (hin : i ≤ n) (hi : i < h.items.length)
    (ho : UpOrder (rank key h.items) i) :
    Ordered (rank key (siftUp (byKey key) n i h).items) := by
  induction n generalizing i h with
  | zero =>
    rw [siftUp]
    exact ho.finish (by omega)
  | succ n ih =>
    rw [siftUp]
    split_ifs with hmove
    · obtain ⟨hpos, hbefore⟩ := hmove
      have hparent : (i - 1) / 2 < h.items.length := by omega
      obtain ⟨hrank, hlength⟩ := @rank_swap α β key h i ((i - 1) / 2) _ hi hparent
      apply ih (by omega) (by omega)
      rw [hrank]
      exact ho.move hpos ((precedes_iff hparent).mp hbefore)
    · refine ho.finish fun hpos => ?_
      rw [not_and] at hmove
      exact not_lt.mp fun hlt => hmove hpos ((precedes_iff (by omega)).mpr hlt)

theorem siftDown_ordered (hin : h.items.length ≤ n + i) (hi : i < h.items.length)
    (ho : DownOrder (rank key h.items) i) :
    Ordered (rank key (siftDown (byKey key) n i h).items) := by
  induction n generalizing i h with
  | zero => omega
  | succ n ih =>
    obtain ⟨hplace, hfirst⟩ := @smallest_spec α β key h i _ hi
    rw [siftDown]
    by_cases hstop : smallest (byKey key) h i = i
    · rw [if_pos hstop]
      rw [hstop] at hfirst
      exact ho.finish hfirst
    · obtain ⟨hpos, hchild, hlt, hbefore⟩ := hplace.resolve_left hstop
      obtain ⟨hrank, hlength⟩ := @rank_swap α β key h i (smallest (byKey key) h i) _ hi hlt
      rw [if_neg hstop]
      apply ih (by omega) (by omega)
      rw [hrank]
      exact ho.move hpos hchild hbefore hfirst

theorem remove_ordered (ho : Ordered (rank key h.items)) :
    Ordered (rank key (remove (byKey key) cap h a).items) := by
  unfold remove
  dsimp only
  by_cases hout : h.index a ≥ h.items.length
  · rw [if_pos hout]
    exact ho
  rw [if_neg hout]
  obtain ⟨last, hlast⟩ : ∃ last, h.items.length - 1 = last := ⟨_, rfl⟩
  rw [hlast]
  have hcut : ∀ c, h.items.dropLast[c]? = if c < last then h.items[c]? else none := by
    intro c
    rw [List.getElem?_dropLast, hlast]
  by_cases hend : h.index a = last
  · rw [if_pos hend]
    intro c hc
    unfold rank
    dsimp only
    rw [hcut, hcut]
    by_cases hcl : c < last
    · rw [if_pos hcl, if_pos (by omega)]
      exact ho c hc
    · rw [if_neg hcl]
      exact le_top
  · obtain ⟨r, hr⟩ : ∃ r, h.items[last]? = some r := ⟨_, List.getElem?_eq_getElem (by omega)⟩
    rw [if_neg hend, hr]
    generalize h.index a = i at hout hend ⊢
    have hi : i < last := by omega
    -- the last element at the place that became free
    obtain ⟨placed, hplaced⟩ : ∃ placed : Heap α, placed =
        (⟨h.items.dropLast, Function.update h.index a cap⟩ : Heap α).place r i := ⟨_, rfl⟩
    have hitems : placed.items = h.items.dropLast.set i r := by
      rw [hplaced]
      rfl
    have hcount : placed.items.length = last := by
      rw [hitems, List.length_set, List.length_dropLast, hlast]
    have hrank : rank key placed.items = filled (rank key h.items) i last (key r) := by
      funext c
      rw [hitems]
      unfold filled
      by_cases hci : c = i
      · subst c
        rw [if_pos rfl, rank_some (List.getElem?_set_self (by rw [List.length_dropLast]; omega))]
      · rw [if_neg hci, rank, List.getElem?_set_ne (Ne.symm hci), hcut]
        split_ifs with hcl hcl
        · omega
        · rfl
        · rfl
        · omega
    have hself : rank key placed.items i = key r := by
      rw [hrank, filled, if_pos rfl]
    have hparent : 0 < i →
        rank key placed.items ((i - 1) / 2) = rank key h.items ((i - 1) / 2) := by
      intro hpos
      rw [hrank, filled, if_neg (by omega), if_neg (by omega)]
    dsimp only
    rw [← hplaced]
    by_cases hup : i > 0 ∧ placed.precedes (byKey key) i ((i - 1) / 2) = true
    · rw [if_pos hup]
      have hlt := (precedes_iff (by omega)).mp hup.2
      rw [hself, hparent hup.1] at hlt
      apply siftUp_ordered (le_refl i) (by omega)
      rw [hrank]
      refine ho.filled_up hi fun c hc hci _ => hlt.le.trans ?_
      exact (ho i hup.1).trans (hci ▸ ho c hc)
    · rw [if_neg hup]
      apply siftDown_ordered (by omega) (by omega)
      rw [hrank]
      refine ho.filled_down hi fun hpos => not_lt.mp fun hlt => hup ⟨hpos, ?_⟩
      rw [precedes_iff (by omega), hself, hparent hpos]
      exact hlt

theorem insert_ordered (ho : Ordered (rank key h.items)) :
    Ordered (rank key (insert (byKey key) cap h a).items) := by
  unfold insert
  by_cases hfull : h.items.length ≥ cap
  · rw [if_pos hfull]
    exact ho
  rw [if_neg hfull]
  have hrank : rank key (h.items ++ [a]) =
      filled (rank key h.items) h.items.length (h.items.length + 1) (key a) := by
    funext c
    unfold filled
    by_cases hc : c = h.items.length
    · rw [if_pos hc, rank_some (by rw [hc, List.getElem?_concat_length])]
    · rw [if_neg hc]
      split_ifs with hlast
      · exact rank_none (by rw [List.length_append]; exact hlast)
      · rw [rank, List.getElem?_append_left (by omega)]
        rfl
  apply siftUp_ordered (le_refl _) (by rw [List.length_append, List.length_singleton]; omega)
  dsimp only
  rw [hrank]
  exact ho.filled_up (Nat.lt_succ_self _) fun c _ hci hc => by omega

end IndexedHeap
