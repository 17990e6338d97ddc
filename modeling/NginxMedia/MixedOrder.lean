import Mathlib.Data.List.Induction
import Mathlib.Data.Set.Defs
import Mathlib.Tactic.Common

/-! A comparison glued from two: elements of one class are compared one way and all others
another way. It is transitive on a set exactly when no pair of one class is crossed by an
element outside it. A scan that keeps the least element it has seen depends on the order of
the list unless the comparison is transitive. Nothing here names a particular element. -/
namespace MixedOrder

open Std (TransCmp LawfulEqCmp OrientedCmp)

variable {α : Type*}

/-- Elements of one class are compared `within`, others `across`. -/
def mixed (same : α → α → Prop) [DecidableRel same] (within across : α → α → Ordering)
    (a b : α) : Ordering :=
  if same a b then within a b else across a b

structure Classes (same : α → α → Prop) : Prop where
  symm : ∀ {a b}, same a b → same b a
  trans : ∀ {a b c}, same a b → same b c → same a c

def TransOn (cmp : α → α → Ordering) (S : Set α) : Prop :=
  ∀ a ∈ S, ∀ b ∈ S, ∀ c ∈ S, cmp a b = .lt → cmp b c = .lt → cmp a c = .lt

structure Crossed (same : α → α → Prop) (within across : α → α → Ordering) (a b c : α) :
    Prop where
  inside : same a b
  outside : ¬same a c
  along : within a b = .lt
  back : across b c = .lt
  above : across c a = .lt

section Mixed

variable {same : α → α → Prop} [DecidableRel same] {within across : α → α → Ordering}
variable {a b c : α} {S : Set α}

theorem mixed_same (h : same a b) : mixed same within across a b = within a b := if_pos h

theorem mixed_other (h : ¬same a b) : mixed same within across a b = across a b := if_neg h

theorem mixed_swap [OrientedCmp within] [OrientedCmp across] (hc : Classes same) :
    mixed same within across a b = (mixed same within across b a).swap := by
  by_cases h : same a b
  · rw [mixed_same h, mixed_same (hc.symm h)]
    exact OrientedCmp.eq_swap
  · rw [mixed_other h, mixed_other fun h' => h (hc.symm h')]
    exact OrientedCmp.eq_swap

theorem mixed_eq [LawfulEqCmp within] [LawfulEqCmp across] :
    mixed same within across a b = .eq ↔ a = b := by
  by_cases h : same a b
  · rw [mixed_same h]
    exact LawfulEqCmp.compare_eq_iff_eq
  · rw [mixed_other h]
    exact LawfulEqCmp.compare_eq_iff_eq

theorem lt_of_not_lt {cmp : α → α → Ordering} [OrientedCmp cmp] [LawfulEqCmp cmp] (hne : a ≠ b)
    (h : ¬cmp a b = .lt) : cmp b a = .lt := by
  have hswap : cmp b a = (cmp a b).swap := OrientedCmp.eq_swap
  rw [hswap]
  cases hab : cmp a b with
  | lt => exact absurd hab h
  | eq => exact absurd (LawfulEqCmp.compare_eq_iff_eq.mp hab) hne
  | gt => rfl

theorem Crossed.not_transOn [OrientedCmp across] [OrientedCmp within] (hc : Classes same)
    (h : Crossed same within across a b c) (ha : a ∈ S) (hb : b ∈ S) (hcm : c ∈ S) :
    ¬TransOn (mixed same within across) S := by
  intro ht
  have hbc : ¬same b c := fun hs => h.outside (hc.trans h.inside hs)
  have hlt := ht a ha b hb c hcm ((mixed_same h.inside).trans h.along)
    ((mixed_other hbc).trans h.back)
  have hswap : across a c = (across c a).swap := OrientedCmp.eq_swap
  rw [mixed_other h.outside, hswap, h.above] at hlt
  cases hlt

theorem transOn_mixed_iff [TransCmp within] [TransCmp across] [LawfulEqCmp within]
    [LawfulEqCmp across]
    (hc : Classes same) :
    TransOn (mixed same within across) S ↔
      ∀ a ∈ S, ∀ b ∈ S, ∀ c ∈ S, ¬Crossed same within across a b c := by
  constructor
  · exact fun ht a ha b hb c hcm h => h.not_transOn hc ha hb hcm ht
  · intro hno a ha b hb c hcm hab hbc
    by_cases h1 : same a b
    · rw [mixed_same h1] at hab
      by_cases h2 : same b c
      · -- one class
        rw [mixed_same h2] at hbc
        rw [mixed_same (hc.trans h1 h2)]
        exact TransCmp.lt_trans hab hbc
      · -- the first two are of one class
        have h3 : ¬same a c := fun h => h2 (hc.trans (hc.symm h1) h)
        rw [mixed_other h2] at hbc
        rw [mixed_other h3]
        by_contra hnot
        have hne : a ≠ c := by
          rintro rfl
          exact h2 (hc.symm h1)
        exact hno a ha b hb c hcm ⟨h1, h3, hab, hbc, lt_of_not_lt hne hnot⟩
    · rw [mixed_other h1] at hab
      by_cases h2 : same b c
      · -- the last two are of one class
        have h3 : ¬same a c := fun h => h1 (hc.trans h (hc.symm h2))
        rw [mixed_same h2] at hbc
        rw [mixed_other h3]
        by_contra hnot
        have hne : a ≠ c := by
          rintro rfl
          exact h1 (hc.symm h2)
        exact hno b hb c hcm a ha
          ⟨h2, fun h => h1 (hc.symm h), hbc, lt_of_not_lt hne hnot, hab⟩
      · rw [mixed_other h2] at hbc
        have hac : across a c = .lt := TransCmp.lt_trans hab hbc
        by_cases h3 : same a c
        · -- the outer two are of one class
          rw [mixed_same h3]
          by_contra hnot
          have hne : a ≠ c := by
            rintro rfl
            have hself : across a a = .eq := Std.ReflCmp.compare_self
            rw [hself] at hac
            cases hac
          exact hno c hcm a ha b hb
            ⟨hc.symm h3, fun h => h2 (hc.symm h), lt_of_not_lt hne hnot, hab, hbc⟩
        · rw [mixed_other h3]
          exact hac

end Mixed

section Least

variable {cmp : α → α → Ordering} {S : Set α}

def keepLeast (cmp : α → α → Ordering) : Option α → α → Option α
  | none, x => some x
  | some best, x => if cmp x best = .lt then some x else some best

theorem keepLeast_some (best x : α) :
    keepLeast cmp (some best) x = some (if cmp x best = .lt then x else best) := by
  by_cases hlt : cmp x best = .lt
  · rw [if_pos hlt]
    exact if_pos hlt
  · rw [if_neg hlt]
    exact if_neg hlt

def least (cmp : α → α → Ordering) (xs : List α) : Option α := xs.foldl (keepLeast cmp) none

/-- What a transitive comparison makes of the scan. -/
structure IsLeast (cmp : α → α → Ordering) (xs : List α) (m : α) : Prop where
  mem : m ∈ xs
  first : ∀ x ∈ xs, x = m ∨ cmp m x = .lt

theorem IsLeast.unique {xs : List α} {m m' : α} (hswap : ∀ a b, cmp a b = (cmp b a).swap)
    (h : IsLeast cmp xs m) (h' : IsLeast cmp xs m') : m = m' := by
  rcases h.first m' h'.mem with heq | hlt
  · exact heq.symm
  · rcases h'.first m h.mem with heq | hgt
    · exact heq
    · rw [hswap, hgt] at hlt
      cases hlt

theorem isLeast_concat (ht : TransOn cmp S) (hswap : ∀ a b, cmp a b = (cmp b a).swap)
    (hzero : ∀ a b, cmp a b = .eq → a = b) {xs : List α} {best x : α}
    (hS : ∀ y ∈ xs ++ [x], y ∈ S) (h : IsLeast cmp xs best) :
    IsLeast cmp (xs ++ [x]) (if cmp x best = .lt then x else best) := by
  have hx : x ∈ S := hS x (by simp)
  have hxs : ∀ y ∈ xs, y ∈ S := fun y hy => hS y (List.mem_append_left _ hy)
  by_cases hlt : cmp x best = .lt
  · rw [if_pos hlt]
    refine ⟨by simp, fun y hy => ?_⟩
    rcases List.mem_append.mp hy with hold | hnew
    · rcases h.first y hold with rfl | hbest
      · exact Or.inr hlt
      · exact Or.inr (ht x hx best (hxs best h.mem) y (hxs y hold) hlt hbest)
    · exact Or.inl (List.mem_singleton.mp hnew)
  · rw [if_neg hlt]
    refine ⟨List.mem_append_left _ h.mem, fun y hy => ?_⟩
    rcases List.mem_append.mp hy with hold | hnew
    · exact h.first y hold
    · rw [List.mem_singleton.mp hnew]
      cases hcmp : cmp x best with
      | lt => exact absurd hcmp hlt
      | eq => exact Or.inl (hzero x best hcmp)
      | gt =>
        right
        rw [hswap, hcmp]
        rfl

theorem least_spec (ht : TransOn cmp S) (hswap : ∀ a b, cmp a b = (cmp b a).swap)
    (hzero : ∀ a b, cmp a b = .eq → a = b) (xs : List α) (hS : ∀ x ∈ xs, x ∈ S) :
    match least cmp xs with
    | none => xs = []
    | some m => IsLeast cmp xs m := by
  induction xs using List.reverseRecOn with
  | nil => rfl
  | append_singleton xs x ih =>
    have hprev := ih fun y hy => hS y (List.mem_append_left _ hy)
    unfold least at hprev ⊢
    rw [List.foldl_append, List.foldl_cons, List.foldl_nil]
    cases hfold : xs.foldl (keepLeast cmp) none with
    | none =>
      rw [hfold] at hprev
      rw [show xs = [] from hprev]
      exact ⟨by simp, fun y hy => Or.inl (by simpa using hy)⟩
    | some best =>
      rw [hfold] at hprev
      have hnext := isLeast_concat ht hswap hzero hS hprev
      rw [keepLeast_some]
      exact hnext

theorem least_congr (ht : TransOn cmp S) (hswap : ∀ a b, cmp a b = (cmp b a).swap)
    (hzero : ∀ a b, cmp a b = .eq → a = b) {xs ys : List α} (hS : ∀ x ∈ xs, x ∈ S)
    (hmem : ∀ x, x ∈ xs ↔ x ∈ ys) : least cmp xs = least cmp ys := by
  have hxs := least_spec ht hswap hzero xs hS
  have hys := least_spec ht hswap hzero ys fun y hy => hS y ((hmem y).mpr hy)
  cases hx : least cmp xs with
  | none =>
    cases hy : least cmp ys with
    | none => rfl
    | some m =>
      rw [hx] at hxs
      rw [hy] at hys
      have := (hmem m).mpr hys.mem
      rw [show xs = [] from hxs] at this
      cases this
  | some m =>
    rw [hx] at hxs
    cases hy : least cmp ys with
    | none =>
      rw [hy] at hys
      have := (hmem m).mp hxs.mem
      rw [show ys = [] from hys] at this
      cases this
    | some m' =>
      rw [hy] at hys
      have hm' : IsLeast cmp xs m' :=
        ⟨(hmem m').mpr hys.mem, fun x hx' => hys.first x ((hmem x).mp hx')⟩
      rw [hxs.unique hswap hm']

end Least

end MixedOrder
