import Mathlib.Data.List.Nodup
import Mathlib.Logic.Function.Basic
import Mathlib.Tactic.Common

/-! A list threaded through its elements: each knows the one before it and the one behind it, and
the ends are known to the list. Nothing here names a particular element. -/
namespace DoublyLinked

structure Links (α : Type*) where
  head : Option α
  tail : Option α
  prev : α → Option α
  next : α → Option α

variable {α : Type*} {l l' : Links α} {p q u : Option α} {a : α} {xs ys : List α}

def Links.empty : Links α := ⟨none, none, fun _ => none, fun _ => none⟩

/-- What comes behind an element, or first. -/
def Links.after (l : Links α) : Option α → Option α
  | none => l.head
  | some a => l.next a

def Links.before (l : Links α) : Option α → Option α
  | none => l.tail
  | some a => l.prev a

def Adjacent (l : Links α) (p q : Option α) : Prop := l.after p = q ∧ l.before q = p

/-- The elements of a list follow each other between `p` and `q`. -/
def Thread (l : Links α) : Option α → List α → Option α → Prop
  | p, [], q => Adjacent l p q
  | p, a :: rest, q => Adjacent l p (some a) ∧ Thread l (some a) rest q

structure Linked (l : Links α) (xs : List α) : Prop where
  thread : Thread l none xs none
  nodup : xs.Nodup

theorem linked_empty : Linked (Links.empty : Links α) [] := ⟨⟨rfl, rfl⟩, List.nodup_nil⟩

theorem thread_append :
    Thread l p (xs ++ a :: ys) q ↔ Thread l p xs (some a) ∧ Thread l (some a) ys q := by
  induction xs generalizing p with
  | nil => rfl
  | cons b xs ih => simp only [List.cons_append, Thread, ih, and_assoc]

theorem Thread.after_eq (h : Thread l p xs q) : l.after p = xs.head?.or q := by
  cases xs with
  | nil => exact h.1
  | cons a rest => exact h.1.1

theorem Thread.before_eq (h : Thread l p xs q) : l.before q = xs.getLast?.or p := by
  induction xs generalizing p with
  | nil => exact h.2
  | cons a rest ih =>
    rw [ih h.2]
    cases rest with
    | nil => rfl
    | cons b rest =>
      rw [List.getLast?_cons_cons, List.getLast?_eq_some_getLast (List.cons_ne_nil b rest)]
      rfl

theorem Thread.congr (h : Thread l p xs q)
    (hafter : ∀ x, x = p ∨ (∃ a ∈ xs, x = some a) → l'.after x = l.after x)
    (hbefore : ∀ x, x = q ∨ (∃ a ∈ xs, x = some a) → l'.before x = l.before x) :
    Thread l' p xs q := by
  induction xs generalizing p with
  | nil => exact ⟨(hafter p (Or.inl rfl)).trans h.1, (hbefore q (Or.inl rfl)).trans h.2⟩
  | cons a rest ih =>
    have hself : (some a : Option α) = some a := rfl
    refine ⟨⟨(hafter p (Or.inl rfl)).trans h.1.1,
      (hbefore (some a) (Or.inr ⟨a, List.mem_cons_self, hself⟩)).trans h.1.2⟩, ih h.2 ?_ ?_⟩
    · rintro x (rfl | ⟨b, hb, rfl⟩)
      · exact hafter _ (Or.inr ⟨a, List.mem_cons_self, hself⟩)
      · exact hafter _ (Or.inr ⟨b, List.mem_cons_of_mem _ hb, rfl⟩)
    · rintro x (rfl | ⟨b, hb, rfl⟩)
      · exact hbefore _ (Or.inl rfl)
      · exact hbefore _ (Or.inr ⟨b, List.mem_cons_of_mem _ hb, rfl⟩)

theorem Thread.before_mem (h : Thread l p xs q) :
    l.before q = p ∨ ∃ a ∈ xs, l.before q = some a := by
  rw [h.before_eq]
  cases hlast : xs.getLast? with
  | none => exact Or.inl rfl
  | some a => exact Or.inr ⟨a, List.mem_of_getLast? hlast, rfl⟩

theorem Linked.head_eq (h : Linked l xs) : l.head = xs.head? := by
  have hafter := h.thread.after_eq
  rwa [Option.or_none] at hafter

variable [DecidableEq α]

def Links.setAfter (l : Links α) (p q : Option α) : Links α :=
  match p with
  | none => { l with head := q }
  | some a => { l with next := Function.update l.next a q }

def Links.setBefore (l : Links α) (q p : Option α) : Links α :=
  match q with
  | none => { l with tail := p }
  | some a => { l with prev := Function.update l.prev a p }

/-- One element is put right behind another; `none` stands for the end of the list. -/
def Links.join (l : Links α) (p q : Option α) : Links α := (l.setAfter p q).setBefore q p

/-- An element forgets its neighbours. -/
def Links.clear (l : Links α) (a : α) : Links α :=
  { l with prev := Function.update l.prev a none, next := Function.update l.next a none }

def Links.pushBack (l : Links α) (a : α) : Links α := (l.join l.tail (some a)).join (some a) none

def Links.unlink (l : Links α) (a : α) : Links α := (l.join (l.prev a) (l.next a)).clear a

@[simp] theorem after_join (l : Links α) (p q x : Option α) :
    (l.join p q).after x = if x = p then q else l.after x := by
  cases p <;> cases q <;> cases x <;>
    simp [Links.join, Links.setAfter, Links.setBefore, Links.after, Function.update_apply]

@[simp] theorem before_join (l : Links α) (p q x : Option α) :
    (l.join p q).before x = if x = q then p else l.before x := by
  cases p <;> cases q <;> cases x <;>
    simp [Links.join, Links.setAfter, Links.setBefore, Links.before, Function.update_apply]

@[simp] theorem after_clear (l : Links α) (a : α) (x : Option α) :
    (l.clear a).after x = if x = some a then none else l.after x := by
  cases x <;> simp [Links.clear, Links.after, Function.update_apply]

@[simp] theorem before_clear (l : Links α) (a : α) (x : Option α) :
    (l.clear a).before x = if x = some a then none else l.before x := by
  cases x <;> simp [Links.clear, Links.before, Function.update_apply]

theorem Thread.joinLast (h : Thread l p xs q) (hnodup : xs.Nodup) (hp : ∀ a ∈ xs, p ≠ some a)
    (hu : ∀ a ∈ xs, u ≠ some a) : Thread (l.join (l.before q) u) p xs u := by
  induction xs generalizing p with
  | nil =>
    rw [h.2]
    exact ⟨by rw [after_join, if_pos rfl], by rw [before_join, if_pos rfl]⟩
  | cons a rest ih =>
    obtain ⟨hnotin, hrest⟩ := List.nodup_cons.mp hnodup
    have hne : p ≠ l.before q := by
      rcases h.2.before_mem with heq | ⟨b, hb, heq⟩
      · rw [heq]
        exact hp a List.mem_cons_self
      · rw [heq]
        exact hp b (List.mem_cons_of_mem _ hb)
    refine ⟨⟨?_, ?_⟩, ih h.2 hrest ?_ fun b hb => hu b (List.mem_cons_of_mem _ hb)⟩
    · rw [after_join, if_neg hne]
      exact h.1.1
    · rw [before_join, if_neg (hu a List.mem_cons_self).symm]
      exact h.1.2
    · rintro b hb heq
      cases heq
      exact hnotin hb

theorem Thread.clear (h : Thread l p xs q) (hp : p ≠ some a) (hq : q ≠ some a) (ha : a ∉ xs) :
    Thread (l.clear a) p xs q := by
  have hother : ∀ b ∈ xs, (some b : Option α) ≠ some a := by
    rintro b hb heq
    cases heq
    exact ha hb
  refine h.congr ?_ ?_
  · rintro x (rfl | ⟨b, hb, rfl⟩)
    · rw [after_clear, if_neg hp]
    · rw [after_clear, if_neg (hother b hb)]
  · rintro x (rfl | ⟨b, hb, rfl⟩)
    · rw [before_clear, if_neg hq]
    · rw [before_clear, if_neg (hother b hb)]

theorem Linked.pushBack (h : Linked l xs) (ha : a ∉ xs) : Linked (l.pushBack a) (xs ++ [a]) := by
  have hother : ∀ b ∈ xs, (some a : Option α) ≠ some b := by
    rintro b hb heq
    cases heq
    exact ha hb
  have hlast : Thread (l.join l.tail (some a)) none xs (some a) :=
    h.thread.joinLast h.nodup (fun _ _ => nofun) hother
  refine ⟨thread_append.mpr ⟨hlast.congr ?_ ?_, ?_⟩, ?_⟩
  · rintro x (rfl | ⟨b, hb, rfl⟩)
    · rw [Links.pushBack, after_join, if_neg nofun]
    · rw [Links.pushBack, after_join, if_neg (hother b hb).symm]
  · rintro x (rfl | ⟨b, hb, rfl⟩) <;> rw [Links.pushBack, before_join, if_neg nofun]
  · exact ⟨by rw [Links.pushBack, after_join, if_pos rfl],
      by rw [Links.pushBack, before_join, if_pos rfl]⟩
  · exact List.nodup_append.mpr ⟨h.nodup, List.nodup_singleton a, fun b hb c hc heq =>
      ha (by rw [← List.mem_singleton.mp hc, ← heq]; exact hb)⟩

theorem Thread.unlink (hfirst : Thread l p xs (some a)) (hsecond : Thread l (some a) ys q)
    (hnodup : (xs ++ a :: ys).Nodup) (hp : ∀ b ∈ xs ++ a :: ys, p ≠ some b)
    (hq : ∀ b ∈ xs ++ a :: ys, q ≠ some b) : Thread (l.unlink a) p (xs ++ ys) q := by
  obtain ⟨hxs, hays, hapart⟩ := List.nodup_append.mp hnodup
  obtain ⟨hays, hys⟩ := List.nodup_cons.mp hays
  have haxs : a ∉ xs := fun hmem => hapart a hmem a List.mem_cons_self rfl
  have hxys : ∀ b ∈ xs, b ∉ ys := fun b hb hmem => hapart b hb b (List.mem_cons_of_mem _ hmem) rfl
  have hpa : p ≠ some a := hp a (List.mem_append_right _ List.mem_cons_self)
  have hqa : q ≠ some a := hq a (List.mem_append_right _ List.mem_cons_self)
  have hpxs : ∀ b ∈ xs, p ≠ some b := fun b hb => hp b (List.mem_append_left _ hb)
  have hqys : ∀ b ∈ ys, q ≠ some b := fun b hb =>
    hq b (List.mem_append_right _ (List.mem_cons_of_mem _ hb))
  cases ys with
  | nil =>
    have hnext : l.next a = q := hsecond.1
    rw [Links.unlink, hnext, List.append_nil]
    exact (hfirst.joinLast hxs hpxs fun b hb => hq b (List.mem_append_left _ hb)).clear hpa hqa haxs
  | cons b rest =>
    have hnext : l.next a = some b := hsecond.1.1
    obtain ⟨hbrest, hrest⟩ := List.nodup_cons.mp hys
    have hba : (some b : Option α) ≠ some a := by
      rintro heq
      cases heq
      exact hays List.mem_cons_self
    have hbxs : ∀ c ∈ xs, (some b : Option α) ≠ some c := by
      rintro c hc heq
      cases heq
      exact hxys b hc List.mem_cons_self
    rw [Links.unlink, hnext]
    refine thread_append.mpr ⟨(hfirst.joinLast hxs hpxs hbxs).clear hpa hba haxs, ?_⟩
    refine Thread.clear ?_ hba hqa fun hmem => hays (List.mem_cons_of_mem _ hmem)
    -- what comes before the removed element is none of those behind it
    have hapart' : ∀ c ∈ b :: rest, (some c : Option α) ≠ l.before (some a) := by
      intro c hc
      rcases hfirst.before_mem with heq | ⟨d, hd, heq⟩
      · rw [heq]
        exact (hp c (List.mem_append_right _ (List.mem_cons_of_mem _ hc))).symm
      · rw [heq]
        rintro hcd
        cases hcd
        exact hxys c hd hc
    refine hsecond.2.congr ?_ ?_
    · rintro x (rfl | ⟨c, hc, rfl⟩)
      · exact (after_join l _ _ _).trans (if_neg (hapart' b List.mem_cons_self))
      · exact (after_join l _ _ _).trans (if_neg (hapart' c (List.mem_cons_of_mem _ hc)))
    · rintro x (rfl | ⟨c, hc, rfl⟩)
      · rw [before_join, if_neg (hqys b List.mem_cons_self)]
      · rw [before_join, if_neg]
        rintro heq
        cases heq
        exact hbrest hc

theorem Linked.unlink (h : Linked l xs) (ha : a ∈ xs) : Linked (l.unlink a) (xs.erase a) := by
  obtain ⟨front, back, rfl⟩ := List.append_of_mem ha
  obtain ⟨hfirst, hsecond⟩ := thread_append.mp h.thread
  have hfront : a ∉ front := fun hmem =>
    (List.nodup_append.mp h.nodup).2.2 a hmem a List.mem_cons_self rfl
  have herase : (front ++ a :: back).erase a = front ++ back := by
    rw [List.erase_append_right _ hfront, List.erase_cons_head]
  refine ⟨?_, h.nodup.erase a⟩
  rw [herase]
  exact hfirst.unlink hsecond h.nodup (fun _ _ => nofun) fun _ _ => nofun

theorem Linked.clear (h : Linked l xs) (ha : a ∉ xs) : Linked (l.clear a) xs :=
  ⟨h.thread.clear nofun nofun ha, h.nodup⟩

end DoublyLinked
