import NginxMedia.StepRun

/-! A bounded first-in first-out queue that refuses what it has no room for, with a ledger of
everything offered to it and of everything taken from it. -/
namespace FifoLedger

variable {α : Type*}

structure Fifo (α : Type*) where
  capacity : ℕ
  queue : List α
  offered : List (α × Bool)
  taken : List α
  deriving DecidableEq, Repr

def Fifo.empty (capacity : ℕ) : Fifo α := ⟨capacity, [], [], []⟩

def Fifo.full (q : Fifo α) : Bool := decide (q.capacity ≤ q.queue.length)

def Fifo.refuse (q : Fifo α) (x : α) : Fifo α := { q with offered := q.offered ++ [(x, false)] }

def Fifo.accept (q : Fifo α) (x : α) : Fifo α :=
  { q with queue := q.queue ++ [x], offered := q.offered ++ [(x, true)] }

def Fifo.push (q : Fifo α) (x : α) : Fifo α := if q.full then q.refuse x else q.accept x

def Fifo.pop (q : Fifo α) : Fifo α :=
  { q with queue := q.queue.tail, taken := q.taken ++ q.queue.head?.toList }

/-- What was let in, oldest first. -/
def accepted (offered : List (α × Bool)) : List α :=
  (offered.filter fun x => x.2).map Prod.fst

theorem accepted_append (a b : List (α × Bool)) : accepted (a ++ b) = accepted a ++ accepted b := by
  rw [accepted, List.filter_append, List.map_append, accepted, accepted]

def Fifo.Ordered (q : Fifo α) : Prop := q.taken ++ q.queue = accepted q.offered

variable {q : Fifo α}

theorem ordered_empty (capacity : ℕ) : (Fifo.empty capacity : Fifo α).Ordered := rfl

theorem Fifo.Ordered.refuse (h : q.Ordered) (x : α) : (q.refuse x).Ordered := by
  rw [Ordered, Fifo.refuse, accepted_append, ← h]
  exact (List.append_nil _).symm

theorem Fifo.Ordered.accept (h : q.Ordered) (x : α) : (q.accept x).Ordered := by
  rw [Ordered, Fifo.accept, accepted_append, ← h, List.append_assoc]
  rfl

theorem Fifo.Ordered.pop (h : q.Ordered) : q.pop.Ordered := by
  rw [Ordered, Fifo.pop, ← h]
  cases hq : q.queue with
  | nil => simp
  | cons x rest => simp

theorem push_of_room (h : q.full = false) (x : α) : q.push x = q.accept x := by
  rw [Fifo.push, h, if_neg Bool.false_ne_true]

end FifoLedger
