import TympanLadspa.Foundations.Transition

/-!
# Bounded FIFO queues

The sequential object a bounded queue implements: its operations, their replies
and the replies of a whole sequence of operations.
-/

namespace Fifo

variable {α : Type*}

inductive Op (α : Type*)
  | push (value : α)
  | pop
deriving Repr, DecidableEq

inductive Reply (α : Type*)
  | pushed
  | full (value : α)
  | popped (value : α)
  | empty
deriving Repr, DecidableEq

/-- One operation on a queue of at most `capacity` items, oldest first. -/
def step (capacity : ℕ) (q : List α) : Op α → Reply α × List α
  | .push value =>
    if q.length < capacity then (.pushed, q ++ [value]) else (.full value, q)
  | .pop =>
    match q with
    | [] => (.empty, [])
    | x :: rest => (.popped x, rest)

/-- The replies to a sequence of operations, and the queue it leaves. -/
def exec (capacity : ℕ) : List α → List (Op α) → List (Reply α) × List α
  | q, [] => ([], q)
  | q, op :: ops =>
    let (reply, q') := step capacity q op
    let (replies, q'') := exec capacity q' ops
    (reply :: replies, q'')

theorem step_push_of_lt {capacity : ℕ} {q : List α} (h : q.length < capacity) (value : α) :
    step capacity q (.push value) = (.pushed, q ++ [value]) := by
  rw [step, if_pos h]

theorem step_push_of_le {capacity : ℕ} {q : List α} (h : capacity ≤ q.length) (value : α) :
    step capacity q (.push value) = (.full value, q) := by
  rw [step, if_neg (Nat.not_lt.mpr h)]

@[simp] theorem step_pop_nil (capacity : ℕ) :
    step capacity ([] : List α) .pop = (.empty, []) := rfl

@[simp] theorem step_pop_cons (capacity : ℕ) (x : α) (q : List α) :
    step capacity (x :: q) .pop = (.popped x, q) := rfl

@[simp] theorem exec_nil (capacity : ℕ) (q : List α) : exec capacity q [] = ([], q) := rfl

theorem exec_cons (capacity : ℕ) (q : List α) (op : Op α) (ops : List (Op α)) :
    exec capacity q (op :: ops) =
      ((step capacity q op).1 :: (exec capacity (step capacity q op).2 ops).1,
        (exec capacity (step capacity q op).2 ops).2) := rfl

theorem exec_append (capacity : ℕ) (q : List α) (ops₁ ops₂ : List (Op α)) :
    exec capacity q (ops₁ ++ ops₂) =
      ((exec capacity q ops₁).1 ++ (exec capacity (exec capacity q ops₁).2 ops₂).1,
        (exec capacity (exec capacity q ops₁).2 ops₂).2) := by
  induction ops₁ generalizing q with
  | nil => rfl
  | cons op ops₁ ih =>
    rw [List.cons_append, exec_cons, exec_cons, ih]
    rfl

end Fifo
