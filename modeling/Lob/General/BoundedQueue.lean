import Mathlib.Data.List.Basic

/-!
# Bounded first-in-first-out queues

The abstract queue: a value is pushed at the end while fewer than `C` values are in the queue, and
popped from the front.  In a run from the empty queue, the values pushed are the values popped
followed by what is in the queue (`Run.pushes_eq`), which is never more than `C` values
(`Run.length_le`).
-/

namespace BoundedQueue

variable {T : Type*}

inductive Op (T : Type*) where
  | push (v : T)
  | pop (v : T)

/-- The values pushed, in order. -/
def pushes : List (Op T) → List T
  | [] => []
  | .push v :: ops => v :: pushes ops
  | .pop _ :: ops => pushes ops

/-- The values popped, in order. -/
def pops : List (Op T) → List T
  | [] => []
  | .push _ :: ops => pops ops
  | .pop v :: ops => v :: pops ops

inductive Step (C : ℕ) : List T → Op T → List T → Prop where
  | push {q : List T} {v : T} (h : q.length < C) : Step C q (.push v) (q ++ [v])
  | pop {q : List T} {v : T} : Step C (v :: q) (.pop v) q

/-- The operations `ops` lead from the empty queue to `q`. -/
inductive Run (C : ℕ) : List (Op T) → List T → Prop where
  | nil : Run C [] []
  | snoc {ops : List (Op T)} {q q' : List T} {op : Op T} (h : Run C ops q) (hs : Step C q op q') :
    Run C (ops ++ [op]) q'

@[simp] theorem pushes_append (ops ops' : List (Op T)) :
    pushes (ops ++ ops') = pushes ops ++ pushes ops' := by
  induction ops with
  | nil => rfl
  | cons op ops ih =>
    cases op with
    | push v => simp [pushes, ih]
    | pop v => simp [pushes, ih]

@[simp] theorem pops_append (ops ops' : List (Op T)) :
    pops (ops ++ ops') = pops ops ++ pops ops' := by
  induction ops with
  | nil => rfl
  | cons op ops ih =>
    cases op with
    | push v => simp [pops, ih]
    | pop v => simp [pops, ih]

variable {C : ℕ} {ops : List (Op T)} {q : List T}

/-- **First in, first out.** -/
theorem Run.pushes_eq (h : Run C ops q) : pushes ops = pops ops ++ q := by
  induction h with
  | nil => rfl
  | snoc _ hs ih =>
    rw [pushes_append, pops_append, ih]
    cases hs with
    | push hlt => simp [pushes, pops]
    | pop => simp [pushes, pops]

/-- **The queue is bounded.** -/
theorem Run.length_le (h : Run C ops q) : q.length ≤ C := by
  induction h with
  | nil => exact Nat.zero_le C
  | snoc _ hs ih =>
    cases hs with
    | push hlt =>
      rw [List.length_append, List.length_singleton]
      exact hlt
    | pop => exact Nat.le_of_succ_le ih

theorem Run.length_pushes (h : Run C ops q) :
    (pushes ops).length = (pops ops).length + q.length := by
  rw [h.pushes_eq, List.length_append]

end BoundedQueue
