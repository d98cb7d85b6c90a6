/-
First-in first-out queues.

A queue is seen through `Queue.toList`, oldest element first.
-/

namespace ClassicalPlanning

/-- A queue as two stacks: the elements next in line, and behind them the newer ones,
newest first. -/
structure Queue (α : Type) where
  /-- The elements next in line, oldest first. -/
  front : List α := []
  /-- The elements behind them, newest first. -/
  back : List α := []
  /-- The number of elements. -/
  size : Nat := front.length + back.length
  /-- The number is that of the elements of both stacks. -/
  size_eq : size = front.length + back.length := by rfl

namespace Queue

variable {α : Type}

/-- The elements, oldest first. -/
def toList (q : Queue α) : List α :=
  q.front ++ q.back.reverse

/-- The queue of one element. -/
def singleton (a : α) : Queue α :=
  { front := [a] }

/-- The queue with a new element at its end. -/
def push (q : Queue α) (a : α) : Queue α :=
  { front := q.front
    back := a :: q.back
    size := q.size + 1
    size_eq := by have := q.size_eq; simp only [List.length_cons]; omega }

/-- The queue with new elements at its end, in their order. -/
def pushAll (q : Queue α) (l : List α) : Queue α :=
  l.foldl push q

/-- The oldest element and the queue of the others. -/
def pop? (q : Queue α) : Option (α × Queue α) :=
  match q with
  | { front := a :: front, back, size, size_eq } =>
    some (a, { front, back, size := size - 1
               size_eq := by simp only [List.length_cons] at size_eq; omega })
  | { front := [], back, size, size_eq } =>
    match h : back.reverse with
    | [] => none
    | a :: front =>
      some (a, { front, size := size - 1
                 size_eq := by
                  have := congrArg List.length h
                  simp only [List.length_reverse, List.length_cons, List.length_nil] at *
                  omega })

@[simp] theorem toList_singleton (a : α) : (singleton a).toList = [a] := rfl

@[simp] theorem toList_push (q : Queue α) (a : α) : (q.push a).toList = q.toList ++ [a] := by
  simp [toList, push]

@[simp] theorem toList_pushAll (q : Queue α) (l : List α) :
    (q.pushAll l).toList = q.toList ++ l := by
  induction l generalizing q with
  | nil => simp [pushAll]
  | cons a l ih => simpa [pushAll] using ih (q.push a)

theorem size_eq_length_toList (q : Queue α) : q.size = q.toList.length := by
  have := q.size_eq
  simp only [toList, List.length_append, List.length_reverse]
  omega

theorem pop?_eq_none_iff {q : Queue α} : q.pop? = none ↔ q.toList = [] := by
  obtain ⟨front, back, size, size_eq⟩ := q
  cases front with
  | cons a front => simp [pop?, toList]
  | nil =>
    simp only [pop?, toList, List.nil_append]
    split <;> simp_all

theorem toList_of_pop? {q r : Queue α} {a : α} (h : q.pop? = some (a, r)) :
    q.toList = a :: r.toList := by
  obtain ⟨front, back, size, size_eq⟩ := q
  cases front with
  | cons b front =>
    simp only [pop?, Option.some.injEq, Prod.mk.injEq] at h
    obtain ⟨rfl, rfl⟩ := h
    simp [toList]
  | nil =>
    simp only [pop?] at h
    split at h
    · simp at h
    · simp only [Option.some.injEq, Prod.mk.injEq] at h
      obtain ⟨rfl, rfl⟩ := h
      simp_all [toList]

end Queue

end ClassicalPlanning
