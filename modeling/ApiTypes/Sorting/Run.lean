import ApiTypes.Sorting.Search

/-! A list as a row of runs. The elements of a list that are in order as they stand form
a run, turned around if they strictly descend. A run that is too short takes up further
elements, each at the place that halving finds for it. -/

namespace ApiTypes.Sorting

variable {α : Type}

/-- Cuts a list behind an element where a neighbour first does not go on as asked. -/
def runAfter (goesOn : α → α → Bool) (last : α) : List α → List α × List α
  | [] => ([], [])
  | x :: rest =>
    if goesOn last x then
      let (run, others) := runAfter goesOn x rest
      (x :: run, others)
    else ([], x :: rest)

/-- The beginning of a list that is in order, or becomes so when it is turned around,
and the rest of the list. -/
def initialRun (less : α → α → Bool) : List α → List α × List α
  | [] => ([], [])
  | [x] => ([x], [])
  | x :: y :: rest =>
    if less y x then
      let (run, others) := runAfter (fun last next => less next last) y rest
      ((x :: y :: run).reverse, others)
    else
      let (run, others) := runAfter (fun last next => !less next last) y rest
      (x :: y :: run, others)

/-- Puts an element behind what it is not below. -/
def insert (less : α → α → Bool) (sorted : List α) (x : α) : List α :=
  let place := halve (fun i => sorted[i]?.any fun y => !less x y) 0 sorted.length
  sorted.take place ++ x :: sorted.drop place

/-- The least length of a run: a size below 64 is kept, a larger one is halved until it
is below 64, and grows by one if anything was lost in that. -/
def leastLength (size lost : Nat) : Nat :=
  if size < 64 then size + lost else leastLength (size / 2) (max lost (size % 2))
termination_by size

/-- The initial run, made up to a least length, and the rest of the list. -/
def nextRun (less : α → α → Bool) (least : Nat) (xs : List α) : List α × List α :=
  let (run, others) := initialRun less xs
  let missing := least - run.length
  ((others.take missing).foldl (insert less) run, others.drop missing)

theorem length_runAfter_le (goesOn : α → α → Bool) (last : α) (xs : List α) :
    (runAfter goesOn last xs).2.length ≤ xs.length := by
  induction xs generalizing last with
  | nil => exact Nat.le_refl _
  | cons x rest ih =>
    simp only [runAfter]
    split
    · exact Nat.le_succ_of_le (ih x)
    · exact Nat.le_refl _

theorem length_initialRun_lt (less : α → α → Bool) (x : α) (xs : List α) :
    (initialRun less (x :: xs)).2.length < (x :: xs).length := by
  cases xs with
  | nil => exact Nat.zero_lt_one
  | cons y rest =>
    simp only [initialRun]
    split <;> exact Nat.lt_succ_of_lt (Nat.lt_succ_of_le (length_runAfter_le _ y rest))

theorem length_nextRun_lt (less : α → α → Bool) (least : Nat) (x : α) (xs : List α) :
    (nextRun less least (x :: xs)).2.length < (x :: xs).length := by
  have := length_initialRun_lt less x xs
  simp only [nextRun, List.length_drop]
  omega

/-- All runs of a list, in their order. -/
def runs (less : α → α → Bool) (least : Nat) : List α → List (List α)
  | [] => []
  | x :: xs =>
    let next := nextRun less least (x :: xs)
    next.1 :: runs less least next.2
termination_by xs => xs.length
decreasing_by exact length_nextRun_lt less least x xs

end ApiTypes.Sorting
