import ApiTypes.Sorting.Search

/-! Merging two neighbouring runs. What already stands in its place at both ends stays
there. The shorter side of what is left is kept aside: the lower run, if the merge goes
forward from the front, or the upper one, if it goes backward from the back. Elements
are taken one at a time until a side has won as often in a row as the patience allows;
then a search finds how many of a side come next, and they are taken together, as long
as that pays. Patience is shared by all merges of one sort. -/

namespace ApiTypes.Sorting

variable {α : Type}

inductive Direction where
  | forward
  | backward

namespace Direction

/-- The other side goes first where an element of the upper run is below one of the
lower run, in either direction. -/
def overtakes (less : α → α → Bool) : Direction → α → α → Bool
  | .forward, other, kept => less other kept
  | .backward, other, kept => less kept other

/-- How many elements at the beginning of a side come next. The search starts with the
first of them; a backward merge looks at the side in the order of its run. -/
def reach (p : α → Bool) (xs : List α) : Direction → Nat
  | .forward => leading p xs
  | .backward =>
    let size := xs.length
    size - boundary (fun i => !xs[size - 1 - i]?.any p) size (size - 1)

end Direction

/-- A merge under way, with what has been merged last first. -/
structure Merge (α : Type) where
  merged : List α
  kept : List α
  other : List α

namespace Merge

/-- Nothing has to be weighed any more when the other side is used up, or the kept side
but for one element, which comes last. -/
def isOver (m : Merge α) : Bool :=
  match m.kept, m.other with
  | _ :: _ :: _, _ :: _ => false
  | _, _ => true

def result (m : Merge α) : List α :=
  m.merged.reverse ++ m.other ++ m.kept

def remaining (m : Merge α) : Nat :=
  m.kept.length + m.other.length

def takeKept (m : Merge α) (count : Nat) : Merge α :=
  ⟨(m.kept.take count).reverse ++ m.merged, m.kept.drop count, m.other⟩

def takeOther (m : Merge α) (count : Nat) : Merge α :=
  ⟨(m.other.take count).reverse ++ m.merged, m.kept, m.other.drop count⟩

/-- Takes one element of the kept side, unless the merge is over. -/
def nextKept (m : Merge α) : Merge α :=
  if m.isOver then m else m.takeKept 1

/-- Takes one element of the other side, unless the merge is over. -/
def nextOther (m : Merge α) : Merge α :=
  if m.isOver then m else m.takeOther 1

/-- How many elements of the kept side come before the next of the other side. -/
def keptAhead (less : α → α → Bool) (d : Direction) (m : Merge α) : Nat :=
  match m.isOver, m.other with
  | false, y :: _ => d.reach (fun x => !d.overtakes less y x) m.kept
  | _, _ => 0

/-- How many elements of the other side come before the next of the kept side. -/
def otherAhead (less : α → α → Bool) (d : Direction) (m : Merge α) : Nat :=
  match m.isOver, m.kept with
  | false, x :: _ => d.reach (fun y => d.overtakes less y x) m.other
  | _, _ => 0

/-- A round takes a stretch of one side and an element of the other, and then the same
with the sides exchanged. It begins with the lower run. The answer tells the longer of
the two stretches. -/
def round (less : α → α → Bool) (d : Direction) (m : Merge α) : Merge α × Nat :=
  match d with
  | .forward =>
    let kept := m.keptAhead less d
    let next := (m.takeKept kept).nextOther
    let other := next.otherAhead less d
    ((next.takeOther other).nextKept, max kept other)
  | .backward =>
    let other := m.otherAhead less d
    let next := (m.takeOther other).nextKept
    let kept := next.keptAhead less d
    ((next.takeKept kept).nextOther, max kept other)

end Merge

/-- How a merge goes on: one element at a time, with the count of wins in a row, or by
stretches. -/
inductive Pace where
  | single (keptWins otherWins : Nat)
  | stretches

/-- A merge that goes by stretches does so while one of them has at least seven elements,
with less patience from round to round; when it leaves off, patience grows. -/
def Merge.step (less : α → α → Bool) (d : Direction) (patience : Nat) (pace : Pace)
    (m : Merge α) : Nat × Pace × Merge α :=
  match pace with
  | .single keptWins otherWins =>
    match m.kept, m.other with
    | x :: _, y :: _ =>
      if d.overtakes less y x then
        let wins := otherWins + 1
        (patience, if patience ≤ wins then .stretches else .single 0 wins, m.takeOther 1)
      else
        let wins := keptWins + 1
        (patience, if patience ≤ wins then .stretches else .single wins 0, m.takeKept 1)
    | _, _ => (patience, pace, m)
  | .stretches =>
    let (next, longest) := m.round less d
    if next.isOver then (patience, pace, next)
    else if 7 ≤ longest then (max 1 (patience - 1), pace, next)
    else (patience + 1, .single 0 0, next)

namespace Merge

/-- Taking elements changes nothing or leaves fewer of them. -/
theorem takeKept_eq_or_lt (m : Merge α) (count : Nat) :
    m.takeKept count = m ∨ (m.takeKept count).remaining < m.remaining := by
  obtain ⟨merged, kept, other⟩ := m
  cases count with
  | zero => exact Or.inl rfl
  | succ n =>
    cases kept with
    | nil => exact Or.inl rfl
    | cons x kept =>
      right
      simp only [takeKept, remaining, List.length_drop, List.length_cons]
      omega

theorem takeOther_eq_or_lt (m : Merge α) (count : Nat) :
    m.takeOther count = m ∨ (m.takeOther count).remaining < m.remaining := by
  obtain ⟨merged, kept, other⟩ := m
  cases count with
  | zero => exact Or.inl rfl
  | succ n =>
    cases other with
    | nil => exact Or.inl rfl
    | cons x other =>
      right
      simp only [takeOther, remaining, List.length_drop, List.length_cons]
      omega

theorem remaining_takeKept_le (m : Merge α) (count : Nat) :
    (m.takeKept count).remaining ≤ m.remaining := by
  rcases m.takeKept_eq_or_lt count with h | h
  · exact Nat.le_of_eq (congrArg remaining h)
  · exact Nat.le_of_lt h

theorem remaining_takeOther_le (m : Merge α) (count : Nat) :
    (m.takeOther count).remaining ≤ m.remaining := by
  rcases m.takeOther_eq_or_lt count with h | h
  · exact Nat.le_of_eq (congrArg remaining h)
  · exact Nat.le_of_lt h

theorem remaining_takeKept_lt (m : Merge α) (h : m.isOver = false) :
    (m.takeKept 1).remaining < m.remaining := by
  obtain ⟨merged, _ | ⟨x, kept⟩, other⟩ := m
  · simp [isOver] at h
  · simp [takeKept, remaining]

theorem remaining_takeOther_lt (m : Merge α) (h : m.isOver = false) :
    (m.takeOther 1).remaining < m.remaining := by
  obtain ⟨merged, kept, _ | ⟨y, other⟩⟩ := m
  · simp [isOver] at h
  · simp [takeOther, remaining]

theorem remaining_nextKept_le (m : Merge α) : m.nextKept.remaining ≤ m.remaining := by
  simp only [nextKept]
  split
  · exact Nat.le_refl _
  · exact m.remaining_takeKept_le 1

theorem remaining_nextOther_le (m : Merge α) : m.nextOther.remaining ≤ m.remaining := by
  simp only [nextOther]
  split
  · exact Nat.le_refl _
  · exact m.remaining_takeOther_le 1

theorem remaining_takeKept_nextOther_lt (m : Merge α) (count : Nat) (h : m.isOver = false) :
    (m.takeKept count).nextOther.remaining < m.remaining := by
  rcases m.takeKept_eq_or_lt count with he | hl
  · simpa [he, nextOther, h] using m.remaining_takeOther_lt h
  · exact Nat.lt_of_le_of_lt (remaining_nextOther_le _) hl

theorem remaining_takeOther_nextKept_lt (m : Merge α) (count : Nat) (h : m.isOver = false) :
    (m.takeOther count).nextKept.remaining < m.remaining := by
  rcases m.takeOther_eq_or_lt count with he | hl
  · simpa [he, nextKept, h] using m.remaining_takeKept_lt h
  · exact Nat.lt_of_le_of_lt (remaining_nextKept_le _) hl

theorem remaining_round_lt (less : α → α → Bool) (d : Direction) (m : Merge α)
    (h : m.isOver = false) : (m.round less d).1.remaining < m.remaining := by
  cases d with
  | forward =>
    exact Nat.lt_of_le_of_lt
      (Nat.le_trans (remaining_nextKept_le _) (remaining_takeOther_le _ _))
      (m.remaining_takeKept_nextOther_lt _ h)
  | backward =>
    exact Nat.lt_of_le_of_lt
      (Nat.le_trans (remaining_nextOther_le _) (remaining_takeKept_le _ _))
      (m.remaining_takeOther_nextKept_lt _ h)

/-- Every step of a merge that is not over leaves fewer elements to be weighed. -/
theorem remaining_step_lt (less : α → α → Bool) (d : Direction) (patience : Nat)
    (pace : Pace) (m : Merge α) (h : m.isOver = false) :
    (m.step less d patience pace).2.2.remaining < m.remaining := by
  cases pace with
  | single keptWins otherWins =>
    obtain ⟨merged, _ | ⟨x, kept⟩, _ | ⟨y, other⟩⟩ := m
    · simp [isOver] at h
    · simp [isOver] at h
    · simp [isOver] at h
    · simp only [step]
      split
      · exact remaining_takeOther_lt _ h
      · exact remaining_takeKept_lt _ h
  | stretches =>
    simp only [step]
    split
    · exact m.remaining_round_lt less d h
    · split <;> exact m.remaining_round_lt less d h

/-- Goes on until the merge is over; the answer tells what patience is left. -/
def complete (less : α → α → Bool) (d : Direction) (patience : Nat) (pace : Pace)
    (m : Merge α) : List α × Nat :=
  if m.isOver then (m.result, patience)
  else
    let next := m.step less d patience pace
    complete less d next.1 next.2.1 next.2.2
termination_by m.remaining
decreasing_by exact m.remaining_step_lt less d patience pace (Bool.eq_false_iff.mpr ‹_›)

end Merge

/-- Merges two neighbouring runs, and tells what patience is left. The first element of
the other side is known to come first. -/
def mergeRuns (less : α → α → Bool) (patience : Nat) (lower upper : List α) :
    List α × Nat :=
  let settled := match upper with
    | [] => lower.length
    | first :: _ => leading (fun x => !less first x) lower
  let kept := lower.drop settled
  match kept.getLast? with
  | none => (lower ++ upper, patience)
  | some last =>
    let count := leadingFromEnd (fun y => less y last) upper
    let moving := upper.take count
    let (merged, patience) :=
      if kept.length ≤ moving.length then
        Merge.complete less .forward patience (.single 0 0)
          (Merge.takeOther ⟨[], kept, moving⟩ 1)
      else
        let (merged, patience) := Merge.complete less .backward patience (.single 0 0)
          (Merge.takeOther ⟨[], moving.reverse, kept.reverse⟩ 1)
        (merged.reverse, patience)
    (lower.take settled ++ merged ++ upper.drop count, patience)

end ApiTypes.Sorting
