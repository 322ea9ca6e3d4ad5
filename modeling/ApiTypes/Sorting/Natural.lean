import ApiTypes.Sorting.Run
import ApiTypes.Sorting.Merge

/-! Sorting by merging the runs that a list already has. Neighbouring runs are merged as
a balanced tree over the whole list would have it: a boundary between two runs has a
power, the depth at which such a tree divides their midpoints, and the deeper boundary
is merged first. Over a total order this is the stable sort. Where some elements have no
place in the order, as `nan` among numbers, it fixes the outcome, which depends on the
comparisons that are made. -/

namespace ApiTypes.Sorting

variable {α : Type}

/-- A run that waits to be merged, where it begins in the list, and the power of the
boundary behind it. -/
structure Pending (α : Type) where
  start : Nat
  items : List α
  power : Nat

/-- The first power from a given one at which two places fall into different parts of a
list that is halved again and again. The places are scaled along. -/
def powerFrom (size power low high : Nat) : Nat :=
  if low < high ∧ high < low + size ∧ low / size = high / size then
    powerFrom size (power + 1) (2 * low) (2 * high)
  else power
termination_by low + size - high

/-- The power of the boundary behind a run of a list, before a run of a given length. -/
def Pending.powerBefore (run : Pending α) (size length : Nat) : Nat :=
  let midpoint := 2 * run.start + run.items.length
  powerFrom size 1 midpoint (midpoint + run.items.length + length)

/-- Merges the last runs, given last first, while a boundary between them is deeper than
the one behind them. -/
def settle (less : α → α → Bool) (power : Nat) :
    Nat → List (Pending α) → List (Pending α) × Nat
  | patience, upper :: lower :: rest =>
    if power < lower.power then
      let (items, patience) := mergeRuns less patience lower.items upper.items
      settle less power patience ({ lower with items } :: rest)
    else (upper :: lower :: rest, patience)
  | patience, pending => (pending, patience)
termination_by _ pending => pending.length

/-- Puts a further run of a list of a given size on those that wait, last first. -/
def push (less : α → α → Bool) (size : Nat) (waiting : List (Pending α) × Nat)
    (run : List α) : List (Pending α) × Nat :=
  match waiting with
  | ([], patience) => ([⟨0, run, 0⟩], patience)
  | (last :: rest, patience) =>
    let start := last.start + last.items.length
    let power := last.powerBefore size run.length
    match settle less power patience (last :: rest) with
    | (merged :: rest, patience) =>
      (⟨start, run, 0⟩ :: { merged with power } :: rest, patience)
    | ([], patience) => ([⟨start, run, 0⟩], patience)

/-- Merges all runs that wait, given last first. Of three, the two lower ones go first if
the lowest is shorter than the last. -/
def collapse (less : α → α → Bool) : Nat → List (Pending α) → List α
  | _, [] => []
  | _, [run] => run.items
  | patience, [upper, lower] => (mergeRuns less patience lower.items upper.items).1
  | patience, last :: upper :: lower :: rest =>
    if lower.items.length < last.items.length then
      let (items, patience) := mergeRuns less patience lower.items upper.items
      collapse less patience (last :: { lower with items } :: rest)
    else
      let (items, patience) := mergeRuns less patience upper.items last.items
      collapse less patience ({ upper with items } :: lower :: rest)
termination_by _ pending => pending.length

/-- Sorts a list by merging its runs. -/
def naturalMerge (less : α → α → Bool) (xs : List α) : List α :=
  let size := xs.length
  let (pending, patience) :=
    (runs less (leastLength size 0) xs).foldl (push less size) ([], 7)
  collapse less patience pending

end ApiTypes.Sorting
