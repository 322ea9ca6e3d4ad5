/-! Where a property of positions stops to hold. The search takes strides of growing
width from a position near which the place is expected, then halves the stretch that
the last stride jumped over. Where the property holds up to some position and nowhere
behind it, the answer is that position; otherwise it depends on the positions that are
looked at. -/

namespace ApiTypes.Sorting

/-- The place between two bounds that halving finds. -/
def halve (holds : Nat → Bool) (low high : Nat) : Nat :=
  if low < high then
    let middle := low + (high - low) / 2
    if holds middle then halve holds (middle + 1) high else halve holds low middle
  else high
termination_by high - low

/-- Strides of width 1, 3, 7 and so on while a property holds. The answer is the last
width at which it held and the first at which it did not, or the limit. -/
def stride (holds : Nat → Bool) (limit last width : Nat) : Nat × Nat :=
  if width < limit then
    if holds width then stride holds limit width (2 * width + 1) else (last, width)
  else (last, limit)
termination_by limit - width

/-- The place among the first positions where a property ends, looked for from a start. -/
def boundary (holds : Nat → Bool) (size start : Nat) : Nat :=
  if holds start then
    let (last, width) := stride (fun d => holds (start + d)) (size - start) 0 1
    halve holds (start + last + 1) (start + width)
  else
    let (last, width) := stride (fun d => !holds (start - d)) (start + 1) 0 1
    halve holds (start + 1 - width) (start - last)

/-- How many elements at the beginning of a list have a property, looked for from the
beginning. -/
def leading {α : Type} (p : α → Bool) (xs : List α) : Nat :=
  boundary (fun i => xs[i]?.any p) xs.length 0

/-- How many elements at the beginning of a list have a property, looked for from the
end. -/
def leadingFromEnd {α : Type} (p : α → Bool) (xs : List α) : Nat :=
  boundary (fun i => xs[i]?.any p) xs.length (xs.length - 1)

end ApiTypes.Sorting
