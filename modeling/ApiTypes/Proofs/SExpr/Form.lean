import ApiTypes.SExpr.Layout
import ApiTypes.Text.Blank
import Mathlib.Data.List.Basic

/-! One form whose items are laid out already. Flat or broken, it has gaps of blanks between its
items, and these are wide or narrow by what the form is on one line. -/

namespace ApiTypes.SExpr

open Text

/-! ### Gaps between items -/

/-- A form with one gap before every argument and another one before its closing parenthesis. -/
def gapped (gap last : List Char) (head : List Char) (arguments : List (List Char)) : List Char :=
  '(' :: (head ++ (arguments.flatMap (gap ++ ·) ++ (last ++ [')'])))

theorem join_cons (separator : Char) (head : List Char) (arguments : List (List Char)) :
    Split.join separator (head :: arguments) = head ++ arguments.flatMap ([separator] ++ ·) := by
  induction arguments generalizing head with
  | nil => rw [Split.join, List.flatMap_nil, List.append_nil]
  | cons a rest ih =>
    rw [Split.join, ih, List.flatMap_cons, List.append_assoc]
    · rfl
    · exact List.cons_ne_nil _ _

theorem flatForm_cons (head : List Char) (arguments : List (List Char)) :
    flatForm (head :: arguments) = gapped [' '] [] head arguments := by
  rw [flatForm, join_cons, gapped, List.nil_append, List.cons_append, List.append_assoc]

theorem brokenForm_cons (indent : Int) (head : List Char) (arguments : List (List Char)) :
    brokenForm indent (head :: arguments) =
      gapped ('\n' :: margin (indent + 1)) ('\n' :: margin indent) head arguments := by
  rw [brokenForm, gapped]
  simp only [List.cons_append, List.append_assoc]

/-- A form up to one of its items. -/
def opened (gap : List Char) : List (List Char) → List Char
  | [] => ['(']
  | head :: arguments => '(' :: (head ++ (arguments.flatMap (gap ++ ·) ++ gap))

section

variable {items : List (List Char)} {item : List Char} {c separator : Char}

end

/-! ### Flat or broken -/

theorem isBlank_margin (indent : Int) : ∀ c ∈ '\n' :: margin indent, Blank.isBlank c = true := by
  rw [List.forall_mem_cons]
  refine ⟨by decide, fun c hc => ?_⟩
  rw [List.eq_of_mem_replicate hc]
  decide

/-- A form with items is flat or broken, and one with a line break on it is broken. -/
theorem layoutForm_cases (indent width : Int) (head : List Char) (arguments : List (List Char)) :
    let flatly := flatForm (head :: arguments)
    let broken := brokenForm indent (head :: arguments)
    (layoutForm indent width (head :: arguments) = flatly ∧ '\n' ∉ flatly ∧
        flatly.length ≤ width) ∨
      (layoutForm indent width (head :: arguments) = broken ∧ '\n' ∈ broken ∧
        (flatly.length ≤ width → '\n' ∈ flatly)) := by
  intro flatly broken
  have hbroken : '\n' ∈ broken := by simp [broken, brokenForm]
  by_cases hfits : flatly.length ≤ width ∧ '\n' ∉ flatly
  · exact .inl ⟨if_pos (by simpa [flatly] using hfits), hfits.2, hfits.1⟩
  · refine .inr ⟨if_neg (by simpa [flatly] using hfits), hbroken, fun hwidth => ?_⟩
    by_contra hline
    exact hfits ⟨hwidth, hline⟩

/-- Flat or broken, a form has gaps of blanks; around an item with a line break they begin with
one themselves. -/
theorem exists_layoutForm_eq (indent width : Int) (head : List Char)
    (arguments : List (List Char)) :
    ∃ gap last, (gap ≠ [] ∧ ∀ c ∈ gap, Blank.isBlank c = true) ∧
      (∀ c ∈ last, Blank.isBlank c = true) ∧
      ('\n' ∈ flatForm (head :: arguments) →
        gap.head? = some '\n' ∧ last.head? = some '\n') ∧
      layoutForm indent width (head :: arguments) = gapped gap last head arguments := by
  rcases layoutForm_cases indent width head arguments with ⟨heq, hline, -⟩ | ⟨heq, -, -⟩
  · exact ⟨[' '], [], ⟨List.cons_ne_nil _ _, List.forall_mem_singleton.mpr (by decide)⟩,
      List.forall_mem_nil _, fun hbreak => absurd hbreak hline,
      heq.trans (flatForm_cons head arguments)⟩
  · exact ⟨_, _, ⟨List.cons_ne_nil _ _, isBlank_margin (indent + 1)⟩, isBlank_margin indent,
      fun _ => ⟨rfl, rfl⟩, heq.trans (brokenForm_cons indent head arguments)⟩

end ApiTypes.SExpr
