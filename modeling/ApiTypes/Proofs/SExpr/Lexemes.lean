import ApiTypes.Proofs.SExpr.Reading
import Mathlib.Data.List.Forall2

/-! The lexemes of a layout. A tree is written with parentheses and with the texts of its leaves,
in an order that hangs on the tree alone; indent and width decide only which blanks stand between
them. Each lexeme spells one token, so layouts of one tree differ in blanks between tokens and in
nothing else. -/

namespace ApiTypes.SExpr

open Text Token

mutual

/-- The texts that a tree is written with. -/
def lexemes : SExpr → List (List Char)
  | symbol name => [name.toList]
  | text s => [(Literal.literal .unicode s).toList]
  | value doc => [doc.plain.toList]
  | form items => ['('] :: (allLexemes items ++ [[')']])

def allLexemes : List SExpr → List (List Char)
  | [] => []
  | item :: rest => item.lexemes ++ allLexemes rest

end

/-- A text of some lexemes with blanks around them. -/
inductive Spaced : List (List Char) → List Char → Prop where
  | nil : Spaced [] []
  | blank {c : Char} {ls : List (List Char)} {cs : List Char} (hc : Blank.isBlank c = true)
      (h : Spaced ls cs) : Spaced ls (c :: cs)
  | lexeme (l : List Char) {ls : List (List Char)} {cs : List Char} (h : Spaced ls cs) :
      Spaced (l :: ls) (l ++ cs)

namespace Spaced

variable {ls ms : List (List Char)} {cs ds : List Char}

theorem singleton (l : List Char) : Spaced [l] l := by
  have h := lexeme l nil
  rwa [List.append_nil] at h

theorem append (h : Spaced ls cs) (h' : Spaced ms ds) : Spaced (ls ++ ms) (cs ++ ds) := by
  induction h with
  | nil => exact h'
  | blank hc _ ih => exact .blank hc ih
  | lexeme l _ ih =>
    rw [List.append_assoc]
    exact .lexeme l ih

theorem blanks (hblank : ∀ c ∈ cs, Blank.isBlank c = true) (h : Spaced ms ds) :
    Spaced ms (cs ++ ds) := by
  induction cs with
  | nil => exact h
  | cons c cs ih =>
    rw [List.forall_mem_cons] at hblank
    exact .blank hblank.1 (ih hblank.2)

end Spaced

/-! ### The lexemes of a layout -/

/-- Items with a gap before each. -/
theorem spaced_gaps {spell : SExpr → List Char} {items : List SExpr} {gap : List Char}
    (hgap : ∀ c ∈ gap, Blank.isBlank c = true) (h : ∀ e ∈ items, Spaced e.lexemes (spell e)) :
    Spaced (allLexemes items) ((items.map spell).flatMap (gap ++ ·)) := by
  induction items with
  | nil => exact .nil
  | cons e rest ih =>
    rw [List.forall_mem_cons] at h
    rw [List.map_cons, List.flatMap_cons, allLexemes]
    exact (Spaced.blanks hgap h.1).append (ih h.2)

theorem spaced_layoutForm {spell : SExpr → List Char} {items : List SExpr}
    (h : ∀ e ∈ items, Spaced e.lexemes (spell e)) (indent width : Int) :
    Spaced (form items).lexemes (layoutForm indent width (items.map spell)) := by
  rw [lexemes]
  cases items with
  | nil => exact (Spaced.singleton ['(']).append (Spaced.singleton [')'])
  | cons head arguments =>
    obtain ⟨gap, last, ⟨-, hgap⟩, hlast, -, heq⟩ :=
      exists_layoutForm_eq indent width (spell head) (arguments.map spell)
    rw [List.forall_mem_cons] at h
    rw [List.map_cons, heq, gapped, allLexemes, List.append_assoc]
    have hclose := Spaced.blanks hlast (Spaced.singleton [')'])
    exact .lexeme ['('] (h.1.append ((spaced_gaps hgap h.2).append hclose))

mutual

/-- A layout consists of the lexemes of the tree and blanks, whatever the indent and the width. -/
theorem spaced_layout (e : SExpr) (indent width : Int) :
    Spaced e.lexemes (layout indent width e) := by
  cases e with
  | symbol name =>
    rw [lexemes, layout]
    exact .singleton _
  | text s =>
    rw [lexemes, layout]
    exact .singleton _
  | value doc =>
    rw [lexemes, layout]
    exact .singleton _
  | form items =>
    rw [layout, layouts_eq_map]
    exact spaced_layoutForm (spaced_layout_of_mem items (indent + 1) width) indent width

theorem spaced_layout_of_mem (items : List SExpr) (indent width : Int) :
    ∀ e ∈ items, Spaced e.lexemes (layout indent width e) := by
  cases items with
  | nil => exact List.forall_mem_nil _
  | cons e rest =>
    rw [List.forall_mem_cons]
    exact ⟨spaced_layout e indent width, spaced_layout_of_mem rest indent width⟩

end

theorem forall₂_allLexemes {R : List Char → Token → Prop} {items : List SExpr}
    (h : ∀ e ∈ items, List.Forall₂ R e.lexemes e.tokens) :
    List.Forall₂ R (allLexemes items) (allTokens items) := by
  induction items with
  | nil => exact .nil
  | cons e rest ih =>
    rw [List.forall_mem_cons] at h
    exact List.rel_append h.1 (ih h.2)

/-- The lexemes of a tree spell its tokens, one by one. -/
theorem forall₂_lexemes {special : Char → Bool} {e : SExpr} (h : e.Readable special) :
    List.Forall₂ (fun l t => cut (.word []) l = [t]) e.lexemes e.tokens := by
  induction h with
  | symbol h => exact .cons (spells_word h).cut_eq .nil
  | text content => exact .cons (spells_literal content).cut_eq .nil
  | form _ ih =>
    rw [lexemes, tokens]
    exact .cons rfl (List.rel_append (forall₂_allLexemes ih) (.cons rfl .nil))

end ApiTypes.SExpr
