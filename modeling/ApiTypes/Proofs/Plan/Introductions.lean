import ApiTypes.Plan.TypeExpr
import ApiTypes.Proofs.Plan.Reading

/-! What plans introduce. A statement declares the name that stands directly behind its
keywords, so the declared symbols of a plan can be read off its pieces: a spelling
behind a text that ends in such keywords. Texts of other kinds are quiet: keys, literals
and documentation never end that way. -/

namespace ApiTypes

/-- The keywords before the name that a statement declares. -/
def declarationHeads : List String := ["export type ", "export interface ", "export const "]

/-- Whether a text ends where the name of a declaration has to follow. -/
def opensDeclaration (s : String) : Bool :=
  declarationHeads.any fun head => head.toList.reverse.isPrefixOf s.toList.reverse

/-- The symbols that some pieces declare, given whether a name has to follow first. -/
def introducedFrom (opened : Bool) : List (Piece String) → List (Symbol String)
  | [] => []
  | .text s :: rest => introducedFrom (opensDeclaration s) rest
  | .spelling symbol :: rest => (if opened then [symbol] else []) ++ introducedFrom false rest
  | .computed _ _ :: rest => introducedFrom false rest

namespace Piece

/-- A piece behind which no declared name follows. -/
def Quiet : Piece String → Prop
  | text s => opensDeclaration s = false
  | _ => True

end Piece

namespace Plan

/-- The symbols that the statements of a plan declare. -/
def introduced (p : Plan String) : List (Symbol String) :=
  introducedFrom false p.pieces

def Quiet (p : Plan String) : Prop :=
  ∀ piece ∈ p.pieces, piece.Quiet

end Plan

theorem introducedFrom_quiet {ps : List (Piece String)} (h : ∀ p ∈ ps, p.Quiet)
    (rest : List (Piece String)) : introducedFrom false (ps ++ rest) = introducedFrom false rest := by
  induction ps with
  | nil => rfl
  | cons p ps ih =>
    have hp := h p List.mem_cons_self
    have hrest := ih fun q hq => h q (List.mem_cons_of_mem _ hq)
    cases p with
    | text s =>
      rw [List.cons_append, introducedFrom]
      rw [show opensDeclaration s = false from hp]
      exact hrest
    | spelling symbol => exact hrest
    | computed symbols f => exact hrest

theorem Plan.Quiet.introduced {p : Plan String} (h : p.Quiet) : p.introduced = [] := by
  have hq := introducedFrom_quiet h []
  rwa [List.append_nil] at hq

/-! ### Quiet texts -/

/-- Every keyword before a declared name ends in one of two letters and a blank. -/
theorem take_two_of_opensDeclaration {s : String} (h : opensDeclaration s = true) :
    s.toList.reverse.take 2 = [' ', 'e'] ∨ s.toList.reverse.take 2 = [' ', 't'] := by
  rw [opensDeclaration, List.any_eq_true] at h
  obtain ⟨head, hm, hp⟩ := h
  obtain ⟨rest, hr⟩ := List.isPrefixOf_iff_prefix.mp hp
  rw [← hr]
  simp only [declarationHeads, List.mem_cons, List.not_mem_nil, or_false] at hm
  rcases hm with rfl | rfl | rfl <;> simp

theorem opensDeclaration_of_last {s : String} {cs : List Char} {c : Char}
    (h : s.toList = cs ++ [c]) (hc : c ≠ ' ') : opensDeclaration s = false := by
  rw [Bool.eq_false_iff]
  intro ho
  have ht := take_two_of_opensDeclaration ho
  rw [h, List.reverse_append] at ht
  simp [hc] at ht

theorem opensDeclaration_key (s : String) (required : Bool) :
    opensDeclaration (s ++ if required then ": " else "?: ") = false := by
  rw [Bool.eq_false_iff]
  intro ho
  have ht := take_two_of_opensDeclaration ho
  cases required <;> simp at ht

theorem opensDeclaration_angle (s : String) : opensDeclaration (s ++ "> ") = false := by
  rw [Bool.eq_false_iff]
  intro ho
  have ht := take_two_of_opensDeclaration ho
  simp at ht

theorem toList_literal (s : String) :
    (Label.literal s).toList = '\x22' :: Text.Literal.body .unicode s.toList ++ ['\x22'] := by
  show (Document.literal (.text s)).toList = _
  rw [Document.literal_text, Text.Literal.literal, String.toList_ofList]

theorem exists_last_intercalate (separator : String) {c : Char} {ss : List String} (hne : ss ≠ [])
    (h : ∀ s ∈ ss, ∃ cs, s.toList = cs ++ [c]) :
    ∃ cs, (separator.intercalate ss).toList = cs ++ [c] := by
  induction ss with
  | nil => exact absurd rfl hne
  | cons s rest ih =>
    cases rest with
    | nil =>
      obtain ⟨cs, hs⟩ := h s List.mem_cons_self
      exact ⟨cs, by rw [String.intercalate_singleton, hs]⟩
    | cons r rest =>
      obtain ⟨cs, hr⟩ := ih (by simp) fun t ht => h t (List.mem_cons_of_mem _ ht)
      refine ⟨s.toList ++ separator.toList ++ cs, ?_⟩
      rw [String.intercalate_cons_cons, String.toList_append, String.toList_append, hr]
      simp

theorem opensDeclaration_choices (choices : Option (List String)) :
    opensDeclaration (choicesText choices) = false := by
  rcases choices with _ | _ | ⟨c, cs⟩
  · decide
  · decide
  · have hl : ∀ s ∈ (c :: cs).map Label.literal, ∃ ds, s.toList = ds ++ ['\x22'] := by
      intro s hs
      obtain ⟨t, -, rfl⟩ := List.mem_map.mp hs
      exact ⟨_, toList_literal t⟩
    obtain ⟨ds, h⟩ := exists_last_intercalate " | " (by simp) hl
    exact opensDeclaration_of_last (c := '\x22') h (by decide)

theorem opensDeclaration_block (description : String) (deprecated : Bool) (indent : Nat) :
    opensDeclaration (Text.DocBlock.block description deprecated indent) = false := by
  rw [Text.DocBlock.block, Text.DocBlock.ofLines]
  split
  next => decide
  next =>
    have he : " */\n".toList = " */".toList ++ ['\n'] := rfl
    exact opensDeclaration_of_last (c := '\n')
      (by rw [String.toList_ofList, he, ← List.append_assoc]) (by decide)

end ApiTypes
