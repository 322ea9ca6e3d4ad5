import ApiTypes.Proofs.Grammar.Unambiguous
import ApiTypes.Proofs.Plan.Writing

/-! The tree of a type. Unions, optional types and choices are flattened into one row of
alternatives, and the parents of an object are the parts before its block. The text of a
type is that of its tree with a gap for every union without variants, so it belongs to the
grammar exactly if there is no such union and no reference is spelled like a keyword. -/

namespace ApiTypes

open Text Grammar

/-! ### Separators -/

namespace Grammar

theorem joined_cons_cons (separator x y : List Char) (rest : List (List Char)) :
    joined separator (x :: y :: rest) = x ++ (separator ++ joined separator (y :: rest)) := by
  simp [joined]

theorem joined_append (separator : List Char) {xs ys : List (List Char)} (hx : xs ≠ [])
    (hy : ys ≠ []) :
    joined separator (xs ++ ys) = joined separator xs ++ (separator ++ joined separator ys) := by
  obtain ⟨x, xs, rfl⟩ := List.exists_cons_of_ne_nil hx
  obtain ⟨y, ys, rfl⟩ := List.exists_cons_of_ne_nil hy
  simp [joined]

/-- A common beginning of lines is part of what stands between them. -/
theorem joined_map_append (separator lead : List Char) {xs : List (List Char)} (h : xs ≠ []) :
    joined separator (xs.map (lead ++ ·)) = lead ++ joined (separator ++ lead) xs := by
  obtain ⟨x, xs, rfl⟩ := List.exists_cons_of_ne_nil h
  simp [joined, List.flatMap_map]

end Grammar

theorem Segment.chars_intercalate (separator : String) (sss : List (List Segment)) :
    (Segment.intercalate separator sss).flatMap Segment.chars =
      joined separator.toList (sss.map fun ss => ss.flatMap Segment.chars) := by
  fun_induction Segment.intercalate separator sss with
  | case1 => rfl
  | case2 ss => simp [joined]
  | case3 ss rest hne ih =>
    obtain ⟨r, rest, rfl⟩ := List.exists_cons_of_ne_nil hne
    rw [List.map_cons, List.map_cons, joined_cons_cons, List.flatMap_append, List.flatMap_cons, ih]
    rfl

/-! ### The tree of a type -/

namespace Grammar

def keyOf (name : String) : Key :=
  if PropertyKey.isIdentifier name.toList then .bare name
  else .quoted (Literal.body .unicode name.toList)

def docOf (description : Option String) (deprecated : Bool) : Option (List Char) :=
  let lines := DocBlock.linesOf (description.getD "").toList deprecated
  if lines.isEmpty then none else some (Segment.docBody [' ', ' '] lines)

/-- The choices of a string type, each an alternative. -/
def choices : Option (List String) → Alternatives
  | none | some [] => [[.keyword .string]]
  | some (c :: cs) => (c :: cs).map fun c => [.literal (Literal.body .unicode c.toList)]

end Grammar

section

variable (spelled : Symbol String → String) (absent : Alternatives)

mutual

/-- The alternatives of a type, with some in place of a union without variants. -/
def TypeExpr.alternatives : TypeExpr String → List (List Atom)
  | .string cs => choices cs
  | .integer => [[.keyword .number]]
  | .float => [[.keyword .number]]
  | .boolean => [[.keyword .boolean]]
  | .unknown => [[.keyword .unknown]]
  | .array items => [[.array items.alternatives]]
  | .map values => [[.record values.alternatives]]
  | .union variants => if variants.isEmpty then absent else TypeExpr.allAlternatives variants
  | .optional value => value.alternatives ++ [[.keyword .null]]
  | .reference target => [[.name (spelled target.symbol)]]
  | .object properties parents =>
    [parents.map (fun r => .name (spelled r.symbol)) ++ [.block (Property.fields properties)]]
  | .resource .. => []

def TypeExpr.allAlternatives : List (TypeExpr String) → List (List Atom)
  | [] => []
  | t :: ts => t.alternatives ++ TypeExpr.allAlternatives ts

/-- The field of a property, which may be null unless it is required. -/
def Property.field : Property String → Field
  | .mk name value required description deprecated =>
    .mk (docOf description deprecated) (keyOf name) (!required)
      (value.alternatives ++ if required || value.isOptional then [] else [[.keyword .null]])

def Property.fields : List (Property String) → List Field
  | [] => []
  | p :: ps => p.field :: Property.fields ps

end

end

mutual

/-- Whether a union without variants stands anywhere in a type. -/
def TypeExpr.holdsGap : TypeExpr String → Bool
  | .array items => items.holdsGap
  | .map values => values.holdsGap
  | .union variants => variants.isEmpty || TypeExpr.anyHoldsGap variants
  | .optional value => value.holdsGap
  | .object properties _ => Property.anyHoldsGap properties
  | _ => false

def TypeExpr.anyHoldsGap : List (TypeExpr String) → Bool
  | [] => false
  | t :: ts => t.holdsGap || TypeExpr.anyHoldsGap ts

def Property.holdsGap : Property String → Bool
  | .mk _ value _ _ _ => value.holdsGap

def Property.anyHoldsGap : List (Property String) → Bool
  | [] => false
  | p :: ps => p.holdsGap || Property.anyHoldsGap ps

end

/-! ### The text of the tree -/

section

variable {spelled : Symbol String → String} {absent : Alternatives}

theorem chars_choices (cs : Option (List String)) :
    (choices cs).chars = (Segment.choices cs).flatMap Segment.chars ∧ choices cs ≠ [] := by
  have hstring : Alternatives.chars [[.keyword .string]] =
      [Segment.code "string"].flatMap Segment.chars := by decide
  rcases cs with _ | _ | ⟨c, cs⟩
  · exact ⟨hstring, by simp [choices]⟩
  · exact ⟨hstring, by simp [choices]⟩
  · refine ⟨?_, by simp [choices]⟩
    rw [choices, Segment.choices, Segment.chars_intercalate, Alternatives.chars, oneOf,
      Conjunction.texts_eq, List.map_map, List.map_map]
    congr 1

theorem chars_singleton (a : Atom) : Alternatives.chars [[a]] = a.chars := by
  simp [Alternatives.chars, oneOf, Conjunction.texts, allOf, Atom.texts, joined]

theorem chars_append {t t' : Alternatives} (ht : t ≠ []) (ht' : t' ≠ []) :
    Alternatives.chars (t ++ t') = t.chars ++ (bar ++ t'.chars) := by
  rw [Alternatives.chars, Conjunction.texts_eq, List.map_append, oneOf,
    joined_append _ (by simpa using ht) (by simpa using ht'), ← Conjunction.texts_eq,
    ← Conjunction.texts_eq]
  rfl

/-- A type that may also be null. -/
theorem chars_or_null {t : Alternatives} (h : t ≠ []) :
    Alternatives.chars (t ++ [[.keyword .null]]) = t.chars ++ (Segment.code " | null").chars := by
  rw [chars_append h (by simp), chars_singleton]
  rfl

theorem chars_key (name : String) : (keyOf name).chars = (Segment.key name).chars := by
  rw [keyOf, Segment.key]
  split <;> rfl

/-- The documentation of a property stands at the beginning of its first line. -/
theorem chars_doc (description : Option String) (deprecated : Bool) (rest : List Char) :
    (Segment.doc description deprecated 1).flatMap Segment.chars ++ ([' ', ' '] ++ rest) =
      [' ', ' '] ++ (((docOf description deprecated).elim [] fun body =>
        commentChars body ++ margin) ++ rest) := by
  rw [Segment.doc, docOf]
  split
  next => simp
  next => simp [Segment.chars, commentChars, margin, List.replicate]

theorem chars_row (c : Conjunction) :
    Alternatives.chars [c] = joined ampersand (c.map Atom.chars) := by
  simp [Alternatives.chars, oneOf, Conjunction.texts, allOf, Atom.texts_eq, joined]

theorem chars_braced {fs : List Field} {sss : List (List Segment)}
    (h : fs.map (fun f => [' ', ' '] ++ f.chars) = sss.map (·.flatMap Segment.chars)) :
    blockChars (Field.texts fs) = (Segment.braced sss).flatMap Segment.chars := by
  rw [blockChars, Segment.braced, Field.texts_eq]
  by_cases hn : fs = []
  · subst hn
    obtain rfl : sss = [] := List.map_eq_nil_iff.mp h.symm
    rfl
  · have hne : sss ≠ [] := by
      rintro rfl
      exact hn (List.map_eq_nil_iff.mp h)
    have hlines : joined ['\n'] (sss.map (·.flatMap Segment.chars)) =
        [' ', ' '] ++ joined margin (fs.map Field.chars) := by
      have hmap := joined_map_append ['\n'] [' ', ' ']
        (show fs.map Field.chars ≠ [] by simpa using hn)
      rw [List.map_map] at hmap
      rw [← h]
      exact hmap
    have hchars := Segment.chars_intercalate "\n" sss
    rw [show "\n".toList = ['\n'] from rfl, hlines] at hchars
    simp [hn, hne, hchars, Segment.chars, margin]

mutual

theorem TypeExpr.chars_alternatives (t : TypeExpr String) (h : t.holdsResource = false)
    (hgap : absent = [[]] ∨ t.holdsGap = false) :
    Alternatives.chars (t.alternatives spelled absent) =
        (t.segments spelled).flatMap Segment.chars ∧ t.alternatives spelled absent ≠ [] := by
  cases t with
  | string cs =>
    rw [TypeExpr.alternatives, TypeExpr.segments]
    exact chars_choices cs
  | integer | float | boolean | unknown =>
    rw [TypeExpr.alternatives, TypeExpr.segments]
    exact ⟨by decide, by simp⟩
  | array items =>
    rw [TypeExpr.holdsResource] at h
    rw [TypeExpr.holdsGap] at hgap
    rw [TypeExpr.alternatives, TypeExpr.segments, chars_singleton]
    refine ⟨?_, by simp⟩
    have hitems := (TypeExpr.chars_alternatives items h hgap).1
    rw [Alternatives.chars] at hitems
    simp [Atom.chars, arrayChars, hitems, Segment.chars]
  | map values =>
    rw [TypeExpr.holdsResource] at h
    rw [TypeExpr.holdsGap] at hgap
    rw [TypeExpr.alternatives, TypeExpr.segments, chars_singleton]
    refine ⟨?_, by simp⟩
    have hvalues := (TypeExpr.chars_alternatives values h hgap).1
    rw [Alternatives.chars] at hvalues
    simp [Atom.chars, recordChars, hvalues, Segment.chars]
  | optional value =>
    rw [TypeExpr.holdsResource] at h
    rw [TypeExpr.holdsGap] at hgap
    obtain ⟨hvalue, hne⟩ := TypeExpr.chars_alternatives value h hgap
    rw [TypeExpr.alternatives, TypeExpr.segments, chars_or_null hne, hvalue]
    exact ⟨by simp, by simp⟩
  | union variants =>
    rw [TypeExpr.holdsResource] at h
    rw [TypeExpr.holdsGap, Bool.or_eq_false_iff] at hgap
    rw [TypeExpr.alternatives, TypeExpr.segments, Segment.chars_intercalate]
    by_cases hn : variants = []
    · subst hn
      obtain rfl := hgap.resolve_right (by simp)
      exact ⟨rfl, by simp⟩
    · rw [if_neg (by simpa using hn)]
      exact TypeExpr.chars_allAlternatives variants h (hgap.imp_right And.right) hn
  | reference target =>
    rw [TypeExpr.alternatives, TypeExpr.segments, Reference.segments, chars_singleton]
    exact ⟨by simp [Atom.chars, Segment.chars], by simp⟩
  | object properties parents =>
    rw [TypeExpr.holdsResource] at h
    rw [TypeExpr.holdsGap] at hgap
    have hblock := Property.chars_fields properties h hgap
    rw [TypeExpr.alternatives, TypeExpr.segments, Segment.chars_intercalate]
    refine ⟨?_, by simp⟩
    rw [chars_row, List.map_append, List.map_append, List.map_map, List.map_map, List.map_singleton,
      List.map_singleton, Atom.chars, chars_braced hblock]
    have hparents : parents.map (Atom.chars ∘ fun r => .name (spelled r.symbol)) =
        parents.map ((·.flatMap Segment.chars) ∘ Reference.segments spelled) :=
      List.map_congr_left fun r _ => by simp [Atom.chars, Reference.segments, Segment.chars]
    rw [hparents]
    rfl
  | resource properties scope => cases h

theorem TypeExpr.chars_allAlternatives (ts : List (TypeExpr String))
    (h : TypeExpr.anyHoldsResource ts = false)
    (hgap : absent = [[]] ∨ TypeExpr.anyHoldsGap ts = false) (hne : ts ≠ []) :
    Alternatives.chars (TypeExpr.allAlternatives spelled absent ts) =
        joined " | ".toList ((TypeExpr.allSegments spelled ts).map (·.flatMap Segment.chars)) ∧
      TypeExpr.allAlternatives spelled absent ts ≠ [] := by
  cases ts with
  | nil => exact absurd rfl hne
  | cons t rest =>
    rw [TypeExpr.anyHoldsResource, Bool.or_eq_false_iff] at h
    rw [TypeExpr.anyHoldsGap, Bool.or_eq_false_iff] at hgap
    obtain ⟨ht, hnt⟩ := TypeExpr.chars_alternatives t h.1 (hgap.imp_right And.left)
    rw [TypeExpr.allAlternatives, TypeExpr.allSegments, List.map_cons]
    by_cases hn : rest = []
    · subst hn
      simp [TypeExpr.allAlternatives, TypeExpr.allSegments, joined, ht, hnt]
    · obtain ⟨hrest, hnrest⟩ :=
        TypeExpr.chars_allAlternatives rest h.2 (hgap.imp_right And.right) hn
      obtain ⟨t', rest, rfl⟩ := List.exists_cons_of_ne_nil hn
      refine ⟨?_, by simp [hnt]⟩
      rw [chars_append hnt hnrest, ht, hrest, TypeExpr.allSegments, List.map_cons,
        joined_cons_cons]
      rfl

theorem Property.chars_field (p : Property String) (h : p.holdsResource = false)
    (hgap : absent = [[]] ∨ p.holdsGap = false) :
    [' ', ' '] ++ (p.field spelled absent).chars = (p.segments spelled).flatMap Segment.chars := by
  cases p with
  | mk name value required description deprecated =>
    rw [Property.holdsResource] at h
    rw [Property.holdsGap] at hgap
    obtain ⟨hvalue, hne⟩ := TypeExpr.chars_alternatives value h hgap
    have hbody : Alternatives.chars (value.alternatives spelled absent ++
        if required || value.isOptional then [] else [[.keyword .null]]) =
          (value.segments spelled ++ if required || value.isOptional then []
            else [Segment.code " | null"]).flatMap Segment.chars := by
      cases required || value.isOptional
      · rw [if_neg (by simp), if_neg (by simp), chars_or_null hne, hvalue]
        simp
      · simp [hvalue]
    rw [Alternatives.chars] at hbody
    rw [Property.field, Property.segments, Field.chars, fieldChars, hbody, chars_key]
    simp only [List.flatMap_append, List.append_assoc]
    rw [← chars_doc]
    cases required <;> simp [Segment.chars]

theorem Property.chars_fields (ps : List (Property String))
    (h : Property.anyHoldsResource ps = false)
    (hgap : absent = [[]] ∨ Property.anyHoldsGap ps = false) :
    (Property.fields spelled absent ps).map (fun f => [' ', ' '] ++ f.chars) =
      (Property.allSegments spelled ps).map (·.flatMap Segment.chars) := by
  cases ps with
  | nil => rfl
  | cons p rest =>
    rw [Property.anyHoldsResource, Bool.or_eq_false_iff] at h
    rw [Property.anyHoldsGap, Bool.or_eq_false_iff] at hgap
    rw [Property.fields, Property.allSegments, List.map_cons, List.map_cons,
      Property.chars_field p h.1 (hgap.imp_right And.left),
      Property.chars_fields rest h.2 (hgap.imp_right And.right)]

end

end

end ApiTypes
