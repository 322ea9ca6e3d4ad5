import ApiTypes.Proofs.SExpr.Reading
import ApiTypes.SExpr.Compact

/-! Printers that write an S-expression on one line. Such a printer comes from outside, and of
what it writes only this is assumed: words stand bare, texts stand in quotes with their
characters escaped by backslashes, and a form has parentheses around its items and a blank
between them. So a tree with words as symbols spells its tokens on one line as well, and is read
back, whichever characters the printer escapes. -/

namespace ApiTypes.SExpr

open Text Token

/-- Whether a character occurs in no tag and no keyword of a dump. -/
def isForeign (c : Char) : Bool :=
  !(c.isLower || c = '-' || c = ':')

/-- What is assumed of a printer, of how it escapes the characters of a text, and of the
characters that are special to it in a symbol. -/
structure LinePrinter (print : SExpr → String) (escape : Char → List Char)
    (special : Char → Bool) : Prop where
  /-- A symbol is written bare if nothing in it is special. -/
  symbol : ∀ name : String, (∀ c ∈ name.toList, special c = false) → print (.symbol name) = name
  text : ∀ s : String,
    (print (.text s)).toList = '\x22' :: s.toList.flatMap escape ++ ['\x22']
  form : ∀ items : List SExpr,
    print (.form items) = "(" ++ " ".intercalate (items.map print) ++ ")"
  escapes : ∀ c, QuotedAs c (escape c)
  /-- The symbols of dumps hold nothing special. -/
  special : ∀ c, special c = true → isForeign c = true

theorem join_eq_intercalate (separator : Char) (items : List (List Char)) :
    Split.join separator items = [separator].intercalate items := by
  induction items with
  | nil => rfl
  | cons item rest ih =>
    cases rest with
    | nil => simp [Split.join]
    | cons next more =>
      rw [List.intercalate_cons_cons, ← ih, Split.join, List.append_assoc, List.singleton_append]
      exact List.cons_ne_nil _ _

theorem toList_line (items : List String) :
    ("(" ++ " ".intercalate items ++ ")").toList = flatForm (items.map String.toList) := by
  rw [String.toList_append, String.toList_append, String.toList_intercalate, flatForm,
    join_eq_intercalate]
  rfl

namespace LinePrinter

variable {print : SExpr → String} {escape : Char → List Char} {special : Char → Bool}

theorem toList_form (h : LinePrinter print escape special) (items : List SExpr) :
    (print (.form items)).toList = flatForm (items.map fun e => (print e).toList) := by
  rw [h.form, toList_line, List.map_map]
  rfl

/-- On one line, a tree spells its tokens. -/
theorem spells (h : LinePrinter print escape special) {e : SExpr} (he : e.Readable special) :
    Spells (print e).toList e.tokens := by
  induction he with
  | symbol hword =>
    rw [h.symbol _ fun c hc => (hword.2 c hc).2, tokens]
    exact spells_word hword
  | text content =>
    rw [h.text, tokens]
    exact spells_quoted h.escapes content.toList
  | form _ ih =>
    rw [h.toList_form]
    exact spells_flatForm ih

/-- A tree is read back from one line. -/
theorem read?_print (h : LinePrinter print escape special) {e : SExpr} (he : e.Readable special) :
    read? (print e) = some e :=
  read?_of_spells he (h.spells he)

/-- Trees of the symbols of dumps are readable for every printer. -/
theorem readable (h : LinePrinter print escape special) {e : SExpr} (he : e.Readable isForeign) :
    e.Readable special :=
  he.mono h.special

end LinePrinter

/-! ### The printer that dumps are run with -/

theorem quotedAs_compactEscape (c : Char) : QuotedAs c (compactEscape c) := by
  rw [compactEscape]
  cases hs : Literal.shortEscape? c with
  | some letter => exact quotedAs_shortEscape hs
  | none => exact quotedAs_raw hs

theorem symbolText_of_bare {name : List Char} (h : ∀ c ∈ name, isPunctuation c = false) :
    symbolText (String.ofList name) = name := by
  have hbare : ∀ c ∈ name, (if isPunctuation c then ['\\', c] else [c]) = [c] := by
    intro c hc
    rw [h c hc]
    rfl
  rw [symbolText, String.toList_ofList, List.flatMap_def, List.map_congr_left hbare,
    ← List.flatMap_def, List.flatMap_singleton']

theorem compactItems_eq_map (items : List SExpr) : compactItems items = items.map compactChars := by
  induction items with
  | nil => rw [compactItems, List.map_nil]
  | cons e rest ih => rw [compactItems, List.map_cons, ih]

theorem isForeign_of_isPunctuation {c : Char} (h : isPunctuation c = true) : isForeign c = true := by
  simp only [isPunctuation, Bool.or_eq_true, decide_eq_true_eq] at h
  rcases h with (((((((((((rfl | rfl) | rfl) | rfl) | rfl) | rfl) | rfl) | rfl) | rfl) | rfl) |
    rfl) | rfl) | rfl <;> rfl

/-- It is a printer of this kind. -/
theorem linePrinter_compact : LinePrinter compact compactEscape isPunctuation where
  symbol name h := by
    rw [compact, compactChars, ← String.ofList_toList (s := name), symbolText_of_bare h]
  text s := by
    rw [compact, String.toList_ofList, compactChars, compactText]
  form items := by
    have hchars : String.toList ∘ compact = compactChars := funext fun e => String.toList_ofList
    rw [← String.toList_inj, toList_line, List.map_map, hchars, compact, String.toList_ofList,
      compactChars, compactItems_eq_map]
    rfl
  escapes := quotedAs_compactEscape
  special c := isForeign_of_isPunctuation

end ApiTypes.SExpr
