import ApiTypes.Text.DocBlock
import ApiTypes.Text.PropertyKey

/-! Marked texts. A generated text is a row of segments: code, and comments and literals
with what stands between their marks. Joining the segments gives the text, so a row of
segments is a text in which the comments and literals that were meant are known. -/

namespace ApiTypes

open Text

inductive Segment where
  | code (s : String)
  | comment (body : List Char)
  | literal (body : List Char)

/-- A missing description is as good as an empty one. -/
theorem Text.DocBlock.ofLabel_eq_block (description : Option String) (deprecated : Bool)
    (indent : Nat) :
    ofLabel description deprecated indent = .ok (block (description.getD "") deprecated indent) := by
  rw [ofLabel, Label.present?]
  cases description with
  | none => rfl
  | some s =>
    rw [Option.filter_some, Label.isTruthy_string]
    cases hs : s.isEmpty with
    | true =>
      rw [String.isEmpty_iff.mp hs]
      rfl
    | false => rfl

namespace Segment

def chars : Segment → List Char
  | code s => s.toList
  | comment body => '/' :: '*' :: (body ++ ['*', '/'])
  | literal body => '\x22' :: (body ++ ['\x22'])

def text (ss : List Segment) : String :=
  String.ofList (ss.flatMap chars)

@[simp] theorem text_nil : text [] = "" := rfl

@[simp] theorem text_append (ss ss' : List Segment) : text (ss ++ ss') = text ss ++ text ss' := by
  rw [text, List.flatMap_append, String.ofList_append]
  rfl

@[simp] theorem text_code_cons (s : String) (ss : List Segment) :
    text (.code s :: ss) = s ++ text ss := by
  rw [text, List.flatMap_cons, String.ofList_append, chars, String.ofList_toList]
  rfl

@[simp] theorem text_comment_cons (body : List Char) (ss : List Segment) :
    text (.comment body :: ss) = "/*" ++ String.ofList body ++ "*/" ++ text ss := by
  refine String.toList_injective ?_
  simp [text, chars]

theorem text_code (s : String) : text [.code s] = s := by
  rw [text_code_cons, text_nil, String.append_empty]

/-- Rows of segments with a fixed text between neighbours. -/
def intercalate (separator : String) : List (List Segment) → List Segment
  | [] => []
  | [ss] => ss
  | ss :: rest => ss ++ .code separator :: intercalate separator rest

theorem text_intercalate (separator : String) (sss : List (List Segment)) :
    text (intercalate separator sss) = separator.intercalate (sss.map text) := by
  fun_induction intercalate separator sss with
  | case1 => rfl
  | case2 ss => rw [List.map_singleton, String.intercalate_singleton]
  | case3 ss rest hne ih =>
    obtain ⟨r, rest, rfl⟩ := List.exists_cons_of_ne_nil hne
    rw [List.map_cons, List.map_cons, String.intercalate_cons_cons, text_append, text_code_cons,
      ih, List.map_cons, String.append_assoc]

theorem forall_intercalate {P : Segment → Prop} {separator : String} (hsep : P (.code separator))
    {sss : List (List Segment)} (h : ∀ ss ∈ sss, ∀ s ∈ ss, P s) :
    ∀ s ∈ intercalate separator sss, P s := by
  fun_induction intercalate separator sss with
  | case1 => exact List.forall_mem_nil _
  | case2 ss => exact h ss List.mem_cons_self
  | case3 ss rest _ ih =>
    rw [List.forall_mem_append, List.forall_mem_cons]
    exact ⟨h ss List.mem_cons_self, hsep, ih fun ss' hm => h ss' (List.mem_cons_of_mem _ hm)⟩

theorem mem_intercalate {separator : String} {sss : List (List Segment)} {ss : List Segment}
    (hs : ss ∈ sss) {s : Segment} (h : s ∈ ss) : s ∈ intercalate separator sss := by
  fun_induction intercalate separator sss with
  | case1 => cases hs
  | case2 ss' =>
    obtain rfl := List.mem_singleton.mp hs
    exact h
  | case3 ss' rest _ ih =>
    rw [List.mem_append, List.mem_cons]
    rcases List.mem_cons.mp hs with rfl | hs
    · exact .inl h
    · exact .inr (.inr (ih hs))

/-! ### The segments of literals and documentation -/

/-- A text as a literal. -/
def quote (alphabet : Literal.Alphabet) (s : String) : Segment :=
  .literal (Literal.body alphabet s.toList)

@[simp] theorem text_quote_cons (alphabet : Literal.Alphabet) (s : String) (ss : List Segment) :
    text (quote alphabet s :: ss) = Literal.literal alphabet s ++ text ss := by
  rw [text, List.flatMap_cons, String.ofList_append]
  rfl

theorem text_quote (alphabet : Literal.Alphabet) (s : String) :
    text [quote alphabet s] = Literal.literal alphabet s := by
  rw [text_quote_cons, text_nil, String.append_empty]

/-- The key of a property: bare, or as a literal. -/
def key (name : String) : Segment :=
  if PropertyKey.isIdentifier name.toList then .code name else quote .unicode name

@[simp] theorem text_key_cons (name : String) (ss : List Segment) :
    text (key name :: ss) = PropertyKey.key name ++ text ss := by
  rw [key, PropertyKey.key]
  split
  next => exact text_code_cons name ss
  next => exact text_quote_cons .unicode name ss

/-- The lines of a documentation block between the marks of its comment. -/
def docBody (margin : List Char) (lines : List (List Char)) : List Char :=
  "*\n".toList ++
    lines.flatMap (fun line => margin ++ " * ".toList ++ DocBlock.escapeEnd line ++ ['\n']) ++
    margin ++ [' ']

/-- The documentation block of an entry. -/
def doc (description : Option String) (deprecated : Bool) (indent : Nat) : List Segment :=
  let lines := DocBlock.linesOf (description.getD "").toList deprecated
  let margin := List.replicate (2 * indent) ' '
  if lines.isEmpty then []
  else [.code (String.ofList margin), .comment (docBody margin lines), .code "\n"]

theorem ofLabel_eq (description : Option String) (deprecated : Bool) (indent : Nat) :
    DocBlock.ofLabel description deprecated indent =
      .ok (text (doc description deprecated indent)) := by
  rw [DocBlock.ofLabel_eq_block, DocBlock.block, DocBlock.ofLines, doc]
  split
  next => rfl
  next => simp [text, chars, docBody]

end Segment

end ApiTypes
