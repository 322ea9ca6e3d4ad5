import ApiTypes.Proofs.Text.Safe
import ApiTypes.Text.Blank

/-! Reading what a module exports off its text. A statement can only begin where the text
begins or behind a newline, a semicolon or a closing brace, blanks and comments aside, and a
statement that begins with `export ` exports one name. The reader goes through the scanned
text and looks for a keyword at each such place, so code that neither ends a statement nor
stands at its beginning exports nothing. -/

namespace ApiTypes

open Text

/-- The form of an export; any but those of types, interfaces and constants is `other`. -/
inductive Form where
  | type
  | interface
  | constant
  | other
  deriving DecidableEq, Repr

/-- A public name of a module, and what it is the name of. -/
structure Export where
  form : Form
  name : String
  deriving DecidableEq, Repr

namespace Export

/-- A character of names: a letter, a digit, an underscore, a dollar sign or any character
beyond ASCII but blanks and byte order marks. -/
def isNameChar (c : Char) : Bool :=
  PropertyKey.isWordChar c || c = '$' ||
    (128 ≤ c.toNat && !Blank.isBlank c && c.toNat ≠ 0xfeff)

/-- The name at the start of some code. -/
def leadingName (cs : List Char) : String :=
  String.ofList (cs.takeWhile isNameChar)

/-- The public name of a clause, which is its second name if it has two. -/
def clauseName (cs : List Char) : String :=
  match (cs.dropWhile isNameChar).dropPrefix? [' ', 'a', 's', ' '] with
  | some rest => leadingName rest
  | none => leadingName cs

/-- The keywords before an exported name, and what they declare. -/
def heads : List (String × Form) :=
  [("type ", .type), ("interface ", .interface), ("const ", .constant)]

/-- The export that a statement is, by its code up to the first comment or literal. -/
def read? (cs : List Char) : Option Export :=
  (cs.dropPrefix? "export ".toList).map fun cs =>
    match cs.dropPrefix? "type \x7b ".toList with
    | some rest => ⟨.type, clauseName rest⟩
    | none =>
      (heads.findSome? fun head =>
        (cs.dropPrefix? head.1.toList).map fun rest => ⟨head.2, leadingName rest⟩).getD
          ⟨.other, leadingName cs⟩

end Export

namespace Token

/-- The code before the first comment or literal. -/
def leadingCode : List Token → List Char
  | .code c :: rest => c :: leadingCode rest
  | _ => []

/-- Whether a statement may begin behind a token. -/
def isBreak : Token → Bool
  | .code c => c = '\n' || c = ';' || c = '\x7d'
  | _ => false

/-- Whether a token stands before a statement without being part of it. -/
def isGap : Token → Bool
  | .code c => isBreak (.code c) || Blank.isBlank c
  | .comment _ => true
  | _ => false

end Token

namespace Scan

open Token

/-- The exports of some tokens, given whether a statement may begin with them. -/
def exportsFrom : Bool → List Token → List Export
  | _, [] => []
  | true, t :: ts =>
    if t.isGap then exportsFrom true ts
    else (Export.read? (leadingCode (t :: ts))).toList ++ exportsFrom false ts
  | false, t :: ts => exportsFrom t.isBreak ts

/-- What the text of a module exports, in the order of the text. -/
def exports (text : String) : List Export :=
  exportsFrom true (tokens text)

/-! ### Passing over tokens -/

/-- Code as tokens. -/
def codes (s : String) : List Token :=
  s.toList.map .code

theorem codes_append (s t : String) : codes (s ++ t) = codes s ++ codes t := by
  rw [codes, String.toList_append, List.map_append]
  rfl

theorem leadingCode_codes (s : String) (ts : List Token) :
    leadingCode (codes s ++ ts) = s.toList ++ leadingCode ts := by
  rw [codes]
  induction s.toList with
  | nil => rfl
  | cons c cs ih => rw [List.map_cons, List.cons_append, leadingCode, ih, List.cons_append]

theorem exportsFrom_false_append {ts : List Token} (h : ∀ t ∈ ts, t.isBreak = false)
    (us : List Token) : exportsFrom false (ts ++ us) = exportsFrom false us := by
  induction ts with
  | nil => rfl
  | cons t ts ih =>
    rw [List.forall_mem_cons] at h
    rw [List.cons_append, exportsFrom, h.1, ih h.2]

theorem exportsFrom_true_append {ts : List Token} (h : ∀ t ∈ ts, t.isGap = true)
    (us : List Token) : exportsFrom true (ts ++ us) = exportsFrom true us := by
  induction ts with
  | nil => rfl
  | cons t ts ih =>
    rw [List.forall_mem_cons] at h
    rw [List.cons_append, exportsFrom, if_pos h.1, ih h.2]

/-- Tokens that export nothing, whether or not a statement may begin with them. -/
def Neutral (ts : List Token) : Prop :=
  exportsFrom true ts = exportsFrom false ts

theorem neutral_of_isBreak {t : Token} (h : t.isBreak = true) (ts : List Token) :
    Neutral (t :: ts) := by
  cases t with
  | code c =>
    have hgap : (Token.code c).isGap = true := by rw [isGap, h, Bool.true_or]
    rw [Neutral, exportsFrom, if_pos hgap, exportsFrom, h]
  | comment _ | literal _ | unclosed _ => cases h

/-! ### Reading names -/

end Scan

namespace Export

theorem ofWords_isNameChar : OfWords (isNameChar · = true) := by
  intro c hc
  rw [isNameChar, hc]
  rfl

theorem bare_of_isNameChar (c : Char) (h : isNameChar c = true) : Bare c := by
  constructor
  · rintro rfl
    exact absurd h (by decide)
  · rintro rfl
    exact absurd h (by decide)

theorem leadingName_append {x : String} (hx : Over (isNameChar · = true) x) {c : Char}
    (hc : isNameChar c = false) (cs : List Char) : leadingName (x.toList ++ c :: cs) = x := by
  rw [leadingName, List.takeWhile_append_of_pos hx, List.takeWhile_cons, hc]
  simp

theorem dropWhile_append {x : String} (hx : Over (isNameChar · = true) x) {c : Char}
    (hc : isNameChar c = false) (cs : List Char) :
    (x.toList ++ c :: cs).dropWhile isNameChar = c :: cs := by
  rw [List.dropWhile_append_of_pos hx, List.dropWhile_cons, hc]
  rfl

/-- A name is no brace. -/
theorem dropPrefix?_brace {x : String} (hx : Over (isNameChar · = true) x) {c : Char}
    (hc : c ≠ '\x7b') (cs : List Char) :
    (x.toList ++ c :: cs).dropPrefix? ['\x7b', ' '] = none := by
  cases hl : x.toList with
  | nil => simpa [List.dropPrefix?] using fun h => absurd h hc
  | cons d ds =>
    have hd : d ≠ '\x7b' := by
      rintro rfl
      exact absurd (hx _ (hl ▸ List.mem_cons_self)) (by decide)
    simpa [List.dropPrefix?] using fun h => absurd h hd

/-- A declaration is read off its keywords and the name behind them. -/
theorem read?_declaration {word : String} {form : Form} (h : (word, form) ∈ heads) {x : String}
    (hx : Over (isNameChar · = true) x) {c : Char} (hc : isNameChar c = false) (hb : c ≠ '\x7b')
    (cs : List Char) :
    read? ("export ".toList ++ (word.toList ++ (x.toList ++ c :: cs))) = some ⟨form, x⟩ := by
  have hname := leadingName_append hx hc cs
  have hbrace := dropPrefix?_brace hx hb cs
  simp only [heads, List.mem_cons, Prod.mk.injEq, List.not_mem_nil, or_false] at h
  rcases h with ⟨rfl, rfl⟩ | ⟨rfl, rfl⟩ | ⟨rfl, rfl⟩
  · simp [read?, heads, List.dropPrefix?, hname, hbrace]
  · simp [read?, heads, List.dropPrefix?, hname]
  · simp [read?, heads, List.dropPrefix?, hname]

/-- A clause is read as its last name. -/
theorem read?_clause {x y : String} (hx : Over (isNameChar · = true) x)
    (hy : Over (isNameChar · = true) y) (cs : List Char) :
    read? ("export type \x7b ".toList ++ (x.toList ++
      ((if x = y then "" else " as " ++ y).toList ++ ' ' :: '\x7d' :: cs))) = some ⟨.type, y⟩ := by
  have hclause : clauseName (x.toList ++
      ((if x = y then "" else " as " ++ y).toList ++ ' ' :: '\x7d' :: cs)) = y := by
    by_cases he : x = y
    · subst he
      have hrest := dropWhile_append hx (c := ' ') (by decide) ('\x7d' :: cs)
      have hname := leadingName_append hx (c := ' ') (by decide) ('\x7d' :: cs)
      simpa [clauseName, hrest, List.dropPrefix?] using hname
    · have has : (if x = y then "" else " as " ++ y).toList ++ ' ' :: '\x7d' :: cs =
          ' ' :: 'a' :: 's' :: ' ' :: (y.toList ++ ' ' :: '\x7d' :: cs) := by
        rw [if_neg he, String.toList_append]
        rfl
      have hrest := dropWhile_append hx (c := ' ') (by decide)
        ('a' :: 's' :: ' ' :: (y.toList ++ ' ' :: '\x7d' :: cs))
      have hname := leadingName_append hy (c := ' ') (by decide) ('\x7d' :: cs)
      rw [has, clauseName, hrest]
      simpa [List.dropPrefix?] using hname
  simp [read?, List.dropPrefix?, hclause]

/-- A word that is followed by no character of the keyword is no export. -/
theorem read?_word {x : List Char} (hx : ∀ c ∈ x, PropertyKey.isWordChar c = true) {c : Char}
    (hc : c ∉ "export ".toList) (cs : List Char) : read? (x ++ c :: cs) = none := by
  rw [read?, Option.map_eq_none_iff, Option.eq_none_iff_forall_ne_some]
  intro rest hr
  obtain ⟨word, he, hword⟩ := List.dropPrefix?_eq_some_iff.mp hr
  obtain rfl := eq_of_beq hword
  have hblank : ' ' ∉ x := fun hm => absurd (hx _ hm) (by decide)
  rcases List.append_eq_append_iff.mp he with ⟨more, hw, hrest⟩ | ⟨more, hw, -⟩
  · cases more with
    | nil => exact hblank (by rw [← List.append_nil x, ← hw]; decide)
    | cons d more =>
      obtain ⟨rfl, -⟩ := List.cons.inj hrest
      exact hc (hw ▸ List.mem_append_right _ List.mem_cons_self)
  · exact hblank (by rw [hw]; exact List.mem_append_left _ (by decide))

end Export

namespace Scan

open Token

/-! ### Neutral tokens -/

/-- Code whose first letter is not the one of the keyword is no export. -/
theorem read?_eq_none {c : Char} (h : c ≠ 'e') (cs : List Char) :
    Export.read? (c :: cs) = none := by
  have hkeyword : "export ".toList = 'e' :: "xport ".toList := rfl
  rw [Export.read?, hkeyword, List.dropPrefix?, if_neg (by simpa using h)]
  rfl

theorem neutral_code {c : Char} (hbreak : (Token.code c).isBreak = false) (hc : c ≠ 'e')
    (hblank : Blank.isBlank c = false) (ts : List Token) : Neutral (.code c :: ts) := by
  have hgap : (Token.code c).isGap = false := by rw [isGap, hbreak, hblank, Bool.or_self]
  rw [Neutral, exportsFrom, hgap, leadingCode, read?_eq_none hc, exportsFrom, hbreak]
  rfl

theorem neutral_space {ts : List Token} (h : Neutral ts) : Neutral (.code ' ' :: ts) := by
  rw [Neutral, exportsFrom, if_pos (by decide), h]
  rfl

/-! ### Beginnings of statements -/

theorem isBreak_of_isNameChar {c : Char} (h : Export.isNameChar c = true) :
    (Token.code c).isBreak = false := by
  have hne : ∀ d, Export.isNameChar d = false → c ≠ d := by
    rintro d hd rfl
    rw [h] at hd
    cases hd
  simp only [isBreak, hne '\n' (by decide), hne ';' (by decide), hne '\x7d' (by decide),
    decide_false, Bool.or_self]

theorem codes_name {x : String} (h : Over (Export.isNameChar · = true) x) :
    ∀ t ∈ codes x, t.isBreak = false := by
  rw [codes, List.forall_mem_map]
  exact fun c hc => isBreak_of_isNameChar (h c hc)

/-- Reading starts at code that is no gap, and goes on inside the statement. -/
theorem exportsFrom_true_codes (c : Char) (cs : List Char) (hgap : (Token.code c).isGap = false)
    (hbreak : ∀ d ∈ cs, (Token.code d).isBreak = false) (ts : List Token) :
    exportsFrom true ((c :: cs).map .code ++ ts) =
      (Export.read? (c :: cs ++ leadingCode ts)).toList ++ exportsFrom false ts := by
  have hleading := leadingCode_codes (String.ofList (c :: cs)) ts
  have hinner : ∀ t ∈ cs.map Token.code, t.isBreak = false := by
    rw [List.forall_mem_map]
    exact hbreak
  have hrest := exportsFrom_false_append hinner ts
  rw [codes, String.toList_ofList] at hleading
  rw [List.map_cons, List.cons_append, exportsFrom, if_neg (by rw [hgap]; decide), hrest,
    ← List.cons_append, ← List.map_cons, hleading]

theorem isBlank_of_isWordChar {c : Char} (h : PropertyKey.isWordChar c = true) :
    Blank.isBlank c = false := by
  have hrange : 48 ≤ c.toNat ∧ c.toNat ≤ 122 := by
    simp only [PropertyKey.isWordChar, PropertyKey.isLetter, Bool.or_eq_true, Bool.and_eq_true,
      decide_eq_true_eq] at h
    rcases h with ((⟨hl, hu⟩ | ⟨hl, hu⟩) | ⟨hl, hu⟩) | rfl
    · exact ⟨Nat.le_trans (by decide) (Char.le_def.mp hl), hu⟩
    · exact ⟨Nat.le_trans (by decide) hl, Nat.le_trans hu (by decide)⟩
    · exact ⟨hl, Nat.le_trans hu (by decide)⟩
    · decide
  rw [Blank.isBlank]
  simp [Blank.wide]
  omega

/-- A word at the beginning of a statement is no export, whatever character follows it. -/
theorem exportsFrom_word {x : String} (hx : PropertyKey.isIdentifier x.toList = true) {c : Char}
    (hc : c ∉ "export ".toList) (hbreak : (Token.code c).isBreak = false) (ts : List Token) :
    exportsFrom true (codes x ++ .code c :: ts) = exportsFrom false ts := by
  have hword := word_of_isIdentifier hx
  have hname : ∀ d ∈ x.toList, (Token.code d).isBreak = false := fun d hd =>
    isBreak_of_isNameChar (by rw [Export.isNameChar, hword d hd]; rfl)
  have hread := Export.read?_word hword hc (leadingCode ts)
  rw [codes]
  cases hl : x.toList with
  | nil => rw [hl] at hx; cases hx
  | cons d ds =>
    rw [hl] at hword hname hread
    rw [List.forall_mem_cons] at hword hname
    have hgap : (Token.code d).isGap = false := by
      rw [isGap, hname.1, isBlank_of_isWordChar hword.1]
      rfl
    rw [exportsFrom_true_codes d ds hgap hname.2, leadingCode, hread, exportsFrom, hbreak]
    rfl

/-- A declaration at the beginning of a statement exports the name behind its keywords. -/
theorem exportsFrom_declaration (word : String) (form : Form) (h : (word, form) ∈ Export.heads)
    {x : String} (hx : Over (Export.isNameChar · = true) x) {c : Char}
    (hc : Export.isNameChar c = false) (hbrace : c ≠ '\x7b') (ts : List Token) :
    exportsFrom true (codes "export " ++ (codes word ++ (codes x ++ .code c :: ts))) =
      ⟨form, x⟩ :: exportsFrom false (.code c :: ts) := by
  have hread := Export.read?_declaration h hx hc hbrace (leadingCode ts)
  have hword : ∀ t ∈ codes word, t.isBreak = false := by
    revert h
    simp only [Export.heads, List.mem_cons, Prod.mk.injEq, List.not_mem_nil, or_false]
    rintro (⟨rfl, -⟩ | ⟨rfl, -⟩ | ⟨rfl, -⟩) <;> decide
  have hopen := exportsFrom_true_codes 'e' "xport ".toList (by decide) (by simp [isBreak])
    (codes word ++ (codes x ++ .code c :: ts))
  rw [leadingCode_codes, leadingCode_codes, leadingCode, List.cons_append] at hopen
  have hshow : "export ".toList = 'e' :: "xport ".toList := rfl
  rw [hshow, List.cons_append] at hread
  rw [codes, hshow, hopen, hread, exportsFrom_false_append hword,
    exportsFrom_false_append (codes_name hx)]
  rfl

/-- So does a clause. -/
theorem exportsFrom_clause {x y : String} (hx : Over (Export.isNameChar · = true) x)
    (hy : Over (Export.isNameChar · = true) y) (ts : List Token) :
    exportsFrom true (codes "export type \x7b " ++ (codes x ++
      (codes (if x = y then "" else " as " ++ y) ++ (codes " \x7d;" ++ ts)))) =
        ⟨.type, y⟩ :: exportsFrom true ts := by
  have hread := Export.read?_clause hx hy (';' :: leadingCode ts)
  have has : ∀ t ∈ codes (if x = y then "" else " as " ++ y), t.isBreak = false := by
    split
    next => exact List.forall_mem_nil _
    next =>
      rw [codes_append]
      exact List.forall_mem_append.mpr ⟨by decide, codes_name hy⟩
  have hopen := exportsFrom_true_codes 'e' "xport type \x7b ".toList (by decide) (by simp [isBreak])
    (codes x ++ (codes (if x = y then "" else " as " ++ y) ++ (codes " \x7d;" ++ ts)))
  rw [leadingCode_codes, leadingCode_codes, leadingCode_codes, List.cons_append] at hopen
  have hshow : "export type \x7b ".toList = 'e' :: "xport type \x7b ".toList := rfl
  have hend : " \x7d;".toList = [' ', '\x7d', ';'] := rfl
  rw [hshow, List.cons_append] at hread
  rw [codes, hshow, hopen, hend, List.cons_append, List.cons_append, List.singleton_append, hread,
    exportsFrom_false_append (codes_name hx), exportsFrom_false_append has]
  rfl

end Scan

end ApiTypes
