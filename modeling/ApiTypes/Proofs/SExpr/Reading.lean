import ApiTypes.Document.Reader
import ApiTypes.Proofs.SExpr.Form

/-! Reading S-expressions back. A text is first cut into tokens: parentheses, quoted texts
with their escapes undone, and words, which blanks, parentheses and quotes end. Tokens then
build a tree, with the items of the forms that are still open on a stack. Whatever the indent
and the width, the layout of a tree has the tokens of the tree, and these build the tree again,
so a tree with words as symbols is read back from it. -/

namespace ApiTypes.SExpr

open Text

inductive Token where
  | opening
  | closing
  | word (name : List Char)
  | quoted (content : List Char)
  | broken
  deriving DecidableEq, Repr

namespace Token

/-- Where the cutting stands: behind a part of a word, which may be empty, inside a quoted
text, behind a backslash in it, or in the code of a character, of which some digits are
still to come. -/
inductive Mode where
  | word (read : List Char)
  | quoted (read : List Char)
  | escape (read : List Char)
  | code (read : List Char) (digits unit : Nat)

/-- The token of a word that has ended. -/
def ofWord (name : List Char) : List Token :=
  if name.isEmpty then [] else [.word name]

def cut : Mode → List Char → List Token
  | .word read, [] => ofWord read
  | _, [] => [.broken]
  | .word read, c :: rest =>
    if c = '(' then ofWord read ++ .opening :: cut (.word []) rest
    else if c = ')' then ofWord read ++ .closing :: cut (.word []) rest
    else if c = '\x22' then ofWord read ++ cut (.quoted []) rest
    else if Blank.isBlank c then ofWord read ++ cut (.word []) rest
    else cut (.word (read ++ [c])) rest
  | .quoted read, c :: rest =>
    if c = '\x22' then .quoted read :: cut (.word []) rest
    else if c = '\\' then cut (.escape read) rest
    else cut (.quoted (read ++ [c])) rest
  | .escape read, c :: rest =>
    if c = 'u' then cut (.code read 4 0) rest
    else
      match Document.Reader.simpleEscape? c with
      | some decoded => cut (.quoted (read ++ [decoded])) rest
      | none => [.broken]
  | .code read digits unit, c :: rest =>
    match Document.Reader.hexValue? c with
    | some d =>
      if digits = 1 then cut (.quoted (read ++ [Char.ofNat (unit * 16 + d)])) rest
      else cut (.code read (digits - 1) (unit * 16 + d)) rest
    | none => [.broken]

/-- Reads tokens into the items of the innermost form that is open, on a stack of the items
of the forms around it. -/
def build : List (List SExpr) → List SExpr → List Token → Option (List SExpr)
  | [], items, [] => some items
  | around, items, .opening :: ts => build (items :: around) [] ts
  | outer :: around, items, .closing :: ts => build around (outer ++ [form items]) ts
  | around, items, .word name :: ts => build around (items ++ [symbol (String.ofList name)]) ts
  | around, items, .quoted s :: ts => build around (items ++ [text (String.ofList s)]) ts
  | _, _, _ => none

end Token

open Token

/-- The expression that a text spells. -/
def read? (s : String) : Option SExpr :=
  match build [] [] (cut (.word []) s.toList) with
  | some [e] => some e
  | _ => none

/-! ### Words -/

/-- What ends a word. -/
def isDelimiter (c : Char) : Bool :=
  c = '(' || c = ')' || c = '\x22' || Blank.isBlank c

/-- A word without characters that are special to some printer. -/
def IsWord (special : Char → Bool) (name : List Char) : Prop :=
  name ≠ [] ∧ ∀ c ∈ name, isDelimiter c = false ∧ special c = false

instance (special : Char → Bool) (name : List Char) : Decidable (IsWord special name) :=
  @instDecidableAnd _ _ inferInstance
    (List.decidableBAll (fun c => isDelimiter c = false ∧ special c = false) name)

/-- Trees of forms, texts and symbols that are words. -/
inductive Readable (special : Char → Bool) : SExpr → Prop where
  | symbol {name : String} (h : IsWord special name.toList) : Readable special (.symbol name)
  | text (content : String) : Readable special (.text content)
  | form {items : List SExpr} (h : ∀ e ∈ items, Readable special e) : Readable special (.form items)

variable {special : Char → Bool}

/-- Fewer characters are special. -/
theorem Readable.mono {special' : Char → Bool} (hs : ∀ c, special c = true → special' c = true)
    {e : SExpr} (h : e.Readable special') : e.Readable special := by
  induction h with
  | symbol h =>
    refine .symbol ⟨h.1, fun c hc => ⟨(h.2 c hc).1, Bool.eq_false_iff.mpr fun hspecial => ?_⟩⟩
    exact Bool.eq_false_iff.mp (h.2 c hc).2 (hs c hspecial)
  | text content => exact .text content
  | form _ ih => exact .form ih

mutual

/-- The tokens of a tree; other plain values have none of their own. -/
def tokens : SExpr → List Token
  | symbol name => [.word name.toList]
  | text content => [.quoted content.toList]
  | value _ => [.broken]
  | form items => .opening :: (allTokens items ++ [.closing])

def allTokens : List SExpr → List Token
  | [] => []
  | item :: rest => item.tokens ++ allTokens rest

end

/-! ### Building from tokens -/

theorem build_tokens {e : SExpr} (h : e.Readable special) (around : List (List SExpr))
    (items : List SExpr) (ts : List Token) :
    build around items (e.tokens ++ ts) = build around (items ++ [e]) ts := by
  induction h generalizing around items ts with
  | symbol _ => simp [tokens, build]
  | text _ => simp [tokens, build]
  | @form inner _ ih =>
    have hinner : ∀ before after, (∀ e ∈ after, e ∈ inner) →
        build (items :: around) before (allTokens after ++ .closing :: ts) =
          build (items :: around) (before ++ after) (.closing :: ts) := by
      intro before after hsub
      induction after generalizing before with
      | nil => rw [allTokens, List.nil_append, List.append_nil]
      | cons e rest ihrest =>
        rw [List.forall_mem_cons] at hsub
        rw [allTokens, List.append_assoc, ih e hsub.1, ihrest _ hsub.2, List.append_assoc,
          List.singleton_append]
    rw [tokens, List.cons_append, build, List.append_assoc, List.singleton_append,
      hinner [] inner fun _ => id, List.nil_append, build]

theorem build_tokens_eq {e : SExpr} (h : e.Readable special) :
    build [] [] e.tokens = some [e] := by
  rw [← List.append_nil e.tokens, build_tokens h [] [] [], List.nil_append, build]

/-! ### Cutting into tokens -/

/-- A text before which a word ends. -/
def Ends (rest : List Char) : Prop :=
  ∀ c ∈ rest.head?, isDelimiter c = true

theorem ends_cons {c : Char} (h : isDelimiter c = true) (rest : List Char) : Ends (c :: rest) :=
  fun _ hc => Option.some.inj hc ▸ h

theorem Ends.append {cs ds : List Char} (hc : Ends cs) (hd : Ends ds) : Ends (cs ++ ds) := by
  cases cs with
  | nil => exact hd
  | cons c cs => exact hc

theorem cut_delimiter {c : Char} (h : isDelimiter c = true) (name rest : List Char) :
    cut (.word name) (c :: rest) = ofWord name ++ cut (.word []) (c :: rest) := by
  rw [isDelimiter, Bool.or_eq_true, Bool.or_eq_true, Bool.or_eq_true] at h
  simp only [cut, ofWord, List.isEmpty_nil, if_true, List.nil_append]
  split
  next => rfl
  next h1 =>
    split
    next => rfl
    next h2 =>
      split
      next => rfl
      next h3 => simp_all

theorem cut_ends {rest : List Char} (h : Ends rest) (name : List Char) :
    cut (.word name) rest = ofWord name ++ cut (.word []) rest := by
  cases rest with
  | nil => simp [cut, ofWord]
  | cons c rest => exact cut_delimiter (h c rfl) name rest

theorem cut_bare {c : Char} (h : isDelimiter c = false) (read rest : List Char) :
    cut (.word read) (c :: rest) = cut (.word (read ++ [c])) rest := by
  simp only [isDelimiter, Bool.or_eq_false_iff, decide_eq_false_iff_not] at h
  obtain ⟨⟨⟨hopen, hclose⟩, hquote⟩, hblank⟩ := h
  rw [cut, if_neg hopen, if_neg hclose, if_neg hquote, if_neg (by simp [hblank])]

theorem cut_bares {name : List Char} (h : ∀ c ∈ name, isDelimiter c = false)
    (read rest : List Char) :
    cut (.word read) (name ++ rest) = cut (.word (read ++ name)) rest := by
  induction name generalizing read with
  | nil => rw [List.nil_append, List.append_nil]
  | cons c name ih =>
    rw [List.forall_mem_cons] at h
    rw [List.cons_append, cut_bare h.1, ih h.2, List.append_assoc, List.singleton_append]

/-! ### Undoing the escapes -/

theorem hexValue?_hexDigit (n : Nat) :
    Document.Reader.hexValue? (Literal.hexDigit (n % 16)) = some (n % 16) := by
  have h : ∀ d < 16, Document.Reader.hexValue? (Literal.hexDigit d) = some d := by decide
  exact h _ (Nat.mod_lt _ (by decide))

theorem cut_hexDigit (digits unit n : Nat) (read rest : List Char) :
    cut (.code read digits unit) (Literal.hexDigit (n % 16) :: rest) =
      if digits = 1 then cut (.quoted (read ++ [Char.ofNat (unit * 16 + n % 16)])) rest
      else cut (.code read (digits - 1) (unit * 16 + n % 16)) rest := by
  rw [cut, hexValue?_hexDigit]

theorem cut_unitEscape {n : Nat} (h : n < 0x10000) (read rest : List Char) :
    cut (.quoted read) (Literal.unitEscape n ++ rest) =
      cut (.quoted (read ++ [Char.ofNat n])) rest := by
  have hunit : (((0 * 16 + n / 4096 % 16) * 16 + n / 256 % 16) * 16 + n / 16 % 16) * 16 + n % 16 =
      n := by omega
  have hopen : cut (.quoted read) (Literal.unitEscape n ++ rest) =
      cut (.code read 4 0) (Literal.hex4 n ++ rest) := rfl
  rw [hopen, Literal.hex4, List.cons_append, cut_hexDigit, if_neg (by decide), List.cons_append,
    cut_hexDigit, if_neg (by decide), List.cons_append, cut_hexDigit, if_neg (by decide),
    List.cons_append, cut_hexDigit, if_pos rfl, hunit, List.nil_append]

/-- What stands for a character inside quotes: the character itself, unless it would end the
text or begin an escape, or a backslash with a letter or with the code of the character. -/
inductive QuotedAs (c : Char) : List Char → Prop where
  | raw (hquote : c ≠ '\x22') (hslash : c ≠ '\\') : QuotedAs c [c]
  | letter {l : Char} (h : Document.Reader.simpleEscape? l = some c) : QuotedAs c ['\\', l]
  | code (h : c.toNat < 0x10000) : QuotedAs c (Literal.unitEscape c.toNat)

theorem QuotedAs.cut_eq {c : Char} {cs : List Char} (h : QuotedAs c cs) (read rest : List Char) :
    cut (.quoted read) (cs ++ rest) = cut (.quoted (read ++ [c])) rest := by
  cases h with
  | raw hquote hslash => rw [List.singleton_append, cut, if_neg hquote, if_neg hslash]
  | @letter l h =>
    have hu : l ≠ 'u' := by
      rintro rfl
      cases h
    rw [List.cons_append, List.singleton_append, cut, if_neg (by decide), if_pos rfl, cut,
      if_neg hu, h]
  | code h => rw [cut_unitEscape h, Char.ofNat_toNat]

theorem quotedAs_shortEscape {c letter : Char} (h : Literal.shortEscape? c = some letter) :
    QuotedAs c ['\\', letter] := by
  refine .letter ?_
  revert h
  fun_cases Literal.shortEscape? c
  all_goals
    rintro ⟨⟩
  all_goals
    subst_vars
    rfl

/-- A character without a letter may stand for itself. -/
theorem quotedAs_raw {c : Char} (h : Literal.shortEscape? c = none) : QuotedAs c [c] := by
  refine .raw ?_ ?_
  · rintro rfl
    cases h
  · rintro rfl
    cases h

theorem quotedAs_escapeChar (c : Char) : QuotedAs c (Literal.escapeChar .unicode c) := by
  rw [Literal.escapeChar]
  cases hs : Literal.shortEscape? c with
  | some letter => exact quotedAs_shortEscape hs
  | none =>
    simp only
    split
    next => exact quotedAs_raw hs
    next hraw =>
      have hlow : c.toNat < 0x20 := by simpa [Literal.Alphabet.isRaw] using hraw
      have hunit : c.toNat < 0x10000 := Nat.lt_trans hlow (by decide)
      simp only [Literal.codeEscape, if_pos hunit]
      exact .code hunit

section

variable {escape : Char → List Char} (h : ∀ c, QuotedAs c (escape c))

include h

/-- A text whose characters are escaped one by one. -/
theorem cut_escaped (cs read rest : List Char) :
    cut (.quoted read) (cs.flatMap escape ++ rest) = cut (.quoted (read ++ cs)) rest := by
  induction cs generalizing read with
  | nil => rw [List.flatMap_nil, List.nil_append, List.append_nil]
  | cons c cs ih =>
    rw [List.flatMap_cons, List.append_assoc, (h c).cut_eq, ih, List.append_assoc,
      List.singleton_append]

end

/-! ### Reading the layout -/

/-- A text that is cut into some tokens wherever a word ends behind it. -/
def Spells (cs : List Char) (ts : List Token) : Prop :=
  ∀ rest, Ends rest → cut (.word []) (cs ++ rest) = ts ++ cut (.word []) rest

theorem spells_word {name : List Char} (h : IsWord special name) : Spells name [.word name] := by
  intro rest hrest
  rw [cut_bares fun c hc => (h.2 c hc).1, List.nil_append, cut_ends hrest, ofWord,
    if_neg (by simpa using h.1)]

theorem spells_quoted {escape : Char → List Char} (h : ∀ c, QuotedAs c (escape c))
    (cs : List Char) : Spells ('\x22' :: cs.flatMap escape ++ ['\x22']) [.quoted cs] := by
  intro rest _
  have hquote : cut (.word []) ('\x22' :: (cs.flatMap escape ++ '\x22' :: rest)) =
      cut (.quoted []) (cs.flatMap escape ++ '\x22' :: rest) := rfl
  rw [List.cons_append, List.cons_append, List.append_assoc, List.singleton_append, hquote,
    cut_escaped h]
  rfl

theorem spells_literal (s : String) :
    Spells (Literal.literal .unicode s).toList [.quoted s.toList] := by
  rw [Literal.literal, String.toList_ofList]
  exact spells_quoted quotedAs_escapeChar s.toList

namespace Spells

variable {cs ds : List Char} {ts us : List Token}

theorem append (h : Spells cs ts) (h' : Spells ds us) (hends : Ends ds) :
    Spells (cs ++ ds) (ts ++ us) := by
  intro rest hrest
  rw [List.append_assoc, h _ (hends.append hrest), h' _ hrest, List.append_assoc]

theorem blanks (h : Spells ds us) (hblank : ∀ c ∈ cs, Blank.isBlank c = true) :
    Spells (cs ++ ds) us := by
  induction cs with
  | nil => exact h
  | cons c cs ih =>
    rw [List.forall_mem_cons] at hblank
    intro rest hrest
    rw [← ih hblank.2 rest hrest, List.cons_append, List.cons_append]
    have hmark {mark : Char} (hm : Blank.isBlank mark = false) : c ≠ mark := by
      rintro rfl
      exact absurd (hm.symm.trans hblank.1) (by decide)
    rw [cut, if_neg (hmark (by decide)), if_neg (hmark (by decide)), if_neg (hmark (by decide)),
      if_pos hblank.1]
    rfl

theorem opening (h : Spells ds us) : Spells ('(' :: ds) (.opening :: us) := by
  intro rest hrest
  rw [List.cons_append, cut, if_pos rfl, h rest hrest]
  rfl

end Spells

/-- Alone, a text is cut into the tokens that it spells. -/
theorem Spells.cut_eq {cs : List Char} {ts : List Token} (h : Spells cs ts) :
    cut (.word []) cs = ts := by
  have hcut := h [] fun c hc => by cases hc
  rwa [List.append_nil, cut, ofWord, List.isEmpty_nil, if_pos rfl, List.append_nil] at hcut

theorem spells_nil : Spells [] [] := fun _ _ => rfl

theorem spells_closing : Spells [')'] [.closing] := fun _ _ => rfl

/-- A gap ends the word in front of it. -/
theorem ends_gap {gap : List Char} (hne : gap ≠ []) (hgap : ∀ c ∈ gap, Blank.isBlank c = true)
    (rest : List Char) : Ends (gap ++ rest) := by
  obtain ⟨c, blanks, rfl⟩ := List.exists_cons_of_ne_nil hne
  refine ends_cons ?_ _
  rw [isDelimiter, hgap c List.mem_cons_self, Bool.or_true]

section

variable {spell : SExpr → List Char} {items : List SExpr}

/-- Items with a gap before each. -/
theorem spells_gaps (h : ∀ e ∈ items, Spells (spell e) e.tokens) {gap : List Char}
    (hne : gap ≠ []) (hgap : ∀ c ∈ gap, Blank.isBlank c = true) :
    Spells ((items.map spell).flatMap (gap ++ ·)) (allTokens items) ∧
      Ends ((items.map spell).flatMap (gap ++ ·)) := by
  induction items with
  | nil => exact ⟨spells_nil, fun c hc => by cases hc⟩
  | cons e rest ih =>
    rw [List.forall_mem_cons] at h
    obtain ⟨hrest, hends⟩ := ih h.2
    rw [List.map_cons, List.flatMap_cons, allTokens]
    exact ⟨(h.1.blanks hgap).append hrest hends, (ends_gap hne hgap _).append hends⟩

theorem spells_gapped {head : SExpr} {arguments : List SExpr}
    (h : ∀ e ∈ head :: arguments, Spells (spell e) e.tokens) {gap last : List Char}
    (hne : gap ≠ []) (hgap : ∀ c ∈ gap, Blank.isBlank c = true)
    (hlast : ∀ c ∈ last, Blank.isBlank c = true) :
    Spells (gapped gap last (spell head) (arguments.map spell))
      (form (head :: arguments)).tokens := by
  rw [List.forall_mem_cons] at h
  obtain ⟨hitems, hends⟩ := spells_gaps h.2 hne hgap
  have hclose : Ends (last ++ [')']) := by
    cases last with
    | nil => exact ends_cons (by decide) _
    | cons c blanks => exact ends_gap (List.cons_ne_nil _ _) hlast _
  rw [gapped, tokens, allTokens, List.append_assoc]
  exact (h.1.append (hitems.append (spells_closing.blanks hlast) hclose)
    (hends.append hclose)).opening

theorem spells_flatForm (h : ∀ e ∈ items, Spells (spell e) e.tokens) :
    Spells (flatForm (items.map spell)) (form items).tokens := by
  cases items with
  | nil => exact spells_closing.opening
  | cons head arguments =>
    rw [List.map_cons, flatForm_cons]
    exact spells_gapped h (List.cons_ne_nil _ _) (List.forall_mem_singleton.mpr (by decide))
      (List.forall_mem_nil _)

theorem spells_layoutForm (h : ∀ e ∈ items, Spells (spell e) e.tokens) (indent width : Int) :
    Spells (layoutForm indent width (items.map spell)) (form items).tokens := by
  cases items with
  | nil => exact spells_closing.opening
  | cons head arguments =>
    obtain ⟨gap, last, ⟨hne, hgap⟩, hlast, -, heq⟩ :=
      exists_layoutForm_eq indent width (spell head) (arguments.map spell)
    rw [List.map_cons, heq]
    exact spells_gapped h hne hgap hlast

end

theorem layouts_eq_map (indent width : Int) (items : List SExpr) :
    layouts indent width items = items.map (layout indent width) := by
  induction items with
  | nil => rw [layouts, List.map_nil]
  | cons e rest ih => rw [layouts, List.map_cons, ih]

/-- The layout of a tree spells the tokens of the tree. -/
theorem spells_layout {e : SExpr} (h : e.Readable special) (indent width : Int) :
    Spells (layout indent width e) e.tokens := by
  induction h generalizing indent with
  | symbol h =>
    rw [layout, tokens]
    exact spells_word h
  | text content =>
    rw [layout, tokens]
    exact spells_literal content
  | form _ ih =>
    -- the items stand one step deeper, and are laid out before the form decides to break
    rw [layout, layouts_eq_map]
    exact spells_layoutForm (fun e he => ih e he (indent + 1)) indent width

/-- A text that spells the tokens of a tree is read as that tree. -/
theorem read?_of_spells {e : SExpr} (h : e.Readable special) {s : String}
    (hs : Spells s.toList e.tokens) : read? s = some e := by
  rw [read?, hs.cut_eq, build_tokens_eq h]

/-- A tree is read back from its layout. -/
theorem read?_pretty {e : SExpr} (h : e.Readable special) (indent width : Int) :
    read? (e.pretty indent width) = some e := by
  refine read?_of_spells h ?_
  rw [pretty, String.toList_ofList]
  exact spells_layout h indent width

end ApiTypes.SExpr
