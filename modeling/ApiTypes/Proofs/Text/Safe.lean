import ApiTypes.Proofs.Text.Scan

/-! What the escapes keep inside. A description cannot hold an end of comment after its
lines have been escaped, a quoted text escapes its quotes and its backslashes, and a bare
key holds neither slashes nor quotes, so documentation blocks, literals and keys are
safe whatever text they are made from. -/

namespace ApiTypes

open Text Scan

/-! ### Classes of characters -/

/-- A text of characters of one class. -/
def Over (P : Char → Prop) (x : String) : Prop :=
  ∀ c ∈ x.toList, P c

/-- A class with the characters of plain words. -/
def OfWords (P : Char → Prop) : Prop :=
  ∀ c, PropertyKey.isWordChar c = true → P c

section

variable {P : Char → Prop}

instance [DecidablePred P] (x : String) : Decidable (Over P x) :=
  List.decidableBAll P x.toList

/-- A character that opens neither a comment nor a literal. -/
def Bare (c : Char) : Prop :=
  c ≠ '/' ∧ c ≠ '\x22'

theorem ofWords_bare : OfWords Bare := by
  intro c hc
  constructor
  · rintro rfl
    exact absurd hc (by decide)
  · rintro rfl
    exact absurd hc (by decide)

theorem OfWords.over (hword : OfWords P) {x : String}
    (h : x.toList.all PropertyKey.isWordChar = true) : Over P x :=
  fun c hc => hword c (List.all_eq_true.mp h c hc)

theorem Over.append {x y : String} (hx : Over P x) (hy : Over P y) : Over P (x ++ y) := by
  rw [Over, String.toList_append]
  exact List.forall_mem_append.mpr ⟨hx, hy⟩

end

namespace Scan

/-- Two texts without an end of comment are joined into one without it, unless it is split
between them. -/
theorem not_infix_append {a b : List Char} (ha : ¬ endOfComment <:+: a)
    (hb : ¬ endOfComment <:+: b) (hsplit : a.getLast? ≠ some '*' ∨ b.head? ≠ some '/') :
    ¬ endOfComment <:+: a ++ b := by
  induction a with
  | nil => exact hb
  | cons c a ih =>
    rw [List.infix_cons_iff, not_or] at ha
    rw [List.cons_append, List.infix_cons_iff, not_or]
    cases a with
    | nil =>
      refine ⟨?_, hb⟩
      rintro ⟨rest, hr⟩
      obtain ⟨rfl, rfl⟩ := List.cons.inj hr
      exact hsplit.elim (fun h => h rfl) (fun h => h rfl)
    | cons d a =>
      refine ⟨?_, ih ha.2 (by rwa [List.getLast?_cons_cons] at hsplit)⟩
      rintro ⟨rest, hr⟩
      obtain ⟨rfl, hrest⟩ := List.cons.inj hr
      obtain ⟨rfl, -⟩ := List.cons.inj hrest
      exact ha.1 ⟨a, rfl⟩

theorem not_infix_of_notMem {cs : List Char} (h : '*' ∉ cs) : ¬ endOfComment <:+: cs :=
  fun hi => h (hi.subset List.mem_cons_self)

theorem head?_escapeEnd (cs : List Char) : (DocBlock.escapeEnd cs).head? = cs.head? := by
  fun_cases DocBlock.escapeEnd cs <;> rfl

theorem not_infix_escapeEnd (cs : List Char) : ¬ endOfComment <:+: DocBlock.escapeEnd cs := by
  fun_induction DocBlock.escapeEnd cs with
  | case1 rest ih =>
    refine not_infix_append (a := ['*', '\\']) (by decide) ?_ (.inl (by decide))
    exact not_infix_append (a := ['/']) (by decide) ih (.inl (by decide))
  | case2 c rest hpair ih =>
    refine not_infix_append (a := [c]) ?_ ih ?_
    · intro h
      have hlength := h.length_le
      simp [endOfComment] at hlength
    · rw [head?_escapeEnd, ← not_and_or]
      rintro ⟨hc, hr⟩
      obtain ⟨more, rfl⟩ := List.head?_eq_some_iff.mp hr
      exact hpair more (Option.some.inj hc) rfl
  | case3 => decide

theorem not_infix_docBody {margin : List Char} (h : ∀ c ∈ margin, c = ' ')
    (lines : List (List Char)) : ¬ endOfComment <:+: Segment.docBody margin lines := by
  have hmargin : ∀ c ∈ margin ++ [' '], c = ' ' :=
    List.forall_mem_append.mpr ⟨h, List.forall_mem_singleton.mpr rfl⟩
  have hstar : '*' ∉ margin ++ [' '] := fun hm => absurd (hmargin _ hm) (by decide)
  have hlead : ¬ endOfComment <:+: margin ++ " * ".toList :=
    not_infix_append (not_infix_of_notMem fun hm => hstar (List.mem_append_left _ hm)) (by decide)
      (.inr (by decide))
  have hline : ∀ line,
      ¬ endOfComment <:+: margin ++ " * ".toList ++ DocBlock.escapeEnd line ++ ['\n'] := fun line =>
    not_infix_append (not_infix_append hlead (not_infix_escapeEnd line) (.inl (by simp)))
      (by decide) (.inr (by decide))
  have hlines : ¬ endOfComment <:+: lines.flatMap fun line =>
      margin ++ " * ".toList ++ DocBlock.escapeEnd line ++ ['\n'] := by
    induction lines with
    | nil => exact not_infix_of_notMem List.not_mem_nil
    | cons line rest ih =>
      rw [List.flatMap_cons]
      exact not_infix_append (hline line) ih (.inl (by rw [List.getLast?_concat]; decide))
  rw [Segment.docBody, List.append_assoc, List.append_assoc]
  refine not_infix_append (by decide) ?_ (.inl (by decide))
  refine not_infix_append hlines (not_infix_of_notMem hstar) (.inr fun hhead => ?_)
  exact absurd (hmargin _ (List.mem_of_mem_head? hhead)) (by decide)

/-! ### Literals -/

theorem hexDigit_raw (n : Nat) :
    Literal.hexDigit (n % 16) ≠ '\x22' ∧ Literal.hexDigit (n % 16) ≠ '\\' := by
  have h : ∀ d < 16, Literal.hexDigit d ≠ '\x22' ∧ Literal.hexDigit d ≠ '\\' := by decide
  exact h _ (Nat.mod_lt _ (by decide))

theorem escaped_unitEscape (n : Nat) : Escaped (Literal.unitEscape n) := by
  have hraw (m : Nat) {cs : List Char} (h : Escaped cs) :
      Escaped (Literal.hexDigit (m % 16) :: cs) :=
    .raw (hexDigit_raw m).1 (hexDigit_raw m).2 h
  exact .pair 'u' (hraw _ (hraw _ (hraw _ (hraw _ .nil))))

theorem escaped_escapeChar (alphabet : Literal.Alphabet) (c : Char) :
    Escaped (Literal.escapeChar alphabet c) := by
  rw [Literal.escapeChar]
  cases hs : Literal.shortEscape? c with
  | some letter => exact .pair letter .nil
  | none =>
    simp only
    split
    next =>
      rw [Literal.shortEscape?] at hs
      refine .raw ?_ ?_ .nil
      · rintro rfl
        cases hs
      · rintro rfl
        cases hs
    next =>
      rw [Literal.codeEscape]
      split
      · exact escaped_unitEscape _
      · exact (escaped_unitEscape _).append (escaped_unitEscape _)

theorem escaped_body (alphabet : Literal.Alphabet) (cs : List Char) :
    Escaped (Literal.body alphabet cs) := by
  induction cs with
  | nil => exact .nil
  | cons c rest ih =>
    rw [Literal.body, List.flatMap_cons]
    exact (escaped_escapeChar alphabet c).append ih

/-! ### Names -/

theorem plain_append {cs ds : List Char} (hc : Plain cs) (hd : Plain ds) : Plain (cs ++ ds) :=
  List.forall_mem_append.mpr ⟨hc, hd⟩

theorem plain_of_word {cs : List Char} (h : ∀ c ∈ cs, PropertyKey.isWordChar c = true) :
    Plain cs :=
  fun c hc => ofWords_bare c (h c hc)

theorem word_of_isIdentifier {cs : List Char} (h : PropertyKey.isIdentifier cs = true) :
    ∀ c ∈ cs, PropertyKey.isWordChar c = true := by
  cases cs with
  | nil => cases h
  | cons c rest =>
    rw [PropertyKey.isIdentifier, Bool.and_eq_true, List.all_eq_true] at h
    rw [List.forall_mem_cons]
    exact ⟨by simp only [PropertyKey.isWordChar, h.1, Bool.true_or], h.2⟩

end Scan

namespace Segment

/-- A segment that a scan finds as it is meant, whatever stands around it. -/
def Safe (s : Segment) : Prop :=
  s.Marked ∧ s.Closed

theorem safe_code {s : String} (h : Plain s.toList) : (code s).Safe :=
  ⟨h, trivial⟩

theorem safe_quote (alphabet : Literal.Alphabet) (s : String) : (quote alphabet s).Safe :=
  ⟨escaped_body alphabet s.toList, trivial⟩

theorem safe_key (name : String) : (key name).Safe := by
  rw [key]
  split
  next h => exact safe_code (plain_of_word (word_of_isIdentifier h))
  next => exact safe_quote .unicode name

theorem safe_doc (description : Option String) (deprecated : Bool) (indent : Nat) :
    ∀ s ∈ doc description deprecated indent, s.Safe := by
  rw [doc]
  split
  next => exact List.forall_mem_nil _
  next =>
    rw [List.forall_mem_cons, List.forall_mem_cons, List.forall_mem_singleton]
    have hmargin : ∀ c ∈ List.replicate (2 * indent) ' ', c = ' ' := fun c =>
      List.eq_of_mem_replicate
    refine ⟨safe_code ?_, ⟨trivial, not_infix_docBody hmargin _⟩, safe_code (by decide)⟩
    rw [String.toList_ofList]
    intro c hc
    rw [hmargin c hc]
    decide

end Segment

end ApiTypes
