import ApiTypes.Proofs.Text.Literal
import Mathlib.Computability.RegularExpressions

/-! Keys. The pattern of plain identifiers is an ASCII letter and then ASCII letters, digits and
underscores. A name that matches it as a whole is its own key, and the key of any other name is
its literal. A literal opens with a quote, which no plain identifier does, and can be read back, so
different names have different keys. -/

namespace ApiTypes.Text.PropertyKey

open RegularExpression (char star)

/-! ### The pattern of plain identifiers -/

/-- The characters from one to another by their codes. -/
def between (first last : Char) : List Char :=
  (List.range' first.toNat (last.toNat + 1 - first.toNat)).map Char.ofNat

/-- One character out of some. -/
def oneOf : List Char → RegularExpression Char
  | [] => 0
  | c :: cs => char c + oneOf cs

def letters : List Char :=
  between 'A' 'Z' ++ between 'a' 'z'

def wordChars : List Char :=
  letters ++ between '0' '9' ++ ['_']

/-- A letter, and then any number of letters, digits and underscores. -/
def identifier : RegularExpression Char :=
  oneOf letters * star (oneOf wordChars)

theorem mem_between {first last c : Char} (hlast : last.toNat < 0xd800) :
    c ∈ between first last ↔ first ≤ c ∧ c ≤ last := by
  have hle (a b : Char) : a ≤ b ↔ a.toNat ≤ b.toNat := Iff.rfl
  rw [between, List.mem_map, hle, hle]
  constructor
  · rintro ⟨n, hn, rfl⟩
    rw [List.mem_range'_1] at hn
    have hvalid : n.isValidChar := .inl (by omega)
    have hcode : (Char.ofNat n).toNat = n := by
      rw [Char.ofNat, dif_pos hvalid]
      rfl
    omega
  · rintro ⟨hfirst, hlast⟩
    refine ⟨c.toNat, ?_, Char.ofNat_toNat c⟩
    rw [List.mem_range'_1]
    omega

theorem mem_letters (c : Char) : c ∈ letters ↔ isLetter c = true := by
  rw [letters, List.mem_append, mem_between (by decide), mem_between (by decide), isLetter]
  simp only [Bool.or_eq_true, Bool.and_eq_true, decide_eq_true_eq, or_comm]

theorem mem_wordChars (c : Char) : c ∈ wordChars ↔ isWordChar c = true := by
  rw [wordChars, List.mem_append, List.mem_append, List.mem_singleton, mem_letters,
    mem_between (by decide), isWordChar]
  simp only [Bool.or_eq_true, Bool.and_eq_true, decide_eq_true_eq]

theorem mem_oneOf (cs word : List Char) : word ∈ (oneOf cs).matches' ↔ ∃ c ∈ cs, word = [c] := by
  induction cs with
  | nil => simp [oneOf, Language.notMem_zero]
  | cons c cs ih =>
    have hchar : word ∈ (char c).matches' ↔ word = [c] := Iff.rfl
    rw [oneOf, RegularExpression.matches'_add, Language.mem_add, ih, hchar]
    simp only [List.mem_cons, exists_eq_or_imp]

theorem mem_star_oneOf (cs word : List Char) :
    word ∈ (star (oneOf cs)).matches' ↔ ∀ c ∈ word, c ∈ cs := by
  rw [RegularExpression.matches'_star, Language.mem_kstar]
  constructor
  · rintro ⟨words, rfl, hwords⟩ c hc
    obtain ⟨word, hword, hcw⟩ := List.mem_flatten.mp hc
    obtain ⟨d, hd, rfl⟩ := (mem_oneOf cs word).mp (hwords word hword)
    rwa [List.mem_singleton.mp hcw]
  · intro h
    refine ⟨word.map fun c => [c], ?_, ?_⟩
    · exact (List.flatMap_singleton' word).symm
    · intro y hy
      obtain ⟨c, hc, rfl⟩ := List.mem_map.mp hy
      exact (mem_oneOf cs [c]).mpr ⟨c, h c hc, rfl⟩

/-- The check for plain identifiers decides the pattern. -/
theorem isIdentifier_iff (cs : List Char) :
    isIdentifier cs = true ↔ cs ∈ identifier.matches' := by
  rw [identifier, RegularExpression.matches'_mul, Language.mem_mul]
  constructor
  · intro h
    cases cs with
    | nil => cases h
    | cons c rest =>
      rw [isIdentifier, Bool.and_eq_true, List.all_eq_true] at h
      refine ⟨[c], (mem_oneOf ..).mpr ⟨c, (mem_letters c).mpr h.1, rfl⟩, rest, ?_, rfl⟩
      exact (mem_star_oneOf ..).mpr fun d hd => (mem_wordChars d).mpr (h.2 d hd)
  · rintro ⟨first, hfirst, rest, hrest, rfl⟩
    obtain ⟨c, hc, rfl⟩ := (mem_oneOf ..).mp hfirst
    rw [List.singleton_append, isIdentifier, Bool.and_eq_true, List.all_eq_true]
    exact ⟨(mem_letters c).mp hc,
      fun d hd => (mem_wordChars d).mp ((mem_star_oneOf ..).mp hrest d hd)⟩

/-! ### Names and their keys -/

theorem key_eq (name : String) :
    key name =
      if name.toList ∈ identifier.matches' then name else Literal.literal .unicode name := by
  simp only [key, isIdentifier_iff]

theorem literal_ne (a : Literal.Alphabet) (s : String) : Literal.literal a s ≠ s := by
  intro h
  have hlength := Document.Reader.length_le_body a s.toList
  have hs := congrArg (fun t : String => t.toList.length) h
  simp only [Literal.literal, String.toList_ofList, List.cons_append, List.length_cons,
    List.length_append, List.length_nil] at hs
  omega

/-- Literals can be read back, so they tell texts apart. -/
theorem literal_injective (a : Literal.Alphabet) : Function.Injective (Literal.literal a) := by
  intro s t h
  have hs := Document.Reader.document_literal a s
  rw [h, Document.Reader.document_literal a t] at hs
  exact (Document.text.inj (Except.ok.inj hs)).symm

/-- No plain identifier is a literal, which opens with a quote. -/
theorem literal_notMem_identifier (a : Literal.Alphabet) (s : String) :
    (Literal.literal a s).toList ∉ identifier.matches' := by
  rw [← isIdentifier_iff, Literal.literal, String.toList_ofList, List.cons_append, isIdentifier]
  simp [isLetter]

theorem key_injective : Function.Injective key := by
  intro s t h
  rw [key_eq, key_eq] at h
  by_cases hs : s.toList ∈ identifier.matches' <;> by_cases ht : t.toList ∈ identifier.matches'
  · rwa [if_pos hs, if_pos ht] at h
  · rw [if_pos hs, if_neg ht] at h
    exact absurd (h ▸ hs) (literal_notMem_identifier .unicode t)
  · rw [if_neg hs, if_pos ht] at h
    exact absurd (h ▸ ht) (literal_notMem_identifier .unicode s)
  · rw [if_neg hs, if_neg ht] at h
    exact literal_injective .unicode h

/-- A text that is one literal, and the text that it denotes. -/
structure Denotes (written s : String) : Prop where
  /-- Between the quotes that it opens and closes with, no quote stands alone and no control
  character stands raw. -/
  quoted : ∃ body, written.toList = '\x22' :: body ++ ['\x22'] ∧ Grammar.IsLiteral body ∧
    Scan.tokens written = [.literal body]
  read : Document.Reader.document written = .ok (.text s)

/-- A scan finds one literal in a literal. -/
theorem tokens_literal (a : Literal.Alphabet) (s : String) :
    Scan.tokens (Literal.literal a s) = [.literal (Literal.body a s.toList)] := by
  have hsafe := Segment.safe_quote a s
  rw [← Segment.text_quote, (Segment.tokens_text_iff (List.forall_mem_singleton.mpr hsafe.1)).mpr
    (List.forall_mem_singleton.mpr hsafe.2)]
  rfl

theorem denotes_literal (s : String) : Denotes (Literal.literal .unicode s) s where
  quoted := ⟨_, String.toList_ofList, isLiteral_body s.toList, tokens_literal .unicode s⟩
  read := Document.Reader.document_literal .unicode s

/-- Literals and keys denote their texts. -/
theorem literal_and_key_denote (s : String) :
    Denotes (Label.literal s) s ∧
      (key s = s ↔ s.toList ∈ identifier.matches') ∧
      (s.toList ∉ identifier.matches' → key s = Label.literal s) ∧
      PropertyKey.ofLabel s = .ok (key s) ∧ Function.Injective key := by
  have hliteral : Label.literal s = Literal.literal .unicode s := Document.literal_text s
  rw [hliteral, key_eq]
  refine ⟨denotes_literal s, ?_, fun h => if_neg h, ?_, key_injective⟩
  · split
    next h => exact iff_of_true rfl h
    next h => exact iff_of_false (literal_ne .unicode s) h
  · rw [← key_eq]
    rfl

end ApiTypes.Text.PropertyKey
