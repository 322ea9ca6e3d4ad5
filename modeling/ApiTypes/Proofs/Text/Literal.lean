import ApiTypes.Proofs.Grammar.Derivation

/-! What literals stand for. Reading a literal undoes its escapes one by one, the short ones, the
four digits of a code unit and the two units of a surrogate pair. So a literal is a document, which
is read back as the text that it was written for, in either alphabet. -/

namespace ApiTypes

open Text Literal

/-! ### Reading escapes -/

namespace Document.Reader

theorem hexValue?_hexDigit (n : Nat) : hexValue? (hexDigit (n % 16)) = some (n % 16) := by
  have h : ∀ d < 16, hexValue? (hexDigit d) = some d := by decide
  exact h _ (Nat.mod_lt _ (by decide))

theorem codeUnit?_hex4 {n : Nat} (h : n < 0x10000) (next : Char) (rest : List Char) :
    codeUnit? (hex4 n ++ next :: rest) = some (n, next :: rest) := by
  have hdigits : ((n / 4096 % 16 * 16 + n / 256 % 16) * 16 + n / 16 % 16) * 16 + n % 16 = n := by
    omega
  simp [hex4, codeUnit?, hexValue?_hexDigit, hdigits]

/-- A code unit that is not the first half of a pair is read on its own. -/
theorem codeEscape_unit {n : Nat} (h : n < 0x10000) (hhigh : isHigh n = false)
    (atLetter : List Char) (next : Char) (rest : List Char) :
    codeEscape atLetter (hex4 n ++ next :: rest) = .ok (ofUnit n, next :: rest) := by
  rw [codeEscape, codeUnit?_hex4 h]
  simp only [hhigh, Bool.false_eq_true, if_false]
  split <;> rfl

/-- The two halves of a pair are read together. -/
theorem codeEscape_pair {high low : Nat} (hh : isHigh high = true) (hl : isLow low = true)
    (atLetter : List Char) (next : Char) (rest : List Char) :
    codeEscape atLetter (hex4 high ++ (unitEscape low ++ next :: rest)) =
      .ok (ofPair high low, next :: rest) := by
  have hhigh : high < 0x10000 := by simp [isHigh] at hh; omega
  have hlow : low < 0x10000 := by simp [isLow] at hl; omega
  have hsecond := codeUnit?_hex4 hlow next rest
  rw [codeEscape, unitEscape, List.cons_append, List.cons_append, codeUnit?_hex4 hhigh]
  simp only [hex4, List.cons_append, List.nil_append] at hsecond ⊢
  rw [if_pos hh, hsecond]
  simp only [hl, if_true]

theorem simpleEscape?_shortEscape {c letter : Char} (h : shortEscape? c = some letter) :
    letter ≠ 'u' ∧ simpleEscape? letter = some c := by
  rw [shortEscape?] at h
  split_ifs at h <;> · obtain rfl := Option.some.inj h; subst_vars; decide

/-! ### Reading texts -/

theorem textBody_unicode {after beyond : List Char} {c : Char} (start : List Char) (fuel : Nat)
    (done : List Char) (h : ∀ atLetter, codeEscape atLetter after = .ok (c, beyond)) :
    textBody start (fuel + 1) done ('\\' :: 'u' :: after) =
      textBody start fuel (c :: done) beyond := by
  simp [textBody, h]

theorem ofUnit_toNat (c : Char) : ofUnit c.toNat = c := by
  have hvalid : c.toNat < 0xd800 ∨ 0xdfff < c.toNat ∧ c.toNat < 0x110000 := c.valid
  have hhalf : (isHigh c.toNat || isLow c.toNat) = false := by
    simp only [isHigh, isLow, Bool.or_eq_false_iff, Bool.and_eq_false_iff, decide_eq_false_iff_not]
    omega
  rw [ofUnit, hhalf]
  exact Char.ofNat_toNat c

/-- A character beyond the first plane is written as two units. -/
theorem ofPair_toNat {c : Char} (h : ¬ c.toNat < 0x10000) :
    ofPair (0xd800 + (c.toNat - 0x10000) / 0x400) (0xdc00 + (c.toNat - 0x10000) % 0x400) = c := by
  have hsum : 0x10000 + (0xd800 + (c.toNat - 0x10000) / 0x400 - 0xd800) * 0x400 +
      (0xdc00 + (c.toNat - 0x10000) % 0x400 - 0xdc00) = c.toNat := by omega
  rw [ofPair, hsum]
  exact Char.ofNat_toNat c

theorem textBody_codeEscape (start : List Char) (fuel : Nat) (done : List Char) (c next : Char)
    (rest : List Char) :
    textBody start (fuel + 1) done (Literal.codeEscape c ++ next :: rest) =
      textBody start fuel (c :: done) (next :: rest) := by
  have hvalid : c.toNat < 0xd800 ∨ 0xdfff < c.toNat ∧ c.toNat < 0x110000 := c.valid
  rw [Literal.codeEscape]
  split
  next hunit =>
    have hhigh : isHigh c.toNat = false := by
      simp only [isHigh, Bool.and_eq_false_iff, decide_eq_false_iff_not]
      omega
    refine textBody_unicode start fuel done fun atLetter => ?_
    have hread := codeEscape_unit hunit hhigh atLetter next rest
    rwa [ofUnit_toNat] at hread
  next hpair =>
    have hhigh : isHigh (0xd800 + (c.toNat - 0x10000) / 0x400) = true := by
      simp only [isHigh, Bool.and_eq_true, decide_eq_true_eq]
      omega
    have hlow : isLow (0xdc00 + (c.toNat - 0x10000) % 0x400) = true := by
      simp only [isLow, Bool.and_eq_true, decide_eq_true_eq]
      omega
    rw [List.append_assoc]
    refine textBody_unicode start fuel done fun atLetter => ?_
    have hread := codeEscape_pair hhigh hlow atLetter next rest
    rwa [ofPair_toNat hpair] at hread

/-- What was written for a character is read as the character, at the cost of one unit. -/
theorem textBody_escapeChar (a : Alphabet) (start : List Char) (fuel : Nat) (done : List Char)
    (c next : Char) (rest : List Char) :
    textBody start (fuel + 1) done (escapeChar a c ++ next :: rest) =
      textBody start fuel (c :: done) (next :: rest) := by
  rw [escapeChar]
  cases hs : shortEscape? c with
  | some letter =>
    obtain ⟨hletter, hsimple⟩ := simpleEscape?_shortEscape hs
    simp [textBody, hletter, hsimple]
  | none =>
    simp only
    split
    next hraw =>
      have hplain : c ≠ '\x22' ∧ c ≠ '\\' := by
        constructor <;> · rintro rfl; cases hs
      have hprinted : ¬ c.toNat < 0x20 := by
        rw [Alphabet.isRaw, Bool.and_eq_true, decide_eq_true_eq] at hraw
        omega
      rw [List.singleton_append, textBody, if_neg hplain.1, if_neg hplain.2, if_neg hprinted]
    next => exact textBody_codeEscape start fuel done c next rest

/-- The body of a literal is read as its text, up to the closing quote. -/
theorem textBody_body (a : Alphabet) (start : List Char) (cs done rest : List Char) {fuel : Nat}
    (h : cs.length < fuel) :
    textBody start fuel done (body a cs ++ '\x22' :: rest) =
      .ok (String.ofList (done.reverse ++ cs), rest) := by
  induction cs generalizing done fuel with
  | nil =>
    obtain ⟨fuel, rfl⟩ := Nat.exists_eq_add_of_lt h
    simp [body, textBody]
  | cons c cs ih =>
    obtain ⟨fuel, rfl⟩ : ∃ k, fuel = k + 1 := ⟨fuel - 1, by omega⟩
    rw [List.length_cons] at h
    have hchar : ∃ next more, body a cs ++ '\x22' :: rest = next :: more := by
      cases body a cs with
      | nil => exact ⟨_, _, rfl⟩
      | cons next more => exact ⟨next, more ++ '\x22' :: rest, rfl⟩
    have hlt : cs.length < fuel := by omega
    have hrest := ih (c :: done) hlt
    obtain ⟨next, more, hmore⟩ := hchar
    rw [body, List.flatMap_cons, ← body, List.append_assoc, hmore, textBody_escapeChar, ← hmore,
      hrest, List.reverse_cons, List.append_assoc, List.singleton_append]

theorem length_le_body (a : Alphabet) (cs : List Char) : cs.length ≤ (body a cs).length := by
  have hchar : ∀ c, 1 ≤ (escapeChar a c).length := by
    intro c
    fun_cases escapeChar a c with
    | case1 | case2 => simp
    | case3 =>
      rw [Literal.codeEscape]
      split <;> simp [unitEscape]
  induction cs with
  | nil => exact Nat.zero_le _
  | cons c cs ih =>
    have hc := hchar c
    rw [body, List.flatMap_cons, ← body, List.length_append, List.length_cons]
    omega

/-- A document that opens with a quote is a text, if it ends with it. -/
theorem readAll_quote {cs : List Char} {s : String}
    (h : textBody ('\x22' :: cs) (2 * ('\x22' :: cs).length) [] cs = .ok (s, [])) :
    readAll ('\x22' :: cs) = .ok (.text s) := by
  have hread : read (2 * ('\x22' :: cs).length + 1) depthLimit .value ('\x22' :: cs) =
      .ok (.text s, []) := by
    rw [read, if_pos rfl, h]
    rfl
  have hskip : skipSpace ('\x22' :: cs) = '\x22' :: cs := rfl
  rw [readAll, hskip, hread]
  · rfl
  · intro rest hmark
    exact absurd (List.cons.inj hmark).1 (by decide)

/-- A literal is a document of its own: the text that it was written for. -/
theorem document_literal (a : Alphabet) (s : String) :
    document (Literal.literal a s) = .ok (.text s) := by
  have hlength := length_le_body a s.toList
  have hread : readAll ('\x22' :: (body a s.toList ++ ['\x22'])) = .ok (.text s) := by
    refine readAll_quote ?_
    rw [textBody_body a _ s.toList [] [], List.reverse_nil, List.nil_append, String.ofList_toList]
    rw [List.length_cons, List.length_append]
    omega
  rw [document, Literal.literal, String.toList_ofList, List.cons_append, hread]
  rfl

end Document.Reader

end ApiTypes
