import ApiTypes.Document.Printer

/-! Values on one line. The form of messages escapes every line break inside a text, and numbers
are written with digits and a few marks, so this form of a value holds no line break, however deep
the texts lie in it. -/

namespace ApiTypes

/-! ### Numbers -/

theorem newline_notMem_toDigits (n : Nat) : '\n' ∉ Nat.toDigits 10 n := by
  intro h
  exact absurd (Nat.isDigit_of_mem_toDigits (by decide) (by decide) h) (by decide)

theorem newline_notMem_int (n : Int) : '\n' ∉ (toString n).toList := by
  rw [Int.toString_eq_repr, Int.repr_eq_if]
  split
  · rw [Nat.toList_repr]
    exact newline_notMem_toDigits _
  · rw [String.toList_append, Nat.toList_repr, List.mem_append, not_or]
    exact ⟨by decide, newline_notMem_toDigits _⟩

namespace Number.Shortest

theorem newline_notMem_digitsOf (mantissa : Nat) (exponent : Int) :
    '\n' ∉ (digitsOf mantissa exponent).digits := by
  rw [digitsOf]
  simp only [List.mem_reverse]
  intro h
  exact newline_notMem_toDigits _ (List.mem_reverse.mp ((List.dropWhile_sublist _).subset h))

theorem newline_notMem_positional {ds : List Char} (h : '\n' ∉ ds) (exponent : Int) :
    '\n' ∉ Layout.positional ds exponent := by
  have htake (k : Nat) : '\n' ∉ ds.take k := fun hm => h (List.mem_of_mem_take hm)
  have hdrop (k : Nat) : '\n' ∉ ds.drop k := fun hm => h (List.mem_of_mem_drop hm)
  cases exponent with
  | negSucc k => simp [Layout.positional, h]
  | ofNat k =>
    rw [Layout.positional]
    split <;> simp [h, htake, hdrop]

theorem newline_notMem_scientific {ds : List Char} (h : '\n' ∉ ds) (layout : Layout)
    (exponent : Int) : '\n' ∉ layout.scientific ds exponent := by
  have hpadded (width n : Nat) : '\n' ∉ padded width n := by
    simp [padded, newline_notMem_toDigits]
  have hsign : (if exponent < 0 then '-' else '+') ≠ '\n' := by split <;> decide
  -- a point stands behind the first of several digits
  rcases ds with _ | ⟨first, _ | ⟨second, rest⟩⟩ <;>
    simp_all [Layout.scientific, eq_comm]

theorem newline_notMem_text (negative : Bool) (mantissa : Nat) (exponent : Int) :
    '\n' ∉ (text negative mantissa exponent).toList := by
  have hwrite : '\n' ∉ standard.write (digitsOf mantissa exponent) := by
    rw [Layout.write]
    split
    · exact newline_notMem_positional (newline_notMem_digitsOf mantissa exponent) _
    · exact newline_notMem_scientific (newline_notMem_digitsOf mantissa exponent) standard _
  rw [text, String.toList_ofList]
  cases negative <;> by_cases h : mantissa = 0 <;> simp [h, hwrite]

end Number.Shortest

/-! ### Texts -/

namespace Text

theorem Literal.hexDigit_ne_newline (n : Nat) : '\n' ≠ hexDigit (n % 16) := by
  have hdigit : ∀ d < 16, '\n' ≠ hexDigit d := by decide
  exact hdigit _ (Nat.mod_lt n (by decide))

theorem Literal.newline_notMem_hex4 (n : Nat) : '\n' ∉ hex4 n := by
  simp [hex4, hexDigit_ne_newline]

theorem Literal.newline_notMem_escapeChar (c : Char) : '\n' ∉ escapeChar .unicode c := by
  fun_cases escapeChar .unicode c with
  | case1 letter h =>
    have hletter : '\n' ≠ letter := by
      rintro rfl
      revert h
      fun_cases shortEscape? c <;> simp
    simp [hletter]
  | case2 _ hraw =>
    have hc : '\n' ≠ c := by
      rintro rfl
      exact absurd hraw (by decide)
    simp [hc]
  | case3 _ _ =>
    simp only [codeEscape, unitEscape]
    split <;> simp [newline_notMem_hex4]

namespace Quoted

open Literal (hexDigit_ne_newline newline_notMem_hex4)

theorem newline_notMem_codeEscape (c : Char) : '\n' ∉ codeEscape c := by
  simp only [codeEscape]
  split
  · simp [hexDigit_ne_newline]
  · split <;> simp [newline_notMem_hex4]

theorem newline_notMem_escapeChar {quote : Char} (hq : '\n' ≠ quote) (c : Char) :
    '\n' ∉ escapeChar quote c := by
  fun_cases escapeChar quote c with
  | case1 h =>
    have hc : '\n' ≠ c := by
      rintro rfl
      simp [hq] at h
    simp [hc]
  | case2 | case3 | case4 => simp
  | case5 _ _ h =>
    have hc : '\n' ≠ c := by
      rintro rfl
      contradiction
    simp [hc]
  | case6 => exact newline_notMem_codeEscape c

theorem newline_notMem_quoted (s : String) : '\n' ∉ (quoted s).toList := by
  have hmark : '\n' ≠ mark s.toList := by
    rw [mark]
    split <;> decide
  simp only [quoted, String.toList_ofList, List.cons_append, List.mem_cons, List.mem_append,
    List.mem_flatMap, List.not_mem_nil, or_false, not_or, not_exists, not_and]
  exact ⟨hmark, fun c _ => newline_notMem_escapeChar hmark c, hmark⟩

end Quoted

end Text

/-! ### Values -/

namespace Document

theorem newline_notMem_intercalate {separator : String} (hs : '\n' ∉ separator.toList)
    {texts : List String} (h : ∀ s ∈ texts, '\n' ∉ s.toList) :
    '\n' ∉ (separator.intercalate texts).toList := by
  induction texts with
  | nil => simp
  | cons s rest ih =>
    rw [List.forall_mem_cons] at h
    cases rest with
    | nil => simpa using h.1
    | cons t rest =>
      rw [String.intercalate_cons_cons, String.toList_append, String.toList_append]
      simp only [List.mem_append, not_or]
      exact ⟨⟨h.1, hs⟩, ih h.2⟩

theorem separator_oneLine : '\n' ∉ ", ".toList := by decide

mutual

/-- The form of messages holds no line break. -/
theorem newline_notMem_quoted (doc : Document) : '\n' ∉ doc.quoted.toList := by
  cases doc with
  | null => decide
  | bool b => cases b <;> decide
  | integer n =>
    rw [quoted]
    exact newline_notMem_int n
  | real x =>
    rw [quoted]
    cases x with
    | finite negative mantissa exponent =>
      exact Number.Shortest.newline_notMem_text negative mantissa exponent
    | infinite negative => cases negative <;> decide
    | nan => decide
  | text s =>
    rw [quoted]
    exact Text.Quoted.newline_notMem_quoted s
  | list items =>
    have h := newline_notMem_intercalate separator_oneLine (newline_notMem_quotedItems items)
    rw [quoted, String.toList_append, String.toList_append]
    simp only [List.mem_append, h, or_false, not_or]
    decide
  | object fields =>
    have h := newline_notMem_intercalate separator_oneLine (newline_notMem_quotedFields fields)
    rw [quoted, String.toList_append, String.toList_append]
    simp only [List.mem_append, h, or_false, not_or]
    decide

theorem newline_notMem_quotedItems (items : List Document) :
    ∀ s ∈ quotedItems items, '\n' ∉ s.toList := by
  cases items with
  | nil => exact List.forall_mem_nil _
  | cons x rest =>
    rw [quotedItems, List.forall_mem_cons]
    exact ⟨newline_notMem_quoted x, newline_notMem_quotedItems rest⟩

theorem newline_notMem_quotedFields (fields : List (String × Document)) :
    ∀ s ∈ quotedFields fields, '\n' ∉ s.toList := by
  cases fields with
  | nil => exact List.forall_mem_nil _
  | cons field rest =>
    obtain ⟨key, v⟩ := field
    rw [quotedFields, List.forall_mem_cons]
    refine ⟨?_, newline_notMem_quotedFields rest⟩
    simp [Text.Quoted.newline_notMem_quoted, newline_notMem_quoted v]

end

end Document

end ApiTypes
