import ApiTypes.Name.Table

/-! The spellings that the positions of a group give out. Behind the identifier of a
later position stands an underscore and then digits alone, so such a spelling
gives back both the identifier and the position. Hence two spellings of later
positions agree only where identifier and position do, and a clash needs a first
position on one side: an identifier that already looks like a later position of
another one. -/

namespace ApiTypes.Name

theorem token_of_spelling {n : Name String} {s : String} (h : n.spelling = some s) :
    n.token = .ok s := by
  have hs : n.spelling? = some s := by rw [spelling?, h]; rfl
  rw [token, hs]

/-- What a position above the first puts behind the underscore. -/
def digits : Nat → List Char
  | 0 => []
  | k + 1 => Nat.toDigits 10 (k + 2)

theorem underscore_notMem_digits (k : Nat) : '_' ∉ digits k := by
  cases k with
  | zero => simp [digits]
  | succ k => exact Nat.underscore_not_in_toDigits

theorem digits_injective {k j : Nat} (h : digits k = digits j) : k = j := by
  cases k with
  | zero =>
    cases j with
    | zero => rfl
    | succ j => exact absurd h.symm Nat.toDigits_ne_nil
  | succ k =>
    cases j with
    | zero => exact absurd h Nat.toDigits_ne_nil
    | succ j =>
      have hn := congrArg (fun ds => Nat.ofDigitChars 10 ds 0) h
      simpa [digits] using hn

theorem toList_numbered_succ (x : String) (k : Nat) :
    (numbered x (k + 1)).toList = x.toList ++ '_' :: digits k := by
  cases k <;> simp [numbered, digits, Label.ofText]

/-- A text ends in at most one way in an underscore and characters that are none. -/
theorem append_underscore_inj {a b d e : List Char} (hd : '_' ∉ d) (he : '_' ∉ e)
    (h : a ++ '_' :: d = b ++ '_' :: e) : a = b ∧ d = e := by
  rcases List.append_eq_append_iff.mp h with ⟨c, hb, hc⟩ | ⟨c, ha, hc⟩
  · cases c with
    | nil => simp_all
    | cons x c =>
      -- the second underscore would be one of the characters behind the first
      rw [List.cons_append, List.cons.injEq] at hc
      exact absurd (by rw [hc.2]; simp : '_' ∈ d) hd
  · cases c with
    | nil => simp_all
    | cons x c =>
      rw [List.cons_append, List.cons.injEq] at hc
      exact absurd (by rw [hc.2]; simp : '_' ∈ e) he

theorem numbered_succ_inj {x y : String} {k j : Nat}
    (h : numbered x (k + 1) = numbered y (j + 1)) : x = y ∧ k = j := by
  have hl := congrArg String.toList h
  rw [toList_numbered_succ, toList_numbered_succ] at hl
  obtain ⟨hx, hk⟩ :=
    append_underscore_inj (underscore_notMem_digits k) (underscore_notMem_digits j) hl
  exact ⟨String.toList_inj.mp hx, digits_injective hk⟩

theorem numbered_ne (x : String) {k : Nat} (hk : 0 < k) : numbered x k ≠ x := by
  intro h
  obtain ⟨j, rfl⟩ := Nat.exists_eq_add_one.mpr hk
  have hl := congrArg List.length (congrArg String.toList h)
  rw [toList_numbered_succ] at hl
  simp at hl

/-- A text without underscores is the spelling of a first position alone. -/
theorem numbered_eq_iff {x y : String} (hy : '_' ∉ y.toList) (k : Nat) :
    numbered x k = y ↔ k = 0 ∧ x = y := by
  cases k with
  | zero => simp [numbered]
  | succ k =>
    constructor
    · rintro rfl
      simp [toList_numbered_succ] at hy
    · rintro ⟨hk, -⟩
      omega

theorem numbered_injective (x : String) {k j : Nat} (h : numbered x k = numbered x j) : k = j := by
  cases k with
  | zero =>
    cases j with
    | zero => rfl
    | succ j => exact absurd h.symm (numbered_ne x j.succ_pos)
  | succ k =>
    cases j with
    | zero => exact absurd h (numbered_ne x k.succ_pos)
    | succ j => rw [(numbered_succ_inj h).2]

/-- Spellings of two different identifiers clash only if one of them is kept as it is
and is the spelling of a later position of the other. -/
theorem numbered_eq_numbered_iff {x y : String} (hxy : x ≠ y) {k j : Nat} :
    numbered x k = numbered y j ↔
      (k = 0 ∧ 0 < j ∧ x = numbered y j) ∨ (j = 0 ∧ 0 < k ∧ y = numbered x k) := by
  cases k with
  | zero =>
    cases j with
    | zero => simp [numbered, hxy]
    | succ j => simp [numbered]
  | succ k =>
    cases j with
    | zero => simp [numbered, eq_comm]
    | succ j =>
      constructor
      · intro h
        exact absurd (numbered_succ_inj h).1 hxy
      · simp

end ApiTypes.Name
