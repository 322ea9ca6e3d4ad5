import ApiTypes.Text.Split
import Mathlib.Data.List.Basic

/-! The pieces of a text. Cutting works from left to right: a text that holds a separator is cut
there, no piece holds one, and pieces that hold none are what cutting their join gives back. What
trimming takes off the end of a text consists of characters that are to be dropped. -/

namespace ApiTypes.Text.Split

variable {separator : Char}

theorem split_append_cons (above rest : List Char) :
    split separator (above ++ separator :: rest) =
      split separator above ++ split separator rest := by
  induction above with
  | nil => simp [split]
  | cons c above ih =>
    rw [List.cons_append, split, split, ih]
    by_cases hc : c = separator
    · simp [hc]
    · cases h : split separator above with
      | nil => exact absurd h (split_ne_nil separator above)
      | cons piece others => simp [hc]

theorem split_of_notMem {piece : List Char} (h : separator ∉ piece) :
    split separator piece = [piece] := by
  induction piece with
  | nil => rfl
  | cons c rest ih =>
    obtain ⟨hc, hrest⟩ := not_or.mp (List.mem_cons.not.mp h)
    rw [split, if_neg (Ne.symm hc), ih hrest]

theorem notMem_of_mem_split {path piece : List Char} (h : piece ∈ split separator path) :
    separator ∉ piece := by
  induction path generalizing piece with
  | nil =>
    obtain rfl := List.mem_singleton.mp h
    exact List.not_mem_nil
  | cons c rest ih =>
    rw [split] at h
    by_cases hc : c = separator
    · rw [if_pos hc] at h
      rcases List.mem_cons.mp h with rfl | hrest
      · exact List.not_mem_nil
      · exact ih hrest
    · rw [if_neg hc] at h
      cases hs : split separator rest with
      | nil => exact absurd hs (split_ne_nil separator rest)
      | cons first others =>
        rw [hs] at h ih
        rcases List.mem_cons.mp h with rfl | hothers
        · exact List.not_mem_cons_of_ne_of_not_mem (Ne.symm hc) (ih List.mem_cons_self)
        · exact ih (List.mem_cons_of_mem _ hothers)

theorem split_join {pieces : List (List Char)} (hne : pieces ≠ [])
    (h : ∀ piece ∈ pieces, separator ∉ piece) :
    split separator (join separator pieces) = pieces := by
  induction pieces with
  | nil => exact absurd rfl hne
  | cons piece rest ih =>
    obtain ⟨hpiece, hrest⟩ := List.forall_mem_cons.mp h
    cases rest with
    | nil => exact split_of_notMem hpiece
    | cons next more =>
      rw [join, split_append_cons, split_of_notMem hpiece, ih (List.cons_ne_nil _ _) hrest]
      · rfl
      · exact List.cons_ne_nil _ _

/-- A join begins with its first piece, behind which it ends or has a separator. -/
theorem exists_join_cons (separator : Char) (piece : List Char) (rest : List (List Char))
    (last : List Char) :
    ∃ more, join separator (piece :: rest) ++ separator :: last = piece ++ separator :: more := by
  cases rest with
  | nil => exact ⟨last, rfl⟩
  | cons next others =>
    refine ⟨join separator (next :: others) ++ separator :: last, ?_⟩
    rw [join, List.append_assoc, List.cons_append]
    exact List.cons_ne_nil _ _

/-- A text without a separator is one piece; any other can be cut at its last separator. -/
theorem notMem_or_exists_append (separator : Char) (path : List Char) :
    separator ∉ path ∨ ∃ above last, path = above ++ separator :: last ∧ separator ∉ last := by
  by_cases h : separator ∈ path
  · obtain ⟨tail, above, hpath, htail⟩ := List.eq_append_cons_of_mem (List.mem_reverse.mpr h)
    refine .inr ⟨above.reverse, tail.reverse, ?_, fun hmem => htail (List.mem_reverse.mp hmem)⟩
    rw [← List.reverse_reverse path, hpath, List.reverse_append, List.reverse_cons,
      List.append_assoc, List.singleton_append]
  · exact .inl h

theorem exists_append_trimRight (drop : Char → Bool) (path : List Char) :
    ∃ tail, path = trimRight drop path ++ tail ∧ ∀ c ∈ tail, drop c = true := by
  induction path with
  | nil => exact ⟨[], rfl, List.forall_mem_nil _⟩
  | cons c rest ih =>
    obtain ⟨tail, hrest, htail⟩ := ih
    rw [trimRight]
    split
    next hnil =>
      rw [hnil, List.nil_append] at hrest
      split
      next hc => exact ⟨c :: rest, rfl, List.forall_mem_cons.mpr ⟨hc, hrest ▸ htail⟩⟩
      next => exact ⟨rest, rfl, hrest ▸ htail⟩
    next hkept => exact ⟨tail, by rw [List.cons_append, ← hrest], htail⟩

/-- What trimming keeps ends in a character that it would not drop. -/
theorem getLast?_trimRight (drop : Char → Bool) (path : List Char) :
    ∀ c ∈ (trimRight drop path).getLast?, drop c = false := by
  induction path with
  | nil => simp [trimRight]
  | cons c rest ih =>
    rw [trimRight]
    split
    next =>
      split
      next => simp
      next hc => simpa using hc
    next hkept =>
      obtain ⟨d, more, heq⟩ := List.exists_cons_of_ne_nil hkept
      rw [heq] at ih ⊢
      rwa [List.getLast?_cons_cons]

/-- Cutting is what the library does at a separator. -/
theorem split_eq_splitOn (separator : Char) (cs : List Char) :
    split separator cs = cs.splitOn separator := by
  induction cs with
  | nil => rw [split, List.splitOn_nil]
  | cons c rest ih =>
    rw [split, List.splitOn_eq_splitOnP, List.splitOnP_cons_eq_if_modifyHead,
      ← List.splitOn_eq_splitOnP, ← ih]
    simp only [beq_iff_eq]
    split
    next => rfl
    next =>
      obtain ⟨piece, others, heq⟩ := List.exists_cons_of_ne_nil (split_ne_nil separator rest)
      rw [heq, List.modifyHead_cons]

end ApiTypes.Text.Split
