import ApiTypes.Proofs.Text.Safe
import ApiTypes.Proofs.Text.Pieces
import Mathlib.Data.List.Forall2

/-! Documentation blocks as texts. A block is one comment that is closed at the end of the block
and nowhere before it, and between its first and its last line stand the lines of the description,
each with a backslash in every end of comment that it holds. -/

namespace ApiTypes.Text.DocBlock

open Scan (endOfComment not_infix_append not_infix_of_notMem not_infix_docBody)

/-! ### Escaped lines -/

theorem intercalate_cons_head (separator : List Char) (c : Char) (piece : List Char)
    (others : List (List Char)) :
    separator.intercalate ((c :: piece) :: others) =
      c :: separator.intercalate (piece :: others) := by
  cases others with
  | nil => simp only [List.intercalate_singleton]
  | cons next more => simp only [List.intercalate_cons_cons, List.cons_append]

/-- A line with a backslash in every end of comment, and otherwise as it was. -/
def Escapes (line written : List Char) : Prop :=
  ∃ pieces : List (List Char), pieces ≠ [] ∧ (∀ piece ∈ pieces, ¬ endOfComment <:+: piece) ∧
    line = endOfComment.intercalate pieces ∧ written = "*\\/".toList.intercalate pieces

theorem escapes_escapeEnd (line : List Char) : Escapes line (escapeEnd line) := by
  fun_induction escapeEnd line with
  | case1 rest ih =>
    obtain ⟨pieces, hne, hpieces, hrest, hwritten⟩ := ih
    refine ⟨[] :: pieces, List.cons_ne_nil _ _,
      List.forall_mem_cons.mpr ⟨by decide, hpieces⟩, ?_, ?_⟩
    · rw [List.intercalate_cons_of_ne_nil hne, ← hrest]
      rfl
    · rw [List.intercalate_cons_of_ne_nil hne, ← hwritten]
      rfl
  | case2 c rest hpair ih =>
    obtain ⟨pieces, hne, hpieces, hrest, hwritten⟩ := ih
    obtain ⟨piece, others, rfl⟩ := List.exists_cons_of_ne_nil hne
    rw [List.forall_mem_cons] at hpieces
    -- a star in front of a slash would be an end of comment in the line
    have hsplit : [c].getLast? ≠ some '*' ∨ piece.head? ≠ some '/' := by
      rw [← not_and_or]
      rintro ⟨hc, hpiece⟩
      obtain ⟨more, rfl⟩ := List.head?_eq_some_iff.mp hpiece
      rw [intercalate_cons_head] at hrest
      exact hpair _ (Option.some.inj hc) hrest
    have hfirst : ¬ endOfComment <:+: [c] := fun h => absurd h.length_le (by simp [endOfComment])
    refine ⟨(c :: piece) :: others, List.cons_ne_nil _ _,
      List.forall_mem_cons.mpr ⟨not_infix_append hfirst hpieces.1 hsplit, hpieces.2⟩, ?_, ?_⟩
    · rw [intercalate_cons_head, ← hrest]
    · rw [intercalate_cons_head, ← hwritten]
  | case3 => exact ⟨[[]], List.cons_ne_nil _ _, by decide, rfl, rfl⟩

theorem newline_notMem_escapeEnd {line : List Char} (h : '\n' ∉ line) : '\n' ∉ escapeEnd line := by
  fun_induction escapeEnd line with
  | case1 rest ih => simp_all
  | case2 c rest _ ih => simp_all
  | case3 => exact h

/-- What is written of a description: its lines without the blanks at its end, and none of an
empty one. -/
inductive Described : List Char → List (List Char) → Prop where
  | empty : Described [] []
  | lines {kept tail : List Char} {written : List (List Char)} (hne : kept ++ tail ≠ [])
      (htail : ∀ c ∈ tail, Blank.isBlank c = true)
      (hkept : ∀ c ∈ kept.getLast?, Blank.isBlank c = false)
      (h : List.Forall₂ Escapes (kept.splitOn '\n') written) : Described (kept ++ tail) written

theorem described_escaped (description : List Char) :
    Described description ((linesOf description false).map escapeEnd) := by
  rw [linesOf]
  cases description with
  | nil => exact .empty
  | cons c rest =>
    obtain ⟨tail, heq, htail⟩ := Split.exists_append_trimRight Blank.isBlank (c :: rest)
    have hlines : List.Forall₂ Escapes
        ((Split.trimRight Blank.isBlank (c :: rest)).splitOn '\n')
        ((Split.split '\n' (Split.trimRight Blank.isBlank (c :: rest))).map escapeEnd) := by
      rw [Split.split_eq_splitOn, List.forall₂_map_right_iff, List.forall₂_same]
      exact fun line _ => escapes_escapeEnd line
    have h := Described.lines (by rw [← heq]; exact List.cons_ne_nil _ _) htail
      (Split.getLast?_trimRight Blank.isBlank (c :: rest)) hlines
    rw [← heq] at h
    simpa using h

/-- The line of a deprecated entry holds no end of comment. -/
theorem map_escapeEnd_linesOf (description : List Char) (deprecated : Bool) :
    (linesOf description deprecated).map escapeEnd =
      (linesOf description false).map escapeEnd ++
        if deprecated then ["@deprecated".toList] else [] := by
  have hline : escapeEnd deprecatedLine = "@deprecated".toList := by decide
  cases deprecated with
  | true => simp [linesOf, hline]
  | false => rw [if_neg Bool.false_ne_true, List.append_nil]

theorem linesOf_eq_nil_iff (description : List Char) (deprecated : Bool) :
    linesOf description deprecated = [] ↔ description = [] ∧ deprecated = false := by
  cases deprecated <;> simp [linesOf, Split.split_ne_nil]

theorem newline_notMem_linesOf (description : List Char) (deprecated : Bool) :
    ∀ line ∈ linesOf description deprecated, '\n' ∉ line := by
  rw [linesOf, List.forall_mem_append]
  constructor
  · split
    next => exact List.forall_mem_nil _
    next => exact fun line hl => Split.notMem_of_mem_split hl
  · split
    next => exact List.forall_mem_singleton.mpr (by decide)
    next => exact List.forall_mem_nil _

/-! ### The text of a block -/

/-- Lines that all end, the last one too. -/
theorem intercalate_concat_nil (lines : List (List Char)) :
    ['\n'].intercalate (lines ++ [[]]) = lines.flatMap (· ++ ['\n']) := by
  induction lines with
  | nil => rfl
  | cons line rest ih =>
    rw [List.cons_append, List.intercalate_cons_of_ne_nil (by simp), ih, List.flatMap_cons]

theorem splitOn_flatMap {lines : List (List Char)} (h : ∀ line ∈ lines, '\n' ∉ line) :
    (lines.flatMap (· ++ ['\n'])).splitOn '\n' = lines ++ [[]] := by
  rw [← intercalate_concat_nil]
  refine List.splitOn_intercalate '\n' ?_ (by simp)
  rw [List.forall_mem_append, List.forall_mem_singleton]
  exact ⟨h, List.not_mem_nil⟩

/-- The lines of a block, from the first to the last. -/
theorem splitOn_ofLines {lines : List (List Char)} (hne : lines ≠ [])
    (hlines : ∀ line ∈ lines, '\n' ∉ line) (indent : Nat) :
    let margin := List.replicate (2 * indent) ' '
    (ofLines indent lines).splitOn '\n' =
      (margin ++ "/**".toList) :: (lines.map escapeEnd).map (margin ++ " * ".toList ++ ·) ++
        [margin ++ " */".toList, []] := by
  intro margin
  have hmargin : '\n' ∉ margin := fun hm =>
    absurd (List.eq_of_mem_replicate hm) (by decide)
  have hblock : ofLines indent lines =
      ((margin ++ "/**".toList) :: (lines.map escapeEnd).map (margin ++ " * ".toList ++ ·) ++
        [margin ++ " */".toList]).flatMap (· ++ ['\n']) := by
    rw [ofLines, if_neg (by simpa using hne)]
    simp [List.flatMap_map, margin]
  have hunbroken : ∀ line ∈ (lines.map escapeEnd).map (margin ++ " * ".toList ++ ·),
      '\n' ∉ line := by
    intro written hw
    rw [List.map_map] at hw
    obtain ⟨line, hl, rfl⟩ := List.mem_map.mp hw
    simp [hmargin, newline_notMem_escapeEnd (hlines line hl)]
  rw [hblock, splitOn_flatMap, List.append_assoc]
  · rfl
  · rw [List.forall_mem_append, List.forall_mem_cons, List.forall_mem_singleton]
    exact ⟨⟨by simp [hmargin], hunbroken⟩, by simp [hmargin]⟩

/-- A text that is one comment on lines of its own. -/
structure OneComment (margin text : List Char) : Prop where
  opened : margin ++ "/**\n".toList <+: text
  closed : ∀ below, endOfComment ++ below <:+ text ↔ below = ['\n']

/-- The first end of comment behind a text that holds none, nor a part of one at its end. -/
theorem endOfComment_suffix_iff {cs : List Char} (h : ¬ endOfComment <:+: cs ++ ['*'])
    (below : List Char) : endOfComment ++ below <:+ cs ++ "*/\n".toList ↔ below = ['\n'] := by
  have htext : cs ++ "*/\n".toList = (cs ++ ['*']) ++ ['/'] ++ ['\n'] := by simp
  constructor
  · rintro ⟨above, heq⟩
    rw [htext, ← List.append_assoc] at heq
    -- without its last two characters the text ends in the star, and holds no end of comment
    rcases List.eq_nil_or_concat below with rfl | ⟨rest, c, rfl⟩
    · have hlast := congrArg List.getLast? heq
      simp [endOfComment] at hlast
    · rw [List.concat_eq_append, ← List.append_assoc] at heq
      obtain ⟨hrest, hc⟩ := List.append_inj' heq rfl
      rw [List.concat_eq_append, hc]
      rcases List.eq_nil_or_concat rest with rfl | ⟨more, d, rfl⟩
      · rfl
      · rw [List.concat_eq_append, ← List.append_assoc] at hrest
        exact absurd ⟨above, more, (List.append_inj' hrest rfl).1⟩ h
  · rintro rfl
    exact ⟨cs, rfl⟩

theorem ofLines_eq_docBody {lines : List (List Char)} (hne : lines ≠ []) (indent : Nat) :
    let margin := List.replicate (2 * indent) ' '
    ofLines indent lines =
      margin ++ "/*".toList ++ Segment.docBody margin lines ++ "*/\n".toList := by
  intro margin
  rw [ofLines, if_neg (by simpa using hne)]
  simp [Segment.docBody, margin]

theorem oneComment_ofLines {lines : List (List Char)} (hne : lines ≠ []) (indent : Nat) :
    OneComment (List.replicate (2 * indent) ' ') (ofLines indent lines) := by
  have hblank : ∀ c ∈ List.replicate (2 * indent) ' ', c = ' ' := fun c => List.eq_of_mem_replicate
  have hmargin : '*' ∉ List.replicate (2 * indent) ' ' := fun hm => absurd (hblank _ hm) (by decide)
  rw [ofLines_eq_docBody hne indent]
  refine ⟨⟨_, by simp only [Segment.docBody, List.append_assoc]; rfl⟩, endOfComment_suffix_iff ?_⟩
  have hopen : ¬ endOfComment <:+: List.replicate (2 * indent) ' ' ++ "/*".toList :=
    not_infix_append (not_infix_of_notMem hmargin) (by decide)
      (.inl fun hlast => hmargin (List.mem_of_getLast? hlast))
  have hbody : ¬ endOfComment <:+:
      List.replicate (2 * indent) ' ' ++ "/*".toList ++ Segment.docBody _ lines :=
    not_infix_append hopen (not_infix_docBody hblank lines) (.inr (by simp [Segment.docBody]))
  exact not_infix_append hbody (by decide) (.inr (by decide))

theorem block_eq_empty_iff (description : String) (deprecated : Bool) (indent : Nat) :
    block description deprecated indent = "" ↔ description = "" ∧ deprecated = false := by
  rw [block, ← String.toList_inj, String.toList_ofList, String.toList_empty,
    ← String.toList_eq_nil_iff, ← linesOf_eq_nil_iff, ofLines]
  split
  next h => simpa using h
  next h => simpa using h

/-- A block is empty or one comment, with a line for each line of the description and one more for
a deprecated entry. A negative indent counts as none. -/
theorem ofLabel_one_comment (description : Option String) (deprecated : Bool) (indent : Int) :
    let margin := List.replicate (2 * indent.toNat) ' '
    ∃ text, ofLabel description deprecated indent.toNat = .ok text ∧
      (text = "" ↔ description.getD "" = "" ∧ deprecated = false) ∧
      (text = "" ∨ OneComment margin text.toList ∧
        ∃ written, Described (description.getD "").toList written ∧
          text.toList.splitOn '\n' =
            (margin ++ "/**".toList) ::
              (written ++ if deprecated then ["@deprecated".toList] else []).map
                (margin ++ " * ".toList ++ ·) ++
              [margin ++ " */".toList, []]) := by
  intro margin
  refine ⟨_, ofLabel_eq_block description deprecated indent.toNat, block_eq_empty_iff _ _ _, ?_⟩
  rw [block_eq_empty_iff, block, String.toList_ofList]
  by_cases hempty : description.getD "" = "" ∧ deprecated = false
  · exact .inl hempty
  · have hne : linesOf (description.getD "").toList deprecated ≠ [] := by
      rwa [Ne, linesOf_eq_nil_iff, String.toList_eq_nil_iff]
    have hsplit := splitOn_ofLines hne (newline_notMem_linesOf _ _) indent.toNat
    rw [map_escapeEnd_linesOf] at hsplit
    exact .inr ⟨oneComment_ofLines hne indent.toNat, _, described_escaped _, hsplit⟩

example : block "**/\r\n/*//\n\t\n" true 1 =
    "  /**\n   * **\\/\r\n   * /*\\//\n   * @deprecated\n   */\n" := by
  decide

end ApiTypes.Text.DocBlock
