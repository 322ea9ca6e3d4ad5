import ApiTypes.Proofs.Text.Segment
import Mathlib.Data.List.Infix

/-! Scanning a text for its comments and literals. From left to right, a slash and a star
open a comment that ends at the next star and slash, and a quote opens a literal that
ends at the next quote without a backslash before it. The text of some segments scans
into these very segments exactly if every comment body is free of the end of comment,
as long as code holds neither slashes nor quotes and literals escape both their quotes
and their backslashes. -/

namespace ApiTypes

open Text

/-- What a scan finds: a character of code, a comment or a literal by what stands between
its marks, or one that is never closed. -/
inductive Token where
  | code (c : Char)
  | comment (body : List Char)
  | literal (body : List Char)
  | unclosed (body : List Char)
  deriving DecidableEq, Repr

namespace Scan

/-- Where a scan stands: in code, or inside a comment or a literal with what it has read
of it. -/
inductive Mode where
  | code
  | comment (body : List Char)
  | literal (body : List Char)

def scan : Mode → List Char → List Token
  | .code, '/' :: '*' :: rest => scan (.comment []) rest
  | .code, '\x22' :: rest => scan (.literal []) rest
  | .code, c :: rest => .code c :: scan .code rest
  | .code, [] => []
  | .comment body, '*' :: '/' :: rest => .comment body :: scan .code rest
  | .comment body, c :: rest => scan (.comment (body ++ [c])) rest
  | .comment body, [] => [.unclosed body]
  | .literal body, '\x22' :: rest => .literal body :: scan .code rest
  | .literal body, '\\' :: c :: rest => scan (.literal (body ++ ['\\', c])) rest
  | .literal body, c :: rest => scan (.literal (body ++ [c])) rest
  | .literal body, [] => [.unclosed body]

/-- The comments and literals of a text. -/
def tokens (text : String) : List Token :=
  scan .code text.toList

/-! ### What is safe to write -/

/-- Code that opens nothing. -/
def Plain (cs : List Char) : Prop :=
  ∀ c ∈ cs, c ≠ '/' ∧ c ≠ '\x22'

instance (cs : List Char) : Decidable (Plain cs) :=
  List.decidableBAll (fun c => c ≠ '/' ∧ c ≠ '\x22') cs

/-- A body in which every quote stands behind a backslash, and every backslash before the
character that it escapes. -/
inductive Escaped : List Char → Prop where
  | nil : Escaped []
  | raw {c : Char} {cs : List Char} (hq : c ≠ '\x22') (hb : c ≠ '\\') (h : Escaped cs) :
      Escaped (c :: cs)
  | pair (c : Char) {cs : List Char} (h : Escaped cs) : Escaped ('\\' :: c :: cs)

def endOfComment : List Char := ['*', '/']

theorem Escaped.append {cs ds : List Char} (hc : Escaped cs) (hd : Escaped ds) :
    Escaped (cs ++ ds) := by
  induction hc with
  | nil => exact hd
  | raw hq hb _ ih => exact .raw hq hb ih
  | pair c _ ih => exact .pair c ih

/-! ### Scanning one segment -/

theorem scan_plain {cs : List Char} (h : Plain cs) (rest : List Char) :
    scan .code (cs ++ rest) = cs.map .code ++ scan .code rest := by
  induction cs with
  | nil => rfl
  | cons c cs ih =>
    obtain ⟨⟨hslash, hquote⟩, hcs⟩ := List.forall_mem_cons.mp h
    rw [List.cons_append, scan, ih hcs, List.map_cons, List.cons_append]
    · intro _ hc
      exact absurd hc hslash
    · exact hquote

theorem scan_escaped {cs : List Char} (h : Escaped cs) (body rest : List Char) :
    scan (.literal body) (cs ++ '\x22' :: rest) = .literal (body ++ cs) :: scan .code rest := by
  induction h generalizing body with
  | nil => rw [List.nil_append, List.append_nil, scan]
  | raw hq hb _ ih =>
    rw [List.cons_append, scan, ih, List.append_assoc, List.singleton_append]
    · exact hq
    · intro _ _ hc
      exact absurd hc hb
  | pair c _ ih =>
    rw [List.cons_append, List.cons_append, scan, ih, List.append_assoc]
    rfl

/-- A comment is read up to the first end of comment. -/
theorem scan_comment {cs : List Char} (h : ¬ endOfComment <:+: cs) (body rest : List Char) :
    scan (.comment body) (cs ++ '*' :: '/' :: rest) = .comment (body ++ cs) :: scan .code rest := by
  induction cs generalizing body with
  | nil => rw [List.nil_append, List.append_nil, scan]
  | cons c cs ih =>
    rw [List.infix_cons_iff, not_or] at h
    rw [List.cons_append, scan, ih h.2, List.append_assoc, List.singleton_append]
    -- a slash behind a star is either in the body or the first star of the closing mark
    intro ds hc hcs
    cases cs with
    | nil => cases hcs
    | cons d ds' =>
      obtain ⟨rfl, -⟩ := List.cons.inj hcs
      exact h.1 ⟨ds', by rw [hc]; rfl⟩

/-- A body that holds an end of comment has a first one. -/
theorem exists_first_end {cs : List Char} (h : endOfComment <:+: cs) :
    ∃ before after, ¬ endOfComment <:+: before ∧ cs = before ++ '*' :: '/' :: after := by
  induction cs with
  | nil => exact absurd h (by decide)
  | cons c cs ih =>
    by_cases hp : endOfComment <+: c :: cs
    · obtain ⟨after, ha⟩ := hp
      exact ⟨[], after, by decide, ha.symm⟩
    · obtain ⟨before, after, hb, hcs⟩ := ih ((List.infix_cons_iff.mp h).resolve_left hp)
      refine ⟨c :: before, after, ?_, by rw [hcs]; rfl⟩
      rw [List.infix_cons_iff, not_or]
      refine ⟨fun hc => hp ?_, hb⟩
      rw [hcs, ← List.cons_append]
      exact hc.trans (List.prefix_append ..)

end Scan

namespace Segment

open Scan

/-- What a segment is meant to scan into. -/
def tokens : Segment → List Token
  | code s => s.toList.map .code
  | comment body => [.comment body]
  | literal body => [.literal body]

/-- A segment that is safe but for what a comment holds. -/
def Marked : Segment → Prop
  | code s => Plain s.toList
  | comment _ => True
  | literal body => Escaped body

/-- A comment that holds no end of comment. -/
def Closed : Segment → Prop
  | comment body => ¬ endOfComment <:+: body
  | _ => True

/-- A segment that ends where it is meant to leaves the scan as if it were not there. -/
theorem scan_chars {s : Segment} (hm : s.Marked) (hc : s.Closed) (rest : List Char) :
    scan .code (s.chars ++ rest) = s.tokens ++ scan .code rest := by
  cases s with
  | code s => exact scan_plain hm rest
  | literal body =>
    rw [chars, List.cons_append, scan, List.append_assoc]
    exact scan_escaped hm [] rest
  | comment body =>
    rw [chars, List.cons_append, List.cons_append, scan, List.append_assoc]
    exact scan_comment hc [] rest

/-- A comment that holds an end of comment ends early. -/
theorem scan_of_not_closed {s : Segment} (hc : ¬ s.Closed) (rest found : List Token)
    (more : List Char) (h : scan .code (s.chars ++ more) = found) : found ≠ s.tokens ++ rest := by
  cases s with
  | code s => exact absurd trivial hc
  | literal body => exact absurd trivial hc
  | comment body =>
    obtain ⟨before, after, hb, rfl⟩ := exists_first_end (not_not.mp hc)
    have hs := scan_comment hb [] (after ++ '*' :: '/' :: more)
    rw [chars, List.cons_append, List.cons_append, scan] at h
    have he : before ++ '*' :: '/' :: after ++ ['*', '/'] ++ more =
        before ++ '*' :: '/' :: (after ++ '*' :: '/' :: more) := by simp
    rw [he, hs] at h
    rintro rfl
    have hbody := Token.comment.inj (List.cons.inj h).1
    have hlength := congrArg List.length hbody
    simp at hlength

/-- The text of some segments scans into these segments exactly if every comment among
them is closed by its own mark alone. -/
theorem tokens_text_iff {ss : List Segment} (h : ∀ s ∈ ss, s.Marked) :
    Scan.tokens (text ss) = ss.flatMap tokens ↔ ∀ s ∈ ss, s.Closed := by
  rw [Scan.tokens, text, String.toList_ofList]
  induction ss with
  | nil => simp [scan]
  | cons s rest ih =>
    obtain ⟨hs, hrest⟩ := List.forall_mem_cons.mp h
    rw [List.forall_mem_cons, ← ih hrest, List.flatMap_cons, List.flatMap_cons]
    by_cases hc : s.Closed
    · rw [scan_chars hs hc, List.append_cancel_left_eq, and_iff_right hc]
    · simp only [hc, false_and, iff_false]
      exact scan_of_not_closed hc _ _ _ rfl

end Segment

end ApiTypes
