import ApiTypes.Proofs.Plan.Safety
import ApiTypes.Proofs.Text.Exports

/-! What stands inside statements exports nothing. Where a block of a type lets a statement
begin there is only the key of a property, which no keyword starts like, and behind the
block the statement goes on. Rows of segments are told apart by where they begin and end:
inside a statement, or where one may begin. -/

namespace ApiTypes

open Text Scan Export

namespace Segment

/-- Segments that hold no break. -/
def Inner (ss : List Segment) : Prop :=
  ∀ t ∈ ss.flatMap tokens, t.isBreak = false

/-- Segments that export nothing inside a statement that goes on behind them. -/
def Silent (ss : List Segment) : Prop :=
  ∀ us, Neutral us → exportsFrom false (ss.flatMap tokens ++ us) = exportsFrom false us

/-- Segments at which a statement goes on. -/
def GoesOn (ss : List Segment) : Prop :=
  ∀ us, Neutral (ss.flatMap tokens ++ us)

/-- Segments that export some names from inside a statement to the beginning of another. -/
def Closes (ss : List Segment) (es : List Export) : Prop :=
  ∀ us, exportsFrom false (ss.flatMap tokens ++ us) = es ++ exportsFrom true us

/-- Segments that export some names from one beginning of a statement to another. -/
def Exports (ss : List Segment) (es : List Export) : Prop :=
  ∀ us, exportsFrom true (ss.flatMap tokens ++ us) = es ++ exportsFrom true us

variable {ss ss' : List Segment} {es es' : List Export}

theorem Inner.cons {s : Segment} (h : ∀ t ∈ s.tokens, t.isBreak = false) (h' : Inner ss) :
    Inner (s :: ss) :=
  List.forall_mem_append.mpr ⟨h, h'⟩

theorem inner_nil : Inner [] :=
  List.forall_mem_nil _

theorem inner_code {s : String} (h : ∀ t ∈ codes s, t.isBreak = false) : Inner [.code s] :=
  .cons h inner_nil

theorem Inner.code (h : Inner ss) {s : String} (hs : ∀ t ∈ codes s, t.isBreak = false) :
    Inner (.code s :: ss) :=
  .cons hs h

theorem Inner.quote (h : Inner ss) (alphabet : Literal.Alphabet) (s : String) :
    Inner (quote alphabet s :: ss) := by
  refine .cons (fun t ht => ?_) h
  obtain rfl := List.mem_singleton.mp ht
  rfl

theorem Inner.silent (h : Inner ss) : Silent ss :=
  fun us _ => exportsFrom_false_append h us

theorem Inner.silent_append (h : Inner ss) (h' : Silent ss') : Silent (ss ++ ss') := by
  intro us hus
  rw [List.flatMap_append, List.append_assoc, exportsFrom_false_append h, h' us hus]

theorem Inner.closes_append (h : Inner ss) (h' : Closes ss' es) : Closes (ss ++ ss') es := by
  intro us
  rw [List.flatMap_append, List.append_assoc, exportsFrom_false_append h, h' us]

theorem Silent.append (h : Silent ss) (h' : Silent ss') (hon : GoesOn ss') :
    Silent (ss ++ ss') := by
  intro us hus
  rw [List.flatMap_append, List.append_assoc, h _ (hon us), h' us hus]

theorem Silent.closes_append (h : Silent ss) (h' : Closes ss' es) (hon : GoesOn ss') :
    Closes (ss ++ ss') es := by
  intro us
  rw [List.flatMap_append, List.append_assoc, h _ (hon us), h' us]

theorem Closes.silent (h : Closes ss []) : Silent ss := by
  intro us hus
  rw [h us, List.nil_append, hus]

theorem GoesOn.append (h : GoesOn ss) (ss' : List Segment) : GoesOn (ss ++ ss') := by
  intro us
  rw [List.flatMap_append, List.append_assoc]
  exact h _

/-- A statement goes on at an operator behind a blank. -/
theorem goesOn_operator {c : Char} (hbreak : (Token.code c).isBreak = false) (hc : c ≠ 'e')
    (hblank : Blank.isBlank c = false) {s : String} {cs : List Char}
    (hs : s.toList = ' ' :: c :: cs) : GoesOn [.code s] := by
  intro us
  rw [List.flatMap_singleton, tokens, hs]
  exact neutral_space (neutral_code hbreak hc hblank _)

theorem closes_semicolon : Closes [.code ";"] [] :=
  fun _ => rfl

theorem goesOn_semicolon : GoesOn [.code ";"] :=
  fun us => neutral_of_isBreak (by decide) us

theorem silent_intercalate {separator : String} (hsep : Inner [.code separator])
    (hon : GoesOn [.code separator]) {sss : List (List Segment)} (h : ∀ ss ∈ sss, Silent ss) :
    Silent (intercalate separator sss) := by
  fun_induction intercalate separator sss with
  | case1 => exact inner_nil.silent
  | case2 ss => exact h ss List.mem_cons_self
  | case3 ss rest _ ih =>
    have hrest := ih fun ss' hm => h ss' (List.mem_cons_of_mem _ hm)
    exact (h ss List.mem_cons_self).append (hsep.silent_append hrest) (hon.append _)

theorem exports_nil : Exports [] [] :=
  fun _ => rfl

theorem Exports.append (h : Exports ss es) (h' : Exports ss' es') :
    Exports (ss ++ ss') (es ++ es') := by
  intro us
  rw [List.flatMap_append, List.append_assoc, h, h', List.append_assoc]

theorem exports_gap (h : ∀ t ∈ ss.flatMap tokens, t.isGap = true) : Exports ss [] :=
  fun us => exportsFrom_true_append h us

theorem exports_intercalate {separator : String} (hsep : ∀ t ∈ codes separator, t.isGap = true)
    {sss : List (List Segment)} {ess : List (List Export)} (h : List.Forall₂ Exports sss ess) :
    Exports (intercalate separator sss) ess.flatten := by
  induction h with
  | nil => exact exports_nil
  | @cons ss es sss ess hs hrest ih =>
    cases hrest with
    | nil =>
      rw [List.flatten_cons, List.flatten_nil, List.append_nil]
      exact hs
    | cons hq hmore =>
      have hgap : Exports [.code separator] [] := exports_gap (by
        rw [List.flatMap_singleton]
        exact hsep)
      rw [List.flatten_cons]
      exact hs.append (hgap.append ih)

theorem exports_intercalate_nil {separator : String} (hsep : ∀ t ∈ codes separator, t.isGap = true)
    {sss : List (List Segment)} (h : ∀ ss ∈ sss, Exports ss []) :
    Exports (intercalate separator sss) [] := by
  have hrows : List.Forall₂ Exports sss (sss.map fun _ => []) := by
    rw [List.forall₂_map_right_iff, List.forall₂_same]
    exact h
  have hnone : (sss.map fun _ => ([] : List Export)).flatten = [] := by simp
  rw [← hnone]
  exact exports_intercalate hsep hrows

/-! ### Types -/

theorem exports_doc (description : Option String) (deprecated : Bool) (indent : Nat) :
    Exports (doc description deprecated indent) [] := by
  rw [doc]
  split
  next => exact exports_nil
  next =>
    refine exports_gap ?_
    rw [List.flatMap_cons, List.forall_mem_append, List.flatMap_cons, List.forall_mem_append]
    refine ⟨?_, List.forall_mem_singleton.mpr rfl, by decide⟩
    intro t ht
    obtain ⟨c, hc, rfl⟩ := List.mem_map.mp ht
    rw [String.toList_ofList] at hc
    rw [List.eq_of_mem_replicate hc]
    decide

/-- A property begins with its key, which is no keyword. -/
theorem exports_key (name : String) {mark : String} (hmark : mark ∈ [": ", "?: "])
    (h : Closes ss es) :
    Exports ([key name, .code mark] ++ ss) es := by
  obtain ⟨c, cs, hl, hc, hbreak⟩ : ∃ c cs, mark.toList = c :: cs ∧ c ∉ "export ".toList ∧
      ∀ d ∈ c :: cs, (Token.code d).isBreak = false := by
    simp only [List.mem_cons, List.not_mem_nil, or_false] at hmark
    rcases hmark with rfl | rfl
    · exact ⟨':', [' '], rfl, by decide, by simp [Token.isBreak]⟩
    · exact ⟨'?', [':', ' '], rfl, by decide, by simp [Token.isBreak]⟩
  have hrest : Inner [.code mark] := inner_code fun t ht => by
    rw [codes, hl] at ht
    obtain ⟨d, hd, rfl⟩ := List.mem_map.mp ht
    exact hbreak d hd
  intro us
  rw [List.cons_append, List.flatMap_cons, List.append_assoc, key]
  split
  next hname =>
    have hword := exportsFrom_word hname hc (hbreak c List.mem_cons_self)
      (cs.map Token.code ++ (ss.flatMap tokens ++ us))
    have hinner : ∀ t ∈ cs.map Token.code, t.isBreak = false := by
      rw [List.forall_mem_map]
      exact fun d hd => hbreak d (List.mem_cons_of_mem _ hd)
    rw [exportsFrom_false_append hinner, h us] at hword
    rw [List.cons_append, List.nil_append, List.flatMap_cons, List.append_assoc, tokens, tokens, hl]
    exact hword
  next =>
    show exportsFrom false (([Segment.code mark] ++ ss).flatMap tokens ++ us) = _
    exact hrest.closes_append h us

theorem silent_choices (cs : Option (List String)) : Silent (choices cs) := by
  rcases cs with _ | _ | ⟨c, cs⟩
  · exact (inner_code (by decide)).silent
  · exact (inner_code (by decide)).silent
  · refine silent_intercalate (inner_code (by decide))
      (goesOn_operator (c := '|') (by decide) (by decide) (by decide) rfl) fun ss hm => ?_
    obtain ⟨c, -, rfl⟩ := List.mem_map.mp hm
    exact (inner_nil.quote .unicode c).silent

/-- A block of properties ends where a statement may begin. -/
theorem closes_braced {sss : List (List Segment)} (h : ∀ ss ∈ sss, Exports ss []) :
    Closes (braced sss) [] := by
  have hproperties : Exports (intercalate "\n" sss) [] := exports_intercalate_nil (by decide) h
  rw [braced]
  split
  next => exact fun us => rfl
  next =>
    intro us
    have hclose : Exports [.code "\n\x7d"] [] := exports_gap (by decide)
    exact (hproperties.append hclose) us

theorem goesOn_braced (sss : List (List Segment)) : GoesOn (braced sss) := by
  rw [braced]
  split <;> exact fun us => neutral_code (c := '\x7b') (by decide) (by decide) (by decide) _

end Segment

open Segment

variable {spelled : Symbol String → String}

theorem inner_name {x : String} (h : Over (isNameChar · = true) x) : Inner [.code x] :=
  inner_code (codes_name h)

theorem goesOn_alternative : GoesOn [.code " | "] :=
  goesOn_operator (c := '|') (by decide) (by decide) (by decide) rfl

theorem goesOn_null : GoesOn [.code " | null"] :=
  goesOn_operator (c := '|') (by decide) (by decide) (by decide) rfl

theorem goesOn_angle : GoesOn [.code ">"] :=
  fun us => neutral_code (by decide) (by decide) (by decide) us

mutual

/-- A type exports nothing. -/
theorem TypeExpr.silent_segments (t : TypeExpr String)
    (h : ∀ r ∈ t.references, Over (isNameChar · = true) (spelled r.symbol)) :
    Silent (t.segments spelled) := by
  cases t with
  | string choices =>
    rw [TypeExpr.segments]
    exact silent_choices choices
  | integer | float | boolean | unknown =>
    rw [TypeExpr.segments]
    exact (inner_code (by decide)).silent
  | array items =>
    rw [TypeExpr.segments, List.append_assoc]
    rw [TypeExpr.references] at h
    exact (inner_code (by decide)).silent_append ((TypeExpr.silent_segments items h).append
      (inner_code (by decide)).silent goesOn_angle)
  | map values =>
    rw [TypeExpr.segments, List.append_assoc]
    rw [TypeExpr.references] at h
    exact (inner_code (by decide)).silent_append ((TypeExpr.silent_segments values h).append
      (inner_code (by decide)).silent goesOn_angle)
  | optional value =>
    rw [TypeExpr.segments]
    rw [TypeExpr.references] at h
    exact (TypeExpr.silent_segments value h).append (inner_code (by decide)).silent goesOn_null
  | union variants =>
    rw [TypeExpr.segments]
    rw [TypeExpr.references] at h
    exact silent_intercalate (inner_code (by decide)) goesOn_alternative
      (TypeExpr.silent_allSegments variants h)
  | reference target =>
    rw [TypeExpr.segments]
    rw [TypeExpr.references] at h
    exact (inner_name (h target (List.mem_singleton_self target))).silent
  | object properties parents =>
    rw [TypeExpr.segments]
    rw [TypeExpr.references, List.forall_mem_append] at h
    refine silent_intercalate (inner_code (by decide))
      (goesOn_operator (c := '&') (by decide) (by decide) (by decide) rfl) ?_
    rw [List.forall_mem_append, List.forall_mem_singleton, List.forall_mem_map]
    exact ⟨fun r hr => (inner_name (h.1 r hr)).silent,
      (closes_braced (Property.exports_allSegments properties h.2)).silent⟩
  | resource properties scope =>
    rw [TypeExpr.segments]
    exact inner_nil.silent

theorem TypeExpr.silent_allSegments (ts : List (TypeExpr String))
    (h : ∀ r ∈ TypeExpr.allReferences ts, Over (isNameChar · = true) (spelled r.symbol)) :
    ∀ ss ∈ TypeExpr.allSegments spelled ts, Silent ss := by
  cases ts with
  | nil =>
    rw [TypeExpr.allSegments]
    exact List.forall_mem_nil _
  | cons t rest =>
    rw [TypeExpr.allReferences, List.forall_mem_append] at h
    rw [TypeExpr.allSegments, List.forall_mem_cons]
    exact ⟨TypeExpr.silent_segments t h.1, TypeExpr.silent_allSegments rest h.2⟩

/-- Neither does a property, at the end of which a statement may begin. -/
theorem Property.exports_segments (p : Property String)
    (h : ∀ r ∈ p.references, Over (isNameChar · = true) (spelled r.symbol)) :
    Exports (p.segments spelled) [] := by
  cases p with
  | mk name value required description deprecated =>
    rw [Property.references] at h
    have hvalue := TypeExpr.silent_segments value h
    have hbody : Closes ((value.segments spelled ++
        if required || value.isOptional then [] else [.code " | null"]) ++ [.code ";"]) [] := by
      split
      next =>
        rw [List.append_nil]
        exact hvalue.closes_append closes_semicolon goesOn_semicolon
      next =>
        exact (hvalue.append (inner_code (by decide)).silent goesOn_null).closes_append
          closes_semicolon goesOn_semicolon
    have hmark : (if required then ": " else "?: ") ∈ [": ", "?: "] := by split <;> decide
    have hkey := exports_key name hmark hbody
    have hmargin : Exports [.code "  "] [] := exports_gap (by decide)
    rw [Property.segments, List.append_assoc, List.append_assoc]
    exact (exports_doc description deprecated 1).append (hmargin.append hkey)

theorem Property.exports_allSegments (ps : List (Property String))
    (h : ∀ r ∈ Property.allReferences ps, Over (isNameChar · = true) (spelled r.symbol)) :
    ∀ ss ∈ Property.allSegments spelled ps, Exports ss [] := by
  cases ps with
  | nil =>
    rw [Property.allSegments]
    exact List.forall_mem_nil _
  | cons p rest =>
    rw [Property.allReferences, List.forall_mem_append] at h
    rw [Property.allSegments, List.forall_mem_cons]
    exact ⟨Property.exports_segments p h.1, Property.exports_allSegments rest h.2⟩

end

end ApiTypes
