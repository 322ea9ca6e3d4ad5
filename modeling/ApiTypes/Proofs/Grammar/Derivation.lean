import ApiTypes.Proofs.Grammar.Types

/-! When the text of a type belongs to the grammar. Its literals, keys and documentation
always do, so the tree of a type is one of the grammar exactly if all references are spelled
by names and every union has a variant. Then its text is read by the flattened tree and by no
other; and if the flattened tree reads it, then nothing is missing. -/

namespace ApiTypes

open Text Grammar Scan

/-! ### What the texts of a type are made of -/

theorem printed_shortEscape {c letter : Char} (h : Literal.shortEscape? c = some letter) :
    0x20 ≤ letter.toNat := by
  rw [Literal.shortEscape?] at h
  split_ifs at h <;> · obtain rfl := Option.some.inj h; decide

theorem printed_unitEscape (n : Nat) : ∀ c ∈ Literal.unitEscape n, 0x20 ≤ c.toNat := by
  have hdigit : ∀ m : Nat, 0x20 ≤ (Literal.hexDigit (m % 16)).toNat := by
    intro m
    have h : ∀ d < 16, 0x20 ≤ (Literal.hexDigit d).toNat := by decide
    exact h _ (Nat.mod_lt _ (by decide))
  simp only [Literal.unitEscape, Literal.hex4, List.forall_mem_cons]
  exact ⟨by decide, by decide, hdigit _, hdigit _, hdigit _, hdigit _, List.forall_mem_nil _⟩

theorem printed_escapeChar (alphabet : Literal.Alphabet) (c : Char) :
    ∀ d ∈ Literal.escapeChar alphabet c, 0x20 ≤ d.toNat := by
  rw [Literal.escapeChar]
  cases hs : Literal.shortEscape? c with
  | some letter =>
    simp only [List.forall_mem_cons]
    exact ⟨by decide, printed_shortEscape hs, List.forall_mem_nil _⟩
  | none =>
    simp only
    split
    next hraw =>
      rw [Literal.Alphabet.isRaw, Bool.and_eq_true, decide_eq_true_eq] at hraw
      exact List.forall_mem_singleton.mpr hraw.1
    next =>
      rw [Literal.codeEscape]
      split
      · exact printed_unitEscape _
      · exact List.forall_mem_append.mpr ⟨printed_unitEscape _, printed_unitEscape _⟩

theorem isLiteral_body (cs : List Char) : IsLiteral (Literal.body .unicode cs) where
  escaped := escaped_body .unicode cs
  printed c hc := by
    obtain ⟨d, -, hd⟩ := List.mem_flatMap.mp hc
    exact printed_escapeChar .unicode d c hd

theorem isDoc_docOf (description : Option String) (deprecated : Bool) :
    ∀ body ∈ docOf description deprecated, IsDoc body := by
  intro body hbody
  rw [docOf] at hbody
  split at hbody
  next => cases hbody
  next =>
    obtain rfl := Option.some.inj hbody
    exact ⟨rfl, not_infix_docBody (by simp) _⟩

theorem valid_keyOf (name : String) : (keyOf name).Valid := by
  rw [keyOf]
  split
  next h => exact h
  next => exact isLiteral_body _

variable {spelled : Symbol String → String} {absent : Alternatives} {gaps : Bool}

theorem allValid_choices (cs : Option (List String)) : Conjunction.AllValid gaps (choices cs) := by
  rw [Conjunction.allValid_iff]
  rcases cs with _ | _ | ⟨c, cs⟩
  · simp [choices, Conjunction.Valid, Atom.AllValid, Atom.Valid]
  · simp [choices, Conjunction.Valid, Atom.AllValid, Atom.Valid]
  · simp [choices, Conjunction.Valid, Atom.AllValid, Atom.Valid, isLiteral_body]

theorem allValid_append {t t' : Alternatives} :
    Conjunction.AllValid gaps (t ++ t') ↔
      Conjunction.AllValid gaps t ∧ Conjunction.AllValid gaps t' := by
  simp only [Conjunction.allValid_iff, List.forall_mem_append]

theorem allValid_singleton {a : Atom} : Conjunction.AllValid gaps [[a]] ↔ a.Valid gaps := by
  simp [Conjunction.AllValid, Atom.AllValid]

theorem allValid_row {parents : List (Reference String)} {fields : List Field} :
    Conjunction.AllValid gaps
        [parents.map (fun r => Atom.name (spelled r.symbol)) ++ [.block fields]] ↔
      (∀ r ∈ parents, IsName (spelled r.symbol)) ∧ Field.AllValid gaps fields := by
  simp only [Conjunction.allValid_iff, List.forall_mem_singleton, Conjunction.Valid,
    Atom.allValid_iff, List.forall_mem_append, List.forall_mem_map]
  simp [Atom.Valid]

/-! ### Valid trees of types -/

mutual

/-- A tree of the grammar spells references by names, and has no gap. -/
theorem TypeExpr.names_of_allValid (t : TypeExpr String) (hr : t.holdsResource = false)
    (h : Conjunction.AllValid gaps (t.alternatives spelled absent)) :
    (∀ r ∈ t.references, IsName (spelled r.symbol)) ∧
      (absent = [[]] → gaps = false → t.holdsGap = false) := by
  cases t with
  | string cs | integer | float | boolean | unknown =>
    exact ⟨by simp [TypeExpr.references], fun _ _ => rfl⟩
  | array items =>
    rw [TypeExpr.alternatives, allValid_singleton] at h
    exact TypeExpr.names_of_allValid items hr h.2
  | map values =>
    rw [TypeExpr.alternatives, allValid_singleton] at h
    exact TypeExpr.names_of_allValid values hr h.2
  | optional value =>
    rw [TypeExpr.alternatives, allValid_append] at h
    exact TypeExpr.names_of_allValid value hr h.1
  | union variants =>
    rw [TypeExpr.holdsResource] at hr
    rw [TypeExpr.alternatives] at h
    rw [TypeExpr.references, TypeExpr.holdsGap]
    by_cases hn : variants = []
    · subst hn
      refine ⟨by simp [TypeExpr.allReferences], ?_⟩
      rintro rfl rfl
      simp [Conjunction.AllValid] at h
    · rw [if_neg (by simpa using hn)] at h
      obtain ⟨hnames, hgap⟩ := TypeExpr.names_of_allValid_all variants hr h
      exact ⟨hnames, fun ha hg => by simp [hn, hgap ha hg]⟩
  | reference target =>
    rw [TypeExpr.alternatives, allValid_singleton] at h
    exact ⟨List.forall_mem_singleton.mpr h, fun _ _ => rfl⟩
  | object properties parents =>
    rw [TypeExpr.alternatives, allValid_row] at h
    obtain ⟨hnames, hgap⟩ := Property.names_of_allValid_all properties hr h.2
    exact ⟨List.forall_mem_append.mpr ⟨h.1, hnames⟩, hgap⟩
  | resource properties scope => cases hr

theorem TypeExpr.names_of_allValid_all (ts : List (TypeExpr String))
    (hr : TypeExpr.anyHoldsResource ts = false)
    (h : Conjunction.AllValid gaps (TypeExpr.allAlternatives spelled absent ts)) :
    (∀ r ∈ TypeExpr.allReferences ts, IsName (spelled r.symbol)) ∧
      (absent = [[]] → gaps = false → TypeExpr.anyHoldsGap ts = false) := by
  cases ts with
  | nil => exact ⟨List.forall_mem_nil _, fun _ _ => rfl⟩
  | cons t rest =>
    rw [TypeExpr.anyHoldsResource, Bool.or_eq_false_iff] at hr
    rw [TypeExpr.allAlternatives, allValid_append] at h
    obtain ⟨hnames, hgap⟩ := TypeExpr.names_of_allValid t hr.1 h.1
    obtain ⟨hmore, hgaps⟩ := TypeExpr.names_of_allValid_all rest hr.2 h.2
    exact ⟨List.forall_mem_append.mpr ⟨hnames, hmore⟩,
      fun ha hg => by rw [TypeExpr.anyHoldsGap, hgap ha hg, hgaps ha hg]; rfl⟩

theorem Property.names_of_allValid (p : Property String) (hr : p.holdsResource = false)
    (h : (p.field spelled absent).Valid gaps) :
    (∀ r ∈ p.references, IsName (spelled r.symbol)) ∧
      (absent = [[]] → gaps = false → p.holdsGap = false) := by
  cases p with
  | mk name value required description deprecated =>
    rw [Property.field, Field.Valid, allValid_append] at h
    exact TypeExpr.names_of_allValid value hr h.2.2.2.1

theorem Property.names_of_allValid_all (ps : List (Property String))
    (hr : Property.anyHoldsResource ps = false)
    (h : Field.AllValid gaps (Property.fields spelled absent ps)) :
    (∀ r ∈ Property.allReferences ps, IsName (spelled r.symbol)) ∧
      (absent = [[]] → gaps = false → Property.anyHoldsGap ps = false) := by
  cases ps with
  | nil => exact ⟨List.forall_mem_nil _, fun _ _ => rfl⟩
  | cons p rest =>
    rw [Property.anyHoldsResource, Bool.or_eq_false_iff] at hr
    rw [Property.fields, Field.AllValid] at h
    obtain ⟨hnames, hgap⟩ := Property.names_of_allValid p hr.1 h.1
    obtain ⟨hmore, hgaps⟩ := Property.names_of_allValid_all rest hr.2 h.2
    exact ⟨List.forall_mem_append.mpr ⟨hnames, hmore⟩,
      fun ha hg => by rw [Property.anyHoldsGap, hgap ha hg, hgaps ha hg]; rfl⟩

end

mutual

/-- Names make a tree of the grammar, as long as no gap is left or gaps are allowed. -/
theorem TypeExpr.allValid_of_names (t : TypeExpr String) (hr : t.holdsResource = false)
    (hnames : ∀ r ∈ t.references, IsName (spelled r.symbol))
    (hgap : absent = [[]] ∧ gaps = true ∨ t.holdsGap = false) :
    Conjunction.AllValid gaps (t.alternatives spelled absent) := by
  have hne (u : TypeExpr String) (hu : u.holdsResource = false)
      (hg : absent = [[]] ∧ gaps = true ∨ u.holdsGap = false) :
      u.alternatives spelled absent ≠ [] :=
    (TypeExpr.chars_alternatives u hu (hg.imp_left And.left)).2
  cases t with
  | string cs =>
    rw [TypeExpr.alternatives]
    exact allValid_choices cs
  | integer | float | boolean | unknown =>
    rw [TypeExpr.alternatives, allValid_singleton]
    trivial
  | array items =>
    rw [TypeExpr.alternatives, allValid_singleton]
    exact ⟨hne items hr hgap, TypeExpr.allValid_of_names items hr hnames hgap⟩
  | map values =>
    rw [TypeExpr.alternatives, allValid_singleton]
    exact ⟨hne values hr hgap, TypeExpr.allValid_of_names values hr hnames hgap⟩
  | optional value =>
    rw [TypeExpr.alternatives, allValid_append, allValid_singleton]
    exact ⟨TypeExpr.allValid_of_names value hr hnames hgap, trivial⟩
  | union variants =>
    rw [TypeExpr.holdsResource] at hr
    rw [TypeExpr.holdsGap, Bool.or_eq_false_iff] at hgap
    rw [TypeExpr.references] at hnames
    rw [TypeExpr.alternatives]
    by_cases hn : variants = []
    · subst hn
      obtain ⟨rfl, rfl⟩ := hgap.resolve_right (by simp)
      simp [Conjunction.AllValid, Atom.AllValid]
    · rw [if_neg (by simpa using hn)]
      exact TypeExpr.allValid_of_names_all variants hr hnames (hgap.imp_right And.right)
  | reference target =>
    rw [TypeExpr.alternatives, allValid_singleton]
    exact hnames target (by simp [TypeExpr.references])
  | object properties parents =>
    rw [TypeExpr.references, List.forall_mem_append] at hnames
    rw [TypeExpr.alternatives, allValid_row]
    exact ⟨hnames.1, Property.allValid_of_names_all properties hr hnames.2 hgap⟩
  | resource properties scope => cases hr

theorem TypeExpr.allValid_of_names_all (ts : List (TypeExpr String))
    (hr : TypeExpr.anyHoldsResource ts = false)
    (hnames : ∀ r ∈ TypeExpr.allReferences ts, IsName (spelled r.symbol))
    (hgap : absent = [[]] ∧ gaps = true ∨ TypeExpr.anyHoldsGap ts = false) :
    Conjunction.AllValid gaps (TypeExpr.allAlternatives spelled absent ts) := by
  cases ts with
  | nil => trivial
  | cons t rest =>
    rw [TypeExpr.anyHoldsResource, Bool.or_eq_false_iff] at hr
    rw [TypeExpr.anyHoldsGap, Bool.or_eq_false_iff] at hgap
    rw [TypeExpr.allReferences, List.forall_mem_append] at hnames
    rw [TypeExpr.allAlternatives, allValid_append]
    exact ⟨TypeExpr.allValid_of_names t hr.1 hnames.1 (hgap.imp_right And.left),
      TypeExpr.allValid_of_names_all rest hr.2 hnames.2 (hgap.imp_right And.right)⟩

theorem Property.valid_of_names (p : Property String) (hr : p.holdsResource = false)
    (hnames : ∀ r ∈ p.references, IsName (spelled r.symbol))
    (hgap : absent = [[]] ∧ gaps = true ∨ p.holdsGap = false) :
    (p.field spelled absent).Valid gaps := by
  cases p with
  | mk name value required description deprecated =>
    have hvalue := TypeExpr.allValid_of_names value hr hnames hgap
    have hne : value.alternatives spelled absent ≠ [] :=
      (TypeExpr.chars_alternatives value hr (hgap.imp_left And.left)).2
    rw [Property.field, Field.Valid, allValid_append]
    refine ⟨isDoc_docOf description deprecated, valid_keyOf name, by simp [hne], hvalue, ?_⟩
    split
    next => trivial
    next => exact allValid_singleton.mpr trivial

theorem Property.allValid_of_names_all (ps : List (Property String))
    (hr : Property.anyHoldsResource ps = false)
    (hnames : ∀ r ∈ Property.allReferences ps, IsName (spelled r.symbol))
    (hgap : absent = [[]] ∧ gaps = true ∨ Property.anyHoldsGap ps = false) :
    Field.AllValid gaps (Property.fields spelled absent ps) := by
  cases ps with
  | nil => trivial
  | cons p rest =>
    rw [Property.anyHoldsResource, Bool.or_eq_false_iff] at hr
    rw [Property.anyHoldsGap, Bool.or_eq_false_iff] at hgap
    rw [Property.allReferences, List.forall_mem_append] at hnames
    exact ⟨Property.valid_of_names p hr.1 hnames.1 (hgap.imp_right And.left),
      Property.allValid_of_names_all rest hr.2 hnames.2 (hgap.imp_right And.right)⟩

end

/-! ### Derivations -/

mutual

theorem Grammar.Atom.Valid.mono (a : Atom) (h : a.Valid false) : a.Valid true := by
  cases a with
  | keyword k => trivial
  | literal body => exact h
  | name x => exact h
  | array items => exact ⟨h.1, Conjunction.allValid_mono items h.2⟩
  | record values => exact ⟨h.1, Conjunction.allValid_mono values h.2⟩
  | block fields => exact Field.allValid_mono fields h

theorem Grammar.Atom.allValid_mono (as : List Atom) (h : Atom.AllValid false as) :
    Atom.AllValid true as := by
  cases as with
  | nil => trivial
  | cons a rest => exact ⟨Atom.Valid.mono a h.1, Atom.allValid_mono rest h.2⟩

theorem Grammar.Conjunction.allValid_mono (cs : List (List Atom))
    (h : Conjunction.AllValid false cs) : Conjunction.AllValid true cs := by
  cases cs with
  | nil => trivial
  | cons c rest =>
    exact ⟨⟨.inl rfl, Atom.allValid_mono c h.1.2⟩, Conjunction.allValid_mono rest h.2⟩

theorem Grammar.Field.valid_mono (f : Field) (h : f.Valid false) : f.Valid true := by
  cases f with
  | mk doc key optional value =>
    exact ⟨h.1, h.2.1, h.2.2.1, Conjunction.allValid_mono value h.2.2.2⟩

theorem Grammar.Field.allValid_mono (fs : List Field) (h : Field.AllValid false fs) :
    Field.AllValid true fs := by
  cases fs with
  | nil => trivial
  | cons f rest => exact ⟨Field.valid_mono f h.1, Field.allValid_mono rest h.2⟩

end

/-- The text of a type whose references are spelled by names is read by its flattened tree, if
every union has a variant, and by nothing else. -/
theorem TypeExpr.derives_iff_of_names (t : TypeExpr String) (hr : t.holdsResource = false)
    (hnames : ∀ r ∈ t.references, IsName (spelled r.symbol)) (tree : Alternatives) :
    Derives tree (Segment.text (t.segments spelled)) ↔
      t.holdsGap = false ∧ tree = t.alternatives spelled [] := by
  have htext : (Segment.text (t.segments spelled)).toList =
      (t.segments spelled).flatMap Segment.chars := String.toList_ofList
  have hvalid (hgap : t.holdsGap = false) :
      Conjunction.AllValid false (t.alternatives spelled []) :=
    TypeExpr.allValid_of_names t hr hnames (.inr hgap)
  constructor
  · rintro ⟨htree, hread⟩
    -- the tree with gaps has the same text, so the gaps are none
    have hgapped : Conjunction.AllValid true (t.alternatives spelled [[]]) :=
      TypeExpr.allValid_of_names t hr hnames (.inl ⟨rfl, rfl⟩)
    obtain ⟨hchars, hne⟩ := TypeExpr.chars_alternatives t hr (.inl rfl)
    have htree' : tree.Valid true := ⟨htree.1, Conjunction.allValid_mono _ htree.2⟩
    have hsame : tree = t.alternatives spelled [[]] :=
      Alternatives.chars_inj htree' ⟨hne, hgapped⟩ (by rw [hread, htext, hchars])
    have hclosed := htree.2
    rw [hsame] at hclosed
    have hgap := (TypeExpr.names_of_allValid t hr hclosed).2 rfl rfl
    obtain ⟨hchars, hne⟩ := TypeExpr.chars_alternatives t hr (.inr hgap)
    exact ⟨hgap, Alternatives.chars_inj htree' ⟨hne, Conjunction.allValid_mono _ (hvalid hgap)⟩
      (by rw [hread, htext, hchars])⟩
  · rintro ⟨hgap, rfl⟩
    obtain ⟨hchars, hne⟩ := TypeExpr.chars_alternatives t hr (.inr hgap)
    exact ⟨⟨hne, hvalid hgap⟩, by rw [hchars, htext]⟩

/-- The flattened tree reads the text of a type, and nothing else does, exactly if every union
has a variant and every reference is spelled by a name. -/
theorem TypeExpr.derives_segments_iff (t : TypeExpr String) (hr : t.holdsResource = false) :
    (∀ tree, Derives tree (Segment.text (t.segments spelled)) ↔ tree = t.alternatives spelled []) ↔
      t.holdsGap = false ∧ ∀ r ∈ t.references, IsName (spelled r.symbol) := by
  constructor
  · intro h
    have hnames := (TypeExpr.names_of_allValid t hr ((h _).mpr rfl).1.2).1
    exact ⟨((t.derives_iff_of_names hr hnames _).mp ((h _).mpr rfl)).1, hnames⟩
  · rintro ⟨hgap, hnames⟩ tree
    rw [t.derives_iff_of_names hr hnames, and_iff_right hgap]

end ApiTypes
