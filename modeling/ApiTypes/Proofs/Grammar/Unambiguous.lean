import ApiTypes.Proofs.Grammar.Tree

/-! A text is read by one tree at most. What a tree writes is told apart from what any other
one writes, also with more text behind it, as long as what follows cannot belong to it: a
part ends before a blank, an angle or a semicolon, and a separator ends the rows of the level
below it. Names, keywords, arrays and records begin with a word, so the longest word at the
start of a text is that of its first part. -/

namespace ApiTypes.Grammar

open Text Scan

/-- Two things are told apart by their texts before what may follow them. -/
def Tells {α : Type} (f : α → List Char) (Ends : List Char → Prop) (a a' : α) : Prop :=
  ∀ r r', Ends r → Ends r' → f a ++ r = f a' ++ r' → a = a' ∧ r = r'

/-! ### Words, literals and comments -/

theorem word_append_inj {w w' r r' : List Char} (hw : ∀ c ∈ w, Export.isNameChar c = true)
    (hw' : ∀ c ∈ w', Export.isNameChar c = true)
    (hr : ∀ c ∈ r.head?, Export.isNameChar c = false)
    (hr' : ∀ c ∈ r'.head?, Export.isNameChar c = false) (h : w ++ r = w' ++ r') :
    w = w' ∧ r = r' := by
  have hcut : ∀ {v s : List Char}, (∀ c ∈ v, Export.isNameChar c = true) →
      (∀ c ∈ s.head?, Export.isNameChar c = false) → (v ++ s).takeWhile Export.isNameChar = v := by
    intro v s hv hs
    have hnone : s.takeWhile Export.isNameChar = [] := by
      cases s with
      | nil => rfl
      | cons c s => rw [List.takeWhile_cons, hs c rfl]; rfl
    rw [List.takeWhile_append_of_pos hv, hnone, List.append_nil]
  have hwords : w = w' := by rw [← hcut hw hr, h, hcut hw' hr']
  subst hwords
  exact ⟨rfl, List.append_cancel_left h⟩

theorem quoted_append_inj {b b' r r' : List Char} (hb : IsLiteral b) (hb' : IsLiteral b')
    (h : quotedChars b ++ r = quotedChars b' ++ r') : b = b' ∧ r = r' := by
  have h : b ++ '\x22' :: r = b' ++ '\x22' :: r' := by simpa [quotedChars] using h
  have hs := congrArg (scan (.literal [])) h
  rw [scan_escaped hb.escaped, scan_escaped hb'.escaped] at hs
  obtain rfl := Token.literal.inj (List.cons.inj hs).1
  exact ⟨rfl, (List.cons.inj (List.append_cancel_left h)).2⟩

theorem comment_append_inj {b b' r r' : List Char} (hb : IsDoc b) (hb' : IsDoc b')
    (h : commentChars b ++ r = commentChars b' ++ r') : b = b' ∧ r = r' := by
  have h : b ++ '*' :: '/' :: r = b' ++ '*' :: '/' :: r' := by simpa [commentChars] using h
  have hs := congrArg (scan (.comment [])) h
  rw [scan_comment hb.closed, scan_comment hb'.closed] at hs
  obtain rfl := Token.comment.inj (List.cons.inj hs).1
  have hrest := List.append_cancel_left h
  exact ⟨rfl, (List.cons.inj (List.cons.inj hrest).2).2⟩

/-! ### Rows with separators -/

section

variable {α : Type} {f : α → List Char} {separator : List Char} {Ends : List Char → Prop}

theorem ends_tail (hsep : ∀ x, Ends (separator ++ x)) {r : List Char} (hr : Ends r)
    (xs : List (List Char)) : Ends (xs.flatMap (separator ++ ·) ++ r) := by
  cases xs with
  | nil => exact hr
  | cons x xs =>
    rw [List.flatMap_cons, List.append_assoc, List.append_assoc]
    exact hsep _

theorem tail_append_inj (hsep : ∀ x, Ends (separator ++ x)) {as as' : List α}
    (hf : ∀ a ∈ as, ∀ a' ∈ as', Tells f Ends a a') {r r' : List Char} (hr : Ends r)
    (hr' : Ends r') (hn : ¬ separator <+: r) (hn' : ¬ separator <+: r')
    (h : (as.map f).flatMap (separator ++ ·) ++ r = (as'.map f).flatMap (separator ++ ·) ++ r') :
    as = as' ∧ r = r' := by
  induction as generalizing as' with
  | nil =>
    cases as' with
    | nil => exact ⟨rfl, h⟩
    | cons a' as' =>
      refine absurd ?_ hn
      have hr : r = separator ++ (f a' ++ ((as'.map f).flatMap (separator ++ ·) ++ r')) := by
        simpa using h
      exact hr ▸ List.prefix_append ..
  | cons a as ih =>
    cases as' with
    | nil =>
      refine absurd ?_ hn'
      have hr' : separator ++ (f a ++ ((as.map f).flatMap (separator ++ ·) ++ r)) = r' := by
        simpa using h
      exact hr' ▸ List.prefix_append ..
    | cons a' as' =>
      simp only [List.map_cons, List.flatMap_cons, List.append_assoc, List.append_cancel_left_eq]
        at h
      obtain ⟨rfl, htail⟩ := hf a List.mem_cons_self a' List.mem_cons_self _ _
        (ends_tail hsep hr _) (ends_tail hsep hr' _) h
      obtain ⟨rfl, rfl⟩ := ih (fun b hb b' hb' =>
        hf b (List.mem_cons_of_mem _ hb) b' (List.mem_cons_of_mem _ hb')) htail
      exact ⟨rfl, rfl⟩

/-- Rows are told apart if their items are, before what neither ends an item nor goes on. -/
theorem joined_append_inj (hsep : ∀ x, Ends (separator ++ x)) {as as' : List α} (hne : as ≠ [])
    (hne' : as' ≠ []) (hf : ∀ a ∈ as, ∀ a' ∈ as', Tells f Ends a a') {r r' : List Char}
    (hr : Ends r) (hr' : Ends r') (hn : ¬ separator <+: r) (hn' : ¬ separator <+: r')
    (h : joined separator (as.map f) ++ r = joined separator (as'.map f) ++ r') :
    as = as' ∧ r = r' := by
  obtain ⟨a, as, rfl⟩ := List.exists_cons_of_ne_nil hne
  obtain ⟨a', as', rfl⟩ := List.exists_cons_of_ne_nil hne'
  simp only [List.map_cons, joined, List.append_assoc] at h
  obtain ⟨rfl, htail⟩ := hf a List.mem_cons_self a' List.mem_cons_self _ _
    (ends_tail hsep hr _) (ends_tail hsep hr' _) h
  obtain ⟨rfl, rfl⟩ := tail_append_inj hsep (fun b hb b' hb' =>
    hf b (List.mem_cons_of_mem _ hb) b' (List.mem_cons_of_mem _ hb')) hr hr' hn hn' htail
  exact ⟨rfl, rfl⟩

end

/-! ### Trees by their parts -/

variable (gaps : Bool)

theorem Atom.allValid_iff (as : List Atom) :
    Atom.AllValid gaps as ↔ ∀ a ∈ as, a.Valid gaps := by
  induction as with
  | nil => simp [Atom.AllValid]
  | cons a rest ih => rw [Atom.AllValid, ih, List.forall_mem_cons]

theorem Conjunction.allValid_iff (cs : List Conjunction) :
    Conjunction.AllValid gaps cs ↔ ∀ c ∈ cs, Conjunction.Valid gaps c := by
  induction cs with
  | nil => simp [Conjunction.AllValid]
  | cons c rest ih =>
    rw [Conjunction.AllValid, ih, List.forall_mem_cons]
    rfl

theorem Field.allValid_iff (fs : List Field) :
    Field.AllValid gaps fs ↔ ∀ f ∈ fs, f.Valid gaps := by
  induction fs with
  | nil => simp [Field.AllValid]
  | cons f rest ih => rw [Field.AllValid, ih, List.forall_mem_cons]

/-! ### What may follow -/

/-- The end of a part. -/
def Stops (r : List Char) : Prop :=
  ∀ c ∈ r.head?, c = ' ' ∨ c = '>' ∨ c = ';'

/-- The end of a conjunction. -/
def Parts (r : List Char) : Prop :=
  Stops r ∧ ¬ ampersand <+: r

/-- The end of a type. -/
def Closes (r : List Char) : Prop :=
  ∀ c ∈ r.head?, c = '>' ∨ c = ';'

theorem Stops.not_name {r : List Char} (h : Stops r) :
    ∀ c ∈ r.head?, Export.isNameChar c = false := by
  intro c hc
  rcases h c hc with rfl | rfl | rfl <;> decide

theorem Closes.not_blank {r : List Char} (h : Closes r) {x : Char} (hx : x ≠ '>' ∧ x ≠ ';')
    (xs : List Char) : ¬ (x :: xs) <+: r := by
  rintro ⟨s, rfl⟩
  exact (h x rfl).elim hx.1 hx.2

theorem Closes.parts {r : List Char} (h : Closes r) : Parts r :=
  ⟨fun c hc => .inr (h c hc), h.not_blank (by decide) _⟩

theorem parts_bar (x : List Char) : Parts (bar ++ x) := by
  constructor
  · simp [Stops, bar]
  · simp [ampersand, bar]

/-! ### The words of parts -/

namespace Atom

/-- The word that a part begins with. -/
def lead : Atom → List Char
  | .keyword k => k.text.toList
  | .name x => x.toList
  | .array _ => ['A', 'r', 'r', 'a', 'y']
  | .record _ => ['R', 'e', 'c', 'o', 'r', 'd']
  | .literal _ | .block _ => []

/-- What stands behind the word of a part. -/
def rest : Atom → List Char
  | .keyword _ | .name _ => []
  | .array items => '<' :: (Alternatives.chars items ++ ['>'])
  | .record values =>
    '<' :: (['s', 't', 'r', 'i', 'n', 'g', ',', ' '] ++ Alternatives.chars values ++ ['>'])
  | .literal body => quotedChars body
  | .block fields => blockChars (Field.texts fields)

/-- The first character behind the word of a part. -/
def mark : Atom → Option Char
  | .keyword _ | .name _ => none
  | .array _ | .record _ => some '<'
  | .literal _ => some '\x22'
  | .block _ => some '\x7b'

theorem chars_eq (a : Atom) : a.chars = a.lead ++ a.rest := by
  cases a with
  | keyword k => rw [chars, lead, rest, List.append_nil]
  | name x => rw [chars, lead, rest, List.append_nil]
  | literal body => rw [chars, lead, rest, List.nil_append]
  | block fields => rw [chars, lead, rest, List.nil_append]
  | array items => rw [chars, lead, rest, arrayChars, Alternatives.chars]
  | record values => rw [chars, lead, rest, recordChars, Alternatives.chars]

theorem head?_rest (a : Atom) : a.rest.head? = a.mark := by
  cases a with
  | block fields =>
    rw [rest, blockChars, mark]
    split <;> rfl
  | keyword k | name x | literal body | array items | record values => rfl

/-- A mark neither goes on with a name nor ends a part. -/
theorem mark_ne (a : Atom) {c : Char} (h : a.mark = some c) :
    Export.isNameChar c = false ∧ ¬ (c = ' ' ∨ c = '>' ∨ c = ';') := by
  have hmarks : c = '<' ∨ c = '\x22' ∨ c = '\x7b' := by
    cases a <;> simp_all [mark, eq_comm]
  rcases hmarks with rfl | rfl | rfl <;> decide

theorem lead_name {a : Atom} (h : a.Valid gaps) : ∀ c ∈ a.lead, Export.isNameChar c = true := by
  cases a with
  | keyword k =>
    have hall : k.text.toList.all Export.isNameChar = true := by cases k <;> decide
    exact List.all_eq_true.mp hall
  | name x => exact h.identifier.chars
  | array items =>
    have hall : ['A', 'r', 'r', 'a', 'y'].all Export.isNameChar = true := by decide
    exact List.all_eq_true.mp hall
  | record values =>
    have hall : ['R', 'e', 'c', 'o', 'r', 'd'].all Export.isNameChar = true := by decide
    exact List.all_eq_true.mp hall
  | literal body => exact List.forall_mem_nil _
  | block fields => exact List.forall_mem_nil _

/-- A part has a word or a mark at its beginning, so it is not the end of another one. -/
theorem not_stops {a : Atom} (h : a.Valid gaps) (r : List Char) : ¬ Stops (a.chars ++ r) := by
  rw [chars_eq, List.append_assoc]
  intro hs
  cases hl : a.lead with
  | cons c w =>
    rw [hl] at hs
    have hname := lead_name gaps h c (by rw [hl]; exact List.mem_cons_self)
    rw [hs.not_name c rfl] at hname
    cases hname
  | nil =>
    rw [hl, List.nil_append] at hs
    cases hm : a.mark with
    | some c =>
      have hc : c ∈ (a.rest ++ r).head? := by
        rw [List.head?_append, head?_rest, hm]
        rfl
      exact (a.mark_ne hm).2 (hs c hc)
    | none =>
      cases a with
      | keyword k => cases k <;> cases hl
      | name x => exact h.identifier.nonempty (String.toList_eq_nil_iff.mp hl)
      | _ => cases hm

/-- Behind its word a part has no character of names. -/
theorem rest_not_name (a : Atom) {r : List Char} (hr : Stops r) :
    ∀ c ∈ (a.rest ++ r).head?, Export.isNameChar c = false := by
  intro c hc
  rw [List.head?_append, head?_rest] at hc
  cases hm : a.mark with
  | some d =>
    rw [hm] at hc
    obtain rfl := Option.some.inj hc
    exact (a.mark_ne hm).1
  | none =>
    rw [hm] at hc
    exact hr.not_name c hc

theorem mark_of_rest_append {a a' : Atom} {r r' : List Char} (hr' : Stops r')
    (h : a.rest ++ r = a'.rest ++ r') {c : Char} (hc : a.mark = some c) : a'.mark = some c := by
  have hhead := congrArg List.head? h
  rw [List.head?_append, List.head?_append, head?_rest, head?_rest, hc] at hhead
  cases hm : a'.mark with
  | some d =>
    rw [hm] at hhead
    exact hhead.symm
  | none =>
    rw [hm] at hhead
    exact absurd (hr' c hhead.symm) (a.mark_ne hc).2

/-- Parts with one text have one word, and the same mark behind it. -/
theorem lead_append_inj {a a' : Atom} (ha : a.Valid gaps) (ha' : a'.Valid gaps) {r r' : List Char}
    (hr : Stops r) (hr' : Stops r') (h : a.chars ++ r = a'.chars ++ r') :
    a.lead = a'.lead ∧ a.mark = a'.mark ∧ a.rest ++ r = a'.rest ++ r' := by
  rw [chars_eq, chars_eq, List.append_assoc, List.append_assoc] at h
  obtain ⟨hlead, hrest⟩ := word_append_inj (lead_name gaps ha) (lead_name gaps ha')
    (a.rest_not_name hr) (a'.rest_not_name hr') h
  refine ⟨hlead, Option.ext fun c => ?_, hrest⟩
  exact ⟨mark_of_rest_append hr' hrest, mark_of_rest_append hr hrest.symm⟩

end Atom

/-! ### Rows of parts -/

variable {gaps}

/-- A part that is told apart from every other one. -/
def Atom.Told (a : Atom) : Prop :=
  a.Valid true → ∀ a', a'.Valid true → Tells Atom.chars Stops a a'

theorem Conjunction.tells {c c' : Conjunction} (hc : Conjunction.Valid true c)
    (hc' : Conjunction.Valid true c') (h : ∀ a ∈ c, a.Told) :
    Tells Conjunction.chars Parts c c' := by
  intro r r' hr hr' he
  have hv := (Atom.allValid_iff true c).mp hc.2
  have hv' := (Atom.allValid_iff true c').mp hc'.2
  have hopen : ∀ {as : List Atom}, (∀ a ∈ as, a.Valid true) → ∀ {s s' : List Char}, Stops s →
      s = joined ampersand (as.map Atom.chars) ++ s' → as = [] := by
    intro as has s s' hs heq
    cases as with
    | nil => rfl
    | cons a as =>
      rw [List.map_cons, joined, List.append_assoc] at heq
      exact absurd (heq ▸ hs) (Atom.not_stops true (has a List.mem_cons_self) _)
  rw [Conjunction.chars, Conjunction.chars, allOf, allOf, Atom.texts_eq, Atom.texts_eq] at he
  by_cases hn : c = []
  · subst hn
    obtain rfl := hopen hv' hr.1 he
    exact ⟨rfl, he⟩
  by_cases hn' : c' = []
  · subst hn'
    exact absurd (hopen hv hr'.1 he.symm) hn
  have hsep : ∀ x, Stops (ampersand ++ x) := fun x => by simp [Stops, ampersand]
  exact joined_append_inj hsep hn hn' (fun a ha a' ha' => h a ha (hv a ha) a' (hv' a' ha')) hr.1
    hr'.1 hr.2 hr'.2 he

theorem Alternatives.append_inj {t t' : Alternatives} (ht : t.Valid true) (ht' : t'.Valid true)
    (h : ∀ c ∈ t, ∀ a ∈ c, a.Told) {r r' : List Char} (hr : Closes r) (hr' : Closes r')
    (he : t.chars ++ r = t'.chars ++ r') : t = t' ∧ r = r' := by
  have hv := (Conjunction.allValid_iff true t).mp ht.2
  have hv' := (Conjunction.allValid_iff true t').mp ht'.2
  rw [Alternatives.chars, Alternatives.chars, oneOf, oneOf, Conjunction.texts_eq,
    Conjunction.texts_eq] at he
  exact joined_append_inj parts_bar ht.1 ht'.1
    (fun c hc c' hc' => Conjunction.tells (hv c hc) (hv' c' hc') (h c hc)) hr.parts hr'.parts
    (hr.not_blank (by decide) _) (hr'.not_blank (by decide) _) he

/-- So a type is told apart inside of an array or a record. -/
theorem Alternatives.angle_append_inj {t t' : Alternatives} (ht : t.Valid true)
    (ht' : t'.Valid true) (h : ∀ c ∈ t, ∀ a ∈ c, a.Told) {r r' : List Char}
    (he : t.chars ++ '>' :: r = t'.chars ++ '>' :: r') : t = t' ∧ r = r' := by
  have hangle : ∀ s : List Char, Closes ('>' :: s) := fun s => by simp [Closes]
  obtain ⟨rfl, hr⟩ := Alternatives.append_inj ht ht' h (hangle r) (hangle r') he
  exact ⟨rfl, (List.cons.inj hr).2⟩

/-! ### Fields -/

theorem Key.head_ne {k : Key} (hk : k.Valid) (r : List Char) : (k.chars ++ r).head? ≠ some '/' := by
  cases k with
  | quoted body => simp [Key.chars, quotedChars]
  | bare x =>
    rw [Key.chars]
    cases hx : x.toList with
    | nil => rw [Key.Valid, hx] at hk; cases hk
    | cons c cs =>
      rintro hc
      obtain rfl := Option.some.inj hc
      rw [Key.Valid, hx] at hk
      cases hk

theorem Key.name_of_bare {x : String} (h : (Key.bare x).Valid) :
    ∀ c ∈ x.toList, Export.isNameChar c = true := by
  intro c hc
  rw [Export.isNameChar, word_of_isIdentifier h c hc]
  rfl

theorem Key.bare_ne_quoted {x : String} (h : (Key.bare x).Valid) (body r r' : List Char) :
    (Key.bare x).chars ++ r ≠ (Key.quoted body).chars ++ r' := by
  intro he
  rw [Key.chars] at he
  cases hx : x.toList with
  | nil => rw [Key.Valid, hx] at h; cases h
  | cons c cs =>
    rw [hx] at he
    obtain rfl := (List.cons.inj he).1
    have hquote := Key.name_of_bare h '\x22' (by rw [hx]; exact List.mem_cons_self)
    cases hquote

theorem Key.append_inj {k k' : Key} (hk : k.Valid) (hk' : k'.Valid) {r r' : List Char}
    (hr : ∀ c ∈ r.head?, Export.isNameChar c = false)
    (hr' : ∀ c ∈ r'.head?, Export.isNameChar c = false) (h : k.chars ++ r = k'.chars ++ r') :
    k = k' ∧ r = r' := by
  cases k with
  | bare x =>
    cases k' with
    | bare x' =>
      obtain ⟨hx, hrest⟩ := word_append_inj (name_of_bare hk) (name_of_bare hk') hr hr' h
      exact ⟨congrArg Key.bare (String.toList_injective hx), hrest⟩
    | quoted body' => exact absurd h (bare_ne_quoted hk body' r r')
  | quoted body =>
    cases k' with
    | bare x' => exact absurd h.symm (bare_ne_quoted hk' body r' r)
    | quoted body' =>
      obtain ⟨rfl, hrest⟩ := quoted_append_inj hk hk' h
      exact ⟨rfl, hrest⟩

/-- The documentation of a field begins with a slash, and its key does not. -/
theorem Key.doc_append_inj {doc doc' : Option (List Char)} (hdoc : ∀ body ∈ doc, IsDoc body)
    (hdoc' : ∀ body ∈ doc', IsDoc body) {k k' : Key} (hk : k.Valid) (hk' : k'.Valid)
    {r r' : List Char}
    (h : (doc.elim [] fun body => commentChars body ++ margin) ++ (k.chars ++ r) =
      (doc'.elim [] fun body => commentChars body ++ margin) ++ (k'.chars ++ r')) :
    doc = doc' ∧ k.chars ++ r = k'.chars ++ r' := by
  cases doc with
  | none =>
    cases doc' with
    | none => exact ⟨rfl, h⟩
    | some body' => exact absurd (congrArg List.head? h) (Key.head_ne hk r)
  | some body =>
    cases doc' with
    | none => exact absurd (congrArg List.head? h).symm (Key.head_ne hk' r')
    | some body' =>
      simp only [Option.elim_some, List.append_assoc] at h
      obtain ⟨rfl, hrest⟩ := comment_append_inj (hdoc body rfl) (hdoc' body' rfl) h
      exact ⟨rfl, List.append_cancel_left hrest⟩

/-- What stands between the key of a field and its value. -/
theorem colon_append_inj {o o' : Bool} {r r' : List Char}
    (h : (if o then ['?', ':', ' '] else [':', ' ']) ++ r =
      (if o' then ['?', ':', ' '] else [':', ' ']) ++ r') : o = o' ∧ r = r' := by
  have ho : o = o' := by
    have hhead := congrArg List.head? h
    cases o <;> cases o' <;> simp_all
  subst ho
  exact ⟨rfl, List.append_cancel_left h⟩

theorem colon_not_name (o : Bool) (r : List Char) :
    ∀ c ∈ ((if o then ['?', ':', ' '] else [':', ' ']) ++ r).head?,
      Export.isNameChar c = false := by
  intro c hc
  cases o
  · obtain rfl := Option.some.inj hc
    decide
  · obtain rfl := Option.some.inj hc
    decide

/-- A field that is told apart from every other one. -/
def Field.Told (f : Field) : Prop :=
  f.Valid true → ∀ f', f'.Valid true → Tells Field.chars (fun _ => True) f f'

theorem Field.told_of_value {doc : Option (List Char)} {key : Key} {optional : Bool}
    {value : Alternatives} (h : ∀ c ∈ value, ∀ a ∈ c, a.Told) :
    (Field.mk doc key optional value).Told := by
  rintro ⟨hdoc, hkey, hvalue⟩ ⟨doc', key', optional', value'⟩ ⟨hdoc', hkey', hvalue'⟩ r r' - - he
  simp only [Field.chars, fieldChars, List.append_assoc] at he
  obtain ⟨rfl, hkeys⟩ := Key.doc_append_inj hdoc hdoc' hkey hkey' he
  obtain ⟨rfl, hmarks⟩ := Key.append_inj hkey hkey' (colon_not_name _ _) (colon_not_name _ _) hkeys
  obtain ⟨rfl, hvalues⟩ := colon_append_inj hmarks
  have hcloses : ∀ s : List Char, Closes ([';'] ++ s) := fun s => by simp [Closes]
  obtain ⟨rfl, hrest⟩ := Alternatives.append_inj hvalue hvalue' h (hcloses r) (hcloses r') hvalues
  exact ⟨rfl, List.append_cancel_left hrest⟩

/-- Blocks are told apart if their fields are. -/
theorem Field.block_append_inj {fs fs' : List Field} (hv : Field.AllValid true fs)
    (hv' : Field.AllValid true fs') (h : ∀ f ∈ fs, f.Told) {r r' : List Char}
    (he : blockChars (Field.texts fs) ++ r = blockChars (Field.texts fs') ++ r') :
    fs = fs' ∧ r = r' := by
  rw [Field.allValid_iff] at hv hv'
  simp only [blockChars, Field.texts_eq, List.isEmpty_map] at he
  by_cases hn : fs = []
  · by_cases hn' : fs' = []
    · subst hn hn'
      exact ⟨rfl, List.append_cancel_left he⟩
    · simp [hn, hn', margin] at he
  by_cases hn' : fs' = []
  · simp [hn, hn', margin] at he
  simp only [List.isEmpty_iff, hn, hn', if_false, List.cons_append, List.append_assoc,
    List.cons.injEq, true_and, List.append_cancel_left_eq] at he
  -- behind the last field the margin is missing
  obtain ⟨rfl, hr⟩ := joined_append_inj (fun _ => trivial) hn hn'
    (fun f hf f' hf' => h f hf (hv f hf) f' (hv' f' hf')) trivial trivial
    (by simp [margin]) (by simp [margin]) he
  exact ⟨rfl, (List.cons.inj (List.cons.inj hr).2).2⟩

/-! ### Every tree -/

theorem Keyword.text_inj {k k' : Keyword} (h : k.text = k'.text) : k = k' := by
  cases k <;> cases k' <;> simp_all [Keyword.text]

/-- A part is told apart if its own parts are. -/
theorem Atom.told_of_parts {a : Atom}
    (hitems : ∀ t, a = .array t ∨ a = .record t → ∀ c ∈ t, ∀ b ∈ c, b.Told)
    (hfields : ∀ fs, a = .block fs → ∀ f ∈ fs, f.Told) : a.Told := by
  intro ha a' ha' r r' hr hr' he
  obtain ⟨hlead, hmark, hrest⟩ := Atom.lead_append_inj true ha ha' hr hr' he
  cases a with
  | keyword k =>
    cases a' with
    | keyword k' =>
      exact ⟨congrArg Atom.keyword (Keyword.text_inj (String.toList_injective hlead)), hrest⟩
    | name x => exact absurd (String.toList_injective hlead).symm (ha'.other k)
    | _ => simp [mark] at hmark
  | name x =>
    cases a' with
    | keyword k => exact absurd (String.toList_injective hlead) (ha.other k)
    | name x' => exact ⟨congrArg Atom.name (String.toList_injective hlead), hrest⟩
    | _ => simp [mark] at hmark
  | literal body =>
    cases a' with
    | literal body' =>
      obtain ⟨rfl, hr⟩ := quoted_append_inj ha ha' hrest
      exact ⟨rfl, hr⟩
    | _ => simp [mark] at hmark
  | array items =>
    cases a' with
    | array items' =>
      simp only [rest, List.cons_append, List.append_assoc, List.cons.injEq, true_and] at hrest
      obtain ⟨rfl, hr⟩ := Alternatives.angle_append_inj ha ha' (hitems items (.inl rfl)) hrest
      exact ⟨rfl, hr⟩
    | record values => simp [lead] at hlead
    | _ => simp [mark] at hmark
  | record values =>
    cases a' with
    | array items => simp [lead] at hlead
    | record values' =>
      simp only [rest, List.cons_append, List.append_assoc, List.cons.injEq, true_and] at hrest
      obtain ⟨rfl, hr⟩ := Alternatives.angle_append_inj ha ha' (hitems values (.inr rfl)) hrest
      exact ⟨rfl, hr⟩
    | _ => simp [mark] at hmark
  | block fields =>
    cases a' with
    | block fields' =>
      obtain ⟨rfl, hr⟩ := Field.block_append_inj ha ha' (hfields fields rfl) hrest
      exact ⟨rfl, hr⟩
    | _ => simp [mark] at hmark

mutual

theorem Atom.told (a : Atom) : a.Told := by
  cases a with
  | array items =>
    have hitems := Conjunction.all_told items
    refine Atom.told_of_parts (fun t ht => ?_) (fun _ h => by cases h)
    obtain rfl : items = t := by simpa using ht
    exact hitems
  | record values =>
    have hvalues := Conjunction.all_told values
    refine Atom.told_of_parts (fun t ht => ?_) (fun _ h => by cases h)
    obtain rfl : values = t := by simpa using ht
    exact hvalues
  | block fields =>
    have hfields := Field.all_told fields
    refine Atom.told_of_parts (fun _ h => by simp at h) (fun fs h => ?_)
    obtain rfl := Atom.block.inj h
    exact hfields
  | keyword k | literal body | name x =>
    exact Atom.told_of_parts (fun _ h => by simp at h) (fun _ h => by cases h)

theorem Atom.all_told (as : List Atom) : ∀ a ∈ as, a.Told := by
  cases as with
  | nil => exact List.forall_mem_nil _
  | cons a rest => exact List.forall_mem_cons.mpr ⟨Atom.told a, Atom.all_told rest⟩

theorem Conjunction.all_told (cs : List (List Atom)) : ∀ c ∈ cs, ∀ a ∈ c, a.Told := by
  cases cs with
  | nil => exact List.forall_mem_nil _
  | cons c rest => exact List.forall_mem_cons.mpr ⟨Atom.all_told c, Conjunction.all_told rest⟩

theorem Field.told (f : Field) : f.Told := by
  cases f with
  | mk doc key optional value => exact Field.told_of_value (Conjunction.all_told value)

theorem Field.all_told (fs : List Field) : ∀ f ∈ fs, f.Told := by
  cases fs with
  | nil => exact List.forall_mem_nil _
  | cons f rest => exact List.forall_mem_cons.mpr ⟨Field.told f, Field.all_told rest⟩

end

/-- A text has one tree at most, with gaps or without. -/
theorem Alternatives.chars_inj {t t' : Alternatives} (ht : t.Valid true) (ht' : t'.Valid true)
    (h : t.chars = t'.chars) : t = t' := by
  have hnil : Closes [] := fun _ hc => by cases hc
  have hchars : t.chars ++ [] = t'.chars ++ [] := by rw [h]
  exact (Alternatives.append_inj ht ht' (Conjunction.all_told t) hnil hnil hchars).1

end ApiTypes.Grammar
