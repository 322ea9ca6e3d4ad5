import ApiTypes.Proofs.Module.Plain

/-! What plans read. A plan of total pieces reads its symbols in order and fails with the
first one that has no spelling; if all have one, it renders to a text. As a member of a
module it is plain as long as its requests are. -/

namespace ApiTypes

open Traversal

namespace Piece

/-- The symbols that a piece reads, in order. -/
def symbols : Piece String → List (Symbol String)
  | text _ => []
  | spelling symbol => [symbol]
  | computed symbols _ => symbols

/-- The symbol whose spelling a piece writes as it is. -/
def spelled? : Piece String → Option (Symbol String)
  | spelling symbol => some symbol
  | _ => none

@[simp] theorem spelled?_text (s : String) : (text s).spelled? = none := rfl

@[simp] theorem spelled?_spelling (symbol : Symbol String) :
    (spelling symbol).spelled? = some symbol := rfl

@[simp] theorem spelled?_computed (symbols : List (Symbol String))
    (f : Context String → List String → Except Error String) :
    (computed symbols f).spelled? = none := rfl

/-- A piece that has a text as soon as its symbols have spellings. -/
def Total : Piece String → Prop
  | computed _ f => ∀ ctx spellings, ∃ s, f ctx spellings = .ok s
  | _ => True

@[simp] theorem total_text (s : String) : (text s).Total := trivial

@[simp] theorem total_spelling (symbol : Symbol String) : (spelling symbol).Total := trivial

end Piece

/-- Why a symbol has no spelling, if it has none. -/
def missing? (spell : Symbol String → Except Error String) (symbol : Symbol String) :
    Option Error :=
  match spell symbol with
  | .ok _ => none
  | .error e => some e

/-- A result that fails exactly with the first of some symbols that has no spelling. -/
def Follows {α : Type} (spell : Symbol String → Except Error String)
    (symbols : List (Symbol String)) (r : Except Error α) : Prop :=
  Yields (symbols.findSome? (missing? spell)) (fun _ => True) r

section

variable {spell : Symbol String → Except Error String} {α β : Type}

theorem Follows.bind {ss ss' : List (Symbol String)} {r : Except Error α}
    {f : α → Except Error β} (hr : Follows spell ss r) (hf : ∀ a, Follows spell ss' (f a)) :
    Follows spell (ss ++ ss') (r >>= f) := by
  have h := Yields.bind hr fun a _ => hf a
  rwa [← List.findSome?_append] at h

theorem Follows.map {ss : List (Symbol String)} {r : Except Error α} (hr : Follows spell ss r)
    (f : α → β) : Follows spell ss (do return f (← r)) :=
  Yields.map hr fun _ _ => trivial

theorem follows_mapM {f : α → Except Error β} {read : α → List (Symbol String)} {l : List α}
    (hf : ∀ a ∈ l, Follows spell (read a) (f a)) :
    Follows spell (l.flatMap read) (l.mapM f) := by
  induction l with
  | nil => exact yields_ok trivial
  | cons a rest ih =>
    rw [List.flatMap_cons, List.mapM_cons]
    refine (hf a List.mem_cons_self).bind fun b => ?_
    exact (ih fun a' ha => hf a' (List.mem_cons_of_mem _ ha)).map _

theorem follows_spell (symbol : Symbol String) : Follows spell [symbol] (spell symbol) := by
  rw [Follows, List.findSome?_cons, List.findSome?_nil]
  cases h : spell symbol with
  | ok x => simp only [missing?, h]; exact yields_ok trivial
  | error e => simp only [missing?, h]; rfl

theorem follows_render (ctx : Context String) {p : Piece String} (h : p.Total) :
    Follows spell p.symbols (p.render ctx spell) := by
  cases p with
  | text s => exact yields_ok trivial
  | spelling symbol =>
    have hs : Follows spell [symbol] _ := (follows_spell symbol).map Label.plain
    rw [Piece.render]
    cases hx : spell symbol <;> rw [hx] at hs <;> exact hs
  | computed symbols f =>
    have hl : Follows spell (symbols.flatMap fun s => [s]) (symbols.mapM spell) :=
      follows_mapM fun s _ => follows_spell s
    have hf : ∀ spellings, Follows spell [] (f ctx spellings) := by
      intro spellings
      obtain ⟨s, hs⟩ := h ctx spellings
      rw [hs]
      exact yields_ok trivial
    rw [List.flatMap_singleton'] at hl
    have hb := hl.bind hf
    rwa [List.append_nil] at hb

end

namespace Plan

def symbols (p : Plan String) : List (Symbol String) :=
  p.pieces.flatMap Piece.symbols

/-- The symbols whose spellings a plan writes as they are, in order. -/
def spelled (p : Plan String) : List (Symbol String) :=
  p.pieces.filterMap Piece.spelled?

def Total (p : Plan String) : Prop :=
  ∀ piece ∈ p.pieces, piece.Total

theorem follows_render {spell : Symbol String → Except Error String} (ctx : Context String)
    {p : Plan String} (h : p.Total) : Follows spell p.symbols (p.render ctx spell) :=
  (follows_mapM fun piece hp => ApiTypes.follows_render ctx (h piece hp)).map _

/-! ### Plans as members -/

theorem requests_toMember (p : Plan String) : p.toMember.requests = p.requests :=
  Member.requests_eq rfl

theorem plain_toMember {p : Plan String} (h : ∀ r ∈ p.requests, r.IsPlain) :
    p.toMember.IsPlain where
  actions := ⟨p.requests, rfl, h⟩
  parts := by
    intro part hp
    obtain ⟨piece, -, rfl⟩ := List.mem_map.mp hp
    trivial

theorem text_toMember (ctx : Context String) (spell : Symbol String → Except Error String)
    (p : Plan String) : p.toMember.text ctx spell = p.render ctx spell := by
  rw [Member.text, render]
  show (do return String.join (← (p.pieces.map Part.piece).mapM _) : Except Error String) = _
  rw [List.mapM_map]
  rfl

/-! ### Plans put together -/

@[simp] theorem requests_append (p q : Plan String) :
    (p ++ q).requests = p.requests ++ q.requests := rfl

@[simp] theorem pieces_append (p q : Plan String) : (p ++ q).pieces = p.pieces ++ q.pieces := rfl

@[simp] theorem symbols_append (p q : Plan String) :
    (p ++ q).symbols = p.symbols ++ q.symbols :=
  List.flatMap_append

@[simp] theorem spelled_append (p q : Plan String) :
    (p ++ q).spelled = p.spelled ++ q.spelled :=
  List.filterMap_append

theorem Total.append {p q : Plan String} (hp : p.Total) (hq : q.Total) : (p ++ q).Total := by
  intro piece hm
  exact (List.mem_append.mp hm).elim (hp piece) (hq piece)

theorem total_ofText (s : String) : (ofText s : Plan String).Total := by
  intro piece hm
  obtain rfl := List.mem_singleton.mp hm
  trivial

theorem total_check (ss : List (Symbol String)) : (check ss).Total := by
  intro piece hm
  obtain rfl := List.mem_singleton.mp hm
  exact fun _ _ => ⟨_, rfl⟩

/-- Every text is one. -/
theorem forM_requireText (ss : List String) :
    (ss.forM fun s => discard (Label.requireText s) : Except Error PUnit) = .ok ⟨⟩ := by
  induction ss with
  | nil => rfl
  | cons s rest ih => exact ih

theorem total_requireTexts (ss : List (Symbol String)) : (requireTexts ss).Total := by
  intro piece hm
  obtain rfl := List.mem_singleton.mp hm
  intro ctx spellings
  exact ⟨"", by simp only [forM_requireText, ok_bind, pure_eq_ok]⟩

end Plan

end ApiTypes
