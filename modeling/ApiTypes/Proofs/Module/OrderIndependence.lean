import ApiTypes.Proofs.Import.Demand
import ApiTypes.Proofs.Module.Outcome

/-! Order independence. Take the same plain members in two orders, with consistent uses.
Both modules declare the same identifiers and hold the same imports, so every symbol has
one spelling in both, and with it every member its text and every source its statement.
Hence one module renders exactly if the other does, to the same import block and the same
texts. Only the reported error may depend on the order. -/

namespace ApiTypes

open Op Traversal

theorem usesBy_perm {ms ms' : List (Member String)} (hp : ms.Perm ms') :
    (usesBy (requestsOf ms)).Perm (usesBy (requestsOf ms')) :=
  (hp.flatMap_right _).filterMap _

theorem declarationsOf_perm {ms ms' : List (Member String)} (hp : ms.Perm ms') :
    (declarationsOf ms).Perm (declarationsOf ms') :=
  (hp.flatMap_right _).filterMap _

namespace Imports

variable {t t' : Imports String} {declared declared' : List String}

theorem Alike.spelling_eq (h : t.Alike t') (hp : declared.Perm declared') :
    t.spelling declared = t'.spelling declared' := by
  funext urn i
  rw [spelling, spelling, rank, rank, place, place, h.queue_eq, hp.count_eq]

theorem Alike.block_eq (h : t.Alike t') (hp : declared.Perm declared') (ctx : Context String) :
    Statement.block (t.statementsIn ctx declared) =
      Statement.block (t'.statementsIn ctx declared') := by
  refine Statement.block_perm ?_ ?_
  · rw [statementsIn, statementsIn, h.spelling_eq hp]
    let statement (urn : String) (source : Source String) (ranked : List (Import String)) :
        Statement :=
      { urn, path := source.pathText ctx, isLocal := source.isLocal
        clauses := ranked.map fun i => i.clauseOf (t'.spelling declared' urn i) }
    exact h.map_modules_perm statement
  · rw [statementsIn, List.map_map]
    exact h.keyed.urns

end Imports

namespace Module

variable {t t' : Imports String} {declared declared' : List String}

theorem spellIn_eq (h : t.Alike t') (hp : declared.Perm declared') :
    spellIn declared t = spellIn declared' t' := by
  funext symbol
  cases symbol with
  | declared x => simp only [spellIn, hp.mem_iff]
  | imported source member => simp only [spellIn, h.imports, h.spelling_eq hp]

variable {ms ms' : List (Member String)} (ctx : Context String)

theorem outcome_perm (hp : ms.Perm ms') (hc : Consistent (usesBy (requestsOf ms)))
    {fs : List String} (h : outcome ctx ms = .ok fs) :
    ∃ block texts texts', fs = block :: texts ∧ texts.length = ms.length ∧
      outcome ctx ms' = .ok (block :: texts') ∧ (ms.zip texts).Perm (ms'.zip texts') := by
  have halike : (importsOf ms).Alike (importsOf ms') := Imports.alike_of_perm (usesBy_perm hp) hc
  have hdeclared := declarationsOf_perm hp
  have hspell : spellOf ms = spellOf ms' := spellIn_eq halike hdeclared
  have hblock : blockOf ctx ms = blockOf ctx ms' := halike.block_eq hdeclared ctx
  rw [outcome] at h
  cases hd : firstRepeated? [] (declarationsOf ms) with
  | some x => rw [hd] at h; cases h
  | none =>
    have hn := (firstRepeated?_eq_none_iff List.nodup_nil _).mp hd
    have hd' := (firstRepeated?_eq_none_iff List.nodup_nil (declarationsOf ms')).mpr
      (hdeclared.nodup_iff.mp hn)
    rw [hd] at h
    cases ht : ms.mapM (Member.text ctx (spellOf ms)) with
    | error e => simp only [ht] at h; cases h
    | ok texts =>
      simp only [ht] at h
      obtain rfl : blockOf ctx ms :: texts = fs := Except.ok.inj h
      obtain ⟨hlen, texts', ht', hzip⟩ := mapM_perm hp ht
      refine ⟨_, texts, texts', rfl, hlen, ?_, hzip⟩
      rw [outcome, hd', ← hspell, ← hblock]
      simp only [ht']
      rfl

theorem isOk_outcome_perm (hp : ms.Perm ms') (hc : Consistent (usesBy (requestsOf ms))) :
    (outcome ctx ms).isOk = (outcome ctx ms').isOk := by
  cases h : outcome ctx ms with
  | ok fs =>
    obtain ⟨_, _, _, -, -, h', -⟩ := outcome_perm ctx hp hc h
    rw [h']
    rfl
  | error e =>
    cases h' : outcome ctx ms' with
    | error e' => rfl
    | ok fs' =>
      obtain ⟨_, _, _, -, -, hok, -⟩ :=
        outcome_perm ctx hp.symm (hc.perm (usesBy_perm hp)) h'
      rw [h] at hok
      cases hok

/-- The order of plain members with consistent uses decides neither whether their module
renders, nor the import block, nor the text of a member, nor the spelling of an import. -/
theorem render_perm (path : String) (hp : ms.Perm ms') (h : ∀ member ∈ ms, member.IsPlain)
    (hc : Consistent (usesBy (requestsOf ms))) :
    (exec (render ctx) (ofMembers path ms)).1.isOk =
        (exec (render ctx) (ofMembers path ms')).1.isOk ∧
      ∀ fs, (exec (fragments ctx) (ofMembers path ms)).1 = .ok fs →
        ∃ block texts texts', fs = block :: texts ∧ texts.length = ms.length ∧
          (exec (fragments ctx) (ofMembers path ms')).1 = .ok (block :: texts') ∧
          (ms.zip texts).Perm (ms'.zip texts') ∧
          ∀ urn member, (exec (fragments ctx) (ofMembers path ms)).2.read (.member urn member) =
            (exec (fragments ctx) (ofMembers path ms')).2.read (.member urn member) := by
  have h' : ∀ member ∈ ms', member.IsPlain := fun member hm => h member (hp.mem_iff.mpr hm)
  have ho := exec_fragments ctx path h
  have ho' := exec_fragments ctx path h'
  constructor
  · have hmap : ∀ r : Except Error (List String), (r.map joinFragments).isOk = r.isOk := by
      rintro (_ | _) <;> rfl
    rw [exec_render, exec_render, hmap, hmap, ho, ho']
    exact isOk_outcome_perm ctx hp hc
  · intro fs hfs
    obtain ⟨block, texts, texts', rfl, hlen, hb, hzip⟩ := outcome_perm ctx hp hc (ho.symm.trans hfs)
    refine ⟨block, texts, texts', rfl, hlen, ho'.trans hb, hzip, ?_⟩
    intro urn member
    have halike : (importsOf ms).Alike (importsOf ms') :=
      Imports.alike_of_perm (usesBy_perm hp) hc
    rw [(settled_of_exec_fragments ctx path h hfs).read_member,
      (settled_of_exec_fragments ctx path h' (ho'.trans hb)).read_member, halike.imports,
      halike.spelling_eq (declarationsOf_perm hp)]

/-- A member that declares `Foo` and uses the `Bar` of one module. -/
def declaring : Member String :=
  .script [.request (.name "Foo" .declaration),
      .request (.useMember (.sibling "core/v1.ts") "Bar" none true)]
    [.binding 0, .piece (.text " = "), .binding 1]

/-- A member that looks `Foo` up and uses the `Bar` of another module. -/
def consuming : Member String :=
  .script [.request (.useMember (.sibling "core/v2.ts") "Bar" (some "Baz") true),
      .request (.lookup "Foo")]
    [.binding (-1), .piece (.text " | "), .binding 0]

theorem plain_declaring : declaring.IsPlain where
  actions := ⟨[.name "Foo" .declaration, .useMember (.sibling "core/v1.ts") "Bar" none true], rfl,
    by simp [Request.IsPlain]⟩
  parts := by simp [declaring, Member.parts, Part.IsPlain]

theorem plain_consuming : consuming.IsPlain where
  actions := ⟨[.useMember (.sibling "core/v2.ts") "Bar" (some "Baz") true, .lookup "Foo"], rfl,
    by simp [Request.IsPlain]⟩
  parts := by simp [consuming, Member.parts, Part.IsPlain]

theorem consistent_swap : Consistent (usesBy (requestsOf [declaring, consuming])) := by
  have hne : (Source.sibling "core/v1.ts").identity ≠ (Source.sibling "core/v2.ts").identity := by
    decide
  have huses : usesBy (requestsOf [declaring, consuming]) =
      [⟨.sibling "core/v1.ts", "Bar", none, true⟩,
        ⟨.sibling "core/v2.ts", "Bar", some "Baz", true⟩] := rfl
  have hinj : ∀ u ∈ usesBy (requestsOf [declaring, consuming]),
      ∀ v ∈ usesBy (requestsOf [declaring, consuming]),
        u.source.identity = v.source.identity → u = v := by
    rw [huses]
    simp [hne, hne.symm]
  constructor
  · intro u hu v hv hs
    rw [hinj u hu v hv hs]
  · intro u hu v hv hs _ a b ha hb
    rw [hinj u hu v hv hs] at ha
    exact Option.some.inj (ha.symm.trans hb)

theorem render_perm_swap :
    let ctx : Context String :=
      { apiVersion := "v1", dependencies := [], modulePath := "v1.ts", engine := .deno
        packaging := .hosted }
    ∃ block texts texts',
      (exec (fragments ctx) (ofMembers "v1.ts" [declaring, consuming])).1 = .ok (block :: texts) ∧
        texts.length = 2 ∧
        (exec (fragments ctx) (ofMembers "v1.ts" [consuming, declaring])).1 =
          .ok (block :: texts') ∧
        ([declaring, consuming].zip texts).Perm ([consuming, declaring].zip texts') := by
  intro ctx
  have hplain : ∀ member ∈ [declaring, consuming], member.IsPlain := by
    simp [plain_declaring, plain_consuming]
  obtain ⟨fs, hfs⟩ : ∃ fs, (exec (fragments ctx) (ofMembers "v1.ts" [declaring, consuming])).1 =
      .ok fs := by
    rw [exec_fragments ctx "v1.ts" hplain]
    exact ⟨_, rfl⟩
  obtain ⟨-, hrender⟩ :=
    render_perm ctx "v1.ts" (List.Perm.swap consuming declaring []) hplain consistent_swap
  obtain ⟨block, texts, texts', rfl, hlen, hfs', hzip, -⟩ := hrender fs hfs
  exact ⟨block, texts, texts', hfs, hlen, hfs', hzip⟩

end Module

end ApiTypes
