import ApiTypes.Proofs.Import.Block

/-! What a table is demanded to hold, whatever the order of its uses. Uses are consistent
if equal identities come from equal sources and no pair is given two local names.
Tables of the same consistent uses hold the same imports under the same sources, and so
they have one queue and list the same modules up to their order. -/

namespace ApiTypes

/-- Uses in which an identity stands for one source, and a pair has one local name. -/
structure Consistent (us : List Use) : Prop where
  source : ∀ u ∈ us, ∀ v ∈ us, u.source.identity = v.source.identity → u.source = v.source
  localName : ∀ u ∈ us, ∀ v ∈ us, u.source.identity = v.source.identity → u.member = v.member →
    ∀ a b, Label.present? u.localName = some a → Label.present? v.localName = some b → a = b

theorem Consistent.perm {us us' : List Use} (h : Consistent us) (hp : us.Perm us') :
    Consistent us' where
  source u hu v hv := h.source u (hp.mem_iff.mpr hu) v (hp.mem_iff.mpr hv)
  localName u hu v hv := h.localName u (hp.mem_iff.mpr hu) v (hp.mem_iff.mpr hv)

/-- A search that can only find one value finds it in every order. -/
theorem findSome?_perm {α β : Type} {f : α → Option β} {l l' : List α} (hp : l.Perm l')
    (h : ∀ a ∈ l, ∀ b ∈ l, ∀ x y, f a = some x → f b = some y → x = y) :
    l.findSome? f = l'.findSome? f := by
  cases hf : l.findSome? f with
  | none =>
    rw [List.findSome?_eq_none_iff] at hf
    exact (List.findSome?_eq_none_iff.mpr fun a ha => hf a (hp.mem_iff.mpr ha)).symm
  | some x =>
    obtain ⟨a, ha, hx⟩ := List.exists_of_findSome?_eq_some hf
    cases hf' : l'.findSome? f with
    | none =>
      rw [List.findSome?_eq_none_iff] at hf'
      rw [hf' a (hp.mem_iff.mp ha)] at hx
      cases hx
    | some y =>
      obtain ⟨b, hb, hy⟩ := List.exists_of_findSome?_eq_some hf'
      rw [h a ha b (hp.mem_iff.mpr hb) x y hx hy]

theorem map_find?_eq_findSome? {α β : Type} (p : α → Bool) (f : α → β) (l : List α) :
    (l.find? p).map f = l.findSome? fun a => if p a then some (f a) else none := by
  induction l with
  | nil => rfl
  | cons a rest ih =>
    rw [List.find?_cons, List.findSome?_cons]
    cases p a
    · exact ih
    · rfl

namespace Imports

variable {us us' : List Use}

theorem find?_perm (hp : us.Perm us') (hc : Consistent us) (urn member : String) :
    (recordAll {} us).find? urn member = (recordAll {} us').find? urn member := by
  have hu : (usesOf us urn member).Perm (usesOf us' urn member) := hp.filter _
  have hl : (usesOf us urn member).findSome? (fun u => Label.present? u.localName) =
      (usesOf us' urn member).findSome? (fun u => Label.present? u.localName) := by
    refine findSome?_perm hu ?_
    intro u hu v hv a b ha hb
    obtain ⟨hmu, hu⟩ := List.mem_filter.mp hu
    obtain ⟨hmv, hv⟩ := List.mem_filter.mp hv
    simp only [decide_eq_true_eq] at hu hv
    exact hc.localName u hmu v hmv (hu.1.trans hv.1.symm) (hu.2.trans hv.2.symm) a b ha hb
  rw [find?_recordAll, find?_recordAll, merged, merged, hu.isEmpty_eq, hl, hu.all_eq]

theorem source_perm (hp : us.Perm us') (hc : Consistent us) (urn : String) :
    ((recordAll {} us).module? urn).map (·.source) =
      ((recordAll {} us').module? urn).map (·.source) := by
  rw [source_recordAll, source_recordAll, map_find?_eq_findSome?, map_find?_eq_findSome?]
  refine findSome?_perm hp ?_
  intro u hu v hv s s' hs hs'
  simp only [decide_eq_true_eq, Option.ite_none_right_eq_some, Option.some.injEq] at hs hs'
  rw [← hs.2, ← hs'.2]
  exact hc.source u hu v hv (hs.1.trans hs'.1.symm)

/-- Tables that hold the same imports under the same sources. -/
structure Alike (t t' : Imports String) : Prop where
  keyed : t.Keyed
  keyed' : t'.Keyed
  imports : ∀ urn member, t.find? urn member = t'.find? urn member
  sources : ∀ urn, (t.module? urn).map (·.source) = (t'.module? urn).map (·.source)

theorem alike_of_perm (hp : us.Perm us') (hc : Consistent us) :
    (recordAll {} us).Alike (recordAll {} us') :=
  ⟨keyed_recordAll us, keyed_recordAll us', find?_perm hp hc, source_perm hp hc⟩

variable {t t' : Imports String}

theorem Alike.symm (h : t.Alike t') : t'.Alike t :=
  ⟨h.keyed', h.keyed, fun urn member => (h.imports urn member).symm, fun urn => (h.sources urn).symm⟩

theorem Alike.queue_eq (h : t.Alike t') : t.queue = t'.queue :=
  queue_congr h.keyed h.keyed' h.imports

theorem Keyed.mem_imports_iff (h : t.Keyed) {m : ImportedModule String} (hm : m ∈ t.modules)
    (i : Import String) : i ∈ m.imports ↔ t.find? m.urn i.member = some i := by
  rw [h.find?_eq_some_iff]
  constructor
  · intro hi
    exact ⟨m, hm, rfl, hi⟩
  · rintro ⟨m', hm', hu, hi⟩
    obtain rfl := List.inj_on_of_nodup_map h.urns hm' hm hu
    exact hi

/-- The modules of tables that are alike have the same sources and the same imports. -/
theorem Alike.exists_module (h : t.Alike t') {m : ImportedModule String} (hm : m ∈ t.modules) :
    ∃ m' ∈ t'.modules, m'.urn = m.urn ∧ m'.source = m.source ∧ m'.ranked = m.ranked := by
  have hs := h.sources m.urn
  rw [h.keyed.module? hm, Option.map_some] at hs
  obtain ⟨m', hm', hsource⟩ := Option.map_eq_some_iff.mp hs.symm
  have hmem : m' ∈ t'.modules := List.mem_of_find?_eq_some hm'
  have hu : m'.urn = m.urn := by simpa using List.find?_some hm'
  refine ⟨m', hmem, hu, hsource, ?_⟩
  have hr := h.keyed.pairwise_ranked hm
  have hr' := h.keyed'.pairwise_ranked hmem
  have hn : m.ranked.Nodup :=
    m.ranked_perm.nodup_iff.mpr (List.Nodup.of_map _ (h.keyed.members m hm))
  have hn' : m'.ranked.Nodup :=
    m'.ranked_perm.nodup_iff.mpr (List.Nodup.of_map _ (h.keyed'.members m' hmem))
  refine List.Perm.eq_of_pairwise ?_ hr' hr ?_
  · intro i j _ _ hij hji
    exact absurd hji (String.lt_asymm hij)
  · rw [List.perm_ext_iff_of_nodup hn' hn]
    intro i
    rw [m'.ranked_perm.mem_iff, m.ranked_perm.mem_iff, h.keyed'.mem_imports_iff hmem,
      h.keyed.mem_imports_iff hm, hu, h.imports]

/-- What is made of the modules of a table depends on the table up to order. -/
theorem Alike.map_modules_perm (h : t.Alike t') {α : Type}
    (f : String → Source String → List (Import String) → α) :
    (t.modules.map fun m => f m.urn m.source m.ranked).Perm
      (t'.modules.map fun m => f m.urn m.source m.ranked) := by
  let triple (m : ImportedModule String) := (m.urn, m.source, m.ranked)
  have hnodup {t : Imports String} (hk : t.Keyed) : (t.modules.map triple).Nodup := by
    refine List.Nodup.of_map Prod.fst ?_
    rw [List.map_map]
    exact hk.urns
  have hsub {t t' : Imports String} (h : t.Alike t') :
      ∀ e ∈ t.modules.map triple, e ∈ t'.modules.map triple := by
    intro e he
    obtain ⟨m, hm, rfl⟩ := List.mem_map.mp he
    obtain ⟨m', hm', hu, hs, hr⟩ := h.exists_module hm
    exact List.mem_map.mpr ⟨m', hm', by simp only [triple, hu, hs, hr]⟩
  have hperm : (t.modules.map triple).Perm (t'.modules.map triple) :=
    (List.perm_ext_iff_of_nodup (hnodup h.keyed) (hnodup h.keyed')).mpr
      fun e => ⟨hsub h e, hsub h.symm e⟩
  simpa [List.map_map, triple, Function.comp_def] using
    hperm.map fun e : String × Source String × List (Import String) => f e.1 e.2.1 e.2.2

end Imports

end ApiTypes
