import Schemata.Proofs.Generation.Consolidation
import Schemata.Proofs.Generation.Permuted

namespace Schemata

variable {α β : Type} {m : Implementations} {d d' : Document}

/-- The same blocks in another order. What stands behind the last of them is of no account. -/
structure Document.Reordered (d d' : Document) : Prop where
  blocks : (withRuns d.definitions).Perm (withRuns d'.definitions)
  extensions : ∀ type, d.extensionsOf type = d'.extensionsOf type

structure Registry.Reordered (r r' : Registry) : Prop where
  lookup : ∀ name, r.lookup name = r'.lookup name
  objects : r.objects.entries.Perm r'.objects.entries
  interfaces : r.interfaces.entries.Perm r'.interfaces.entries
  unions : r.unions.entries.Perm r'.unions.entries
  scalars : r.scalars.entries.Perm r'.scalars.entries
  enums : r.enums.entries.Perm r'.enums.entries
  inputObjects : r.inputObjects.entries.Perm r'.inputObjects.entries

namespace Document.Reordered

variable (h : d.Reordered d')
include h

theorem symm : d'.Reordered d := ⟨h.blocks.symm, fun type => (h.extensions type).symm⟩

theorem permuted : d.Permuted d' := by
  have items := h.blocks.map Prod.snd
  rwa [withRuns_items, withRuns_items] at items

theorem runsOf (select : TypeDefinition → Option α) : (d.runsOf select).Perm (d'.runsOf select) :=
  h.blocks.filterMap _

end Document.Reordered

theorem OrderedMap.get?_eq_of_perm {m m' : OrderedMap α} (h : m.entries.Perm m'.entries) (key : String) :
    m.get? key = m'.get? key := by
  apply Option.ext
  intro value
  rw [get?_eq_some_iff, get?_eq_some_iff, h.mem_iff]

theorem Registry.lookup_congr {r r' : Registry} {name : String} (objects : r.objects.get? name = r'.objects.get? name)
    (interfaces : r.interfaces.get? name = r'.interfaces.get? name) (unions : r.unions.get? name = r'.unions.get? name)
    (scalars : r.scalars.get? name = r'.scalars.get? name) (enums : r.enums.get? name = r'.enums.get? name)
    (inputObjects : r.inputObjects.get? name = r'.inputObjects.get? name) : r.lookup name = r'.lookup name := by
  simp only [lookup, objects, interfaces, unions, scalars, enums, inputObjects]

theorem Slot.value_congr (s : Slot α β) {c c' : Context} (h : c.contributionOf = c'.contributionOf) :
    s.value c = s.value c' := by
  funext run a
  have picked := (s.select_eq_some (s.definition a) a).2 rfl
  have added (c : Context) : s.get (Registry.add {} (c.contributionOf run (s.definition a))) =
      (s.get {}).insert (s.name a) (s.value c run a) := by
    rw [s.get_add, picked]
  have same : (s.get {}).insert (s.name a) (s.value c run a) = (s.get {}).insert (s.name a) (s.value c' run a) := by
    rw [← added, ← added, h]
  have found := congrArg (fun map => map.get? (s.name a)) same
  simpa [OrderedMap.insert_get?] using found

section

variable (h : d.Reordered d') (hv : d.Valid m)
include h hv

theorem Document.Reordered.scope_kind? (name : String) : d.scope.kind? name = d'.scope.kind? name := by
  have hv' := h.permuted.valid hv
  apply h.permuted.sameKinds.scope_kind?
  · exact declared_nodup_iff.2 ⟨hv.names, hv.reserved⟩
  · exact declared_nodup_iff.2 ⟨hv'.names, hv'.reserved⟩

theorem Slot.base_reordered (s : Slot α β) : (s.get (d.base m)).entries.Perm (s.get (d'.base m)).entries := by
  have values : s.value (d.context m) = s.value (d'.context m) :=
    s.value_congr (Context.contributionOf_congr (h.scope_kind? hv))
  rw [s.base_entries m hv.names, s.base_entries m (h.permuted.valid hv).names, values]
  exact (h.runsOf s.select).map _

theorem objects_reordered : (d.registry m).objects.entries.Perm (d'.registry m).objects.entries := by
  have built : (d.context m).extensionOf = (d'.context m).extensionOf :=
    Context.extensionOf_congr (h.scope_kind? hv)
  have extensions (type : String) : (d.extensions.map (d.context m).extensionOf).filter (fun e => e.typeName = type) =
      (d'.extensions.map (d'.context m).extensionOf).filter fun e => e.typeName = type := by
    rw [filter_extensionOf, filter_extensionOf, h.extensions, built]
  simp only [Document.registry, Registry.extended, OrderedMap.mapValues_entries, extensions]
  exact (Slot.objects.base_reordered h hv).map _

theorem registry_reordered : (d.registry m).Reordered (d'.registry m) := by
  have objects := objects_reordered h hv
  have interfaces := Slot.interfaces.base_reordered h hv
  have unions := Slot.unions.base_reordered h hv
  have scalars := Slot.scalars.base_reordered h hv
  have enums := Slot.enums.base_reordered h hv
  have inputObjects := Slot.inputObjects.base_reordered h hv
  refine ⟨fun name => ?_, objects, interfaces, unions, scalars, enums, inputObjects⟩
  apply Registry.lookup_congr
  · exact OrderedMap.get?_eq_of_perm objects name
  · exact OrderedMap.get?_eq_of_perm interfaces name
  · exact OrderedMap.get?_eq_of_perm unions name
  · exact OrderedMap.get?_eq_of_perm scalars name
  · exact OrderedMap.get?_eq_of_perm enums name
  · exact OrderedMap.get?_eq_of_perm inputObjects name

end

/-- Blocks in another order are accepted alike, and give the same types. -/
theorem generate_reordered (h : d.Reordered d') :
    ((∃ r, generate m d = .ok r) ↔ ∃ r, generate m d' = .ok r) ∧
      ∀ r r', generate m d = .ok r → generate m d' = .ok r' → r.Reordered r' := by
  constructor
  · rw [(generate_decides m d).exists_ok_iff, (generate_decides m d').exists_ok_iff]
    exact ⟨h.permuted.valid, h.symm.permuted.valid⟩
  · intro r r' hr hr'
    obtain ⟨hv, rfl⟩ := (generate_decides m d).eq_ok_iff.1 hr
    obtain ⟨-, rfl⟩ := (generate_decides m d').eq_ok_iff.1 hr'
    exact registry_reordered h hv

theorem generate_reordered_circular :
    let b : FieldDefinition := ⟨"b", none, .named "B"⟩
    let a : FieldDefinition := ⟨"a", none, .list (.named "A")⟩
    let size : FieldDefinition := ⟨"size", none, .named "Int"⟩
    let extendA : ObjectDefinition := ⟨"A", [], [.item size]⟩
    let extendB : ObjectDefinition := ⟨"B", [], [.item size]⟩
    let d : Document := ⟨[.item (.extension extendA), .comment ⟨"# First."⟩, .item (.object ⟨"A", [], [.item b]⟩),
      .item (.object ⟨"B", [], [.item a]⟩), .item (.extension extendB)]⟩
    let d' : Document := ⟨[.item (.extension extendB), .item (.object ⟨"B", [], [.item a]⟩),
      .item (.extension extendA), .comment ⟨"# First."⟩, .item (.object ⟨"A", [], [.item b]⟩), .comment ⟨"#"⟩]⟩
    d.Reordered d' ∧ ∃ r r', generate .empty d = .ok r ∧ generate .empty d' = .ok r' ∧
      r.objects.keys = ["A", "B"] ∧ r'.objects.keys = ["B", "A"] ∧ r.Reordered r' := by
  intro b a size extendA extendB d d'
  have extensions : d.extensions = [extendA, extendB] := rfl
  have extensions' : d'.extensions = [extendB, extendA] := rfl
  have h : d.Reordered d' := by
    refine ⟨by decide +kernel, fun type => ?_⟩
    rw [Document.extensionsOf, Document.extensionsOf, extensions, extensions']
    by_cases ha : extendA.name = type
    · have hb : extendB.name ≠ type := by rw [← ha]; decide
      simp [ha, hb]
    · simp [List.filter_cons, ha]
  obtain ⟨r, hr, hk⟩ : ∃ r, generate .empty d = .ok r ∧ r.objects.keys = ["A", "B"] := ⟨_, rfl, by decide +kernel⟩
  obtain ⟨r', hr', hk'⟩ : ∃ r, generate .empty d' = .ok r ∧ r.objects.keys = ["B", "A"] := ⟨_, rfl, by decide +kernel⟩
  exact ⟨h, r, r', hr, hr', hk, hk', (generate_reordered h).2 r r' hr hr'⟩

end Schemata
