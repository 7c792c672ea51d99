import Schemata.Proofs.Generation.Census
import Schemata.Proofs.Generation.Kinds
import Schemata.Proofs.Resolver.Placeholders
/-!
The same definitions in another order, comments aside. Unlike blocks that are moved about, the extensions of a type
may change places here: what is generated then differs, but not whether it is, nor how many types there are.
-/

namespace Schemata

variable {m m' : Implementations} {d d' : Document}

def Document.Permuted (d d' : Document) : Prop := d.typeDefinitions.Perm d'.typeDefinitions

namespace Document.Permuted

variable (h : d.Permuted d')
include h

theorem symm : d'.Permuted d := List.Perm.symm h

theorem declarations : d.declarations.Perm d'.declarations := List.Perm.filterMap _ h

theorem sameKinds : d.SameKinds d' := SameKinds.of_declarations fun _ => h.declarations.mem_iff

theorem declaredNames : d.declaredNames.Perm d'.declaredNames := h.declarations.map Prod.fst

theorem bodies (type : String) : (d.bodies type).Perm (d'.bodies type) := by
  have objects : (d.typeDefinitions.filterMap TypeDefinition.object?).Perm
      (d'.typeDefinitions.filterMap TypeDefinition.object?) := List.Perm.filterMap _ h
  have extensions : d.extensions.Perm d'.extensions := List.Perm.filterMap _ h
  exact (objects.append extensions).filter _

theorem objectFields (type : String) : (d.objectFields type).Perm (d'.objectFields type) :=
  (h.bodies type).flatMap_right _

theorem valid (hv : d.Valid m) : d'.Valid m where
  names := h.declaredNames.nodup_iff.1 hv.names
  reserved s hs := hv.reserved s (h.declaredNames.mem_iff.2 hs)
  definitions t ht := (hv.definitions t (h.mem_iff.2 ht)).transfer h.sameKinds
  fields type := ((h.objectFields type).map _).nodup_iff.1 (hv.fields type)

theorem mem_calculatedFields_iff {type field : String} :
    (type, field) ∈ d.calculatedFields ↔ (type, field) ∈ d'.calculatedFields := by
  rw [mem_calculatedFields, mem_calculatedFields]
  simp only [(h.objectFields type).mem_iff]

theorem registry_size (hv : d.Valid m) : (d.registry m).size = (d'.registry m').size := by
  have hv' : d'.Valid m := h.valid hv
  rw [Schemata.registry_size hv.names, Schemata.registry_size hv'.names]
  exact (List.Perm.filter _ h).length_eq

end Document.Permuted

structure Implementations.Alike (m m' : Implementations) : Prop where
  fieldResolver? : ∀ type field, m.fieldResolver? type field = m'.fieldResolver? type field
  enumValues? : ∀ type, m.enumValues? type = m'.enumValues? type

namespace Implementations.Alike

variable (h : m.Alike m')
include h

theorem object {o : ObjectDefinition} (ho : o.Valid m d) : o.Valid m' d where
  interfaces := ho.interfaces
  fields := ho.fields
  resolvers f hf hc := by
    rw [← h.fieldResolver?]
    exact ho.resolvers f hf hc

theorem enum {e : EnumDefinition} (he : e.Valid m) : e.Valid m' where
  names := he.names
  values values hv := by
    rw [← h.enumValues?] at hv
    exact he.values values hv

theorem typeDefinition {t : TypeDefinition} (ht : t.Valid m d) : t.Valid m' d := by
  cases t with
  | object o => exact h.object ht
  | enum e => exact h.enum ht
  | extension o => exact ⟨ht.1, h.object ht.2⟩
  | _ => exact ht

theorem valid (hv : d.Valid m) : d.Valid m' where
  names := hv.names
  reserved := hv.reserved
  definitions t ht := h.typeDefinition (hv.definitions t ht)
  fields := hv.fields

end Implementations.Alike

theorem Document.Permuted.withPlaceholders (h : d.Permuted d') (m : Implementations) :
    (m.withPlaceholders d).Alike (m.withPlaceholders d') where
  fieldResolver? type field := by
    simp only [Implementations.withPlaceholders_fieldResolver?, h.mem_calculatedFields_iff]
  enumValues? type := by
    rw [Implementations.withPlaceholders_enumValues?, Implementations.withPlaceholders_enumValues?]

section

variable {r r' : Registry} (h : d.Permuted d')
include h

theorem Document.Permuted.valid_withPlaceholders (hv : d.Valid (m.withPlaceholders d)) :
    d'.Valid (m.withPlaceholders d') :=
  (h.withPlaceholders m).valid (h.valid hv)

theorem generate_withPlaceholders_permuted (m : Implementations) :
    (∃ r, generate (m.withPlaceholders d) d = .ok r) ↔ ∃ r, generate (m.withPlaceholders d') d' = .ok r := by
  rw [(generate_decides _ d).exists_ok_iff, (generate_decides _ d').exists_ok_iff]
  exact ⟨h.valid_withPlaceholders, h.symm.valid_withPlaceholders⟩

theorem generate_size_permuted (hr : generate m d = .ok r) (hr' : generate m' d' = .ok r') : r.size = r'.size := by
  obtain ⟨hv, rfl⟩ := (generate_decides m d).eq_ok_iff.1 hr
  obtain ⟨-, rfl⟩ := (generate_decides m' d').eq_ok_iff.1 hr'
  exact h.registry_size hv

end

end Schemata
