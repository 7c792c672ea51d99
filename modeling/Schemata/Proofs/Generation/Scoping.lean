import Schemata.Proofs.Generation.Collecting
import Schemata.Proofs.Generation.Validity

namespace Schemata

variable {d : Document}

def Document.scope (d : Document) : Scope :=
  ⟨d.declarations.foldl (fun m p => m.insert p.1 p.2) Scope.builtin.kinds⟩

theorem builtin_entries : Scope.builtin.kinds.entries = BuiltinScalar.all.map fun s => (s.name, .builtin s) :=
  OrderedMap.ofList_entries (by decide)

theorem builtin_keys : Scope.builtin.kinds.keys = BuiltinScalar.all.map BuiltinScalar.name := by
  rw [OrderedMap.keys, builtin_entries, List.map_map]
  rfl

theorem BuiltinScalar.mem_all (s : BuiltinScalar) : s ∈ BuiltinScalar.all := by
  cases s <;> decide

theorem mem_builtin_keys {name : String} :
    name ∈ Scope.builtin.kinds.keys ↔ ∃ s : BuiltinScalar, s.name = name := by
  rw [builtin_keys, List.mem_map]
  exact ⟨fun ⟨s, _, h⟩ => ⟨s, h⟩, fun ⟨s, h⟩ => ⟨s, s.mem_all, h⟩⟩

theorem mem_declarations {name : String} {kind : Kind} : (name, kind) ∈ d.declarations ↔ d.Defines name kind := by
  simp only [Document.declarations, List.mem_filterMap, Option.map_eq_some_iff, Prod.mk.injEq,
    Document.Defines]
  constructor
  · rintro ⟨t, ht, k, hk, rfl, rfl⟩
    exact ⟨t, ht, rfl, hk⟩
  · rintro ⟨t, ht, rfl, hk⟩
    exact ⟨t, ht, kind, hk, rfl, rfl⟩

def declareStep (kinds : OrderedMap Kind) (p : String × Kind) : Generated (OrderedMap Kind) :=
  insertNew (.duplicateType p.1) p.1 p.2 kinds

theorem foldlM_declare (ts : List TypeDefinition) (s : Scope) :
    ts.foldlM Scope.declare s = (do
      return ⟨← (ts.filterMap fun t => t.kind?.map fun kind => (t.name, kind)).foldlM declareStep s.kinds⟩) := by
  induction ts generalizing s with
  | nil => rfl
  | cons t ts ih =>
    rw [List.foldlM_cons, Scope.declare]
    cases hk : t.kind? with
    | none => simp only [List.filterMap_cons, hk, Option.map_none, ← ih, Except.ok_bind]
    | some kind =>
      simp only [List.filterMap_cons, hk, Option.map_some, List.foldlM_cons, declareStep, insertNew]
      split
      · rfl
      · exact ih _

theorem ofDocument_decides {fault : GenerateError → Prop}
    (h : ∀ n, List.Duplicate n (Scope.builtin.kinds.keys ++ d.declaredNames) → fault (.duplicateType n)) :
    (Scope.ofDocument d).Decides (Scope.builtin.kinds.keys ++ d.declaredNames).Nodup d.scope fault := by
  have step : ∀ p ∈ d.declarations, ∀ m : OrderedMap Kind,
      (p.1 ∈ m.keys → List.Duplicate p.1 (Scope.builtin.kinds.keys ++ d.declarations.map Prod.fst)) →
      (declareStep m p).Decides (p.1 ∉ m.keys ∧ True) (m.insert p.1 p.2) fault := by
    intro p _ m hm
    exact insertNew_decides fun hk => h _ (hm hk)
  have all := foldlM_insert_decides step
  rw [List.map_id' d.declarations] at all
  rw [Scope.ofDocument, foldlM_declare]
  exact (all.map Scope.mk).iff (by simp [Document.declaredNames])

theorem declared_nodup_iff :
    (Scope.builtin.kinds.keys ++ d.declaredNames).Nodup ↔
      d.declaredNames.Nodup ∧ ∀ s : BuiltinScalar, s.name ∉ d.declaredNames := by
  rw [List.nodup_append', List.disjoint_left]
  simp only [mem_builtin_keys, forall_exists_index, forall_apply_eq_imp_iff]
  exact and_iff_right Scope.builtin.kinds.keys_nodup

theorem duplicate_declared {name : String}
    (h : List.Duplicate name (Scope.builtin.kinds.keys ++ d.declaredNames)) :
    List.Duplicate name d.declaredNames ∨ name ∈ d.declaredNames ∧ ∃ s : BuiltinScalar, s.name = name := by
  rw [List.duplicate_iff_two_le_count, List.count_append] at h
  have hb : Scope.builtin.kinds.keys.count name ≤ 1 :=
    List.nodup_iff_count_le_one.1 Scope.builtin.kinds.keys_nodup name
  by_cases hd : 2 ≤ d.declaredNames.count name
  · exact .inl (List.duplicate_iff_two_le_count.2 hd)
  · refine .inr ⟨List.count_pos_iff.1 (by omega), mem_builtin_keys.1 (List.count_pos_iff.1 (by omega))⟩

def Scope.Agrees (s : Scope) (d : Document) : Prop := ∀ name kind, s.kind? name = some kind ↔ d.HasKind name kind

theorem scope_agrees (h : (Scope.builtin.kinds.keys ++ d.declaredNames).Nodup) : d.scope.Agrees d := by
  intro name kind
  rw [Scope.kind?, OrderedMap.get?_eq_some_iff, Document.scope, OrderedMap.foldl_insert_entries h,
    List.mem_append, mem_declarations, builtin_entries, or_comm]
  apply or_congr_right
  simp only [List.mem_map, Prod.mk.injEq]
  exact ⟨fun ⟨s, _, hn, hk⟩ => ⟨s, hn, hk.symm⟩, fun ⟨s, hn, hk⟩ => ⟨s, s.mem_all, hn, hk.symm⟩⟩

theorem Document.Valid.agrees {m : Implementations} (hv : d.Valid m) : d.scope.Agrees d :=
  scope_agrees (declared_nodup_iff.2 ⟨hv.names, hv.reserved⟩)

theorem Document.hasKind_iff_defines {name : String} {kind : Kind} (hk : kind.isBuiltin = false) :
    d.HasKind name kind ↔ d.Defines name kind := by
  refine ⟨?_, .inl⟩
  rintro (h | ⟨s, -, rfl⟩)
  · exact h
  · cases hk

namespace Scope.Agrees

variable {s : Scope} {name : String} {kind : Kind}

theorem defines_iff (h : s.Agrees d) (hk : kind.isBuiltin = false) :
    s.kind? name = some kind ↔ d.Defines name kind := by
  rw [h, Document.hasKind_iff_defines hk]

theorem knows_iff (h : s.Agrees d) : d.Knows name ↔ ∃ kind, s.kind? name = some kind := by
  simp only [h name, Document.Knows]

theorem not_knows (h : s.Agrees d) (hn : s.kind? name = none) : ¬d.Knows name := by
  rw [h.knows_iff, hn]
  exact nofun

end Scope.Agrees

end Schemata
