import Mathlib.Control.Monad.Basic
import Schemata.Command
import Schemata.Proofs.Generation.Permuted

namespace Schemata

variable {f : SourceFile} {fs fs' : List SourceFile} {d d' : Document} {es : List SourceError}

namespace SourceFile

def Readable (f : SourceFile) : Prop := ∃ source, decode? f.content = some source

theorem decode?_toByteArray (source : String) : decode? source.toByteArray.data.toList = some source := by
  rw [decode?, Array.toArray_toList, String.fromUTF8?, dif_pos source.isValidUTF8]
  rfl

theorem parse_toByteArray {path source : String} (h : Schemata.parse source = .ok d) :
    SourceFile.parse ⟨path, source.toByteArray.data.toList⟩ = .ok d := by
  rw [SourceFile.parse, decode?_toByteArray]
  exact Except.mapError_eq_ok_iff.2 h

def syntaxError? (f : SourceFile) : Option SourceError :=
  match decode? f.content with
  | none => none
  | some source =>
    match Schemata.parse source with
    | .ok _ => none
    | .error e => some (.invalid f.path e)

def definitions (f : SourceFile) : List (Member TypeDefinition) :=
  match f.parse with
  | .ok d => d.definitions
  | .error _ => []

theorem parse_eq_ok_iff (hf : f.Readable) : f.parse = .ok d ↔ f.syntaxError? = none ∧ d = ⟨f.definitions⟩ := by
  obtain ⟨source, hs⟩ := hf
  simp only [definitions, SourceFile.parse, syntaxError?, hs]
  cases Schemata.parse source with
  | ok d' => simp [Except.mapError, eq_comm]
  | error e => simp [Except.mapError]

theorem parse_eq_error_iff (hf : f.Readable) {e : SourceError} : f.parse = .error e ↔ f.syntaxError? = some e := by
  obtain ⟨source, hs⟩ := hf
  simp only [SourceFile.parse, syntaxError?, hs]
  cases Schemata.parse source with
  | ok d => simp [Except.mapError]
  | error e' => simp [Except.mapError]

theorem parseAll_eq (hf : ∀ f ∈ fs, f.Readable) : parseAll fs =
    if fs.filterMap syntaxError? = [] then .ok ⟨fs.flatMap definitions⟩ else .error (fs.filterMap syntaxError?) := by
  induction fs with
  | nil => rfl
  | cons f fs ih =>
    obtain ⟨first, others⟩ := List.forall_mem_cons.1 hf
    cases hp : f.parse with
    | ok d =>
      obtain ⟨sound, rfl⟩ := (parse_eq_ok_iff first).1 hp
      rw [List.filterMap_cons_none sound, List.flatMap_cons, parseAll, hp, ih others]
      by_cases none : fs.filterMap syntaxError? = []
      · rw [if_pos none, if_pos none]
      · rw [if_neg none, if_neg none]
    | error e =>
      rw [List.filterMap_cons_some ((parse_eq_error_iff first).1 hp), if_neg (List.cons_ne_nil _ _), parseAll, hp,
        ih others]
      by_cases none : fs.filterMap syntaxError? = []
      · rw [if_pos none, none]
      · rw [if_neg none]

theorem parseAll_eq_ok_iff (hf : ∀ f ∈ fs, f.Readable) :
    parseAll fs = .ok d ↔ fs.filterMap syntaxError? = [] ∧ d = ⟨fs.flatMap definitions⟩ := by
  rw [parseAll_eq hf]
  split <;> simp [*, eq_comm]

theorem parseAll_eq_error_iff (hf : ∀ f ∈ fs, f.Readable) :
    parseAll fs = .error es ↔ es ≠ [] ∧ es = fs.filterMap syntaxError? := by
  rw [parseAll_eq hf]
  split
  next none => simp [none]
  next some =>
    constructor
    · rintro ⟨⟩
      exact ⟨some, rfl⟩
    · rintro ⟨-, rfl⟩
      rfl

theorem parseAll_permuted (h : fs.Perm fs') (hf : ∀ f ∈ fs, f.Readable) (hd : parseAll fs = .ok d)
    (hd' : parseAll fs' = .ok d') : d.Permuted d' := by
  obtain ⟨-, rfl⟩ := (parseAll_eq_ok_iff hf).1 hd
  obtain ⟨-, rfl⟩ := (parseAll_eq_ok_iff fun f hm => hf f (h.mem_iff.2 hm)).1 hd'
  exact (h.flatMap_right definitions).filterMap _

end SourceFile

namespace Command

theorem runCheck_eq_success_iff {tree : FileTree} {extensions paths : List String} {skipped : Nat} {text : String}
    (h : Findings.ofPaths tree paths extensions = ⟨[], fs, skipped⟩) :
    runCheck tree extensions paths = .success text ↔
      ∃ d r, SourceFile.parseAll fs = .ok d ∧ generateAlone d = .ok r ∧ text = successText fs.length skipped r.size := by
  simp only [runCheck, h, List.isEmpty_nil, Bool.not_true, Bool.false_eq_true, if_false, failing]
  cases SourceFile.parseAll fs with
  | error es => simp
  | ok d =>
    cases hg : generateAlone d with
    | error e => simp [hg]
    | ok r => simp [hg, eq_comm]

/-- Two lists of files are checked alike: both are valid or neither, for the same number of types. -/
structure SameVerdict (fs fs' : List SourceFile) : Prop where
  files : fs.length = fs'.length
  parses : (∃ d, SourceFile.parseAll fs = .ok d) ↔ ∃ d, SourceFile.parseAll fs' = .ok d
  generates : ∀ d d', SourceFile.parseAll fs = .ok d → SourceFile.parseAll fs' = .ok d' →
    ((∃ r, generateAlone d = .ok r) ↔ ∃ r, generateAlone d' = .ok r) ∧
      ∀ r r', generateAlone d = .ok r → generateAlone d' = .ok r' → r.size = r'.size

theorem SameVerdict.success {tree tree' : FileTree} {extensions extensions' paths paths' : List String}
    {skipped : Nat} {text : String} (h : SameVerdict fs fs')
    (found : Findings.ofPaths tree paths extensions = ⟨[], fs, skipped⟩)
    (found' : Findings.ofPaths tree' paths' extensions' = ⟨[], fs', skipped⟩)
    (ht : runCheck tree extensions paths = .success text) : runCheck tree' extensions' paths' = .success text := by
  obtain ⟨d, r, hd, hr, rfl⟩ := (runCheck_eq_success_iff found).1 ht
  obtain ⟨d', hd'⟩ := h.parses.1 ⟨d, hd⟩
  obtain ⟨generated, size⟩ := h.generates d d' hd hd'
  obtain ⟨r', hr'⟩ := generated.1 ⟨r, hr⟩
  exact (runCheck_eq_success_iff found').2 ⟨d', r', hd', hr', by rw [h.files, size r r' hr hr']⟩

theorem sameVerdict_of_perm (h : fs.Perm fs') (hf : ∀ f ∈ fs, f.Readable) : SameVerdict fs fs' where
  files := h.length_eq
  parses := by
    have hf' : ∀ f ∈ fs', f.Readable := fun f hm => hf f (h.mem_iff.2 hm)
    have errors : fs.filterMap SourceFile.syntaxError? = [] ↔ fs'.filterMap SourceFile.syntaxError? = [] :=
      ⟨fun none => List.perm_nil.1 (none ▸ (h.filterMap _).symm), fun none => List.perm_nil.1 (none ▸ h.filterMap _)⟩
    simp only [SourceFile.parseAll_eq_ok_iff hf, SourceFile.parseAll_eq_ok_iff hf', exists_and_left, exists_eq,
      and_true, errors]
  generates d d' hd hd' := by
    have permuted : d.Permuted d' := SourceFile.parseAll_permuted h hf hd hd'
    exact ⟨generate_withPlaceholders_permuted permuted .empty, fun r r' => generate_size_permuted permuted⟩

/-- Files in another order are checked alike. Those with errors are reported in their order, each as if it were
alone; a check succeeds if the files make up a document that generates, and then says the same in every order. -/
theorem check_reordered (h : fs.Perm fs') (hf : ∀ f ∈ fs, f.Readable) :
    SameVerdict fs fs' ∧
    (∀ es, SourceFile.parseAll fs = .error es ↔ es ≠ [] ∧ es = fs.filterMap SourceFile.syntaxError?) ∧
    (∀ tree extensions paths skipped, Findings.ofPaths tree paths extensions = ⟨[], fs, skipped⟩ →
      ∀ text, runCheck tree extensions paths = .success text ↔
        ∃ d r, SourceFile.parseAll fs = .ok d ∧ generateAlone d = .ok r ∧
          text = successText fs.length skipped r.size) ∧
    ∀ tree tree' extensions extensions' paths paths' skipped,
      Findings.ofPaths tree paths extensions = ⟨[], fs, skipped⟩ →
      Findings.ofPaths tree' paths' extensions' = ⟨[], fs', skipped⟩ →
      ∀ text, runCheck tree extensions paths = .success text ↔ runCheck tree' extensions' paths' = .success text := by
  have same : SameVerdict fs fs' := sameVerdict_of_perm h hf
  have same' : SameVerdict fs' fs := sameVerdict_of_perm h.symm fun f hm => hf f (h.mem_iff.2 hm)
  refine ⟨same, fun es => SourceFile.parseAll_eq_error_iff hf, ?_, ?_⟩
  · intro tree extensions paths skipped found text
    exact runCheck_eq_success_iff found
  · intro tree tree' extensions extensions' paths paths' skipped found found' text
    exact ⟨same.success found found', same'.success found' found⟩

theorem check_reordered_spread :
    let node : FieldDefinition := ⟨"n", none, .named "N"⟩
    let id : FieldDefinition := ⟨"id", none, .nonNull (.named "ID")⟩
    let file (path source : String) : SourceFile := ⟨path, source.toByteArray.data.toList⟩
    let a := file "a.graphql" "extend type T implements N \x7b n: N \x7d"
    let b := file "b.graphql" "type T \x7b id: ID! \x7d"
    let c := file "c.graphql" "union U = T | V\ntype V \x7b id: ID! \x7d\ninterface N \x7b id: ID! \x7d"
    let extension : TypeDefinition := .extension ⟨"T", ["N"], [.item node]⟩
    let type : TypeDefinition := .object ⟨"T", [], [.item id]⟩
    let others : List TypeDefinition :=
      [.union ⟨"U", ["T", "V"]⟩, .object ⟨"V", [], [.item id]⟩, .interface ⟨"N", [.item id]⟩]
    let d : Document := ⟨(extension :: type :: others).map .item⟩
    let d' : Document := ⟨(others ++ [type, extension]).map .item⟩
    let tree : FileTree := ⟨[], [a, b, c].map fun f => ([f.path], f.content), []⟩
    SourceFile.parseAll [a, b, c] = .ok d ∧ SourceFile.parseAll [c, b, a] = .ok d' ∧
      (∃ r r', generateAlone d = .ok r ∧ generateAlone d' = .ok r' ∧ r.size = 4 ∧ r'.size = 4) ∧
      runCheck tree ["graphql"] [a.path, b.path, c.path] = .success (successText 3 0 4) ∧
      runCheck tree ["graphql"] [c.path, b.path, a.path] = .success (successText 3 0 4) := by
  intro node id file a b c extension type others d d' tree
  have parsed : a.parse = .ok ⟨[.item extension]⟩ ∧ b.parse = .ok ⟨[.item type]⟩ ∧ c.parse = .ok ⟨others.map .item⟩ := by
    refine ⟨SourceFile.parse_toByteArray ?_, SourceFile.parse_toByteArray ?_, SourceFile.parse_toByteArray ?_⟩
    · dsimp only [extension, node]; decide +kernel
    · dsimp only [type, id]; decide +kernel
    · dsimp only [others, id]; decide +kernel
  have hd : SourceFile.parseAll [a, b, c] = .ok d := by
    simp only [SourceFile.parseAll, parsed]
    rfl
  have hd' : SourceFile.parseAll [c, b, a] = .ok d' := by
    simp only [SourceFile.parseAll, parsed]
    rfl
  have readable : ∀ f ∈ [a, b, c], f.Readable := by
    simp only [List.mem_cons, List.not_mem_nil, or_false]
    rintro f (rfl | rfl | rfl) <;> exact ⟨_, SourceFile.decode?_toByteArray _⟩
  have found : Findings.ofPaths tree [a.path, b.path, c.path] ["graphql"] = ⟨[], [a, b, c], 0⟩ := by
    dsimp only [tree, a, b, c, file]
    decide +kernel
  have found' : Findings.ofPaths tree [c.path, b.path, a.path] ["graphql"] = ⟨[], [c, b, a], 0⟩ := by
    dsimp only [tree, a, b, c, file]
    decide +kernel
  obtain ⟨same, -, success_iff, reordered⟩ := check_reordered (List.reverse_perm [c, b, a]) readable
  obtain ⟨r, hr, hs⟩ : ∃ r, generateAlone d = .ok r ∧ r.size = 4 := ⟨_, rfl, by decide +kernel⟩
  obtain ⟨generated, size⟩ := same.generates d d' hd hd'
  obtain ⟨r', hr'⟩ := generated.1 ⟨r, hr⟩
  have checked : runCheck tree ["graphql"] [a.path, b.path, c.path] = .success (successText 3 0 4) :=
    (success_iff _ _ _ _ found _).2 ⟨d, r, hd, hr, by rw [hs]; rfl⟩
  exact ⟨hd, hd', ⟨r, r', hr, hr', hs, (size r r' hr hr').symm.trans hs⟩, checked,
    (reordered _ _ _ _ _ _ _ found found' _).1 checked⟩

end Command

end Schemata
