import Schemata.Execution.Request
import Schemata.Proofs.Json.Record

namespace Schemata

open Json (Optional Defaulted Items Reads ReadsBack record?_eq_some_iff getD_eq_iff string?_reads array?_reads
  object?_reads)

namespace Request

def WrittenAs (r : Request) (j : Json) : Prop :=
  ∃ rootValue variableValues operationName,
    j.HasFields ["query", "rootValue", "variables", "operationName"] 1
      [some (.string r.query), rootValue, variableValues, operationName] ∧
    Defaulted .null (fun value j => j = value) r.rootValue rootValue ∧
    Defaulted [] (fun members j => j = .object members) r.variableValues variableValues ∧
    Optional (fun name j => j = .string name) r.operationName operationName

theorem ofJson?_reads : Reads ofJson? WrittenAs := by
  intro j r
  unfold ofJson?
  simp only [Option.bind_eq_bind, Option.bind_eq_some_iff, record?_eq_some_iff]
  constructor
  · rintro ⟨fields, hf, taken⟩
    match fields, hf.length_eq with
    | [query, rootValue, variableValues, operationName], _ =>
      simp only [Option.bind_eq_some_iff, string?_reads.required, object?_reads.defaulted,
      string?_reads.optional nofun, Option.pure_def, Option.some.injEq] at taken
      obtain ⟨_, ⟨_, rfl, rfl⟩, _, variableValues, _, operationName, rfl⟩ := taken
      exact ⟨_, _, _, hf, getD_eq_iff.1 rfl, variableValues, operationName⟩
  · rintro ⟨rootValue, variableValues, operationName, hf, root, variableMembers, operation⟩
    refine ⟨_, hf, ?_⟩
    simp only [Option.bind_eq_some_iff, string?_reads.required, object?_reads.defaulted,
      string?_reads.optional nofun, Option.pure_def, Option.some.injEq]
    exact ⟨_, ⟨_, rfl, rfl⟩, _, variableMembers, _, operation, by rw [getD_eq_iff.2 root]⟩

theorem toJson_writtenAs (r : Request) : r.WrittenAs r.toJson := by
  obtain ⟨query, rootValue, variableValues, operationName⟩ := r
  cases operationName with
  | none => exact ⟨_, _, _, .object _, .given rfl, .given rfl, .absent⟩
  | some name => exact ⟨_, _, _, .object _, .given rfl, .given rfl, .given rfl⟩

end Request

namespace ErrorDescriptor

def WrittenAs (e : ErrorDescriptor) (j : Json) : Prop :=
  ∃ path, j.HasFields ["message", "path"] 1 [some (.string e.message), path] ∧
    Defaulted [] (fun items j => j = .array items) e.path path

theorem ofJson?_reads : Reads ofJson? WrittenAs := by
  intro j e
  unfold ofJson?
  simp only [Option.bind_eq_bind, Option.bind_eq_some_iff, record?_eq_some_iff]
  constructor
  · rintro ⟨fields, hf, taken⟩
    match fields, hf.length_eq with
    | [message, path], _ =>
      simp only [Option.bind_eq_some_iff, string?_reads.required, array?_reads.defaulted, Option.pure_def,
        Option.some.injEq] at taken
      obtain ⟨_, ⟨_, rfl, rfl⟩, _, path, rfl⟩ := taken
      exact ⟨_, hf, path⟩
  · rintro ⟨path, hf, items⟩
    refine ⟨_, hf, ?_⟩
    simp only [Option.bind_eq_some_iff, string?_reads.required, array?_reads.defaulted, Option.pure_def,
      Option.some.injEq]
    exact ⟨_, ⟨_, rfl, rfl⟩, _, items, rfl⟩

theorem toJson_writtenAs (e : ErrorDescriptor) : e.WrittenAs e.toJson := by
  obtain ⟨message, path⟩ := e
  cases path with
  | nil => exact ⟨_, .object _, .absent⟩
  | cons step path => exact ⟨_, .object _, .given rfl⟩

theorem toJson_path (e : ErrorDescriptor) :
    e.toJson.member? "path" = if e.path = [] then none else some (.array e.path) := by
  obtain ⟨message, path⟩ := e
  cases path with
  | nil => rfl
  | cons step path => rfl

end ErrorDescriptor

namespace Result

def WrittenAs (r : Result) (j : Json) : Prop :=
  ∃ data errors, j.HasFields ["data", "errors"] 0 [data, errors] ∧
    Optional (fun members j => j = .object members) r.data data ∧
    Optional (Items ErrorDescriptor.WrittenAs) r.errors errors

theorem ofJson?_reads : Reads ofJson? WrittenAs := by
  have errors_reads := ErrorDescriptor.ofJson?_reads.list
  intro j r
  unfold ofJson?
  simp only [Option.bind_eq_bind, Option.bind_eq_some_iff, record?_eq_some_iff]
  constructor
  · rintro ⟨fields, hf, taken⟩
    match fields, hf.length_eq with
    | [data, errors], _ =>
      simp only [Option.bind_eq_some_iff, object?_reads.optional nofun, errors_reads.optional nofun,
        Option.pure_def, Option.some.injEq] at taken
      obtain ⟨_, data, _, errors, rfl⟩ := taken
      exact ⟨_, _, hf, data, errors⟩
  · rintro ⟨data, errors, hf, members, items⟩
    refine ⟨_, hf, ?_⟩
    simp only [Option.bind_eq_some_iff, object?_reads.optional nofun, errors_reads.optional nofun,
      Option.pure_def, Option.some.injEq]
    exact ⟨_, members, _, items, rfl⟩

theorem toJson_writtenAs (r : Result) : r.WrittenAs r.toJson := by
  obtain ⟨data, errors⟩ := r
  have items (errors : List ErrorDescriptor) :
      Items ErrorDescriptor.WrittenAs errors (.array (errors.map ErrorDescriptor.toJson)) :=
    .array (List.forall₂_map_right_iff.2 (List.forall₂_same.2 fun e _ => e.toJson_writtenAs))
  cases data with
  | none =>
    cases errors with
    | none => exact ⟨_, _, .object _, .absent, .absent⟩
    | some errors => exact ⟨_, _, .object _, .absent, .given (items errors)⟩
  | some data =>
    cases errors with
    | none => exact ⟨_, _, .object _, .given rfl, .absent⟩
    | some errors => exact ⟨_, _, .object _, .given rfl, .given (items errors)⟩

theorem toJson_data (r : Result) : r.toJson.member? "data" = r.data.map .object := by
  obtain ⟨data, errors⟩ := r
  cases data <;> cases errors <;> rfl

theorem toJson_errors (r : Result) :
    r.toJson.member? "errors" = r.errors.map fun errors => .array (errors.map ErrorDescriptor.toJson) := by
  obtain ⟨data, errors⟩ := r
  cases data <;> cases errors <;> rfl

theorem isOk_iff (r : Result) : r.isOk ↔ r.errors = none ∨ r.errors = some [] := by
  cases h : r.errors <;> simp [isOk, h]

end Result

/-- Requests, results and the errors in them are read back from JSON as they were written, and any JSON value that is
read has a normal form with the same reading. No data, no errors and an empty list of errors are written differently,
an empty path is left out, and a result succeeds after reading exactly if it did before writing. -/
theorem execution_readsBack :
    ReadsBack Request.toJson Request.ofJson? Request.WrittenAs ∧
    ReadsBack Result.toJson Result.ofJson? Result.WrittenAs ∧
    ReadsBack ErrorDescriptor.toJson ErrorDescriptor.ofJson? ErrorDescriptor.WrittenAs ∧
    (∀ e : ErrorDescriptor, e.toJson.member? "path" = if e.path = [] then none else some (.array e.path)) ∧
    ∀ r : Result, r.toJson.member? "data" = r.data.map .object ∧
      r.toJson.member? "errors" = r.errors.map (fun errors => .array (errors.map ErrorDescriptor.toJson)) ∧
      (Result.ofJson? r.toJson).map Result.isOk = some r.isOk ∧
      (r.isOk ↔ r.errors = none ∨ r.errors = some []) := by
  have results := Result.ofJson?_reads.readsBack Result.toJson_writtenAs
  refine ⟨Request.ofJson?_reads.readsBack Request.toJson_writtenAs, results,
    ErrorDescriptor.ofJson?_reads.readsBack ErrorDescriptor.toJson_writtenAs, ErrorDescriptor.toJson_path,
    fun r => ⟨r.toJson_data, r.toJson_errors, ?_, r.isOk_iff⟩⟩
  rw [results.restores, Option.map_some]

theorem execution_readsBack_array :
    let written : Json := .array [.null, .array [.array [.string "late"],
      .object [("line", .int 1), ("path", .array [.string "a"]), ("message", .string "lost")]]]
    let normal : Json := .object [("errors", .array [.object [("message", .string "late")],
      .object [("message", .string "lost"), ("path", .array [.string "a"])]])]
    (Result.ofJson? written).map Result.toJson = some normal ∧ Result.ofJson? normal = Result.ofJson? written := by
  intro written normal
  have form : (Result.ofJson? written).map Result.toJson = some normal := rfl
  exact ⟨form, (execution_readsBack.2.1.normalizes form).1⟩

end Schemata
