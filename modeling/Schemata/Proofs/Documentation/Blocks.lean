import Schemata.Proofs.Documentation.Runs

namespace Schemata

variable {α : Type}

def trailingFrom (pending : List Comment) : List (Member α) → List Comment
  | [] => pending
  | .comment c :: members => trailingFrom (pending ++ [c]) members
  | .item _ :: members => trailingFrom [] members

def trailing (members : List (Member α)) : List Comment := trailingFrom [] members

def withoutTrailing (members : List (Member α)) : List (Member α) := writeRuns (withRuns members)

theorem writeRuns_cons (run : List Comment) (a : α) (runs : List (List Comment × α)) :
    writeRuns ((run, a) :: runs) = run.map .comment ++ .item a :: writeRuns runs := by
  simp [writeRuns]

theorem withRuns_writeRuns_append (runs : List (List Comment × α)) (members : List (Member α)) :
    withRuns (writeRuns runs ++ members) = runs ++ withRuns members := by
  induction runs with
  | nil => rfl
  | cons p runs ih =>
    obtain ⟨run, a⟩ := p
    rw [writeRuns_cons, List.append_assoc, withRuns, withRunsFrom_comments]
    exact congrArg ((run, a) :: ·) ih

theorem withRuns_withoutTrailing_append (members others : List (Member α)) :
    withRuns (withoutTrailing members ++ others) = withRuns members ++ withRuns others :=
  withRuns_writeRuns_append _ _

theorem withRunsFrom_of_comments (pending run : List Comment) :
    withRunsFrom pending (run.map .comment : List (Member α)) = [] := by
  induction run generalizing pending with
  | nil => rfl
  | cons c run ih => exact ih (pending ++ [c])

theorem withRuns_writeRuns_comments (runs : List (List Comment × α)) (run : List Comment) :
    withRuns (writeRuns runs ++ run.map .comment) = runs := by
  rw [withRuns_writeRuns_append, withRuns, withRunsFrom_of_comments, List.append_nil]

theorem withRuns_flatMap_withoutTrailing {β : Type} (members : β → List (Member α)) (bs : List β) :
    withRuns (bs.flatMap fun b => withoutTrailing (members b)) = bs.flatMap fun b => withRuns (members b) := by
  induction bs with
  | nil => rfl
  | cons b bs ih => rw [List.flatMap_cons, List.flatMap_cons, withRuns_withoutTrailing_append, ih]

end Schemata
