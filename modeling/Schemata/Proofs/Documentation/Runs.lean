import Schemata.Documentation
/-!
Comment runs. Each item of a member list has the run of all comments that stand directly before it.
Comments at the end of the list are in no run.
-/

namespace Schemata

variable {α β : Type}

def withRunsFrom (pending : List Comment) : List (Member α) → List (List Comment × α)
  | [] => []
  | .comment c :: members => withRunsFrom (pending ++ [c]) members
  | .item a :: members => (pending, a) :: withRunsFrom [] members

def withRuns (members : List (Member α)) : List (List Comment × α) := withRunsFrom [] members

/-- `run` is made up of all comments directly before the item `a`, from the item or the start of the
list that stands before them. -/
def RunBefore (members : List (Member α)) (run : List Comment) (a : α) : Prop :=
  ∃ before after, members = before ++ run.map .comment ++ .item a :: after ∧
    ∀ c, before.getLast? ≠ some (.comment c)

def waiting (run : List Comment) : DocLines := run.foldl DocLines.push .empty

def describe (run : List Comment) : Option String := (waiting run).take.1

@[simp] theorem waiting_nil : waiting [] = .empty := rfl

theorem waiting_push (run : List Comment) (c : Comment) : (waiting run).push c = waiting (run ++ [c]) := by
  simp [waiting]

theorem withRunsFrom_items (pending : List Comment) (members : List (Member α)) :
    (withRunsFrom pending members).map Prod.snd = items members := by
  induction members generalizing pending with
  | nil => rfl
  | cons m members ih =>
    cases m with
    | comment c => exact ih (pending ++ [c])
    | item a => exact congrArg (a :: ·) (ih [])

theorem withRuns_items (members : List (Member α)) : (withRuns members).map Prod.snd = items members :=
  withRunsFrom_items [] members

theorem mem_items_of_mem_withRuns {members : List (Member α)} {run : List Comment} {a : α}
    (h : (run, a) ∈ withRuns members) : a ∈ items members :=
  withRuns_items members ▸ List.mem_map_of_mem h

theorem mem_withRuns_of_mem_items {members : List (Member α)} {a : α} (h : a ∈ items members) :
    ∃ run, (run, a) ∈ withRuns members := by
  rw [← withRuns_items] at h
  simpa using h

theorem comments_of_no_item {members : List (Member α)} (h : ∀ a, .item a ∉ members) :
    ∃ run : List Comment, members = run.map .comment := by
  induction members with
  | nil => exact ⟨[], rfl⟩
  | cons m members ih =>
    obtain ⟨run, rfl⟩ := ih fun a ha => h a (List.mem_cons_of_mem _ ha)
    cases m with
    | comment c => exact ⟨c :: run, rfl⟩
    | item a => exact absurd List.mem_cons_self (h a)

theorem exists_first_item {members : List (Member α)} {a : α} (h : .item a ∈ members) :
    ∃ (run : List Comment) (b : α) (after : List (Member α)), members = run.map .comment ++ .item b :: after := by
  induction members with
  | nil => cases h
  | cons m members ih =>
    cases m with
    | item b => exact ⟨[], b, members, rfl⟩
    | comment c =>
      obtain ⟨run, b, after, rfl⟩ := ih (by simpa using h)
      exact ⟨c :: run, b, after, rfl⟩

theorem first_item_unique {run run' : List Comment} {a a' : α} {after after' : List (Member α)}
    (h : run.map .comment ++ .item a :: after = run'.map .comment ++ .item a' :: after') :
    run = run' ∧ a = a' ∧ after = after' := by
  induction run generalizing run' with
  | nil => cases run' <;> simp_all
  | cons c run ih =>
    cases run' with
    | nil => simp at h
    | cons c' run' =>
      simp only [List.map_cons, List.cons_append, List.cons.injEq, Member.comment.injEq] at h
      obtain ⟨rfl, h⟩ := h
      obtain ⟨rfl, ha⟩ := ih h
      exact ⟨rfl, ha⟩

theorem getLast?_item_cons_ne {before members : List (Member α)} {b : α} :
    (∀ c, (before ++ .item b :: members).getLast? ≠ some (.comment c)) ↔
      ∀ c, members.getLast? ≠ some (.comment c) := by
  simp only [List.getLast?_append, List.getLast?_cons, Option.some_or, ne_eq, Option.some.injEq]
  cases members.getLast? <;> simp

theorem runBefore_item_cons {pending run : List Comment} {a b : α} {members : List (Member α)} :
    RunBefore (pending.map .comment ++ .item b :: members) run a ↔
      (run = pending ∧ a = b) ∨ RunBefore members run a := by
  constructor
  · rintro ⟨before, after, he, hl⟩
    by_cases hb : ∃ x, .item x ∈ before
    · obtain ⟨x, hx⟩ := hb
      obtain ⟨cs, y, others, rfl⟩ := exists_first_item hx
      simp only [List.append_assoc, List.cons_append] at he
      obtain ⟨rfl, rfl, rfl⟩ := first_item_unique he
      exact .inr ⟨others, after, by simp, getLast?_item_cons_ne.1 hl⟩
    · obtain ⟨cs, rfl⟩ := comments_of_no_item (not_exists.1 hb)
      -- Only a comment could end what stands before the run.
      rcases List.eq_nil_or_concat cs with rfl | ⟨cs', c, rfl⟩
      · obtain ⟨rfl, rfl, -⟩ := first_item_unique he
        exact .inl ⟨rfl, rfl⟩
      · exact absurd (by simp) (hl c)
  · rintro (⟨rfl, rfl⟩ | ⟨before, after, rfl, hl⟩)
    · exact ⟨[], members, rfl, nofun⟩
    · exact ⟨pending.map .comment ++ .item b :: before, after, by simp, getLast?_item_cons_ne.2 hl⟩

theorem mem_withRunsFrom_iff {pending run : List Comment} {members : List (Member α)} {a : α} :
    (run, a) ∈ withRunsFrom pending members ↔ RunBefore (pending.map .comment ++ members) run a := by
  induction members generalizing pending with
  | nil =>
    refine ⟨nofun, fun ⟨before, after, he, _⟩ => ?_⟩
    have ha : (.item a : Member α) ∈ pending.map .comment ++ [] := he ▸ by simp
    simp at ha
  | cons m members ih =>
    cases m with
    | comment c =>
      rw [withRunsFrom, ih]
      simp
    | item b =>
      rw [withRunsFrom, runBefore_item_cons, List.mem_cons, ih, Prod.mk.injEq]
      rfl

theorem mem_withRuns_iff {members : List (Member α)} {run : List Comment} {a : α} :
    (run, a) ∈ withRuns members ↔ RunBefore members run a :=
  mem_withRunsFrom_iff

theorem RunBefore.mem_items {members : List (Member α)} {run : List Comment} {a : α} (h : RunBefore members run a) :
    a ∈ items members :=
  mem_items_of_mem_withRuns (mem_withRuns_iff.2 h)

theorem exists_runBefore {members : List (Member α)} {a : α} (h : a ∈ items members) :
    ∃ run, RunBefore members run a := by
  obtain ⟨run, hr⟩ := mem_withRuns_of_mem_items h
  exact ⟨run, mem_withRuns_iff.1 hr⟩

def writeRuns (runs : List (List Comment × α)) : List (Member α) :=
  runs.flatMap fun p => p.1.map .comment ++ [.item p.2]

theorem withRunsFrom_comments (pending run : List Comment) (members : List (Member α)) :
    withRunsFrom pending (run.map .comment ++ members) = withRunsFrom (pending ++ run) members := by
  induction run generalizing pending with
  | nil => simp
  | cons c run ih => simp [withRunsFrom, ih]

theorem withRuns_writeRuns (runs : List (List Comment × α)) : withRuns (writeRuns runs) = runs := by
  induction runs with
  | nil => rfl
  | cons p runs ih =>
    rw [withRuns, writeRuns, List.flatMap_cons, List.append_assoc, withRunsFrom_comments]
    exact congrArg (p :: ·) ih

end Schemata
