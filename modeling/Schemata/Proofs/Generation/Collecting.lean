import Mathlib.Data.List.Duplicate
import Schemata.Generation.Parts
import Schemata.Proofs.Documentation.Runs
import Schemata.Proofs.OrderedMap
import Schemata.Proofs.Outcome
/-!
How lists of named items are built. No comment line is left waiting behind a list, so each item is built
from what stands directly before it, and a list goes wrong by a repeated name or at one of its items.
-/

namespace Schemata

variable {α β : Type}

def Drains (x : Generated (β × DocLines)) : Prop := ∀ ⦃b lines⦄, x = .ok (b, lines) → lines = .empty

theorem duplicate_of_mem {name : String} {names others : List String} (h : name ∈ names) :
    List.Duplicate name (names ++ name :: others) := by
  rw [List.duplicate_iff_sublist]
  exact (List.singleton_sublist.2 h).append (List.singleton_sublist.2 List.mem_cons_self)

theorem ifNew_decides {γ : Type} {m : OrderedMap β} {name : String} {e : GenerateError} {x : Generated γ}
    {valid : Prop} {value : γ} {fault : GenerateError → Prop} (he : name ∈ m.keys → fault e)
    (hx : x.Decides valid value fault) :
    (if m.contains name then .error e else x).Decides (name ∉ m.keys ∧ valid) value fault := by
  by_cases hk : name ∈ m.keys
  · rw [if_pos (OrderedMap.contains_iff.2 hk)]
    exact .error (fun hv => hv.1 hk) (he hk)
  · rw [if_neg (mt OrderedMap.contains_iff.1 hk)]
    exact hx.iff (and_iff_right hk).symm

def insertNew (e : GenerateError) (name : String) (value : β) (m : OrderedMap β) : Generated (OrderedMap β) :=
  if m.contains name then .error e else .ok (m.insert name value)

theorem insertNew_decides {m : OrderedMap β} {name : String} {value : β} {e : GenerateError}
    {fault : GenerateError → Prop} (he : name ∈ m.keys → fault e) :
    (insertNew e name value m).Decides (name ∉ m.keys ∧ True) (m.insert name value) fault :=
  ifNew_decides he (.ok _)

theorem foldlM_insert_decides {step : OrderedMap β → α → Generated (OrderedMap β)} {name : α → String}
    {value : α → β} {valid : α → Prop} {fault : GenerateError → Prop} {as : List α} {built : OrderedMap β}
    (h : ∀ a ∈ as, ∀ m, (name a ∈ m.keys → List.Duplicate (name a) (built.keys ++ as.map name)) →
      (step m a).Decides (name a ∉ m.keys ∧ valid a) (m.insert (name a) (value a)) fault) :
    (as.foldlM step built).Decides ((built.keys ++ as.map name).Nodup ∧ ∀ a ∈ as, valid a)
      ((as.map fun a => (name a, value a)).foldl (fun m p => m.insert p.1 p.2) built) fault := by
  induction as generalizing built with
  | nil => exact (Except.Decides.ok built).iff (by simpa [OrderedMap.keys] using built.keys_nodup)
  | cons a as ih =>
    have first := h a List.mem_cons_self built duplicate_of_mem
    have keys (hn : name a ∉ built.keys) : (built.insert (name a) (value a)).keys ++ as.map name =
        built.keys ++ (a :: as).map name := by
      simp [OrderedMap.insert_keys_of_not_mem _ hn]
    rw [List.foldlM_cons]
    refine (first.bind fun hv => ih fun b hb m hm => ?_).iff ?_
    · exact h b (List.mem_cons_of_mem _ hb) m fun hk => keys hv.1 ▸ hm hk
    · constructor
      · rintro ⟨⟨hn, hv⟩, hk, hvs⟩
        exact ⟨keys hn ▸ hk, List.forall_mem_cons.2 ⟨hv, hvs⟩⟩
      · rintro ⟨hk, hvs⟩
        have hn : name a ∉ built.keys := fun hm => List.disjoint_of_nodup_append hk hm (by simp)
        exact ⟨⟨hn, hvs a List.mem_cons_self⟩, (keys hn).symm ▸ hk,
          fun b hb => hvs b (List.mem_cons_of_mem _ hb)⟩

section

variable (name : α → String) (duplicate : String → GenerateError) (build : Option String → α → Documenting β)

def collectStep (built : OrderedMap β) (p : List Comment × α) : Generated (OrderedMap β) := do
  if built.contains (name p.2) then throw (duplicate (name p.2))
  let (b, _) ← build (describe p.1) p.2 .empty
  return built.insert (name p.2) b

variable {name duplicate build}

theorem collectFrom_drains (built : OrderedMap β) (members : List (Member α)) (lines : DocLines) :
    Drains (collectFrom name duplicate build built members lines) := by
  intro m after h
  induction members generalizing built lines with
  | nil => exact (Prod.mk.inj (Except.ok.inj h)).2 ▸ rfl
  | cons member members ih =>
    cases member with
    | comment c => exact ih built (lines.push c) h
    | item a =>
      rw [collectFrom] at h
      by_cases hc : built.contains (name a)
      · simp [hc] at h
      · simp only [hc] at h
        obtain ⟨⟨b, mid⟩, -, h⟩ := Except.bind_eq_ok_iff.1 h
        exact ih _ mid h

theorem collect_drains (members : List (Member α)) (lines : DocLines) :
    Drains (collect name duplicate build members lines) :=
  collectFrom_drains .empty members lines

theorem collectFrom_eq_foldlM {pending : List Comment} {members : List (Member α)} {built : OrderedMap β}
    (h : ∀ a ∈ items members, ∀ run, Drains (build (describe run) a .empty)) :
    collectFrom name duplicate build built members (waiting pending) =
      (do return (← (withRunsFrom pending members).foldlM (collectStep name duplicate build) built, .empty)) := by
  induction members generalizing pending built with
  | nil => rfl
  | cons member members ih =>
    cases member with
    | comment c =>
      rw [collectFrom, waiting_push, ih h]
      rfl
    | item a =>
      have hl := h a List.mem_cons_self pending
      rw [collectFrom, withRunsFrom, List.foldlM_cons, collectStep]
      by_cases hc : built.contains (name a)
      · simp [hc]
        rfl
      · simp only [hc]
        change (build (describe pending) a .empty >>= _) = _
        cases hb : build (describe pending) a .empty with
        | error e => rfl
        | ok r =>
          obtain ⟨b, lines⟩ := r
          obtain rfl := hl hb
          change collectFrom name duplicate build (built.insert (name a) b) members (waiting []) = _
          rw [ih fun a' ha => h a' (List.mem_cons_of_mem _ ha)]
          rfl

def collected (name : α → String) (value : List Comment → α → β) (members : List (Member α)) : OrderedMap β :=
  .ofList ((withRuns members).map fun p => (name p.2, value p.1 p.2))

theorem withRuns_names (name : α → String) (members : List (Member α)) :
    ((withRuns members).map fun p => name p.2) = (items members).map name := by
  rw [← withRuns_items, List.map_map]
  rfl

theorem collected_entries {value : List Comment → α → β} {members : List (Member α)}
    (h : ((items members).map name).Nodup) :
    (collected name value members).entries = (withRuns members).map fun p => (name p.2, value p.1 p.2) := by
  apply OrderedMap.ofList_entries
  rw [List.map_map]
  exact withRuns_names name members ▸ h

theorem collected_keys {value : List Comment → α → β} {members : List (Member α)}
    (h : ((items members).map name).Nodup) :
    (collected name value members).keys = (items members).map name := by
  rw [OrderedMap.keys, collected_entries h, List.map_map]
  exact withRuns_names name members

theorem collected_get? {value : List Comment → α → β} {members : List (Member α)}
    (h : ((items members).map name).Nodup) {key : String} {b : β} :
    (collected name value members).get? key = some b ↔
      ∃ run a, RunBefore members run a ∧ name a = key ∧ value run a = b := by
  simp only [OrderedMap.get?_eq_some_iff, collected_entries h, List.mem_map, Prod.mk.injEq, Prod.exists,
    mem_withRuns_iff]

theorem collect_decides {valid : α → Prop} {value : List Comment → α → β} {fault : GenerateError → Prop}
    {members : List (Member α)}
    (hb : ∀ a ∈ items members, ∀ run,
      (build (describe run) a .empty).Decides (valid a) (value run a, .empty) fault)
    (hd : ∀ n, List.Duplicate n ((items members).map name) → fault (duplicate n)) :
    (collect name duplicate build members .empty).Decides
      (((items members).map name).Nodup ∧ ∀ a ∈ items members, valid a)
      (collected name value members, .empty) fault := by
  have drains : ∀ a ∈ items members, ∀ run, Drains (build (describe run) a .empty) := by
    intro a ha run b lines h
    exact (Prod.mk.inj ((hb a ha run).eq_ok_iff.1 h).2).2 ▸ rfl
  have step : ∀ p ∈ withRuns members, ∀ m : OrderedMap β,
      (name p.2 ∈ m.keys → List.Duplicate (name p.2) ([] ++ (withRuns members).map fun p => name p.2)) →
      (collectStep name duplicate build m p).Decides (name p.2 ∉ m.keys ∧ valid p.2)
        (m.insert (name p.2) (value p.1 p.2)) fault := by
    rintro ⟨run, a⟩ hp m hm
    rw [withRuns_names, List.nil_append] at hm
    apply ifNew_decides fun hk => hd _ (hm hk)
    exact (hb a (mem_items_of_mem_withRuns hp) run).map fun r => m.insert (name a) r.1
  have all : ((withRuns members).foldlM (collectStep name duplicate build) .empty).Decides _ _ fault :=
    foldlM_insert_decides step
  rw [collect, ← waiting_nil, collectFrom_eq_foldlM drains]
  refine (all.map fun m => (m, DocLines.empty)).iff (and_congr ?_ ?_)
  · rw [withRuns_names, OrderedMap.empty_keys, List.nil_append]
  · rw [← withRuns_items, List.forall_mem_map]

end

end Schemata
