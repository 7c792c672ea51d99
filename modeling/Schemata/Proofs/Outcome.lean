
namespace Except

variable {ε ε' α β : Type}

@[simp] theorem pure_eq_ok_iff {a b : α} : (pure a : Except ε α) = .ok b ↔ a = b :=
  ⟨fun h => Except.ok.inj h, fun h => h ▸ rfl⟩

theorem ok_bind (a : α) (f : α → Except ε β) : Except.ok a >>= f = f a := rfl

@[simp] theorem bind_eq_ok_iff {x : Except ε α} {f : α → Except ε β} {b : β} :
    x >>= f = .ok b ↔ ∃ a, x = .ok a ∧ f a = .ok b := by
  cases x with
  | error e => exact ⟨nofun, fun ⟨_, h, _⟩ => nomatch h⟩
  | ok a => exact ⟨fun h => ⟨a, rfl, h⟩, fun ⟨_, h, hb⟩ => Except.ok.inj h ▸ hb⟩

@[simp] theorem map_eq_ok_iff {x : Except ε α} {f : α → β} {b : β} :
    x.map f = .ok b ↔ ∃ a, x = .ok a ∧ f a = b := by
  cases x <;> simp [Except.map]

@[simp] theorem mapError_eq_ok_iff {x : Except ε α} {f : ε → ε'} {a : α} :
    x.mapError f = .ok a ↔ x = .ok a := by
  cases x with
  | error e => exact iff_of_false (fun h => by cases h) (fun h => by cases h)
  | ok b => exact ⟨fun h => by cases h; rfl, fun h => by cases h; rfl⟩

/-- A computation gives `value` if `valid` holds, and else fails with an error of which `fault` is true. -/
def Decides (x : Except ε α) (valid : Prop) (value : α) (fault : ε → Prop) : Prop :=
  match x with
  | .ok a => valid ∧ a = value
  | .error e => ¬valid ∧ fault e

namespace Decides

variable {x : Except ε α} {valid valid' : Prop} {value : α} {fault : ε → Prop}

theorem ok (value : α) : (Except.ok value : Except ε α).Decides True value fault := ⟨trivial, rfl⟩

theorem error {e : ε} (hv : ¬valid) (he : fault e) : (Except.error e).Decides valid value fault := ⟨hv, he⟩

theorem eq_ok_iff (h : x.Decides valid value fault) {a : α} : x = .ok a ↔ valid ∧ a = value := by
  cases x with
  | ok b =>
    obtain ⟨hv, rfl⟩ := h
    simp [hv, eq_comm]
  | error e => simp [h.1]

theorem exists_ok_iff (h : x.Decides valid value fault) : (∃ a, x = .ok a) ↔ valid := by
  simp [h.eq_ok_iff]

theorem fault_of_eq_error (h : x.Decides valid value fault) {e : ε} (he : x = .error e) : fault e := by
  subst he
  exact h.2

theorem iff (h : x.Decides valid value fault) (hv : valid ↔ valid') : x.Decides valid' value fault := by
  rwa [← hv]

theorem bind {f : α → Except ε β} {result : β} (h : x.Decides valid value fault)
    (hf : valid → (f value).Decides valid' result fault) :
    (x >>= f).Decides (valid ∧ valid') result fault := by
  cases x with
  | ok a =>
    obtain ⟨hv, rfl⟩ := h
    exact (hf hv).iff (by simp [hv])
  | error e => exact .error (fun hv => h.1 hv.1) h.2

theorem map (h : x.Decides valid value fault) (f : α → β) :
    (x >>= fun a => pure (f a)).Decides valid (f value) fault :=
  (h.bind fun _ => ok (f value)).iff (and_iff_left trivial)

theorem mapM {f : α → Except ε β} {as : List α} {valid : α → Prop} {value : α → β}
    (h : ∀ a ∈ as, (f a).Decides (valid a) (value a) fault) :
    (as.mapM f).Decides (∀ a ∈ as, valid a) (as.map value) fault := by
  induction as with
  | nil => exact (ok []).iff (by simp)
  | cons a as ih =>
    have others := ih fun b hb => h b (List.mem_cons_of_mem _ hb)
    rw [List.mapM_cons]
    refine ((h a List.mem_cons_self).bind fun _ => others.map (value a :: ·)).iff ?_
    exact List.forall_mem_cons.symm

theorem forM {f : α → Except ε PUnit} {as : List α} {valid : α → Prop}
    (h : ∀ a ∈ as, (f a).Decides (valid a) ⟨⟩ fault) :
    (as.forM f).Decides (∀ a ∈ as, valid a) ⟨⟩ fault := by
  induction as with
  | nil => exact (ok PUnit.unit).iff (by simp)
  | cons a as ih =>
    have others := ih fun b hb => h b (List.mem_cons_of_mem _ hb)
    exact ((h a List.mem_cons_self).bind fun _ => others).iff List.forall_mem_cons.symm

end Decides

section

variable {α' β' : Type} {change : α → α'} {result : β → β'}

theorem bind_alike {x : Except ε α} {x' : Except ε α'} {f : α → Except ε β} {f' : α' → Except ε β'}
    (hx : x' = x.map change) (hf : ∀ a, f' (change a) = (f a).map result) : x' >>= f' = (x >>= f).map result := by
  subst hx
  cases x with
  | error e => rfl
  | ok a => exact hf a

theorem bind_mapped {x : Except ε α} {f : α → Except ε β} {f' : α → Except ε β'} (hf : ∀ a, f' a = (f a).map result) :
    x >>= f' = (x >>= f).map result := by
  cases x with
  | error e => rfl
  | ok a => exact hf a

theorem mapM_alike {f : α → Except ε β} {f' : α' → Except ε β'} (hf : ∀ a, f' (change a) = (f a).map result)
    (as : List α) : (as.map change).mapM f' = (as.mapM f).map (List.map result) := by
  induction as with
  | nil => rfl
  | cons a as ih =>
    rw [List.map_cons, List.mapM_cons, List.mapM_cons]
    exact bind_alike (hf a) fun b => bind_alike ih fun bs => rfl

theorem foldlM_alike {step : β → α → Except ε β} {step' : β' → α' → Except ε β'}
    (hs : ∀ b a, step' (result b) (change a) = (step b a).map result) (as : List α) (b : β) :
    (as.map change).foldlM step' (result b) = (as.foldlM step b).map result := by
  induction as generalizing b with
  | nil => rfl
  | cons a as ih =>
    rw [List.map_cons, List.foldlM_cons, List.foldlM_cons]
    exact bind_alike (hs b a) ih

end

end Except
