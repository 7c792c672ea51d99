import Schemata.Proofs.Reading.Following

namespace Schemata

open Text Grammar Machine

variable {α β : Type} {source cs : List Char} {s s' : MachineState}

theorem Stands.here (h : Stands source cs s) {depth : Nat} (hd : depth ≤ maxLevels) :
    Stands source cs ⟨s.offset, depth, (s.offset, depth) :: s.visited⟩ := by
  obtain ⟨before, hb, ho⟩ := h.place
  rw [← ho]
  exact h.goTo hb hd

theorem enter_eq (hd : s.depth < maxLevels) :
    enter source s = (.ok (), ⟨s.offset, s.depth + 1, (s.offset, s.depth + 1) :: s.visited⟩) := by
  have room : ¬maxLevels < s.depth + 1 := Nat.not_lt.2 hd
  have opened : depth source s = (.ok s.depth, s) := rfl
  rw [enter, bind_of_ok opened, if_neg room]
  rfl

theorem leave_eq (source : List Char) {d : Nat} (hd : s.depth = d + 1) :
    leave source s = (.ok (), ⟨s.offset, d, (s.offset, d) :: s.visited⟩) := by
  have opened : depth source s = (.ok (d + 1), s) := by rw [← hd]; rfl
  rw [leave, bind_of_ok opened]
  rfl

theorem nested_follows {d : Nat} (hl : d < maxLevels) {m : Machine (Option α)} {read : OptionalReader α}
    (h : MayFollow (d + 1) m read) : MayFollow d (nested m) (Parser.nested read) := by
  intro source cs s hs hd
  subst hd
  have inner := h (hs.here hl) rfl
  rw [nested, bind_of_ok (enter_eq hl), andThen, Parser.nested]
  generalize m source _ = x at inner
  generalize read (lex cs).tokens = r at inner
  cases inner with
  | @ok _ _ cs' s' reached hm =>
    have closed := leave_eq source reached.depth
    dsimp only
    rw [closed]
    exact .ok ⟨reached.onward, reached.stands.here hs.depth, rfl⟩ hm
  | @error f cs' s' h =>
    have closed := leave_eq source h.reached.depth
    obtain ⟨t, ht, depth, unwound⟩ := h.unwound
    have outer : t.depth = s.depth + (f.depth + 1) := depth.trans (Nat.succ_add_eq_add_succ _ _)
    dsimp only
    rw [closed]
    refine .error (f := { f with depth := f.depth + 1 })
      ⟨⟨h.reached.onward, h.reached.stands.here hs.depth, rfl⟩, h.input, h.cause, t, ht, outer, ?_⟩
    rw [unwind, bind_of_ok unwound]
    exact closed

theorem nested_fails {m : Machine (Option α)} : MayFollow maxLevels (nested m) (Parser.fail .nestedTooDeep) := by
  intro source cs s hs hd
  have full : maxLevels < s.depth + 1 := by omega
  have opened : depth source s = (.ok s.depth, s) := rfl
  have failed : enter source s = (fail .nestedTooDeep : Machine Unit) source s := by
    rw [enter, bind_of_ok opened, if_pos full]
  rw [nested, bind_of_error (failed.trans (fail_eq hs _))]
  exact .error ⟨.refl hs, rfl, nofun, s, hs, rfl, rfl⟩

/-- What nests follows a reader at every depth, if it does so at each depth provided that what is within it does. -/
theorem levels_follow (m : Nat → Machine (Option α)) (read : Nat → OptionalReader α)
    (step : ∀ {d calls levels : Nat}, d < maxLevels → MayFollow (d + 1) (m calls) (read levels) →
      MayFollow d (m (calls + 1)) (read (levels + 1)))
    (full : ∀ calls, MayFollow maxLevels (m (calls + 1)) (read 0)) {calls d : Nat} (hd : d ≤ maxLevels)
    (hc : maxLevels < d + calls) : MayFollow d (m calls) (read (maxLevels - d)) := by
  induction calls generalizing d with
  | zero => omega
  | succ calls ih =>
    rcases Nat.lt_or_eq_of_le hd with hl | rfl
    · obtain ⟨levels, hlevels⟩ : ∃ levels, maxLevels - d = levels + 1 := ⟨maxLevels - d - 1, by omega⟩
      have inner := ih (d := d + 1) hl (by omega)
      rw [show maxLevels - (d + 1) = levels by omega] at inner
      rw [hlevels]
      exact step hl inner
    · rw [Nat.sub_self]
      exact full calls

theorem bang_tracks (t : TypeRef) (hs : Stands source cs s) :
    Tracks source cs s IsFound (.ok (some (Parser.bang t (lex cs).tokens))) (bang t source s) := by
  rw [Parser.bang, bang]
  cases literal_scanned hs (c := '!') (by decide) with
  | taken ht first tokens hx reached =>
    subst ht
    rw [bind_of_ok hx, tokens, punctuator?_cons]
    exact .ok reached (.mk _ _)
  | missing other hx =>
    rw [bind_of_ok hx, punctuator?_eq_none other]
    exact .ok (.refl hs) (.mk _ _)

theorem typeAround_follows {d levels : Nat} {m : Machine (Option TypeRef)} (hl : d < maxLevels)
    (inner : MayFollow (d + 1) m (Parser.type? levels)) :
    MayFollow d (nested (typeAround m)) (Parser.type? (levels + 1)) := by
  rw [Parser.type?]
  apply nested_follows hl
  intro source cs s hs hd
  apply firstOf_tracks (name_scanned hs)
  · rintro _ rest s' ⟨text, rfl⟩ first tokens hr
    rw [tokens]
    exact bang_tracks _ hr.stands
  intro noName
  apply firstOf_tracks (literal_scanned hs (by decide))
  · rintro _ rest s' rfl first tokens hr
    rw [tokens]
    apply (require_tracks (by decide) (inner hr.stands (hr.depth.trans hd))).bind
    rintro _ _ cs₁ s₁ hr ⟨⟩
    apply (expect_tracks (by decide) hr.stands).bind
    rintro _ _ cs₂ s₂ hr ⟨⟩
    exact bang_tracks _ hr.stands
  intro noBracket
  dsimp only
  split
  · next text rest he => exact absurd ⟨text, rfl⟩ (noName _ _ he)
  · next rest he => exact absurd rfl (noBracket _ _ he)
  · exact .ok (.refl hs) .missing

theorem type_follows {calls d : Nat} (hd : d ≤ maxLevels) (hc : maxLevels < d + calls) :
    MayFollow d (type calls) (Parser.type? (maxLevels - d)) :=
  levels_follow type Parser.type? typeAround_follows (fun _ => nested_fails) hd hc

theorem number_tracks {text : String} (ht : (Token.number text).WellFormed) (hs : Stands source cs s) :
    Tracks source cs s IsFound (match Number.read? text with
      | some n => .ok (some (.number n, (lex cs).tokens))
      | none => Parser.fail (.expected Pattern.number.description) (lex cs).tokens) (numberValue text source s) := by
  obtain ⟨n, hn⟩ := exists_read? ht
  rw [hn, numberValue, hn]
  exact .ok (.refl hs) (.mk _ _)

theorem stringValue_quote (text source : List Char) (s : MachineState) :
    stringValue (String.ofList (quote text)) source s = (.ok (.string (String.ofList text)), s) := by
  have whole : (String.ofList (quote text)).toList = ('"' :: escape text) ++ ['"'] := String.toList_ofList
  have size : byteLength (String.ofList (quote text)).toList - 1 = byteLength ('"' :: escape text) := by
    rw [whole, byteLength_append]
    rfl
  have front : cut (String.ofList (quote text)).toList (byteLength (String.ofList (quote text)).toList - 1) source s =
      (.ok ('"' :: escape text, ['"']), s) := by
    rw [size, whole]
    exact cut_append _ _ source s
  have inner : cut ('"' :: escape text) 1 source s = (.ok (['"'], escape text), s) := cut_append ['"'] _ source s
  rw [stringValue, bind_of_ok front]
  dsimp only
  rw [bind_of_ok inner, unescape_escape]
  rfl

theorem string_tracks {text : String} (ht : (Token.string text).WellFormed) (hs : Stands source cs s) :
    Tracks source cs s IsFound
      (.ok (some (.string (String.ofList (unquote text.toList)), (lex cs).tokens))) (stringValue text source s) := by
  obtain ⟨body, -, hq⟩ := ht
  obtain rfl : String.ofList (quote body) = text := by rw [← hq, String.ofList_toList]
  rw [stringValue_quote, String.toList_ofList, unquote_quote]
  exact .ok (.refl hs) (.mk _ _)

theorem objectField_follows {d : Nat} {m : Machine (Option Value)} {read : OptionalReader Value}
    (h : MayFollow d m read) : MayFollow d (objectField m) (Parser.objectField read) := by
  intro source cs s hs hd
  apply whenFound_tracks (name_scanned hs) _ _ hs
  · rintro _ rest s' ⟨name, rfl⟩ first tokens hr
    rw [tokens]
    apply (expect_tracks (by decide) hr.stands).bind
    rintro _ _ cs₁ s₁ hr₁ ⟨⟩
    have depth : s₁.depth = d := hr₁.depth.trans (hr.depth.trans hd)
    apply (require_tracks (by decide) (h hr₁.stands depth)).bind
    rintro _ _ cs₂ s₂ hr₂ ⟨⟩
    exact .ok (.refl hr₂.stands) (.mk _ _)
  · intro other
    rw [Parser.objectField, name?_eq_none other]

theorem shrinks_value (n : Nat) : Shrinks (Parser.value? n) :=
  .of_opened (value?_sound n) (ValueForm.opened.within _ _)

theorem shrinks_objectField (n : Nat) : Shrinks (Parser.objectField (Parser.value? n)) :=
  .of_opened (objectField_sound (value?_sound n)) (ObjectFieldForm.opened _)

theorem listValue_tracks {d levels : Nat} {m : Machine (Option Value)} (inner : MayFollow d m (Parser.value? levels))
    (hs : Stands source cs s) (hd : s.depth = d) :
    Tracks source cs s IsFound
      (do let (members, rest) ← Parser.many (Parser.member (Parser.value? levels)) (lex cs).tokens
          return some (.list (items members), ← Parser.expect ']' rest))
      (listValue m source s) :=
  block_tracks (f := fun found => Value.list (items found)) (g := fun found rest => some (Value.list (items found), rest))
    inner (shrinks_value levels) (c := ']') (by decide) (fun _ _ => .mk _ _) hs hd

theorem objectValue_tracks {d levels : Nat} {m : Machine (Option Value)} (inner : MayFollow d m (Parser.value? levels))
    (hs : Stands source cs s) (hd : s.depth = d) :
    Tracks source cs s IsFound
      (do let (members, rest) ← Parser.many (Parser.member (Parser.objectField (Parser.value? levels))) (lex cs).tokens
          return some (.object (items members), ← Parser.expect '}' rest))
      (objectValue m source s) :=
  block_tracks (f := fun found => Value.object (items found))
    (g := fun found rest => some (Value.object (items found), rest)) (objectField_follows inner)
    (shrinks_objectField levels) (c := '}') (by decide) (fun _ _ => .mk _ _) hs hd

theorem valueAround_follows {d levels : Nat} {m : Machine (Option Value)} (hl : d < maxLevels)
    (inner : MayFollow (d + 1) m (Parser.value? levels)) :
    MayFollow d (nested (valueAround m)) (Parser.value? (levels + 1)) := by
  rw [Parser.value?]
  apply nested_follows hl
  intro source cs s hs hd
  dsimp only
  apply firstOf_tracks ((pattern_measures .number).scanned hs)
  · rintro _ rest s' ⟨text, rfl⟩ first tokens hr
    rw [tokens]
    exact number_tracks first.wellFormed hr.stands
  intro noNumber
  apply firstOf_tracks ((pattern_measures .string).scanned hs)
  · rintro _ rest s' ⟨text, rfl⟩ first tokens hr
    rw [tokens]
    exact string_tracks first.wellFormed hr.stands
  intro noString
  apply firstOf_tracks (keyword_scanned hs (by decide))
  · rintro _ rest s' rfl first tokens hr
    rw [tokens]
    exact .ok (.refl hr.stands) (.mk _ _)
  intro noTrue
  apply firstOf_tracks (keyword_scanned hs (by decide))
  · rintro _ rest s' rfl first tokens hr
    rw [tokens]
    exact .ok (.refl hr.stands) (.mk _ _)
  intro noFalse
  apply firstOf_tracks (name_scanned hs)
  · rintro _ rest s' ⟨text, rfl⟩ first tokens hr
    have notTrue : text ≠ "true" := fun h => noTrue _ _ tokens (h ▸ rfl)
    have notFalse : text ≠ "false" := fun h => noFalse _ _ tokens (h ▸ rfl)
    rw [tokens]
    dsimp only
    rw [if_neg notTrue, if_neg notFalse]
    exact .ok (.refl hr.stands) (.mk _ _)
  intro noName
  apply firstOf_tracks (literal_scanned hs (by decide))
  · rintro _ rest s' rfl first tokens hr
    rw [tokens]
    exact listValue_tracks inner hr.stands (hr.depth.trans hd)
  intro noBracket
  apply firstOf_tracks (literal_scanned hs (by decide))
  · rintro _ rest s' rfl first tokens hr
    rw [tokens]
    exact objectValue_tracks inner hr.stands (hr.depth.trans hd)
  intro noBrace
  split
  · next text rest he => exact absurd ⟨text, rfl⟩ (noNumber _ _ he)
  · next text rest he => exact absurd ⟨text, rfl⟩ (noString _ _ he)
  · next text rest he => exact absurd ⟨text, rfl⟩ (noName _ _ he)
  · next rest he => exact absurd rfl (noBracket _ _ he)
  · next rest he => exact absurd rfl (noBrace _ _ he)
  · exact .ok (.refl hs) .missing

theorem value_follows {calls d : Nat} (hd : d ≤ maxLevels) (hc : maxLevels < d + calls) :
    MayFollow d (value calls) (Parser.value? (maxLevels - d)) :=
  levels_follow value Parser.value? valueAround_follows (fun _ => nested_fails) hd hc

theorem expectType_follows : Follow 0 expectType Parser.expectType := fun _ _ _ hs hd =>
  require_tracks (by decide) (type_follows (Nat.zero_le _) (by decide) hs hd)

theorem expectValue_follows : Follow 0 expectValue Parser.expectValue := fun _ _ _ hs hd =>
  require_tracks (by decide) (value_follows (Nat.zero_le _) (by decide) hs hd)

theorem shrinks_inputValue : Shrinks Parser.inputValue := .of_opened inputValue_sound (InputForm.opened.within _ _)

theorem inputValue_follows : MayFollow 0 inputValue Parser.inputValue := by
  intro source cs s hs hd
  apply whenFound_tracks (name_scanned hs) _ _ hs
  · rintro _ rest s' ⟨name, rfl⟩ first tokens hr
    rw [tokens]
    apply (expect_tracks (by decide) hr.stands).bind
    rintro _ _ cs₁ s₁ hr₁ ⟨⟩
    have depth₁ : s₁.depth = 0 := hr₁.depth.trans (hr.depth.trans hd)
    apply (expectType_follows hr₁.stands depth₁).bind
    rintro _ _ cs₂ s₂ hr₂ ⟨⟩
    have depth₂ : s₂.depth = 0 := hr₂.depth.trans depth₁
    dsimp only
    cases literal_scanned hr₂.stands (c := '=') (by decide) with
    | taken ht first tokens hx reached =>
      subst ht
      rw [whenFound_bind hx, tokens, punctuator?_cons]
      apply Tracks.after reached
      apply (expectValue_follows reached.stands (reached.depth.trans depth₂)).bind
      rintro _ _ cs₃ s₃ hr₃ ⟨⟩
      exact .ok (.refl hr₃.stands) (.mk _ _)
    | missing other hx =>
      rw [bind_of_ok (whenFound_of_none hx), punctuator?_eq_none other]
      exact .ok (.refl hr₂.stands) (.mk _ _)
  · intro other
    rw [Parser.inputValue, name?_eq_none other]

theorem arguments_follows : Follow 0 arguments Parser.arguments := by
  intro source cs s hs hd
  rw [Parser.arguments, arguments]
  cases literal_scanned hs (c := '(') (by decide) with
  | taken ht first tokens hx reached =>
    subst ht
    rw [whenFound_of_some hx, tokens, punctuator?_cons]
    apply Tracks.after reached
    refine Tracks.map ?_ fun _ found cs' (h : Fits _ (some found) cs') => h
    exact block_tracks inputValue_follows shrinks_inputValue (c := ')') (by decide)
      (g := fun found rest => (some found, rest)) (fun _ _ => .mk _ _) reached.stands (reached.depth.trans hd)
  | missing other hx =>
    rw [whenFound_of_none hx, punctuator?_eq_none other]
    exact .ok (.refl hs) (.mk _ _)

end Schemata
