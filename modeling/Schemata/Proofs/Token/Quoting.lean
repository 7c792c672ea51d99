import Schemata.Token.Pattern

namespace Schemata

def escape : List Char → List Char
  | [] => []
  | c :: cs => if c = '\\' ∨ c = '"' then '\\' :: c :: escape cs else c :: escape cs

def quote (cs : List Char) : List Char := '"' :: (escape cs ++ ['"'])

variable {cs lexeme rest : List Char}

theorem unescape_escape (cs : List Char) : unescape (escape cs) = cs := by
  induction cs with
  | nil => rfl
  | cons c cs ih =>
    rw [escape]
    split
    · rw [unescape, ih]
    · next hc =>
      have hb : c ≠ '\\' := fun h => hc (.inl h)
      rw [unescape, ih]
      · exact fun d ds hd _ => hb hd
      · exact fun hd _ => hb hd

theorem unquote_quote (cs : List Char) : unquote (quote cs) = cs := by
  simp [unquote, quote, unescape_escape]

namespace Pattern

theorem splitStringBody?_escape (h : '\n' ∉ cs) (rest : List Char) :
    splitStringBody? (escape cs ++ '"' :: rest) = some (escape cs ++ ['"'], rest) := by
  induction cs with
  | nil => rfl
  | cons c cs ih =>
    have hn : '\n' ≠ c := List.ne_of_not_mem_cons h
    have hcs : '\n' ∉ cs := List.not_mem_of_not_mem_cons h
    rw [escape]
    split
    · next hc => simp [splitStringBody?, hc, ih hcs]
    · next hc =>
      obtain ⟨hb, hq⟩ := not_or.1 hc
      rw [List.cons_append, splitStringBody?]
      · simp [Ne.symm hn, hb, ih hcs]
      · exact hq
      · exact fun d ds hd _ => hb hd

theorem exists_escape (h : splitStringBody? cs = some (lexeme, rest)) :
    ∃ text, '\n' ∉ text ∧ lexeme = escape text ++ ['"'] := by
  fun_induction splitStringBody? cs generalizing lexeme rest with
  | case1 => cases h
  | case2 cs =>
    obtain ⟨rfl, rfl⟩ := Prod.mk.inj (Option.some.inj h)
    exact ⟨[], List.not_mem_nil, rfl⟩
  | case3 c cs hc ih =>
    obtain ⟨⟨body, after⟩, hp, he⟩ := Option.map_eq_some_iff.1 h
    obtain ⟨rfl, rfl⟩ := Prod.mk.inj he
    obtain ⟨text, hn, rfl⟩ := ih hp
    have no_break : '\n' ≠ c := by rcases hc with rfl | rfl <;> decide
    exact ⟨c :: text, List.not_mem_cons_of_ne_of_not_mem no_break hn, by simp [escape, hc]⟩
  | case4 => cases h
  | case5 => cases h
  | case6 c cs hq _ hc ih =>
    obtain ⟨⟨body, after⟩, hp, he⟩ := Option.map_eq_some_iff.1 h
    obtain ⟨rfl, rfl⟩ := Prod.mk.inj he
    obtain ⟨text, hn, rfl⟩ := ih hp
    obtain ⟨no_break, no_backslash⟩ := not_or.1 hc
    have plain : ¬(c = '\\' ∨ c = '"') := not_or.2 ⟨no_backslash, hq⟩
    exact ⟨c :: text, List.not_mem_cons_of_ne_of_not_mem (Ne.symm no_break) hn, by simp [escape, plain]⟩

theorem splitString?_eq_some_iff :
    splitString? cs = some (lexeme, rest) ↔ ∃ text, '\n' ∉ text ∧ lexeme = quote text ∧ cs = quote text ++ rest := by
  constructor
  · intro h
    obtain ⟨rfl, -⟩ := splitString?_append h
    unfold splitString? at h
    split at h
    · obtain ⟨⟨body, after⟩, hp, he⟩ := Option.map_eq_some_iff.1 h
      obtain ⟨rfl, rfl⟩ := Prod.mk.inj he
      obtain ⟨text, hn, rfl⟩ := exists_escape hp
      exact ⟨text, hn, rfl, rfl⟩
    · cases h
  · rintro ⟨text, hn, rfl, rfl⟩
    simp [quote, splitString?, splitStringBody?_escape hn]

end Pattern

end Schemata
