import Mathlib.Data.List.TakeWhile
import Schemata.Proofs.Token.Writing

namespace Schemata

inductive LineEnd : List Char → Prop
  | nothing : LineEnd []
  | newline (more : List Char) : LineEnd ('\n' :: more)
  | returned (more : List Char) : LineEnd ('\r' :: '\n' :: more)

structure FirstLine (line rest : List Char) : Prop where
  unbroken : '\n' ∉ line
  ended : LineEnd rest
  returned : rest.head? = some '\r' → line.getLast? ≠ some '\r'

variable {line rest : List Char}

theorem LineEnd.stops {p : Char → Bool} (h : LineEnd rest) (newline : p '\n' = false) (carriage : p '\r' = false) :
    Stops p rest := by
  cases h with
  | nothing => exact .nil
  | newline more => exact .cons newline more
  | returned more => exact .cons carriage ('\n' :: more)

theorem FirstLine.of_break (hn : '\n' ∉ line) (hr : rest = [] ∨ ∃ more, rest = '\n' :: more) : FirstLine line rest := by
  rcases hr with rfl | ⟨more, rfl⟩
  · exact ⟨hn, .nothing, nofun⟩
  · exact ⟨hn, .newline more, nofun⟩

theorem exists_firstLine (cs : List Char) : ∃ line rest, line ++ rest = cs ∧ '\n' ∉ line ∧
    (rest = [] ∨ ∃ more, rest = '\n' :: more) := by
  refine ⟨cs.takeWhile (· != '\n'), cs.dropWhile (· != '\n'), List.takeWhile_append_dropWhile, ?_, ?_⟩
  · intro h
    simpa using List.all_eq_true.1 List.all_takeWhile _ h
  · cases hr : cs.dropWhile (· != '\n') with
    | nil => exact .inl rfl
    | cons c more =>
      have hc := List.head_dropWhile_not (p := (· != '\n')) (l := cs) (by rw [hr]; exact List.cons_ne_nil c more)
      simp only [hr, List.head_cons] at hc
      have newline : c = '\n' := by simpa using hc
      exact .inr ⟨more, by rw [newline]⟩

namespace Pattern

theorem splitString?_of_ne {c : Char} (h : c ≠ '"') (cs : List Char) : splitString? (c :: cs) = none := by
  unfold splitString?
  split
  · next he => exact absurd (List.cons.inj he).1 h
  · rfl

theorem splitComment?_of_ne {c : Char} (h : c ≠ '#') (cs : List Char) : splitComment? (c :: cs) = none := by
  unfold splitComment?
  split
  · next he => exact absurd (List.cons.inj he).1 h
  · rfl

theorem splitStringBody?_line (hn : '\n' ∉ line) (he : LineEnd rest) :
    splitStringBody? (line ++ rest) = (splitStringBody? line).map fun q => (q.1, q.2 ++ rest) := by
  have none_at_end : splitStringBody? rest = none := by
    cases he <;> rfl
  fun_induction splitStringBody? line with
  | case1 => exact none_at_end
  | case2 cs => rfl
  | case3 c cs hc ih =>
    have hcs : '\n' ∉ cs := fun h => hn (List.mem_cons_of_mem _ (List.mem_cons_of_mem _ h))
    simp only [List.cons_append, splitStringBody?, hc, if_true, ih hcs, Option.map_map]
    rfl
  | case4 c cs hc =>
    simp only [List.cons_append, splitStringBody?, hc, if_false, Option.map_none]
  | case5 c cs hq hb hc =>
    obtain rfl : c = '\\' := hc.resolve_left (Ne.symm (List.ne_of_not_mem_cons hn))
    cases cs with
    | nil => cases he <;> rfl
    | cons d ds => exact absurd rfl (hb d ds rfl)
  | case6 c cs hq hb hc ih =>
    have hcs : '\n' ∉ cs := List.not_mem_of_not_mem_cons hn
    have backslash : c ≠ '\\' := fun h => hc (.inr h)
    rw [List.cons_append, splitStringBody?, if_neg hc, ih hcs, Option.map_map, Option.map_map]
    · rfl
    · exact hq
    · exact fun d ds h _ => backslash h

theorem commentText_firstLine (h : FirstLine line rest) : commentText (line ++ rest) = commentText line := by
  have kept : ∀ c ∈ line, (c != '\n') = true := by
    intro c hc
    have : c ≠ '\n' := by rintro rfl; exact h.unbroken hc
    simpa using this
  have whole : line.takeWhile (· != '\n') = line := List.takeWhile_eq_self_iff.2 kept
  obtain ⟨hn, he, hr⟩ := h
  cases he with
  | nothing => rw [List.append_nil]
  | newline more =>
    have cut : (line ++ '\n' :: more).takeWhile (· != '\n') = line := by
      rw [List.takeWhile_append_of_pos kept]
      exact List.append_nil line
    simp only [commentText, whole, cut]
  | returned more =>
    rw [commentText_line hn, commentText, whole, if_neg (hr rfl)]

theorem split?_firstLine (h : FirstLine line rest) (p : Pattern) :
    p.split? (line ++ rest) = (p.split? line).map fun q => (q.1, q.2 ++ rest) := by
  cases p with
  | name =>
    have stop : Stops isNameContinue rest := h.ended.stops (by decide) (by decide)
    cases line with
    | nil =>
      cases h.ended <;> rfl
    | cons c cs =>
      simp only [split?, List.cons_append, splitName?, stop.takeWhile_append, stop.dropWhile_append]
      split <;> rfl
  | number =>
    have stop : Stops Numeral.isPart rest := h.ended.stops (by decide) (by decide)
    simp only [split?, splitNumber?, Numeral.split?_stops stop, Option.map_map]
    rfl
  | string =>
    cases line with
    | nil => cases h.ended <;> rfl
    | cons c cs =>
      have hcs : '\n' ∉ cs := List.not_mem_of_not_mem_cons h.unbroken
      by_cases hq : c = '"'
      · subst hq
        simp only [split?, List.cons_append, splitString?, splitStringBody?_line hcs h.ended, Option.map_map]
        rfl
      · rw [List.cons_append, split?, splitString?_of_ne hq, splitString?_of_ne hq, Option.map_none]
  | comment =>
    cases line with
    | nil => cases h.ended <;> rfl
    | cons c cs =>
      have hcs : '\n' ∉ cs := List.not_mem_of_not_mem_cons h.unbroken
      by_cases hs : c = '#'
      · subst hs
        have tail : FirstLine cs rest := by
          refine ⟨hcs, h.ended, fun hr hl => h.returned hr ?_⟩
          rw [List.getLast?_cons, hl, Option.getD_some]
        have cut : commentText cs <+: cs := commentText_prefix cs
        simp only [split?, List.cons_append, splitComment?, commentText_firstLine tail, Option.map_some,
          List.drop_append_of_le_length cut.length_le]
      · rw [List.cons_append, split?, splitComment?_of_ne hs, splitComment?_of_ne hs, Option.map_none]

end Pattern

theorem Token.next?_firstLine (h : FirstLine line rest) :
    next? (line ++ rest) = (next? line).map fun q => (q.1, q.2 ++ rest) := by
  cases line with
  | nil => cases h.ended <;> rfl
  | cons c cs =>
    have patterns := Pattern.split?_firstLine h
    rw [List.cons_append] at patterns ⊢
    simp only [next?]
    split
    · rfl
    · rw [List.map_findSome?]
      congr 1
      funext p
      rw [patterns, Function.comp_apply, Option.map_map, Option.map_map]
      rfl

open Text

theorem Token.next?_newline (cs more : List Char) :
    next? (cs ++ '\n' :: more) = (next? cs).map fun q => (q.1, q.2 ++ '\n' :: more) := by
  obtain ⟨line, rest, rfl, hn, hr⟩ := exists_firstLine cs
  have short : FirstLine line rest := .of_break hn hr
  have long : FirstLine line (rest ++ '\n' :: more) := by
    apply FirstLine.of_break hn
    rcases hr with rfl | ⟨after, rfl⟩
    · exact .inr ⟨more, rfl⟩
    · exact .inr ⟨after ++ '\n' :: more, rfl⟩
  rw [List.append_assoc, next?_firstLine long, next?_firstLine short, Option.map_map]
  simp only [Function.comp_def, List.append_assoc]

theorem skipSeparators_append {cs : List Char} (h : skipSeparators cs ≠ []) (more : List Char) :
    skipSeparators (cs ++ more) = skipSeparators cs ++ more := by
  induction cs with
  | nil => exact absurd rfl h
  | cons c cs ih =>
    simp only [skipSeparators, List.cons_append, List.dropWhile_cons] at h ih ⊢
    split
    · next hc =>
      rw [if_pos hc] at h
      exact ih h
    · rfl

theorem lex_of_skipSeparators {cs cs' : List Char} (h : skipSeparators cs = skipSeparators cs') : lex cs = lex cs' := by
  cases hn : Token.next? (skipSeparators cs) with
  | none => rw [lex_of_none hn, lex_of_none (h ▸ hn), h]
  | some q => rw [lex_eq_cons rfl hn, lex_eq_cons h.symm hn]

theorem lex_newline {cs : List Char} (h : (lex cs).rest = []) (more : List Char) :
    lex (cs ++ '\n' :: more) =
      ⟨(lex cs).lexemes.map (fun l => (l.1, l.2 ++ '\n' :: more)) ++ (lex more).lexemes, (lex more).rest⟩ := by
  fun_induction lex cs with
  | case1 cs input hn =>
    -- Nothing but separators is left, and the line break is one more of them.
    have all : ∀ c ∈ cs, isSeparator c := List.dropWhile_eq_nil_iff.1 h
    have skipped : skipSeparators (cs ++ '\n' :: more) = skipSeparators more := skipSeparators_gap all _
    rw [lex_of_skipSeparators skipped]
    rfl
  | case2 cs input t rest hn l ih =>
    have some_left : skipSeparators cs ≠ [] := by
      intro he
      simp only [input, he] at hn
      cases hn
    have first : Token.next? (input ++ '\n' :: more) = some (t, rest ++ '\n' :: more) := by
      rw [Token.next?_newline, hn, Option.map_some]
    rw [lex_eq_cons (skipSeparators_append some_left _) first, ih h]
    rfl

theorem lex_newline_tokens {cs : List Char} (h : (lex cs).rest = []) (more : List Char) :
    (lex (cs ++ '\n' :: more)).tokens = (lex cs).tokens ++ (lex more).tokens := by
  rw [lex_newline h]
  simp [Lexed.tokens, Function.comp_def]

theorem lex_newline_inputBefore {cs more : List Char} (h : (lex cs).rest = []) {n : Nat}
    (hn : n ≤ (lex more).tokens.length) :
    (lex (cs ++ '\n' :: more)).inputBefore n = (lex more).inputBefore n := by
  rw [Lexed.tokens, List.length_map] at hn
  rw [lex_newline h, Lexed.inputBefore, Lexed.inputBefore, List.length_append, List.length_map,
    Nat.add_sub_assoc hn, List.getElem?_append_right (by simp), List.length_map, Nat.add_sub_cancel_left]

def withReturns (cs : List Char) : List Char := cs.flatMap fun c => if c = '\n' then ['\r', '\n'] else [c]

theorem withReturns_append (cs cs' : List Char) : withReturns (cs ++ cs') = withReturns cs ++ withReturns cs' :=
  List.flatMap_append

theorem withReturns_cons {c : Char} (h : c ≠ '\n') (cs : List Char) : withReturns (c :: cs) = c :: withReturns cs := by
  rw [withReturns, List.flatMap_cons, if_neg h]
  rfl

theorem withReturns_unbroken (h : '\n' ∉ line) : withReturns line = line := by
  induction line with
  | nil => rfl
  | cons c cs ih =>
    have newline : c ≠ '\n' := Ne.symm (List.ne_of_not_mem_cons h)
    rw [withReturns_cons newline, ih (List.not_mem_of_not_mem_cons h)]

theorem Token.next?_withReturns {cs : List Char} (h : '\r' ∉ cs) :
    next? (withReturns cs) = (next? cs).map fun q => (q.1, withReturns q.2) := by
  obtain ⟨line, rest, rfl, hn, hr⟩ := exists_firstLine cs
  rw [List.mem_append, not_or] at h
  have plain : FirstLine line rest := .of_break hn hr
  have returned : FirstLine line (withReturns rest) := by
    have no_return : line.getLast? ≠ some '\r' := fun hl => h.1 (List.mem_of_getLast? hl)
    rcases hr with rfl | ⟨more, rfl⟩
    · exact ⟨hn, .nothing, nofun⟩
    · exact ⟨hn, .returned (withReturns more), fun _ => no_return⟩
  rw [withReturns_append, withReturns_unbroken hn, next?_firstLine returned, next?_firstLine plain, Option.map_map]
  cases hq : next? line with
  | none => rfl
  | some q =>
    -- What is left of the line has no line break either.
    have left : '\n' ∉ q.2 := by
      intro hm
      have cut := (starts_of_next? hq).text_append
      exact hn (cut ▸ List.mem_append_right _ hm)
    simp only [Option.map_some, Function.comp_apply, withReturns_append, withReturns_unbroken left]

theorem withReturns_head? {cs : List Char} (h : skipSeparators cs = cs) : (withReturns cs).head? = cs.head? := by
  cases cs with
  | nil => rfl
  | cons c cs =>
    have newline : c ≠ '\n' := by
      rintro rfl
      have shorter : (skipSeparators ('\n' :: cs)).length ≤ cs.length := skipSeparators_length cs
      rw [h, List.length_cons] at shorter
      omega
    rw [withReturns_cons newline]
    rfl

theorem skipSeparators_withReturns (cs : List Char) :
    skipSeparators (withReturns cs) = withReturns (skipSeparators cs) := by
  induction cs with
  | nil => rfl
  | cons c cs ih =>
    by_cases hc : c = '\n'
    · subst hc
      exact ih
    · simp only [skipSeparators] at ih ⊢
      rw [withReturns_cons hc, List.dropWhile_cons, List.dropWhile_cons]
      split
      · exact ih
      · rw [withReturns_cons hc]

theorem lex_withReturns {cs : List Char} (h : '\r' ∉ cs) :
    (lex (withReturns cs)).tokens = (lex cs).tokens ∧ (lex (withReturns cs)).rest = withReturns (lex cs).rest := by
  fun_induction lex cs with
  | case1 cs input hn =>
    have no_return : '\r' ∉ input := fun hm => h (List.dropWhile_subset _ hm)
    have none_next : Token.next? (skipSeparators (withReturns cs)) = none := by
      rw [skipSeparators_withReturns, Token.next?_withReturns no_return, hn, Option.map_none]
    rw [lex_of_none none_next]
    exact ⟨rfl, skipSeparators_withReturns cs⟩
  | case2 cs input t rest hn l ih =>
    have no_return : '\r' ∉ input := fun hm => h (List.dropWhile_subset _ hm)
    have tail : '\r' ∉ rest := by
      intro hm
      have cut := (Token.starts_of_next? hn).text_append
      exact no_return (cut ▸ List.mem_append_right _ hm)
    have first : Token.next? (withReturns input) = some (t, withReturns rest) := by
      rw [Token.next?_withReturns no_return, hn, Option.map_some]
    obtain ⟨tokens, rest⟩ := lex_of_next? (skipSeparators_withReturns cs) first
    rw [tokens, rest]
    exact ⟨congrArg (t :: ·) (ih tail).1, (ih tail).2⟩

end Schemata
