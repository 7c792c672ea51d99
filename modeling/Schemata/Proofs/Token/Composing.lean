import Mathlib.Data.List.Basic
import Schemata.Proofs.Token.Writing
import Schemata.Text.Lines

namespace Schemata

open Text

def Writes (cs : List Char) (ts : List Token) : Prop :=
  ∀ ⦃rest us⦄, Bounded rest → Splits rest us → Splits (cs ++ rest) (ts ++ us)

variable {cs cs' : List Char} {ts us : List Token} {t : Token} {c : Char}

namespace Writes

theorem splits (h : Writes cs ts) : Splits cs ts := by
  have alone := h Bounded.nil (.done nofun)
  rwa [List.append_nil, List.append_nil] at alone

theorem nil : Writes [] [] := fun _ _ _ h => h

theorem separator (hc : isSeparator c) (h : Writes cs ts) : Writes (c :: cs) ts := by
  intro rest us hr hs
  have gap : ∀ d ∈ [c], isSeparator d := by
    intro d hd
    rwa [List.mem_singleton.1 hd]
  have gapped : Splits ([c] ++ (cs ++ rest)) (ts ++ us) := (h hr hs).gap gap
  exact gapped

theorem punctuator (hc : isPunctuator c) (h : Writes cs ts) : Writes (c :: cs) (.punctuator c :: ts) := by
  intro rest us hr hs
  exact .first (.punctuator _ hc) (h hr hs)

theorem token (ht : t.WellFormed) (hn : ∀ text, t ≠ .comment text) : Writes t.text.toList [t] := by
  intro rest us hr hs
  exact .first (ht.starts_bounded hn hr) hs

theorem append (h : Writes cs ts) (h' : Writes cs' us) (hb : Bounded cs') : Writes (cs ++ cs') (ts ++ us) := by
  intro rest vs hr hs
  rw [List.append_assoc, List.append_assoc]
  exact h (hb.append hr) (h' hr hs)

end Writes

def lineComment (line : List Char) : Token := .comment (String.ofList (dropReturn ('#' :: line)))

theorem dropReturn_append (line : List Char) :
    dropReturn line ++ (if line.getLast? = some '\r' then ['\r'] else []) = line := by
  rw [dropReturn]
  split
  · next h => exact List.dropLast_append_getLast? '\r' h
  · exact List.append_nil line

theorem dropReturn_cons (line : List Char) : dropReturn ('#' :: line) = '#' :: dropReturn line := by
  cases line with
  | nil => rfl
  | cons c line =>
    rw [dropReturn, dropReturn, List.getLast?_cons_cons, List.dropLast_cons_cons]
    split <;> rfl

theorem Pattern.commentText_eq (h : '\n' ∉ cs) {rest : List Char} (stop : Stops (· != '\n') rest) :
    commentText (cs ++ rest) = dropReturn cs := by
  have kept : ∀ c ∈ cs, (c != '\n') = true := by
    intro c hc
    have : c ≠ '\n' := by rintro rfl; exact h hc
    simpa using this
  rw [commentText, stop.takeWhile kept]
  rfl

theorem Writes.comment (hl : '\n' ∉ cs) (h : Writes cs' ts) :
    Writes ('#' :: cs ++ '\n' :: cs') (lineComment cs :: ts) := by
  intro rest us hr hs
  generalize ht : (if cs.getLast? = some '\r' then ['\r'] else []) = tail
  have line : dropReturn cs ++ tail = cs := ht ▸ dropReturn_append cs
  have first : Pattern.comment.split? ('#' :: (cs ++ '\n' :: (cs' ++ rest))) =
      some ('#' :: dropReturn cs, tail ++ '\n' :: (cs' ++ rest)) := by
    have cut : cs ++ '\n' :: (cs' ++ rest) = dropReturn cs ++ (tail ++ '\n' :: (cs' ++ rest)) := by
      rw [← List.append_assoc, line]
    rw [Pattern.split?, Pattern.splitComment?, Pattern.commentText_eq hl (.cons rfl _), cut, List.drop_left]
  have gap : ∀ c ∈ tail ++ ['\n'], isSeparator c := by
    rw [← ht]
    split <;> exact List.all_eq_true.1 rfl
  have others : Splits (tail ++ '\n' :: (cs' ++ rest)) (ts ++ us) := by
    have lines := (h hr hs).gap gap
    rwa [List.append_assoc] at lines
  rw [lineComment, dropReturn_cons, List.append_assoc]
  exact .first (.pattern first) others

end Schemata
