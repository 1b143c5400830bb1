import CompactionLeasing.Json.Token
import CompactionLeasing.Proofs.Scanning
import Mathlib.Tactic.SplitIfs

/-!
# Reading tokens back

`Token.ofText?_render`: a token that is written in front of a text is read back, if the text does not go
on with a character that would belong to the token.
-/

namespace CompactionLeasing

namespace Json

/-- Whether the number is written in a way that reads back. -/
def Number.fits : Number → Bool
  | natural n => n < UInt64.size
  | other => true
  | outOfRange => true

namespace Number

theorem ofLiteral?_decimal {n : Nat} (h : n < UInt64.size) :
    ofLiteral? (Text.decimal n) = some (natural n) := by
  have hall : ∀ c ∈ Text.decimal n, c.isDigit = true := fun _ => Text.isDigit_of_mem_decimal
  have hz := Text.not_leadingZero_decimal n
  have hread := Text.digitsFrom?_decimal n
  obtain ⟨c, cs, hc⟩ := List.exists_cons_of_ne_nil (Text.decimal_ne_nil n)
  rw [hc] at hall hz hread ⊢
  have hminus : c ≠ '-' := by
    rintro rfl
    exact absurd (hall '-' (List.mem_cons_self ..)) (by decide)
  have htake : (c :: cs).takeWhile Char.isDigit = c :: cs := List.takeWhile_eq_self_iff.2 hall
  have hdrop : (c :: cs).dropWhile Char.isDigit = [] := List.dropWhile_eq_nil_iff.2 hall
  rw [ofLiteral?]
  · simp only [htake, hdrop, hread]
    rw [if_neg (by simpa using hz)]
    simp [tail?, h]
  · rintro r ⟨⟩
    exact hminus rfl

theorem ofLiteral?_literal {n : Number} (h : n.fits = true) : ofLiteral? n.literal = some n := by
  cases n with
  | natural n => exact ofLiteral?_decimal (by simpa [fits] using h)
  | other => decide
  | outOfRange => decide

theorem isLiteralChar_of_mem {n : Number} {c : Char} (hc : c ∈ n.literal) : isLiteralChar c = true := by
  cases n with
  | natural n => simp [isLiteralChar, Text.isDigit_of_mem_decimal hc]
  | other =>
    have hall : (literal .other).all isLiteralChar = true := by decide
    exact List.all_eq_true.1 hall c hc
  | outOfRange =>
    have hall : (literal .outOfRange).all isLiteralChar = true := by decide
    exact List.all_eq_true.1 hall c hc

theorem literal_ne_nil (n : Number) : n.literal ≠ [] := by
  cases n with
  | natural n => exact Text.decimal_ne_nil n
  | other => nofun
  | outOfRange => nofun

end Number

namespace Token
variable {t : Token} {c : Char} {r r' : List Char}

/-- Whether the token is written in a way that reads back. -/
def fits : Token → Bool
  | number n => n.fits
  | _ => true

/-- Whether the token ends by itself: a mark or a string. -/
def isClosed : Token → Bool
  | number _ | null | bool _ => false
  | _ => true

/-- A text that does not go on with a number or a word. -/
def Ends (r : List Char) : Prop := ∀ c ∈ r.head?, Number.isLiteralChar c = false ∧ c.isAlpha = false

theorem Ends.span (h : Ends r) {p : Char → Bool}
    (hp : ∀ c, Number.isLiteralChar c = false → c.isAlpha = false → p c = false)
    {cs : List Char} (hcs : ∀ c ∈ cs, p c = true) :
    (cs ++ r).takeWhile p = cs ∧ (cs ++ r).dropWhile p = r :=
  Text.span_append hcs fun c hc => hp c (h c hc).1 (h c hc).2

theorem ofText?_of_read? (hc : isSpace c = false) (h : read? c r = some (t, r')) :
    ofText? (c :: r) = (ofText? r').map (t :: ·) := by
  rw [ofText?, if_neg (by simp [hc])]
  split <;> simp_all

theorem ofMark?_of_isLiteralChar (h : Number.isLiteralChar c = true) :
    ofMark? c = none ∧ c ≠ '"' ∧ isSpace c = false := by
  refine ⟨?_, ?_, ?_⟩
  · rw [ofMark?.eq_def]
    split <;> first | rfl | exact absurd h (by decide)
  · rintro rfl; exact absurd h (by decide)
  · refine Bool.eq_false_iff.2 fun hs => ?_
    simp only [isSpace, Bool.or_eq_true, beq_iff_eq] at hs
    rcases hs with ((rfl | rfl) | rfl) | rfl <;> exact absurd h (by decide)

theorem ofText?_number {n : Number} (h : n.fits = true) (hr : Ends r) :
    ofText? (n.literal ++ r) = (ofText? r).map (number n :: ·) := by
  have hlit := Number.ofLiteral?_literal h
  have hmem : ∀ c ∈ n.literal, Number.isLiteralChar c = true := fun _ => Number.isLiteralChar_of_mem
  obtain ⟨c, cs, hcs⟩ := List.exists_cons_of_ne_nil n.literal_ne_nil
  rw [hcs, List.forall_mem_cons] at hmem
  obtain ⟨hmark, hquote, hspace⟩ := ofMark?_of_isLiteralChar hmem.1
  obtain ⟨htake, hdrop⟩ := hr.span (p := Number.isLiteralChar) (fun _ h _ => h) hmem.2
  rw [hcs] at hlit ⊢
  rw [List.cons_append]
  refine ofText?_of_read? hspace ?_
  simp only [read?, hmark, if_neg hquote, hmem.1, if_true, htake, hdrop, hlit, Option.map_some]

theorem ofText?_word {c : Char} {cs : List Char} (h : ofWord? (c :: cs) = some t) (hr : Ends r) :
    ofText? (c :: cs ++ r) = (ofText? r).map (t :: ·) := by
  have hword : c :: cs = ['n', 'u', 'l', 'l'] ∨ c :: cs = ['t', 'r', 'u', 'e'] ∨
      c :: cs = ['f', 'a', 'l', 's', 'e'] := by
    rw [ofWord?] at h
    split_ifs at h <;> simp_all
  have hc : isSpace c = false ∧ ofMark? c = none ∧ c ≠ '"' ∧ Number.isLiteralChar c = false ∧
      cs.all Char.isAlpha = true := by
    rcases hword with hw | hw | hw <;> cases hw <;> decide
  obtain ⟨hspace, hmark, hquote, hnum, halpha⟩ := hc
  obtain ⟨htake, hdrop⟩ := hr.span (p := Char.isAlpha) (fun _ _ h => h) (List.all_eq_true.1 halpha)
  rw [List.cons_append]
  refine ofText?_of_read? hspace ?_
  simp only [read?, hmark, if_neg hquote, hnum, htake, hdrop, h, Option.map_some, Bool.false_eq_true,
    if_false]

/-- A token reads back. -/
theorem ofText?_render (h : t.fits = true) (hr : t.isClosed = true ∨ Ends r) :
    ofText? (t.render ++ r) = (ofText? r).map (t :: ·) := by
  have ends : t.isClosed = false → Ends r := fun hc => hr.resolve_left (by simp [hc])
  cases t with
  | number n => exact ofText?_number h (ends rfl)
  | null => exact ofText?_word rfl (ends rfl)
  | bool b => cases b <;> exact ofText?_word rfl (ends rfl)
  | text s =>
    cases s with
    | none => exact ofText?_of_read? rfl rfl
    | some s =>
      rw [render, List.cons_append, List.cons_append, List.append_assoc]
      refine ofText?_of_read? rfl ?_
      rw [read?, show ofMark? '"' = none from rfl]
      exact congrArg (Option.map _) (readText?_escape s r)
  | _ => exact ofText?_of_read? rfl rfl

theorem ofText?_cons {ts : List Token} (h : t.fits = true)
    (hr : t.isClosed = true ∨ Ends (ts.flatMap render ++ r)) :
    ofText? ((t :: ts).flatMap render ++ r) = (ofText? (ts.flatMap render ++ r)).map (t :: ·) := by
  rw [List.flatMap_cons, List.append_assoc, ofText?_render h hr]

end Token

end Json

end CompactionLeasing
