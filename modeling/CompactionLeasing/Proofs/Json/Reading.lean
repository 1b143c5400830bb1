import CompactionLeasing.Json.Value
import CompactionLeasing.Proofs.Json.Lexing

/-!
# Reading values back

`Value.ofText?_render`: a value that is written reads back. It is proved in two stages, one for the
characters and one for the tokens, each by recursion on the value together with the rest of an array and
the rest of an object.
-/

namespace CompactionLeasing.Json

namespace Value

mutual

/-- Whether all numbers in the value are written in a way that reads back. -/
def fits : Value → Bool
  | null => true
  | bool _ => true
  | number n => n.fits
  | text _ => true
  | array vs => allFit vs
  | object fs => fieldsFit fs

def allFit : List Value → Bool
  | [] => true
  | v :: vs => v.fits && allFit vs

def fieldsFit : List (Option String × Value) → Bool
  | [] => true
  | (_, v) :: fs => v.fits && fieldsFit fs

end

/-! ### Characters -/

theorem ends_tokensOfItems (vs : List Value) (r : List Char) :
    Token.Ends ((tokensOfItems vs).flatMap Token.render ++ r) := by
  cases vs <;> rintro c ⟨⟩ <;> decide

theorem ends_tokensOfFields (fs : List (Option String × Value)) (r : List Char) :
    Token.Ends ((tokensOfFields fs).flatMap Token.render ++ r) := by
  cases fs <;> rintro c ⟨⟩ <;> decide

mutual

-- The text `r` that follows is arbitrary but for its beginning: a numeral must not go on there. Within a
-- value every numeral is followed by a mark.
theorem ofText?_tokens : ∀ (v : Value) (r : List Char), v.fits = true → Token.Ends r →
    Token.ofText? (v.tokens.flatMap Token.render ++ r) = (Token.ofText? r).map (v.tokens ++ ·)
  | null, r, _, hr => Token.ofText?_cons rfl (.inr hr)
  | bool _, r, _, hr => Token.ofText?_cons rfl (.inr hr)
  | number _, r, h, hr => Token.ofText?_cons h (.inr hr)
  | text _, r, _, hr => Token.ofText?_cons rfl (.inr hr)
  | array [], r, _, hr => by
    rw [tokens, Token.ofText?_cons rfl (.inl rfl), Token.ofText?_cons rfl (.inl rfl), Option.map_map]
    rfl
  | array (v :: vs), r, h, _ => by
    rw [fits, allFit, Bool.and_eq_true] at h
    have hv := ofText?_tokens v _ h.1 (ends_tokensOfItems vs r)
    have hvs := ofText?_tokensOfItems vs r h.2
    rw [tokens, List.cons_append, Token.ofText?_cons rfl (.inl rfl), List.flatMap_append,
      List.append_assoc, hv, hvs,
      Option.map_map, Option.map_map]
    congr 1; funext ts; simp
  | object [], r, _, _ => by
    rw [tokens, Token.ofText?_cons rfl (.inl rfl), Token.ofText?_cons rfl (.inl rfl), Option.map_map]
    rfl
  | object ((k, v) :: fs), r, h, _ => by
    rw [fits, fieldsFit, Bool.and_eq_true] at h
    have hv := ofText?_tokens v _ h.1 (ends_tokensOfFields fs r)
    have hfs := ofText?_tokensOfFields fs r h.2
    simp only [tokens, List.cons_append]
    rw [Token.ofText?_cons rfl (.inl rfl), Token.ofText?_cons rfl (.inl rfl),
      Token.ofText?_cons rfl (.inl rfl),
      List.flatMap_append, List.append_assoc, hv, hfs]
    simp only [Option.map_map]
    congr 1; funext ts; simp

theorem ofText?_tokensOfItems : ∀ (vs : List Value) (r : List Char), allFit vs = true →
    Token.ofText? ((tokensOfItems vs).flatMap Token.render ++ r) =
      (Token.ofText? r).map (tokensOfItems vs ++ ·)
  | [], r, _ => Token.ofText?_cons rfl (.inl rfl)
  | v :: vs, r, h => by
    rw [allFit, Bool.and_eq_true] at h
    have hv := ofText?_tokens v _ h.1 (ends_tokensOfItems vs r)
    have hvs := ofText?_tokensOfItems vs r h.2
    rw [tokensOfItems, List.cons_append, Token.ofText?_cons rfl (.inl rfl), List.flatMap_append,
      List.append_assoc, hv, hvs]
    simp only [Option.map_map]
    congr 1; funext ts; simp

theorem ofText?_tokensOfFields :
    ∀ (fs : List (Option String × Value)) (r : List Char), fieldsFit fs = true →
    Token.ofText? ((tokensOfFields fs).flatMap Token.render ++ r) =
      (Token.ofText? r).map (tokensOfFields fs ++ ·)
  | [], r, _ => Token.ofText?_cons rfl (.inl rfl)
  | (k, v) :: fs, r, h => by
    rw [fieldsFit, Bool.and_eq_true] at h
    have hv := ofText?_tokens v _ h.1 (ends_tokensOfFields fs r)
    have hfs := ofText?_tokensOfFields fs r h.2
    simp only [tokensOfFields, List.cons_append]
    rw [Token.ofText?_cons rfl (.inl rfl), Token.ofText?_cons rfl (.inl rfl),
      Token.ofText?_cons rfl (.inl rfl),
      List.flatMap_append, List.append_assoc, hv, hfs]
    simp only [Option.map_map]
    congr 1; funext ts; simp

end

/-! ### Tokens -/

theorem run_cons (p : Reading) (t : Token) (ts : List Token) :
    p.run (t :: ts) = (p.step t).bind (·.run ts) := by
  rw [Reading.run]
  cases p.step t <;> rfl

/-- A value that is the first of an array is read like any other. -/
theorem run_firstItem (v : Value) (s : List Frame) (ts : List Token) :
    Reading.run ⟨s, .firstItem⟩ (v.tokens ++ ts) = Reading.run ⟨s, .value⟩ (v.tokens ++ ts) := by
  obtain ⟨t, ts', ht, hne⟩ : ∃ t ts', v.tokens = t :: ts' ∧ t ≠ .closeArray := by
    rcases v with _ | _ | _ | _ | (_ | _) | (_ | ⟨⟨_, _⟩, _⟩) <;> exact ⟨_, _, rfl, nofun⟩
  rw [ht, List.cons_append, run_cons, run_cons]
  congr 1
  exact if_neg hne

mutual

theorem run_tokens : ∀ (v : Value) (s : List Frame) (ts : List Token),
    Reading.run ⟨s, .value⟩ (v.tokens ++ ts) = (Reading.deliver v s).bind (·.run ts)
  | null, _, _ | bool _, _, _ | number _, _, _ | text _, _, _ => run_cons ..
  | array [], s, ts => run_cons ⟨.array [] :: s, .firstItem⟩ .closeArray ts
  | array (v :: vs), s, ts => by
    have hv := run_tokens v (.array [] :: s) (tokensOfItems vs ++ ts)
    have hvs := run_tokensOfItems vs [v] s ts
    calc Reading.run ⟨s, .value⟩ ((array (v :: vs)).tokens ++ ts)
      _ = Reading.run ⟨.array [] :: s, .firstItem⟩ (v.tokens ++ (tokensOfItems vs ++ ts)) := by
        rw [tokens, List.cons_append, List.cons_append, List.append_assoc]; exact run_cons ..
      _ = Reading.run ⟨.array [v] :: s, .more⟩ (tokensOfItems vs ++ ts) := by rw [run_firstItem, hv]; rfl
      _ = (Reading.deliver (array (v :: vs)) s).bind (·.run ts) := hvs
  | object [], s, ts => run_cons ⟨.object [] :: s, .firstField⟩ .closeObject ts
  | object ((k, v) :: fs), s, ts => by
    have hv := run_tokens v (.field [] k :: s) (tokensOfFields fs ++ ts)
    have hfs := run_tokensOfFields fs [(k, v)] s ts
    calc Reading.run ⟨s, .value⟩ ((object ((k, v) :: fs)).tokens ++ ts)
      _ = Reading.run ⟨.field [] k :: s, .value⟩ (v.tokens ++ (tokensOfFields fs ++ ts)) := by
        simp only [tokens, List.cons_append, List.append_assoc]; rfl
      _ = Reading.run ⟨.object [(k, v)] :: s, .more⟩ (tokensOfFields fs ++ ts) := by rw [hv]; rfl
      _ = (Reading.deliver (object ((k, v) :: fs)) s).bind (·.run ts) := hfs

theorem run_tokensOfItems : ∀ (vs acc : List Value) (s : List Frame) (ts : List Token),
    Reading.run ⟨.array acc :: s, .more⟩ (tokensOfItems vs ++ ts) =
      (Reading.deliver (.array (acc.reverse ++ vs)) s).bind (·.run ts)
  | [], acc, s, ts => by
    rw [List.append_nil]
    exact run_cons ..
  | v :: vs, acc, s, ts => by
    have hv := run_tokens v (.array acc :: s) (tokensOfItems vs ++ ts)
    have hvs := run_tokensOfItems vs (v :: acc) s ts
    calc Reading.run ⟨.array acc :: s, .more⟩ (tokensOfItems (v :: vs) ++ ts)
      _ = Reading.run ⟨.array acc :: s, .value⟩ (v.tokens ++ (tokensOfItems vs ++ ts)) := by
        rw [tokensOfItems, List.cons_append, List.cons_append, List.append_assoc]; exact run_cons ..
      _ = Reading.run ⟨.array (v :: acc) :: s, .more⟩ (tokensOfItems vs ++ ts) := by rw [hv]; rfl
      _ = (Reading.deliver (.array (acc.reverse ++ v :: vs)) s).bind (·.run ts) := by
        rw [hvs, List.reverse_cons, List.append_assoc]; rfl

theorem run_tokensOfFields : ∀ (fs acc : List (Option String × Value)) (s : List Frame) (ts : List Token),
    Reading.run ⟨.object acc :: s, .more⟩ (tokensOfFields fs ++ ts) =
      (Reading.deliver (.object (acc.reverse ++ fs)) s).bind (·.run ts)
  | [], acc, s, ts => by
    rw [List.append_nil]
    exact run_cons ..
  | (k, v) :: fs, acc, s, ts => by
    have hv := run_tokens v (.field acc k :: s) (tokensOfFields fs ++ ts)
    have hfs := run_tokensOfFields fs ((k, v) :: acc) s ts
    calc Reading.run ⟨.object acc :: s, .more⟩ (tokensOfFields ((k, v) :: fs) ++ ts)
      _ = Reading.run ⟨.field acc k :: s, .value⟩ (v.tokens ++ (tokensOfFields fs ++ ts)) := by
        simp only [tokensOfFields, List.cons_append, List.append_assoc]; rfl
      _ = Reading.run ⟨.object ((k, v) :: acc) :: s, .more⟩ (tokensOfFields fs ++ ts) := by rw [hv]; rfl
      _ = (Reading.deliver (.object (acc.reverse ++ (k, v) :: fs)) s).bind (·.run ts) := by
        rw [hfs, List.reverse_cons, List.append_assoc]; rfl

end

/-- A written value reads back. -/
theorem ofText?_render {v : Value} (h : v.fits = true) : ofText? v.render = some v := by
  have hchars := ofText?_tokens v [] h nofun
  have htokens := run_tokens v [] []
  have hnil : Token.ofText? [] = some [] := by rw [Token.ofText?]
  rw [List.append_nil, hnil, Option.map_some, List.append_nil] at hchars
  rw [List.append_nil] at htokens
  rw [ofText?, render, String.toList_ofList, hchars]
  simp only [ofTokens?, htokens]
  rfl

end Value

end CompactionLeasing.Json
