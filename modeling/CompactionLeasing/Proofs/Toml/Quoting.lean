import CompactionLeasing.Toml.Quoting
import CompactionLeasing.Toml.Text
import Mathlib.Tactic.ByContra
import Mathlib.Tactic.SplitIfs

/-!
# Strings in TOML read back

Each form in which a string is written is read back up to its closing quotes, if no further quote follows them. The
basic forms are so whatever the string; the literal ones, if the string fits them.
-/

namespace CompactionLeasing.Toml

variable {q c : Char} {cs r : List Char} {run limit : Nat}

theorem isPlain_iff : isPlain c = true ↔ needsEscape c = false ∧ c ≠ '\n' := by
  by_cases htab : c = '\t'
  · subst htab; decide
  by_cases hend : c = '\n'
  · subst hend; decide
  simp [isPlain, needsEscape, htab, hend]

theorem dropNewline_of_isPlain (h : ∀ c ∈ r.head?, isPlain c = true) : dropNewline r = r := by
  unfold dropNewline
  split
  · exact absurd (h _ rfl) (by decide)
  · exact absurd (h _ rfl) (by decide)
  · rfl

/-! ### Literal forms -/

theorem readLiteral?_append (h : ∀ c ∈ cs, isPlain c = true ∧ c ≠ '\'') (r : List Char) :
    readLiteral? (cs ++ '\'' :: r) = some (cs, r) := by
  induction cs with
  | nil => rfl
  | cons c cs ih =>
    obtain ⟨hplain, hquote⟩ := h c (List.mem_cons_self ..)
    rw [List.cons_append, readLiteral?.eq_3 _ _ hquote, if_pos hplain,
      ih fun c hc => h c (List.mem_cons_of_mem _ hc)]
    rfl

theorem hasThree_tail (h : hasThree q (c :: cs) = false) : hasThree q cs = false := by
  match cs with
  | [] | [_] => rfl
  | a :: b :: cs =>
    rw [hasThree, Bool.or_eq_false_iff] at h
    exact h.2

/-- Two more quotes after a quote are the closing ones, or up to two quotes stand before these. -/
theorem ends_of_hasThree (h : hasThree q (q :: cs) = false) (hq : [q, q] <+: cs ++ q :: q :: q :: r) :
    cs = [] ∨ cs = [q] := by
  match cs with
  | [] => exact .inl rfl
  | [a] =>
    obtain ⟨rfl, -⟩ := List.cons_prefix_cons.1 hq
    exact .inr rfl
  | a :: b :: cs =>
    obtain ⟨ha, hq⟩ := List.cons_prefix_cons.1 hq
    obtain ⟨hb, -⟩ := List.cons_prefix_cons.1 hq
    simp [hasThree, ← ha, ← hb] at h

theorem readLiteralLines?_cons (hc : c = '\n' ∨ isPlain c = true) (h : c = '\'' → ¬ ['\'', '\''] <+: r) :
    readLiteralLines? (c :: r) = (readLiteralLines? r).map (consChar c) := by
  rw [readLiteralLines?.eq_6, if_pos hc]
  · rintro r rfl rfl; exact h rfl ⟨_, rfl⟩
  · rintro r rfl rfl; exact h rfl ⟨_, rfl⟩
  · rintro r rfl rfl; exact h rfl ⟨_, rfl⟩
  · rintro r rfl -; exact absurd hc (by decide)

theorem readLiteralLines?_append (h : ∀ c ∈ cs, c = '\n' ∨ isPlain c = true) (hcs : hasThree '\'' cs = false)
    (hr : r.head? ≠ some '\'') : readLiteralLines? (cs ++ '\'' :: '\'' :: '\'' :: r) = some (cs, r) := by
  have hquote : ∀ r', r ≠ '\'' :: r' := fun r' e => hr (e ▸ rfl)
  induction cs with
  | nil =>
    refine readLiteralLines?.eq_4 r ?_ ?_
    · exact fun r' e => hquote _ e
    · exact fun r' e => hquote _ e
  | cons c cs ih =>
    have hrest := ih (fun c hc => h c (List.mem_cons_of_mem _ hc)) (hasThree_tail hcs)
    by_cases hend : c = '\'' ∧ ['\'', '\''] <+: cs ++ '\'' :: '\'' :: '\'' :: r
    · obtain ⟨rfl, hend⟩ := hend
      rcases ends_of_hasThree hcs hend with rfl | rfl
      · exact readLiteralLines?.eq_3 r fun r' e => hquote _ e
      · rfl
    · rw [List.cons_append, readLiteralLines?_cons (h c (List.mem_cons_self ..)) fun hc hp => hend ⟨hc, hp⟩, hrest]
      rfl

/-! ### Basic forms -/

theorem numbered?_control {n : Nat} (h : n < 0x80) :
    numbered? ['0', '0', (Nat.digitChar (n / 16)).toUpper, (Nat.digitChar (n % 16)).toUpper] = some (.ofNat n) := by
  have hall : ∀ n < 0x80,
      numbered? ['0', '0', (Nat.digitChar (n / 16)).toUpper, (Nat.digitChar (n % 16)).toUpper] = some (.ofNat n) := by
    decide
  exact hall n h

namespace Quoting

/-- A character has a short escape or a numbered one, or it stands for itself. -/
theorem escapeChar_cases (c : Char) :
    (∃ e, shortEscape? e = some c ∧ escapeChar c = ['\\', e]) ∨
    (∃ a b, numbered? ['0', '0', a, b] = some c ∧ escapeChar c = ['\\', 'u', '0', '0', a, b]) ∨
    escapeChar c = [c] ∧ isPlain c = true ∧ c ≠ '"' ∧ c ≠ '\\' := by
  unfold escapeChar
  iterate 7
    split
    · subst_vars
      exact .inl ⟨_, rfl, rfl⟩
  rename_i hquote hback _ _ _ _ _
  split
  · have hlt : c.toNat < 0x80 := by
      rcases ‹c.toNat < 0x20 ∨ c = '\x7f'› with hlt | rfl
      · omega
      · decide
    exact .inr (.inl ⟨_, _, by rw [numbered?_control hlt, Char.ofNat_toNat], rfl⟩)
  · rename_i hcontrol
    refine .inr (.inr ⟨rfl, ?_, hquote, hback⟩)
    simp only [isPlain, Bool.or_eq_true, Bool.and_eq_true, decide_eq_true_eq, bne_iff_ne]
    exact .inr ⟨by omega, fun h => hcontrol (.inr h)⟩

/-- An escaped character begins with a plain one, and not with a quote. -/
theorem head?_escapeChar (c : Char) (r : List Char) :
    ∃ d, (escapeChar c ++ r).head? = some d ∧ isPlain d = true ∧ d ≠ '"' := by
  rcases escapeChar_cases c with ⟨e, -, he⟩ | ⟨a, b, -, he⟩ | ⟨he, hplain, hquote, -⟩ <;> rw [he]
  · exact ⟨_, rfl, by decide, by decide⟩
  · exact ⟨_, rfl, by decide, by decide⟩
  · exact ⟨_, rfl, hplain, hquote⟩

end Quoting

open Quoting

/-- What readers of basic strings have in common. -/
structure Unescapes (read? : List Char → Option (List Char × List Char)) : Prop where
  short : ∀ {e x : Char} (r : List Char), shortEscape? e = some x →
    read? ('\\' :: e :: r) = (read? r).map (consChar x)
  numbered : ∀ {a b c d x : Char} (r : List Char), numbered? [a, b, c, d] = some x →
    read? ('\\' :: 'u' :: a :: b :: c :: d :: r) = (read? r).map (consChar x)
  plain : ∀ {c : Char} (r : List Char), isPlain c = true → c ≠ '"' → c ≠ '\\' →
    read? (c :: r) = (read? r).map (consChar c)

theorem Unescapes.escapeChar {read? : List Char → Option (List Char × List Char)} (h : Unescapes read?) (c : Char)
    (r : List Char) : read? (escapeChar c ++ r) = (read? r).map (consChar c) := by
  rcases escapeChar_cases c with ⟨e, he, hc⟩ | ⟨a, b, hn, hc⟩ | ⟨hc, hplain, hquote, hback⟩ <;> rw [hc]
  · exact h.short r he
  · exact h.numbered r hn
  · exact h.plain r hplain hquote hback

theorem ne_of_shortEscape? {e x : Char} (h : shortEscape? e = some x) : e ≠ 'u' ∧ e ≠ 'U' := by
  constructor <;> rintro rfl <;> cases h

theorem unescapes_readBasic? : Unescapes readBasic? where
  short r h := by
    obtain ⟨hu, hU⟩ := ne_of_shortEscape? h
    rw [readBasic?.eq_5 _ _ (fun _ _ _ _ _ he _ => hu he) (fun _ _ _ _ _ _ _ _ _ he _ => hU he), h]
  numbered r h := by
    rw [readBasic?.eq_3, h]
  plain r hplain hquote hback := by
    rw [readBasic?.eq_6 _ _ hquote (fun _ _ _ _ _ hc _ => hback hc) (fun _ _ _ _ _ _ _ _ _ hc _ => hback hc)
      (fun _ _ hc _ => hback hc), if_neg (by simp [hback, hplain])]

theorem readBasic?_flatMap (cs r : List Char) : readBasic? (cs.flatMap escapeChar ++ '"' :: r) = some (cs, r) := by
  induction cs with
  | nil => rfl
  | cons c cs ih =>
    rw [List.flatMap_cons, List.append_assoc, unescapes_readBasic?.escapeChar, ih]
    rfl

/-- A character between three quotes stands for itself, unless it begins an escape or the closing quotes. -/
theorem readBasicLines?_cons (hc : c = '\n' ∨ isPlain c = true) (hback : c ≠ '\\')
    (h : c = '"' → ¬ ['"', '"'] <+: r) :
    readBasicLines? false (c :: r) = (readBasicLines? false r).map (consChar c) := by
  rw [readBasicLines?.eq_9 _ _ _ (fun r hc hr => h hc ⟨_, hr.symm⟩) (fun r hc hr => h hc ⟨_, hr.symm⟩)
    (fun r hc hr => h hc ⟨_, hr.symm⟩) (fun _ _ _ _ _ hc _ => hback hc) (fun _ _ _ _ _ _ _ _ _ hc _ => hback hc)
    (fun _ _ hc _ => hback hc) (by rintro r rfl -; exact absurd hc (by decide))]
  by_cases hend : c = '\n'
  · subst hend; rfl
  · rw [if_neg hend, if_neg (by simp), if_neg (by simp [hback, hc.resolve_left hend])]

theorem unescapes_readBasicLines? : Unescapes (readBasicLines? false) where
  short r h := by
    obtain ⟨hu, hU⟩ := ne_of_shortEscape? h
    rw [readBasicLines?.eq_7 _ _ _ (fun _ _ _ _ _ he _ => hu he) (fun _ _ _ _ _ _ _ _ _ he _ => hU he), h]
  numbered r h := by
    rw [readBasicLines?.eq_5, h]
  plain r hplain hquote hback := readBasicLines?_cons (.inr hplain) hback fun hc => absurd hc hquote

namespace Quoting

/-- A quote or the end of a line stands for itself, or else the character is escaped. -/
theorem escapeLines_cases (run : Nat) (c : Char) (cs : List Char) :
    c = '"' ∧ run ≠ 2 ∧ escapeLines run (c :: cs) = '"' :: escapeLines (run + 1) cs ∨
    c = '\n' ∧ escapeLines run (c :: cs) = '\n' :: escapeLines 0 cs ∨
    escapeLines run (c :: cs) = escapeChar c ++ escapeLines 0 cs := by
  rw [escapeLines]
  split_ifs with hquote htwo hend
  · exact .inr (.inr rfl)
  · exact .inl ⟨hquote, htwo, hquote ▸ rfl⟩
  · exact .inr (.inl ⟨hend, hend ▸ rfl⟩)
  · exact .inr (.inr rfl)

theorem isPlain_of_head?_escapeLines (h : '\n' ∉ cs) (hr : ∀ d ∈ r.head?, isPlain d = true) :
    ∀ d ∈ (escapeLines run cs ++ r).head?, isPlain d = true := by
  cases cs with
  | nil => exact hr
  | cons c cs =>
    rcases escapeLines_cases run c cs with ⟨-, -, he⟩ | ⟨rfl, -⟩ | he
    · rw [he]
      rintro _ ⟨⟩
      decide
    · exact absurd (List.mem_cons_self ..) h
    · obtain ⟨d, hd, hplain, -⟩ := head?_escapeChar c (escapeLines 0 cs ++ r)
      rw [he, List.append_assoc, hd]
      rintro _ ⟨⟩
      exact hplain

/-- Where a quote comes next, it stands for itself. -/
theorem of_head?_escapeLines (h : (escapeLines run (c :: cs) ++ r).head? = some '"') :
    c = '"' ∧ run ≠ 2 ∧ escapeLines run (c :: cs) = '"' :: escapeLines (run + 1) cs := by
  rcases escapeLines_cases run c cs with hc | ⟨-, he⟩ | he
  · exact hc
  · rw [he] at h
    cases h
  · obtain ⟨d, hd, -, hquote⟩ := head?_escapeChar c (escapeLines 0 cs ++ r)
    rw [he, List.append_assoc, hd] at h
    cases h
    exact absurd rfl hquote

/-- Two more quotes after some are the closing ones, or one quote stands before these. -/
theorem ends_of_escapeLines (hrun : run = 1 ∨ run = 2)
    (h : ['"', '"'] <+: escapeLines run cs ++ '"' :: '"' :: '"' :: r) : cs = [] ∨ cs = ['"'] ∧ run ≠ 2 := by
  obtain ⟨t, ht⟩ := h
  match cs with
  | [] => exact .inl rfl
  | [c] =>
    obtain ⟨rfl, htwo, -⟩ := of_head?_escapeLines (congrArg List.head? ht.symm)
    exact .inr ⟨rfl, htwo⟩
  | c :: d :: cs =>
    obtain ⟨-, htwo, he⟩ := of_head?_escapeLines (congrArg List.head? ht.symm)
    rw [he] at ht
    obtain ⟨-, hone, -⟩ := of_head?_escapeLines (congrArg (fun l => l.tail.head?) ht.symm)
    omega

theorem readBasicLines?_escapeLines (cs : List Char) (hrun : run ≤ 2) (hr : r.head? ≠ some '"') :
    readBasicLines? false (escapeLines run cs ++ '"' :: '"' :: '"' :: r) = some (cs, r) := by
  have hquote : ∀ r', r ≠ '"' :: r' := fun r' e => hr (e ▸ rfl)
  induction cs generalizing run with
  | nil =>
    refine readBasicLines?.eq_4 _ r ?_ ?_
    · exact fun r' e => hquote _ e
    · exact fun r' e => hquote _ e
  | cons c cs ih =>
    rcases escapeLines_cases run c cs with ⟨rfl, htwo, he⟩ | ⟨rfl, he⟩ | he <;> rw [he]
    · by_cases hends : ['"', '"'] <+: escapeLines (run + 1) cs ++ '"' :: '"' :: '"' :: r
      · rcases ends_of_escapeLines (by omega) hends with rfl | ⟨rfl, hone⟩
        · exact readBasicLines?.eq_3 _ r fun r' e => hquote _ e
        · obtain rfl : run = 0 := by omega
          rfl
      · rw [List.cons_append, readBasicLines?_cons (.inr (by decide)) (by decide) fun _ => hends, ih (by omega)]
        rfl
    · rw [List.cons_append, readBasicLines?_cons (.inl rfl) (by decide) nofun, ih (by omega)]
      rfl
    · rw [List.append_assoc, unescapes_readBasicLines?.escapeChar, ih (by omega)]
      rfl

/-! ### Strings -/

/-- Where a string is written in a literal form, it fits it. -/
theorem choose_cases (cs : List Char) : choose cs = basic ∨ choose cs = basicLines ∨ fits cs (choose cs) = true := by
  unfold choose
  split
  · exact .inr (.inr (List.find?_some ‹_›))
  · split_ifs
    · exact .inr (.inl rfl)
    · exact .inl rfl

/-- An inserted end of a line is dropped, and where none is inserted nothing is. -/
theorem dropNewline_append (h : '\n' ∉ cs → ∀ c ∈ r.head?, isPlain c = true) :
    dropNewline ((if cs.contains '\n' then ['\n'] else []) ++ r) = r := by
  split_ifs with hend
  · rfl
  · exact dropNewline_of_isPlain (h (by simpa using hend))

theorem readQuoted?_basic (cs : List Char) (hr : r.head? ≠ some '"') :
    readQuoted? (inside cs basic ++ '"' :: r) = some (false, cs, r) := by
  have hread := readBasic?_flatMap cs r
  rw [inside, readQuoted?, hread]
  · rfl
  · intro t ht
    cases cs with
    | nil =>
      cases ht
      exact hr rfl
    | cons c cs =>
      obtain ⟨d, hd, -, hquote⟩ := head?_escapeChar c (cs.flatMap escapeChar ++ '"' :: r)
      rw [List.flatMap_cons, List.append_assoc] at ht
      rw [ht] at hd
      cases hd
      exact hquote rfl

theorem readQuoted?_basicLines (cs : List Char) (hr : r.head? ≠ some '"') :
    readQuoted? ('"' :: '"' :: (inside cs basicLines ++ '"' :: '"' :: '"' :: r)) = some (true, cs, r) := by
  rw [readQuoted?, inside, List.append_assoc, dropNewline_append, readBasicLines?_escapeLines cs (by decide) hr]
  · rfl
  · intro hend
    refine isPlain_of_head?_escapeLines hend ?_
    rintro _ ⟨⟩
    decide

theorem readVerbatim?_literal (h : fits cs literal = true) (hr : r.head? ≠ some '\'') :
    readVerbatim? (inside cs literal ++ '\'' :: r) = some (false, cs, r) := by
  simp only [fits, Bool.and_eq_true, Bool.not_eq_true', List.any_eq_false, List.contains_eq_mem,
    decide_eq_false_iff_not] at h
  obtain ⟨⟨hescape, hquote⟩, hend⟩ := h
  have hcs : ∀ c ∈ cs, isPlain c = true ∧ c ≠ '\'' := fun c hc =>
    ⟨isPlain_iff.2 ⟨by simpa using hescape c hc, fun h => hend (h ▸ hc)⟩, fun h => hquote (h ▸ hc)⟩
  rw [inside, readVerbatim?, readLiteral?_append hcs]
  · rfl
  · intro t ht
    cases cs with
    | nil =>
      cases ht
      exact hr rfl
    | cons c cs =>
      exact hquote (List.mem_cons.2 (.inl (List.cons.inj ht).1.symm))

theorem readVerbatim?_literalLines (h : fits cs literalLines = true) (hr : r.head? ≠ some '\'') :
    readVerbatim? ('\'' :: '\'' :: (inside cs literalLines ++ '\'' :: '\'' :: '\'' :: r)) = some (true, cs, r) := by
  simp only [fits, Bool.and_eq_true, Bool.not_eq_true', List.any_eq_false] at h
  have hcs : ∀ c ∈ cs, c = '\n' ∨ isPlain c = true := fun c hc =>
    or_iff_not_imp_left.2 fun hend => isPlain_iff.2 ⟨by simpa using h.1 c hc, hend⟩
  rw [readVerbatim?, inside, List.append_assoc, dropNewline_append, readLiteralLines?_append hcs h.2 hr]
  · rfl
  · intro hend
    cases cs with
    | nil =>
      rintro _ ⟨⟩
      decide
    | cons c cs =>
      rintro _ ⟨⟩
      exact (hcs c (List.mem_cons_self ..)).resolve_left fun h => hend (h ▸ List.mem_cons_self ..)

end Quoting

/-! ### Counting quotes -/

theorem replicate_infix_replicate {m n : Nat} : List.replicate m q <:+: List.replicate n q ↔ m ≤ n := by
  constructor
  · intro h
    simpa using h.length_le
  · intro h
    refine ⟨[], List.replicate (n - m) q, ?_⟩
    rw [List.nil_append, List.replicate_append_replicate, Nat.add_sub_cancel' h]

/-- What does not have a character stands before it or after it. -/
theorem infix_append_cons_iff {l xs : List Char} (hc : c ∉ l) : l <:+: xs ++ c :: r ↔ l <:+: xs ∨ l <:+: r := by
  have hnil : ∀ l', l' <+: c :: r → c ∉ l' → l' = [] := by
    rintro (_ | ⟨d, l'⟩) hp hc
    · rfl
    · exact absurd (List.mem_cons.2 (.inl (List.cons_prefix_cons.1 hp).1.symm)) hc
  rw [List.infix_append_iff, List.infix_cons_iff]
  constructor
  · rintro (h | (h | h) | ⟨l₁, l₂, rfl, h₁, h₂⟩)
    · exact .inl h
    · exact .inl (hnil _ h hc ▸ List.nil_infix)
    · exact .inr h
    · rw [hnil _ h₂ fun h => hc (List.mem_append_right _ h), List.append_nil]
      exact .inl h₁.isInfix
  · rintro (h | h)
    · exact .inl h
    · exact .inr (.inl (.inr h))

/-- The characters in a row are counted together with those before. -/
theorem hasRun_iff : hasRun q limit run cs = true ↔ List.replicate (limit + 1) q <:+: List.replicate run q ++ cs := by
  induction cs generalizing run with
  | nil => rw [hasRun, List.append_nil, replicate_infix_replicate, decide_eq_true_eq, Nat.succ_le_iff]
  | cons c cs ih =>
    rw [hasRun, Bool.or_eq_true, ih, decide_eq_true_eq]
    split_ifs with hc
    · subst hc
      have hnext : List.replicate (run + 1) c ++ cs = List.replicate run c ++ c :: cs := by
        rw [List.replicate_succ', List.append_assoc, List.singleton_append]
      rw [hnext, or_iff_right_of_imp]
      intro h
      exact (replicate_infix_replicate.2 h).trans (List.prefix_append ..).isInfix
    · rw [infix_append_cons_iff (by simp [hc]), replicate_infix_replicate]
      rfl

/-- The quotes of a string can be counted unless there are 256 of a kind in a row. -/
theorem isCountable_iff : isCountable cs = true ↔ ∀ q ∈ ['\'', '"'], ¬ List.replicate UInt8.size q <:+: cs := by
  have h : ∀ q, hasRun q (UInt8.size - 1) 0 cs = true ↔ List.replicate UInt8.size q <:+: cs := fun _ => hasRun_iff
  simp [isCountable, ← h]

end CompactionLeasing.Toml
