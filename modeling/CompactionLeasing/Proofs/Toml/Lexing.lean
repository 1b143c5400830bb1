import CompactionLeasing.Proofs.Scanning
import CompactionLeasing.Proofs.Toml.Quoting
import CompactionLeasing.Toml.Token

/-!
# Reading tokens of TOML back

A mark, a word, blanks or a written string in front of a text is read as one token, where the text does not go on with
more of the same.
-/

namespace CompactionLeasing.Toml

/-- Whether the string stands between three quotes. -/
def Quoting.isLines : Quoting → Bool
  | basicLines | literalLines => true
  | basic | literal => false

namespace Token

variable {c : Char} {cs r r' : List Char} {t : Token} {ts : List Token}

/-- The token that a written string is read as. -/
def quoted (cs : List Char) : Token := text (Quoting.choose cs).isLines cs

theorem ofChars?_of_read? (h : read? c r = some (t, r')) (hr : ofChars? r' = some ts) :
    ofChars? (c :: r) = some (t :: ts) := by
  rw [ofChars?]
  split
  · simp_all
  · simp_all

theorem read?_of_isBlank (hc : isBlank c = true) :
    read? c r = some (gap (c :: r.takeWhile isBlank), r.dropWhile isBlank) := by
  have hc' : c = ' ' ∨ c = '\t' := by simpa [isBlank] using hc
  rcases hc' with rfl | rfl <;> rfl

theorem ofMark?_of_isWordChar (hc : isWordChar c = true) : ofMark? c = none := by
  rw [ofMark?.eq_def]
  split <;> first | rfl | exact absurd hc (by decide)

theorem read?_of_isWordChar (hc : isWordChar c = true) :
    read? c r = some (word (c :: r.takeWhile isWordChar), r.dropWhile isWordChar) := by
  have hne : ∀ d, isWordChar d = false → c ≠ d := fun d hd h => by simp [← h, hc] at hd
  have hblank : isBlank c = false := by simp [isBlank, hne ' ' (by decide), hne '\t' (by decide)]
  rw [read?, ofMark?_of_isWordChar hc]
  simp only [if_neg (hne '\r' (by decide)), if_neg (hne '"' (by decide)), if_neg (hne '\'' (by decide)),
    if_neg (hne '#' (by decide)), hblank, hc, if_true, Bool.false_eq_true, if_false]

theorem ofChars?_quote (cs : List Char) (hstop : ∀ c ∈ r.head?, c ≠ '"' ∧ c ≠ '\'') (hr : ofChars? r = some ts) :
    ofChars? (quote cs ++ r) = some (quoted cs :: ts) := by
  have hdouble : r.head? ≠ some '"' := fun h => (hstop _ h).1 rfl
  have hsingle : r.head? ≠ some '\'' := fun h => (hstop _ h).2 rfl
  have hfits := Quoting.choose_cases cs
  unfold quote quoted
  generalize Quoting.choose cs = q at hfits
  cases q with
  | basic =>
    rw [List.append_assoc]
    refine ofChars?_of_read? ?_ hr
    exact congrArg (Option.map ofText) (Quoting.readQuoted?_basic cs hdouble)
  | literal =>
    rw [List.append_assoc]
    refine ofChars?_of_read? ?_ hr
    exact congrArg (Option.map ofText) (Quoting.readVerbatim?_literal (by simpa using hfits) hsingle)
  | basicLines =>
    rw [List.append_assoc, List.append_assoc]
    refine ofChars?_of_read? ?_ hr
    exact congrArg (Option.map ofText) (Quoting.readQuoted?_basicLines cs hdouble)
  | literalLines =>
    rw [List.append_assoc, List.append_assoc]
    refine ofChars?_of_read? ?_ hr
    exact congrArg (Option.map ofText) (Quoting.readVerbatim?_literalLines (by simpa using hfits) hsingle)

/-- A written string begins with a quote. -/
theorem head?_quote (cs r : List Char) : ∃ c ∈ (quote cs ++ r).head?, c = '"' ∨ c = '\'' := by
  unfold quote
  cases Quoting.choose cs with
  | basic | basicLines => exact ⟨_, rfl, .inl rfl⟩
  | literal | literalLines => exact ⟨_, rfl, .inr rfl⟩

/-- A text is read as the tokens, whatever follows it. -/
def Lexes (cs : List Char) (ts : List Token) : Prop :=
  ∀ r ts', ofChars? r = some ts' → ofChars? (cs ++ r) = some (ts ++ ts')

namespace Lexes
variable {p : Char → Bool} {xs : List Char}

theorem forall_head?_append {P : Char → Prop} (h : ∃ c ∈ cs.head?, P c) (r : List Char) :
    ∀ c ∈ (cs ++ r).head?, P c := by
  obtain ⟨d, hd, hp⟩ := h
  intro c hc
  rw [List.head?_append, Option.mem_def.1 hd] at hc
  cases hc
  exact hp

theorem nil : Lexes [] [] := fun _ _ h => h

theorem append {ts' : List Token} (h : Lexes cs ts) (h' : Lexes xs ts') : Lexes (cs ++ xs) (ts ++ ts') := by
  intro r us hr
  rw [List.append_assoc, List.append_assoc]
  exact h _ _ (h' r us hr)

theorem flatMap {α : Type} {f : α → List Char} {g : α → List Token} {l : List α} (h : ∀ a ∈ l, Lexes (f a) (g a)) :
    Lexes (l.flatMap f) (l.flatMap g) := by
  induction l with
  | nil => exact nil
  | cons a l ih =>
    obtain ⟨ha, hl⟩ := List.forall_mem_cons.1 h
    exact ha.append (ih hl)

theorem mark (hc : ofMark? c = some t) (h : Lexes cs ts) : Lexes (c :: cs) (t :: ts) := by
  intro r us hr
  refine ofChars?_of_read? ?_ (h r us hr)
  rw [read?, hc]
  rfl

/-- Texts with an empty line between them. -/
theorem intercalate {α : Type} {f : α → List Char} {g : α → List Token} :
    ∀ {l : List α}, (∀ a ∈ l, Lexes (f a) (g a)) →
      Lexes (List.intercalate ['\n'] (l.map f)) (List.intercalate [.newline] (l.map g))
  | [], _ => nil
  | [a], h => by
    rw [List.map_singleton, List.map_singleton, List.intercalate_singleton, List.intercalate_singleton]
    exact h a (List.mem_singleton_self a)
  | a :: b :: l, h => by
    obtain ⟨ha, hl⟩ := List.forall_mem_cons.1 h
    simp only [List.map_cons, List.intercalate_cons_cons]
    exact (ha.append (mark rfl nil)).append (intercalate hl)

/-- A run of characters of a kind is one token, where another character follows. -/
theorem run {mk : List Char → Token}
    (hread : ∀ c r, p c = true → read? c r = some (mk (c :: r.takeWhile p), r.dropWhile p))
    (hxs : ∀ c ∈ xs, p c = true) (hne : xs ≠ []) (hstop : ∃ c ∈ cs.head?, p c = false) (h : Lexes cs ts) :
    Lexes (xs ++ cs) (mk xs :: ts) := by
  intro r us hr
  obtain ⟨c, xs, rfl⟩ := List.exists_cons_of_ne_nil hne
  obtain ⟨hc, hxs⟩ := List.forall_mem_cons.1 hxs
  obtain ⟨htake, hdrop⟩ := Text.span_append hxs (forall_head?_append hstop r)
  have hread' := hread c (xs ++ (cs ++ r)) hc
  rw [htake, hdrop] at hread'
  rw [List.append_assoc]
  exact ofChars?_of_read? hread' (h r us hr)

theorem gap (hxs : ∀ c ∈ xs, isBlank c = true) (hne : xs ≠ []) (hstop : ∃ c ∈ cs.head?, isBlank c = false)
    (h : Lexes cs ts) : Lexes (xs ++ cs) (.gap xs :: ts) :=
  run (fun _ _ => read?_of_isBlank) hxs hne hstop h

theorem word (hxs : ∀ c ∈ xs, isWordChar c = true) (hne : xs ≠ []) (hstop : ∃ c ∈ cs.head?, isWordChar c = false)
    (h : Lexes cs ts) : Lexes (xs ++ cs) (.word xs :: ts) :=
  run (fun _ _ => read?_of_isWordChar) hxs hne hstop h

theorem quote (xs : List Char) (hstop : ∃ c ∈ cs.head?, c ≠ '"' ∧ c ≠ '\'') (h : Lexes cs ts) :
    Lexes (Toml.quote xs ++ cs) (quoted xs :: ts) := by
  intro r us hr
  rw [List.append_assoc]
  exact ofChars?_quote xs (forall_head?_append hstop r) (h r us hr)

end Lexes

theorem Lexes.ofChars?_eq (h : Lexes cs ts) : ofChars? cs = some ts := by
  have := h [] [] (by rw [ofChars?])
  rwa [List.append_nil, List.append_nil] at this

end Token

end CompactionLeasing.Toml
