import CompactionLeasing.Proofs.Toml.Lexing
import CompactionLeasing.Toml.Document
import Mathlib.Data.List.Nodup

/-!
# Reading a document of tables back

The tokens of a line are read as one statement, and the statements of a row of tables build these tables, if no name
occurs twice among them and none within one of them.
-/

namespace CompactionLeasing.Toml

/-! ### Numbers -/

namespace Scalar
variable {cs : List Char}

/-- A row of digits. -/
def IsDigits (cs : List Char) : Prop := ∀ c ∈ cs, c.isDigit = true

theorem isDigits_decimal (n : Nat) : IsDigits (Text.decimal n) := fun _ => Text.isDigit_of_mem_decimal

theorem IsDigits.not_mem {c : Char} (h : IsDigits cs) (hc : c.isDigit = false) : c ∉ cs :=
  fun hm => by simp [h c hm] at hc

theorem IsDigits.digits? (h : IsDigits cs) (hne : cs ≠ []) : digits? Char.isDigit cs = some cs := by
  induction cs with
  | nil => exact absurd rfl hne
  | cons c cs ih =>
    obtain ⟨hc, hcs⟩ := List.forall_mem_cons.1 h
    cases cs with
    | nil => rw [Scalar.digits?, if_pos hc]
    | cons d cs =>
      have hd : d ≠ '_' := fun e => absurd (hcs d (List.mem_cons_self ..)) (by rw [e]; decide)
      rw [Scalar.digits?, if_pos hc, ih hcs nofun]
      · rfl
      · exact nofun
      · rintro r ⟨⟩
        exact hd rfl

theorem IsDigits.isMoment (h : IsDigits cs) : isMoment cs = false := by
  have hdate : date? cs = none := by
    unfold date?
    split
    · exact absurd (by simp) (h.not_mem (c := '-') (by decide))
    · rfl
  have htime : time? cs = none := by
    unfold time?
    split
    · exact absurd (by simp) (h.not_mem (c := ':') (by decide))
    · rfl
  rw [Scalar.isMoment, hdate]
  simp [htime]

theorem IsDigits.sign (h : IsDigits cs) : sign cs = (false, cs) := by
  unfold Scalar.sign
  split
  · exact absurd (by simp) (h.not_mem (c := '-') (by decide))
  · exact absurd (by simp) (h.not_mem (c := '+') (by decide))
  · rfl

theorem IsDigits.integer? (h : IsDigits cs) : integer? cs = decimal? cs := by
  unfold Scalar.integer?
  split
  · exact absurd (by simp) (h.not_mem (c := 'x') (by decide))
  · exact absurd (by simp) (h.not_mem (c := 'o') (by decide))
  · exact absurd (by simp) (h.not_mem (c := 'b') (by decide))
  · rfl

theorem decimal?_decimal (n : Nat) : decimal? (Text.decimal n) = ofInt? n := by
  have h := isDigits_decimal n
  rw [decimal?, h.sign]
  simp only [whole?, h.digits? (Text.decimal_ne_nil n), if_neg (Text.not_leadingZero_decimal n),
    Text.digitsFrom?_decimal]
  rfl

/-- A written number reads back, if it fits. -/
theorem ofChars?_decimal {n : Nat} (hn : n < 0x8000000000000000) : ofChars? (Text.decimal n) = some (integer n) := by
  have h := isDigits_decimal n
  have hword : ∀ c cs, c.isDigit = false → Text.decimal n ≠ c :: cs := fun c cs hc e =>
    h.not_mem hc (e ▸ List.mem_cons_self ..)
  have hspecial : isSpecial (Text.decimal n) = false := by
    simp [isSpecial, h.sign, hword]
  have hfits : ofInt? n = some (integer n) := if_pos ⟨by omega, by omega⟩
  rw [ofChars?, if_neg (hword _ _ (by decide)), if_neg (hword _ _ (by decide)), h.isMoment, hspecial, h.integer?,
    decimal?_decimal, hfits]
  rfl

end Scalar

/-! ### Tokens -/

namespace Reading
variable {ss : List Statement} {s : List Frame} {ts : List Token}

theorem run_cons (p : Reading) (t : Token) (ts : List Token) : p.run (t :: ts) = (p.step t).bind (·.run ts) := by
  rw [run]
  cases p.step t <;> rfl

theorem run_append (p : Reading) (ts ts' : List Token) : p.run (ts ++ ts') = (p.run ts).bind (·.run ts') := by
  induction ts generalizing p with
  | nil => rfl
  | cons t ts ih =>
    rw [List.cons_append, run_cons, run_cons]
    cases p.step t with
    | none => rfl
    | some p => exact ih p

/-- A name that can be a key without quotes. -/
def IsBare (name : String) : Prop := name.toList ≠ [] ∧ name.toList.all fun c => c.isAlphanum || c = '-' || c = '_'

instance (name : String) : Decidable (IsBare name) := by unfold IsBare; infer_instance

theorem IsBare.isWordChar {name : String} (h : IsBare name) : ∀ c ∈ name.toList, Token.isWordChar c = true := by
  intro c hc
  have hbare := List.all_eq_true.1 h.2 c hc
  simp only [Bool.or_eq_true, decide_eq_true_eq] at hbare
  rcases hbare with (hletter | rfl) | rfl
  · simp [Token.isWordChar, hletter]
  · decide
  · decide

theorem part?_word {name : String} (h : IsBare name) : part? (.word name.toList) = some name := by
  rw [part?, if_pos h.2, String.ofList_toList]

theorem run_key {name : String} (h : IsBare name) (ss : List Statement) :
    run ⟨ss, [], .statement⟩ [.word name.toList, .gap [' '], .equals, .gap [' ']] =
      some ⟨ss, [.statement [name]], .value⟩ := by
  have hpart : run ⟨ss, [], .statement⟩ [.word name.toList] = some ⟨ss, [], .keyEnd .assign [name]⟩ := by
    simp only [run, step, readPart, part?_word h]
    rfl
  exact (run_append _ [_] _).trans (hpart ▸ rfl)

theorem run_number {n : Nat} (hn : n < 0x8000000000000000) (ss : List Statement) (key : Key) :
    run ⟨ss, [.statement key], .value⟩ [.word (Text.decimal n), .newline] =
      some ⟨.assign key (.scalar (.integer n)) :: ss, [], .statement⟩ := by
  let p : Reading := ⟨ss, [.statement key], .scalar (Text.decimal n)⟩
  have hstep : p.step .newline = p.endScalar (Text.decimal n) .newline := by simp [p, step]
  have hend : p.endScalar (Text.decimal n) .newline =
      some ⟨.assign key (.scalar (.integer n)) :: ss, [], .statement⟩ := by
    rw [endScalar, Scalar.ofChars?_decimal hn]
    rfl
  refine (run_cons p .newline []).trans ?_
  rw [hstep, hend]
  rfl

/-- Items of an array, each on a line of its own. -/
theorem run_items (items : List String) (blanks : List Char) (ss : List Statement) (vs : List Value)
    (s : List Frame) :
    run ⟨ss, .array vs :: s, .item⟩ (items.flatMap fun t => [.gap blanks, .quoted t.toList, .comma, .newline]) =
      some ⟨ss, .array ((items.map .text).reverse ++ vs) :: s, .item⟩ := by
  induction items generalizing vs with
  | nil => rfl
  | cons t items ih =>
    have hitem : run ⟨ss, .array vs :: s, .item⟩ [.gap blanks, .quoted t.toList, .comma, .newline] =
        some ⟨ss, .array (.text t :: vs) :: s, .item⟩ := by
      show some (⟨ss, .array (.text (.ofList t.toList) :: vs) :: s, .item⟩ : Reading) = _
      rw [String.ofList_toList]
    rw [List.flatMap_cons, run_append, hitem]
    refine (ih (.text t :: vs)).trans ?_
    rw [List.map_cons, List.reverse_cons, List.append_assoc, List.singleton_append]

theorem run_array (items : List String) (blanks : List Char) (ss : List Statement) (key : Key) :
    run ⟨ss, [.statement key], .value⟩ (.openBracket :: .newline ::
      ((items.flatMap fun t => [.gap blanks, .quoted t.toList, .comma, .newline]) ++ [.closeBracket, .newline])) =
      some ⟨.assign key (.array (items.map .text)) :: ss, [], .statement⟩ := by
  refine (run_append ⟨ss, [.array [], .statement key], .item⟩ _ _).trans ?_
  rw [run_items]
  show some (⟨.assign key (.array ((items.map Value.text).reverse ++ []).reverse) :: ss, [], .statement⟩ : Reading) =
    _
  rw [List.append_nil, List.reverse_reverse]

/-- The tokens of whole lines are read as the statements. -/
def Yields (ts : List Token) (statements : List Statement) : Prop :=
  ∀ ss, run ⟨ss, [], .statement⟩ ts = some ⟨statements.reverse ++ ss, [], .statement⟩

namespace Yields

theorem nil : Yields [] [] := fun _ => rfl

theorem newline : Yields [.newline] [] := fun _ => rfl

theorem append {ts ts' : List Token} {statements statements' : List Statement} (h : Yields ts statements)
    (h' : Yields ts' statements') : Yields (ts ++ ts') (statements ++ statements') := by
  intro ss
  rw [run_append, h ss, List.reverse_append, List.append_assoc]
  exact h' _

theorem flatMap {α : Type} {f : α → List Token} {g : α → List Statement} {l : List α}
    (h : ∀ a ∈ l, Yields (f a) (g a)) : Yields (l.flatMap f) (l.flatMap g) := by
  induction l with
  | nil => exact nil
  | cons a l ih =>
    obtain ⟨ha, hl⟩ := List.forall_mem_cons.1 h
    exact ha.append (ih hl)

theorem intercalate {α : Type} {f : α → List Token} {g : α → List Statement} :
    ∀ {l : List α}, (∀ a ∈ l, Yields (f a) (g a)) →
      Yields (List.intercalate [.newline] (l.map f)) (l.flatMap g)
  | [], _ => nil
  | [a], h => by
    rw [List.map_singleton, List.intercalate_singleton, List.flatMap_singleton]
    exact h a (List.mem_singleton_self a)
  | a :: b :: l, h => by
    obtain ⟨ha, hl⟩ := List.forall_mem_cons.1 h
    rw [List.map_cons, List.map_cons, List.intercalate_cons_cons, List.flatMap_cons, List.append_assoc]
    exact ha.append (newline.append (intercalate hl))

theorem table {name : String} (h : IsBare name) :
    Yields [.openBracket, .word name.toList, .closeBracket, .newline] [.table [name]] := by
  intro ss
  have hpart : run ⟨ss, [], .header⟩ [.word name.toList] = some ⟨ss, [], .keyEnd .table [name]⟩ := by
    simp only [run, step, readPart, part?_word h]
    rfl
  exact (run_append ⟨ss, [], .header⟩ [_] _).trans (hpart ▸ rfl)

/-- An assignment on a line of its own. -/
theorem assign {name : String} {ts : List Token} {v : Value} (h : IsBare name)
    (hv : ∀ ss key, run ⟨ss, [.statement key], .value⟩ (ts ++ [.newline]) =
      some ⟨.assign key v :: ss, [], .statement⟩) :
    Yields (.word name.toList :: .gap [' '] :: .equals :: .gap [' '] :: (ts ++ [.newline])) [.assign [name] v] := by
  intro ss
  refine (run_append _ [.word name.toList, .gap [' '], .equals, .gap [' ']] _).trans ?_
  rw [run_key h]
  exact hv ss [name]

theorem ofTokens?_eq {ts : List Token} {statements : List Statement} (h : Yields ts statements) :
    Statement.ofTokens? ts = some statements := by
  have hrun := h.append newline []
  rw [List.append_nil, List.append_nil] at hrun
  rw [Statement.ofTokens?, hrun]
  exact congrArg some (List.reverse_reverse _)

end Yields

end Reading

/-! ### Tables -/

namespace Fields
variable {fs : Fields} {name : String} {v w : Value}

def names (fs : Fields) : List String := fs.map Prod.fst

theorem get?_of_notMem (h : name ∉ fs.names) : fs.get? name = none := by
  rw [get?, List.lookup_eq_none_iff]
  intro p hp
  rw [bne_iff_ne]
  rintro rfl
  exact h (List.mem_map_of_mem hp)

theorem get?_append_self (h : name ∉ fs.names) : get? (fs ++ [(name, v)]) name = some v := by
  have hnone : fs.lookup name = none := get?_of_notMem h
  rw [get?, List.lookup_append, hnone]
  exact List.lookup_cons_self ..

theorem set_of_notMem (h : name ∉ fs.names) : fs.set name v = fs ++ [(name, v)] := by
  induction fs with
  | nil => rfl
  | cons f fs ih =>
    obtain ⟨hne, hfs⟩ := List.ne_and_not_mem_of_not_mem_cons h
    rw [set, if_neg (Ne.symm hne), ih hfs]
    rfl

theorem set_append_self (h : name ∉ fs.names) : set name w (fs ++ [(name, v)]) = fs ++ [(name, w)] := by
  induction fs with
  | nil => exact if_pos rfl
  | cons f fs ih =>
    obtain ⟨hne, hfs⟩ := List.ne_and_not_mem_of_not_mem_cons h
    rw [List.cons_append, set, if_neg (Ne.symm hne), ih hfs]
    rfl

theorem declare?_of_notMem (h : name ∉ fs.names) :
    fs.declare? [name] = some (fs ++ [(name, .table .declared [])]) := by
  simp only [declare?, List.getLast?_singleton, List.dropLast_singleton, alter, get?_of_notMem h, set_of_notMem h]

theorem assign?_of_notMem (h : name ∉ fs.names) : fs.assign? [name] v = some (fs ++ [(name, v)]) := by
  simp only [assign?, List.getLast?_singleton, List.dropLast_singleton, alter, List.length_singleton, true_or,
    if_true, add?, get?_of_notMem h, set_of_notMem h, Option.isSome_none, Bool.false_eq_true, if_false]

/-- A value is added to the table that was declared last. -/
theorem assignIn?_append {t : String} {c : Fields} (ht : t ∉ fs.names) (h : name ∉ c.names) :
    assignIn? [t] [name] v (fs ++ [(t, .table .declared c)]) =
      some (fs ++ [(t, .table .declared (c ++ [(name, v)]))]) := by
  simp only [assignIn?, alter, get?_append_self ht, assign?_of_notMem h, Option.map_some, set_append_self ht]
  rfl

end Fields

namespace Document

theorem notMem_of_nodup {names names' : List String} {name : String} (h : (names ++ name :: names').Nodup) :
    name ∉ names :=
  fun hm => (List.nodup_cons.1 (List.nodup_middle.1 h)).1 (List.mem_append_left _ hm)

/-- The statements that make a table. -/
def statementsOf (t : String × Fields) : List Statement := .table [t.1] :: t.2.map fun f => .assign [f.1] f.2

/-- A document of declared tables. -/
def ofTables (tables : List (String × Fields)) : Fields := tables.map fun t => (t.1, .table .declared t.2)

theorem foldlM_assign {fs c : Fields} {t : String} (fields : Fields) (ht : t ∉ fs.names)
    (h : (c.names ++ fields.names).Nodup) :
    (fields.map fun f => Statement.assign [f.1] f.2).foldlM execute? ⟨fs ++ [(t, .table .declared c)], [t]⟩ =
      some ⟨fs ++ [(t, .table .declared (c ++ fields))], [t]⟩ := by
  induction fields generalizing c with
  | nil => rw [List.append_nil]; rfl
  | cons f fields ih =>
    have hf := notMem_of_nodup h
    have hrest := ih (c := c ++ [f]) (by simpa [Fields.names] using h)
    rw [List.map_cons, List.foldlM_cons, execute?, Fields.assignIn?_append ht hf]
    rwa [List.append_assoc] at hrest

theorem foldlM_statementsOf (tables : List (String × Fields)) (hfields : ∀ t ∈ tables, t.2.names.Nodup) (fs : Fields)
    (header : Key) (h : (fs.names ++ tables.map Prod.fst).Nodup) :
    ∃ header', (tables.flatMap statementsOf).foldlM execute? ⟨fs, header⟩ =
      some ⟨fs ++ ofTables tables, header'⟩ := by
  induction tables generalizing fs header with
  | nil => exact ⟨header, by rw [ofTables, List.map_nil, List.append_nil]; rfl⟩
  | cons t tables ih =>
    obtain ⟨ht, htables⟩ := List.forall_mem_cons.1 hfields
    have hnew := notMem_of_nodup h
    obtain ⟨header', hrest⟩ := ih htables (fs ++ [(t.1, .table .declared t.2)]) [t.1]
      (by simpa [Fields.names] using h)
    refine ⟨header', ?_⟩
    rw [List.flatMap_cons, statementsOf, List.foldlM_append, List.foldlM_cons, execute?,
      Fields.declare?_of_notMem hnew]
    have hassign := foldlM_assign (c := []) t.2 hnew ht
    rw [List.append_assoc] at hrest
    exact (congrArg (· >>= _) hassign).trans hrest

theorem ofStatements?_statementsOf {tables : List (String × Fields)} (h : (tables.map Prod.fst).Nodup)
    (hfields : ∀ t ∈ tables, t.2.names.Nodup) :
    (ofStatements? (tables.flatMap statementsOf)).map fields = some (ofTables tables) := by
  obtain ⟨header, hrun⟩ := foldlM_statementsOf tables hfields [] [] h
  rw [ofStatements?, hrun]
  rfl

end Document

end CompactionLeasing.Toml
