import CompactionLeasing.Proofs.Toml.Reading
import CompactionLeasing.Settings.Reader
import CompactionLeasing.Settings.Writer

/-!
# Settings read back

`write_iff`: which settings can be written, and that those which are written read back.
-/

namespace CompactionLeasing

open Toml

namespace Settings

/-! ### Values -/

namespace Written

def blanks : List Char := "    ".toList

/-- The tokens that a written value is read as. -/
def tokens : Written → List Token
  | text s => [.quoted s.toList]
  | number n => [.word (Text.decimal n)]
  | texts [] => [.openBracket, .closeBracket]
  | texts [s] => [.openBracket, .quoted s.toList, .closeBracket]
  | texts ss =>
    .openBracket :: .newline :: (ss.flatMap fun s => [.gap blanks, .quoted s.toList, .comma, .newline]) ++
      [.closeBracket]

def value : Written → Value
  | text s => .text s
  | number n => .scalar (.integer n)
  | texts ss => .array (ss.map .text)

/-- Whether TOML can hold the value. -/
def fits : Written → Prop
  | number n => n < 0x8000000000000000
  | _ => True

theorem isWordChar_of_isDigit {c : Char} (h : c.isDigit = true) : Token.isWordChar c = true := by
  simp [Token.isWordChar, Char.isAlphanum, h]

theorem isBlank_of_isDigit {c : Char} (h : c.isDigit = true) : isBlank c = false := by
  refine Bool.eq_false_iff.2 fun hb => ?_
  have hc : c = ' ' ∨ c = '\t' := by simpa [isBlank] using hb
  rcases hc with rfl | rfl <;> exact absurd h (by decide)

/-- A written string does not begin with a blank. -/
theorem head?_quote (s : String) (r : List Char) : ∃ c ∈ (quote s ++ r).head?, isBlank c = false := by
  obtain ⟨c, hc, hq⟩ := Token.head?_quote s.toList r
  refine ⟨c, hc, ?_⟩
  rcases hq with rfl | rfl <;> decide

theorem head?_render (v : Written) (r : List Char) : ∃ c ∈ (v.render ++ r).head?, isBlank c = false := by
  match v with
  | text s => exact head?_quote s r
  | number n =>
    obtain ⟨c, cs, hc⟩ := List.exists_cons_of_ne_nil (Text.decimal_ne_nil n)
    refine ⟨c, by rw [render, hc]; rfl, isBlank_of_isDigit (Text.isDigit_of_mem_decimal (n := n) ?_)⟩
    rw [hc]
    exact List.mem_cons_self ..
  | texts [] | texts [s] | texts (s :: s' :: ss) => exact ⟨_, rfl, by decide⟩

theorem lexes_line (v : Written) : Token.Lexes (v.render ++ ['\n']) (v.tokens ++ [.newline]) := by
  have hend : Token.Lexes ['\n'] [.newline] := .mark rfl .nil
  match v with
  | text s => exact .quote s.toList ⟨_, rfl, by decide, by decide⟩ hend
  | number n =>
    exact .word (fun c hc => isWordChar_of_isDigit (Text.isDigit_of_mem_decimal hc)) (Text.decimal_ne_nil n)
      ⟨_, rfl, by decide⟩ hend
  | texts [] => exact .mark rfl (.mark rfl hend)
  | texts [s] =>
    rw [render, List.append_assoc]
    exact .mark rfl (.quote s.toList ⟨_, rfl, by decide, by decide⟩ (.mark rfl hend))
  | texts (s :: s' :: ss) =>
    have hitem (s : String) : Token.Lexes ("    ".toList ++ quote s ++ [',', '\n'])
        [.gap blanks, .quoted s.toList, .comma, .newline] := by
      rw [List.append_assoc]
      exact .gap (List.all_eq_true.1 (by decide)) (by decide) (head?_quote s _)
        (.quote s.toList ⟨_, rfl, by decide, by decide⟩ (.mark rfl (.mark rfl .nil)))
    rw [render, tokens, List.append_assoc, List.append_assoc]
    · exact .mark rfl (.mark rfl ((Token.Lexes.flatMap fun s _ => hitem s).append (.mark rfl hend)))
    all_goals simp

theorem run_tokens {v : Written} (h : v.fits) (ss : List Statement) (key : Key) :
    Reading.run ⟨ss, [.statement key], .value⟩ (v.tokens ++ [.newline]) =
      some ⟨.assign key v.value :: ss, [], .statement⟩ := by
  match v, h with
  | text s, _ =>
    show some (⟨.assign key (.text (.ofList s.toList)) :: ss, [], .statement⟩ : Reading) = _
    rw [String.ofList_toList]
    rfl
  | number n, h => exact Reading.run_number h ss key
  | texts [], _ => rfl
  | texts [s], _ =>
    show some (⟨.assign key (.array [.text (.ofList s.toList)]) :: ss, [], .statement⟩ : Reading) = _
    rw [String.ofList_toList]
    rfl
  | texts (s :: s' :: ts), _ =>
    rw [tokens, List.append_assoc]
    · exact Reading.run_array (s :: s' :: ts) blanks ss key
    all_goals simp

end Written

/-! ### Tables -/

def fieldTokens (f : String × Written) : List Token :=
  .word f.1.toList :: .gap [' '] :: .equals :: .gap [' '] :: (f.2.tokens ++ [.newline])

theorem lexes_field {f : String × Written} (h : Reading.IsBare f.1) :
    Token.Lexes (renderField f) (fieldTokens f) := by
  have hblank : ∀ c ∈ [' '], isBlank c = true := List.all_eq_true.1 (by decide)
  have hvalue := Token.Lexes.gap hblank nofun (f.2.head?_render _) f.2.lexes_line
  rw [renderField, List.append_assoc, List.append_assoc]
  exact .word h.isWordChar h.1 ⟨_, rfl, by decide⟩ (.gap hblank nofun ⟨_, rfl, by decide⟩ (.mark rfl hvalue))

namespace WrittenTable
variable {t : WrittenTable} {tables : List WrittenTable}

def tokens (t : WrittenTable) : List Token :=
  .openBracket :: .word t.name.toList :: .closeBracket :: .newline :: t.fields.flatMap fieldTokens

/-- The name and the fields that the table is read as. -/
def content (t : WrittenTable) : String × Fields := (t.name, t.fields.map fun f => (f.1, f.2.value))

/-- Whether the table is written in a way that reads back. -/
structure Reads (t : WrittenTable) : Prop where
  name : Reading.IsBare t.name
  names : ∀ n ∈ t.fields.map Prod.fst, Reading.IsBare n
  distinct : (t.fields.map Prod.fst).Nodup
  fits : ∀ f ∈ t.fields, f.2.fits

namespace Reads

theorem lexes (h : t.Reads) : Token.Lexes (renderTable t) t.tokens := by
  have hfields := Token.Lexes.flatMap fun f hf => lexes_field (h.names _ (List.mem_map_of_mem hf))
  rw [renderTable, List.append_assoc]
  exact .mark rfl (.word h.name.isWordChar h.name.1 ⟨_, rfl, by decide⟩ (.mark rfl (.mark rfl hfields)))

theorem yields (h : t.Reads) : Reading.Yields t.tokens (Document.statementsOf t.content) := by
  have hfields := Reading.Yields.flatMap (g := fun f => [Statement.assign [f.1] f.2.value]) fun f hf =>
    Reading.Yields.assign (h.names _ (List.mem_map_of_mem hf)) (Written.run_tokens (h.fits f hf))
  have htable := (Reading.Yields.table h.name).append hfields
  rw [← List.map_eq_flatMap] at htable
  rw [Document.statementsOf, content, List.map_map]
  exact htable

end Reads

/-- Written tables are read back. -/
theorem ofText?_render (h : ∀ t ∈ tables, t.Reads) (hnames : (tables.map name).Nodup) :
    Document.ofText? (String.ofList (List.intercalate ['\n'] (tables.map renderTable))) =
      some (Document.ofTables (tables.map content)) := by
  have hmark : Document.dropMark (List.intercalate ['\n'] (tables.map renderTable)) =
      List.intercalate ['\n'] (tables.map renderTable) := by
    match tables with
    | [] | [_] | _ :: _ :: _ => rfl
  have hlexes := Token.Lexes.intercalate fun t ht => (h t ht).lexes
  have hyields := Reading.Yields.intercalate fun t ht => (h t ht).yields
  rw [Document.ofText?, String.toList_ofList, hmark, hlexes.ofChars?_eq]
  simp only [hyields.ofTokens?_eq]
  rw [← List.flatMap_map content Document.statementsOf]
  refine Document.ofStatements?_statementsOf ?_ fun c hc => ?_
  · rw [List.map_map]
    exact hnames
  · obtain ⟨t, ht, rfl⟩ := List.mem_map.1 hc
    rw [Fields.names, content, List.map_map]
    exact (h t ht).distinct

end WrittenTable

/-! ### Sections -/

section Sections

open Readable (text? texts? natural?)

variable {fs : Fields} {name : String}

theorem field?_of_get? {α : Type} {v : Value} {read : Value → Option α}
    (h : fs.get? name = some v) (default : α) : field? fs name default read = read v := by
  rw [field?, h]

theorem field?_text {s : String} (h : fs.get? name = some (.text s)) (default : String) :
    field? fs name default text? = some s :=
  field?_of_get? h default

theorem field?_number {α : Type} {bound n : Nat} (h : fs.get? name = some (.scalar (.integer n))) (hn : n < bound)
    (mk : Nat → α) (default : α) : field? fs name default (fun v => mk <$> natural? bound v) = some (mk n) := by
  have hread : natural? bound (Value.scalar (.integer n)) = some n := Readable.natural?_eq rfl hn
  rw [field?_of_get? h, hread]
  rfl

theorem field?_texts {ss : List String} (h : fs.get? name = some (.array (ss.map .text))) (default : List String) :
    field? fs name default texts? = some ss :=
  (field?_of_get? h default).trans (Readable.texts?_eq (fun _ => rfl) rfl)

theorem scheduling?_of_get? {d : SchedulingSettings}
    (hl : fs.get? "lease_duration" = some (.text d.leaseSpan))
    (hi : fs.get? "planning_interval" = some (.text d.planInterval))
    (hd : fs.get? "compaction_wait_period" = some (.text d.planDelay))
    (hm : fs.get? "maintenance_interval" = some (.text d.maintenanceInterval))
    (hn : fs.get? "max_leases" = some (.scalar (.integer d.maxLeases.toNat))) :
    scheduling? (.table .declared fs) = some d := by
  simp only [scheduling?, section?, Option.bind_eq_bind, Option.bind_some]
  rw [field?_text hl, field?_text hi, field?_text hd, field?_text hm, field?_number hn d.maxLeases.toNat_lt_size,
    UInt64.ofNat_toNat]
  rfl

theorem discovery?_of_get? {d : DiscoverySettings} (hb : fs.get? "bucket_dir" = d.bucket.map .text)
    (hi : fs.get? "interval" = some (.text d.interval))
    (hs : fs.get? "min_backoff" = some (.text d.shortestBackoff))
    (hl : fs.get? "max_backoff" = some (.text d.longestBackoff))
    (hr : fs.get? "max_retries" = some (.scalar (.integer d.maxRetries.toNat)))
    (he : fs.get? "enabled_tenants" = some (.array (d.enabled.map .text)))
    (hd : fs.get? "disabled_tenants" = some (.array (d.disabled.map .text))) :
    discovery? (.table .declared fs) = some d := by
  have hbucket : field? fs "bucket_dir" none (fun v => (text? v).map some) = some d.bucket := by
    rw [field?, hb]
    cases d.bucket <;> rfl
  simp only [discovery?, section?, Option.bind_eq_bind, Option.bind_some]
  rw [hbucket, field?_text hi, field?_text hs, field?_text hl, field?_number hr d.maxRetries.toNat_lt_size,
    UInt32.ofNat_toNat, field?_texts he, field?_texts hd]
  rfl

theorem storage?_of_get? {d : StorageSettings} (h : fs.get? "data_dir" = some (.text d.dataDir)) :
    storage? (.table .declared fs) = some d := by
  simp only [storage?, section?, Option.bind_eq_bind, Option.bind_some]
  rw [field?_text h]
  rfl

end Sections

/-! ### Settings -/

def sectionNames : List String := ["scheduler", "discovery", "storage"]

def fieldNames : List (List String) := [schedulingNames, discoveryNames, storageNames]

theorem wellNamed : (sectionNames.Nodup ∧ ∀ n ∈ sectionNames, Reading.IsBare n) ∧
    ∀ names ∈ fieldNames, names.Nodup ∧ ∀ n ∈ names, Reading.IsBare n := by decide

theorem names_tables (s : Settings) : s.tables.map WrittenTable.name = sectionNames := rfl

/-- Written fields have names that are read. -/
theorem names_fields (s : Settings) :
    ∀ t ∈ s.tables, ∃ names ∈ fieldNames, (t.fields.map Prod.fst).Sublist names := by
  simp only [tables, List.forall_mem_cons]
  refine ⟨⟨schedulingNames, by decide, .refl _⟩, ⟨discoveryNames, by decide, ?_⟩,
    ⟨storageNames, by decide, .refl _⟩, nofun⟩
  cases s.discovery.bucket with
  | none => exact List.tail_sublist discoveryNames
  | some b => exact .refl discoveryNames

theorem fits_fields {s : Settings} (h : s.scheduling.maxLeases.toNat < 0x8000000000000000) :
    ∀ t ∈ s.tables, ∀ f ∈ t.fields, f.2.fits := by
  have hretries : s.discovery.maxRetries.toNat < 0x8000000000000000 :=
    Nat.lt_trans s.discovery.maxRetries.toNat_lt (by decide)
  simp only [tables, List.forall_mem_cons, List.forall_mem_append]
  refine ⟨⟨trivial, trivial, trivial, trivial, h, nofun⟩,
    ⟨?_, trivial, trivial, trivial, hretries, trivial, trivial, nofun⟩, ⟨trivial, nofun⟩, nofun⟩
  cases s.discovery.bucket with
  | none => exact nofun
  | some b => exact List.forall_mem_singleton.2 trivial

theorem reads_tables {s : Settings} (h : s.scheduling.maxLeases.toNat < 0x8000000000000000) :
    ∀ t ∈ s.tables, t.Reads := by
  intro t ht
  obtain ⟨names, hmem, hsub⟩ := s.names_fields t ht
  obtain ⟨hnodup, hnames⟩ := wellNamed.2 names hmem
  exact {
    name := wellNamed.1.2 _ (s.names_tables ▸ List.mem_map_of_mem ht)
    names := fun n hn => hnames n (hsub.subset hn)
    distinct := hsub.nodup hnodup
    fits := fits_fields h t ht }

/-- The fields of settings mean these settings. -/
theorem ofFields?_tables (s : Settings) :
    ofFields? (Document.ofTables (s.tables.map WrittenTable.content)) = some s := by
  let fs := Document.ofTables (s.tables.map WrittenTable.content)
  have hscheduling : field? fs "scheduler" {} scheduling? = some s.scheduling :=
    (field?_of_get? rfl _).trans (scheduling?_of_get? rfl rfl rfl rfl rfl)
  have hdiscovery : field? fs "discovery" {} discovery? = some s.discovery := by
    refine (field?_of_get? rfl _).trans (discovery?_of_get? ?_ ?_ ?_ ?_ ?_ ?_ ?_) <;> cases s.discovery.bucket <;> rfl
  have hstorage : field? fs "storage" {} storage? = some s.storage :=
    (field?_of_get? rfl _).trans (storage?_of_get? rfl)
  show ofFields? fs = _
  simp only [ofFields?, hscheduling, hdiscovery, hstorage, Option.bind_eq_bind, Option.bind_some]
  rfl

/-- Text that is rendered reads back. -/
theorem ofText?_render {s : Settings} (h : s.scheduling.maxLeases.toNat < 0x8000000000000000) :
    ofText? s.render = some s := by
  have hnames : (s.tables.map WrittenTable.name).Nodup := wellNamed.1.1
  rw [ofText?, render, WrittenTable.ofText?_render (reads_tables h) hnames, Option.bind_some, ofFields?_tables]

/-- Whether no string in the settings has 256 quotes of a kind in a row. -/
def FewQuotes (s : Settings) : Prop :=
  ∀ t ∈ s.strings, ∀ q ∈ ['\'', '"'], ¬ List.replicate UInt8.size q <:+: t.toList

theorem all_isCountable_iff {s : Settings} : (s.strings.all fun t => isCountable t.toList) = true ↔ s.FewQuotes := by
  rw [List.all_eq_true]
  exact forall₂_congr fun t _ => isCountable_iff

/-- Settings are written and read back, unless the limit on leases is too large for TOML or a string has too many
quotes in a row. -/
theorem write_iff (s : Settings) :
    ((∃ text, s.write = .ok text ∧ ofText? text = some s) ↔
      s.scheduling.maxLeases.toNat < 0x8000000000000000 ∧ s.FewQuotes) ∧
    (s.write = .error .leaseLimit ↔ 0x8000000000000000 ≤ s.scheduling.maxLeases.toNat) ∧
    (s.write = .error .quoteRun ↔ s.scheduling.maxLeases.toNat < 0x8000000000000000 ∧ ¬ s.FewQuotes) := by
  rw [← all_isCountable_iff, write]
  split_ifs with hlimit hquotes
  · simp [Nat.not_lt_of_le hlimit, hlimit]
  · rw [Bool.not_eq_true'] at hquotes
    simp [hlimit, Nat.lt_of_not_le hlimit, hquotes]
  · have hlt := Nat.lt_of_not_le hlimit
    rw [Bool.not_eq_true', Bool.not_eq_false] at hquotes
    simp [hlimit, hlt, hquotes, ofText?_render hlt]

/-- A name of 256 quotes cannot be written. -/
theorem quotes_unwritable :
    let s : Settings := { storage := { dataDir := .ofList (.replicate 256 '\'') } }
    s.scheduling.maxLeases.toNat < 0x8000000000000000 ∧ s.write = .error .quoteRun ∧
      ¬ ∃ text, s.write = .ok text ∧ ofText? text = some s := by
  intro s
  have hmany : ¬ s.FewQuotes := fun h => by
    have hmem : s.storage.dataDir ∈ s.strings := by simp [strings, tables, Written.strings]
    have hname : s.storage.dataDir.toList = List.replicate 256 '\'' := String.toList_ofList
    exact h _ hmem '\'' (by decide) (hname ▸ List.infix_rfl)
  have hwrite : s.write = .error .quoteRun := by
    rw [← all_isCountable_iff, Bool.not_eq_true, ← Bool.not_eq_true'] at hmany
    rw [write, if_neg (by decide), if_pos hmany]
  refine ⟨by decide, hwrite, ?_⟩
  rintro ⟨text, htext, -⟩
  rw [hwrite] at htext
  cases htext

end Settings

end CompactionLeasing
