import Mac1.Memory
import Mac1.Proofs.Outcome
import Mac1.Proofs.Source

/-!
The words in a text. The lines of a listing hold the words of its program, in order. No line of a
report holds a word, whatever part of the source the report quotes.
-/
namespace Mac1

theorem Word.solid_binary (w : Word) : Text.Solid w.binary := by
  refine .of_forall fun c hc => ?_
  obtain ⟨b, rfl⟩ := exists_bit (isBinaryDigit_of_mem_binary hc)
  cases b <;> decide

theorem Word.slash_notMem_binary (w : Word) : '/' ∉ w.binary :=
  fun hmem => absurd (isBinaryDigit_of_mem_binary hmem) (by decide)

/-- A field that starts with neither a blank nor a binary digit is refused. -/
theorem Word.ofBinary?_trim_cons {c : Char} (hb : isBlank c = false)
    (hd : isBinaryDigit c = false) (t : Text) : ofBinary? (Text.trim (c :: t)) = none := by
  obtain ⟨u, hu⟩ := Text.trim_cons_of_solid c t hb
  rw [hu]
  exact if_neg (by simp [hd])

/-- The lines that are passed over at once would be refused for their digits. -/
theorem machineWord?_eq (line : Text) :
    machineWord? line = Word.ofBinary? (Text.trim (line.takeWhile (· ≠ '/'))) := by
  unfold machineWord?
  split
  case isFalse => rfl
  case isTrue h =>
    simp only [Bool.or_eq_true, List.isEmpty_iff, decide_eq_true_eq,
      List.isPrefixOf_iff_prefix] at h
    symm
    rcases h with (rfl | hslash) | ⟨rest, rfl⟩
    · rfl
    · obtain ⟨rest, rfl⟩ := List.head?_eq_some_iff.1 hslash
      rfl
    · exact Word.ofBinary?_trim_cons (by decide) (by decide) _

theorem machineWord?_binary_append (w : Word) (rest : Text) :
    machineWord? (w.binary ++ ' ' :: '/' :: rest) = some w := by
  have hslash : '/' ∉ w.binary ++ [' '] := by simp [w.slash_notMem_binary]
  have hline : w.binary ++ ' ' :: '/' :: rest = w.binary ++ [' '] ++ '/' :: rest := by simp
  have htrim : Text.trim (w.binary ++ [' ']) = w.binary := by
    simpa using
      w.solid_binary.trim_padded (b := []) (by simp) (List.forall_mem_singleton.2 (by decide))
  rw [machineWord?_eq, hline, Text.takeWhile_ne_append hslash, htrim, Word.ofBinary?_binary]

/-- A line that starts with neither a blank nor a binary digit holds no word. -/
theorem machineWord?_cons {c : Char} (hb : isBlank c = false) (hd : Word.isBinaryDigit c = false)
    (t : Text) : machineWord? (c :: t) = none := by
  rw [machineWord?_eq, List.takeWhile_cons]
  split
  · exact Word.ofBinary?_trim_cons hb hd _
  · rfl

/-- A carriage return at the end is a blank, or part of what is not read. -/
theorem machineWord?_dropReturn (line : Text) :
    machineWord? (Text.dropReturn line) = machineWord? line := by
  rw [Text.dropReturn]
  split
  case isFalse => rfl
  case isTrue h =>
    obtain ⟨line, rfl⟩ := List.getLast?_eq_some_iff.1 h
    rw [List.dropLast_concat, machineWord?_eq, machineWord?_eq]
    by_cases hslash : '/' ∈ line
    · obtain ⟨field, note, rfl, hnone⟩ : ∃ s t : Text, line = s ++ '/' :: t ∧ '/' ∉ s :=
        List.eq_append_cons_of_mem hslash
      rw [List.append_assoc, List.cons_append, Text.takeWhile_ne_append hnone,
        Text.takeWhile_ne_append hnone]
    · have hreturn : Text.Blanks ['\r'] := List.forall_mem_singleton.2 (by decide)
      have hpadded := Text.trim_padded (a := []) (by simp [Text.Blanks]) line hreturn
      rw [Text.takeWhile_ne_eq_self hslash, Text.takeWhile_ne_eq_self (by simp [hslash])]
      rw [← hpadded, List.nil_append]

/-- The words are those of the pieces between line feeds: neither a carriage return nor an empty
piece after the last line feed makes a difference. -/
theorem machineWords_eq (listing : Text) :
    machineWords listing = (listing.splitOn '\n').filterMap machineWord? := by
  have hreturn : machineWord? ∘ Text.dropReturn = machineWord? := funext machineWord?_dropReturn
  have hlast : ∀ last : Option Text,
      (last.toList.filter (· ≠ [])).filterMap machineWord? =
        last.toList.filterMap machineWord? := by
    intro last
    cases last with
    | none => rfl
    | some line => by_cases h : line = [] <;> simp [h]
  have hpieces : ∀ pieces : List Text, pieces.dropLast ++ pieces.getLast?.toList = pieces := by
    intro pieces
    rcases List.eq_nil_or_concat' pieces with rfl | ⟨pieces, last, rfl⟩ <;> simp
  rw [machineWords, Text.lines, List.filterMap_append, List.filterMap_map, hreturn, hlast,
    ← List.filterMap_append, hpieces]

theorem machineWords_append_newline (s t : Text) :
    machineWords (s ++ '\n' :: t) = machineWords s ++ machineWords t := by
  simp only [machineWords_eq, List.splitOn_append_cons_self, List.filterMap_append]

theorem machineWords_line {t : Text} (h : '\n' ∉ t) :
    machineWords t = (machineWord? t).toList := by
  rw [machineWords_eq, List.splitOn_eq_singleton h]
  cases hw : machineWord? t <;> simp [hw]

theorem Numeral.newline_notMem_decimal (n : Int) : '\n' ∉ decimal n := by
  intro h
  have := mem_decimal h
  revert this
  decide

theorem Instruction.newline_notMem_mnemonic (i : Instruction) : '\n' ∉ i.mnemonic :=
  fun h => absurd (isUpper_of_mem_mnemonic h) (by decide)

theorem Word.newline_notMem_binary (w : Word) : '\n' ∉ w.binary :=
  fun h => absurd (isBinaryDigit_of_mem_binary h) (by decide)

theorem Entry.newline_notMem_text {e : Entry} (h : ∀ t ∈ e.operand, '\n' ∉ t) : '\n' ∉ e.text := by
  have hw := e.word.newline_notMem_binary
  have hm := e.instruction.newline_notMem_mnemonic
  obtain ⟨i, w, operand, resolved, line⟩ := e
  cases operand with
  | none =>
    cases resolved with
    | none => simp_all [text]
    | some value => simp_all [text, Numeral.newline_notMem_decimal]
  | some operand =>
    cases resolved with
    | none => simp_all [text]
    | some value => simp_all [text, Numeral.newline_notMem_decimal]

theorem Entry.machineWords_text {e : Entry} (h : ∀ t ∈ e.operand, '\n' ∉ t) :
    machineWords e.text = [e.word] := by
  rw [machineWords_line (newline_notMem_text h)]
  have htext : ∃ rest, e.text = e.word.binary ++ ' ' :: '/' :: rest := by
    simp only [text, List.append_assoc]
    exact ⟨_, rfl⟩
  obtain ⟨rest, hrest⟩ := htext
  rw [hrest, machineWord?_binary_append]
  rfl

/-- A number or a part of the operation is shown as the operand. -/
theorem Operation.newline_notMem_of_encode {o : Operation} {symbols : SymbolTable} {line : Nat}
    {e : Entry} (ho : ∀ t ∈ o.operand, '\n' ∉ t.text) (h : o.encode symbols line = .ok e) :
    ∀ t ∈ e.operand, '\n' ∉ t := by
  obtain ⟨i, -, ⟨-, rfl⟩ | ⟨t, value, -, ht, -, rfl⟩⟩ := encode_ok h
  · simp [Entry.bare]
  · have htext := ho t ht
    unfold Entry.withOperand
    cases i.format <;> simp [Entry.bare, htext, Numeral.newline_notMem_decimal]

/-- An operand is a part of one line, so a listing line is one line. -/
theorem newline_notMem_operand {strict : Bool} {source : Text} {p : Program}
    (h : assemble strict source = .ok p) : ∀ e ∈ p.entries, ∀ t ∈ e.operand, '\n' ∉ t := by
  obtain ⟨-, he⟩ := passes_of_assemble h
  intro e hmem
  obtain ⟨l, hl, o, ho, henc⟩ := line_of_mem_entries he hmem
  exact Operation.newline_notMem_of_encode (Line.newline_notMem_operation hl ho).2 henc

/-- The listing of a program holds its code. -/
theorem machineWords_listing {strict : Bool} {source : Text} {p : Program}
    (h : assemble strict source = .ok p) : machineWords p.listing = p.code := by
  have hone := newline_notMem_operand h
  rw [Program.listing, Program.code]
  generalize p.entries = entries at hone
  induction entries with
  | nil => rfl
  | cons e entries ih =>
    rw [List.flatMap_cons, List.append_assoc, List.singleton_append, machineWords_append_newline,
      Entry.machineWords_text (hone e List.mem_cons_self),
      ih fun e' he' => hone e' (List.mem_cons_of_mem _ he')]
    rfl

/-- A listing has as many lines as its program has words. -/
theorem count_newline_listing {strict : Bool} {source : Text} {p : Program}
    (h : assemble strict source = .ok p) : p.listing.count '\n' = p.size := by
  have hone := newline_notMem_operand h
  rw [Program.listing, Program.size]
  generalize p.entries = entries at hone
  induction entries with
  | nil => rfl
  | cons e entries ih =>
    have hline : e.text.count '\n' = 0 :=
      List.count_eq_zero_of_not_mem (Entry.newline_notMem_text (hone e List.mem_cons_self))
    have hrest := ih fun e' he' => hone e' (List.mem_cons_of_mem _ he')
    rw [List.flatMap_cons, List.count_append, List.count_append, hline, hrest,
      List.count_singleton_self, List.length_cons]
    omega

/-- The part of the source that a message quotes. -/
def Fault.quote? : Fault → Option Text
  | duplicateLabel t | unknownMnemonic t | missingOperand t | invalidOperand t
  | undefinedSymbol t | operandOutOfRange t _ _ => some t
  | addressSpaceOverflow .. => none

theorem Fault.newline_notMem_message {f : Fault} (h : ∀ t ∈ f.quote?, '\n' ∉ t) :
    '\n' ∉ f.message := by
  delta message
  cases f <;> simp_all [quoted, quote?, Numeral.newline_notMem_decimal]

/-- Every message starts with a letter. -/
theorem Fault.head?_message (f : Fault) :
    ∃ c ∈ f.message.head?, isBlank c = false ∧ Word.isBinaryDigit c = false := by
  delta message
  cases f <;> simp only [String.reduceToList, List.cons_append, List.head?_cons, Option.mem_some,
    exists_eq_left'] <;> decide

theorem Operation.Fails.newline_notMem_quote {Declared : Text → Int → Prop} {o : Operation}
    {f : Fault} {u : Token} (hf : o.Fails Declared f u) (hm : '\n' ∉ o.mnemonic.text)
    (ho : ∀ t ∈ o.operand, '\n' ∉ t.text) : ∀ t ∈ f.quote?, '\n' ∉ t := by
  rintro t ht
  cases hf with
  | unknown => exact Option.mem_some.1 ht ▸ Text.newline_notMem_upper hm
  | @missing i => exact Option.mem_some.1 ht ▸ i.newline_notMem_mnemonic
  | invalid _ _ hu => exact Option.mem_some.1 ht ▸ ho _ hu
  | byteRange _ _ hu => exact Option.mem_some.1 ht ▸ ho _ hu
  | undefined _ _ hu => exact Option.mem_some.1 ht ▸ ho _ hu
  | addressRange _ _ hu => exact Option.mem_some.1 ht ▸ ho _ hu

theorem newline_notMem_quote_of_assemble {strict : Bool} {source : Text} {d : Diagnostic}
    (h : assemble strict source = .error d) : ∀ t ∈ d.fault.quote?, '\n' ∉ t := by
  rcases passes_of_assemble_error h with hfirst | ⟨symbols, hsymbols, ⟨-, rfl⟩ | hsecond⟩
  · obtain ⟨before, l, after, name, hl, -, hname, -, rfl⟩ := SymbolTable.ofLines_error hfirst
    have hmem : l ∈ Line.readAll source := by simp [hl]
    simpa [Fault.quote?] using Line.newline_notMem_label hmem hname
  · rw [overflow_fault (SymbolTable.records_of_ofLines hsymbols)]
    simp [Fault.quote?]
  · obtain ⟨before, l, after, o, hl, -, ho, hd⟩ := encodeLines_error hsecond
    obtain ⟨f, u, hf, rfl⟩ := Operation.fails_of_encode_error (fun _ _ => Iff.rfl) hd
    have hmem : l ∈ Line.readAll source := by simp [hl]
    obtain ⟨hmnemonic, hoperand⟩ := Line.newline_notMem_operation hmem ho
    exact hf.newline_notMem_quote hmnemonic hoperand

/-- A report holds no word. The quoted part of the source has no line feed, so it stays on a line
that starts with a letter. -/
theorem machineWords_report {strict : Bool} {source : Text} {d : Diagnostic}
    (h : assemble strict source = .error d) : machineWords d.report = [] := by
  have hline : '\n' ∉ d.message := by
    have hf := Fault.newline_notMem_message (newline_notMem_quote_of_assemble h)
    delta Diagnostic.message
    simp [hf, Numeral.newline_notMem_decimal]
  obtain ⟨c, hc, hb, hd⟩ := d.fault.head?_message
  obtain ⟨t, ht⟩ := List.head?_eq_some_iff.1 hc
  have hmessage : machineWords d.message = [] := by
    rw [machineWords_line hline]
    delta Diagnostic.message
    rw [ht, List.cons_append, List.cons_append, machineWord?_cons hb hd]
    rfl
  have hreport : d.report = "ERROR IN ASSEMBLY:".toList ++
      '\n' :: (d.message ++ '\n' :: "\n(Check your code and try again)".toList) := by
    delta Diagnostic.report
    simp
  have htitle : machineWords "ERROR IN ASSEMBLY:".toList = [] := by decide
  have hhint : machineWords "\n(Check your code and try again)".toList = [] := by decide
  rw [hreport, machineWords_append_newline, htitle, machineWords_append_newline, hmessage, hhint]
  rfl

end Mac1
