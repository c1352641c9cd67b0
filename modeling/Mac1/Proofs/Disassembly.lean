import Mac1.Proofs.Outcome
import Mac1.Proofs.Source
import Mac1.Instruction

/-!
Assembling what was disassembled. A disassembled address is a number where the assembler wants a
name, so the text starts with 4096 variables that are named after their own addresses. After them
every list of words comes back as it was, up to the first word that no instruction covers.
-/
namespace Mac1

/-- Variables named after the numbers below `size`, the greatest first. -/
def variableLines (size : Nat) : List Text :=
  (List.range size).reverse.map fun n : Nat => Numeral.decimal n ++ [':']

/-- All addresses as variables, and then one line for each word. -/
def disassembly (ws : List Word) : Text :=
  List.intercalate ['\n'] (variableLines memorySize ++ ws.map Word.disassemble)

theorem variableLines_succ (size : Nat) :
    variableLines (size + 1) = (Numeral.decimal size ++ [':']) :: variableLines size := by
  simp [variableLines, List.range_succ]

theorem length_variableLines (size : Nat) : (variableLines size).length = size := by
  simp [variableLines]

theorem Numeral.isBlank_of_mem_decimal {n : Int} {c : Char} (h : c ∈ decimal n) :
    isBlank c = false := by
  rcases mem_decimal h with h | rfl
  · exact isBlank_of_isDigit c h
  · decide

theorem Instruction.isBlank_of_mem_mnemonic {i : Instruction} {c : Char} (h : c ∈ i.mnemonic) :
    isBlank c = false := by
  have hall : i.mnemonic.all (!isBlank ·) = true := by cases i <;> rfl
  simpa using List.all_eq_true.1 hall c h

namespace Word

theorem isBlank_of_mem_marks : ∀ c ∈ "???".toList, isBlank c = false := by
  intro c hc
  have hmark : c = '?' := by simpa using hc
  rw [hmark]
  decide

theorem disassemble_none {w : Word} (h : Instruction.ofWord? w = none) :
    w.disassemble = "???".toList := by
  rw [disassemble, h]

theorem disassemble_bare {w : Word} {i : Instruction} (h : Instruction.ofWord? w = some i)
    (hf : i.format = .bare) : w.disassemble = i.mnemonic := by
  simp only [disassemble, h, hf]

theorem disassemble_operand {w : Word} {i : Instruction} (h : Instruction.ofWord? w = some i)
    (hf : i.format ≠ .bare) :
    w.disassemble = i.mnemonic ++ ([' '] ++ Numeral.decimal w.operand.value) := by
  simp only [disassemble, h]
  rfl

/-- A disassembled word is a mnemonic, perhaps with a number after it, or question marks. -/
theorem mem_disassemble {w : Word} {c : Char} (h : c ∈ w.disassemble) :
    c.isUpper = true ∨ c.isDigit = true ∨ c ∈ [' ', '-', '?'] := by
  cases hi : Instruction.ofWord? w with
  | none =>
    rw [disassemble_none hi] at h
    revert h
    simp +contextual
  | some i =>
    by_cases hf : i.format = .bare
    · rw [disassemble_bare hi hf] at h
      exact .inl (Instruction.isUpper_of_mem_mnemonic h)
    · rw [disassemble_operand hi hf] at h
      rcases List.mem_append.1 h with h | h
      · exact .inl (Instruction.isUpper_of_mem_mnemonic h)
      rcases List.mem_append.1 h with h | h
      · exact .inr (.inr (List.mem_cons.2 (.inl (by simpa using h))))
      · rcases Numeral.mem_decimal h with h | rfl
        · exact .inr (.inl h)
        · exact .inr (.inr (by decide))

theorem notMem_disassemble (w : Word) :
    '\n' ∉ w.disassemble ∧ ':' ∉ w.disassemble ∧ '/' ∉ w.disassemble := by
  refine ⟨fun h => ?_, fun h => ?_, fun h => ?_⟩ <;>
    exact absurd (mem_disassemble h) (by decide)

theorem disassemble_ne_nil (w : Word) : w.disassemble ≠ [] := by
  cases hi : Instruction.ofWord? w with
  | none =>
    rw [disassemble_none hi]
    decide
  | some i =>
    by_cases hf : i.format = .bare
    · rw [disassemble_bare hi hf]
      exact i.mnemonic_ne_nil
    · rw [disassemble_operand hi hf]
      simp

theorem solid_disassemble (w : Word) : w.disassemble.Solid := by
  cases hi : Instruction.ofWord? w with
  | none =>
    rw [disassemble_none hi]
    exact .of_forall isBlank_of_mem_marks
  | some i =>
    have hname : i.mnemonic.Solid := .of_forall fun _ => Instruction.isBlank_of_mem_mnemonic
    by_cases hf : i.format = .bare
    · rw [disassemble_bare hi hf]
      exact hname
    · rw [disassemble_operand hi hf, ← List.append_assoc]
      exact hname.append_inner [' '] (.of_forall fun _ => Numeral.isBlank_of_mem_decimal)
        i.mnemonic_ne_nil (Numeral.decimal_ne_nil _)

end Word

namespace Line

theorem read?_disassemble (index start : Nat) (w : Word) :
    read? index start w.disassemble =
      some ⟨index, ⟨start, w.disassemble⟩, .instruction none ⟨start, w.disassemble⟩⟩ := by
  obtain ⟨-, hcolon, hslash⟩ := w.notMem_disassemble
  have hhead : w.disassemble.head? ≠ some '/' := fun h => hslash (List.mem_of_mem_head? h)
  rw [read?_solid index start w.solid_disassemble w.disassemble_ne_nil hhead,
    Statement.ofToken_plain hcolon]

theorem read?_variable (index start : Nat) (n : Int) :
    read? index start (Numeral.decimal n ++ [':']) =
      some ⟨index, ⟨start, Numeral.decimal n ++ [':']⟩, .variable ⟨start, Numeral.decimal n⟩⟩ := by
  have hblank : ∀ c ∈ Numeral.decimal n, isBlank c = false :=
    fun _ => Numeral.isBlank_of_mem_decimal
  have hcolon : ':' ∉ Numeral.decimal n := fun h => absurd (Numeral.mem_decimal h) (by decide)
  have hslash : '/' ∉ Numeral.decimal n ++ [':'] := by
    intro h
    rcases List.mem_append.1 h with h | h
    · exact absurd (Numeral.mem_decimal h) (by decide)
    · simp at h
  have hsolid : Text.Solid (Numeral.decimal n ++ [':']) := .of_forall fun c hc => by
    rcases List.mem_append.1 hc with hc | hc
    · exact hblank c hc
    · rw [List.mem_singleton.1 hc]
      decide
  have hhead : (Numeral.decimal n ++ [':']).head? ≠ some '/' :=
    fun h => hslash (List.mem_of_mem_head? h)
  rw [read?_solid index start hsolid (by simp) hhead, Statement.ofToken_colon hcolon,
    Token.trimmed_solid start (.of_forall hblank)]
  rfl

end Line

section Variables

variable (size index start : Nat)

theorem names_variableLines :
    names (Line.readFrom index start (variableLines size)) =
      (List.range size).reverse.map fun n : Nat => Numeral.decimal n := by
  induction size generalizing index start with
  | zero => rfl
  | succ size ih =>
    rw [variableLines_succ, Line.readFrom_cons_some (Line.read?_variable ..), names_cons rfl, ih]
    simp [List.range_succ]

theorem nodup_names_variableLines :
    (names (Line.readFrom index start (variableLines size))).Nodup := by
  rw [names_variableLines]
  refine List.Nodup.map ?_ (List.nodup_reverse.2 List.nodup_range)
  intro m n hmn
  exact Int.ofNat.inj (Numeral.decimal_injective hmn)

theorem operation?_variableLines :
    ∀ l ∈ Line.readFrom index start (variableLines size), l.operation? = none := by
  induction size generalizing index start with
  | zero => simp [variableLines]
  | succ size ih =>
    rw [variableLines_succ, Line.readFrom_cons_some (Line.read?_variable ..), List.forall_mem_cons]
    exact ⟨rfl, ih _ _⟩

/-- The variable `n` stands after all greater ones. -/
theorem split_variableLines {n : Nat} (hn : n < size) :
    ∃ before l after, Line.readFrom index start (variableLines size) = before ++ l :: after ∧
      l.name? = some (Numeral.decimal n) ∧ l.isVariable = true ∧
      variableCount before + n + 1 = size := by
  induction size generalizing index start with
  | zero => omega
  | succ size ih =>
    rw [variableLines_succ, Line.readFrom_cons_some (Line.read?_variable ..)]
    rcases Nat.lt_succ_iff_lt_or_eq.1 hn with hlt | rfl
    · obtain ⟨before, l, after, hsplit, hname, hvar, hcount⟩ := ih _ _ hlt
      rw [hsplit]
      refine ⟨_ :: before, l, after, rfl, hname, hvar, ?_⟩
      rw [variableCount_cons, if_pos (show Line.isVariable _ = true from rfl)]
      omega
    · exact ⟨[], _, _, rfl, rfl, rfl, by simp [variableCount]⟩

end Variables

theorem names_disassemble (index start : Nat) (ws : List Word) :
    names (Line.readFrom index start (ws.map Word.disassemble)) = [] := by
  induction ws generalizing index start with
  | nil => rfl
  | cons w ws ih =>
    rw [List.map_cons, Line.readFrom_cons_some (Line.read?_disassemble ..)]
    exact ih ..

theorem Instruction.covers_of_ofWord? {w : Word} {i : Instruction} (h : ofWord? w = some i) :
    i.covers w = true := by
  simpa using List.find?_some h

theorem Instruction.upper_mnemonic (i : Instruction) : Text.upper i.mnemonic = i.mnemonic := by
  cases i <;> rfl

/-- A word that no instruction covers is refused. -/
theorem Operation.encode_disassemble_none (symbols : SymbolTable) {w : Word}
    (h : Instruction.ofWord? w = none) (start line : Nat) :
    ∃ span, (ofBody ⟨start, w.disassemble⟩).encode symbols line =
      .error ⟨.unknownMnemonic "???".toList, line, span⟩ := by
  have hnone : ∀ i : Instruction, i.mnemonic ≠ Text.upper "???".toList := by
    intro i
    cases i <;> decide
  rw [Word.disassemble_none h, ofBody_word Word.isBlank_of_mem_marks]
  exact ⟨_, encode_unknown hnone⟩

section Encoding

variable {symbols : SymbolTable}
  (hsym : ∀ n : Nat, n < memorySize → symbols.address? (Numeral.decimal n) = some (n : Int))

include hsym in
/-- Each operand is read as the number that it was printed from. -/
theorem Instruction.operandValue_decimal {i : Instruction} {w : Word} (hc : i.covers w = true)
    (hf : i.format ≠ .bare) :
    i.operandValue symbols (Numeral.decimal w.operand.value) = .ok w.operand.value := by
  have hoperand := operand_of_covers hc
  cases h : i.format with
  | bare => exact absurd h hf
  | byte =>
    have hv : w.operand.value = ((w.setWidth 8).toNat : Int) := by rw [hoperand, h]; rfl
    have hlt : (w.setWidth 8).toNat < 2 ^ 8 := BitVec.isLt _
    rw [hv, operandValue_byte h, literal_decimal (by omega) (by omega)]
    exact inRange_eq_ok_iff.2 ⟨⟨by omega, by omega⟩, rfl⟩
  | constant =>
    have hv : w.operand.value = (w.setWidth 12).toInt := by rw [hoperand, h]; rfl
    have hlt : (w.setWidth 12).toInt < 2 ^ 11 := BitVec.toInt_lt
    have hle : -2 ^ 11 ≤ (w.setWidth 12).toInt := BitVec.le_toInt _
    rw [hv, operandValue_constant h, literal_decimal (by omega) (by omega)]
  | address =>
    have hv : w.operand.value = ((w.setWidth 12).toNat : Int) := by rw [hoperand, h]; rfl
    have hlt : (w.setWidth 12).toNat < 2 ^ 12 := BitVec.isLt _
    rw [hv, operandValue_address h (hsym _ hlt)]
    exact inRange_eq_ok_iff.2 ⟨⟨by omega, by simp only [lastAddress]; omega⟩, rfl⟩

include hsym in
/-- A word that an instruction covers is encoded as itself. -/
theorem Operation.encode_disassemble {w : Word} {i : Instruction}
    (h : Instruction.ofWord? w = some i) (start line : Nat) :
    ∃ e, (ofBody ⟨start, w.disassemble⟩).encode symbols line = .ok e ∧ e.word = w := by
  have hc := Instruction.covers_of_ofWord? h
  have hword := Instruction.word_of_covers hc
  by_cases hf : i.format = .bare
  · have hbits : i.format.operandBits w.operand.value = 0#16 := by
      rw [hf]
      exact BitVec.eq_of_toNat_eq (by simp [Format.operandBits])
    rw [Word.disassemble_bare h hf, ofBody_word fun _ => Instruction.isBlank_of_mem_mnemonic]
    refine ⟨_, encode_bare i.upper_mnemonic.symm hf, ?_⟩
    rw [hbits, BitVec.or_zero] at hword
    exact hword
  · have hvalue := Instruction.operandValue_decimal hsym hc hf
    have hsolid : Text.Solid (Numeral.decimal w.operand.value) :=
      .of_forall fun _ => Numeral.isBlank_of_mem_decimal
    rw [Word.disassemble_operand h hf, ofBody_gap (fun _ => Instruction.isBlank_of_mem_mnemonic)
      (List.forall_mem_singleton.2 (by decide)) (by decide) hsolid (Numeral.decimal_ne_nil _)]
    refine ⟨_, encode_operand_ok i.upper_mnemonic.symm hf rfl hvalue, ?_⟩
    rw [Entry.withOperand_word hf]
    exact hword

include hsym in
/-- Encoding gives the words back, or stops at the first one that no instruction covers. -/
theorem encodeLines_disassemble (index start : Nat) (ws : List Word) :
    match ws.findIdx? fun w => (Instruction.ofWord? w).isNone with
    | none => ∃ entries,
      encodeLines symbols (Line.readFrom index start (ws.map Word.disassemble)) = .ok entries ∧
        entries.map (·.word) = ws
    | some k => ∃ span,
      encodeLines symbols (Line.readFrom index start (ws.map Word.disassemble)) =
        .error ⟨.unknownMnemonic "???".toList, index + k, span⟩ := by
  induction ws generalizing index start with
  | nil => exact ⟨[], rfl, rfl⟩
  | cons w ws ih =>
    have hrest := ih (index + 1) (start + w.disassemble.byteLength + 1)
    rw [List.map_cons, Line.readFrom_cons_some (Line.read?_disassemble ..), List.findIdx?_cons]
    cases h : Instruction.ofWord? w with
    | none =>
      obtain ⟨span, he⟩ := Operation.encode_disassemble_none symbols h start index
      exact ⟨span, encodeLines_cons_error rfl he⟩
    | some i =>
      obtain ⟨e, he, hw⟩ := Operation.encode_disassemble hsym h start index
      rw [encodeLines_cons_ok rfl he]
      cases hk : ws.findIdx? fun w => (Instruction.ofWord? w).isNone with
      | none =>
        rw [hk] at hrest
        obtain ⟨entries, hentries, hwords⟩ := hrest
        refine ⟨e :: entries, by rw [hentries]; rfl, ?_⟩
        rw [List.map_cons, hw, hwords]
      | some k =>
        rw [hk] at hrest
        obtain ⟨span, hspan⟩ := hrest
        refine ⟨span, ?_⟩
        rw [hspan, Nat.add_assoc, Nat.add_comm 1 k]
        rfl

end Encoding

theorem newline_notMem_variableLines {size : Nat} {raw : Text} (h : raw ∈ variableLines size) :
    '\n' ∉ raw := by
  obtain ⟨n, -, rfl⟩ := List.mem_map.1 h
  intro hn
  rcases List.mem_append.1 hn with hn | hn
  · exact absurd (Numeral.mem_decimal hn) (by decide)
  · simp at hn

theorem readAll_disassembly (ws : List Word) :
    ∃ start, Line.readAll (disassembly ws) =
      Line.readFrom 0 0 (variableLines memorySize) ++
        Line.readFrom memorySize start (ws.map Word.disassemble) := by
  have hlines : ∀ raw ∈ variableLines memorySize ++ ws.map Word.disassemble, '\n' ∉ raw := by
    intro raw hraw hn
    rcases List.mem_append.1 hraw with hraw | hraw
    · exact newline_notMem_variableLines hraw hn
    · obtain ⟨w, -, rfl⟩ := List.mem_map.1 hraw
      exact w.notMem_disassemble.1 hn
  have hne : variableLines memorySize ++ ws.map Word.disassemble ≠ [] := by
    rw [show memorySize = 4095 + 1 from rfl, variableLines_succ]
    exact List.cons_ne_nil _ _
  have hstart := Line.readFrom_append 0 0 (variableLines memorySize) (ws.map Word.disassemble)
  rw [length_variableLines, Nat.zero_add] at hstart
  rw [Line.readAll, disassembly, List.splitOn_intercalate _ hlines hne]
  exact ⟨_, hstart⟩

/-- The first pass gives every number `n` below 4096 itself as its address: the variables before it
are those from 4095 down to `n + 1`. -/
theorem exists_symbols_disassembly (ws : List Word) :
    ∃ symbols, SymbolTable.ofLines (Line.readAll (disassembly ws)) = .ok symbols ∧
      ∀ n : Nat, n < memorySize → symbols.address? (Numeral.decimal n) = some (n : Int) := by
  obtain ⟨start, hlines⟩ := readAll_disassembly ws
  have hnodup : (names (Line.readAll (disassembly ws))).Nodup := by
    rw [hlines, names_append, names_disassemble, List.append_nil]
    exact nodup_names_variableLines memorySize 0 0
  obtain ⟨symbols, hsymbols⟩ := SymbolTable.exists_ofLines_of_nodup hnodup
  refine ⟨symbols, hsymbols, fun n hn => ?_⟩
  rw [(SymbolTable.records_of_ofLines hsymbols).address?_eq_some_iff, hlines]
  obtain ⟨before, l, after, hsplit, hname, hvar, hcount⟩ := split_variableLines memorySize 0 0 hn
  refine ⟨before, l, after ++ _, by rw [hsplit, List.append_assoc, List.cons_append], hname, ?_⟩
  rw [Line.address, if_pos hvar]
  simp only [memorySize, lastAddress] at hcount ⊢
  omega

/-- Assembling a disassembled list of words gives the words back. If some word belongs to no
instruction, the first such word is reported on its line. -/
theorem assemble_disassembly (ws : List Word) :
    match ws.findIdx? fun w => (Instruction.ofWord? w).isNone with
    | none => ∃ p, assemble false (disassembly ws) = .ok p ∧ p.code = ws
    | some k => ∃ span, assemble false (disassembly ws) =
      .error ⟨.unknownMnemonic "???".toList, memorySize + k, span⟩ := by
  obtain ⟨start, hlines⟩ := readAll_disassembly ws
  obtain ⟨symbols, hsymbols, haddress⟩ := exists_symbols_disassembly ws
  have hassemble : assemble false (disassembly ws) =
      (encodeLines symbols (Line.readAll (disassembly ws))).map (⟨·, symbols⟩) :=
    assemble_of_ofLines hsymbols (by simp)
  rw [hlines, encodeLines_append_of_none symbols (operation?_variableLines memorySize 0 0)]
    at hassemble
  have hencode := encodeLines_disassemble haddress memorySize start ws
  rw [hassemble]
  cases hk : ws.findIdx? fun w => (Instruction.ofWord? w).isNone with
  | none =>
    rw [hk] at hencode
    obtain ⟨entries, hentries, hwords⟩ := hencode
    refine ⟨⟨entries, symbols⟩, ?_, hwords⟩
    rw [hentries]
    rfl
  | some k =>
    rw [hk] at hencode
    obtain ⟨span, hspan⟩ := hencode
    refine ⟨span, ?_⟩
    rw [hspan]
    rfl

end Mac1
