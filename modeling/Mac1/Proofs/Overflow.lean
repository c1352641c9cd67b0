import Mac1.Proofs.Disassembly
import Mac1.Proofs.Interleaving
import Mac1.Proofs.Positions
import Mac1.Proofs.Strict

/-!
Where the strict rule refuses a program. Instructions fill memory upwards and variables downwards,
so the first instruction that has no place is the one whose number is the lowest address of a
variable. The overlap itself shows that there is such an instruction, unless there is none at all.
-/
namespace Mac1

/-- An instruction with this number has no place: a variable lies there or below, or memory has
ended. -/
def SymbolTable.Taken (t : SymbolTable) (n : Nat) : Prop :=
  memorySize ≤ n ∨ ∃ s ∈ t.toList, s.kind = .variable ∧ s.address ≤ n

theorem Line.exists_name_of_isVariable {l : Line} (h : l.isVariable = true) :
    ∃ name, l.name? = some name := by
  cases hs : l.statement with
  | «variable» name => exact ⟨name.text, by simp [name?, (of_variable hs).1]⟩
  | instruction label body => simp [isVariable_eq, (of_instruction hs).2] at h

/-- The last variable has the lowest address. -/
theorem exists_lowest_variable {lines : List Line} (h : 0 < variableCount lines) :
    ∃ s ∈ declarations lines, s.kind = .variable ∧
      s.address = (memorySize : Int) - variableCount lines := by
  have hlast : variableCount lines - 1 < (linesOfKind .variable lines).length := by
    rw [length_linesOfKind_variable]
    omega
  obtain ⟨l, hl⟩ : ∃ l, (linesOfKind .variable lines)[variableCount lines - 1]? = some l :=
    ⟨_, List.getElem?_eq_getElem hlast⟩
  obtain ⟨before, after, -, hkind, -⟩ := getElem?_linesOfKind_iff.1 hl
  obtain ⟨name, hname⟩ := Line.exists_name_of_isVariable (l.kind_eq_variable_iff.1 hkind)
  obtain ⟨s, hs, -, haddress, hk⟩ := exists_declaration_iff.2 ⟨_, l, hl, hname, rfl⟩
  refine ⟨s, hs, hk, ?_⟩
  rw [haddress, SymbolKind.address]
  simp only [memorySize, lastAddress]
  omega

/-- The places from the lowest variable on are taken, and no others. -/
theorem SymbolTable.Records.taken_iff {t : SymbolTable} {lines : List Line} (h : t.Records lines)
    (n : Nat) : t.Taken n ↔ (memorySize : Int) - variableCount lines ≤ n := by
  rw [Taken, h.toList]
  constructor
  · rintro (hend | ⟨s, hs, hk, hle⟩)
    · omega
    · have hlow := (address_of_variable_mem hs hk).1
      omega
  · intro hn
    rcases Nat.eq_zero_or_pos (variableCount lines) with hv | hv
    · left
      omega
    · obtain ⟨s, hs, hk, haddress⟩ := exists_lowest_variable hv
      exact .inr ⟨s, hs, hk, haddress ▸ hn⟩

theorem linesOfKind_label_eq (lines : List Line) :
    linesOfKind .label lines = lines.filter (·.operation?.isSome) := by
  refine List.filter_congr fun l _ => ?_
  rw [Bool.eq_iff_iff, decide_eq_true_iff]
  exact l.kind_eq_label_iff

/-- Instructions are numbered from zero without a gap. -/
theorem exists_instruction {lines : List Line} {n : Nat} (h : n < instructionCount lines) :
    ∃ before l after, lines = before ++ l :: after ∧ l.isInstruction = true ∧
      instructionCount before = n ∧ (lines.filter (·.operation?.isSome))[n]? = some l := by
  rw [← length_linesOfKind_label] at h
  have hget := List.getElem?_eq_getElem h
  obtain ⟨before, after, hsplit, hkind, hcount⟩ := getElem?_linesOfKind_iff.1 hget
  refine ⟨before, _, after, hsplit, (Line.kind_eq_label_iff _).1 hkind, ?_, ?_⟩
  · rw [← length_linesOfKind_label, hcount]
  · rw [← linesOfKind_label_eq, hget]

section Overflow

variable {t : SymbolTable} {lines : List Line} {l : Line}

/-- The number of the instruction is the lowest address of a variable, or zero below zero. -/
theorem overflow_of_instruction (h : t.Records lines)
    (hl : (lines.filter (·.operation?.isSome))[((memorySize : Int) - variableCount lines).toNat]? =
      some l) :
    overflow lines t =
      ⟨.addressSpaceOverflow (instructionCount lines) (memorySize - variableCount lines), l.index,
        l.whole.span⟩ := by
  unfold overflow
  dsimp only
  rw [h.firstVariable, h.instructions, hl]
  rfl

/-- Without an instruction the last line stands in for it. -/
theorem overflow_of_variables (h : t.Records lines) (hi : instructionCount lines = 0)
    (hl : lines.getLast? = some l) :
    overflow lines t =
      ⟨.addressSpaceOverflow (instructionCount lines) (memorySize - variableCount lines), l.index,
        l.whole.span⟩ := by
  have hnone : lines.filter (·.operation?.isSome) = [] := by
    rw [← linesOfKind_label_eq, ← List.length_eq_zero_iff, length_linesOfKind_label, hi]
  unfold overflow
  dsimp only
  rw [h.firstVariable, h.instructions, hnone, hl]
  rfl

end Overflow

/-- A line says something, so its span is not empty. -/
theorem Line.length_span_ne_zero {source : Text} {l : Line} (h : l ∈ readAll source) :
    l.whole.span.length ≠ 0 := by
  obtain ⟨before, raw, after, -, hread⟩ := mem_readFrom h
  have hne : l.whole.text ≠ [] := by
    intro hnil
    rw [read?_eq_some hread] at hnil
    rw [read?, hnil] at hread
    cases hread
  obtain ⟨c, rest, htext⟩ := List.exists_cons_of_ne_nil hne
  have hpos : 0 < l.whole.text.byteLength := by
    rw [htext, Text.byteLength_cons]
    exact Nat.add_pos_left c.utf8Size_pos _
  intro hzero
  have hlength := l.whole.toNat_length_span
  rw [hzero] at hlength
  have hnat : (0 : UInt16).toNat = 0 := rfl
  omega

/-- The strict rule points at the first instruction without a place. A source without a repeated
name and with more instructions and variables than cells is refused, and the diagnostic tells their
numbers as the size of the program and the lowest address of a variable. If there is an instruction,
the line is that of the first one whose number is taken, which is the number of that address or zero
if it is negative. Without an instruction there are more variables than cells, and it is the line of
the last variable. Some text is pointed at in every case. The numbers fit into 32-bit words in a
source of fewer than 2³¹ bytes (`SymbolTable.fits_of_ofLines`). -/
theorem overflow_at_first_taken {source : Text} (hnames : (names (Line.readAll source)).Nodup)
    (hover : memorySize < instructionCount (Line.readAll source) +
      variableCount (Line.readAll source)) :
    let lines := Line.readAll source
    let i := instructionCount lines
    let v := variableCount lines
    let first : Int := memorySize - v
    let n := (max 0 first).toNat
    ∃ symbols before l after, SymbolTable.ofLines lines = .ok symbols ∧
      lines = before ++ l :: after ∧
      assemble true source = .error ⟨.addressSpaceOverflow i first, l.index, l.whole.span⟩ ∧
      l.whole.span.length ≠ 0 ∧
      (0 < i → l.isInstruction = true ∧ instructionCount before = n ∧
        symbols.Taken n ∧ ∀ k < n, ¬symbols.Taken k) ∧
      (i = 0 → memorySize < v ∧ l.isVariable = true ∧ after = []) := by
  intro lines i v first n
  change memorySize < i + v at hover
  obtain ⟨symbols, hsymbols⟩ := SymbolTable.exists_ofLines_of_nodup hnames
  have hrec := SymbolTable.records_of_ofLines hsymbols
  have hassemble := assemble_of_overlaps hsymbols rfl (hrec.overlaps_iff.2 hover)
  rcases Nat.eq_zero_or_pos i with hi | hi
  · -- every line is a variable, so the last one is
    have hne : lines ≠ [] := hrec.ne_nil_of_overlaps (hrec.overlaps_iff.2 hover)
    obtain ⟨before, l, hsplit⟩ := (List.eq_nil_or_concat' lines).resolve_left hne
    have hmem : l ∈ lines := by simp [hsplit]
    have hlast : lines.getLast? = some l := by simp [hsplit]
    have hl : l.isVariable = true := by
      simpa [Line.isVariable_eq] using List.countP_eq_zero.1 hi l hmem
    refine ⟨symbols, before, l, [], hsymbols, hsplit, ?_, Line.length_span_ne_zero hmem,
      fun h => absurd hi h.ne', fun _ => ⟨by omega, hl, rfl⟩⟩
    rw [hassemble, overflow_of_variables hrec hi hlast]
  · have hn : n < i := by omega
    obtain ⟨before, l, after, hsplit, hl, hcount, hget⟩ := exists_instruction hn
    have hnumber : n = first.toNat := by omega
    have htaken : ∀ k, symbols.Taken k ↔ first ≤ k := hrec.taken_iff
    rw [hnumber] at hget
    refine ⟨symbols, before, l, after, hsymbols, hsplit, ?_, ?_, fun _ => ⟨hl, hcount, ?_, ?_⟩,
      fun h => absurd h hi.ne'⟩
    · rw [hassemble, overflow_of_instruction hrec hget]
    · exact Line.length_span_ne_zero (List.mem_of_mem_filter (List.mem_of_getElem? hget))
    · rw [htaken]
      omega
    · intro k hk
      rw [htaken]
      omega

theorem variableCount_variableLines (size index start : Nat) :
    variableCount (Line.readFrom index start (variableLines size)) = size := by
  induction size generalizing index start with
  | zero => rfl
  | succ size ih =>
    rw [variableLines_succ, Line.readFrom_cons_some (Line.read?_variable ..), variableCount_cons,
      ih]
    rfl

theorem instructionCount_variableLines (size index start : Nat) :
    instructionCount (Line.readFrom index start (variableLines size)) = 0 := by
  refine List.countP_eq_zero.2 fun l hl => ?_
  simp [Line.isInstruction, operation?_variableLines size index start l hl]

/-- One instruction after as many variables as there are cells. -/
theorem overflow_at_first_taken_push :
    let source := disassembly [0xf400]
    ∃ span, assemble true source = .error ⟨.addressSpaceOverflow 1 0, memorySize, span⟩ ∧
      span.length = 4 := by
  intro source
  obtain ⟨start, hlines⟩ := readAll_disassembly [0xf400]
  have hlast : Line.readFrom memorySize start [Word.disassemble 0xf400] =
      [⟨memorySize, ⟨start, "PUSH".toList⟩, .instruction none ⟨start, "PUSH".toList⟩⟩] := by
    rw [Line.readFrom_cons_some (Line.read?_disassemble ..)]
    rfl
  rw [List.map_singleton, hlast] at hlines
  have hi : instructionCount (Line.readAll source) = 1 := by
    rw [hlines, instructionCount_append, instructionCount_variableLines]
    rfl
  have hv : variableCount (Line.readAll source) = memorySize := by
    rw [hlines, variableCount_append, variableCount_variableLines]
    rfl
  obtain ⟨symbols, hsymbols, -⟩ := exists_symbols_disassembly [0xf400]
  obtain ⟨_, before, l, after, -, hsplit, herror, -, hfirst, -⟩ :=
    overflow_at_first_taken (SymbolTable.records_of_ofLines hsymbols).nodup
      (by rw [hi, hv]; omega)
  rw [hi, hv, Int.sub_self] at herror
  rw [hi] at hfirst
  obtain ⟨hl, -⟩ := hfirst Nat.one_pos
  have hmem : l ∈ Line.readAll source := hsplit ▸ List.mem_append_right _ List.mem_cons_self
  rw [hlines, List.mem_append] at hmem
  rcases hmem with hmem | hmem
  · simp [Line.isInstruction, operation?_variableLines memorySize 0 0 l hmem] at hl
  · rw [List.mem_singleton.1 hmem] at herror
    exact ⟨_, herror, rfl⟩

end Mac1
