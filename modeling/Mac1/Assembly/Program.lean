import Mac1.Assembly.SymbolTable
import Mac1.Text.Upper

/-!
Assembled programs. Assembly makes two passes over the lines of a source: the first collects the
symbols, the second encodes one word for each instruction. The first fault found is reported, and
a repeated name is found before anything that is wrong with an instruction.
-/
namespace Mac1

/-- A word of a program with what its listing line tells about it: the operand as it is shown, and
the number that an address or a constant stands for. -/
structure Entry where
  instruction : Instruction
  word : Word
  operand : Option Text
  resolved : Option Int
  line : Nat
  deriving DecidableEq, Repr

namespace Entry

/-- The listing line: sixteen binary digits, and after a slash the instruction. -/
def text (e : Entry) : Text :=
  e.word.binary ++ " / ".toList ++ e.instruction.mnemonic ++
    (match e.operand with
      | none => []
      | some operand => ' ' :: operand) ++
    match e.resolved with
      | none => []
      | some value => " (".toList ++ Numeral.decimal value ++ ")".toList

def bare (i : Instruction) (line : Nat) : Entry := ⟨i, i.opcode, none, none, line⟩

/-- The entry of an instruction whose operand `text` stands for `value`. A byte is shown as the
number it is, any other operand as it is written. -/
def withOperand (i : Instruction) (text : Text) (value : Int) (line : Nat) : Entry :=
  let word := i.opcode ||| i.format.operandBits value
  match i.format with
  | .bare => bare i line
  | .byte => ⟨i, word, some (Numeral.decimal value), none, line⟩
  | .address | .constant => ⟨i, word, some text, some value, line⟩

@[simp] theorem withOperand_instruction (i : Instruction) (text : Text) (value : Int) (line : Nat) :
    (withOperand i text value line).instruction = i := by
  unfold withOperand
  cases i.format <;> rfl

@[simp] theorem withOperand_line (i : Instruction) (text : Text) (value : Int) (line : Nat) :
    (withOperand i text value line).line = line := by
  unfold withOperand
  cases i.format <;> rfl

theorem withOperand_word {i : Instruction} (hf : i.format ≠ .bare) (text : Text) (value : Int)
    (line : Nat) :
    (withOperand i text value line).word = i.opcode ||| i.format.operandBits value := by
  unfold withOperand
  cases h : i.format with
  | bare => exact absurd h hf
  | byte => rfl
  | address => rfl
  | constant => rfl

end Entry

namespace Instruction

/-- Numbers from zero to `max` only. -/
def inRange (operand : Text) (value max : Int) : Except Fault Int :=
  if 0 ≤ value ∧ value ≤ max then .ok value
  else .error (.operandOutOfRange operand value max)

theorem inRange_eq_ok_iff {operand : Text} {value max v : Int} :
    inRange operand value max = .ok v ↔ (0 ≤ value ∧ value ≤ max) ∧ value = v := by
  by_cases h : 0 ≤ value ∧ value ≤ max
  · rw [inRange, if_pos h]
    simp [h]
  · rw [inRange, if_neg h]
    simp [h]

theorem inRange_eq_error_iff {operand : Text} {value max : Int} {f : Fault} :
    inRange operand value max = .error f ↔
      ¬(0 ≤ value ∧ value ≤ max) ∧ .operandOutOfRange operand value max = f := by
  by_cases h : 0 ≤ value ∧ value ≤ max
  · rw [inRange, if_pos h]
    simp [h]
  · rw [inRange, if_neg h]
    simp [h]

def literal (operand : Text) : Except Fault Int :=
  match Numeral.literal? operand with
  | none => .error (.invalidOperand operand)
  | some value => .ok value

/-- The number that an operand stands for. -/
def operandValue (i : Instruction) (symbols : SymbolTable) (operand : Text) : Except Fault Int :=
  match i.format with
  | .bare => .ok 0
  | .byte => (literal operand).bind fun value => inRange operand value 255
  | .constant => literal operand
  | .address =>
    match symbols.address? operand with
    | none => .error (.undefinedSymbol operand)
    | some address => inRange operand address lastAddress

theorem operandValue_byte {i : Instruction} (hf : i.format = .byte) (symbols : SymbolTable)
    (operand : Text) :
    i.operandValue symbols operand =
      (literal operand).bind fun value => inRange operand value 255 := by
  rw [operandValue, hf]

theorem operandValue_constant {i : Instruction} (hf : i.format = .constant) (symbols : SymbolTable)
    (operand : Text) : i.operandValue symbols operand = literal operand := by
  rw [operandValue, hf]

theorem operandValue_undefined {i : Instruction} (hf : i.format = .address) {symbols : SymbolTable}
    {operand : Text} (h : symbols.address? operand = none) :
    i.operandValue symbols operand = .error (.undefinedSymbol operand) := by
  simp only [operandValue, hf, h]

theorem operandValue_address {i : Instruction} (hf : i.format = .address) {symbols : SymbolTable}
    {operand : Text} {a : Int} (h : symbols.address? operand = some a) :
    i.operandValue symbols operand = inRange operand a lastAddress := by
  simp only [operandValue, hf, h]

end Instruction

/-- Encode the operation of the line with the given index. The case of a mnemonic does not matter,
and an instruction that takes no operand ignores one. -/
def Operation.encode (symbols : SymbolTable) (line : Nat) (o : Operation) :
    Except Diagnostic Entry :=
  let name := Text.upper o.mnemonic.text
  match Instruction.ofMnemonic? name with
  | none => .error ⟨.unknownMnemonic name, line, o.mnemonic.span⟩
  | some i =>
    match i.format, o.operand with
    | .bare, _ => .ok (Entry.bare i line)
    | _, none => .error ⟨.missingOperand i.mnemonic, line, o.mnemonic.span⟩
    | _, some operand =>
      match i.operandValue symbols operand.text with
      | .error fault => .error ⟨fault, line, operand.span⟩
      | .ok value => .ok (Entry.withOperand i operand.text value line)

namespace Operation

variable {symbols : SymbolTable} {o : Operation} {line : Nat}

theorem encode_unknown (h : ∀ i : Instruction, i.mnemonic ≠ Text.upper o.mnemonic.text) :
    o.encode symbols line =
      .error ⟨.unknownMnemonic (Text.upper o.mnemonic.text), line, o.mnemonic.span⟩ := by
  simp only [encode, Instruction.ofMnemonic?_eq_none_iff.2 h]

theorem encode_bare {i : Instruction} (hi : i.mnemonic = Text.upper o.mnemonic.text)
    (hf : i.format = .bare) : o.encode symbols line = .ok (Entry.bare i line) := by
  simp only [encode, Instruction.ofMnemonic?_eq_some_iff.2 hi, hf]

theorem encode_missing {i : Instruction} (hi : i.mnemonic = Text.upper o.mnemonic.text)
    (hf : i.format ≠ .bare) (ho : o.operand = none) :
    o.encode symbols line = .error ⟨.missingOperand i.mnemonic, line, o.mnemonic.span⟩ := by
  simp only [encode, Instruction.ofMnemonic?_eq_some_iff.2 hi, ho]

theorem encode_operand_error {i : Instruction} (hi : i.mnemonic = Text.upper o.mnemonic.text)
    (hf : i.format ≠ .bare) {t : Token} (ho : o.operand = some t) {f : Fault}
    (hv : i.operandValue symbols t.text = .error f) :
    o.encode symbols line = .error ⟨f, line, t.span⟩ := by
  simp only [encode, Instruction.ofMnemonic?_eq_some_iff.2 hi, ho, hv]

theorem encode_operand_ok {i : Instruction} (hi : i.mnemonic = Text.upper o.mnemonic.text)
    (hf : i.format ≠ .bare) {t : Token} (ho : o.operand = some t) {value : Int}
    (hv : i.operandValue symbols t.text = .ok value) :
    o.encode symbols line = .ok (Entry.withOperand i t.text value line) := by
  simp only [encode, Instruction.ofMnemonic?_eq_some_iff.2 hi, ho, hv]

end Operation

/-- Encode the instructions among the lines, up to the first fault. -/
def encodeLines (symbols : SymbolTable) : List Line → Except Diagnostic (List Entry)
  | [] => .ok []
  | line :: rest =>
    match line.operation? with
    | none => encodeLines symbols rest
    | some o =>
      match o.encode symbols line.index with
      | .error d => .error d
      | .ok entry =>
        match encodeLines symbols rest with
        | .error d => .error d
        | .ok entries => .ok (entry :: entries)

@[simp] theorem encodeLines_nil (symbols : SymbolTable) : encodeLines symbols [] = .ok [] := rfl

theorem encodeLines_cons_none {symbols : SymbolTable} {l : Line} (ho : l.operation? = none)
    {rest : List Line} : encodeLines symbols (l :: rest) = encodeLines symbols rest := by
  simp only [encodeLines, ho]

theorem encodeLines_cons_error {symbols : SymbolTable} {l : Line} {o : Operation} {d : Diagnostic}
    (ho : l.operation? = some o) (he : o.encode symbols l.index = .error d) {rest : List Line} :
    encodeLines symbols (l :: rest) = .error d := by
  simp only [encodeLines, ho, he]

theorem encodeLines_cons_ok {symbols : SymbolTable} {l : Line} {o : Operation} {e : Entry}
    (ho : l.operation? = some o) (he : o.encode symbols l.index = .ok e) {rest : List Line} :
    encodeLines symbols (l :: rest) = (encodeLines symbols rest).map (e :: ·) := by
  simp only [encodeLines, ho, he]
  cases encodeLines symbols rest <;> rfl

structure Program where
  entries : List Entry
  symbols : SymbolTable

namespace Program

def size (p : Program) : Nat := p.entries.length

/-- The words alone. -/
def code (p : Program) : List Word := p.entries.map (·.word)

@[simp] theorem length_code (p : Program) : p.code.length = p.size := List.length_map _

/-- One line for each word. -/
def listing (p : Program) : Text := p.entries.flatMap fun e => e.text ++ ['\n']

end Program

/-- The overlap of program and variables, at the first instruction that lies in the variables or
past the end of memory. Without such an instruction the last line stands in for it. -/
def overflow (lines : List Line) (symbols : SymbolTable) : Diagnostic :=
  let first := symbols.firstVariable?.getD memorySize
  let fault := Fault.addressSpaceOverflow symbols.instructions first
  let instructions := lines.filter (·.operation?.isSome)
  match instructions[first.toNat]?.or lines.getLast? with
  | some line => ⟨fault, line.index, line.whole.span⟩
  | none => ⟨fault, 0, ⟨0, 0⟩⟩

/-- Assemble a source. The strict rule refuses a program that overlaps its variables. -/
def assemble (strict : Bool) (source : Text) : Except Diagnostic Program :=
  let lines := Line.readAll source
  match SymbolTable.ofLines lines with
  | .error d => .error d
  | .ok symbols =>
    if strict && symbols.overlaps then .error (overflow lines symbols)
    else (encodeLines symbols lines).map (⟨·, symbols⟩)

section Passes

variable {strict : Bool} {source : Text} {symbols : SymbolTable}

/-- The encoding of the lines decides once the names and the strict rule have passed. -/
theorem assemble_of_ofLines (ht : SymbolTable.ofLines (Line.readAll source) = .ok symbols)
    (hs : ¬(strict = true ∧ symbols.overlaps = true)) :
    assemble strict source = (encodeLines symbols (Line.readAll source)).map (⟨·, symbols⟩) := by
  have hs' : (strict && symbols.overlaps) = false := by simpa using hs
  simp [assemble, ht, hs']

theorem assemble_of_overlaps (ht : SymbolTable.ofLines (Line.readAll source) = .ok symbols)
    (hs : strict = true) (ho : symbols.overlaps = true) :
    assemble strict source = .error (overflow (Line.readAll source) symbols) := by
  simp [assemble, ht, hs, ho]

theorem assemble_of_error {d : Diagnostic}
    (ht : SymbolTable.ofLines (Line.readAll source) = .error d) :
    assemble strict source = .error d := by
  simp [assemble, ht]

end Passes

end Mac1
