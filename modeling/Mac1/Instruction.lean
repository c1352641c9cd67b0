import Mac1.Text

/-!
Words and instructions of the machine. Main memory has 4096 cells of one word, and a word has
sixteen bits. An instruction fixes the leading bits of a word and leaves the remaining bits to its
operand; no two instructions share a word. A word is read back from its leading bits alone: fifteen
of the sixteen leading half bytes take a twelve-bit operand, and of the last sixteenth two leading
bytes take an eight-bit one.
-/
namespace Mac1

/-- The number of words of main memory. -/
abbrev memorySize : Nat := 4096

/-- The last address of main memory. -/
abbrev lastAddress : Int := 4095

abbrev Word := BitVec 16

namespace Word

/-- A binary digit. -/
def bit (b : Bool) : Char := if b then '1' else '0'

/-- The sixteen binary digits, most significant first. -/
def binary (w : Word) : Text := List.ofFn fun i : Fin 16 => bit (w.getMsbD i)

@[simp] theorem length_binary (w : Word) : w.binary.length = 16 := by simp [binary]

def isBinaryDigit (c : Char) : Bool := c = '0' || c = '1'

@[simp] theorem isBinaryDigit_bit (b : Bool) : isBinaryDigit (bit b) = true := by cases b <;> rfl

@[simp] theorem utf8Size_bit (b : Bool) : (bit b).utf8Size = 1 := by cases b <;> rfl

/-- Read exactly sixteen binary digits. -/
def ofBinary? (t : Text) : Option Word :=
  if t.byteLength = 16 ∧ t.all isBinaryDigit then
    (Numeral.unsigned? 2 0xffff t).map (BitVec.ofNat 16)
  else none

/-- Read a word as an operand of the command line writes it: binary after `0b`, hexadecimal after
`0x`, else a decimal integer, signed if it can be and otherwise unsigned. -/
def ofNumeral? : Text → Option Word
  | '0' :: 'b' :: digits => unsigned 2 digits
  | '0' :: 'x' :: digits => unsigned 16 digits
  | t => ((Numeral.integer? 0x8000 0x7fff t).map (BitVec.ofInt 16)).or (unsigned 10 t)
where
  unsigned (base : Nat) (digits : Text) : Option Word :=
    (Numeral.unsigned? base 0xffff digits).map (BitVec.ofNat 16)

end Word

/-- What an instruction takes as its operand: nothing, a byte written as a number, an address
written as a name, or a signed constant written as a number. -/
inductive Format where
  | bare | byte | address | constant
  deriving DecidableEq, Repr

namespace Format

def operandWidth : Format → Nat
  | .bare => 0
  | .byte => 8
  | .address | .constant => 12

@[simp] theorem operandWidth_bare : operandWidth .bare = 0 := rfl

@[simp] theorem operandWidth_byte : operandWidth .byte = 8 := rfl

@[simp] theorem operandWidth_address : operandWidth .address = 12 := rfl

@[simp] theorem operandWidth_constant : operandWidth .constant = 12 := rfl

theorem operandWidth_le (f : Format) : f.operandWidth ≤ 12 := by cases f <;> simp

def opcodeWidth (f : Format) : Nat := 16 - f.operandWidth

/-- The bits of a word that belong to the operand. -/
def operandMask (f : Format) : Word := (BitVec.allOnes f.operandWidth).setWidth 16

/-- A number as operand bits, without those that do not fit. -/
def operandBits (f : Format) (value : Int) : Word :=
  (BitVec.ofInt f.operandWidth value).setWidth 16

end Format

inductive Instruction where
  | lodd | stod | addd | subd | jpos | jzer | jump | loco
  | lodl | stol | addl | subl | jneg | jnze | call
  | pshi | popi | push | pop | retn | swap
  | insp | desp
  deriving DecidableEq, Repr

namespace Instruction

/-- The instruction set in the order of the opcodes. -/
def all : List Instruction :=
  [.lodd, .stod, .addd, .subd, .jpos, .jzer, .jump, .loco, .lodl, .stol, .addl, .subl, .jneg,
    .jnze, .call, .pshi, .popi, .push, .pop, .retn, .swap, .insp, .desp]

@[simp] theorem mem_all (i : Instruction) : i ∈ all := by cases i <;> decide

def mnemonic : Instruction → Text
  | lodd => "LODD".toList
  | stod => "STOD".toList
  | addd => "ADDD".toList
  | subd => "SUBD".toList
  | jpos => "JPOS".toList
  | jzer => "JZER".toList
  | jump => "JUMP".toList
  | loco => "LOCO".toList
  | lodl => "LODL".toList
  | stol => "STOL".toList
  | addl => "ADDL".toList
  | subl => "SUBL".toList
  | jneg => "JNEG".toList
  | jnze => "JNZE".toList
  | call => "CALL".toList
  | pshi => "PSHI".toList
  | popi => "POPI".toList
  | push => "PUSH".toList
  | pop => "POP".toList
  | retn => "RETN".toList
  | swap => "SWAP".toList
  | insp => "INSP".toList
  | desp => "DESP".toList

@[simp] theorem mnemonic_ne_nil (i : Instruction) : i.mnemonic ≠ [] := by cases i <;> decide

/-- Mnemonics are written in capital letters. -/
theorem isUpper_of_mem_mnemonic {i : Instruction} {c : Char} (h : c ∈ i.mnemonic) :
    c.isUpper = true := by
  have hall : i.mnemonic.all Char.isUpper = true := by cases i <;> rfl
  exact List.all_eq_true.1 hall c h

/-- The word of the instruction with all operand bits clear. -/
def opcode : Instruction → Word
  | lodd => 0x0000
  | stod => 0x1000
  | addd => 0x2000
  | subd => 0x3000
  | jpos => 0x4000
  | jzer => 0x5000
  | jump => 0x6000
  | loco => 0x7000
  | lodl => 0x8000
  | stol => 0x9000
  | addl => 0xa000
  | subl => 0xb000
  | jneg => 0xc000
  | jnze => 0xd000
  | call => 0xe000
  | pshi => 0xf000
  | popi => 0xf200
  | push => 0xf400
  | pop => 0xf600
  | retn => 0xf800
  | swap => 0xfa00
  | insp => 0xfc00
  | desp => 0xfe00

def format : Instruction → Format
  | loco => .constant
  | pshi | popi | push | pop | retn | swap => .bare
  | insp | desp => .byte
  | _ => .address

/-- The opcode leaves the operand bits clear. -/
@[simp] theorem opcode_and_operandMask (i : Instruction) :
    i.opcode &&& i.format.operandMask = 0 := by
  cases i <;> rfl

/-- The fixed leading bits. -/
def opcodeBits (i : Instruction) : Text := i.opcode.binary.take i.format.opcodeWidth

/-- A word belongs to the instruction when only its operand bits differ from the opcode. -/
def covers (i : Instruction) (w : Word) : Bool := w &&& ~~~i.format.operandMask == i.opcode

theorem covers_iff {i : Instruction} {w : Word} :
    i.covers w = true ↔ w &&& ~~~i.format.operandMask = i.opcode := beq_iff_eq

/-- The instruction with exactly this mnemonic. -/
def ofMnemonic? (name : Text) : Option Instruction := all.find? (·.mnemonic == name)

@[simp] theorem ofMnemonic?_mnemonic (i : Instruction) : ofMnemonic? i.mnemonic = some i := by
  cases i <;> rfl

theorem ofMnemonic?_eq_some_iff {name : Text} {i : Instruction} :
    ofMnemonic? name = some i ↔ i.mnemonic = name := by
  constructor
  · intro h
    have he := List.find?_some h
    exact eq_of_beq he
  · rintro rfl
    simp

theorem ofMnemonic?_eq_none_iff {name : Text} :
    ofMnemonic? name = none ↔ ∀ i : Instruction, i.mnemonic ≠ name := by
  simp [ofMnemonic?]

/-- The instruction that a word belongs to. -/
def ofWord? (w : Word) : Option Instruction := all.find? (·.covers w)

end Instruction

/-- An operand as the number it stands for and as its plain bits. -/
structure Operand where
  value : Int
  bits : Nat
  deriving DecidableEq, Repr

namespace Word

def leadingHalfByte (w : Word) : Nat := w.toNat >>> 12

def leadingByte (w : Word) : Nat := w.toNat >>> 8

/-- Only a constant is signed; an absent operand reads as zero. -/
def operand (w : Word) : Operand :=
  if w.leadingHalfByte ≤ 0xe then
    let field := w.setWidth 12
    ⟨if w.leadingHalfByte = 0x7 then field.toInt else field.toNat, field.toNat⟩
  else if w.leadingByte = 0xfc ∨ w.leadingByte = 0xfe then
    let field := w.setWidth 8
    ⟨field.toNat, field.toNat⟩
  else ⟨0, 0⟩

/-- The operand as a decimal number. -/
def operandDecimal (w : Word) : Text := Numeral.decimal w.operand.value

/-- The operand bits as four hexadecimal digits. -/
def operandHex (w : Word) : Text := (Numeral.hex w.operand.bits).padLeft '0' 4

/-- The instruction that a word stands for, as assembly text. -/
def disassemble (w : Word) : Text :=
  match Instruction.ofWord? w with
  | none => "???".toList
  | some i =>
    match i.format with
    | .bare => i.mnemonic
    | _ => i.mnemonic ++ ' ' :: w.operandDecimal

end Word

end Mac1
