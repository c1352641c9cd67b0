import Mac1.Instruction
import Mac1.Source

/-!
Why a source does not assemble, where, and in which words a reader is told.
-/
namespace Mac1

inductive Fault where
  | duplicateLabel (name : Text)
  | unknownMnemonic (name : Text)
  | missingOperand (mnemonic : Text)
  | invalidOperand (operand : Text)
  | undefinedSymbol (name : Text)
  | operandOutOfRange (operand : Text) (value max : Int)
  | addressSpaceOverflow (instructions : Nat) (firstVariable : Int)
  deriving DecidableEq, Repr

/-- A text between grave accents. -/
def quoted (t : Text) : Text := '`' :: t ++ ['`']

namespace Fault

def message : Fault → Text
  | duplicateLabel name => "duplicate label ".toList ++ quoted name
  | unknownMnemonic name => "unknown mnemonic ".toList ++ quoted name
  | missingOperand mnemonic =>
    "mnemonic ".toList ++ quoted mnemonic ++ " requires an operand".toList
  | invalidOperand operand =>
    "operand ".toList ++ quoted operand ++ " is not a valid integer".toList
  | undefinedSymbol name => "symbol ".toList ++ quoted name ++ " is not defined".toList
  | operandOutOfRange operand value max =>
    "operand ".toList ++ quoted operand ++ " (".toList ++ Numeral.decimal value ++
      ") is out of range (0-".toList ++ Numeral.decimal max ++ ")".toList
  | addressSpaceOverflow instructions firstVariable =>
    "program of ".toList ++ Numeral.decimal instructions ++
      " words runs into the variable region starting at ".toList ++ Numeral.decimal firstVariable

/-- A stable name of the cause. -/
def code : Fault → Text
  | duplicateLabel _ => "asm::duplicate_label".toList
  | unknownMnemonic _ => "asm::unknown_mnemonic".toList
  | missingOperand _ => "asm::missing_operand".toList
  | invalidOperand _ => "asm::invalid_operand".toList
  | undefinedSymbol _ => "asm::undefined_symbol".toList
  | operandOutOfRange .. => "asm::operand_range".toList
  | addressSpaceOverflow .. => "asm::address_space".toList

/-- What to do about it. -/
def help : Fault → Text
  | duplicateLabel _ => "labels and variables may only be declared once".toList
  | unknownMnemonic _ =>
    "valid mnemonics are".toList ++ Instruction.all.flatMap fun i => ' ' :: i.mnemonic
  | missingOperand _ => "add a label or value after the mnemonic".toList
  | invalidOperand _ => "LOCO, INSP and DESP take a decimal literal like 42".toList
  | undefinedSymbol _ =>
    "declare the label on an instruction, or alone on a line to make a variable".toList
  | operandOutOfRange .. => "INSP and DESP take 0 to 255, addresses range from 0 to 4095".toList
  | addressSpaceOverflow .. => "shorten the program or declare fewer variables".toList

/-- What is written beside the marked place. -/
def remark : Fault → Text
  | duplicateLabel _ => "declared again here".toList
  | unknownMnemonic _ => "unknown mnemonic".toList
  | missingOperand _ => "missing operand".toList
  | invalidOperand _ => "not an integer".toList
  | undefinedSymbol _ => "undefined symbol".toList
  | operandOutOfRange .. => "out of range".toList
  | addressSpaceOverflow .. => "overlaps variables".toList

end Fault

/-- A fault on the line with the given index, at the given place. -/
structure Diagnostic where
  fault : Fault
  line : Nat
  span : Span
  deriving DecidableEq, Repr

namespace Diagnostic

/-- Readers count lines from one. -/
def message (d : Diagnostic) : Text :=
  d.fault.message ++ " on line ".toList ++ Numeral.decimal (d.line + 1)

/-- The text that takes the place of a listing. -/
def report (d : Diagnostic) : Text :=
  "ERROR IN ASSEMBLY:\n".toList ++ d.message ++ "\n\n(Check your code and try again)".toList

end Diagnostic

end Mac1
