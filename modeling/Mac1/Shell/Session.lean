import Mac1.Shell.Disk
import Mac1.Workbench

/-!
The commands of the program as scripts. A script says what it is about to do before it reads a file,
and ends with exit code 0 on success and with 1 when a file or the program in it is at fault. What
lies outside of the commands is a parameter: how arguments are read, and how a style is put on a
text. The command that watches a file is left out: it never ends, and a script does.
-/
namespace Mac1.Shell

/-- Environment variables with their values. -/
structure Environment where
  bindings : List (Text × Text)
  deriving DecidableEq, Repr

def Environment.value? (e : Environment) (name : String) : Option Text :=
  e.bindings.lookup name.toList

inductive Style where
  | bold | dim | green | yellow | cyan
  deriving DecidableEq, Repr

/-- How a style is put on a text. -/
abbrev Paint := Style → Text → Text

def Paint.plain : Paint := fun _ t => t

@[simp] theorem Paint.plain_apply (s : Style) (t : Text) : Paint.plain s t = t := rfl

structure Settings where
  strict : Bool
  minimal : Bool
  deriving DecidableEq, Repr

namespace Settings

/-- A variable switches a setting on when its value is exactly `1`. -/
def ofEnvironment (e : Environment) : Settings :=
  ⟨e.value? "MIC1_STRICT" == some "1".toList, e.value? "MIC1_MINIMAL" == some "1".toList⟩

/-- A flag switches a setting on but never off. -/
def withFlags (s : Settings) (strict minimal : Bool) : Settings :=
  ⟨s.strict || strict, s.minimal || minimal⟩

/-- Minimal output is plain. -/
def paint (s : Settings) (paint : Paint) : Paint := if s.minimal then Paint.plain else paint

end Settings

namespace Display

/-- A verb in a column of twelve characters, and what it is about. A field is padded before it is
painted, so that colour does not change the columns. -/
def status (paint : Paint) (verb : String) (about : Text) : Text :=
  paint .green (Text.padLeft ' ' 12 verb.toList) ++ ' ' :: about

def target (path : Text) : Text := "target ".toList ++ path

def wordCount (n : Nat) : Text := Numeral.decimal n ++ " words".toList

/-- The heading of a table of rows. -/
def header (paint : Paint) : Text :=
  paint .bold
    (Text.padRight ' ' 7 "address".toList ++ ' ' :: Text.padRight ' ' 16 "binary".toList ++
      ' ' :: Text.padLeft ' ' 7 "decimal".toList ++ ' ' :: Text.padLeft ' ' 4 "hex".toList ++
      "  instruction".toList)

/-- The row of a cell that holds `w`, with the instruction beside it. -/
def row (paint : Paint) (r : Row) (w : Word) : Text :=
  paint .dim (r.addressText.padRight ' ' 7) ++ ' ' :: r.binary ++
    ' ' :: paint .yellow (r.decimal.padLeft ' ' 7) ++
    ' ' :: paint .cyan (r.hex.padLeft ' ' 4) ++
    "  ".toList ++ paint .green w.disassemble

end Display

/-- What a command does to the outside, step by step: it prints lines, reads files, writes files and
ends with an exit code. -/
inductive Script where
  | exit (code : Nat)
  | print (line : Text) (next : Script)
  | read (path : Text) (next : Option ByteArray → Script)
  | write (path : Text) (content : ByteArray) (next : Bool → Script)

structure Outcome where
  exitCode : Nat
  output : Text
  disk : Disk

namespace Script

/-- Run a script on a disk. Nothing printed is taken back when a later step fails. -/
def run (disk : Disk) : Script → Outcome
  | exit code => ⟨code, [], disk⟩
  | print line next =>
    let o := next.run disk
    { o with output := line ++ '\n' :: o.output }
  | read path next => (next (disk.read? path)).run disk
  | write path content next =>
    match disk.write? path content with
    | some disk' => (next true).run disk'
    | none => (next false).run disk

section Run

variable (disk : Disk)

@[simp] theorem run_exit (code : Nat) : (exit code).run disk = ⟨code, [], disk⟩ := rfl

@[simp] theorem run_print (line : Text) (next : Script) :
    (print line next).run disk =
      ⟨(next.run disk).exitCode, line ++ '\n' :: (next.run disk).output, (next.run disk).disk⟩ :=
  rfl

@[simp] theorem run_read (path : Text) (next : Option ByteArray → Script) :
    (read path next).run disk = (next (disk.read? path)).run disk := rfl

theorem run_write_some {disk' : Disk} {path : Text} {content : ByteArray}
    (h : disk.write? path content = some disk') (next : Bool → Script) :
    (write path content next).run disk = (next true).run disk' := by
  rw [run, h]

theorem run_write_none {path : Text} {content : ByteArray}
    (h : disk.write? path content = none) (next : Bool → Script) :
    (write path content next).run disk = (next false).run disk := by
  rw [run, h]

end Run

/-- Print several lines. -/
def printAll (lines : List Text) (next : Script) : Script := lines.foldr .print next

@[simp] theorem printAll_nil (next : Script) : printAll [] next = next := rfl

@[simp] theorem printAll_cons (line : Text) (lines : List Text) (next : Script) :
    printAll (line :: lines) next = .print line (printAll lines next) := rfl

@[simp] theorem run_printAll (disk : Disk) (lines : List Text) (next : Script) :
    (printAll lines next).run disk =
      ⟨(next.run disk).exitCode, Text.unlines lines ++ (next.run disk).output,
        (next.run disk).disk⟩ := by
  induction lines with
  | nil => simp
  | cons line lines ih => simp [ih]

/-- The characters of a UTF-8 file. -/
def decode? (content : ByteArray) : Option Text := (String.fromUTF8? content).map String.toList

/-- The UTF-8 file of a text. -/
def encode (t : Text) : ByteArray := (String.ofList t).toUTF8

@[simp] theorem decode?_encode (t : Text) : decode? (encode t) = some t := by
  rw [decode?, encode, String.fromUTF8?, String.toUTF8_eq_toByteArray,
    dif_pos (String.ofList t).isValidUTF8]
  exact congrArg some String.toList_ofList

end Script

/-- The text of a file that can be read and is a text. -/
def Disk.text? (d : Disk) (path : Text) : Option Text := (d.read? path).bind Script.decode?

theorem Disk.text?_of_locate {d : Disk} {path t : Text} {place : Place}
    (h : d.locate path = some place) (hfile : d.node? place = some (.file (Script.encode t))) :
    d.text? path = some t := by
  simp [text?, read?, h, hfile]

/-- The file at a path is a text, and that of a program. -/
def Disk.Holds (d : Disk) (strict : Bool) (path text : Text) (p : Program) : Prop :=
  d.text? path = some text ∧ assemble strict text = .ok p

namespace Script

/-- Go on with the text of a file; a file that cannot be read or is no text is a failure. -/
def withText (path : Text) (next : Text → Script) : Script :=
  .read path fun content =>
    match content.bind decode? with
    | some text => next text
    | none => .exit 1

theorem run_withText_some {disk : Disk} {path text : Text} (h : disk.text? path = some text)
    (next : Text → Script) : (withText path next).run disk = (next text).run disk := by
  rw [Disk.text?] at h
  rw [withText, run_read, h]

theorem run_withText_none {disk : Disk} {path : Text} (h : disk.text? path = none)
    (next : Text → Script) : (withText path next).run disk = ⟨1, [], disk⟩ := by
  rw [Disk.text?] at h
  rw [withText, run_read, h, run_exit]

/-- Go on with the program in a file; a file that holds none is a failure. -/
def withProgram (strict : Bool) (path : Text) (next : Program → Script) : Script :=
  withText path fun text =>
    match assemble strict text with
    | .error _ => .exit 1
    | .ok program => next program

theorem run_withProgram {disk : Disk} {strict : Bool} {path text : Text} {p : Program}
    (h : disk.Holds strict path text p) (next : Program → Script) :
    (withProgram strict path next).run disk = (next p).run disk := by
  rw [withProgram, run_withText_some h.1, h.2]

theorem run_withProgram_none {disk : Disk} {strict : Bool} {path : Text}
    (h : ¬∃ text p, disk.Holds strict path text p) (next : Program → Script) :
    (withProgram strict path next).run disk = ⟨1, [], disk⟩ := by
  cases htext : disk.text? path with
  | none => exact run_withText_none htext _
  | some text =>
    rw [withProgram, run_withText_some htext]
    cases hp : assemble strict text with
    | error d => rfl
    | ok p => exact absurd ⟨text, p, htext, hp⟩ h

end Script

/-- The cells from `first` to `last`, all of them or those that are not zero. -/
structure Selection where
  first : Nat
  last : Nat
  all : Bool
  deriving DecidableEq, Repr

inductive Command where
  | assemble (source : Text) (destination : Option Text)
  | check (source : Text)
  | load (source : Text) (cells : Selection)
  | decode (words : List Text)
  deriving DecidableEq, Repr

/-- How a command works and prints. -/
structure Manner where
  strict : Bool
  paint : Paint

namespace Manner

def status (m : Manner) (verb : String) (about : Text) : Text := Display.status m.paint verb about

/-- Where the listing of a source is saved, by default beside it under the extension `lst`. -/
def savedAs (source : Text) (destination : Option Text) : Text :=
  destination.getD (Path.withExtension source "lst".toList)

@[simp] theorem savedAs_none (source : Text) :
    savedAs source none = Path.withExtension source "lst".toList := rfl

@[simp] theorem savedAs_some (source destination : Text) :
    savedAs source (some destination) = destination := rfl

/-- Assemble a file and save the listing. -/
def assemble (m : Manner) (source : Text) (destination : Option Text) : Script :=
  .print (m.status "Assembling" (Display.target source)) <|
  .withProgram m.strict source fun program =>
    .write (savedAs source destination) (Script.encode program.listing) fun written =>
      if written then
        .print (m.status "Finished" (Display.wordCount program.size)) <|
        .print (m.status "Saved" (Display.target (savedAs source destination))) <|
        .exit 0
      else .exit 1

/-- Assemble a file and count its words and symbols. -/
def check (m : Manner) (source : Text) : Script :=
  .print (m.status "Checking" (Display.target source)) <|
  .withProgram m.strict source fun program =>
    .print (m.status "Success" ("no errors found! ".toList ++ Display.wordCount program.size ++
      ", ".toList ++ Numeral.decimal program.symbols.size ++ " symbols".toList)) <|
    .exit 0

/-- The table of the selected cells, without the zero words unless all are wanted. -/
def table (m : Manner) (memory : Memory) (cells : Selection) : List Text :=
  let all := memory.rows.toList.zip memory.words.toList
  let shown := ((all.take (cells.last + 1)).drop cells.first).filter fun c => cells.all || c.2 ≠ 0
  Display.header m.paint :: shown.map fun c => Display.row m.paint c.1 c.2

/-- Tell how many words were loaded and show the selected cells. -/
def showLoaded (m : Manner) (count : Nat) (memory : Memory) (cells : Selection) : Script :=
  .print (m.status "Loaded" (Display.wordCount count)) <|
  .printAll (m.table memory cells) <|
  .exit 0

@[simp] theorem run_showLoaded (m : Manner) (count : Nat) (memory : Memory) (cells : Selection)
    (disk : Disk) :
    (m.showLoaded count memory cells).run disk =
      ⟨0, Text.unlines (m.status "Loaded" (Display.wordCount count) :: m.table memory cells),
        disk⟩ := by
  simp [showLoaded]

/-- Assemble a source on a workbench and send it to a new memory. -/
def loadSource (m : Manner) (text : Text) (cells : Selection) : Script :=
  match (((Workbench.new text).setStrict m.strict).link Memory.blank).assemble with
  | (.error _, _) => .exit 1
  | (.ok _, bench) =>
    match bench.send with
    | (.error _, _) => .exit 1
    | (.ok count, sent) =>
      match sent.unlink.1 with
      | none => .exit 1
      | some memory => m.showLoaded count memory cells

/-- Load a listing into a new memory. -/
def loadListing (m : Manner) (text : Text) (cells : Selection) : Script :=
  match Memory.blank.load text with
  | (.error _, _) => .exit 1
  | (.ok count, memory) => m.showLoaded count memory cells

/-- Load a file, a source by the extension `asm` and any other file as a listing, and show the
selected cells. The selection ends at the last cell and must not be empty. -/
def load (m : Manner) (source : Text) (cells : Selection) : Script :=
  let cells := { cells with last := min cells.last (memorySize - 1) }
  if cells.first > cells.last then .exit 1
  else
    .withText source fun text =>
      if Path.extension? source = some "asm".toList then
        .print (m.status "Assembling" (Display.target source)) (m.loadSource text cells)
      else .print (m.status "Reading" (Display.target source)) (m.loadListing text cells)

/-- The rows of words that stand at consecutive addresses, up to the first that is not a word. -/
def decodeFrom (m : Manner) (address : Nat) : List Text → Script
  | [] => .exit 0
  | t :: rest =>
    match Word.ofNumeral? t with
    | none => .exit 1
    | some w =>
      .print (Display.row m.paint (Row.ofWord (UInt16.ofNat address) w) w) <|
      m.decodeFrom (address + 1) rest

@[simp] theorem decodeFrom_nil (m : Manner) (address : Nat) : m.decodeFrom address [] = .exit 0 :=
  rfl

theorem decodeFrom_cons_some {t : Text} {w : Word} (h : Word.ofNumeral? t = some w) (m : Manner)
    (address : Nat) (rest : List Text) :
    m.decodeFrom address (t :: rest) =
      .print (Display.row m.paint (Row.ofWord (UInt16.ofNat address) w) w)
        (m.decodeFrom (address + 1) rest) := by
  rw [decodeFrom, h]

theorem decodeFrom_cons_none {t : Text} (h : Word.ofNumeral? t = none) (m : Manner)
    (address : Nat) (rest : List Text) : m.decodeFrom address (t :: rest) = .exit 1 := by
  rw [decodeFrom, h]

/-- Show words as if they stood in memory from address zero. -/
def decode (m : Manner) (words : List Text) : Script :=
  .print (Display.header m.paint) (m.decodeFrom 0 words)

def command (m : Manner) : Command → Script
  | .assemble source destination => m.assemble source destination
  | .check source => m.check source
  | .load source cells => m.load source cells
  | .decode words => m.decode words

@[simp] theorem command_assemble (m : Manner) (source : Text) (destination : Option Text) :
    m.command (.assemble source destination) = m.assemble source destination := rfl

@[simp] theorem command_check (m : Manner) (source : Text) :
    m.command (.check source) = m.check source := rfl

@[simp] theorem command_load (m : Manner) (source : Text) (cells : Selection) :
    m.command (.load source cells) = m.load source cells := rfl

@[simp] theorem command_decode (m : Manner) (words : List Text) :
    m.command (.decode words) = m.decode words := rfl

/-- How a command works with the given flags in an environment. -/
def under (paint : Paint) (e : Environment) (strict minimal : Bool) : Manner :=
  let settings := (Settings.ofEnvironment e).withFlags strict minimal
  ⟨settings.strict, settings.paint paint⟩

@[simp] theorem strict_under (paint : Paint) (e : Environment) (strict minimal : Bool) :
    (under paint e strict minimal).strict =
      (e.value? "MIC1_STRICT" == some "1".toList || strict) := rfl

@[simp] theorem paint_under (paint : Paint) (e : Environment) (strict minimal : Bool) :
    (under paint e strict minimal).paint =
      if e.value? "MIC1_MINIMAL" == some "1".toList || minimal then Paint.plain else paint := rfl

end Manner

/-- What the program says when it is given no command. -/
def banner : List Text :=
  ["".toList,
    "~ mic1 v0.1.0 ~".toList,
    "".toList,
    "Welcome to mic1, a two-pass assembler and main memory viewer for the MAC-1".toList,
    "instruction set of the MIC-1 machine.".toList,
    "Please use `-h` or `--help` to access the usage instructions and documentation.".toList,
    "".toList]

/-- What the arguments of the program ask for. -/
structure Request where
  strict : Bool
  minimal : Bool
  command : Option Command
  deriving DecidableEq, Repr

namespace Request

def script (paint : Paint) (e : Environment) (r : Request) : Script :=
  match r.command with
  | none => .printAll banner (.exit 0)
  | some command => (Manner.under paint e r.strict r.minimal).command command

def run (paint : Paint) (e : Environment) (disk : Disk) (r : Request) : Outcome :=
  (r.script paint e).run disk

@[simp] theorem run_none (paint : Paint) (e : Environment) (disk : Disk) (strict minimal : Bool) :
    run paint e disk ⟨strict, minimal, none⟩ = ⟨0, Text.unlines banner, disk⟩ := by
  simp [run, script]

@[simp] theorem run_some (paint : Paint) (e : Environment) (disk : Disk) (strict minimal : Bool)
    (command : Command) :
    run paint e disk ⟨strict, minimal, some command⟩ =
      ((Manner.under paint e strict minimal).command command).run disk := rfl

end Request

/-- Arguments that ask for nothing to be done are answered with lines and an exit code. -/
structure Answer where
  output : List Text
  exitCode : Nat
  deriving DecidableEq, Repr

/-- What the program does with its arguments. -/
def invoke (parse : List Text → Except Answer Request) (paint : Paint) (e : Environment)
    (arguments : List Text) : Script :=
  match parse arguments with
  | .error answer => .printAll answer.output (.exit answer.exitCode)
  | .ok request => request.script paint e

/-- Run the program on a disk. -/
def run (parse : List Text → Except Answer Request) (paint : Paint) (e : Environment)
    (disk : Disk) (arguments : List Text) : Outcome :=
  (invoke parse paint e arguments).run disk

theorem run_of_error {parse : List Text → Except Answer Request} {arguments : List Text}
    {answer : Answer} (h : parse arguments = .error answer) (paint : Paint) (e : Environment)
    (disk : Disk) :
    run parse paint e disk arguments = ⟨answer.exitCode, Text.unlines answer.output, disk⟩ := by
  rw [run, invoke, h]
  simp

theorem run_of_ok {parse : List Text → Except Answer Request} {arguments : List Text}
    {request : Request} (h : parse arguments = .ok request) (paint : Paint) (e : Environment)
    (disk : Disk) : run parse paint e disk arguments = request.run paint e disk := by
  rw [run, invoke, h]
  rfl

end Mac1.Shell
