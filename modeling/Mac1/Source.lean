import Mac1.Text

/-!
Source lines and the pieces they are cut into. A line that is blank or starts with a slash says
nothing; any other line declares a variable or gives an instruction, which may carry a label. The
first colon of a line ends its label. A token knows its exact byte offset; a span is the compact
form kept in diagnostics, with a start of 32 bits and a length of 16.
-/
namespace Mac1

structure Span where
  start : UInt32
  length : UInt16
  deriving DecidableEq, Repr

namespace Span

/-- The start wraps around at 2³²; a longer piece counts as 65535 bytes. -/
def ofBytes (start length : Nat) : Span :=
  ⟨UInt32.ofNat start, UInt16.ofNat (min length 65535)⟩

@[simp] theorem toNat_start_ofBytes (start length : Nat) :
    (ofBytes start length).start.toNat = start % 0x100000000 :=
  UInt32.toNat_ofNat'

@[simp] theorem toNat_length_ofBytes (start length : Nat) :
    (ofBytes start length).length.toNat = min length 65535 := by
  rw [ofBytes, UInt16.toNat_ofNat']
  omega

/-- The offset after the last byte. -/
def stop (s : Span) : Nat := s.start.toNat + s.length.toNat

end Span

structure Token where
  start : Nat
  text : Text
  deriving DecidableEq, Repr

namespace Token

def span (t : Token) : Span := Span.ofBytes t.start t.text.byteLength

@[simp] theorem toNat_start_span (t : Token) : t.span.start.toNat = t.start % 0x100000000 :=
  Span.toNat_start_ofBytes ..

@[simp] theorem toNat_length_span (t : Token) :
    t.span.length.toNat = min t.text.byteLength 65535 :=
  Span.toNat_length_ofBytes ..

/-- Only the residue of an offset counts, so bytes can be counted on from a span as well as from the
exact offset. -/
theorem ofBytes_span_add (t : Token) (k n : Nat) :
    Span.ofBytes (t.span.start.toNat + k) n = Span.ofBytes (t.start + k) n := by
  have hstart : UInt32.ofNat (t.span.start.toNat + k) = UInt32.ofNat (t.start + k) := by
    apply UInt32.toNat_inj.1
    rw [UInt32.toNat_ofNat', UInt32.toNat_ofNat', toNat_start_span]
    exact Nat.mod_add_mod ..
  rw [Span.ofBytes, Span.ofBytes, hstart]

/-- What stands between the outer blanks of a text that starts at byte `start`. -/
def trimmed (start : Nat) (text : Text) : Token :=
  ⟨start + Text.byteLength (text.takeWhile isBlank), text.trim⟩

@[simp] theorem text_trimmed (start : Nat) (text : Text) : (trimmed start text).text = text.trim :=
  rfl

end Token

inductive Statement where
  | variable (name : Token)
  | instruction (label : Option Token) (body : Token)
  deriving DecidableEq, Repr

namespace Statement

def ofToken (whole : Token) : Statement :=
  match whole.text.dropWhile (· ≠ ':') with
  | [] => .instruction none whole
  | _ :: after =>
    let before := whole.text.takeWhile (· ≠ ':')
    let label := Token.trimmed whole.start before
    let body := Token.trimmed (whole.start + Text.byteLength before + 1) after
    if body.text = [] then .variable label else .instruction (some label) body

end Statement

/-- The body of an instruction: a mnemonic up to the first blank, and the rest as its operand. -/
structure Operation where
  mnemonic : Token
  operand : Option Token
  deriving DecidableEq, Repr

def Operation.ofBody (body : Token) : Operation :=
  let name := body.text.takeWhile (!isBlank ·)
  let rest := Token.trimmed (body.start + Text.byteLength name) (body.text.dropWhile (!isBlank ·))
  ⟨⟨body.start, name⟩, if rest.text = [] then none else some rest⟩

structure Line where
  index : Nat
  whole : Token
  statement : Statement
  deriving DecidableEq, Repr

namespace Line

/-- Read the line with the given index, whose first byte has the offset `start`. -/
def read? (index start : Nat) (raw : Text) : Option Line :=
  let whole := Token.trimmed start raw
  match whole.text with
  | [] => none
  | '/' :: _ => none
  | _ => some ⟨index, whole, Statement.ofToken whole⟩

/-- Read consecutive lines, each followed by one line feed. -/
def readFrom (index start : Nat) : List Text → List Line
  | [] => []
  | raw :: rest =>
    match read? index start raw with
    | none => readFrom (index + 1) (start + raw.byteLength + 1) rest
    | some line => line :: readFrom (index + 1) (start + raw.byteLength + 1) rest

@[simp] theorem readFrom_nil (index start : Nat) : readFrom index start [] = [] := rfl

theorem readFrom_cons (index start : Nat) (raw : Text) (rest : List Text) :
    readFrom index start (raw :: rest) = (read? index start raw).toList ++
      readFrom (index + 1) (start + raw.byteLength + 1) rest := by
  rw [readFrom]
  cases read? index start raw <;> rfl

/-- The lines of a source that say something. -/
def readAll (source : Text) : List Line := readFrom 0 0 (source.splitOn '\n')

/-- A line that says something has a byte of its own besides its line feed. -/
theorem length_readFrom_le (index start : Nat) (raws : List Text) :
    2 * (readFrom index start raws).length ≤ (Text.unlines raws).byteLength := by
  induction raws generalizing index start with
  | nil => simp
  | cons raw rest ih =>
    have hrest := ih (index + 1) (start + raw.byteLength + 1)
    have hline : (read? index start raw).toList.length ≤ raw.byteLength := by
      cases raw with
      | nil => exact Nat.le_refl 0
      | cons c raw =>
        have hbyte := c.utf8Size_pos
        have hone : (read? index start (c :: raw)).toList.length ≤ 1 := by
          cases read? index start (c :: raw) <;> simp
        simp only [Text.byteLength_cons]
        omega
    have hone : (read? index start raw).toList.length ≤ 1 := by
      cases read? index start raw <;> simp
    have hfeed : ('\n').utf8Size = 1 := rfl
    simp only [readFrom_cons, List.length_append, Text.unlines_cons, Text.byteLength_append,
      Text.byteLength_cons, hfeed]
    omega

theorem length_readAll_le (source : Text) : (readAll source).length ≤ source.byteLength := by
  have hlines := length_readFrom_le 0 0 (source.splitOn '\n')
  have hfeed : Text.byteLength ['\n'] = 1 := rfl
  rw [Text.unlines_splitOn, Text.byteLength_append, hfeed] at hlines
  rw [readAll]
  omega

/-- The label that a line declares. -/
def label? (l : Line) : Option Token :=
  match l.statement with
  | .variable name => some name
  | .instruction label _ => label

theorem label?_of_variable {l : Line} {name : Token} (h : l.statement = .variable name) :
    l.label? = some name := by
  rw [label?, h]

theorem label?_of_instruction {l : Line} {label : Option Token} {body : Token}
    (h : l.statement = .instruction label body) : l.label? = label := by
  rw [label?, h]

/-- The operation that a line gives. -/
def operation? (l : Line) : Option Operation :=
  match l.statement with
  | .variable _ => none
  | .instruction _ body => some (Operation.ofBody body)

theorem operation?_of_variable {l : Line} {name : Token}
    (h : l.statement = .variable name) : l.operation? = none := by
  rw [operation?, h]

theorem operation?_of_instruction {l : Line} {label : Option Token} {body : Token}
    (h : l.statement = .instruction label body) :
    l.operation? = some (Operation.ofBody body) := by
  rw [operation?, h]

end Line

end Mac1
