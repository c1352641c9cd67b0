/-!
Texts are lists of characters. Every length that is shown to a reader counts characters; every
position in a source counts the bytes of its UTF-8 form. Blanks are the characters with the Unicode
property `White_Space`. A numeral is a non-empty run of ASCII digits, and an integer may carry one
sign; leading zeros are always read and never written unless a width asks for them.
-/
namespace Mac1

abbrev Text := List Char

/-- The ranges of code points with the property `White_Space`, both ends included. -/
def blankRanges : List (Nat × Nat) :=
  [(0x9, 0xd), (0x20, 0x20), (0x85, 0x85), (0xa0, 0xa0), (0x1680, 0x1680), (0x2000, 0x200a),
    (0x2028, 0x2029), (0x202f, 0x202f), (0x205f, 0x205f), (0x3000, 0x3000)]

def isBlank (c : Char) : Bool :=
  blankRanges.any fun r => r.1 ≤ c.toNat && c.toNat ≤ r.2

namespace Text

/-- The number of bytes of the UTF-8 form. -/
def byteLength : Text → Nat
  | [] => 0
  | c :: t => c.utf8Size + byteLength t

@[simp] theorem byteLength_nil : byteLength [] = 0 := rfl

@[simp] theorem byteLength_cons (c : Char) (t : Text) :
    byteLength (c :: t) = c.utf8Size + byteLength t := rfl

@[simp] theorem byteLength_append (s t : Text) :
    byteLength (s ++ t) = byteLength s + byteLength t := by
  induction s with
  | nil => simp
  | cons c s ih => simp [ih, Nat.add_assoc]

/-- Fill up to `width` characters on the left. -/
def padLeft (fill : Char) (width : Nat) (t : Text) : Text :=
  List.replicate (width - t.length) fill ++ t

@[simp] theorem length_padLeft (fill : Char) (width : Nat) (t : Text) :
    (padLeft fill width t).length = max width t.length := by
  simp only [padLeft, List.length_append, List.length_replicate]
  omega

/-- Fill up to `width` characters on the right. -/
def padRight (fill : Char) (width : Nat) (t : Text) : Text :=
  t ++ List.replicate (width - t.length) fill

/-- Lines, each with a line feed after it. -/
def unlines (lines : List Text) : Text := lines.flatMap (· ++ ['\n'])

@[simp] theorem unlines_nil : unlines [] = [] := rfl

@[simp] theorem unlines_cons (line : Text) (lines : List Text) :
    unlines (line :: lines) = line ++ '\n' :: unlines lines := by
  simp [unlines]

@[simp] theorem unlines_append (xs ys : List Text) :
    unlines (xs ++ ys) = unlines xs ++ unlines ys :=
  List.flatMap_append

/-- The last line gets a line feed as well. -/
theorem unlines_splitOn (t : Text) : unlines (t.splitOn '\n') = t ++ ['\n'] := by
  induction t with
  | nil => rfl
  | cons c t ih =>
    rw [List.splitOn_cons_eq_if_modifyHead]
    split
    · rename_i hc
      have hcons : unlines ([] :: t.splitOn '\n') = '\n' :: unlines (t.splitOn '\n') := rfl
      rw [hcons, ih, eq_of_beq hc, List.cons_append]
    · obtain ⟨first, rest, hsplit⟩ := List.exists_cons_of_ne_nil (List.splitOn_ne_nil '\n' t)
      rw [hsplit] at ih
      have hcons : unlines ((c :: first) :: rest) = c :: unlines (first :: rest) := rfl
      rw [hsplit, List.modifyHead_cons, hcons, ih, List.cons_append]

/-- A line without the carriage return that stands before its line feed. -/
def dropReturn (line : Text) : Text :=
  if line.getLast? = some '\r' then line.dropLast else line

@[simp] theorem dropReturn_concat (line : Text) : dropReturn (line ++ ['\r']) = line := by
  simp [dropReturn]

/-- The lines of a text. A line feed ends a line, together with a carriage return before it; what
stands after the last line feed is a line unless it is empty. -/
def lines (t : Text) : List Text :=
  let pieces := t.splitOn '\n'
  pieces.dropLast.map dropReturn ++ pieces.getLast?.toList.filter (· ≠ [])

def trimLeft (t : Text) : Text := t.dropWhile isBlank

def trimRight (t : Text) : Text := (t.reverse.dropWhile isBlank).reverse

/-- The text between its outer blanks. -/
def trim (t : Text) : Text := trimRight (trimLeft t)

@[simp] theorem trimLeft_nil : trimLeft [] = [] := rfl

@[simp] theorem trimRight_nil : trimRight [] = [] := rfl

@[simp] theorem trim_nil : trim [] = [] := rfl

end Text

namespace Numeral

/-- The value of a digit, the letters of either case continuing after nine. -/
def digitValue (c : Char) : Option Nat :=
  if '0' ≤ c ∧ c ≤ '9' then some (c.toNat - '0'.toNat)
  else if 'a' ≤ c ∧ c ≤ 'f' then some (c.toNat - 'a'.toNat + 10)
  else if 'A' ≤ c ∧ c ≤ 'F' then some (c.toNat - 'A'.toNat + 10)
  else none

/-- The value of a digit that the base has. -/
def digit? (base : Nat) (c : Char) : Option Nat :=
  (digitValue c).filter (· < base)

/-- The value of a numeral whose digits so far have the value `acc`, as long as it does not pass
`limit`. -/
def accumulate? (base limit : Nat) : Nat → Text → Option Nat
  | acc, [] => some acc
  | acc, c :: rest =>
    match digit? base c with
    | none => none
    | some d =>
      let acc' := acc * base + d
      if acc' ≤ limit then accumulate? base limit acc' rest else none

@[simp] theorem accumulate?_nil (base limit acc : Nat) :
    accumulate? base limit acc [] = some acc := rfl

theorem accumulate?_cons_none {base : Nat} {c : Char} (h : digit? base c = none)
    (limit acc : Nat) (rest : Text) : accumulate? base limit acc (c :: rest) = none := by
  rw [accumulate?, h]

theorem accumulate?_cons_some {base d : Nat} {c : Char} (h : digit? base c = some d)
    (limit acc : Nat) (rest : Text) :
    accumulate? base limit acc (c :: rest) =
      if acc * base + d ≤ limit then accumulate? base limit (acc * base + d) rest else none := by
  rw [accumulate?, h]

/-- Read a numeral of a value up to `limit`: at least one digit, and nothing else. -/
def natural? (base limit : Nat) : Text → Option Nat
  | [] => none
  | t => accumulate? base limit 0 t

@[simp] theorem natural?_nil (base limit : Nat) : natural? base limit [] = none := rfl

theorem natural?_of_ne_nil {base limit : Nat} {t : Text} (h : t ≠ []) :
    natural? base limit t = accumulate? base limit 0 t := by
  cases t with
  | nil => exact absurd rfl h
  | cons c t => rfl

/-- Read a numeral after an optional plus. -/
def unsigned? (base limit : Nat) : Text → Option Nat
  | '+' :: t => natural? base limit t
  | t => natural? base limit t

@[simp] theorem unsigned?_plus (base limit : Nat) (t : Text) :
    unsigned? base limit ('+' :: t) = natural? base limit t := rfl

theorem unsigned?_of_ne_plus {t : Text} (h : ∀ u, t ≠ '+' :: u) (base limit : Nat) :
    unsigned? base limit t = natural? base limit t := by
  unfold unsigned?
  split
  · exact absurd rfl (h _)
  · rfl

/-- Read a decimal numeral after an optional sign, for a number from `-below` to `above`. -/
def integer? (below above : Nat) : Text → Option Int
  | '+' :: t => (natural? 10 above t).map fun n : Nat => (n : Int)
  | '-' :: t => (natural? 10 below t).map fun n : Nat => -(n : Int)
  | t => (natural? 10 above t).map fun n : Nat => (n : Int)

@[simp] theorem integer?_plus (below above : Nat) (t : Text) :
    integer? below above ('+' :: t) = (natural? 10 above t).map fun n : Nat => (n : Int) := rfl

@[simp] theorem integer?_minus (below above : Nat) (t : Text) :
    integer? below above ('-' :: t) = (natural? 10 below t).map fun n : Nat => -(n : Int) := rfl

/-- Read an integer that a signed word of 64 bits can hold. -/
def literal? (t : Text) : Option Int :=
  integer? 0x8000000000000000 0x7fffffffffffffff t

/-- Decimal digits, after a minus for a negative number. -/
def decimal : Int → Text
  | .ofNat n => Nat.toDigits 10 n
  | .negSucc n => '-' :: Nat.toDigits 10 (n + 1)

/-- Hexadecimal digits in upper case. -/
def hex (n : Nat) : Text := (Nat.toDigits 16 n).map Char.toUpper

end Numeral

end Mac1
