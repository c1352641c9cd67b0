import Mac1.Instruction

/-!
Main memory: 4096 words, and beside each word the row that is shown of it. A write renews the row
of its cell and touches no other. Memory is filled from the text of a listing: of each line only the
part before the first slash counts, and only when it is sixteen binary digits. Any other line is
skipped, and so is every line that starts as a report does.
-/
namespace Mac1

/-- What is shown of one memory cell: its address, its bits and its operand in two number
systems. -/
structure Row where
  address : UInt16
  binary : Text
  decimal : Text
  hex : Text
  deriving DecidableEq, Repr

namespace Row

/-- The row of a cell that holds `w`. -/
def ofWord (address : UInt16) (w : Word) : Row :=
  ⟨address, w.binary, w.operandDecimal, w.operandHex⟩

/-- The address with at least four digits. -/
def addressText (r : Row) : Text := (Numeral.decimal r.address.toNat).padLeft '0' 4

/-- The row as one line. -/
def text (r : Row) : Text :=
  r.addressText ++ ' ' :: r.binary ++ ' ' :: r.decimal.padLeft ' ' 6 ++ ' ' :: r.hex

end Row

inductive MemoryFault where
  | addressOutOfRange (address : Int)
  | notLinked
  deriving DecidableEq, Repr

namespace MemoryFault

def message : MemoryFault → Text
  | addressOutOfRange address =>
    "memory address ".toList ++ Numeral.decimal address ++ " is out of range (0-".toList ++
      Numeral.decimal lastAddress ++ ")".toList
  | notLinked => "main memory is not linked".toList

/-- A stable name of the cause. -/
def code : MemoryFault → Text
  | addressOutOfRange _ => "memory::address".toList
  | notLinked => "memory::not_linked".toList

/-- What to do about it. -/
def help : MemoryFault → Text
  | addressOutOfRange _ => "main memory holds 4096 words, addressed from 0 to 4095".toList
  | notLinked => "attach a memory store with `link_memory` before writing the program".toList

end MemoryFault

@[ext]
structure Memory where
  words : Vector Word memorySize
  rows : Vector Row memorySize

namespace Memory

/-- The row of the cell with the given index. -/
def rowAt (index : Fin memorySize) (w : Word) : Row := Row.ofWord (UInt16.ofNat index) w

/-- All words zero. -/
def blank : Memory where
  words := Vector.replicate memorySize 0
  rows := Vector.ofFn fun i => rowAt i 0

/-- The cell that an address stands for. Irreducible: the comparison with the size must not be
evaluated on a variable address. -/
@[irreducible]
def index? (address : Int) : Option (Fin memorySize) :=
  if h : 0 ≤ address ∧ address < memorySize then some ⟨address.toNat, by omega⟩ else none

theorem index?_eq_some_iff {address : Int} {i : Fin memorySize} :
    index? address = some i ↔ address = (i : Nat) := by
  have hi := i.isLt
  unfold index?
  split
  · rw [Option.some.injEq, Fin.ext_iff]
    dsimp only
    omega
  · simp only [reduceCtorEq, false_iff]
    omega

def index (address : Int) : Except MemoryFault (Fin memorySize) :=
  match index? address with
  | some i => .ok i
  | none => .error (.addressOutOfRange address)

theorem index_of_lt {a : Nat} (h : a < memorySize) : index a = .ok ⟨a, h⟩ := by
  have hi : index? a = some ⟨a, h⟩ := index?_eq_some_iff.2 rfl
  rw [index, hi]

theorem index_of_not_mem {a : Int} (h : ¬(0 ≤ a ∧ a < memorySize)) :
    index a = .error (.addressOutOfRange a) := by
  have hi : index? a = none := by rw [index?, dif_neg h]
  rw [index, hi]

def set (m : Memory) (i : Fin memorySize) (w : Word) : Memory where
  words := m.words.set i w
  rows := m.rows.set i (rowAt i w)

@[simp] theorem toList_words_set (m : Memory) (i : Fin memorySize) (w : Word) :
    (m.set i w).words.toList = m.words.toList.set i w :=
  Vector.toList_set (h := i.isLt)

theorem get_words_set (m : Memory) (i j : Fin memorySize) (w : Word) :
    (m.set i w).words.get j = if i = j then w else m.words.get j := by
  simp only [Fin.ext_iff]
  exact @Vector.getElem_set _ _ m.words i w i.isLt j j.isLt

theorem get_rows_set (m : Memory) (i j : Fin memorySize) (w : Word) :
    (m.set i w).rows.get j = if i = j then rowAt i w else m.rows.get j := by
  simp only [Fin.ext_iff]
  exact @Vector.getElem_set _ _ m.rows i (rowAt i w) i.isLt j j.isLt

def write (m : Memory) (address : Int) (w : Word) : Except MemoryFault Memory :=
  (index address).map fun i => m.set i w

theorem write_of_lt (m : Memory) {a : Nat} (h : a < memorySize) (w : Word) :
    m.write a w = .ok (m.set ⟨a, h⟩ w) := by
  rw [write, index_of_lt h]
  rfl

theorem write_of_not_mem (m : Memory) {a : Int} (h : ¬(0 ≤ a ∧ a < memorySize)) (w : Word) :
    m.write a w = .error (.addressOutOfRange a) := by
  rw [write, index_of_not_mem h]
  rfl

def read (m : Memory) (address : Int) : Except MemoryFault Word :=
  (index address).map fun i => m.words[i]

theorem read_of_lt (m : Memory) {a : Nat} (h : a < memorySize) :
    m.read a = .ok (m.words.get ⟨a, h⟩) := by
  rw [read, index_of_lt h]
  rfl

theorem read_of_not_mem (m : Memory) {a : Int} (h : ¬(0 ≤ a ∧ a < memorySize)) :
    m.read a = .error (.addressOutOfRange a) := by
  rw [read, index_of_not_mem h]
  rfl

def row (m : Memory) (address : Int) : Except MemoryFault Row :=
  (index address).map fun i => m.rows[i]

theorem row_of_lt (m : Memory) {a : Nat} (h : a < memorySize) :
    m.row a = .ok (m.rows.get ⟨a, h⟩) := by
  rw [row, index_of_lt h]
  rfl

theorem row_of_not_mem (m : Memory) {a : Int} (h : ¬(0 ≤ a ∧ a < memorySize)) :
    m.row a = .error (.addressOutOfRange a) := by
  rw [row, index_of_not_mem h]
  rfl

/-- Set every word to zero. -/
def clear (m : Memory) : Memory where
  words := m.words.map fun _ => 0
  rows := m.rows.mapFinIdx fun i _ h => rowAt ⟨i, h⟩ 0

/-- Clearing renews words and rows alike, whatever they were. -/
@[simp] theorem clear_eq_blank (m : Memory) : m.clear = blank := by
  have hwords : m.clear.words = blank.words := by
    apply Vector.ext
    intro i hi
    rw [clear, blank, Vector.getElem_map, Vector.getElem_replicate]
  have hrows : m.clear.rows = blank.rows := by
    apply Vector.ext
    intro i hi
    rw [clear, blank, Vector.getElem_mapFinIdx, Vector.getElem_ofFn]
  exact Memory.ext hwords hrows

@[simp] theorem toList_words_blank : blank.words.toList = List.replicate memorySize 0 :=
  Vector.toList_replicate

@[simp] theorem get_words_blank (i : Fin memorySize) : blank.words.get i = 0 :=
  Vector.getElem_replicate i.isLt

@[simp] theorem get_rows_blank (i : Fin memorySize) : blank.rows.get i = rowAt i 0 :=
  Vector.getElem_ofFn i.isLt

/-- Write words to consecutive addresses, up to the first address that does not exist. The words
written before stay. The result is the address after the last word. -/
def writeFrom (m : Memory) (address : Nat) : List Word → Except MemoryFault Nat × Memory
  | [] => (.ok address, m)
  | w :: ws =>
    match m.write address w with
    | .error fault => (.error fault, m)
    | .ok m' => m'.writeFrom (address + 1) ws

@[simp] theorem writeFrom_nil (m : Memory) (a : Nat) : m.writeFrom a [] = (.ok a, m) := rfl

theorem writeFrom_cons_ok {m m' : Memory} {a : Nat} {w : Word} (h : m.write a w = .ok m')
    (ws : List Word) : m.writeFrom a (w :: ws) = m'.writeFrom (a + 1) ws := by
  rw [writeFrom, h]

theorem writeFrom_cons_error {m : Memory} {a : Nat} {w : Word} {fault : MemoryFault}
    (h : m.write a w = .error fault) (ws : List Word) :
    m.writeFrom a (w :: ws) = (.error fault, m) := by
  rw [writeFrom, h]

end Memory

/-- How a text starts that stands in the place of a listing. -/
def errorMarker : Text := "ERROR".toList

/-- The machine word of a listing line. -/
def machineWord? (line : Text) : Option Word :=
  if line.isEmpty || line.head? = some '/' || errorMarker.isPrefixOf line then none
  else Word.ofBinary? (Text.trim (line.takeWhile (· ≠ '/')))

@[simp] theorem machineWord?_nil : machineWord? [] = none := rfl

@[simp] theorem machineWord?_slash (rest : Text) : machineWord? ('/' :: rest) = none := rfl

@[simp] theorem machineWord?_errorMarker (rest : Text) :
    machineWord? (errorMarker ++ rest) = none := rfl

/-- The machine words of a listing, in order. -/
def machineWords (listing : Text) : List Word := (Text.lines listing).filterMap machineWord?

/-- Replace the contents by the machine words of a listing. The result is their number. -/
def Memory.load (m : Memory) (listing : Text) : Except MemoryFault Nat × Memory :=
  m.clear.writeFrom 0 (machineWords listing)

end Mac1
