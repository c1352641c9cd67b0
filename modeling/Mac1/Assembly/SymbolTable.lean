import Mac1.Assembly.Diagnostic
import Std.Data.TreeMap

/-!
The names that a source declares. The label of an instruction stands for the place of that
instruction in the program; variables are placed downwards from the last address, without a
lower bound. Counters and addresses are numbers without a bound as well. While a source of fewer
than 2³¹ bytes is read they stay within signed words of 32 bits (`fits_of_ofLines`).
-/
namespace Mac1

inductive SymbolKind where
  | label | variable
  deriving DecidableEq, Repr

structure Symbol where
  name : Text
  address : Int
  kind : SymbolKind
  line : Nat
  deriving DecidableEq, Repr

/-- The symbols in the order of their declarations and by name, the number of instructions seen,
and the address that the next variable gets. -/
structure SymbolTable where
  symbols : Array Symbol
  index : Std.TreeMap Text Symbol
  instructions : Nat
  nextVariable : Int
  index_eq_find : ∀ name : Text, index[name]? = symbols.toList.find? (·.name == name)

namespace SymbolTable

/-- The symbols in the order of their declarations. -/
def toList (t : SymbolTable) : List Symbol := t.symbols.toList

def size (t : SymbolTable) : Nat := t.symbols.size

@[simp] theorem length_toList (t : SymbolTable) : t.toList.length = t.size := rfl

def find? (t : SymbolTable) (name : Text) : Option Symbol := t.index[name]?

def address? (t : SymbolTable) (name : Text) : Option Int := (t.find? name).map (·.address)

/-- The index finds what a search through the declarations finds. -/
theorem find?_eq (t : SymbolTable) (name : Text) :
    t.find? name = t.toList.find? (·.name == name) :=
  t.index_eq_find name

theorem find?_eq_none_iff (t : SymbolTable) (name : Text) :
    t.find? name = none ↔ name ∉ t.toList.map (·.name) := by
  simp [find?_eq]

def empty : SymbolTable where
  symbols := #[]
  index := ∅
  instructions := 0
  nextVariable := lastAddress
  index_eq_find := by simp

@[simp] theorem toList_empty : empty.toList = [] := rfl

@[simp] theorem instructions_empty : empty.instructions = 0 := rfl

@[simp] theorem nextVariable_empty : empty.nextVariable = lastAddress := rfl

/-- Append a symbol with a new name. -/
def push (t : SymbolTable) (s : Symbol) (new : t.find? s.name = none) : SymbolTable where
  symbols := t.symbols.push s
  index := t.index.insert s.name s
  instructions := t.instructions
  nextVariable := t.nextVariable
  index_eq_find := by
    intro name
    rw [Std.TreeMap.getElem?_insert, Array.toList_push, List.find?_append, ← t.index_eq_find]
    by_cases h : s.name = name
    · subst h
      have absent : t.index[s.name]? = none := new
      simp [absent]
    · simp [h]

section Push

variable (t : SymbolTable) (s : Symbol) (new : t.find? s.name = none)

@[simp] theorem toList_push : (t.push s new).toList = t.toList ++ [s] := by
  simp [push, toList]

@[simp] theorem instructions_push : (t.push s new).instructions = t.instructions := rfl

@[simp] theorem nextVariable_push : (t.push s new).nextVariable = t.nextVariable := rfl

end Push

/-- Declare a name once. -/
def insert (t : SymbolTable) (name : Token) (address : Int) (kind : SymbolKind) (line : Nat) :
    Except Diagnostic SymbolTable :=
  match h : t.find? name.text with
  | some _ => .error ⟨.duplicateLabel name.text, line, name.span⟩
  | none => .ok (t.push ⟨name.text, address, kind, line⟩ h)

section Insert

variable {t t' : SymbolTable} {name : Token} {address : Int} {kind : SymbolKind} {line : Nat}

theorem insert_ok (h : t.insert name address kind line = .ok t') :
    ∃ new : t.find? name.text = none, t' = t.push ⟨name.text, address, kind, line⟩ new := by
  unfold insert at h
  split at h
  · cases h
  · rename_i hnone
    cases h
    exact ⟨hnone, rfl⟩

theorem insert_error {d : Diagnostic} (h : t.insert name address kind line = .error d) :
    t.find? name.text ≠ none ∧ d = ⟨.duplicateLabel name.text, line, name.span⟩ := by
  unfold insert at h
  split at h
  · rename_i s hsome
    cases h
    exact ⟨by simp [hsome], rfl⟩
  · cases h

end Insert

/-- Give the next variable the next address down. -/
def takeVariable (t : SymbolTable) : SymbolTable := { t with nextVariable := t.nextVariable - 1 }

def countInstruction (t : SymbolTable) : SymbolTable :=
  { t with instructions := t.instructions + 1 }

section Counters

variable (t : SymbolTable)

@[simp] theorem toList_takeVariable : t.takeVariable.toList = t.toList := rfl

@[simp] theorem instructions_takeVariable : t.takeVariable.instructions = t.instructions := rfl

@[simp] theorem nextVariable_takeVariable : t.takeVariable.nextVariable = t.nextVariable - 1 := rfl

@[simp] theorem toList_countInstruction : t.countInstruction.toList = t.toList := rfl

@[simp] theorem instructions_countInstruction :
    t.countInstruction.instructions = t.instructions + 1 := rfl

@[simp] theorem nextVariable_countInstruction :
    t.countInstruction.nextVariable = t.nextVariable := rfl

end Counters

/-- Take in the declarations of one line. -/
def declare (t : SymbolTable) (line : Line) : Except Diagnostic SymbolTable :=
  match line.statement with
  | .variable name => (t.insert name t.nextVariable .variable line.index).map takeVariable
  | .instruction (some label) _ =>
    (t.insert label t.instructions .label line.index).map countInstruction
  | .instruction none _ => .ok t.countInstruction

section Declare

variable {t t' : SymbolTable} {l : Line}

theorem declare_variable {name : Token} (h : l.statement = .variable name) :
    t.declare l = (t.insert name t.nextVariable .variable l.index).map takeVariable := by
  rw [declare, h]

theorem declare_label {name body : Token} (h : l.statement = .instruction (some name) body) :
    t.declare l = (t.insert name t.instructions .label l.index).map countInstruction := by
  rw [declare, h]

theorem declare_unlabelled {body : Token} (h : l.statement = .instruction none body) :
    t.declare l = .ok t.countInstruction := by
  rw [declare, h]

/-- A line declares a variable, or it counts as an instruction and may declare a label. -/
theorem declare_ok (h : t.declare l = .ok t') :
    (∃ (name : Token) (new : t.find? name.text = none), l.statement = .variable name ∧
      t' = (t.push ⟨name.text, t.nextVariable, .variable, l.index⟩ new).takeVariable) ∨
    (∃ (name body : Token) (new : t.find? name.text = none),
      l.statement = .instruction (some name) body ∧
      t' = (t.push ⟨name.text, t.instructions, .label, l.index⟩ new).countInstruction) ∨
    (∃ body : Token, l.statement = .instruction none body ∧ t' = t.countInstruction) := by
  cases hs : l.statement with
  | «variable» name =>
    rw [declare_variable hs] at h
    cases hu : t.insert name t.nextVariable .variable l.index with
    | error d =>
      rw [hu] at h
      cases h
    | ok u =>
      rw [hu] at h
      cases h
      obtain ⟨new, rfl⟩ := insert_ok hu
      exact .inl ⟨name, new, rfl, rfl⟩
  | instruction label body =>
    cases label with
    | none =>
      rw [declare_unlabelled hs] at h
      cases h
      exact .inr (.inr ⟨body, rfl, rfl⟩)
    | some name =>
      rw [declare_label hs] at h
      cases hu : t.insert name t.instructions .label l.index with
      | error d =>
        rw [hu] at h
        cases h
      | ok u =>
        rw [hu] at h
        cases h
        obtain ⟨new, rfl⟩ := insert_ok hu
        exact .inr (.inl ⟨name, body, new, rfl, rfl⟩)

/-- A line is refused only for a name that is in the table. -/
theorem declare_error {d : Diagnostic} (h : t.declare l = .error d) :
    ∃ name, l.label? = some name ∧ t.find? name.text ≠ none ∧
      d = ⟨.duplicateLabel name.text, l.index, name.span⟩ := by
  cases hs : l.statement with
  | «variable» name =>
    rw [declare_variable hs] at h
    cases hu : t.insert name t.nextVariable .variable l.index with
    | ok u =>
      rw [hu] at h
      cases h
    | error e =>
      rw [hu] at h
      cases h
      exact ⟨name, Line.label?_of_variable hs, insert_error hu⟩
  | instruction label body =>
    cases label with
    | none =>
      rw [declare_unlabelled hs] at h
      cases h
    | some name =>
      rw [declare_label hs] at h
      cases hu : t.insert name t.instructions .label l.index with
      | ok u =>
        rw [hu] at h
        cases h
      | error e =>
        rw [hu] at h
        cases h
        exact ⟨name, Line.label?_of_instruction hs, insert_error hu⟩

end Declare

/-- Continue a table with the declarations of further lines, up to the first repeated name. -/
def extend : SymbolTable → List Line → Except Diagnostic SymbolTable
  | t, [] => .ok t
  | t, line :: rest =>
    match t.declare line with
    | .error d => .error d
    | .ok t' => t'.extend rest

@[simp] theorem extend_nil (t : SymbolTable) : t.extend [] = .ok t := rfl

theorem extend_cons_ok {t t' : SymbolTable} {l : Line} (h : t.declare l = .ok t')
    (rest : List Line) : t.extend (l :: rest) = t'.extend rest := by
  rw [extend, h]

theorem extend_cons_error {t : SymbolTable} {l : Line} {d : Diagnostic}
    (h : t.declare l = .error d) (rest : List Line) : t.extend (l :: rest) = .error d := by
  rw [extend, h]

/-- The pass goes on after the first lines with the table that they left. -/
theorem extend_append {t u : SymbolTable} {xs : List Line} (h : t.extend xs = .ok u)
    (ys : List Line) : t.extend (xs ++ ys) = u.extend ys := by
  induction xs generalizing t with
  | nil =>
    cases h
    rfl
  | cons l xs ih =>
    cases hl : t.declare l with
    | error d =>
      rw [extend_cons_error hl] at h
      cases h
    | ok t' =>
      rw [extend_cons_ok hl] at h
      rw [List.cons_append, extend_cons_ok hl, ih h]

def ofLines (lines : List Line) : Except Diagnostic SymbolTable := empty.extend lines

/-- After `n` lines each counter has moved by `n` at most, and every address lies where one of them
has been. -/
structure Within (t : SymbolTable) (n : Nat) : Prop where
  instructions : t.instructions ≤ n
  nextVariable : lastAddress - n ≤ t.nextVariable ∧ t.nextVariable ≤ lastAddress
  address : ∀ s ∈ t.toList, min 0 (lastAddress - n) ≤ s.address ∧ s.address ≤ max lastAddress n

theorem within_empty : empty.Within 0 := ⟨Nat.le_refl 0, by simp, by simp⟩

theorem Within.declare {t t' : SymbolTable} {n : Nat} {l : Line} (h : t.Within n)
    (hd : t.declare l = .ok t') : t'.Within (n + 1) := by
  obtain ⟨hi, ⟨hlow, hhigh⟩, haddress⟩ := h
  have hold : ∀ s ∈ t.toList,
      min 0 (lastAddress - (n + 1)) ≤ s.address ∧ s.address ≤ max lastAddress (n + 1) := by
    intro s hs
    obtain ⟨hs₀, hs₁⟩ := haddress s hs
    omega
  obtain ⟨name, new, -, rfl⟩ | ⟨name, body, new, -, rfl⟩ | ⟨body, -, rfl⟩ := declare_ok hd
  · refine ⟨?_, ?_, ?_⟩
    · simp only [instructions_takeVariable, instructions_push]
      omega
    · simp only [nextVariable_takeVariable, nextVariable_push]
      omega
    · intro s hs
      simp only [toList_takeVariable, toList_push, List.mem_append, List.mem_singleton] at hs
      rcases hs with hs | rfl
      · exact hold s hs
      · dsimp only
        omega
  · refine ⟨?_, ?_, ?_⟩
    · simp only [instructions_countInstruction, instructions_push]
      omega
    · simp only [nextVariable_countInstruction, nextVariable_push]
      omega
    · intro s hs
      simp only [toList_countInstruction, toList_push, List.mem_append, List.mem_singleton] at hs
      rcases hs with hs | rfl
      · exact hold s hs
      · dsimp only
        omega
  · refine ⟨?_, ?_, hold⟩
    · simp only [instructions_countInstruction]
      omega
    · simp only [nextVariable_countInstruction]
      omega

theorem Within.extend {t t' : SymbolTable} {n : Nat} {lines : List Line} (h : t.Within n)
    (he : t.extend lines = .ok t') : t'.Within (n + lines.length) := by
  induction lines generalizing t n with
  | nil =>
    cases he
    exact h
  | cons l rest ih =>
    cases hl : t.declare l with
    | error d =>
      rw [extend_cons_error hl] at he
      cases he
    | ok u =>
      rw [extend_cons_ok hl] at he
      rw [List.length_cons, Nat.add_comm rest.length, ← Nat.add_assoc]
      exact ih (h.declare hl) he

/-- Wherever the first pass stands in a source of fewer than 2³¹ bytes, its counters and addresses
fit into signed words of 32 bits. -/
theorem fits_of_ofLines {source : Text} {before after : List Line} {t : SymbolTable}
    (hlines : Line.readAll source = before ++ after) (h : ofLines before = .ok t)
    (hsize : source.byteLength < 0x80000000) :
    t.instructions < 0x80000000 ∧
    (∀ s ∈ t.toList, -0x80000000 ≤ s.address ∧ s.address < 0x80000000) ∧
    -0x80000000 ≤ t.nextVariable ∧ t.nextVariable < 0x80000000 := by
  have hlength := Line.length_readAll_le source
  rw [hlines, List.length_append] at hlength
  obtain ⟨hi, ⟨hlow, hhigh⟩, haddress⟩ := within_empty.extend h
  simp only [lastAddress] at hlow hhigh haddress
  refine ⟨by omega, fun s hs => ?_, by omega, by omega⟩
  obtain ⟨hs₀, hs₁⟩ := haddress s hs
  omega

/-- The lowest address of a variable. -/
def firstVariable? (t : SymbolTable) : Option Int :=
  if t.nextVariable < lastAddress then some (t.nextVariable + 1) else none

/-- The program reaches into the variables, or past the end of memory. -/
def overlaps (t : SymbolTable) : Bool := (t.instructions : Int) > t.nextVariable + 1

end SymbolTable

end Mac1
