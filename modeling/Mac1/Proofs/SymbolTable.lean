import Mac1.Assembly.SymbolTable
import Mathlib.Data.List.Nodup

/-!
The first pass against the lines it reads. Which symbol a line declares depends only on how many
instructions and how many variables stand before it; the table that the pass builds records
exactly these symbols, and the pass stops exactly at the first repeated name.
-/
namespace Mac1

namespace Line

/-- The line gives an instruction, labelled or not. -/
def isInstruction (l : Line) : Bool := l.operation?.isSome

/-- The line is a label with nothing after it. -/
def isVariable (l : Line) : Bool := l.operation?.isNone

theorem isVariable_eq (l : Line) : l.isVariable = !l.isInstruction := by
  simp [isVariable, isInstruction]

theorem of_variable {l : Line} {name : Token} (h : l.statement = .variable name) :
    l.label? = some name ∧ l.isInstruction = false := by
  simp [isInstruction, label?_of_variable h, operation?_of_variable h]

theorem of_instruction {l : Line} {label : Option Token} {body : Token}
    (h : l.statement = .instruction label body) : l.label? = label ∧ l.isInstruction = true := by
  simp [isInstruction, label?_of_instruction h, operation?_of_instruction h]

/-- The text of the label. -/
def name? (l : Line) : Option Text := l.label?.map (·.text)

def kind (l : Line) : SymbolKind := if l.isVariable then .variable else .label

theorem kind_eq_label_iff (l : Line) : l.kind = .label ↔ l.isInstruction = true := by
  rw [kind, isVariable_eq]
  cases l.isInstruction <;> simp

theorem kind_eq_variable_iff (l : Line) : l.kind = .variable ↔ l.isVariable = true := by
  rw [kind]
  cases l.isVariable <;> simp

end Line

def instructionCount (lines : List Line) : Nat := lines.countP Line.isInstruction

def variableCount (lines : List Line) : Nat := lines.countP Line.isVariable

/-- The declared names in the order of their lines. -/
def names (lines : List Line) : List Text := lines.filterMap Line.name?

@[simp] theorem instructionCount_append (xs ys : List Line) :
    instructionCount (xs ++ ys) = instructionCount xs + instructionCount ys :=
  List.countP_append

@[simp] theorem variableCount_append (xs ys : List Line) :
    variableCount (xs ++ ys) = variableCount xs + variableCount ys :=
  List.countP_append

@[simp] theorem names_append (xs ys : List Line) : names (xs ++ ys) = names xs ++ names ys :=
  List.filterMap_append

theorem names_cons {l : Line} {name : Text} (h : l.name? = some name) (ls : List Line) :
    names (l :: ls) = name :: names ls :=
  List.filterMap_cons_some h

theorem instructionCount_cons (l : Line) (ls : List Line) :
    instructionCount (l :: ls) = instructionCount ls + if l.isInstruction then 1 else 0 :=
  List.countP_cons

theorem variableCount_cons (l : Line) (ls : List Line) :
    variableCount (l :: ls) = variableCount ls + if l.isVariable then 1 else 0 :=
  List.countP_cons

namespace Line

/-- The address of a name on line `l` when `before` are the lines before it: the place of the
instruction in the program, or the place of the variable downwards from the last address. -/
def address (before : List Line) (l : Line) : Int :=
  if l.isVariable then lastAddress - variableCount before else instructionCount before

/-- The symbol that `l` declares after the lines `before`. -/
def symbol? (before : List Line) (l : Line) : Option Symbol :=
  l.label?.map fun name => ⟨name.text, l.address before, l.kind, l.index⟩

theorem symbol?_eq_some_iff {before : List Line} {l : Line} {s : Symbol} :
    l.symbol? before = some s ↔ ∃ name, l.label? = some name ∧
      ⟨name.text, l.address before, l.kind, l.index⟩ = s :=
  Option.map_eq_some_iff

theorem address_eq_of_label {l : Line} (h : l.kind = .label) (before : List Line) :
    l.address before = instructionCount before := by
  simp [address, isVariable_eq, l.kind_eq_label_iff.1 h]

theorem address_eq_of_variable {l : Line} (h : l.kind = .variable) (before : List Line) :
    l.address before = lastAddress - variableCount before :=
  if_pos (l.kind_eq_variable_iff.1 h)

/-- The kind of a symbol tells what its line is and which lines its address counts. -/
theorem symbol?_kind {before : List Line} {l : Line} {s : Symbol} (h : l.symbol? before = some s) :
    (s.kind = .label → l.isInstruction = true ∧ s.address = instructionCount before) ∧
    (s.kind = .variable →
      l.isVariable = true ∧ s.address = lastAddress - variableCount before) := by
  obtain ⟨name, -, rfl⟩ := symbol?_eq_some_iff.1 h
  constructor
  · intro hk
    exact ⟨l.kind_eq_label_iff.1 hk, address_eq_of_label hk before⟩
  · intro hk
    exact ⟨l.kind_eq_variable_iff.1 hk, address_eq_of_variable hk before⟩

end Line

/-- The symbols of further lines after the lines `before`. -/
def declarationsAfter (before : List Line) : List Line → List Symbol
  | [] => []
  | l :: rest => (l.symbol? before).toList ++ declarationsAfter (before ++ [l]) rest

/-- The symbols that the lines declare, in order. -/
def declarations (lines : List Line) : List Symbol := declarationsAfter [] lines

theorem declarationsAfter_append (before xs ys : List Line) :
    declarationsAfter before (xs ++ ys) =
      declarationsAfter before xs ++ declarationsAfter (before ++ xs) ys := by
  induction xs generalizing before with
  | nil => simp [declarationsAfter]
  | cons l xs ih => simp [declarationsAfter, ih]

theorem declarations_concat (lines : List Line) (l : Line) :
    declarations (lines ++ [l]) = declarations lines ++ (l.symbol? lines).toList := by
  rw [declarations, declarationsAfter_append, declarationsAfter, declarationsAfter,
    List.append_nil, List.nil_append]
  rfl

theorem mem_declarationsAfter {before lines : List Line} {s : Symbol} :
    s ∈ declarationsAfter before lines ↔
      ∃ mid l after, lines = mid ++ l :: after ∧ l.symbol? (before ++ mid) = some s := by
  induction lines generalizing before with
  | nil => simp [declarationsAfter]
  | cons m rest ih =>
    rw [declarationsAfter, List.mem_append, Option.mem_toList, ih]
    constructor
    · rintro (h | ⟨mid, l, after, rfl, h⟩)
      · exact ⟨[], m, rest, rfl, by simpa using h⟩
      · exact ⟨m :: mid, l, after, rfl, by simpa using h⟩
    · rintro ⟨mid, l, after, he, h⟩
      cases mid with
      | nil =>
        cases he
        exact .inl (by simpa using h)
      | cons m' mid =>
        cases he
        exact .inr ⟨mid, l, after, rfl, by simpa using h⟩

theorem mem_declarations {lines : List Line} {s : Symbol} :
    s ∈ declarations lines ↔
      ∃ before l after, lines = before ++ l :: after ∧ l.symbol? before = some s :=
  mem_declarationsAfter

theorem map_name_declarationsAfter (before lines : List Line) :
    (declarationsAfter before lines).map (·.name) = names lines := by
  induction lines generalizing before with
  | nil => rfl
  | cons l rest ih =>
    have hl : (l.symbol? before).toList.map (·.name) = l.name?.toList := by
      cases h : l.label? <;> simp [Line.symbol?, Line.name?, h]
    rw [declarationsAfter, List.map_append, ih, hl, names, names, List.filterMap_cons]
    cases l.name? <;> rfl

theorem map_name_declarations (lines : List Line) :
    (declarations lines).map (·.name) = names lines :=
  map_name_declarationsAfter [] lines

namespace SymbolTable

/-- The table holds what the lines declare, with both counters in step. -/
structure Records (t : SymbolTable) (lines : List Line) : Prop where
  toList : t.toList = declarations lines
  instructions : t.instructions = instructionCount lines
  nextVariable : t.nextVariable = lastAddress - variableCount lines
  nodup : (names lines).Nodup

theorem records_empty : Records empty [] := ⟨rfl, rfl, by simp [variableCount], .nil⟩

theorem Records.map_name {t : SymbolTable} {lines : List Line} (h : t.Records lines) :
    t.toList.map (·.name) = names lines := by
  rw [h.toList, map_name_declarations]

theorem Records.concat {t t' : SymbolTable} {lines : List Line} {l : Line} (h : t.Records lines)
    (hlist : t'.toList = t.toList ++ (l.symbol? lines).toList)
    (hcount : t'.instructions = t.instructions + if l.isInstruction then 1 else 0)
    (hnext : t'.nextVariable = t.nextVariable - if l.isVariable then 1 else 0)
    (hnew : ∀ name ∈ l.name?, name ∉ names lines) : t'.Records (lines ++ [l]) where
  toList := by rw [hlist, h.toList, declarations_concat]
  instructions := by
    rw [hcount, h.instructions, instructionCount_append, instructionCount_cons]
    simp [instructionCount]
  nextVariable := by
    have hone : (variableCount [l] : Int) = if l.isVariable then 1 else 0 := by
      rw [variableCount_cons]
      split <;> rfl
    rw [hnext, h.nextVariable, variableCount_append, Int.natCast_add, hone]
    omega
  nodup := by
    rw [names_append, List.nodup_append]
    refine ⟨h.nodup, ?_, ?_⟩
    · cases hn : l.name? <;> simp [names, hn]
    · intro a ha b hb
      have hb' : b ∈ l.name? := by simpa [names] using hb
      rintro rfl
      exact hnew a hb' ha

/-- One line keeps the record. -/
theorem Records.declare_ok {t t' : SymbolTable} {lines : List Line} {l : Line} (h : t.Records lines)
    (hd : t.declare l = .ok t') : t'.Records (lines ++ [l]) := by
  have hnew : ∀ {name : Token}, t.find? name.text = none → name.text ∉ names lines := by
    intro name hnone
    rwa [find?_eq_none_iff, h.map_name] at hnone
  obtain ⟨name, new, hs, rfl⟩ | ⟨name, body, new, hs, rfl⟩ | ⟨body, hs, rfl⟩ :=
    SymbolTable.declare_ok hd
  · obtain ⟨hl, hi⟩ := Line.of_variable hs
    have hv : l.isVariable = true := by simp [Line.isVariable_eq, hi]
    apply h.concat
    · simp [Line.symbol?, hl, Line.address, Line.kind, hv, h.nextVariable]
    · simp [hi]
    · simp [hv]
    · simpa [Line.name?, hl] using hnew new
  · obtain ⟨hl, hi⟩ := Line.of_instruction hs
    have hv : l.isVariable = false := by simp [Line.isVariable_eq, hi]
    apply h.concat
    · simp [Line.symbol?, hl, Line.address, Line.kind, hv, h.instructions]
    · simp [hi]
    · simp [hv]
    · simpa [Line.name?, hl] using hnew new
  · obtain ⟨hl, hi⟩ := Line.of_instruction hs
    have hv : l.isVariable = false := by simp [Line.isVariable_eq, hi]
    apply h.concat
    · simp [Line.symbol?, hl]
    · simp [hi]
    · simp [hv]
    · simp [Line.name?, hl]

/-- A line is refused only for a name that an earlier line declares. -/
theorem Records.declare_error {t : SymbolTable} {lines : List Line} {l : Line} {d : Diagnostic}
    (h : t.Records lines) (hd : t.declare l = .error d) :
    ∃ name, l.label? = some name ∧ name.text ∈ names lines ∧
      d = ⟨.duplicateLabel name.text, l.index, name.span⟩ := by
  obtain ⟨name, hname, hfound, rfl⟩ := SymbolTable.declare_error hd
  rw [ne_eq, find?_eq_none_iff, h.map_name, not_not] at hfound
  exact ⟨name, hname, hfound, rfl⟩

/-- The whole pass keeps the record. -/
theorem Records.extend_ok {t t' : SymbolTable} {before lines : List Line} (h : t.Records before)
    (he : t.extend lines = .ok t') : t'.Records (before ++ lines) := by
  induction lines generalizing t before with
  | nil =>
    cases he
    simpa using h
  | cons l rest ih =>
    cases hl : t.declare l with
    | error d =>
      rw [extend_cons_error hl] at he
      cases he
    | ok u =>
      rw [extend_cons_ok hl] at he
      simpa using ih (h.declare_ok hl) he

/-- The pass stops at the first line that repeats a name. -/
theorem Records.extend_error {t : SymbolTable} {before lines : List Line} {d : Diagnostic}
    (h : t.Records before) (he : t.extend lines = .error d) :
    ∃ mid l after name, lines = mid ++ l :: after ∧ (names (before ++ mid)).Nodup ∧
      l.label? = some name ∧ name.text ∈ names (before ++ mid) ∧
      d = ⟨.duplicateLabel name.text, l.index, name.span⟩ := by
  induction lines generalizing t before with
  | nil => cases he
  | cons l rest ih =>
    cases hl : t.declare l with
    | error e =>
      rw [extend_cons_error hl] at he
      cases he
      obtain ⟨name, hlabel, hmem, hd⟩ := h.declare_error hl
      exact ⟨[], l, rest, name, rfl, by simpa using h.nodup, hlabel, by simpa using hmem, hd⟩
    | ok u =>
      rw [extend_cons_ok hl] at he
      obtain ⟨mid, m, after, name, rfl, hrest⟩ := ih (h.declare_ok hl) he
      exact ⟨l :: mid, m, after, name, rfl, by simpa using hrest⟩

theorem records_of_ofLines {lines : List Line} {t : SymbolTable} (h : ofLines lines = .ok t) :
    t.Records lines :=
  records_empty.extend_ok h

theorem ofLines_error {lines : List Line} {d : Diagnostic} (h : ofLines lines = .error d) :
    ∃ before l after name, lines = before ++ l :: after ∧ (names before).Nodup ∧
      l.label? = some name ∧ name.text ∈ names before ∧
      d = ⟨.duplicateLabel name.text, l.index, name.span⟩ :=
  records_empty.extend_error h

/-- Without a repeated name there is a table. -/
theorem exists_ofLines_of_nodup {lines : List Line} (h : (names lines).Nodup) :
    ∃ t, ofLines lines = .ok t := by
  cases ht : ofLines lines with
  | ok t => exact ⟨t, rfl⟩
  | error d =>
    obtain ⟨before, l, after, name, rfl, -, hlabel, hmem, -⟩ := ofLines_error ht
    have hname : l.name? = some name.text := by simp [Line.name?, hlabel]
    rw [names_append, names_cons hname] at h
    exact absurd rfl ((List.nodup_append.1 h).2.2 _ hmem name.text (List.mem_cons_self ..))

/-- With a repeated name there is none. -/
theorem exists_error_of_not_nodup {lines : List Line} (h : ¬(names lines).Nodup) :
    ∃ d n, ofLines lines = .error d ∧ d.fault = .duplicateLabel n := by
  cases ht : ofLines lines with
  | ok t => exact absurd (records_of_ofLines ht).nodup h
  | error d =>
    obtain ⟨before, l, after, name, -, -, -, -, rfl⟩ := ofLines_error ht
    exact ⟨_, name.text, rfl, rfl⟩

theorem Records.find?_eq_some_iff {t : SymbolTable} {lines : List Line} (h : t.Records lines)
    {name : Text} {s : Symbol} :
    t.find? name = some s ↔ s ∈ declarations lines ∧ s.name = name := by
  rw [find?_eq, h.toList]
  constructor
  · intro hs
    exact ⟨List.mem_of_find?_eq_some hs, by simpa using List.find?_some hs⟩
  · rintro ⟨hmem, rfl⟩
    have hinj := List.inj_on_of_nodup_map ((map_name_declarations lines).symm ▸ h.nodup)
    cases hf : (declarations lines).find? (·.name == s.name) with
    | none => simpa using List.find?_eq_none.1 hf s hmem
    | some s' =>
      rw [hinj (List.mem_of_find?_eq_some hf) hmem (by simpa using List.find?_some hf)]

end SymbolTable

/-- A line declares `name`, and `a` is its address. -/
def Declares (lines : List Line) (name : Text) (a : Int) : Prop :=
  ∃ before l after, lines = before ++ l :: after ∧ l.name? = some name ∧ l.address before = a

theorem declares_iff {lines : List Line} {name : Text} {a : Int} :
    Declares lines name a ↔ ∃ s ∈ declarations lines, s.name = name ∧ s.address = a := by
  constructor
  · rintro ⟨before, l, after, rfl, hname, rfl⟩
    obtain ⟨tok, hl, rfl⟩ := Option.map_eq_some_iff.1 hname
    refine ⟨⟨tok.text, l.address before, l.kind, l.index⟩, ?_, rfl, rfl⟩
    exact mem_declarations.2 ⟨before, l, after, rfl, Line.symbol?_eq_some_iff.2 ⟨tok, hl, rfl⟩⟩
  · rintro ⟨s, hs, rfl, rfl⟩
    obtain ⟨before, l, after, rfl, hl⟩ := mem_declarations.1 hs
    obtain ⟨tok, hlabel, rfl⟩ := Line.symbol?_eq_some_iff.1 hl
    exact ⟨before, l, after, rfl, by simp [Line.name?, hlabel], rfl⟩

theorem SymbolTable.Records.address?_eq_some_iff {t : SymbolTable} {lines : List Line}
    (h : t.Records lines) {name : Text} {a : Int} :
    t.address? name = some a ↔ Declares lines name a := by
  rw [declares_iff, address?, Option.map_eq_some_iff]
  simp only [h.find?_eq_some_iff, and_assoc]

/-- Symbols of one kind differ in their addresses: each instruction moves the labels after it up,
and each variable moves the variables after it down. -/
theorem pairwise_declarationsAfter (before lines : List Line) :
    (declarationsAfter before lines).Pairwise fun s t =>
      s.kind = t.kind → s.address ≠ t.address := by
  induction lines generalizing before with
  | nil => exact .nil
  | cons l rest ih =>
    rw [declarationsAfter, List.pairwise_append]
    refine ⟨?_, ih .., ?_⟩
    · cases l.symbol? before <;> simp
    · intro s hs t ht
      obtain ⟨hlabel, hvariable⟩ := Line.symbol?_kind (Option.mem_toList.1 hs)
      obtain ⟨mid, m, after, rfl, hm⟩ := mem_declarationsAfter.1 ht
      obtain ⟨hlabel', hvariable'⟩ := Line.symbol?_kind hm
      intro hkind
      cases hk : s.kind with
      | label =>
        obtain ⟨hi, haddress⟩ := hlabel hk
        rw [haddress, (hlabel' (hkind ▸ hk)).2]
        simp only [instructionCount_append, instructionCount_cons, hi, if_true]
        omega
      | «variable» =>
        obtain ⟨hv, haddress⟩ := hvariable hk
        rw [haddress, (hvariable' (hkind ▸ hk)).2]
        simp only [variableCount_append, variableCount_cons, hv, if_true]
        omega

end Mac1
