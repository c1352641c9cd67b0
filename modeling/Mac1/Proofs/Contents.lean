import Mac1.Proofs.Overflow
import Mac1.Proofs.Partition

/-!
What a symbol table holds after the first pass. Its symbols are the labels of the lines, one for
each and in their order, and its two counters are the numbers of instructions and of variables. The
lowest variable and the overlap are found from the counters alone; they are the least address of a
variable in the table, and whether everything fits into memory.
-/
namespace Mac1

namespace Line

/-- Nothing stands after the first colon of the line. -/
def endsAtColon (l : Line) : Bool := l.whole.text.dropWhile (· ≠ ':') == [':']

/-- A line declares a variable exactly when nothing follows its colon. -/
theorem isVariable_eq_endsAtColon {source : Text} {l : Line} (h : l ∈ readAll source) :
    l.isVariable = l.endsAtColon := by
  obtain ⟨lead, raw, tail, a, b, -, -, -, -, -, hparts⟩ := mem_readAll_iff_partitions.1 ⟨h, rfl⟩
  have hstatement := hparts.statement
  rw [endsAtColon, isVariable]
  generalize l.whole.text = text, l.statement = statement, l.operation? = o at hstatement ⊢
  cases hstatement with
  | plain hbody hcolon hsolid hne ho =>
    rw [Text.dropWhile_ne_eq_nil hcolon]
    rfl
  | @labelled label body o b c hlabel hcolon hsolid hb hc hbody hsolid' hne ho =>
    have hbefore : ':' ∉ label.text ++ b := by simp [hcolon, colon_notMem_blanks hb]
    rw [Text.dropWhile_ne_append hbefore]
    simp [hne]
  | @«variable» label b hlabel hcolon hsolid hb =>
    have hbefore : ':' ∉ label.text ++ b := by simp [hcolon, colon_notMem_blanks hb]
    rw [Text.dropWhile_ne_append hbefore]
    rfl

/-- What a line declares, apart from the address: the text of its label, its index, and whether
something follows the colon. -/
def declared? (l : Line) : Option (Text × Nat × SymbolKind) :=
  l.label?.map fun name => (name.text, l.index, if l.endsAtColon then .variable else .label)

theorem declared?_eq {source : Text} {l : Line} (h : l ∈ readAll source) (before : List Line) :
    l.declared? = (l.symbol? before).map fun s => (s.name, s.line, s.kind) := by
  rw [declared?, symbol?, Option.map_map, kind, isVariable_eq_endsAtColon h]
  rfl

end Line

/-- Each labelled line declares one symbol. -/
theorem map_declarationsAfter {source : Text} (before : List Line) {lines : List Line}
    (h : ∀ l ∈ lines, l ∈ Line.readAll source) :
    (declarationsAfter before lines).map (fun s => (s.name, s.line, s.kind)) =
      lines.filterMap Line.declared? := by
  induction lines generalizing before with
  | nil => rfl
  | cons l rest ih =>
    obtain ⟨hl, hrest⟩ := List.forall_mem_cons.1 h
    rw [declarationsAfter, List.map_append, ih _ hrest, List.filterMap_cons, Line.declared?_eq hl]
    cases l.symbol? before <;> rfl

/-- Each variable line declares one variable, and no other line declares any. -/
theorem countP_declarationsAfter (before lines : List Line) :
    (declarationsAfter before lines).countP (·.kind = .variable) = variableCount lines := by
  induction lines generalizing before with
  | nil => rfl
  | cons l rest ih =>
    have hline : (l.symbol? before).toList.countP (·.kind = .variable) =
        if l.isVariable then 1 else 0 := by
      cases hv : l.isVariable with
      | true =>
        obtain ⟨name, hname⟩ := Line.exists_name_of_isVariable hv
        obtain ⟨label, hlabel, -⟩ := Option.map_eq_some_iff.1 hname
        simp [Line.symbol?, hlabel, Line.kind, hv]
      | false => cases hlabel : l.label? <;> simp [Line.symbol?, hlabel, Line.kind, hv]
    rw [declarationsAfter, List.countP_append, ih, variableCount_cons, hline, Nat.add_comm]

namespace SymbolTable

variable {t : SymbolTable} {lines : List Line}

theorem Records.firstVariable?_eq (h : t.Records lines) :
    t.firstVariable? =
      if variableCount lines = 0 then none
      else some ((memorySize : Int) - variableCount lines) := by
  rw [firstVariable?, h.nextVariable]
  by_cases hv : variableCount lines = 0
  · rw [if_pos hv, if_neg (by omega)]
  · rw [if_neg hv, if_pos (by omega)]
    congr 1
    simp only [memorySize, lastAddress]
    omega

/-- The lowest variable is the least address of a variable in the table. -/
theorem Records.firstVariable?_eq_some_iff (h : t.Records lines) {a : Int} :
    t.firstVariable? = some a ↔
      (∃ s ∈ t.toList, s.kind = .variable ∧ s.address = a) ∧
        ∀ s ∈ t.toList, s.kind = .variable → a ≤ s.address := by
  rw [h.firstVariable?_eq, h.toList]
  constructor
  · intro ha
    split at ha
    · cases ha
    · rename_i hv
      cases ha
      obtain ⟨s, hs, hk, haddress⟩ := exists_lowest_variable (Nat.pos_of_ne_zero hv)
      exact ⟨⟨s, hs, hk, haddress⟩, fun s hs hk => (address_of_variable_mem hs hk).1⟩
  · rintro ⟨⟨s, hs, hk, rfl⟩, hleast⟩
    obtain ⟨hlow, hhigh⟩ := address_of_variable_mem hs hk
    have hv : 0 < variableCount lines := by
      simp only [memorySize, lastAddress] at hlow hhigh
      omega
    obtain ⟨s', hs', hk', haddress⟩ := exists_lowest_variable hv
    have hle := hleast s' hs' hk'
    rw [if_neg hv.ne']
    congr 1
    omega

theorem Records.firstVariable?_eq_none_iff (h : t.Records lines) :
    t.firstVariable? = none ↔ ∀ s ∈ t.toList, s.kind ≠ .variable := by
  have hcount : variableCount lines = 0 ↔ ∀ s ∈ declarations lines, s.kind ≠ .variable := by
    rw [← countP_declarationsAfter [] lines, List.countP_eq_zero]
    simp [declarations]
  rw [h.firstVariable?_eq, h.toList, ← hcount]
  simp

/-- Variables run below zero when there are more of them than cells. -/
theorem Records.firstVariable?_neg_iff (h : t.Records lines) :
    (∃ a < 0, t.firstVariable? = some a) ↔ memorySize < variableCount lines := by
  rw [h.firstVariable?_eq]
  constructor
  · rintro ⟨a, hneg, ha⟩
    split at ha
    · cases ha
    · cases ha
      omega
  · intro hv
    exact ⟨(memorySize : Int) - variableCount lines, by omega, if_neg (by omega)⟩

/-- The contents of a symbol table after a first pass that succeeds. Its symbols are those of the
labelled lines, one for each and in their order, with the text of the label, the index of the line
and the kind, which is that of a variable exactly when nothing follows the colon. So the names
differ, and a name is found exactly when a line declares it, as its own symbol. The instructions are
the lines with a body. The lowest variable is the least address of a variable, below zero if there
are more variables than cells, and there is none without a variable; the program overlaps exactly
when it has more than 4096 instructions and variables. In a source of fewer than 2³¹ bytes every
address fits into a signed word of 32 bits (`fits_of_ofLines`). -/
theorem contents_exact {source : Text} {t : SymbolTable}
    (h : ofLines (Line.readAll source) = .ok t) :
    let lines := Line.readAll source
    let i := instructionCount lines
    let v := variableCount lines
    t.toList.map (fun s => (s.name, s.line, s.kind)) = lines.filterMap Line.declared? ∧
    (t.toList.map (·.name)).Nodup ∧
    (∀ name, (t.find? name).isSome = true ↔ ∃ l ∈ lines, l.name? = some name) ∧
    (∀ s ∈ t.toList, t.find? s.name = some s) ∧
    t.instructions = i ∧
    t.toList.countP (·.kind = .variable) = v ∧
    (t.firstVariable? = none ↔ ∀ s ∈ t.toList, s.kind ≠ .variable) ∧
    (∀ a, t.firstVariable? = some a ↔
      (∃ s ∈ t.toList, s.kind = .variable ∧ s.address = a) ∧
        ∀ s ∈ t.toList, s.kind = .variable → a ≤ s.address) ∧
    ((∃ a < 0, t.firstVariable? = some a) ↔ memorySize < v) ∧
    (t.overlaps = true ↔ memorySize < i + v) ∧
    (source.byteLength < 0x80000000 →
      (∀ s ∈ t.toList, -0x80000000 ≤ s.address ∧ s.address < 0x80000000) ∧
        -0x80000000 ≤ t.nextVariable ∧ t.nextVariable < 0x80000000) := by
  intro lines i v
  have hrec := records_of_ofLines h
  refine ⟨?_, ?_, fun name => ?_, fun s hs => ?_, hrec.instructions, ?_,
    hrec.firstVariable?_eq_none_iff, fun a => hrec.firstVariable?_eq_some_iff,
    hrec.firstVariable?_neg_iff, hrec.overlaps_iff, fun hsize => ?_⟩
  · rw [hrec.toList]
    exact map_declarationsAfter [] fun l hl => hl
  · rw [hrec.map_name]
    exact hrec.nodup
  · rw [Option.isSome_iff_ne_none, ne_eq, t.find?_eq_none_iff, hrec.map_name, not_not]
    exact List.mem_filterMap
  · rw [hrec.toList] at hs
    exact hrec.find?_eq_some_iff.2 ⟨hs, rfl⟩
  · rw [hrec.toList]
    exact countP_declarationsAfter [] lines
  · obtain ⟨-, haddress, hnext⟩ := fits_of_ofLines (List.append_nil _).symm h hsize
    exact ⟨haddress, hnext⟩

/-- One variable more than there are cells. -/
theorem contents_exact_below_zero :
    let source := List.intercalate ['\n'] (variableLines (memorySize + 1))
    ∃ t, ofLines (Line.readAll source) = .ok t ∧ (t.toList.map (·.name)).Nodup ∧
      t.instructions = 0 ∧ (∃ a < 0, t.firstVariable? = some a) ∧ t.overlaps = true := by
  intro source
  have hlines : Line.readAll source = Line.readFrom 0 0 (variableLines (memorySize + 1)) := by
    have hne : variableLines (memorySize + 1) ≠ [] := by
      rw [variableLines_succ]
      exact List.cons_ne_nil _ _
    rw [Line.readAll, List.splitOn_intercalate _ (fun _ => newline_notMem_variableLines) hne]
  have hnodup : (names (Line.readAll source)).Nodup := by
    rw [hlines]
    exact nodup_names_variableLines (memorySize + 1) 0 0
  have hi : instructionCount (Line.readAll source) = 0 := by
    rw [hlines, instructionCount_variableLines]
  have hv : variableCount (Line.readAll source) = memorySize + 1 := by
    rw [hlines, variableCount_variableLines]
  obtain ⟨t, ht⟩ := exists_ofLines_of_nodup hnodup
  obtain ⟨-, hnames, -, -, hcount, -, -, -, hneg, hover, -⟩ := contents_exact ht
  rw [hv] at hneg hover
  rw [hi] at hcount hover
  exact ⟨t, ht, hnames, hcount, hneg.2 (by omega), hover.2 (by omega)⟩

end SymbolTable

end Mac1
