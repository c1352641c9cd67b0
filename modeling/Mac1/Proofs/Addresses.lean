import Mac1.Proofs.Outcome
import Mac1.Proofs.Source

/-!
Addresses in an assembled program. The first pass counts instructions and the second emits them;
both counts are the number of instruction lines before a line, so the address of a label is the
place of the word that its line emits.
-/
namespace Mac1

/-- The word at place `n` of the program is the one that line `l` emits. -/
def Program.Emits (p : Program) (l : Line) (n : Nat) : Prop :=
  ∃ o e, l.operation? = some o ∧ o.encode p.symbols l.index = .ok e ∧ p.entries[n]? = some e ∧
    e.line = l.index

section Program

variable {lines : List Line} {p : Program}

/-- A label stands for the word of its line. -/
theorem emits_of_label (hrec : p.symbols.Records lines)
    (henc : encodeLines p.symbols lines = .ok p.entries) {s : Symbol} (hs : s ∈ p.symbols.toList)
    (hk : s.kind = .label) :
    ∃ l ∈ lines, l.name? = some s.name ∧ l.index = s.line ∧
      ∃ n : Nat, s.address = n ∧ p.Emits l n := by
  rw [hrec.toList] at hs
  obtain ⟨before, l, after, rfl, hl⟩ := mem_declarations.1 hs
  obtain ⟨hi, haddr⟩ := (Line.symbol?_kind hl).1 hk
  obtain ⟨o, ho⟩ := Option.isSome_iff_exists.1 hi
  obtain ⟨e, he, henc'⟩ := entry_of_encodeLines henc ho
  obtain ⟨name, hname, rfl⟩ := Line.symbol?_eq_some_iff.1 hl
  refine ⟨l, by simp, by simp [Line.name?, hname], rfl, instructionCount before, haddr, ?_⟩
  exact ⟨o, e, ho, henc', he, Operation.line_of_encode henc'⟩

/-- Variables take the addresses downwards from the last one. -/
theorem address_of_variable (before lines : List Line) {k : Nat} {s : Symbol}
    (h : ((declarationsAfter before lines).filter (·.kind = .variable))[k]? = some s) :
    s.address = lastAddress - variableCount before - k := by
  induction lines generalizing before k with
  | nil => simp [declarationsAfter] at h
  | cons l rest ih =>
    have hcount : (variableCount [l] : Int) = if l.isVariable then 1 else 0 := by
      rw [variableCount_cons]
      split <;> rfl
    rw [declarationsAfter, List.filter_append] at h
    cases hs : l.statement with
    | «variable» name =>
      obtain ⟨hl, hi⟩ := Line.of_variable hs
      have hv : l.isVariable = true := by simp [Line.isVariable_eq, hi]
      have hsym : (l.symbol? before).toList.filter (·.kind = .variable) =
          [⟨name.text, lastAddress - variableCount before, .variable, l.index⟩] := by
        simp [Line.symbol?, hl, Line.address, Line.kind, hv]
      rw [hsym] at h
      cases k with
      | zero =>
        cases h
        simp
      | succ k =>
        have hrest := ih (before ++ [l]) h
        rw [variableCount_append, Int.natCast_add, hcount, if_pos hv] at hrest
        omega
    | instruction label body =>
      obtain ⟨-, hi⟩ := Line.of_instruction hs
      have hv : l.isVariable = false := by simp [Line.isVariable_eq, hi]
      have hsym : (l.symbol? before).toList.filter (·.kind = .variable) = [] := by
        cases hl : l.label? <;> simp [Line.symbol?, hl, Line.kind, hv]
      rw [hsym] at h
      have hrest := ih (before ++ [l]) h
      rw [variableCount_append, Int.natCast_add, hcount, if_neg (by simp [hv])] at hrest
      omega

/-- Different names of one kind have different addresses. -/
theorem address_ne_of_name_ne {s t : Symbol} (hs : s ∈ declarations lines)
    (ht : t ∈ declarations lines) (hk : s.kind = t.kind) (hn : s.name ≠ t.name) :
    s.address ≠ t.address := by
  have hpair := pairwise_declarationsAfter [] lines
  have hall := List.Pairwise.forall_of_forall_of_flip
    (R := fun s t : Symbol => s.kind = t.kind → s.name ≠ t.name → s.address ≠ t.address)
    (l := declarations lines) (fun _ _ _ hn => absurd rfl hn) (hpair.imp fun h hk _ => h hk)
    (hpair.imp fun h hk _ => (h hk.symm).symm)
  exact hall hs ht hk hn

/-- An address operand holds the address of the symbol that it names. -/
theorem symbol_of_entry (henc : encodeLines p.symbols lines = .ok p.entries) {e : Entry}
    (he : e ∈ p.entries) (hf : e.instruction.format = .address) :
    ∃ name s, e.operand = some name ∧ p.symbols.find? name = some s ∧
      ((e.word &&& e.instruction.format.operandMask).toNat : Int) = s.address := by
  obtain ⟨l, -, o, -, ho⟩ := line_of_mem_entries henc he
  obtain ⟨t, a, -, ht, ha, -, hbits⟩ := Operation.address_of_encode ho hf
  obtain ⟨s, hs, rfl⟩ := Option.map_eq_some_iff.1 ha
  exact ⟨t.text, s, ht, hs, hbits⟩

end Program

/-- The two passes agree. In every assembled program a label stands for the word that its own line
emits, the variables lie downwards from the last address in the order of their declarations, no two
names of one kind share an address, and the operand bits of an address instruction are the address
of the symbol that it names, wherever that symbol is declared. The addresses fit into 32-bit words
in a source of fewer than 2³¹ bytes (`SymbolTable.fits_of_ofLines`). -/
theorem addresses_agree {strict : Bool} {source : Text} {p : Program}
    (h : assemble strict source = .ok p) :
    (∀ s ∈ p.symbols.toList, s.kind = .label →
      ∃ l ∈ Line.readAll source, l.name? = some s.name ∧ l.index = s.line ∧
        ∃ n : Nat, s.address = n ∧ p.Emits l n) ∧
    (∀ (k : Nat) s, (p.symbols.toList.filter (·.kind = .variable))[k]? = some s →
      s.address = lastAddress - k) ∧
    (∀ s ∈ p.symbols.toList, ∀ t ∈ p.symbols.toList, s.kind = t.kind → s.name ≠ t.name →
      s.address ≠ t.address) ∧
    (∀ e ∈ p.entries, e.instruction.format = .address →
      ∃ name s, e.operand = some name ∧ p.symbols.find? name = some s ∧
        ((e.word &&& e.instruction.format.operandMask).toNat : Int) = s.address ∧
        (s.kind = .label → ∃ target,
          p.entries[(e.word &&& e.instruction.format.operandMask).toNat]? = some target ∧
          target.line = s.line)) ∧
    p.entries.Pairwise (·.line < ·.line) := by
  obtain ⟨ht, henc⟩ := passes_of_assemble h
  have hrec := SymbolTable.records_of_ofLines ht
  refine ⟨fun s hs hk => emits_of_label hrec henc hs hk, ?_, ?_, ?_, ?_⟩
  · intro k s hs
    rw [hrec.toList] at hs
    simpa [variableCount] using address_of_variable [] _ hs
  · intro s hs t ht hk hn
    rw [hrec.toList] at hs ht
    exact address_ne_of_name_ne hs ht hk hn
  · intro e he hf
    obtain ⟨name, s, ho, hfind, hbits⟩ := symbol_of_entry henc he hf
    refine ⟨name, s, ho, hfind, hbits, fun hk => ?_⟩
    have hs : s ∈ p.symbols.toList := by
      rw [hrec.toList]
      exact (hrec.find?_eq_some_iff.1 hfind).1
    obtain ⟨l, -, -, hl, n, hn, o, target, -, -, htarget, hline⟩ := emits_of_label hrec henc hs hk
    have he : (e.word &&& e.instruction.format.operandMask).toNat = n := by omega
    exact ⟨target, by rw [he, htarget], by rw [hline, hl]⟩
  · exact pairwise_line_of_encodeLines henc (Line.pairwise_readAll source)

/-- A jump forwards and a jump back over a comment and two variables. -/
theorem addresses_agree_jumps :
    let source := "x:\nstart: LODD x\njump end\n/ comment\ny:\nend: JUMP start".toList
    ∃ p, assemble false source = .ok p ∧ p.code = [0x0fff, 0x6002, 0x6000] ∧
      (∀ s ∈ p.symbols.toList, s.kind = .label →
        ∃ l ∈ Line.readAll source, l.name? = some s.name ∧ l.index = s.line ∧
          ∃ n : Nat, s.address = n ∧ p.Emits l n) ∧
      (∀ (k : Nat) s, (p.symbols.toList.filter (·.kind = .variable))[k]? = some s →
        s.address = lastAddress - k) := by
  intro source
  have hcode : (assemble false source).toOption.map Program.code =
      some [0x0fff, 0x6002, 0x6000] := by decide
  cases h : assemble false source with
  | error d =>
    rw [h] at hcode
    cases hcode
  | ok p =>
    rw [h] at hcode
    obtain ⟨hlabels, hvariables, -⟩ := addresses_agree h
    exact ⟨p, rfl, Option.some.inj hcode, hlabels, hvariables⟩

end Mac1
