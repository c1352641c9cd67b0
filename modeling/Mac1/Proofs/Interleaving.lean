import Mac1.Proofs.Correspondence

/-!
Where variables are declared. Labels count the instructions before them and variables count the
variables before them, so neither count sees how the two sorts of lines are interleaved. A source
whose variables are moved, in their order, gives the same code or fails for the same reason.
-/
namespace Mac1

/-- What a line says, wherever it stands: the text of its label, and the texts of its mnemonic and
its operand. -/
def Line.wording (l : Line) : Option Text × Option (Text × Option Text) :=
  (l.name?, l.operation?.map fun o => (o.mnemonic.text, o.operand.map (·.text)))

/-- The lines that declare variables or the lines that give instructions, in order. -/
def linesOfKind (kind : SymbolKind) (lines : List Line) : List Line :=
  lines.filter (·.kind = kind)

/-- Both consist of the same variable lines and the same instruction lines, each in the same order,
interleaved in any way. -/
def Interleaved (xs ys : List Line) : Prop :=
  ∀ kind, (linesOfKind kind xs).map Line.wording = (linesOfKind kind ys).map Line.wording

/-- The address of a name when `n` lines of its kind stand before it. -/
def SymbolKind.address : SymbolKind → Nat → Int
  | .label, n => n
  | .variable, n => lastAddress - n

theorem linesOfKind_cons_pos {kind : SymbolKind} {l : Line} (h : l.kind = kind) (ls : List Line) :
    linesOfKind kind (l :: ls) = l :: linesOfKind kind ls :=
  List.filter_cons_of_pos (by simpa using h)

theorem linesOfKind_cons_neg {kind : SymbolKind} {l : Line} (h : l.kind ≠ kind) (ls : List Line) :
    linesOfKind kind (l :: ls) = linesOfKind kind ls :=
  List.filter_cons_of_neg (by simpa using h)

theorem length_linesOfKind_label (lines : List Line) :
    (linesOfKind .label lines).length = instructionCount lines := by
  rw [linesOfKind, ← List.countP_eq_length_filter, instructionCount]
  congr 1
  funext l
  rw [Bool.eq_iff_iff, decide_eq_true_iff, l.kind_eq_label_iff]

theorem length_linesOfKind_variable (lines : List Line) :
    (linesOfKind .variable lines).length = variableCount lines := by
  rw [linesOfKind, ← List.countP_eq_length_filter, variableCount]
  congr 1
  funext l
  rw [Bool.eq_iff_iff, decide_eq_true_iff, l.kind_eq_variable_iff]

/-- Only the lines of its own kind move the address of a name. -/
theorem Line.address_eq (before : List Line) (l : Line) :
    l.address before = l.kind.address (linesOfKind l.kind before).length := by
  cases hk : l.kind with
  | label =>
    rw [length_linesOfKind_label, address_eq_of_label hk]
    rfl
  | «variable» =>
    rw [length_linesOfKind_variable, address_eq_of_variable hk]
    rfl

/-- A line of a kind has its place among the lines of that kind. -/
theorem getElem?_linesOfKind_iff {kind : SymbolKind} {lines : List Line} {n : Nat} {l : Line} :
    (linesOfKind kind lines)[n]? = some l ↔ ∃ before after, lines = before ++ l :: after ∧
      l.kind = kind ∧ (linesOfKind kind before).length = n := by
  constructor
  · intro h
    induction lines generalizing n with
    | nil => simp [linesOfKind] at h
    | cons m rest ih =>
      by_cases hm : m.kind = kind
      · rw [linesOfKind_cons_pos hm] at h
        cases n with
        | zero =>
          cases h
          exact ⟨[], rest, rfl, hm, rfl⟩
        | succ n =>
          obtain ⟨before, after, rfl, hl, hn⟩ := ih h
          exact ⟨m :: before, after, rfl, hl, by rw [linesOfKind_cons_pos hm, List.length_cons, hn]⟩
      · rw [linesOfKind_cons_neg hm] at h
        obtain ⟨before, after, rfl, hl, hn⟩ := ih h
        exact ⟨m :: before, after, rfl, hl, by rw [linesOfKind_cons_neg hm, hn]⟩
  · rintro ⟨before, after, rfl, hl, rfl⟩
    have happend : linesOfKind kind (before ++ l :: after) =
        linesOfKind kind before ++ linesOfKind kind (l :: after) := List.filter_append ..
    rw [happend, linesOfKind_cons_pos hl]
    simp

/-- The symbol of a name is found from the place of its line among the lines of its kind. -/
theorem exists_declaration_iff {lines : List Line} {name : Text} {a : Int} {kind : SymbolKind} :
    (∃ s ∈ declarations lines, s.name = name ∧ s.address = a ∧ s.kind = kind) ↔
      ∃ (n : Nat) (l : Line), (linesOfKind kind lines)[n]? = some l ∧ l.name? = some name ∧
        kind.address n = a := by
  constructor
  · rintro ⟨s, hs, rfl, rfl, rfl⟩
    obtain ⟨before, l, after, rfl, hl⟩ := mem_declarations.1 hs
    obtain ⟨tok, hlabel, rfl⟩ := Line.symbol?_eq_some_iff.1 hl
    refine ⟨_, l, getElem?_linesOfKind_iff.2 ⟨before, after, rfl, rfl, rfl⟩, ?_, ?_⟩
    · simp [Line.name?, hlabel]
    · exact (l.address_eq before).symm
  · rintro ⟨n, l, hl, hname, rfl⟩
    obtain ⟨before, after, rfl, rfl, rfl⟩ := getElem?_linesOfKind_iff.1 hl
    obtain ⟨tok, hlabel, rfl⟩ := Option.map_eq_some_iff.1 hname
    refine ⟨⟨tok.text, l.address before, l.kind, l.index⟩, ?_, rfl, l.address_eq before, rfl⟩
    exact mem_declarations.2 ⟨before, l, after, rfl, Line.symbol?_eq_some_iff.2 ⟨tok, hlabel, rfl⟩⟩

/-- The names, those of the variables first. -/
theorem names_linesOfKind_perm (lines : List Line) :
    (names (linesOfKind .variable lines) ++ names (linesOfKind .label lines)).Perm
      (names lines) := by
  have hlabel : linesOfKind .label lines = lines.filter fun l => !decide (l.kind = .variable) := by
    rw [linesOfKind]
    congr 1
    funext l
    cases l.kind <;> rfl
  rw [← names_append, linesOfKind, hlabel]
  exact (List.filter_append_perm _ lines).filterMap _

/-- The operations stand on the lines with instructions. -/
theorem map_operations (lines : List Line) :
    (operations lines).map (fun x => (x.2.mnemonic.text, x.2.operand.map (·.text))) =
      ((linesOfKind .label lines).map Line.wording).filterMap (·.2) := by
  induction lines with
  | nil => rfl
  | cons l rest ih =>
    cases ho : l.operation? with
    | none =>
      have hk : l.kind ≠ .label := by simp [l.kind_eq_label_iff, Line.isInstruction, ho]
      rw [operations_cons_none ho, linesOfKind_cons_neg hk, ih]
    | some o =>
      have hk : l.kind = .label := by simp [l.kind_eq_label_iff, Line.isInstruction, ho]
      have hw : l.wording.2 = some (o.mnemonic.text, o.operand.map (·.text)) := by
        simp [Line.wording, ho]
      rw [operations_cons_some ho, linesOfKind_cons_pos hk, List.map_cons, List.map_cons,
        List.filterMap_cons_some hw, ih]

namespace Interleaved

variable {xs ys : List Line}

theorem instructionCount_eq (h : Interleaved xs ys) :
    instructionCount xs = instructionCount ys := by
  simpa [length_linesOfKind_label] using congrArg List.length (h .label)

theorem variableCount_eq (h : Interleaved xs ys) : variableCount xs = variableCount ys := by
  simpa [length_linesOfKind_variable] using congrArg List.length (h .variable)

/-- The names of both are the same, though not in the same order. -/
theorem names_perm (h : Interleaved xs ys) : (names xs).Perm (names ys) := by
  have hsame : ∀ kind, names (linesOfKind kind xs) = names (linesOfKind kind ys) := by
    intro kind
    have hwording : Line.name? = Prod.fst ∘ Line.wording := rfl
    rw [names, names, hwording, ← List.filterMap_map, ← List.filterMap_map, h kind]
  refine (names_linesOfKind_perm xs).symm.trans ?_
  rw [hsame, hsame]
  exact names_linesOfKind_perm ys

theorem declaration_of (h : Interleaved xs ys) {name : Text} {a : Int} {kind : SymbolKind}
    (hx : ∃ s ∈ declarations xs, s.name = name ∧ s.address = a ∧ s.kind = kind) :
    ∃ s ∈ declarations ys, s.name = name ∧ s.address = a ∧ s.kind = kind := by
  obtain ⟨n, l, hl, hname, ha⟩ := exists_declaration_iff.1 hx
  have hget : ((linesOfKind kind ys).map Line.wording)[n]? = some l.wording := by
    rw [← h kind, List.getElem?_map, hl]
    rfl
  rw [List.getElem?_map] at hget
  obtain ⟨m, hm, hw⟩ := Option.map_eq_some_iff.1 hget
  have hname' : m.name? = l.name? := congrArg Prod.fst hw
  exact exists_declaration_iff.2 ⟨n, m, hm, hname'.trans hname, ha⟩

theorem symm (h : Interleaved xs ys) : Interleaved ys xs := fun kind => (h kind).symm

theorem operations (h : Interleaved xs ys) :
    List.Forall₂ (fun x y => True ∧ x.2.Corresponds id y.2) (operations xs) (operations ys) := by
  have hmap : (Mac1.operations xs).map (fun x => (x.2.mnemonic.text, x.2.operand.map (·.text))) =
      (Mac1.operations ys).map fun x => (x.2.mnemonic.text, x.2.operand.map (·.text)) := by
    rw [map_operations, map_operations, h .label]
  refine (map_eq_map_iff_forall₂.1 hmap).imp fun x y hxy => ⟨trivial, ?_, fun i hi => ?_⟩
  · rw [(Prod.mk.inj hxy).1]
  · rw [← (Prod.mk.inj hxy).2]
    simp [Instruction.rename]

end Interleaved

/-- What a name stands for: its address, and whether it is a label or a variable. -/
def SymbolTable.meaning? (t : SymbolTable) (name : Text) : Option (Int × SymbolKind) :=
  (t.find? name).map fun s => (s.address, s.kind)

theorem SymbolTable.Records.meaning?_eq_some_iff {t : SymbolTable} {lines : List Line}
    (h : t.Records lines) {name : Text} {a : Int} {kind : SymbolKind} :
    t.meaning? name = some (a, kind) ↔
      ∃ s ∈ declarations lines, s.name = name ∧ s.address = a ∧ s.kind = kind := by
  rw [meaning?, Option.map_eq_some_iff]
  simp only [h.find?_eq_some_iff, and_assoc, Prod.mk.injEq]

theorem SymbolTable.address?_eq_meaning? (t : SymbolTable) (name : Text) :
    t.address? name = (t.meaning? name).map Prod.fst := by
  rw [meaning?, Option.map_map]
  rfl

namespace Interleaved

variable {xs ys : List Line} {t t' : SymbolTable}

theorem meaning?_eq (h : Interleaved xs ys) (ht : t.Records xs) (ht' : t'.Records ys)
    (name : Text) : t.meaning? name = t'.meaning? name := by
  apply Option.ext
  rintro ⟨a, kind⟩
  rw [ht.meaning?_eq_some_iff, ht'.meaning?_eq_some_iff]
  exact ⟨h.declaration_of, h.symm.declaration_of⟩

/-- The first pass gives two tables, or finds a repeated name in both. -/
theorem ofLines (h : Interleaved xs ys) :
    Agree (fun d d' => ∃ n n', d.fault = .duplicateLabel n ∧ d'.fault = .duplicateLabel n')
      (fun t t' => t.Records xs ∧ t'.Records ys)
      (SymbolTable.ofLines xs) (SymbolTable.ofLines ys) := by
  by_cases hn : (names xs).Nodup
  · obtain ⟨t, ht⟩ := SymbolTable.exists_ofLines_of_nodup hn
    obtain ⟨t', ht'⟩ := SymbolTable.exists_ofLines_of_nodup (h.names_perm.nodup_iff.1 hn)
    rw [ht, ht']
    exact .ok ⟨SymbolTable.records_of_ofLines ht, SymbolTable.records_of_ofLines ht'⟩
  · obtain ⟨d, n, hd, hfault⟩ := SymbolTable.exists_error_of_not_nodup hn
    obtain ⟨d', n', hd', hfault'⟩ :=
      SymbolTable.exists_error_of_not_nodup (mt h.names_perm.nodup_iff.2 hn)
    rw [hd, hd']
    exact .error ⟨n, n', hfault, hfault'⟩

theorem overlaps_eq (h : Interleaved xs ys) (ht : t.Records xs) (ht' : t'.Records ys) :
    t.overlaps = t'.overlaps := by
  rw [Bool.eq_iff_iff, ht.overlaps_iff, ht'.overlaps_iff, h.instructionCount_eq, h.variableCount_eq]

theorem overflow_fault_eq (h : Interleaved xs ys) (ht : t.Records xs) (ht' : t'.Records ys) :
    (overflow xs t).fault = (overflow ys t').fault := by
  rw [overflow_fault ht, overflow_fault ht', h.instructionCount_eq, h.variableCount_eq]

/-- The second pass gives entries that differ in their lines only. -/
theorem encodeLines (h : Interleaved xs ys) (ht : t.Records xs) (ht' : t'.Records ys) :
    Agree (fun d d' => d.fault = d'.fault)
      (fun es es' => es.map Entry.content = es'.map Entry.content)
      (encodeLines t xs) (encodeLines t' ys) := by
  have haddress : ∀ name, t'.address? (id name) = t.address? name := by
    intro name
    rw [SymbolTable.address?_eq_meaning?, SymbolTable.address?_eq_meaning?, h.meaning?_eq ht ht']
    rfl
  refine (encodeLines_agree haddress (L := fun _ _ => True) h.operations).imp ?_ ?_
  · rintro d d' ⟨-, hfault⟩
    rw [hfault, Fault.rename_id]
  · intro es es' hes
    apply map_eq_map_iff_forall₂.2
    refine hes.imp fun e e' he => ?_
    rw [he.2, Entry.rename_id]
    rfl

end Interleaved

/-- Code does not depend on where variables are declared. Two sources with the same variable lines
and the same instruction lines, each in the same order but interleaved in any two ways, both
assemble or both fail, under either rule. They assemble to the same words with the same mnemonics,
operands and values, to the same listing, and with the same address and kind for every name; they
fail for the same reason, save that another repeated name may be reported. -/
theorem assemble_interleaved {source source' : Text}
    (h : Interleaved (Line.readAll source) (Line.readAll source')) (strict : Bool) :
    Agree
      (fun d d' => d.fault = d'.fault ∨
        ∃ n n', d.fault = .duplicateLabel n ∧ d'.fault = .duplicateLabel n')
      (fun p q => p.entries.map Entry.content = q.entries.map Entry.content ∧
        p.listing = q.listing ∧ ∀ name, p.symbols.meaning? name = q.symbols.meaning? name)
      (assemble strict source) (assemble strict source') := by
  apply assemble_agree (T := fun t t' => t.Records (Line.readAll source) ∧
    t'.Records (Line.readAll source'))
  · exact h.ofLines.imp (fun _ _ => .inr) fun _ _ => id
  · rintro t t' ⟨ht, ht'⟩
    exact h.overlaps_eq ht ht'
  · rintro t t' ⟨ht, ht'⟩ -
    exact .inl (h.overflow_fault_eq ht ht')
  · rintro t t' ⟨ht, ht'⟩
    refine (h.encodeLines ht ht').imp (fun _ _ => .inl) fun es es' hes => ?_
    exact ⟨hes, Program.listing_of_content hes, h.meaning?_eq ht ht'⟩

/-- Two variables above a loop, and the same variables within and below it. -/
theorem assemble_interleaved_loop :
    let source := "x:\ny:\nstart: LODD x\nSTOD y\nJUMP start".toList
    let source' := "start: LODD x\n/ comment\n x :\nSTOD y\nJUMP start\ny:".toList
    Interleaved (Line.readAll source) (Line.readAll source') ∧
      ∃ p q, assemble true source = .ok p ∧ assemble true source' = .ok q ∧
        p.code = [0x0fff, 0x1ffe, 0x6000] ∧
        p.entries.map Entry.content = q.entries.map Entry.content ∧ p.listing = q.listing := by
  intro source source'
  have h : Interleaved (Line.readAll source) (Line.readAll source') := by
    intro kind
    cases kind <;> decide
  obtain ⟨p, hp, hcode⟩ : ∃ p, assemble true source = .ok p ∧
      p.code = [0x0fff, 0x1ffe, 0x6000] := exists_program_of_code (by decide)
  have hagree := assemble_interleaved h true
  rw [hp] at hagree
  generalize hq : assemble true source' = result at hagree
  cases hagree with
  | @ok _ q hpq => exact ⟨h, p, q, hp, rfl, hcode, hpq.1, hpq.2.1⟩

end Mac1
