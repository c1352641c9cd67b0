import Mac1.Proofs.Addresses
import Mac1.Proofs.Image

/-!
The strict rule. Labels count up from zero and variables count down from the last address, so the
two regions are apart exactly when there are at most as many instructions and variables as cells.
The rule refuses every other program and changes none that it accepts.
-/
namespace Mac1

section Regions

variable {lines : List Line} {s : Symbol}

/-- Labels lie below the number of instructions. -/
theorem address_of_label_mem (hs : s ∈ declarations lines) (hk : s.kind = .label) :
    0 ≤ s.address ∧ s.address < instructionCount lines := by
  obtain ⟨before, l, after, rfl, hl⟩ := mem_declarations.1 hs
  obtain ⟨hi, haddr⟩ := (Line.symbol?_kind hl).1 hk
  rw [haddr, instructionCount_append, instructionCount_cons, if_pos hi]
  omega

/-- Variables take the last addresses, one for each. -/
theorem address_of_variable_mem (hs : s ∈ declarations lines) (hk : s.kind = .variable) :
    (memorySize : Int) - variableCount lines ≤ s.address ∧ s.address ≤ lastAddress := by
  obtain ⟨before, l, after, rfl, hl⟩ := mem_declarations.1 hs
  obtain ⟨hv, haddr⟩ := (Line.symbol?_kind hl).2 hk
  rw [haddr, variableCount_append, variableCount_cons, if_pos hv]
  simp only [memorySize, lastAddress]
  omega

/-- When everything fits, the variables lie above the instructions. -/
theorem instructionCount_le_address
    (hfit : instructionCount lines + variableCount lines ≤ memorySize)
    (hs : s ∈ declarations lines) (hk : s.kind = .variable) :
    (instructionCount lines : Int) ≤ s.address := by
  have hlow := (address_of_variable_mem hs hk).1
  omega

/-- Then no two symbols share an address, of whichever kinds they are. -/
theorem nodup_address (hfit : instructionCount lines + variableCount lines ≤ memorySize) :
    ((declarations lines).map (·.address)).Nodup := by
  have apart : ∀ s ∈ declarations lines, ∀ t ∈ declarations lines, s.kind = .label →
      t.kind = .variable → s.address < t.address := by
    intro s hs t ht hks hkt
    have hbelow := (address_of_label_mem hs hks).2
    have habove := instructionCount_le_address hfit ht hkt
    omega
  rw [List.Nodup, List.pairwise_map]
  refine (pairwise_declarationsAfter [] lines).imp_of_mem ?_
  intro s t hs ht hsame
  cases hks : s.kind with
  | label =>
    cases hkt : t.kind with
    | label =>
      apply hsame
      rw [hks, hkt]
    | «variable» =>
      have hlt := apart s hs t ht hks hkt
      omega
  | «variable» =>
    cases hkt : t.kind with
    | label =>
      have hlt := apart t ht s hs hkt hks
      omega
    | «variable» =>
      apply hsame
      rw [hks, hkt]

end Regions

/-- The rule accepts what assembles without it and fits, as the same program: with nothing to
refuse, both ways of assembling go on to the same second pass. -/
theorem assemble_strict_iff {source : Text} {p : Program} :
    assemble true source = .ok p ↔ assemble false source = .ok p ∧
      instructionCount (Line.readAll source) + variableCount (Line.readAll source) ≤
        memorySize := by
  cases ht : SymbolTable.ofLines (Line.readAll source) with
  | error d => simp [assemble_of_error ht]
  | ok symbols =>
    have hover := (SymbolTable.records_of_ofLines ht).overlaps_iff
    have hfree : assemble false source = _ := assemble_of_ofLines ht (by simp)
    cases ho : symbols.overlaps with
    | true =>
      have hlt := hover.1 ho
      rw [assemble_of_overlaps ht rfl ho]
      constructor
      · intro h
        cases h
      · rintro ⟨-, hfit⟩
        omega
    | false =>
      have hfit := mt hover.2 (by simp [ho])
      rw [assemble_of_ofLines ht (by simp [ho]), hfree]
      exact ⟨fun h => ⟨h, by omega⟩, And.left⟩

/-- The strict rule is sound, complete and conservative. It accepts exactly the sources that
assemble without it and have at most 4096 instructions and variables, as the same programs. In such
a program the labels lie below the variables and no two symbols share an address; loaded into any
memory it leaves zero in every variable, and in the cell of every label the word that the line of
the label emits. The overlap is that of 32-bit counters in a source of fewer than 2³¹ bytes
(`SymbolTable.fits_of_ofLines`). -/
theorem strict_separates (source : Text) (p : Program) :
    let lines := Line.readAll source
    let i := instructionCount lines
    let v := variableCount lines
    (assemble true source = .ok p ↔ assemble false source = .ok p ∧ i + v ≤ memorySize) ∧
    (assemble true source = .ok p →
      (∀ s ∈ p.symbols.toList, s.kind = .label → 0 ≤ s.address ∧ s.address < i) ∧
      (∀ s ∈ p.symbols.toList, s.kind = .variable →
        (memorySize : Int) - v ≤ s.address ∧ s.address ≤ lastAddress ∧ i ≤ s.address) ∧
      (p.symbols.toList.map (·.address)).Nodup ∧
      ∀ m : Memory,
        (m.load p.listing).1 = .ok i ∧
        (∀ s ∈ p.symbols.toList, s.kind = .variable →
          (m.load p.listing).2.read s.address = .ok 0) ∧
        (∀ s ∈ p.symbols.toList, s.kind = .label →
          ∃ l ∈ lines, l.name? = some s.name ∧ l.index = s.line ∧
            ∃ o e, l.operation? = some o ∧ o.encode p.symbols l.index = .ok e ∧
              (m.load p.listing).2.read s.address = .ok e.word)) := by
  intro lines i v
  refine ⟨assemble_strict_iff, fun h => ?_⟩
  have hfit : i + v ≤ memorySize := (assemble_strict_iff.1 h).2
  obtain ⟨ht, henc⟩ := passes_of_assemble h
  have hrec := SymbolTable.records_of_ofLines ht
  have hsize : p.size = i := length_of_encodeLines henc
  have hroom : p.size ≤ memorySize := by omega
  have hvariable : ∀ s ∈ p.symbols.toList, s.kind = .variable →
      (memorySize : Int) - v ≤ s.address ∧ s.address ≤ lastAddress ∧ i ≤ s.address := by
    intro s hs hk
    have hs' : s ∈ declarations lines := hrec.toList ▸ hs
    obtain ⟨hlow, hhigh⟩ := address_of_variable_mem hs' hk
    exact ⟨hlow, hhigh, instructionCount_le_address hfit hs' hk⟩
  refine ⟨fun s hs hk => address_of_label_mem (hrec.toList ▸ hs) hk, hvariable, ?_, ?_⟩
  · rw [hrec.toList]
    exact nodup_address hfit
  · intro m
    refine ⟨hsize ▸ load_listing_ok h hroom m, ?_, ?_⟩
    · intro s hs hk
      obtain ⟨-, hhigh, hlow⟩ := hvariable s hs hk
      obtain ⟨a, ha⟩ := Int.eq_ofNat_of_zero_le (a := s.address) (by omega)
      simp only [lastAddress] at hhigh
      rw [ha]
      exact read_after h hroom m (by omega) (by simp only [memorySize]; omega)
    · intro s hs hk
      obtain ⟨l, hl, hname, hline, n, hn, o, e, ho, hoe, he, -⟩ := emits_of_label hrec henc hs hk
      exact ⟨l, hl, hname, hline, o, e, ho, hoe, by rw [hn]; exact read_entry h hroom m he⟩

/-- A variable at the top of memory and a loop at its bottom. -/
theorem strict_separates_loop :
    let source := "x:\nstart: LODD x\nJUMP start".toList
    ∃ p, assemble true source = .ok p ∧ assemble false source = .ok p ∧
      p.code = [0x0fff, 0x6000] ∧ (p.symbols.toList.map (·.address)).Nodup ∧
      (Memory.blank.load p.listing).1 = .ok 2 := by
  intro source
  have hcode : (assemble true source).toOption.map Program.code = some [0x0fff, 0x6000] := by decide
  have hcount : instructionCount (Line.readAll source) = 2 := by decide
  cases h : assemble true source with
  | error d =>
    rw [h] at hcode
    cases hcode
  | ok p =>
    rw [h] at hcode
    obtain ⟨hiff, hlayout⟩ := strict_separates source p
    obtain ⟨-, -, hnodup, hload⟩ := hlayout h
    rw [hcount] at hload
    exact ⟨p, rfl, (hiff.1 h).1, Option.some.inj hcode, hnodup, (hload Memory.blank).1⟩

end Mac1
