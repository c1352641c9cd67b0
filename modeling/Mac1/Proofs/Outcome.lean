import Mac1.Proofs.Encoding

/-!
What assembling a source comes to. A repeated name goes before everything else, the strict rule
before every instruction, and among the instructions the first that cannot be encoded decides.
-/
namespace Mac1

/-- `l` is the first line that declares a name a second time. -/
def FirstRepeat (lines : List Line) (l : Line) (name : Token) : Prop :=
  ∃ before after, lines = before ++ l :: after ∧ (names before).Nodup ∧
    l.label? = some name ∧ name.text ∈ names before

/-- The operation of a line cannot be encoded, for the reason `f` at the token `t`. -/
def Line.Fails (lines : List Line) (l : Line) (f : Fault) (t : Token) : Prop :=
  ∃ o, l.operation? = some o ∧ o.Fails (Declares lines) f t

/-- `l` is the first line whose operation cannot be encoded. -/
def FirstFailure (lines : List Line) (l : Line) (f : Fault) (t : Token) : Prop :=
  ∃ before after, lines = before ++ l :: after ∧ (∀ m ∈ before, ∀ g u, ¬m.Fails lines g u) ∧
    l.Fails lines f t

namespace SymbolTable

theorem Records.overlaps_iff {t : SymbolTable} {lines : List Line} (h : t.Records lines) :
    t.overlaps = true ↔ memorySize < instructionCount lines + variableCount lines := by
  simp only [overlaps, h.instructions, h.nextVariable, decide_eq_true_eq, memorySize, lastAddress]
  omega

theorem Records.firstVariable {t : SymbolTable} {lines : List Line} (h : t.Records lines) :
    t.firstVariable?.getD memorySize = (memorySize : Int) - variableCount lines := by
  unfold firstVariable?
  rw [h.nextVariable]
  simp only [memorySize, lastAddress]
  split
  · rw [Option.getD_some]
    omega
  · rw [Option.getD_none]
    omega

end SymbolTable

theorem overflow_fault {t : SymbolTable} {lines : List Line} (h : t.Records lines) :
    (overflow lines t).fault =
      .addressSpaceOverflow (instructionCount lines) (memorySize - variableCount lines) := by
  unfold overflow
  dsimp only
  split <;> rw [h.firstVariable, h.instructions]

section Passes

variable {strict : Bool} {source : Text} {symbols : SymbolTable}

/-- A program comes with the table of the first pass and the entries of the second. -/
theorem passes_of_assemble {p : Program} (h : assemble strict source = .ok p) :
    SymbolTable.ofLines (Line.readAll source) = .ok p.symbols ∧
      encodeLines p.symbols (Line.readAll source) = .ok p.entries := by
  cases ht : SymbolTable.ofLines (Line.readAll source) with
  | error d =>
    rw [assemble_of_error ht] at h
    cases h
  | ok symbols =>
    by_cases hs : strict = true ∧ symbols.overlaps = true
    · rw [assemble_of_overlaps ht hs.1 hs.2] at h
      cases h
    · rw [assemble_of_ofLines ht hs] at h
      cases he : encodeLines symbols (Line.readAll source) with
      | error d =>
        rw [he] at h
        cases h
      | ok entries =>
        rw [he] at h
        cases h
        exact ⟨rfl, he⟩

/-- A source is refused by the first pass, by the strict rule or by the second pass. -/
theorem passes_of_assemble_error {d : Diagnostic} (h : assemble strict source = .error d) :
    SymbolTable.ofLines (Line.readAll source) = .error d ∨
      ∃ symbols, SymbolTable.ofLines (Line.readAll source) = .ok symbols ∧
        (symbols.overlaps = true ∧ d = overflow (Line.readAll source) symbols ∨
          encodeLines symbols (Line.readAll source) = .error d) := by
  cases ht : SymbolTable.ofLines (Line.readAll source) with
  | error d' =>
    rw [assemble_of_error ht] at h
    cases h
    exact .inl rfl
  | ok symbols =>
    refine .inr ⟨symbols, rfl, ?_⟩
    by_cases hs : strict = true ∧ symbols.overlaps = true
    · rw [assemble_of_overlaps ht hs.1 hs.2] at h
      cases h
      exact .inl ⟨hs.2, rfl⟩
    · rw [assemble_of_ofLines ht hs] at h
      cases he : encodeLines symbols (Line.readAll source) with
      | error d' =>
        rw [he] at h
        cases h
        exact .inr rfl
      | ok entries =>
        rw [he] at h
        cases h

theorem ok_of_toOption {ε α : Type} {x : Except ε α} {a : α} (h : x.toOption = some a) :
    x = .ok a := by
  cases x with
  | error d => cases h
  | ok b => exact congrArg Except.ok (Option.some.inj h)

/-- A program holds a search tree, so what can be decided about a source is the code it gives. -/
theorem exists_program_of_code {ws : List Word}
    (h : (assemble strict source).toOption.map Program.code = some ws) :
    ∃ p, assemble strict source = .ok p ∧ p.code = ws := by
  obtain ⟨p, hp, hcode⟩ := Option.map_eq_some_iff.1 h
  exact ⟨p, ok_of_toOption hp, hcode⟩

theorem exists_diagnostic_of_code
    (h : (assemble strict source).toOption.map Program.code = none) :
    ∃ d, assemble strict source = .error d := by
  cases ha : assemble strict source with
  | error d => exact ⟨d, rfl⟩
  | ok p =>
    rw [ha] at h
    cases h

end Passes

theorem not_fails_of_encode_ok {t : SymbolTable} {lines before : List Line} (h : t.Records lines)
    (hok : ∀ x ∈ operations before, ∃ e, x.2.encode t x.1 = .ok e) :
    ∀ m ∈ before, ∀ g u, ¬m.Fails lines g u := by
  rintro m hm g u ⟨o, ho, hf⟩
  have hmem : (m.index, o) ∈ operations before :=
    List.mem_filterMap.2 ⟨m, hm, by simp [ho]⟩
  obtain ⟨e, he⟩ := hok _ hmem
  rw [hf.encode_eq fun _ _ => h.address?_eq_some_iff] at he
  cases he

/-- Encoding ends at the first failure, or with one entry for each instruction if there is none. -/
theorem encodeLines_outcome {t : SymbolTable} {lines : List Line} (h : t.Records lines) :
    (∃ l f u, FirstFailure lines l f u ∧
      encodeLines t lines = .error ⟨f, l.index, u.span⟩) ∨
    ((∀ l ∈ lines, ∀ f u, ¬l.Fails lines f u) ∧
      ∃ entries, encodeLines t lines = .ok entries ∧ entries.length = instructionCount lines) := by
  cases he : encodeLines t lines with
  | error d =>
    obtain ⟨before, l, after, o, hl, hok, ho, hd⟩ := encodeLines_error he
    obtain ⟨f, u, hf, rfl⟩ := Operation.fails_of_encode_error (fun _ _ => h.address?_eq_some_iff) hd
    exact .inl ⟨l, f, u, ⟨before, after, hl, not_fails_of_encode_ok h hok, o, ho, hf⟩, rfl⟩
  | ok entries =>
    refine .inr ⟨not_fails_of_encode_ok h fun x hx => ?_, entries, rfl, length_of_encodeLines he⟩
    have hx' := List.mem_map_of_mem (f := fun x => x.2.encode t x.1) hx
    rw [encodeLines_ok he] at hx'
    obtain ⟨e, -, he⟩ := List.mem_map.1 hx'
    exact ⟨e, he.symm⟩

/-- The outcome of assembling, for every source and either rule. A repeated name is reported where
it first occurs. Otherwise the strict rule refuses more than 4096 instructions and variables.
Otherwise the first instruction that cannot be encoded is reported, with its reason. Otherwise there
is a program, with one word for each instruction. The counters are those of 32-bit words in a source
of fewer than 2³¹ bytes (`SymbolTable.fits_of_ofLines`). -/
theorem assemble_outcome (strict : Bool) (source : Text) :
    let lines := Line.readAll source
    let i := instructionCount lines
    let v := variableCount lines
    let overflows := strict = true ∧ memorySize < i + v
    (¬(names lines).Nodup → ∃ l name, FirstRepeat lines l name ∧
      assemble strict source = .error ⟨.duplicateLabel name.text, l.index, name.span⟩) ∧
    ((names lines).Nodup → overflows → ∃ line span,
      assemble strict source = .error ⟨.addressSpaceOverflow i (memorySize - v), line, span⟩) ∧
    ((names lines).Nodup → ¬overflows → (∃ l ∈ lines, ∃ f t, l.Fails lines f t) →
      ∃ l f t, FirstFailure lines l f t ∧ assemble strict source = .error ⟨f, l.index, t.span⟩) ∧
    ((names lines).Nodup → ¬overflows → (∀ l ∈ lines, ∀ f t, ¬l.Fails lines f t) →
      ∃ p, assemble strict source = .ok p ∧ p.size = i) := by
  intro lines i v overflows
  cases ht : SymbolTable.ofLines lines with
  | error d =>
    obtain ⟨before, l, after, name, hl, hb, hname, hmem, rfl⟩ := SymbolTable.ofLines_error ht
    have hn : ¬(names lines).Nodup := by
      intro hn
      obtain ⟨t, ht'⟩ := SymbolTable.exists_ofLines_of_nodup hn
      rw [ht] at ht'
      cases ht'
    refine ⟨fun _ => ⟨l, name, ⟨before, after, hl, hb, hname, hmem⟩, assemble_of_error ht⟩, ?_⟩
    exact ⟨fun h => absurd h hn, fun h => absurd h hn, fun h => absurd h hn⟩
  | ok symbols =>
    have hrec := SymbolTable.records_of_ofLines ht
    have hstrict : ¬overflows → ¬(strict = true ∧ symbols.overlaps = true) :=
      fun hno h => hno ⟨h.1, hrec.overlaps_iff.1 h.2⟩
    refine ⟨fun h => absurd hrec.nodup h, ?_, ?_, ?_⟩
    · rintro - ⟨hs, ho⟩
      have ho' := hrec.overlaps_iff.2 ho
      have hfault := overflow_fault hrec
      refine ⟨(overflow lines symbols).line, (overflow lines symbols).span, ?_⟩
      rw [assemble_of_overlaps ht hs ho', ← hfault]
    · rintro - hno ⟨l, hl, f, t, hf⟩
      rcases encodeLines_outcome hrec with ⟨m, g, u, hfirst, he⟩ | ⟨hnone, -⟩
      · refine ⟨m, g, u, hfirst, ?_⟩
        rw [assemble_of_ofLines ht (hstrict hno), he]
        rfl
      · exact absurd hf (hnone l hl f t)
    · rintro - hno hall
      rcases encodeLines_outcome hrec with ⟨m, g, u, hfirst, -⟩ | ⟨-, entries, he, hlen⟩
      · obtain ⟨before, after, hm, -, hf⟩ := hfirst
        exact absurd hf (hall m (by simp [hm]) g u)
      · refine ⟨⟨entries, symbols⟩, ?_, hlen⟩
        rw [assemble_of_ofLines ht (hstrict hno), he]
        rfl

end Mac1
