import Mac1.Proofs.Outcome
import Mac1.Proofs.Source

/-!
Sources that grow at the end. Both passes read lines in order and only ever add to what they have,
and a name keeps its address when more names are declared. So lines below a source change nothing
of its program, and what they get wrong is reported on one of them.
-/
namespace Mac1

/-- Text below a source is read as further lines, each on a later line of the text. -/
theorem Line.readAll_append (a b : Text) :
    ∃ below, readAll (a ++ '\n' :: b) = readAll a ++ below ∧
      ∀ l ∈ below, a.count '\n' < l.index := by
  refine ⟨readFrom (a.splitOn '\n').length (Text.unlines (a.splitOn '\n')).byteLength
    (b.splitOn '\n'), ?_, ?_⟩
  · rw [readAll, List.splitOn_append_cons_self, readFrom_append, Nat.zero_add, Nat.zero_add]
    rfl
  · intro l hl
    have hle := le_index_of_mem_readFrom hl
    rw [Text.length_splitOn_newline] at hle
    omega

/-- A longer table finds every symbol of a shorter one. -/
theorem SymbolTable.Records.find?_append {t t' : SymbolTable} {xs ys : List Line}
    (h : t.Records xs) (h' : t'.Records (xs ++ ys)) {name : Text} {s : Symbol}
    (hs : t.find? name = some s) : t'.find? name = some s := by
  obtain ⟨hmem, hname⟩ := h.find?_eq_some_iff.1 hs
  refine h'.find?_eq_some_iff.2 ⟨?_, hname⟩
  rw [declarations, declarationsAfter_append]
  exact List.mem_append_left _ hmem

/-- All names of `t` have the same address in `t'`. -/
def SymbolTable.Keeps (t t' : SymbolTable) : Prop :=
  ∀ name a, t.address? name = some a → t'.address? name = some a

theorem SymbolTable.Records.keeps {t t' : SymbolTable} {xs ys : List Line} (h : t.Records xs)
    (h' : t'.Records (xs ++ ys)) : t.Keeps t' := by
  intro name a ha
  obtain ⟨s, hs, rfl⟩ := Option.map_eq_some_iff.1 ha
  rw [address?, h.find?_append h' hs]
  rfl

section Encoding

variable {t t' : SymbolTable}

theorem Instruction.operandValue_of_keeps (h : t.Keeps t') {i : Instruction} {operand : Text}
    {value : Int} (hv : i.operandValue t operand = .ok value) :
    i.operandValue t' operand = .ok value := by
  cases hf : i.format with
  | bare =>
    rw [operandValue, hf] at hv ⊢
    exact hv
  | byte =>
    rw [operandValue_byte hf] at hv ⊢
    exact hv
  | constant =>
    rw [operandValue_constant hf] at hv ⊢
    exact hv
  | address =>
    obtain ⟨ha, hr⟩ := (operandValue_address_eq_ok_iff hf).1 hv
    exact (operandValue_address_eq_ok_iff hf).2 ⟨h _ _ ha, hr⟩

theorem Operation.encode_of_keeps (h : t.Keeps t') {o : Operation} {line : Nat} {e : Entry}
    (he : o.encode t line = .ok e) : o.encode t' line = .ok e := by
  obtain ⟨i, hi, ⟨hf, rfl⟩ | ⟨u, value, hf, ho, hv, rfl⟩⟩ := encode_ok he
  · exact encode_bare hi hf
  · exact encode_operand_ok hi hf ho (Instruction.operandValue_of_keeps h hv)

/-- Lines that can be encoded are encoded alike with more names, whatever comes below them. -/
theorem encodeLines_append (h : t.Keeps t') {xs : List Line} {entries : List Entry}
    (he : encodeLines t xs = .ok entries) (ys : List Line) :
    encodeLines t' (xs ++ ys) = (encodeLines t' ys).map (entries ++ ·) := by
  induction xs generalizing entries with
  | nil =>
    cases he
    rw [List.nil_append]
    cases encodeLines t' ys <;> rfl
  | cons l xs ih =>
    cases ho : l.operation? with
    | none =>
      rw [encodeLines_cons_none ho] at he
      rw [List.cons_append, encodeLines_cons_none ho, ih he]
    | some o =>
      cases hl : o.encode t l.index with
      | error d =>
        rw [encodeLines_cons_error ho hl] at he
        cases he
      | ok e =>
        rw [encodeLines_cons_ok ho hl] at he
        cases hxs : encodeLines t xs with
        | error d =>
          rw [hxs] at he
          cases he
        | ok es =>
          rw [hxs] at he
          cases he
          rw [List.cons_append, encodeLines_cons_ok ho (Operation.encode_of_keeps h hl), ih hxs]
          cases encodeLines t' ys <;> rfl

end Encoding

/-- A diagnostic of the second pass stands on the line of the refused operation. -/
theorem line_of_encodeLines_error {t : SymbolTable} {lines : List Line} {d : Diagnostic}
    (h : encodeLines t lines = .error d) : ∃ l ∈ lines, d.line = l.index := by
  obtain ⟨before, l, after, o, rfl, -, -, hd⟩ := encodeLines_error h
  obtain ⟨f, u, -, rfl⟩ := Operation.fails_of_encode_error (fun _ _ => Iff.rfl) hd
  exact ⟨l, by simp, rfl⟩

section Below

variable {a b : Text} {below : List Line}
  (hlines : Line.readAll (a ++ '\n' :: b) = Line.readAll a ++ below)

include hlines

/-- Whatever both sources assemble to, the longer one starts with the shorter one. -/
theorem program_append {strict : Bool} {p q : Program} (hp : assemble strict a = .ok p)
    (hq : assemble strict (a ++ '\n' :: b) = .ok q) :
    p.entries <+: q.entries ∧ p.symbols.toList <+: q.symbols.toList := by
  obtain ⟨htable, hentries⟩ := passes_of_assemble hp
  obtain ⟨htable', hentries'⟩ := passes_of_assemble hq
  rw [hlines] at htable' hentries'
  have hrec := SymbolTable.records_of_ofLines htable
  have hrec' := SymbolTable.records_of_ofLines htable'
  constructor
  · rw [encodeLines_append (hrec.keeps hrec') hentries] at hentries'
    cases hes : encodeLines q.symbols below with
    | error d =>
      rw [hes] at hentries'
      cases hentries'
    | ok es =>
      rw [hes] at hentries'
      exact ⟨es, Except.ok.inj hentries'⟩
  · rw [hrec.toList, hrec'.toList, declarations, declarations, declarationsAfter_append]
    exact List.prefix_append ..

/-- When only the shorter source assembles, one of the lines below it is to blame: the first pass
goes on from the symbols of the shorter source. -/
theorem line_append {p : Program} {d : Diagnostic} (hp : assemble false a = .ok p)
    (hd : assemble false (a ++ '\n' :: b) = .error d) : ∃ l ∈ below, d.line = l.index := by
  obtain ⟨htable, hentries⟩ := passes_of_assemble hp
  have hrec := SymbolTable.records_of_ofLines htable
  have hgoes : SymbolTable.ofLines (Line.readAll (a ++ '\n' :: b)) = p.symbols.extend below := by
    rw [hlines]
    exact SymbolTable.extend_append htable below
  cases htable' : p.symbols.extend below with
  | error d' =>
    rw [assemble_of_error (hgoes.trans htable')] at hd
    cases hd
    obtain ⟨mid, l, after, name, rfl, -, -, -, rfl⟩ := hrec.extend_error htable'
    exact ⟨l, by simp, rfl⟩
  | ok symbols =>
    have hrec' := hrec.extend_ok htable'
    rw [assemble_of_ofLines (hgoes.trans htable') (by simp), hlines,
      encodeLines_append (hrec.keeps hrec') hentries] at hd
    cases hes : encodeLines symbols below with
    | ok es =>
      rw [hes] at hd
      cases hd
    | error d' =>
      rw [hes] at hd
      cases hd
      exact line_of_encodeLines_error hes

end Below

/-- Text below a source never changes what is assembled from it, under either rule: the words of the
program with all that is told about them, and its symbols, come first in the longer program. If the
source assembles and the longer one does not, then the line to blame lies below the source. -/
theorem assemble_append (a b : Text) :
    (∀ (strict : Bool) (p q : Program), assemble strict a = .ok p →
      assemble strict (a ++ '\n' :: b) = .ok q →
      p.entries <+: q.entries ∧ p.symbols.toList <+: q.symbols.toList) ∧
    (∀ (p : Program) (d : Diagnostic), assemble false a = .ok p →
      assemble false (a ++ '\n' :: b) = .error d → a.count '\n' < d.line) := by
  obtain ⟨below, hlines, hbelow⟩ := Line.readAll_append a b
  refine ⟨fun strict p q hp hq => program_append hlines hp hq, fun p d hp hd => ?_⟩
  obtain ⟨l, hl, hline⟩ := line_append hlines hp hd
  rw [hline]
  exact hbelow l hl

/-- A variable and a jump back below a label, and a variable that is declared again. -/
theorem assemble_append_jump :
    let a := "x:\nend: LODD x".toList
    let b := "y:\nJUMP end".toList
    let c := "LODD x\nx:".toList
    ∃ p q d, assemble false a = .ok p ∧ assemble false (a ++ '\n' :: b) = .ok q ∧
      q.code = [0x0fff, 0x6000] ∧ p.entries <+: q.entries ∧ p.symbols.toList <+: q.symbols.toList ∧
      assemble false (a ++ '\n' :: c) = .error d ∧ 1 < d.line := by
  intro a b c
  obtain ⟨p, hp, -⟩ : ∃ p, assemble false a = .ok p ∧ p.code = [0x0fff] :=
    exists_program_of_code (by decide)
  obtain ⟨q, hq, hcode⟩ : ∃ q, assemble false (a ++ '\n' :: b) = .ok q ∧
      q.code = [0x0fff, 0x6000] := exists_program_of_code (by decide)
  obtain ⟨d, hd⟩ : ∃ d, assemble false (a ++ '\n' :: c) = .error d :=
    exists_diagnostic_of_code (by decide)
  obtain ⟨hentries, hsymbols⟩ := (assemble_append a b).1 false p q hp hq
  exact ⟨p, q, d, hp, hq, hcode, hentries, hsymbols, hd, (assemble_append a c).2 p d hp hd⟩

end Mac1
