import Mac1.Proofs.Outcome
import Mac1.Proofs.Source

/-!
Where diagnostics point. Offsets are added up over the lines of a source and then over the pieces
of a line; for every token the sum is the number of bytes before it in the source. A diagnostic
keeps of it what fits into a span, and points at the text that it is about.
-/
namespace Mac1

namespace Token

/-- The token stands in the source, after `t.start` bytes and on the line with the given index:
that many line feeds come before it, and none is in it. -/
def StandsOn (source : Text) (line : Nat) (t : Token) : Prop :=
  ∃ before after, source = before ++ t.text ++ after ∧ t.start = Text.byteLength before ∧
    before.count '\n' = line ∧ '\n' ∉ t.text

theorem Within.standsOn {source : Text} {line : Nat} {t outer : Token} (h : t.Within outer)
    (ho : outer.StandsOn source line) : t.StandsOn source line := by
  obtain ⟨before, after, htext, hstart⟩ := h
  obtain ⟨before', after', hsource, hstart', hcount, hnone⟩ := ho
  have hbefore : '\n' ∉ before := fun hn => hnone (by simp [htext, hn])
  refine ⟨before' ++ before, after ++ after', ?_, ?_, ?_, fun hn => hnone (by simp [htext, hn])⟩
  · rw [hsource, htext]
    simp only [List.append_assoc]
  · rw [hstart, hstart', Text.byteLength_append]
  · rw [List.count_append, hcount, List.count_eq_zero.2 hbefore, Nat.add_zero]

theorem StandsOn.start_le {source : Text} {line : Nat} {t : Token} (h : t.StandsOn source line) :
    t.start ≤ source.byteLength := by
  obtain ⟨before, after, rfl, hstart, -⟩ := h
  rw [hstart, Text.byteLength_append, Text.byteLength_append]
  omega

end Token

/-- The lines of a text, put together again around one of them. -/
theorem Text.intercalate_newline (before : List Text) (raw : Text) (after : List Text) :
    ∃ rest, List.intercalate ['\n'] (before ++ raw :: after) = unlines before ++ raw ++ rest ∧
      ∀ c ∈ rest.head?, c = '\n' := by
  induction before with
  | nil =>
    cases after with
    | nil => exact ⟨[], by simp, by simp⟩
    | cons next after =>
      exact ⟨'\n' :: List.intercalate ['\n'] (next :: after), by simp, by simp⟩
  | cons line before ih =>
    obtain ⟨rest, hrest, hhead⟩ := ih
    refine ⟨rest, ?_, hhead⟩
    have hcons : List.intercalate ['\n'] (line :: (before ++ raw :: after)) =
        line ++ ['\n'] ++ List.intercalate ['\n'] (before ++ raw :: after) := by
      cases before <;> exact List.intercalate_cons_cons
    rw [List.cons_append, hcons, hrest, unlines_cons]
    simp

namespace Line

/-- A line is the trimmed raw line of its index and stands there in the source, after the lines
before it, each with the line feed that was taken off. -/
theorem whole_standsOn {source : Text} {l : Line} (h : l ∈ readAll source) :
    (source.splitOn '\n')[l.index]?.map Text.trim = some l.whole.text ∧
      l.whole.StandsOn source l.index := by
  obtain ⟨before, raw, after, hraws, hread⟩ := mem_readFrom h
  obtain ⟨rest, hrest, -⟩ := Text.intercalate_newline before raw after
  have hsource : List.intercalate ['\n'] (source.splitOn '\n') = source :=
    List.intercalate_splitOn '\n'
  have hline : ∀ line ∈ before ++ raw :: after, '\n' ∉ line :=
    fun line hmem => Text.newline_notMem_of_mem_splitOn (hraws ▸ hmem)
  have hraw : Token.StandsOn source before.length ⟨(Text.unlines before).byteLength, raw⟩ := by
    refine ⟨Text.unlines before, rest, ?_, rfl, ?_, hline raw (by simp)⟩
    · rw [← hsource, hraws, hrest]
    · exact Text.count_newline_unlines fun line hmem => hline line (by simp [hmem])
  rw [read?_eq_some hread, hraws, Nat.zero_add, Nat.zero_add]
  refine ⟨?_, (Token.trimmed_within _ raw).standsOn hraw⟩
  rw [List.getElem?_append_right (Nat.le_refl _), Nat.sub_self]
  rfl

end Line

/-- The token of the line `l` that a fault is about, where `before` are the lines before it. -/
inductive Fault.Concerns (before : List Line) (l : Line) : Fault → Token → Prop where
  | duplicateLabel {t : Token} (ht : l.label? = some t) (hr : t.text ∈ names before) :
      Concerns before l (.duplicateLabel t.text) t
  | unknownMnemonic {o : Operation} (ho : l.operation? = some o) :
      Concerns before l (.unknownMnemonic (Text.upper o.mnemonic.text)) o.mnemonic
  | missingOperand {o : Operation} (ho : l.operation? = some o) (hn : o.operand = none) :
      Concerns before l (.missingOperand (Text.upper o.mnemonic.text)) o.mnemonic
  | invalidOperand {o : Operation} {t : Token} (ho : l.operation? = some o)
      (ht : o.operand = some t) : Concerns before l (.invalidOperand t.text) t
  | undefinedSymbol {o : Operation} {t : Token} (ho : l.operation? = some o)
      (ht : o.operand = some t) : Concerns before l (.undefinedSymbol t.text) t
  | operandOutOfRange {o : Operation} {t : Token} {value max : Int} (ho : l.operation? = some o)
      (ht : o.operand = some t) : Concerns before l (.operandOutOfRange t.text value max) t
  | addressSpaceOverflow {instructions : Nat} {firstVariable : Int} :
      Concerns before l (.addressSpaceOverflow instructions firstVariable) l.whole

/-- An operation is refused at its mnemonic or at its operand. -/
theorem Operation.Fails.concerns {Declared : Text → Int → Prop} {o : Operation} {f : Fault}
    {t : Token} (h : o.Fails Declared f t) {l : Line} (ho : l.operation? = some o)
    (before : List Line) : f.Concerns before l t := by
  cases h with
  | unknown => exact .unknownMnemonic ho
  | missing hi _ hn => exact hi ▸ .missingOperand ho hn
  | invalid _ _ ht => exact .invalidOperand ho ht
  | byteRange _ _ ht => exact .operandOutOfRange ho ht
  | undefined _ _ ht => exact .undefinedSymbol ho ht
  | addressRange _ _ ht => exact .operandOutOfRange ho ht

/-- A fault is about a piece of its line. -/
theorem Fault.Concerns.within {source : Text} {before : List Line} {l : Line} {f : Fault}
    {t : Token} (h : f.Concerns before l t) (hl : l ∈ Line.readAll source) : t.Within l.whole := by
  cases h with
  | duplicateLabel ht => exact Line.label_within hl ht
  | unknownMnemonic ho => exact (Line.operation_within hl ho).1
  | missingOperand ho => exact (Line.operation_within hl ho).1
  | invalidOperand ho ht => exact (Line.operation_within hl ho).2 t ht
  | undefinedSymbol ho ht => exact (Line.operation_within hl ho).2 t ht
  | operandOutOfRange ho ht => exact (Line.operation_within hl ho).2 t ht
  | addressSpaceOverflow => exact Token.Within.refl l.whole

/-- The strict rule always has a line to point at. -/
theorem overflow_line {lines : List Line} (hne : lines ≠ []) (t : SymbolTable) :
    ∃ l ∈ lines, (overflow lines t).line = l.index ∧ (overflow lines t).span = l.whole.span := by
  unfold overflow
  dsimp only
  split
  case h_1 l hl =>
    refine ⟨l, ?_, rfl, rfl⟩
    rcases Option.or_eq_some_iff.1 hl with hi | ⟨-, hlast⟩
    · exact (List.mem_filter.1 (List.mem_of_getElem? hi)).1
    · exact List.mem_of_getLast? hlast
  case h_2 hnone =>
    exact absurd (List.getLast?_eq_none_iff.1 (Option.or_eq_none_iff.1 hnone).2) hne

theorem SymbolTable.Records.ne_nil_of_overlaps {t : SymbolTable} {lines : List Line}
    (h : t.Records lines) (ho : t.overlaps = true) : lines ≠ [] := by
  rintro rfl
  exact absurd (h.overlaps_iff.1 ho) (by decide)

/-- Every diagnostic is about a token of a line, and its span is the span of that token. -/
theorem concerns_of_assemble_error {strict : Bool} {source : Text} {d : Diagnostic}
    (h : assemble strict source = .error d) :
    ∃ before l after t, Line.readAll source = before ++ l :: after ∧
      d.fault.Concerns before l t ∧ d.line = l.index ∧ d.span = t.span := by
  rcases passes_of_assemble_error h with hfirst | ⟨symbols, hsymbols, ⟨ho, rfl⟩ | hsecond⟩
  · obtain ⟨before, l, after, name, hl, -, hname, hmem, rfl⟩ := SymbolTable.ofLines_error hfirst
    exact ⟨before, l, after, name, hl, .duplicateLabel hname hmem, rfl, rfl⟩
  · have hrec := SymbolTable.records_of_ofLines hsymbols
    obtain ⟨l, hmem, hline, hspan⟩ := overflow_line (hrec.ne_nil_of_overlaps ho) symbols
    obtain ⟨before, after, hl⟩ := List.append_of_mem hmem
    refine ⟨before, l, after, l.whole, hl, ?_, hline, hspan⟩
    rw [overflow_fault hrec]
    exact .addressSpaceOverflow
  · obtain ⟨before, l, after, o, hl, -, ho, hd⟩ := encodeLines_error hsecond
    obtain ⟨f, t, hf, rfl⟩ := Operation.fails_of_encode_error (fun _ _ => Iff.rfl) hd
    exact ⟨before, l, after, t, hl, hf.concerns ho before, rfl, rfl⟩

/-- Every diagnostic points at the offending text. There is a token on the line with the index of
the diagnostic, which is the repeated label, the mnemonic, the operand or the whole trimmed line,
whichever the fault is about. Its span starts after as many bytes as stand before the token in the
source, modulo 2³² and so exactly in a source shorter than that, and it is as long as the token, up
to 65535 bytes. -/
theorem diagnostic_points_at {strict : Bool} {source : Text} {d : Diagnostic}
    (h : assemble strict source = .error d) :
    ∃ before l after t, Line.readAll source = before ++ l :: after ∧ l.index = d.line ∧
      (source.splitOn '\n')[d.line]?.map Text.trim = some l.whole.text ∧
      d.fault.Concerns before l t ∧ t.StandsOn source d.line ∧
      d.span.start.toNat = t.start % 0x100000000 ∧
      (source.byteLength < 0x100000000 → d.span.start.toNat = t.start) ∧
      d.span.length.toNat = min t.text.byteLength 65535 := by
  obtain ⟨before, l, after, t, hl, hconcerns, hline, hspan⟩ := concerns_of_assemble_error h
  have hmem : l ∈ Line.readAll source := by simp [hl]
  have hwithin := hconcerns.within hmem
  have hstands := hwithin.standsOn (Line.whole_standsOn hmem).2
  have hstart : t.span.start.toNat = t.start % 0x100000000 := by
    obtain ⟨lead, tail, -, hoffset, hcounted⟩ := hwithin.span_eq
    rw [hcounted, Span.toNat_start_ofBytes, Token.toNat_start_span, Nat.mod_add_mod, hoffset]
  rw [hline, hspan]
  refine ⟨before, l, after, t, hl, rfl, (Line.whole_standsOn hmem).1, hconcerns, hstands, hstart,
    ?_, t.toNat_length_span⟩
  intro hsize
  have hle := hstands.start_le
  omega

/-- A bad number behind wide blanks, below a line that ends with a carriage return and a comment. -/
theorem diagnostic_points_at_number :
    let source := "é:\r\n / c\n\u3000LOCO\u00a0 12x\r\n".toList
    ∃ d, assemble false source = .error d ∧ d.line = 2 ∧ d.span = ⟨20, 3⟩ ∧
      ∃ before l t, d.fault.Concerns before l t ∧ t.StandsOn source 2 ∧ t.start = 20 := by
  intro source
  have herror : (assemble false source).map (fun _ => ()) =
      .error ⟨.invalidOperand "12x".toList, 2, ⟨20, 3⟩⟩ := by decide
  cases h : assemble false source with
  | ok p =>
    rw [h] at herror
    cases herror
  | error d =>
    rw [h] at herror
    cases herror
    obtain ⟨before, l, after, t, -, -, -, hconcerns, hstands, -, hexact, -⟩ :=
      diagnostic_points_at h
    exact ⟨_, rfl, rfl, rfl, before, l, t, hconcerns, hstands, (hexact (by decide)).symm⟩

end Mac1
