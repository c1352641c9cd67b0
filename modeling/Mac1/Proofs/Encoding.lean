import Mac1.Assembly.Program
import Mac1.Proofs.Numeral
import Mac1.Proofs.SymbolTable
import Mac1.Proofs.Word

/-!
The second pass. An operation is refused for exactly one of six reasons, tried in a fixed order;
any other operation becomes one entry. The pass gives one entry for each instruction line, or the
reason for which the first line that has one is refused.
-/
namespace Mac1

/-- Why an operation cannot be encoded, and the token to blame, when `Declared name a` says that
`name` stands for the address `a`. -/
inductive Operation.Fails (Declared : Text → Int → Prop) (o : Operation) :
    Fault → Token → Prop where
  | unknown (h : ∀ i : Instruction, i.mnemonic ≠ Text.upper o.mnemonic.text) :
      o.Fails Declared (.unknownMnemonic (Text.upper o.mnemonic.text)) o.mnemonic
  | missing {i : Instruction} (hi : i.mnemonic = Text.upper o.mnemonic.text)
      (hf : i.format ≠ .bare) (ho : o.operand = none) :
      o.Fails Declared (.missingOperand i.mnemonic) o.mnemonic
  | invalid {i : Instruction} {t : Token} (hi : i.mnemonic = Text.upper o.mnemonic.text)
      (hf : i.format = .byte ∨ i.format = .constant) (ho : o.operand = some t)
      (ht : ∀ n, ¬Numeral.IsLiteral t.text n) : o.Fails Declared (.invalidOperand t.text) t
  | byteRange {i : Instruction} {t : Token} {n : Int} (hi : i.mnemonic = Text.upper o.mnemonic.text)
      (hf : i.format = .byte) (ho : o.operand = some t) (ht : Numeral.IsLiteral t.text n)
      (hr : ¬(0 ≤ n ∧ n ≤ 255)) : o.Fails Declared (.operandOutOfRange t.text n 255) t
  | undefined {i : Instruction} {t : Token} (hi : i.mnemonic = Text.upper o.mnemonic.text)
      (hf : i.format = .address) (ho : o.operand = some t) (ht : ∀ a, ¬Declared t.text a) :
      o.Fails Declared (.undefinedSymbol t.text) t
  | addressRange {i : Instruction} {t : Token} {a : Int}
      (hi : i.mnemonic = Text.upper o.mnemonic.text) (hf : i.format = .address)
      (ho : o.operand = some t) (ht : Declared t.text a) (hr : ¬(0 ≤ a ∧ a ≤ lastAddress)) :
      o.Fails Declared (.operandOutOfRange t.text a lastAddress) t

namespace Instruction

theorem literal_eq_ok_iff {operand : Text} {n : Int} :
    literal operand = .ok n ↔ Numeral.IsLiteral operand n := by
  rw [← Numeral.literal?_eq_some_iff, literal]
  cases Numeral.literal? operand <;> simp

theorem literal_eq_error_iff {operand : Text} {f : Fault} :
    literal operand = .error f ↔
      (∀ n, ¬Numeral.IsLiteral operand n) ∧ .invalidOperand operand = f := by
  simp only [← Numeral.literal?_eq_some_iff, literal]
  cases Numeral.literal? operand <;> simp

theorem literal_decimal {n : Int} (hl : -0x8000000000000000 ≤ n) (hu : n ≤ 0x7fffffffffffffff) :
    literal (Numeral.decimal n) = .ok n := by
  rw [literal, Numeral.literal?_decimal hl hu]

theorem operandValue_byte_eq_ok_iff {i : Instruction} (hf : i.format = .byte)
    {symbols : SymbolTable} {operand : Text} {n : Int} :
    i.operandValue symbols operand = .ok n ↔ Numeral.IsLiteral operand n ∧ 0 ≤ n ∧ n ≤ 255 := by
  rw [operandValue_byte hf]
  constructor
  · intro h
    cases hl : literal operand with
    | error f =>
      rw [hl] at h
      cases h
    | ok m =>
      rw [hl] at h
      obtain ⟨hr, rfl⟩ := inRange_eq_ok_iff.1 h
      exact ⟨literal_eq_ok_iff.1 hl, hr⟩
  · rintro ⟨hl, hr⟩
    rw [literal_eq_ok_iff.2 hl]
    exact inRange_eq_ok_iff.2 ⟨hr, rfl⟩

theorem operandValue_address_eq_ok_iff {i : Instruction} (hf : i.format = .address)
    {symbols : SymbolTable} {operand : Text} {a : Int} :
    i.operandValue symbols operand = .ok a ↔
      symbols.address? operand = some a ∧ 0 ≤ a ∧ a ≤ lastAddress := by
  cases ha : symbols.address? operand with
  | none =>
    rw [operandValue_undefined hf ha]
    simp
  | some b =>
    rw [operandValue_address hf ha, inRange_eq_ok_iff, Option.some.injEq]
    constructor
    · rintro ⟨hr, rfl⟩
      exact ⟨rfl, hr⟩
    · rintro ⟨rfl, hr⟩
      exact ⟨hr, rfl⟩

end Instruction

namespace Operation

variable {symbols : SymbolTable} {Declared : Text → Int → Prop} {o : Operation} {line : Nat}

/-- An operand is refused only for one of the last four reasons. -/
theorem fails_of_operandValue (hD : ∀ name a, symbols.address? name = some a ↔ Declared name a)
    {i : Instruction} {t : Token} {f : Fault} (hi : i.mnemonic = Text.upper o.mnemonic.text)
    (ho : o.operand = some t) (h : i.operandValue symbols t.text = .error f) :
    o.Fails Declared f t := by
  cases hf : i.format with
  | bare => simp [Instruction.operandValue, hf] at h
  | byte =>
    rw [Instruction.operandValue_byte hf] at h
    cases hl : Instruction.literal t.text with
    | error g =>
      rw [hl] at h
      cases h
      obtain ⟨ht, rfl⟩ := Instruction.literal_eq_error_iff.1 hl
      exact .invalid hi (.inl hf) ho ht
    | ok n =>
      rw [hl] at h
      obtain ⟨hr, rfl⟩ := Instruction.inRange_eq_error_iff.1 h
      exact .byteRange hi hf ho (Instruction.literal_eq_ok_iff.1 hl) hr
  | constant =>
    rw [Instruction.operandValue_constant hf] at h
    obtain ⟨ht, rfl⟩ := Instruction.literal_eq_error_iff.1 h
    exact .invalid hi (.inr hf) ho ht
  | address =>
    cases ha : symbols.address? t.text with
    | none =>
      rw [Instruction.operandValue_undefined hf ha] at h
      cases h
      exact .undefined hi hf ho fun a hd => by simp [(hD _ _).2 hd] at ha
    | some a =>
      rw [Instruction.operandValue_address hf ha] at h
      obtain ⟨hr, rfl⟩ := Instruction.inRange_eq_error_iff.1 h
      exact .addressRange hi hf ho ((hD _ _).1 ha) hr

/-- An operation is refused only for one of the six reasons. -/
theorem fails_of_encode_error (hD : ∀ name a, symbols.address? name = some a ↔ Declared name a)
    {d : Diagnostic} (h : o.encode symbols line = .error d) :
    ∃ f t, o.Fails Declared f t ∧ d = ⟨f, line, t.span⟩ := by
  by_cases hex : ∃ i : Instruction, i.mnemonic = Text.upper o.mnemonic.text
  · obtain ⟨i, hi⟩ := hex
    by_cases hf : i.format = .bare
    · rw [encode_bare hi hf] at h
      cases h
    · cases ho : o.operand with
      | none =>
        rw [encode_missing hi hf ho] at h
        cases h
        exact ⟨_, _, .missing hi hf ho, rfl⟩
      | some t =>
        cases hv : i.operandValue symbols t.text with
        | ok value =>
          rw [encode_operand_ok hi hf ho hv] at h
          cases h
        | error f =>
          rw [encode_operand_error hi hf ho hv] at h
          cases h
          exact ⟨f, t, fails_of_operandValue hD hi ho hv, rfl⟩
  · have hn : ∀ i : Instruction, i.mnemonic ≠ Text.upper o.mnemonic.text :=
      fun i hi => hex ⟨i, hi⟩
    rw [encode_unknown hn] at h
    cases h
    exact ⟨_, _, .unknown hn, rfl⟩

/-- Each of the six reasons is enough. -/
theorem Fails.encode_eq (hD : ∀ name a, symbols.address? name = some a ↔ Declared name a)
    {f : Fault} {t : Token} (h : o.Fails Declared f t) :
    o.encode symbols line = .error ⟨f, line, t.span⟩ := by
  cases h with
  | unknown h => exact encode_unknown h
  | missing hi hf ho => exact encode_missing hi hf ho
  | invalid hi hf ho ht =>
    have hl := Instruction.literal_eq_error_iff.2 ⟨ht, rfl⟩
    rcases hf with hf | hf
    · exact encode_operand_error hi (by simp [hf]) ho
        (by rw [Instruction.operandValue_byte hf, hl]; rfl)
    · exact encode_operand_error hi (by simp [hf]) ho
        (by rw [Instruction.operandValue_constant hf, hl])
  | byteRange hi hf ho ht hr =>
    have hl := Instruction.literal_eq_ok_iff.2 ht
    refine encode_operand_error hi (by simp [hf]) ho ?_
    rw [Instruction.operandValue_byte hf, hl]
    exact Instruction.inRange_eq_error_iff.2 ⟨hr, rfl⟩
  | undefined hi hf ho ht =>
    have ha : symbols.address? t.text = none := by
      cases ha : symbols.address? t.text with
      | none => rfl
      | some a => exact absurd ((hD _ _).1 ha) (ht a)
    exact encode_operand_error hi (by simp [hf]) ho (Instruction.operandValue_undefined hf ha)
  | addressRange hi hf ho ht hr =>
    have ha := (hD _ _).2 ht
    refine encode_operand_error hi (by simp [hf]) ho ?_
    rw [Instruction.operandValue_address hf ha]
    exact Instruction.inRange_eq_error_iff.2 ⟨hr, rfl⟩

/-- An encoded operation is a bare instruction or one with the value of its operand. -/
theorem encode_ok {e : Entry} (h : o.encode symbols line = .ok e) :
    ∃ i : Instruction, i.mnemonic = Text.upper o.mnemonic.text ∧
      ((i.format = .bare ∧ e = Entry.bare i line) ∨
        ∃ t value, i.format ≠ .bare ∧ o.operand = some t ∧
          i.operandValue symbols t.text = .ok value ∧
          e = Entry.withOperand i t.text value line) := by
  by_cases hex : ∃ i : Instruction, i.mnemonic = Text.upper o.mnemonic.text
  · obtain ⟨i, hi⟩ := hex
    refine ⟨i, hi, ?_⟩
    by_cases hf : i.format = .bare
    · rw [encode_bare hi hf] at h
      cases h
      exact .inl ⟨hf, rfl⟩
    · cases ho : o.operand with
      | none =>
        rw [encode_missing hi hf ho] at h
        cases h
      | some t =>
        cases hv : i.operandValue symbols t.text with
        | error f =>
          rw [encode_operand_error hi hf ho hv] at h
          cases h
        | ok value =>
          rw [encode_operand_ok hi hf ho hv] at h
          cases h
          exact .inr ⟨t, value, hf, rfl, hv, rfl⟩
  · rw [encode_unknown fun i hi => hex ⟨i, hi⟩] at h
    cases h

end Operation

theorem Operation.line_of_encode {symbols : SymbolTable} {o : Operation} {line : Nat} {e : Entry}
    (h : o.encode symbols line = .ok e) : e.line = line := by
  obtain ⟨i, -, ⟨-, rfl⟩ | ⟨t, value, -, -, -, rfl⟩⟩ := Operation.encode_ok h
  · rfl
  · exact Entry.withOperand_line ..

/-- The word of an address instruction holds the address that its operand names. -/
theorem Operation.address_of_encode {symbols : SymbolTable} {o : Operation} {line : Nat} {e : Entry}
    (h : o.encode symbols line = .ok e) (hf : e.instruction.format = .address) :
    ∃ t a, o.operand = some t ∧ e.operand = some t.text ∧ symbols.address? t.text = some a ∧
      0 ≤ a ∧ ((e.word &&& e.instruction.format.operandMask).toNat : Int) = a := by
  obtain ⟨i, -, ⟨hb, rfl⟩ | ⟨t, value, hb, ho, hv, rfl⟩⟩ := Operation.encode_ok h
  · rw [show (Entry.bare i line).instruction = i from rfl, hb] at hf
    cases hf
  · rw [Entry.withOperand_instruction] at hf
    obtain ⟨ha, h₀, h₁⟩ := (Instruction.operandValue_address_eq_ok_iff hf).1 hv
    refine ⟨t, value, ho, by simp [Entry.withOperand, hf], ha, h₀, ?_⟩
    rw [Entry.withOperand_word hb, Entry.withOperand_instruction,
      Instruction.word_and_operandMask]
    apply Format.toNat_operandBits _ h₀
    rw [hf]
    exact Int.le_trans h₁ (by decide)

/-- The operations of the lines, each with the index of its line. -/
def operations (lines : List Line) : List (Nat × Operation) :=
  lines.filterMap fun l => l.operation?.map (l.index, ·)

@[simp] theorem operations_append (xs ys : List Line) :
    operations (xs ++ ys) = operations xs ++ operations ys :=
  List.filterMap_append

theorem operations_cons_none {l : Line} (h : l.operation? = none) (ls : List Line) :
    operations (l :: ls) = operations ls := by
  simp [operations, h]

theorem operations_cons_some {l : Line} {o : Operation} (h : l.operation? = some o)
    (ls : List Line) : operations (l :: ls) = (l.index, o) :: operations ls := by
  simp [operations, h]

theorem length_operations (lines : List Line) :
    (operations lines).length = instructionCount lines := by
  induction lines with
  | nil => rfl
  | cons l rest ih =>
    rw [instructionCount_cons]
    cases h : l.operation? with
    | none => simp [operations_cons_none h, ih, Line.isInstruction, h]
    | some o => simp [operations_cons_some h, ih, Line.isInstruction, h]

/-- Variables are passed over. -/
theorem encodeLines_append_of_none (symbols : SymbolTable) {lines : List Line}
    (h : ∀ l ∈ lines, l.operation? = none) (rest : List Line) :
    encodeLines symbols (lines ++ rest) = encodeLines symbols rest := by
  induction lines with
  | nil => rfl
  | cons l lines ih =>
    obtain ⟨hl, hlines⟩ := List.forall_mem_cons.1 h
    rw [List.cons_append, encodeLines_cons_none hl, ih hlines]

/-- The entries are the encoded operations, one for one. -/
theorem encodeLines_ok {symbols : SymbolTable} {lines : List Line} {entries : List Entry}
    (h : encodeLines symbols lines = .ok entries) :
    (operations lines).map (fun x => x.2.encode symbols x.1) = entries.map .ok := by
  induction lines generalizing entries with
  | nil =>
    cases h
    rfl
  | cons l rest ih =>
    cases ho : l.operation? with
    | none =>
      rw [encodeLines_cons_none ho] at h
      rw [operations_cons_none ho]
      exact ih h
    | some o =>
      cases he : o.encode symbols l.index with
      | error d =>
        rw [encodeLines_cons_error ho he] at h
        cases h
      | ok e =>
        rw [encodeLines_cons_ok ho he] at h
        cases hes : encodeLines symbols rest with
        | error d =>
          rw [hes] at h
          cases h
        | ok es =>
          rw [hes] at h
          cases h
          rw [operations_cons_some ho, List.map_cons, List.map_cons, ih hes, he]

theorem length_of_encodeLines {symbols : SymbolTable} {lines : List Line} {entries : List Entry}
    (h : encodeLines symbols lines = .ok entries) : entries.length = instructionCount lines := by
  have hlen := congrArg List.length (encodeLines_ok h)
  simpa [length_operations] using hlen.symm

theorem map_line_of_map_encode {symbols : SymbolTable} {ops : List (Nat × Operation)}
    {entries : List Entry} (h : ops.map (fun x => x.2.encode symbols x.1) = entries.map .ok) :
    entries.map (·.line) = ops.map (·.1) := by
  induction ops generalizing entries with
  | nil =>
    have he : entries = [] := by simpa using h.symm
    rw [he]
    rfl
  | cons x ops ih =>
    cases entries with
    | nil => simp at h
    | cons e entries =>
      simp only [List.map_cons, List.cons.injEq] at h
      rw [List.map_cons, List.map_cons, ih h.2, Operation.line_of_encode h.1]

/-- The entries come in the order of their lines. -/
theorem pairwise_line_of_encodeLines {symbols : SymbolTable} {lines : List Line}
    {entries : List Entry} (h : encodeLines symbols lines = .ok entries)
    (hl : lines.Pairwise (·.index < ·.index)) : entries.Pairwise (·.line < ·.line) := by
  have hops : (operations lines).Pairwise (·.1 < ·.1) := by
    refine List.pairwise_filterMap.2 (hl.imp ?_)
    intro l m hlm x hx y hy
    obtain ⟨o, -, rfl⟩ := Option.map_eq_some_iff.1 hx
    obtain ⟨o', -, rfl⟩ := Option.map_eq_some_iff.1 hy
    exact hlm
  have hmap : (entries.map (·.line)).Pairwise (· < ·) := by
    rw [map_line_of_map_encode (encodeLines_ok h)]
    exact List.pairwise_map.2 hops
  exact List.pairwise_map.1 hmap

/-- The entry of a line stands after the entries of the lines before it. -/
theorem entry_of_encodeLines {symbols : SymbolTable} {before after : List Line} {l : Line}
    {o : Operation} {entries : List Entry}
    (h : encodeLines symbols (before ++ l :: after) = .ok entries) (ho : l.operation? = some o) :
    ∃ e, entries[instructionCount before]? = some e ∧ o.encode symbols l.index = .ok e := by
  have hget := congrArg (·[instructionCount before]?) (encodeLines_ok h)
  have hop : (operations (before ++ l :: after))[instructionCount before]? =
      some (l.index, o) := by
    rw [operations_append, operations_cons_some ho, ← length_operations]
    simp
  simp only [List.getElem?_map, hop, Option.map_some] at hget
  obtain ⟨e, he, heq⟩ := Option.map_eq_some_iff.1 hget.symm
  exact ⟨e, he, heq.symm⟩

/-- Every entry is the encoded operation of a line. -/
theorem line_of_mem_entries {symbols : SymbolTable} {lines : List Line} {entries : List Entry}
    (h : encodeLines symbols lines = .ok entries) {e : Entry} (he : e ∈ entries) :
    ∃ l ∈ lines, ∃ o, l.operation? = some o ∧ o.encode symbols l.index = .ok e := by
  have hmem := List.mem_map_of_mem (f := Except.ok (ε := Diagnostic)) he
  rw [← encodeLines_ok h] at hmem
  obtain ⟨x, hx, henc⟩ := List.mem_map.1 hmem
  obtain ⟨l, hl, hlx⟩ := List.mem_filterMap.1 hx
  obtain ⟨o, ho, rfl⟩ := Option.map_eq_some_iff.1 hlx
  exact ⟨l, hl, o, ho, henc⟩

/-- The pass stops at the first line whose operation is refused. -/
theorem encodeLines_error {symbols : SymbolTable} {lines : List Line} {d : Diagnostic}
    (h : encodeLines symbols lines = .error d) :
    ∃ before l after o, lines = before ++ l :: after ∧
      (∀ x ∈ operations before, ∃ e, x.2.encode symbols x.1 = .ok e) ∧
      l.operation? = some o ∧ o.encode symbols l.index = .error d := by
  induction lines with
  | nil => cases h
  | cons l rest ih =>
    cases ho : l.operation? with
    | none =>
      rw [encodeLines_cons_none ho] at h
      obtain ⟨before, m, after, o, rfl, hok, hm⟩ := ih h
      exact ⟨l :: before, m, after, o, rfl, by rwa [operations_cons_none ho], hm⟩
    | some o =>
      cases he : o.encode symbols l.index with
      | error d' =>
        rw [encodeLines_cons_error ho he] at h
        cases h
        exact ⟨[], l, rest, o, rfl, by simp [operations], ho, he⟩
      | ok e =>
        rw [encodeLines_cons_ok ho he] at h
        cases hes : encodeLines symbols rest with
        | ok es =>
          rw [hes] at h
          cases h
        | error d' =>
          rw [hes] at h
          cases h
          obtain ⟨before, m, after, o', rfl, hok, hm⟩ := ih hes
          refine ⟨l :: before, m, after, o', rfl, ?_, hm⟩
          rw [operations_cons_some ho]
          intro x hx
          rcases List.mem_cons.1 hx with rfl | hx
          · exact ⟨e, he⟩
          · exact hok x hx

end Mac1
