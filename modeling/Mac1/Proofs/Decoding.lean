import Mac1.Proofs.Disassembly

/-!
Reading assembled words back. The encoder goes by the format of an instruction and the decoder by
the leading bits of a word; on every word of a program they agree about the instruction and about
the number that its operand stands for.
-/
namespace Mac1

namespace Instruction

theorem covers_opcode (i : Instruction) : i.covers i.opcode = true := by cases i <;> rfl

/-- Outside of both operand fields the opcodes of two instructions differ. -/
theorem eq_of_opcode_agree : ∀ i ∈ all, ∀ j ∈ all,
    i.opcode &&& ~~~j.format.operandMask = j.opcode &&& ~~~i.format.operandMask → i = j := by
  decide +kernel

/-- No two instructions share a word: without either operand field it would be the opcode of
both. -/
theorem covers_unique {i j : Instruction} {w : Word} (hi : i.covers w = true)
    (hj : j.covers w = true) : i = j := by
  apply eq_of_opcode_agree i (mem_all i) j (mem_all j)
  rw [← covers_iff.1 hi, ← covers_iff.1 hj, BitVec.and_assoc, BitVec.and_assoc,
    BitVec.and_comm (~~~i.format.operandMask)]

theorem ofWord?_eq_some_iff {w : Word} {i : Instruction} :
    ofWord? w = some i ↔ i.covers w = true := by
  refine ⟨covers_of_ofWord?, fun hi => ?_⟩
  cases h : ofWord? w with
  | none => exact absurd hi (List.find?_eq_none.1 h i (mem_all i))
  | some j => rw [covers_unique (covers_of_ofWord? h) hi]

/-- Operand bits never reach into the opcode. -/
theorem covers_word (i : Instruction) (value : Int) :
    i.covers (i.opcode ||| i.format.operandBits value) = true := by
  have hopcode := covers_iff.1 i.covers_opcode
  have hbits : i.format.operandBits value &&& ~~~i.format.operandMask = 0#16 := by
    rw [← Format.operandBits_and_operandMask, BitVec.and_assoc, BitVec.and_not_self]
    exact BitVec.and_zero
  rw [covers_iff, BitVec.and_or_distrib_right, hopcode, hbits, BitVec.or_zero]

/-- The operand field of a word holds the low bits of the number. -/
theorem setWidth_word (i : Instruction) (value : Int) :
    (i.opcode ||| i.format.operandBits value).setWidth i.format.operandWidth =
      BitVec.ofInt i.format.operandWidth value := by
  apply BitVec.eq_of_getLsbD_eq
  intro k hk
  have hwidth := i.format.operandWidth_le
  have hclear : i.opcode.getLsbD k = false := by
    have h : (i.opcode &&& i.format.operandMask).getLsbD k = false := by simp
    rw [BitVec.getLsbD_and, Format.getLsbD_operandMask i.format (by omega)] at h
    simpa [hk] using h
  rw [BitVec.getLsbD_setWidth, BitVec.getLsbD_or, hclear, Format.operandBits,
    BitVec.getLsbD_setWidth, decide_eq_true hk, decide_eq_true (show k < 16 by omega)]
  simp only [Bool.true_and, Bool.false_or]

theorem operand_word (i : Instruction) (value : Int) :
    (i.opcode ||| i.format.operandBits value).operand =
      let field := BitVec.ofInt i.format.operandWidth value
      ⟨if i.format = .constant then field.toInt else field.toNat, field.toNat⟩ := by
  rw [operand_of_covers (i.covers_word value), Format.operand, setWidth_word]

theorem operand_opcode (i : Instruction) : i.opcode.operand = ⟨0, 0⟩ := by cases i <;> rfl

/-- A number that fits into the operand field is read back as it is. -/
theorem operand_word_of_fits {i : Instruction} (hf : i.format ≠ .constant) {value : Int}
    (h₀ : 0 ≤ value) (h₁ : value ≤ i.format.operandMask.toNat) :
    (i.opcode ||| i.format.operandBits value).operand.value = value ∧
      ((i.opcode ||| i.format.operandBits value).operand.bits : Int) = value := by
  have hfield : ((BitVec.ofInt i.format.operandWidth value).toNat : Int) = value := by
    have h := i.format.toNat_operandBits h₀ h₁
    have hw : i.format.operandWidth ≤ 16 := Nat.le_trans i.format.operandWidth_le (by decide)
    rwa [Format.operandBits, BitVec.toNat_setWidth_of_le hw] at h
  rw [operand_word]
  dsimp only
  rw [if_neg hf]
  exact ⟨hfield, hfield⟩

end Instruction

/-- Twelve bits read as a signed number: the one number of the range that leaves the same
remainder. -/
theorem eq_toInt_ofInt_iff (n k : Int) :
    -2048 ≤ k ∧ k ≤ 2047 ∧ k % 4096 = n % 4096 ↔ k = (BitVec.ofInt 12 n).toInt := by
  rw [BitVec.toInt_ofInt, Int.bmod_def]
  split <;> omega

theorem toNat_ofInt_twelve (n : Int) : ((BitVec.ofInt 12 n).toNat : Int) = n % 4096 := by
  rw [BitVec.toNat_ofInt]
  omega

namespace Entry

variable {i : Instruction} (text : Text) (value : Int) (line : Nat)

theorem withOperand_written (hf : i.format = .address ∨ i.format = .constant) :
    withOperand i text value line =
      ⟨i, i.opcode ||| i.format.operandBits value, some text, some value, line⟩ := by
  unfold withOperand
  rcases hf with hf | hf <;> rw [hf]

theorem withOperand_byte (hf : i.format = .byte) :
    withOperand i text value line =
      ⟨i, i.opcode ||| i.format.operandBits value, some (Numeral.decimal value), none, line⟩ := by
  unfold withOperand
  rw [hf]

end Entry

namespace Operation

variable {symbols : SymbolTable} {o : Operation} {line : Nat} {e : Entry}

theorem mnemonic_of_encode (h : o.encode symbols line = .ok e) :
    e.instruction.mnemonic = Text.upper o.mnemonic.text := by
  obtain ⟨i, hi, ⟨-, rfl⟩ | ⟨t, value, -, -, -, rfl⟩⟩ := encode_ok h
  · exact hi
  · rw [Entry.withOperand_instruction, hi]

/-- The word of an entry belongs to its instruction. -/
theorem ofWord?_of_encode (h : o.encode symbols line = .ok e) :
    Instruction.ofWord? e.word = some e.instruction := by
  rw [Instruction.ofWord?_eq_some_iff]
  obtain ⟨i, -, ⟨-, rfl⟩ | ⟨t, value, hf, -, -, rfl⟩⟩ := encode_ok h
  · exact i.covers_opcode
  · rw [Entry.withOperand_word hf, Entry.withOperand_instruction]
    exact i.covers_word value

theorem bare_of_encode (h : o.encode symbols line = .ok e) (hf : e.instruction.format = .bare) :
    e.operand = none ∧ e.resolved = none ∧ e.word.operand = ⟨0, 0⟩ := by
  obtain ⟨i, -, ⟨-, rfl⟩ | ⟨t, value, hi, -, -, rfl⟩⟩ := encode_ok h
  · exact ⟨rfl, rfl, i.operand_opcode⟩
  · rw [Entry.withOperand_instruction] at hf
    exact absurd hf hi

theorem operand_of_encode (h : o.encode symbols line = .ok e) (hf : e.instruction.format ≠ .bare) :
    ∃ t value, o.operand = some t ∧ e.instruction.operandValue symbols t.text = .ok value ∧
      e = Entry.withOperand e.instruction t.text value line := by
  obtain ⟨i, -, ⟨hi, rfl⟩ | ⟨t, value, -, ht, hv, rfl⟩⟩ := encode_ok h
  · exact absurd hi hf
  · refine ⟨t, value, ht, ?_, ?_⟩
    · rwa [Entry.withOperand_instruction]
    · rw [Entry.withOperand_instruction]

/-- An address is shown as the name that stands for it, and is read back from the word. -/
theorem address_reads_back (h : o.encode symbols line = .ok e)
    (hf : e.instruction.format = .address) :
    ∃ t a, o.operand = some t ∧ e.operand = some t.text ∧ e.resolved = some a ∧
      symbols.address? t.text = some a ∧ 0 ≤ a ∧ a ≤ lastAddress ∧
      e.word.operand.value = a ∧ (e.word.operand.bits : Int) = a := by
  obtain ⟨t, a, ht, hv, he⟩ := operand_of_encode h (by simp [hf])
  rw [Entry.withOperand_written _ _ _ (.inl hf)] at he
  obtain ⟨ha, h₀, h₁⟩ := (Instruction.operandValue_address_eq_ok_iff hf).1 hv
  have hmask : a ≤ e.instruction.format.operandMask.toNat := by
    rw [hf]
    exact Int.le_trans h₁ (by decide)
  have hword : e.word = e.instruction.opcode ||| e.instruction.format.operandBits a :=
    congrArg Entry.word he
  refine ⟨t, a, ht, congrArg Entry.operand he, congrArg Entry.resolved he, ha, h₀, h₁, ?_⟩
  rw [hword]
  exact Instruction.operand_word_of_fits (by simp [hf]) h₀ hmask

/-- A byte is shown as the number that is read back from the word. -/
theorem byte_reads_back (h : o.encode symbols line = .ok e) (hf : e.instruction.format = .byte) :
    ∃ t, o.operand = some t ∧ Numeral.IsLiteral t.text e.word.operand.value ∧
      e.resolved = none ∧ 0 ≤ e.word.operand.value ∧ e.word.operand.value ≤ 255 ∧
      e.word.operand.value = e.word.operand.bits ∧
      e.operand = some (Numeral.decimal e.word.operand.value) := by
  obtain ⟨t, n, ht, hv, he⟩ := operand_of_encode h (by simp [hf])
  rw [Entry.withOperand_byte _ _ _ hf] at he
  obtain ⟨hn, h₀, h₁⟩ := (Instruction.operandValue_byte_eq_ok_iff hf).1 hv
  have hmask : n ≤ e.instruction.format.operandMask.toNat := by
    rw [hf]
    exact Int.le_trans h₁ (by decide)
  have hword : e.word = e.instruction.opcode ||| e.instruction.format.operandBits n :=
    congrArg Entry.word he
  obtain ⟨hvalue, hbits⟩ := Instruction.operand_word_of_fits (by simp [hf]) h₀ hmask
  rw [← hword] at hvalue hbits
  rw [hvalue, hbits]
  exact ⟨t, ht, hn, congrArg Entry.resolved he, h₀, h₁, rfl, congrArg Entry.operand he⟩

/-- A constant is shown as it is written. The word keeps its last twelve bits, which are read back
with a sign. -/
theorem constant_reads_back (h : o.encode symbols line = .ok e)
    (hf : e.instruction.format = .constant) :
    ∃ t n, o.operand = some t ∧ e.operand = some t.text ∧ e.resolved = some n ∧
      Numeral.IsLiteral t.text n ∧ (e.word.operand.bits : Int) = n % 4096 ∧
      ∀ k : Int, -2048 ≤ k ∧ k ≤ 2047 ∧ k % 4096 = n % 4096 ↔ k = e.word.operand.value := by
  obtain ⟨t, n, ht, hv, he⟩ := operand_of_encode h (by simp [hf])
  rw [Entry.withOperand_written _ _ _ (.inr hf)] at he
  rw [Instruction.operandValue_constant hf] at hv
  have hoperand : e.word.operand = ⟨(BitVec.ofInt 12 n).toInt, (BitVec.ofInt 12 n).toNat⟩ := by
    have hword := congrArg Entry.word he
    dsimp only at hword
    rw [hword, Instruction.operand_word, hf]
    rfl
  refine ⟨t, n, ht, congrArg Entry.operand he, congrArg Entry.resolved he,
    Instruction.literal_eq_ok_iff.1 hv, ?_, ?_⟩
  · rw [hoperand]
    exact toNat_ofInt_twelve n
  · rw [hoperand]
    exact eq_toInt_ofInt_iff n

end Operation

/-- Encoder and decoder agree on every word of every program. The word belongs to the instruction
that its line names. An address is read back as the address of the symbol that the operand names; a
constant as the number from -2048 to 2047 that leaves the same remainder modulo 4096; a byte as the
number that is shown for it; and an instruction without an operand reads as zero. The word
disassembles to its mnemonic, followed by that number if there is an operand. The address is that of
a 32-bit table in a source of fewer than 2³¹ bytes (`SymbolTable.fits_of_ofLines`). -/
theorem entry_reads_back {strict : Bool} {source : Text} {p : Program}
    (h : assemble strict source = .ok p) {e : Entry} (he : e ∈ p.entries) :
    let value := e.word.operand.value
    let bits : Int := e.word.operand.bits
    Instruction.ofWord? e.word = some e.instruction ∧
    ∃ l ∈ Line.readAll source, ∃ o, l.index = e.line ∧ l.operation? = some o ∧
      e.instruction.mnemonic = Text.upper o.mnemonic.text ∧
      (e.instruction.format = .address →
        ∃ t a, o.operand = some t ∧ e.operand = some t.text ∧ e.resolved = some a ∧
          p.symbols.address? t.text = some a ∧ 0 ≤ a ∧ a ≤ lastAddress ∧ value = a ∧ bits = a) ∧
      (e.instruction.format = .constant →
        ∃ t n, o.operand = some t ∧ e.operand = some t.text ∧ e.resolved = some n ∧
          Numeral.IsLiteral t.text n ∧ bits = n % 4096 ∧
          (∀ k : Int, -2048 ≤ k ∧ k ≤ 2047 ∧ k % 4096 = n % 4096 ↔ k = value) ∧
          (-2048 ≤ n → n ≤ 2047 → value = n)) ∧
      (e.instruction.format = .byte →
        ∃ t, o.operand = some t ∧ Numeral.IsLiteral t.text value ∧ e.resolved = none ∧
          0 ≤ value ∧ value ≤ 255 ∧ value = bits ∧ e.operand = some (Numeral.decimal value)) ∧
      (e.instruction.format = .bare →
        e.operand = none ∧ e.resolved = none ∧ value = 0 ∧ bits = 0) ∧
      (e.instruction.format = .bare → e.word.disassemble = e.instruction.mnemonic) ∧
      (e.instruction.format ≠ .bare →
        e.word.disassemble = e.instruction.mnemonic ++ ' ' :: Numeral.decimal value) := by
  intro value bits
  obtain ⟨l, hl, o, ho, henc⟩ := line_of_mem_entries (passes_of_assemble h).2 he
  have hword := Operation.ofWord?_of_encode henc
  refine ⟨hword, l, hl, o, (Operation.line_of_encode henc).symm, ho,
    Operation.mnemonic_of_encode henc, Operation.address_reads_back henc, ?_,
    Operation.byte_reads_back henc, ?_, Word.disassemble_bare hword,
    Word.disassemble_operand hword⟩
  · intro hf
    obtain ⟨t, n, ht, hshown, hresolved, hn, hbits, hvalue⟩ :=
      Operation.constant_reads_back henc hf
    refine ⟨t, n, ht, hshown, hresolved, hn, hbits, hvalue, fun hlow hhigh => ?_⟩
    exact ((hvalue n).1 ⟨hlow, hhigh, rfl⟩).symm
  · intro hf
    obtain ⟨hshown, hresolved, hoperand⟩ := Operation.bare_of_encode henc hf
    have hbits : bits = 0 := congrArg (fun x : Operand => (x.bits : Int)) hoperand
    exact ⟨hshown, hresolved, congrArg Operand.value hoperand, hbits⟩

/-- A constant of 63 bits and a sign, of which the last twelve bits are kept. -/
theorem entry_reads_back_loco :
    let source := "loco -9223372036854775807".toList
    ∃ p e, assemble false source = .ok p ∧ e ∈ p.entries ∧ e.instruction = .loco ∧
      e.word = 0x7001 ∧ Instruction.ofWord? e.word = some e.instruction ∧
      ∃ n, e.resolved = some n ∧ (e.word.operand.bits : Int) = n % 4096 ∧
        ∀ k : Int, -2048 ≤ k ∧ k ≤ 2047 ∧ k % 4096 = n % 4096 ↔ k = e.word.operand.value := by
  intro source
  have hentries : (assemble false source).toOption.map Program.entries =
      some [⟨.loco, 0x7001, some "-9223372036854775807".toList,
        some (-9223372036854775807), 0⟩] := by
    decide
  cases h : assemble false source with
  | error d =>
    rw [h] at hentries
    cases hentries
  | ok p =>
    rw [h] at hentries
    have he : _ ∈ p.entries := (Option.some.inj hentries).symm ▸ List.mem_singleton.2 rfl
    obtain ⟨hword, l, -, o, -, -, -, -, hconstant, -⟩ := entry_reads_back h he
    obtain ⟨t, n, -, -, hresolved, -, hbits, hvalue, -⟩ := hconstant rfl
    exact ⟨p, _, rfl, he, rfl, rfl, hword, n, hresolved, hbits, hvalue⟩

end Mac1
