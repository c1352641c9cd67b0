import Mac1.Instruction
import Mac1.Proofs.Numeral

/-!
Words as digits and as instructions. The sixteen digits of a word read back as that word, and no
other text does, for digits of one length that spell one number are the same digits. The operand
that is read from the leading bits alone is the one that the instruction of the word leaves room
for.
-/
namespace Mac1

namespace Word

@[simp] theorem digitValue_bit (b : Bool) : Numeral.digitValue (bit b) = some b.toNat := by
  cases b <;> rfl

@[simp] theorem digit?_bit (b : Bool) : Numeral.digit? 2 (bit b) = some b.toNat := by
  cases b <;> rfl

theorem exists_bit {c : Char} (h : isBinaryDigit c = true) : ∃ b, c = bit b := by
  have hc : c = '0' ∨ c = '1' := by simpa [isBinaryDigit] using h
  rcases hc with rfl | rfl
  · exact ⟨false, rfl⟩
  · exact ⟨true, rfl⟩

section Digits

variable {t t' : Text} (h : ∀ c ∈ t, isBinaryDigit c = true)
  (h' : ∀ c ∈ t', isBinaryDigit c = true)

include h

/-- A binary digit is one byte. -/
theorem byteLength_of_digits : t.byteLength = t.length := by
  induction t with
  | nil => rfl
  | cons c t ih =>
    obtain ⟨hc, ht⟩ := List.forall_mem_cons.1 h
    obtain ⟨b, rfl⟩ := exists_bit hc
    rw [Text.byteLength_cons, utf8Size_bit, ih ht, List.length_cons, Nat.add_comm]

/-- Each digit doubles the bound. -/
theorem value_lt (acc : Nat) : Numeral.value 2 acc t < (acc + 1) <<< t.length := by
  induction t generalizing acc with
  | nil => exact Nat.lt_succ_self acc
  | cons c t ih =>
    obtain ⟨hc, ht⟩ := List.forall_mem_cons.1 h
    obtain ⟨b, rfl⟩ := exists_bit hc
    have hbound : acc * 2 + b.toNat + 1 ≤ (acc + 1) * 2 := by
      have hb := b.toNat_le
      omega
    rw [Numeral.value_cons, digitValue_bit, Option.getD_some]
    calc Numeral.value 2 (acc * 2 + b.toNat) t
      _ < (acc * 2 + b.toNat + 1) <<< t.length := ih ht _
      _ ≤ ((acc + 1) * 2) <<< t.length := by
        rw [Nat.shiftLeft_eq, Nat.shiftLeft_eq]
        exact Nat.mul_le_mul_right _ hbound
      _ = (acc + 1) <<< (bit b :: t).length := by
        rw [List.length_cons, Nat.shiftLeft_succ_inside, Nat.mul_comm]

include h' in
/-- Digits of one length are found from their number, whose parity is the last digit. -/
theorem value_injective (hlength : t.length = t'.length) {acc acc' : Nat}
    (hvalue : Numeral.value 2 acc t = Numeral.value 2 acc' t') : acc = acc' ∧ t = t' := by
  induction t generalizing t' acc acc' with
  | nil =>
    cases t' with
    | nil => exact ⟨hvalue, rfl⟩
    | cons c' t' => cases hlength
  | cons c t ih =>
    cases t' with
    | nil => cases hlength
    | cons c' t' =>
      obtain ⟨hc, ht⟩ := List.forall_mem_cons.1 h
      obtain ⟨hc', ht'⟩ := List.forall_mem_cons.1 h'
      obtain ⟨b, rfl⟩ := exists_bit hc
      obtain ⟨b', rfl⟩ := exists_bit hc'
      rw [Numeral.value_cons, Numeral.value_cons, digitValue_bit, digitValue_bit] at hvalue
      obtain ⟨hacc, rfl⟩ := ih ht ht' (Nat.succ.inj hlength) hvalue
      have hbit : b = b' := by
        cases b <;> cases b' <;> simp at hacc ⊢ <;> omega
      subst hbit
      exact ⟨by omega, rfl⟩

theorem value_lt_of_length (hlength : t.length = 16) : Numeral.value 2 0 t < 0x10000 := by
  have hlt := value_lt h 0
  rwa [hlength] at hlt

theorem toNat_ofNat_value (hlength : t.length = 16) :
    (BitVec.ofNat 16 (Numeral.value 2 0 t)).toNat = Numeral.value 2 0 t := by
  rw [BitVec.toNat_ofNat]
  exact Nat.mod_eq_of_lt (value_lt_of_length h hlength)

/-- Sixteen binary digits spell a number that a word can hold. -/
theorem natural?_digits (hlength : t.length = 16) :
    Numeral.natural? 2 0xffff t = some (Numeral.value 2 0 t) := by
  have hne : t ≠ [] := by
    rintro rfl
    cases hlength
  rw [Numeral.natural?_of_ne_nil hne, Numeral.accumulate?_eq_some_iff (by decide) (Nat.zero_le _)]
  refine ⟨fun c hc => ?_, rfl, Nat.le_of_lt_succ (value_lt_of_length h hlength)⟩
  obtain ⟨b, rfl⟩ := exists_bit (h c hc)
  simp

/-- None of them is the plus that the reader would pass over. -/
theorem unsigned?_digits (hlength : t.length = 16) :
    Numeral.unsigned? 2 0xffff t = some (Numeral.value 2 0 t) := by
  have hplus : ∀ u, t ≠ '+' :: u := by
    rintro u rfl
    exact absurd (h '+' List.mem_cons_self) (by decide)
  rw [Numeral.unsigned?_of_ne_plus hplus, natural?_digits h hlength]

end Digits

/-- The digits of a vector of any width, read after a number `acc`. -/
theorem value_msb (n : Nat) (v : BitVec n) (acc : Nat) :
    Numeral.value 2 acc (List.ofFn fun i : Fin n => bit (v.getMsbD i)) =
      (acc <<< n) + v.toNat := by
  induction n generalizing acc with
  | zero => simp [BitVec.of_length_zero]
  | succ n ih =>
    have htail : ∀ i : Fin n, v.getMsbD i.succ = (v.setWidth n).getMsbD i := by
      intro i
      rw [BitVec.getMsbD_setWidth]
      have he : (i : Nat) + (n + 1) - n = i + 1 := by omega
      simp [he]
    have hv : v.toNat = v.msb.toNat <<< n + (v.setWidth n).toNat := by
      conv => lhs; rw [← BitVec.cons_msb_setWidth v]
      rw [BitVec.toNat_cons']
    rw [List.ofFn_succ, Numeral.value_cons]
    simp only [htail, ih]
    rw [hv, Fin.val_zero, ← BitVec.msb, digitValue_bit, Option.getD_some]
    simp only [Nat.shiftLeft_eq, Nat.pow_succ]
    grind

theorem isBinaryDigit_of_mem_binary {w : Word} {c : Char} (h : c ∈ w.binary) :
    isBinaryDigit c = true := by
  rw [binary, List.mem_ofFn] at h
  obtain ⟨i, rfl⟩ := h
  simp

theorem value_binary (w : Word) : Numeral.value 2 0 w.binary = w.toNat := by
  rw [binary, value_msb]
  simp

theorem natural?_binary (w : Word) : Numeral.natural? 2 0xffff w.binary = some w.toNat := by
  rw [natural?_digits (fun _ => isBinaryDigit_of_mem_binary) w.length_binary, value_binary]

/-- Sixteen bytes that are binary digits are read as the number that they spell. -/
theorem ofBinary?_digits {t : Text} (h : ∀ c ∈ t, isBinaryDigit c = true)
    (hlength : t.length = 16) :
    ofBinary? t = some (BitVec.ofNat 16 (Numeral.value 2 0 t)) := by
  have hbytes : t.byteLength = 16 := by rw [byteLength_of_digits h, hlength]
  rw [ofBinary?, if_pos ⟨hbytes, List.all_eq_true.2 h⟩, unsigned?_digits h hlength, Option.map_some]

theorem ofBinary?_binary (w : Word) : ofBinary? w.binary = some w := by
  rw [ofBinary?_digits (fun _ => isBinaryDigit_of_mem_binary) w.length_binary, value_binary]
  simp

/-- Sixteen digits with the number of a word are its digits. -/
theorem eq_binary_of_value {t : Text} {w : Word} (h : ∀ c ∈ t, isBinaryDigit c = true)
    (hlength : t.length = 16) (hvalue : Numeral.value 2 0 t = w.toNat) : t = w.binary := by
  have hbinary : ∀ c ∈ w.binary, isBinaryDigit c = true := fun _ => isBinaryDigit_of_mem_binary
  rw [← value_binary] at hvalue
  exact (value_injective h hbinary (by rw [hlength, length_binary]) hvalue).2

/-- Reading inverts writing: the digits of a word are read as that word, and no other text is. -/
theorem ofBinary?_eq_some_iff {t : Text} {w : Word} : ofBinary? t = some w ↔ t = w.binary := by
  constructor
  · intro h
    unfold ofBinary? at h
    split at h
    case isTrue hdigits =>
      obtain ⟨hbytes, hall⟩ := hdigits
      have hbinary := List.all_eq_true.1 hall
      have hlength : t.length = 16 := by rw [← byteLength_of_digits hbinary, hbytes]
      rw [unsigned?_digits hbinary hlength, Option.map_some, Option.some.injEq] at h
      apply eq_binary_of_value hbinary hlength
      rw [← h, toNat_ofNat_value hbinary hlength]
    case isFalse => cases h
  · rintro rfl
    exact ofBinary?_binary w

end Word

namespace Format

theorem getLsbD_operandMask (f : Format) {k : Nat} (hk : k < 16) :
    f.operandMask.getLsbD k = decide (k < f.operandWidth) := by
  simp [operandMask, BitVec.getLsbD_allOnes, hk]

/-- A number takes no bit but those of the operand. -/
theorem operandBits_and_operandMask (f : Format) (value : Int) :
    f.operandBits value &&& f.operandMask = f.operandBits value := by
  ext k hk
  simp only [operandBits, operandMask, BitVec.getElem_and, BitVec.getElem_setWidth,
    BitVec.getLsbD_allOnes, Bool.and_eq_left_iff_imp, decide_eq_true_eq]
  exact BitVec.lt_of_getLsbD

/-- A number that fits is kept. -/
theorem toNat_operandBits (f : Format) {value : Int} (h₀ : 0 ≤ value)
    (h₁ : value ≤ f.operandMask.toNat) : ((f.operandBits value).toNat : Int) = value := by
  have hw : f.operandWidth ≤ 16 := Nat.le_trans f.operandWidth_le (by decide)
  have hmask : f.operandMask.toNat = 2 ^ f.operandWidth - 1 := by
    rw [operandMask, BitVec.toNat_setWidth_of_le hw, BitVec.toNat_allOnes]
  have hpos : 0 < 2 ^ f.operandWidth := Nat.two_pow_pos _
  have hm : value % (2 ^ f.operandWidth : Nat) = value := Int.emod_eq_of_lt h₀ (by omega)
  rw [operandBits, BitVec.toNat_setWidth_of_le hw, BitVec.toNat_ofInt, hm, Int.toNat_of_nonneg h₀]

/-- The operand of a word of this format. -/
def operand (f : Format) (w : Word) : Operand :=
  let field := w.setWidth f.operandWidth
  ⟨if f = .constant then field.toInt else field.toNat, field.toNat⟩

theorem ofInt_operand_value (f : Format) (w : Word) :
    BitVec.ofInt f.operandWidth (f.operand w).value = w.setWidth f.operandWidth := by
  unfold operand
  split
  · exact BitVec.ofInt_toInt
  · rw [BitVec.ofInt_natCast, BitVec.ofNat_toNat, BitVec.setWidth_eq]

theorem operandBits_operand_value (f : Format) (w : Word) :
    f.operandBits (f.operand w).value = w &&& f.operandMask := by
  rw [operandBits, ofInt_operand_value]
  apply BitVec.eq_of_getLsbD_eq
  intro k hk
  rw [BitVec.getLsbD_and, getLsbD_operandMask f hk, BitVec.getLsbD_setWidth,
    BitVec.getLsbD_setWidth, decide_eq_true hk, Bool.true_and, Bool.and_comm]

end Format

namespace Instruction

theorem word_and_operandMask (i : Instruction) (value : Int) :
    (i.opcode ||| i.format.operandBits value) &&& i.format.operandMask =
      i.format.operandBits value := by
  rw [BitVec.and_or_distrib_right, opcode_and_operandMask, Format.operandBits_and_operandMask]
  simp

/-- The bits above the operand are those of the opcode. -/
theorem ushiftRight_of_covers {i : Instruction} {w : Word} (h : i.covers w = true) {k : Nat}
    (hk : i.format.operandWidth ≤ k) : w >>> k = i.opcode >>> k := by
  rw [← covers_iff.1 h]
  apply BitVec.eq_of_getLsbD_eq
  intro j hj
  rw [BitVec.getLsbD_ushiftRight, BitVec.getLsbD_ushiftRight]
  by_cases hkj : k + j < 16
  · have hm : i.format.operandMask.getLsbD (k + j) = false := by
      rw [Format.getLsbD_operandMask _ hkj, decide_eq_false]
      omega
    rw [BitVec.getLsbD_and, BitVec.getLsbD_not, hm, decide_eq_true hkj]
    simp only [Bool.not_false, Bool.and_true]
  · rw [BitVec.getLsbD_of_ge w _ (by omega), BitVec.getLsbD_of_ge _ _ (by omega)]

theorem leadingHalfByte_of_covers {i : Instruction} {w : Word} (h : i.covers w = true) :
    w.leadingHalfByte = i.opcode.leadingHalfByte := by
  have hs := congrArg BitVec.toNat (ushiftRight_of_covers h i.format.operandWidth_le)
  simpa [Word.leadingHalfByte, Nat.shiftRight_eq_div_pow] using hs

theorem leadingByte_of_covers {i : Instruction} {w : Word} (h : i.covers w = true)
    (hi : i.format.operandWidth ≤ 8) : w.leadingByte = i.opcode.leadingByte := by
  have hs := congrArg BitVec.toNat (ushiftRight_of_covers h hi)
  simpa [Word.leadingByte, Nat.shiftRight_eq_div_pow] using hs

theorem leadingHalfByte_opcode_le_iff (i : Instruction) :
    i.opcode.leadingHalfByte ≤ 0xe ↔ i.format = .address ∨ i.format = .constant := by
  cases i <;> decide

theorem leadingHalfByte_opcode_eq_iff (i : Instruction) :
    i.opcode.leadingHalfByte = 0x7 ↔ i.format = .constant := by
  cases i <;> decide

theorem leadingByte_opcode_iff (i : Instruction) :
    i.opcode.leadingByte = 0xfc ∨ i.opcode.leadingByte = 0xfe ↔ i.format = .byte := by
  cases i <;> decide

/-- The leading bits tell the format, so the operand found from them is that of the format. -/
theorem operand_of_covers {i : Instruction} {w : Word} (h : i.covers w = true) :
    w.operand = i.format.operand w := by
  have hbyte := leadingByte_of_covers h
  unfold Word.operand
  simp only [leadingHalfByte_of_covers h, leadingHalfByte_opcode_le_iff,
    leadingHalfByte_opcode_eq_iff]
  cases hf : i.format with
  | bare =>
    have hb : ¬(w.leadingByte = 0xfc ∨ w.leadingByte = 0xfe) := by
      rw [hbyte (by simp [hf]), leadingByte_opcode_iff, hf]
      decide
    simp [hb, Format.operand, BitVec.of_length_zero]
  | byte =>
    have hb : w.leadingByte = 0xfc ∨ w.leadingByte = 0xfe := by
      rw [hbyte (by simp [hf]), leadingByte_opcode_iff, hf]
    simp [hb, Format.operand]
  | address => simp [Format.operand]
  | constant => simp [Format.operand]

/-- A word is its opcode and the operand that is read from it. -/
theorem word_of_covers {i : Instruction} {w : Word} (h : i.covers w = true) :
    i.opcode ||| i.format.operandBits w.operand.value = w := by
  rw [operand_of_covers h, Format.operandBits_operand_value, ← covers_iff.1 h,
    ← BitVec.and_or_distrib_left, BitVec.or_comm, BitVec.or_not_self, BitVec.and_allOnes]

end Instruction

end Mac1
