import Mac1.Proofs.Word

/-!
Words on the command line. A word is written in binary or hexadecimal digits behind a mark, or as a
decimal integer; every text that is written so is read as its number modulo 65536, and no other text
is read at all.
-/
namespace Mac1

namespace Word

/-- The texts that stand for a word, and the integers that they spell. -/
inductive Spelled : Text → Int → Prop where
  | binary {sign digits : Text} {n : Nat} (hs : Numeral.IsPlus sign)
      (hd : Numeral.Spells 2 digits n) (hn : n ≤ 65535) :
      Spelled ("0b".toList ++ (sign ++ digits)) n
  | hexadecimal {sign digits : Text} {n : Nat} (hs : Numeral.IsPlus sign)
      (hd : Numeral.Spells 16 digits n) (hn : n ≤ 65535) :
      Spelled ("0x".toList ++ (sign ++ digits)) n
  | decimal {t : Text} {n : Int} (hb : ¬"0b".toList <+: t) (hx : ¬"0x".toList <+: t)
      (ht : Numeral.IsInteger t n) (hlow : -32768 ≤ n) (hhigh : n ≤ 65535) : Spelled t n

theorem unsigned_eq_some_iff {base : Nat} (hb₀ : 0 < base) (hb : base ≤ 16) {t : Text} {w : Word} :
    ofNumeral?.unsigned base t = some w ↔ ∃ n : Nat, BitVec.ofInt 16 n = w ∧
      ∃ sign digits, t = sign ++ digits ∧ Numeral.IsPlus sign ∧ Numeral.Spells base digits n ∧
        n ≤ 65535 := by
  rw [ofNumeral?.unsigned, Option.map_eq_some_iff]
  simp only [Numeral.unsigned?_eq_some_iff hb₀ hb, BitVec.ofInt_natCast, and_comm]

theorem ofNumeral?_plain {t : Text} (hb : ¬"0b".toList <+: t) (hx : ¬"0x".toList <+: t) :
    ofNumeral? t = (Numeral.integer? 0x8000 0xffff t).map (BitVec.ofInt 16) := by
  unfold ofNumeral?
  split
  · exact absurd (List.prefix_append ..) hb
  · exact absurd (List.prefix_append ..) hx
  · have hcast : ofNumeral?.unsigned 10 t =
        ((Numeral.unsigned? 10 0xffff t).map fun n : Nat => (n : Int)).map (BitVec.ofInt 16) := by
      simp [ofNumeral?.unsigned, Function.comp_def]
    rw [hcast, ← Option.map_or, Numeral.integer?_or_unsigned? (by decide)]

theorem ofNumeral?_of_spelled {t : Text} {n : Int} (h : Spelled t n) :
    ofNumeral? t = some (BitVec.ofInt 16 n) := by
  cases h with
  | @binary sign digits n hs hd hn =>
    exact (unsigned_eq_some_iff (by decide) (by decide)).2 ⟨n, rfl, sign, digits, rfl, hs, hd, hn⟩
  | @hexadecimal sign digits n hs hd hn =>
    exact (unsigned_eq_some_iff (by decide) (by decide)).2 ⟨n, rfl, sign, digits, rfl, hs, hd, hn⟩
  | decimal hb hx ht hlow hhigh =>
    rw [ofNumeral?_plain hb hx, Numeral.integer?_eq_some_iff.2 ⟨ht, hlow, hhigh⟩]
    rfl

theorem spelled_of_ofNumeral? {t : Text} {w : Word} (h : ofNumeral? t = some w) :
    ∃ n, Spelled t n ∧ BitVec.ofInt 16 n = w := by
  by_cases hb : "0b".toList <+: t
  · obtain ⟨rest, rfl⟩ := hb
    obtain ⟨n, hw, sign, digits, rfl, hs, hd, hn⟩ :=
      (unsigned_eq_some_iff (by decide) (by decide)).1 h
    exact ⟨n, .binary hs hd hn, hw⟩
  by_cases hx : "0x".toList <+: t
  · obtain ⟨rest, rfl⟩ := hx
    obtain ⟨n, hw, sign, digits, rfl, hs, hd, hn⟩ :=
      (unsigned_eq_some_iff (by decide) (by decide)).1 h
    exact ⟨n, .hexadecimal hs hd hn, hw⟩
  rw [ofNumeral?_plain hb hx] at h
  obtain ⟨n, hn, hw⟩ := Option.map_eq_some_iff.1 h
  obtain ⟨ht, hlow, hhigh⟩ := Numeral.integer?_eq_some_iff.1 hn
  exact ⟨n, .decimal hb hx ht hlow hhigh, hw⟩

/-- The word of an integer is the one that is congruent to it. -/
theorem ofInt_eq_iff {n : Int} {w : Word} :
    BitVec.ofInt 16 n = w ↔ w.toInt % 65536 = n % 65536 := by
  constructor
  · rintro rfl
    rw [BitVec.toInt_ofInt]
    exact Int.bmod_emod
  · intro h
    rw [← BitVec.ofInt_toInt (x := w)]
    apply BitVec.eq_of_toNat_eq
    rw [BitVec.toNat_ofInt, BitVec.toNat_ofInt]
    exact congrArg Int.toNat h.symm

section Spellings

variable (w : Word)

theorem not_mark_of_isInteger {t : Text} {n : Int} (h : Numeral.IsInteger t n) :
    ¬"0b".toList <+: t ∧ ¬"0x".toList <+: t := by
  have hmark : ∀ c : Char, c.isDigit = false → ¬['0', c] <+: t := by
    rintro c hc ⟨rest, rfl⟩
    cases h with
    | plain h =>
      have hd := h.2 c (by simp)
      rw [hc] at hd
      cases hd
  exact ⟨hmark 'b' rfl, hmark 'x' rfl⟩

theorem spelled_decimal {n : Int} (hlow : -32768 ≤ n) (hhigh : n ≤ 65535) :
    Spelled (Numeral.decimal n) n := by
  have h := Numeral.isInteger_decimal n
  obtain ⟨hb, hx⟩ := not_mark_of_isInteger h
  exact .decimal hb hx h hlow hhigh

theorem spelled_binary : Spelled ("0b".toList ++ w.binary) w.toNat := by
  obtain ⟨hd, hn⟩ := (Numeral.natural?_eq_some_iff (by decide) (by decide)).1 w.natural?_binary
  exact .binary (.inl rfl) hd hn

theorem spelled_hexadecimal {digits : Text} (hd : Numeral.Spells 16 digits w.toNat) :
    Spelled ("0x".toList ++ digits) w.toNat :=
  .hexadecimal (.inl rfl) hd (Nat.le_of_lt_succ w.isLt)

theorem ofNumeral?_of_toNat {t : Text} (h : Spelled t w.toNat) : ofNumeral? t = some w := by
  rw [ofNumeral?_of_spelled h, BitVec.ofInt_natCast, BitVec.ofNat_toNat, BitVec.setWidth_eq]

theorem ofNumeral?_signed : ofNumeral? (Numeral.decimal w.toInt) = some w := by
  have hlow : -32768 ≤ w.toInt := BitVec.le_toInt w
  have hhigh : w.toInt < 32768 := BitVec.toInt_lt
  rw [ofNumeral?_of_spelled (spelled_decimal hlow (by omega)), BitVec.ofInt_toInt]

end Spellings

/-- Words are read exactly as they are spelled. A text is read as a word if and only if it spells an
integer that the word, as a signed number, is congruent to modulo 65536; every other text is
refused, whatever characters it has. So each word is read back from its signed and from its unsigned
decimal digits, from its sixteen binary digits and from its hexadecimal digits, of either case and
with any zeros in front. -/
theorem numeral_read_exactly :
    (∀ (raw : Text) (w : Word), ofNumeral? raw = some w ↔
      ∃ n, Spelled raw n ∧ w.toInt % 65536 = n % 65536) ∧
    (∀ raw : Text, ofNumeral? raw = none ↔ ∀ n, ¬Spelled raw n) ∧
    (∀ w : Word,
      ofNumeral? (Numeral.decimal w.toInt) = some w ∧
      ofNumeral? (Numeral.decimal w.toNat) = some w ∧
      ofNumeral? ("0b".toList ++ w.binary) = some w ∧
      ∀ width,
        ofNumeral? ("0x".toList ++ Text.padLeft '0' width (Nat.toDigits 16 w.toNat)) = some w ∧
        ofNumeral? ("0x".toList ++ Text.padLeft '0' width (Numeral.hex w.toNat)) = some w) := by
  refine ⟨fun raw w => ⟨fun h => ?_, ?_⟩, fun raw => ⟨fun h n hn => ?_, fun h => ?_⟩,
    fun w => ?_⟩
  · obtain ⟨n, hn, hw⟩ := spelled_of_ofNumeral? h
    exact ⟨n, hn, ofInt_eq_iff.1 hw⟩
  · rintro ⟨n, hn, hw⟩
    rw [ofNumeral?_of_spelled hn, ofInt_eq_iff.2 hw]
  · rw [ofNumeral?_of_spelled hn] at h
    cases h
  · cases hread : ofNumeral? raw with
    | none => rfl
    | some w =>
      obtain ⟨n, hn, -⟩ := spelled_of_ofNumeral? hread
      exact absurd hn (h n)
  · have hdigits := Numeral.spells_toDigits (show 1 < 16 by decide) w.toNat
    have hupper := hdigits.upper (by decide)
    refine ⟨w.ofNumeral?_signed, w.ofNumeral?_of_toNat ?_, w.ofNumeral?_of_toNat w.spelled_binary,
      fun width => ⟨w.ofNumeral?_of_toNat ?_, w.ofNumeral?_of_toNat ?_⟩⟩
    · have hlt := w.isLt
      exact spelled_decimal (by omega) (by omega)
    · exact w.spelled_hexadecimal (hdigits.padLeft (by decide) width)
    · exact w.spelled_hexadecimal (hupper.padLeft (by decide) width)

end Word

end Mac1
