import Mac1.Proofs.Listing
import Mac1.Proofs.Spelling

/-!
The word of a listing line. What stands before the first slash is read when, blanks aside, it is
sixteen binary digits. These are the digits of one word, so a line is read exactly when the digits
of a word stand on it, and no line holds two words.
-/
namespace Mac1

namespace Word

/-- The digits of base two are the binary digits. -/
theorem isBinaryDigit_of_isDigit {c : Char} {d : Nat} (h : Numeral.IsDigit 2 c d) :
    isBinaryDigit c = true := by
  have hall : ∀ d < 2, isBinaryDigit d.digitChar = true ∧
      isBinaryDigit d.digitChar.toUpper = true := by decide
  obtain ⟨hd, rfl | rfl⟩ := h
  · exact (hall d hd).1
  · exact (hall d hd).2

/-- The digits of a word are those of its number, with zeros in front up to sixteen. -/
theorem binary_eq_padLeft (w : Word) :
    w.binary = Text.padLeft '0' 16 (Nat.toDigits 2 w.toNat) := by
  have hspells := (Numeral.spells_toDigits (show 1 < 2 by decide) w.toNat).padLeft (by decide) 16
  obtain ⟨-, -, hvalue⟩ := (Numeral.spells_iff (by decide)).1 hspells
  have hlength : (Nat.toDigits 2 w.toNat).length ≤ 16 :=
    (Nat.length_toDigits_le_iff (by decide) (by decide)).2 w.isLt
  refine (eq_binary_of_value (fun c hc => ?_) ?_ hvalue).symm
  · obtain ⟨d, hd⟩ := hspells.isDigit_of_mem c hc
    exact isBinaryDigit_of_isDigit hd
  · rw [Text.padLeft, List.length_append, List.length_replicate]
    omega

/-- Sixteen bytes that are binary digits are read, and the reader that takes a plus in front as well
reads the same number. -/
theorem exists_word_of_digits {t : Text} (hbytes : t.byteLength = 16)
    (hall : t.all isBinaryDigit = true) :
    ∃ w : Word, Numeral.unsigned? 2 0xffff t = some w.toNat ∧ ofBinary? t = some w := by
  have hdigits := List.all_eq_true.1 hall
  have hlength : t.length = 16 := by rw [← byteLength_of_digits hdigits, hbytes]
  refine ⟨BitVec.ofNat 16 (Numeral.value 2 0 t), ?_, ofBinary?_digits hdigits hlength⟩
  rw [unsigned?_digits hdigits hlength, toNat_ofNat_value hdigits hlength]

end Word

/-- The digits of the word stand on the line, with blanks around them, and then nothing or a slash
with anything after it. -/
def HoldsWord (line : Text) (w : Word) : Prop :=
  ∃ a b rest : Text, line = a ++ w.binary ++ b ++ rest ∧ a.Blanks ∧ b.Blanks ∧
    (rest = [] ∨ ∃ note, rest = '/' :: note)

theorem slash_notMem_padded {a b : Text} (ha : a.Blanks) (w : Word) (hb : b.Blanks) :
    '/' ∉ a ++ w.binary ++ b := by
  have hblanks : ∀ {t : Text}, t.Blanks → '/' ∉ t := fun ht hmem => absurd (ht _ hmem) (by decide)
  simp [hblanks ha, hblanks hb, w.slash_notMem_binary]

theorem machineWord?_eq_some_iff {line : Text} {w : Word} :
    machineWord? line = some w ↔ HoldsWord line w := by
  rw [machineWord?_eq, Word.ofBinary?_eq_some_iff]
  constructor
  · intro h
    obtain ⟨a, b, ha, hb, hfield⟩ := Text.exists_padding (line.takeWhile (· ≠ '/'))
    rw [h] at hfield
    refine ⟨a, b, line.dropWhile (· ≠ '/'), ?_, ha, hb, ?_⟩
    · rw [← hfield, List.takeWhile_append_dropWhile]
    · by_cases hslash : '/' ∈ line
      · obtain ⟨field, note, rfl, hnone⟩ : ∃ s t : Text, line = s ++ '/' :: t ∧ '/' ∉ s :=
          List.eq_append_cons_of_mem hslash
        exact .inr ⟨note, Text.dropWhile_ne_append hnone note⟩
      · exact .inl (Text.dropWhile_ne_eq_nil hslash)
  · rintro ⟨a, b, rest, rfl, ha, hb, hrest⟩
    have hslash := slash_notMem_padded ha w hb
    have hfield : (a ++ w.binary ++ b ++ rest).takeWhile (· ≠ '/') = a ++ w.binary ++ b := by
      rcases hrest with rfl | ⟨note, rfl⟩
      · rw [List.append_nil, Text.takeWhile_ne_eq_self hslash]
      · rw [Text.takeWhile_ne_append hslash]
    rw [hfield, w.solid_binary.trim_padded ha hb]

/-- The word of a listing line is read exactly. A line is read as a word if and only if it holds the
digits of that word: blanks, the digits, blanks, and then nothing or a slash with anything after it.
The digits are those of the number of the word in base two, with zeros in front up to sixteen. So a
line holds one word at most, and neither an empty line nor one that starts with a slash or with
`ERROR` holds any. Once a field is seen to be sixteen bytes, all of them binary digits, its
conversion cannot fail, and every other field is refused. -/
theorem machineWord_accepts_exactly :
    (∀ (line : Text) (w : Word), machineWord? line = some w ↔ HoldsWord line w) ∧
    (∀ w : Word, w.binary = Text.padLeft '0' 16 (Nat.toDigits 2 w.toNat) ∧ w.binary.length = 16) ∧
    (∀ (line : Text) (w w' : Word), HoldsWord line w → HoldsWord line w' → w = w') ∧
    (∀ line : Text, line = [] ∨ line.head? = some '/' ∨ "ERROR".toList <+: line →
      machineWord? line = none ∧ ∀ w, ¬HoldsWord line w) ∧
    ∀ field : Text,
      (field.byteLength = 16 ∧ field.all Word.isBinaryDigit = true →
        ∃ w : Word, Numeral.unsigned? 2 0xffff field = some w.toNat ∧
          Word.ofBinary? field = some w) ∧
      (¬(field.byteLength = 16 ∧ field.all Word.isBinaryDigit = true) →
        Word.ofBinary? field = none) := by
  have hread : ∀ {line : Text} {w : Word}, machineWord? line = some w ↔ HoldsWord line w :=
    machineWord?_eq_some_iff
  refine ⟨fun line w => hread, fun w => ⟨w.binary_eq_padLeft, w.length_binary⟩,
    fun line w w' h h' => ?_, fun line h => ?_, fun field => ⟨fun h => ?_, fun h => if_neg h⟩⟩
  · rw [← hread] at h h'
    exact Option.some.inj (h.symm.trans h')
  · have hnone : machineWord? line = none := by
      rcases h with rfl | hslash | ⟨rest, rfl⟩
      · rfl
      · obtain ⟨rest, rfl⟩ := List.head?_eq_some_iff.1 hslash
        exact machineWord?_cons (by decide) (by decide) rest
      · exact machineWord?_cons (by decide) (by decide) _
    refine ⟨hnone, fun w hw => ?_⟩
    rw [← hread, hnone] at hw
    cases hw
  · exact Word.exists_word_of_digits h.1 h.2

/-- Digits between wide blanks are read; a sign in place of a digit is not. -/
theorem machineWord_accepts_exactly_wide :
    machineWord? "\u3000 0111000000000101\u00a0/ LOCO 5 (5)".toList = some 0x7005 ∧
      machineWord? "ERROR 1111111111111111".toList = none ∧
      ∀ w, ¬HoldsWord "+111111111111111 / signed".toList w := by
  obtain ⟨hread, -, -, hmarked, -⟩ := machineWord_accepts_exactly
  have hblanks : ∀ t : Text, t.all isBlank = true → t.Blanks := fun _ => List.all_eq_true.1
  refine ⟨(hread _ _).2 ?_, (hmarked _ (.inr (.inr ⟨_, rfl⟩))).1, fun w hw => ?_⟩
  · exact ⟨"\u3000 ".toList, "\u00a0".toList, "/ LOCO 5 (5)".toList, by decide,
      hblanks _ (by decide), hblanks _ (by decide), .inr ⟨_, rfl⟩⟩
  · have hnone : machineWord? "+111111111111111 / signed".toList = none := by decide
    rw [← hread, hnone] at hw
    cases hw

end Mac1
