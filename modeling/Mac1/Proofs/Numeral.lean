import Mac1.Text
import Mathlib.Data.List.Induction

/-!
Reading numerals against what they stand for. The readers stop at their limit digit by digit;
since a further digit never makes the number smaller, this is the same as comparing the whole
number with the limit.
-/
namespace Mac1.Numeral

/-- The number that further digits make of `acc`. -/
def value (base : Nat) (acc : Nat) (t : Text) : Nat :=
  t.foldl (fun n c => n * base + (digitValue c).getD 0) acc

@[simp] theorem value_nil (base acc : Nat) : value base acc [] = acc := rfl

@[simp] theorem value_cons (base acc : Nat) (c : Char) (t : Text) :
    value base acc (c :: t) = value base (acc * base + (digitValue c).getD 0) t := rfl

theorem le_value {base : Nat} (hb : 0 < base) (acc : Nat) (t : Text) : acc ≤ value base acc t := by
  induction t generalizing acc with
  | nil => exact Nat.le_refl acc
  | cons c t ih =>
    have hstep : acc ≤ acc * base + (digitValue c).getD 0 :=
      Nat.le_add_right_of_le (Nat.le_mul_of_pos_right acc hb)
    exact Nat.le_trans hstep (ih _)

theorem accumulate?_eq_some_iff {base limit acc n : Nat} {t : Text} (hb : 0 < base)
    (ha : acc ≤ limit) :
    accumulate? base limit acc t = some n ↔
      (∀ c ∈ t, (digit? base c).isSome) ∧ value base acc t = n ∧ n ≤ limit := by
  induction t generalizing acc with
  | nil =>
    simp only [accumulate?_nil, Option.some.injEq, value_nil, List.not_mem_nil, false_imp_iff,
      implies_true, true_and]
    constructor
    · intro h
      exact ⟨h, h ▸ ha⟩
    · exact And.left
  | cons c t ih =>
    cases hd : digit? base c with
    | none => simp [accumulate?_cons_none hd, hd]
    | some d =>
      have hv : (digitValue c).getD 0 = d := by
        obtain ⟨h, -⟩ := Option.filter_eq_some_iff.1 hd
        simp [h]
      by_cases hl : acc * base + d ≤ limit
      · simp [accumulate?_cons_some hd, hd, hl, hv, ih hl]
      · have hle := le_value hb (acc * base + d) t
        simp only [accumulate?_cons_some hd, hl, if_false, reduceCtorEq, value_cons, hv, false_iff]
        omega

/-- The digit with the value `d`, which the base has; a letter stands in either case. -/
def IsDigit (base : Nat) (c : Char) (d : Nat) : Prop :=
  d < base ∧ (c = d.digitChar ∨ c = d.digitChar.toUpper)

/-- One or more digits, and the number that they stand for. -/
inductive Spells (base : Nat) : Text → Nat → Prop where
  | digit {c : Char} {d : Nat} (h : IsDigit base c d) : Spells base [c] d
  | append {t : Text} {n : Nat} {c : Char} {d : Nat} (ht : Spells base t n)
      (h : IsDigit base c d) : Spells base (t ++ [c]) (n * base + d)

theorem digitValue_digitChar : ∀ d < 16, digitValue d.digitChar = some d ∧
    digitValue d.digitChar.toUpper = some d := by
  decide

theorem isDigit_of_digitValue_ascii : ∀ k < 0x80, ∀ d ∈ digitValue (Char.ofNat k),
    IsDigit 16 (Char.ofNat k) d := by
  unfold IsDigit
  decide +kernel

/-- Digits are ASCII. -/
theorem toNat_lt_of_digitValue {c : Char} {d : Nat} (h : digitValue c = some d) :
    c.toNat < 0x80 := by
  have upTo : ∀ e : Char, c ≤ e → e.toNat < 0x80 → c.toNat < 0x80 :=
    fun e hle he => Nat.lt_of_le_of_lt (UInt32.le_iff_toNat_le.1 hle) he
  unfold digitValue at h
  split at h
  case isTrue hc => exact upTo '9' hc.2 (by decide)
  case isFalse =>
    split at h
    case isTrue hc => exact upTo 'f' hc.2 (by decide)
    case isFalse =>
      split at h
      case isTrue hc => exact upTo 'F' hc.2 (by decide)
      case isFalse => cases h

theorem digitValue_eq_some_iff {c : Char} {d : Nat} : digitValue c = some d ↔ IsDigit 16 c d := by
  constructor
  · intro h
    have hascii := isDigit_of_digitValue_ascii c.toNat (toNat_lt_of_digitValue h) d
    rw [Char.ofNat_toNat] at hascii
    exact hascii h
  · rintro ⟨hd, rfl | rfl⟩
    · exact (digitValue_digitChar d hd).1
    · exact (digitValue_digitChar d hd).2

theorem digit?_eq_some_iff {base : Nat} (hb : base ≤ 16) {c : Char} {d : Nat} :
    digit? base c = some d ↔ IsDigit base c d := by
  rw [digit?, Option.filter_eq_some_iff, digitValue_eq_some_iff, IsDigit, IsDigit]
  simp only [decide_eq_true_eq]
  constructor
  · rintro ⟨⟨-, hc⟩, hd⟩
    exact ⟨hd, hc⟩
  · rintro ⟨hd, hc⟩
    exact ⟨⟨Nat.lt_of_lt_of_le hd hb, hc⟩, hd⟩

theorem digitValue_of_digit? {base : Nat} {c : Char} {d : Nat} (h : digit? base c = some d) :
    digitValue c = some d := (Option.filter_eq_some_iff.1 h).1

theorem value_append (base acc : Nat) (t : Text) (c : Char) :
    value base acc (t ++ [c]) = value base acc t * base + (digitValue c).getD 0 := by
  simp [value]

/-- What is spelled is read digit by digit. -/
theorem spells_iff {base : Nat} (hb : base ≤ 16) {t : Text} {n : Nat} :
    Spells base t n ↔ t ≠ [] ∧ (∀ c ∈ t, (digit? base c).isSome) ∧ value base 0 t = n := by
  constructor
  · intro h
    induction h with
    | @digit c d h =>
      have hd := (digit?_eq_some_iff hb).2 h
      simp [hd, digitValue_of_digit? hd]
    | @append t n c d ht h ih =>
      obtain ⟨-, hall, hvalue⟩ := ih
      have hd := (digit?_eq_some_iff hb).2 h
      refine ⟨by simp, List.forall_mem_append.2 ⟨hall, by simp [hd]⟩, ?_⟩
      rw [value_append, hvalue, digitValue_of_digit? hd, Option.getD_some]
  · rintro ⟨hne, hall, rfl⟩
    induction t using List.reverseRecOn with
    | nil => exact absurd rfl hne
    | append_singleton t c ih =>
      obtain ⟨hall, hlast⟩ := List.forall_mem_append.1 hall
      obtain ⟨d, hd⟩ := Option.isSome_iff_exists.1 (hlast c (List.mem_singleton.2 rfl))
      have hdigit := (digit?_eq_some_iff hb).1 hd
      rw [value_append, digitValue_of_digit? hd, Option.getD_some]
      by_cases ht : t = []
      · subst ht
        simpa using Spells.digit hdigit
      · exact .append (ih ht hall) hdigit

theorem natural?_eq_some_iff {base limit n : Nat} (hb₀ : 0 < base) (hb : base ≤ 16) {t : Text} :
    natural? base limit t = some n ↔ Spells base t n ∧ n ≤ limit := by
  rw [spells_iff hb]
  by_cases ht : t = []
  · simp [ht]
  · rw [natural?_of_ne_nil ht, accumulate?_eq_some_iff hb₀ (Nat.zero_le limit)]
    simp [ht, and_assoc]

theorem Spells.isDigit_of_mem {base : Nat} {t : Text} {n : Nat} (h : Spells base t n) :
    ∀ c ∈ t, ∃ d, IsDigit base c d := by
  induction h with
  | @digit c d h =>
    intro c' hc
    exact List.mem_singleton.1 hc ▸ ⟨d, h⟩
  | @append t n c d ht h ih =>
    intro c' hc
    rcases List.mem_append.1 hc with hc | hc
    · exact ih c' hc
    · exact List.mem_singleton.1 hc ▸ ⟨d, h⟩

/-- No sign, or a plus. -/
def IsPlus (sign : Text) : Prop := sign = [] ∨ sign = ['+']

theorem not_spells_plus {base : Nat} (hb : base ≤ 16) {t : Text} {n : Nat} :
    ¬Spells base ('+' :: t) n := by
  intro h
  obtain ⟨d, hd⟩ := h.isDigit_of_mem '+' List.mem_cons_self
  have hread := (digit?_eq_some_iff hb).2 hd
  cases hread

theorem unsigned?_eq_some_iff {base limit n : Nat} (hb₀ : 0 < base) (hb : base ≤ 16) {t : Text} :
    unsigned? base limit t = some n ↔
      ∃ sign digits, t = sign ++ digits ∧ IsPlus sign ∧ Spells base digits n ∧ n ≤ limit := by
  unfold unsigned?
  split
  case h_1 t =>
    rw [natural?_eq_some_iff hb₀ hb]
    constructor
    · exact fun h => ⟨['+'], t, rfl, .inr rfl, h⟩
    · rintro ⟨sign, digits, ht, rfl | rfl, h, hn⟩
      · rw [List.nil_append] at ht
        exact absurd h (ht ▸ not_spells_plus hb)
      · cases ht
        exact ⟨h, hn⟩
  case h_2 hplus =>
    rw [natural?_eq_some_iff hb₀ hb]
    constructor
    · exact fun h => ⟨[], t, rfl, .inl rfl, h⟩
    · rintro ⟨sign, digits, rfl, rfl | rfl, h⟩
      · exact h
      · exact absurd rfl (hplus digits)

/-- Zeros in front do not count. -/
theorem Spells.zeros {base : Nat} (hb : 0 < base) {t : Text} {n : Nat} (h : Spells base t n)
    (k : Nat) : Spells base (List.replicate k '0' ++ t) n := by
  have hzero : IsDigit base '0' 0 := ⟨hb, .inl rfl⟩
  induction h with
  | @digit c d h =>
    cases k with
    | zero => exact .digit h
    | succ k =>
      have hzeros : Spells base (List.replicate (k + 1) '0') 0 := by
        induction k with
        | zero => exact .digit hzero
        | succ k ih =>
          rw [List.replicate_succ']
          simpa using ih.append hzero
      simpa using hzeros.append h
  | @append t n c d ht h ih =>
    rw [← List.append_assoc]
    exact ih.append h

theorem Spells.padLeft {base : Nat} (hb : 0 < base) {t : Text} {n : Nat} (h : Spells base t n)
    (width : Nat) : Spells base (t.padLeft '0' width) n := h.zeros hb _

theorem isDigit_digitChar {base d : Nat} (h : d < base) : IsDigit base d.digitChar d :=
  ⟨h, .inl rfl⟩

theorem spells_toDigits {base : Nat} (hb : 1 < base) (n : Nat) :
    Spells base (Nat.toDigits base n) n := by
  induction n using Nat.strongRecOn with
  | ind n ih =>
    rcases Nat.lt_or_ge n base with hlt | hge
    · rw [Nat.toDigits_of_lt_base hlt]
      exact .digit (isDigit_digitChar hlt)
    · have hdigit := isDigit_digitChar (Nat.mod_lt n (Nat.lt_trans Nat.one_pos hb))
      have hrest := (ih (n / base) (Nat.div_lt_self (by omega) hb)).append hdigit
      rwa [Nat.div_add_mod', ← Nat.toDigits_of_base_le hb hge] at hrest

/-- Capital letters spell the same number. -/
theorem Spells.upper {base : Nat} (hb : base ≤ 16) {t : Text} {n : Nat} (h : Spells base t n) :
    Spells base (t.map Char.toUpper) n := by
  have htwice : ∀ d < 16, d.digitChar.toUpper.toUpper = d.digitChar.toUpper := by decide
  have hupper : ∀ {c : Char} {d : Nat}, IsDigit base c d → IsDigit base c.toUpper d := by
    rintro c d ⟨hd, rfl | rfl⟩
    · exact ⟨hd, .inr rfl⟩
    · exact ⟨hd, .inr (htwice d (Nat.lt_of_lt_of_le hd hb))⟩
  induction h with
  | digit h => exact .digit (hupper h)
  | append ht h ih =>
    rw [List.map_append]
    exact ih.append (hupper h)

/-- A numeral with at least one digit, all of them decimal. -/
def IsDecimal (t : Text) : Prop := t ≠ [] ∧ ∀ c ∈ t, c.isDigit = true

theorem isDigit_iff (c : Char) : c.isDigit = true ↔ '0' ≤ c ∧ c ≤ '9' := by
  simp [Char.isDigit, Char.le_def]

theorem digitValue_of_isDigit {c : Char} (h : c.isDigit = true) :
    digitValue c = some (c.toNat - '0'.toNat) := if_pos ((isDigit_iff c).1 h)

theorem digit?_ten_isSome (c : Char) : (digit? 10 c).isSome = c.isDigit := by
  by_cases h : c.isDigit = true
  · have hc : 48 ≤ c.toNat ∧ c.toNat ≤ 57 := by
      simpa [Char.isDigit, UInt32.le_iff_toNat_le] using h
    simp [digit?, digitValue_of_isDigit h, h, Option.filter]
    omega
  · have hn : ¬('0' ≤ c ∧ c ≤ '9') := fun hc => h ((isDigit_iff c).2 hc)
    rw [Bool.eq_false_iff.2 h, digit?, digitValue, if_neg hn]
    split
    · simp [Option.filter]
    · split
      · simp [Option.filter]
      · rfl

theorem value_ten {t : Text} (h : ∀ c ∈ t, c.isDigit = true) (acc : Nat) :
    value 10 acc t = Nat.ofDigitChars 10 t acc := by
  induction t generalizing acc with
  | nil => simp
  | cons c t ih =>
    have hc := digitValue_of_isDigit (h c (List.mem_cons_self ..))
    rw [value_cons, Nat.ofDigitChars_cons, ih (fun d hd => h d (List.mem_cons_of_mem _ hd)), hc,
      Nat.mul_comm, Option.getD_some]

theorem spells_ten_iff {t : Text} {n : Nat} :
    Spells 10 t n ↔ IsDecimal t ∧ Nat.ofDigitChars 10 t 0 = n := by
  rw [spells_iff (by decide), IsDecimal, and_assoc]
  simp only [digit?_ten_isSome]
  refine and_congr_right fun _ => and_congr_right fun hd => ?_
  rw [value_ten hd]

theorem natural?_ten_eq_some_iff {limit n : Nat} {t : Text} :
    natural? 10 limit t = some n ↔ IsDecimal t ∧ Nat.ofDigitChars 10 t 0 = n ∧ n ≤ limit := by
  rw [natural?_eq_some_iff (by decide) (by decide), spells_ten_iff, and_assoc]

/-- A decimal numeral after an optional sign, and the integer that it stands for. -/
inductive IsInteger : Text → Int → Prop where
  | plain {t : Text} (h : IsDecimal t) : IsInteger t (Nat.ofDigitChars 10 t 0)
  | plus {t : Text} (h : IsDecimal t) : IsInteger ('+' :: t) (Nat.ofDigitChars 10 t 0)
  | minus {t : Text} (h : IsDecimal t) : IsInteger ('-' :: t) (-(Nat.ofDigitChars 10 t 0 : Int))

theorem not_isDecimal_cons {c : Char} {t : Text} (hc : c.isDigit = false) :
    ¬IsDecimal (c :: t) := by
  intro h
  have hd := h.2 c (List.mem_cons_self ..)
  rw [hc] at hd
  cases hd

theorem isInteger_plus_iff {t : Text} {n : Int} :
    IsInteger ('+' :: t) n ↔ IsDecimal t ∧ (Nat.ofDigitChars 10 t 0 : Int) = n := by
  constructor
  · intro h
    cases h with
    | plain h => exact absurd h (not_isDecimal_cons rfl)
    | plus h => exact ⟨h, rfl⟩
  · rintro ⟨h, rfl⟩
    exact .plus h

theorem isInteger_minus_iff {t : Text} {n : Int} :
    IsInteger ('-' :: t) n ↔ IsDecimal t ∧ -(Nat.ofDigitChars 10 t 0 : Int) = n := by
  constructor
  · intro h
    cases h with
    | plain h => exact absurd h (not_isDecimal_cons rfl)
    | minus h => exact ⟨h, rfl⟩
  · rintro ⟨h, rfl⟩
    exact .minus h

theorem isInteger_unsigned_iff {t : Text} {n : Int} (hp : ∀ u, t ≠ '+' :: u)
    (hm : ∀ u, t ≠ '-' :: u) :
    IsInteger t n ↔ IsDecimal t ∧ (Nat.ofDigitChars 10 t 0 : Int) = n := by
  constructor
  · intro h
    cases h with
    | plain h => exact ⟨h, rfl⟩
    | plus h => exact absurd rfl (hp _)
    | minus h => exact absurd rfl (hm _)
  · rintro ⟨h, rfl⟩
    exact .plain h

/-- What a reader with these limits accepts, and as which number. -/
theorem integer?_eq_some_iff {below above : Nat} {t : Text} {n : Int} :
    integer? below above t = some n ↔ IsInteger t n ∧ -(below : Int) ≤ n ∧ n ≤ above := by
  unfold integer?
  split
  case h_1 t =>
    rw [isInteger_plus_iff, Option.map_eq_some_iff]
    simp only [natural?_ten_eq_some_iff]
    constructor
    · rintro ⟨m, ⟨ht, rfl, hl⟩, rfl⟩
      exact ⟨⟨ht, rfl⟩, by omega, by omega⟩
    · rintro ⟨⟨ht, rfl⟩, -, hl⟩
      exact ⟨_, ⟨ht, rfl, by omega⟩, rfl⟩
  case h_2 t =>
    rw [isInteger_minus_iff, Option.map_eq_some_iff]
    simp only [natural?_ten_eq_some_iff]
    constructor
    · rintro ⟨m, ⟨ht, rfl, hl⟩, rfl⟩
      exact ⟨⟨ht, rfl⟩, by omega, by omega⟩
    · rintro ⟨⟨ht, rfl⟩, hl, -⟩
      exact ⟨_, ⟨ht, rfl, by omega⟩, rfl⟩
  case h_3 t hp hm =>
    rw [isInteger_unsigned_iff hp hm, Option.map_eq_some_iff]
    simp only [natural?_ten_eq_some_iff]
    constructor
    · rintro ⟨m, ⟨ht, rfl, hl⟩, rfl⟩
      exact ⟨⟨ht, rfl⟩, by omega, by omega⟩
    · rintro ⟨⟨ht, rfl⟩, -, hl⟩
      exact ⟨_, ⟨ht, rfl, by omega⟩, rfl⟩

/-- A decimal integer that a signed word of 64 bits can hold. -/
def IsLiteral (t : Text) (n : Int) : Prop :=
  IsInteger t n ∧ -0x8000000000000000 ≤ n ∧ n ≤ 0x7fffffffffffffff

/-- What is read within a limit is read within a wider one. -/
theorem natural?_or {small large : Nat} (h : small ≤ large) (t : Text) :
    (natural? 10 small t).or (natural? 10 large t) = natural? 10 large t := by
  cases hread : natural? 10 small t with
  | none => rfl
  | some n =>
    obtain ⟨ht, hn, hle⟩ := natural?_ten_eq_some_iff.1 hread
    exact (natural?_ten_eq_some_iff.2 ⟨ht, hn, Nat.le_trans hle h⟩).symm

/-- Reading a signed number first and an unsigned one otherwise is reading a number from the lowest
signed to the highest unsigned one. -/
theorem integer?_or_unsigned? {below small large : Nat} (h : small ≤ large) (t : Text) :
    (integer? below small t).or ((unsigned? 10 large t).map fun n : Nat => (n : Int)) =
      integer? below large t := by
  unfold integer?
  split
  case h_1 t => rw [unsigned?_plus, ← Option.map_or, natural?_or h]
  case h_2 t =>
    have hnone : unsigned? 10 large ('-' :: t) = none := rfl
    rw [hnone]
    exact Option.or_none
  case h_3 hplus _ => rw [unsigned?_of_ne_plus hplus, ← Option.map_or, natural?_or h]

theorem literal?_eq_some_iff {t : Text} {n : Int} : literal? t = some n ↔ IsLiteral t n := by
  rw [literal?, integer?_eq_some_iff, IsLiteral]
  rfl

theorem IsInteger.unique {t : Text} {m n : Int} (hm : IsInteger t m) (hn : IsInteger t n) :
    m = n := by
  cases hm with
  | plain h =>
    cases hn with
    | plain => rfl
    | plus => exact absurd h (not_isDecimal_cons rfl)
    | minus => exact absurd h (not_isDecimal_cons rfl)
  | plus => exact (isInteger_plus_iff.1 hn).2
  | minus => exact (isInteger_minus_iff.1 hn).2

theorem isDecimal_toDigits (n : Nat) : IsDecimal (Nat.toDigits 10 n) :=
  ⟨Nat.toDigits_ne_nil, fun _ hc => Nat.isDigit_of_mem_toDigits (by decide) (by decide) hc⟩

theorem isInteger_decimal (n : Int) : IsInteger (decimal n) n := by
  cases n with
  | ofNat n =>
    have h := IsInteger.plain (isDecimal_toDigits n)
    rwa [Nat.ofDigitChars_ten_toDigits] at h
  | negSucc n =>
    have h := IsInteger.minus (isDecimal_toDigits (n + 1))
    rwa [Nat.ofDigitChars_ten_toDigits] at h

theorem decimal_injective {m n : Int} (h : decimal m = decimal n) : m = n :=
  (isInteger_decimal m).unique (h ▸ isInteger_decimal n)

theorem literal?_decimal {n : Int} (hl : -0x8000000000000000 ≤ n)
    (hu : n ≤ 0x7fffffffffffffff) :
    literal? (decimal n) = some n :=
  literal?_eq_some_iff.2 ⟨isInteger_decimal n, hl, hu⟩

theorem decimal_ne_nil (n : Int) : decimal n ≠ [] := by
  cases n with
  | ofNat n => exact Nat.toDigits_ne_nil
  | negSucc n => exact List.cons_ne_nil _ _

theorem mem_decimal {c : Char} {n : Int} (h : c ∈ decimal n) : c.isDigit = true ∨ c = '-' := by
  cases n with
  | ofNat n => exact .inl ((isDecimal_toDigits n).2 c h)
  | negSucc n =>
    rcases List.mem_cons.1 h with rfl | h
    · exact .inr rfl
    · exact .inl ((isDecimal_toDigits (n + 1)).2 c h)

end Mac1.Numeral
