import Mac1.Text
import Mac1.Text.Upper
import Mathlib.Data.List.DropRight

/-!
Trimming, line feeds and upper case. A trimmed text is what stands between two runs of blanks;
upper-casing brings no line feed.
-/
namespace Mac1

theorem isBlank_of_isDigit (c : Char) (h : c.isDigit = true) : isBlank c = false := by
  have hc : 48 ≤ c.toNat ∧ c.toNat ≤ 57 := by
    simpa [Char.isDigit, UInt32.le_iff_toNat_le] using h
  simp [isBlank, blankRanges]
  omega

namespace Text

/-- No blank at either end. -/
structure Solid (t : Text) : Prop where
  head : ∀ c ∈ t.head?, isBlank c = false
  last : ∀ c ∈ t.getLast?, isBlank c = false

theorem Solid.of_forall {t : Text} (h : ∀ c ∈ t, isBlank c = false) : Solid t :=
  ⟨fun c hc => h c (List.mem_of_mem_head? hc), fun c hc => h c (List.mem_of_mem_getLast? hc)⟩

/-- Blanks between two pieces leave the ends as they are. -/
theorem Solid.append_inner {s t : Text} (m : Text) (hs : Solid s) (ht : Solid t) (hs' : s ≠ [])
    (ht' : t ≠ []) : Solid (s ++ m ++ t) := by
  obtain ⟨c, s, rfl⟩ := List.exists_cons_of_ne_nil hs'
  constructor
  · intro d hd
    exact hs.head d (by simpa using hd)
  · intro d hd
    rw [List.getLast?_append] at hd
    cases h : t.getLast? with
    | none => exact absurd (List.getLast?_eq_none_iff.1 h) ht'
    | some e => exact ht.last d (by simpa [h] using hd)

theorem dropWhile_of_head? {t : Text} {p : Char → Bool} (h : ∀ c ∈ t.head?, p c = false) :
    t.dropWhile p = t := by
  cases t with
  | nil => rfl
  | cons c t => exact List.dropWhile_cons_of_neg (by simp [h c rfl])

theorem Solid.takeWhile_eq {t : Text} (h : Solid t) : t.takeWhile isBlank = [] := by
  cases t with
  | nil => rfl
  | cons c t => exact List.takeWhile_cons_of_neg (by simp [h.head c rfl])

theorem trimLeft_blanks_append {b t : Text} (hb : ∀ c ∈ b, isBlank c = true) :
    trimLeft (b ++ t) = trimLeft t := List.dropWhile_append_of_pos hb

theorem trimRight_append_blanks {t a : Text} (ha : ∀ c ∈ a, isBlank c = true) :
    trimRight (t ++ a) = trimRight t := by
  rw [trimRight, trimRight, List.reverse_append, List.dropWhile_append_of_pos]
  simpa using ha

theorem trimRight_eq_rdropWhile (t : Text) : trimRight t = t.rdropWhile isBlank := rfl

theorem Solid.trimRight_eq {t : Text} (h : Solid t) : trimRight t = t := by
  rw [trimRight_eq_rdropWhile, List.rdropWhile_eq_self_iff]
  intro hne
  simpa using h.last _ (List.getLast?_eq_some_getLast hne)

/-- Trimming finds what stands between blanks. -/
theorem Solid.trim_padded {b t a : Text} (h : Solid t) (hb : ∀ c ∈ b, isBlank c = true)
    (ha : ∀ c ∈ a, isBlank c = true) : trim (b ++ t ++ a) = t := by
  rw [trim, List.append_assoc, trimLeft_blanks_append hb]
  cases t with
  | nil =>
    have he : trimLeft a = [] := by simpa [trimLeft, List.dropWhile_eq_nil_iff] using ha
    rw [List.nil_append, he]
    rfl
  | cons c t =>
    have hc : trimLeft (c :: t ++ a) = c :: t ++ a := dropWhile_of_head? (by simpa using h.head)
    rw [hc, trimRight_append_blanks ha, h.trimRight_eq]

theorem Solid.trim_eq {t : Text} (h : Solid t) : trim t = t := by
  simpa using h.trim_padded (b := []) (a := []) (by simp) (by simp)

/-- A first character that is no blank stays first. -/
theorem trim_cons_of_solid (c : Char) (t : Text) (hc : isBlank c = false) :
    ∃ u, trim (c :: t) = c :: u := by
  have hl : trimLeft (c :: t) = c :: t := List.dropWhile_cons_of_neg (by simp [hc])
  rw [trim, hl, trimRight, List.reverse_cons, List.dropWhile_append]
  split
  · exact ⟨[], by simp [hc]⟩
  · exact ⟨_, List.reverse_concat ..⟩

/-- A text of blanks. -/
def Blanks (t : Text) : Prop := ∀ c ∈ t, isBlank c = true

theorem Blanks.append {a b : Text} (ha : Blanks a) (hb : Blanks b) : Blanks (a ++ b) :=
  List.forall_mem_append.2 ⟨ha, hb⟩

theorem head_trimLeft {t : Text} {c : Char} (h : c ∈ (trimLeft t).head?) : isBlank c = false := by
  have hhead := List.head?_dropWhile_not isBlank t
  rw [trimLeft] at h
  rw [h] at hhead
  exact hhead

theorem last_trimRight {t : Text} {c : Char} (h : c ∈ (trimRight t).getLast?) :
    isBlank c = false := by
  have hne : trimRight t ≠ [] := by
    intro he
    simp [he] at h
  rw [List.getLast?_eq_some_getLast hne] at h
  cases h
  exact Bool.eq_false_iff.2 (List.rdropWhile_last_not isBlank t hne)

theorem exists_trimLeft (t : Text) : ∃ a, Blanks a ∧ t = a ++ trimLeft t :=
  ⟨t.takeWhile isBlank, fun _ => List.mem_takeWhile_imp, List.takeWhile_append_dropWhile.symm⟩

theorem exists_trimRight (t : Text) : ∃ b, Blanks b ∧ t = trimRight t ++ b :=
  ⟨t.rtakeWhile isBlank, fun _ => List.mem_rtakeWhile_imp, List.rdropWhile_append_rtakeWhile.symm⟩

/-- A trimmed text starts with the first character that is no blank. -/
theorem head?_trim (t : Text) : (trim t).head? = t.find? (!isBlank ·) := by
  rw [List.find?_eq_head?_dropWhile_not]
  simp only [Bool.not_not]
  change (trimRight (trimLeft t)).head? = (trimLeft t).head?
  cases hu : trimLeft t with
  | nil => rfl
  | cons c u =>
    have hc : isBlank c = false := head_trimLeft (by rw [hu]; rfl)
    obtain ⟨v, hv⟩ := trim_cons_of_solid c u hc
    rw [trim, trimLeft, List.dropWhile_cons_of_neg (by simp [hc])] at hv
    rw [hv]
    rfl

theorem solid_trim (t : Text) : Solid (trim t) := by
  constructor
  · intro c hc
    rw [head?_trim] at hc
    simpa using List.find?_some hc
  · intro c hc
    exact last_trimRight hc

/-- What trimming takes away is blank. -/
theorem exists_padding (t : Text) : ∃ a b, Blanks a ∧ Blanks b ∧ t = a ++ trim t ++ b := by
  obtain ⟨a, ha, hleft⟩ := exists_trimLeft t
  obtain ⟨b, hb, hright⟩ := exists_trimRight (trimLeft t)
  refine ⟨a, b, ha, hb, ?_⟩
  rw [List.append_assoc, trim, ← hright, ← hleft]

/-- Further blanks on either side make no difference. -/
theorem trim_padded {a b : Text} (ha : Blanks a) (t : Text) (hb : Blanks b) :
    trim (a ++ t ++ b) = trim t := by
  obtain ⟨a', b', ha', hb', ht⟩ := exists_padding t
  calc trim (a ++ t ++ b) = trim (a ++ (a' ++ trim t ++ b') ++ b) :=
        congrArg (fun u => trim (a ++ u ++ b)) ht
    _ = trim ((a ++ a') ++ trim t ++ (b' ++ b)) := by simp only [List.append_assoc]
    _ = trim t := (solid_trim t).trim_padded (ha.append ha') (hb'.append hb)

theorem trim_eq_nil_iff {t : Text} : trim t = [] ↔ Blanks t := by
  constructor
  · intro h
    obtain ⟨a, b, ha, hb, ht⟩ := exists_padding t
    rw [h, List.append_nil] at ht
    rw [ht]
    exact ha.append hb
  · intro h
    have hsolid : Solid [] := ⟨by simp, by simp⟩
    simpa using hsolid.trim_padded (a := []) h (by simp)

theorem trim_trimLeft (t : Text) : trim (trimLeft t) = trim t := by
  obtain ⟨a, ha, hleft⟩ := exists_trimLeft t
  have hpadded := trim_padded ha (trimLeft t) (b := []) (by simp [Blanks])
  rw [List.append_nil, ← hleft] at hpadded
  exact hpadded.symm

theorem trim_trimRight (t : Text) : trim (trimRight t) = trim t := by
  obtain ⟨b, hb, hright⟩ := exists_trimRight t
  have hpadded := trim_padded (a := []) (by simp [Blanks]) (trimRight t) hb
  rw [List.nil_append, ← hright] at hpadded
  exact hpadded.symm

/-- A character that is no blank stops trimming from either side. -/
theorem trim_append_cons {c : Char} (hc : isBlank c = false) (s t : Text) :
    trim (s ++ c :: t) = trimLeft s ++ c :: trimRight t := by
  have hsolid : Solid (trimLeft s ++ c :: trimRight t) := by
    constructor
    · intro d hd
      cases hs : trimLeft s with
      | nil =>
        rw [hs] at hd
        cases hd
        exact hc
      | cons e u =>
        rw [hs] at hd
        exact head_trimLeft (t := s) (by rw [hs]; exact hd)
    · intro d hd
      rw [List.getLast?_append, List.getLast?_cons] at hd
      cases ht : (trimRight t).getLast? with
      | none =>
        rw [ht] at hd
        cases hd
        exact hc
      | some e =>
        rw [ht] at hd
        cases hd
        exact last_trimRight ht
  obtain ⟨a, ha, hleft⟩ := exists_trimLeft s
  obtain ⟨b, hb, hright⟩ := exists_trimRight t
  calc trim (s ++ c :: t) = trim (a ++ (trimLeft s ++ c :: trimRight t) ++ b) := by
        congr 1
        conv => lhs; rw [hleft, hright]
        simp
    _ = trimLeft s ++ c :: trimRight t := hsolid.trim_padded ha hb

theorem takeWhile_ne_append {x : Char} {s : Text} (h : x ∉ s) (t : Text) :
    (s ++ x :: t).takeWhile (· ≠ x) = s := by
  rw [List.takeWhile_append_of_pos]
  · simp
  · intro c hc
    simpa using fun he : c = x => h (he ▸ hc)

theorem dropWhile_ne_append {x : Char} {s : Text} (h : x ∉ s) (t : Text) :
    (s ++ x :: t).dropWhile (· ≠ x) = x :: t := by
  rw [List.dropWhile_append_of_pos]
  · simp
  · intro c hc
    simpa using fun he : c = x => h (he ▸ hc)

theorem takeWhile_ne_eq_self {x : Char} {t : Text} (h : x ∉ t) : t.takeWhile (· ≠ x) = t := by
  rw [List.takeWhile_eq_self_iff]
  intro c hc
  simpa using fun he : c = x => h (he ▸ hc)

theorem dropWhile_ne_eq_nil {x : Char} {t : Text} (h : x ∉ t) : t.dropWhile (· ≠ x) = [] := by
  rw [List.dropWhile_eq_nil_iff]
  intro c hc
  simpa using fun he : c = x => h (he ▸ hc)

/-- From the end a text is cut at the last occurrence. -/
theorem cut_reverse {x : Char} (s : Text) {t : Text} (h : x ∉ t) :
    (s ++ x :: t).reverse.takeWhile (· ≠ x) = t.reverse ∧
      (s ++ x :: t).reverse.dropWhile (· ≠ x) = x :: s.reverse := by
  have h' : x ∉ t.reverse := mt List.mem_reverse.1 h
  have hreverse : (s ++ x :: t).reverse = t.reverse ++ x :: s.reverse := by simp
  rw [hreverse]
  exact ⟨takeWhile_ne_append h' _, dropWhile_ne_append h' _⟩

/-- Every character that occurs has a last occurrence. -/
theorem eq_append_cons_of_mem {x : Char} {t : Text} (h : x ∈ t) :
    ∃ s u, t = s ++ x :: u ∧ x ∉ u := by
  obtain ⟨u, s, hsplit, hu⟩ := List.eq_append_cons_of_mem (List.mem_reverse.2 h)
  refine ⟨s.reverse, u.reverse, ?_, by simpa using hu⟩
  rw [← List.reverse_reverse t, hsplit]
  simp

theorem byteLength_unlines_cons (line : Text) (lines : List Text) :
    (unlines (line :: lines)).byteLength = line.byteLength + 1 + (unlines lines).byteLength := by
  simp only [unlines_cons, byteLength_append, byteLength_cons]
  exact (Nat.add_assoc ..).symm

theorem count_newline_unlines {lines : List Text} (h : ∀ line ∈ lines, '\n' ∉ line) :
    (unlines lines).count '\n' = lines.length := by
  induction lines with
  | nil => rfl
  | cons line lines ih =>
    obtain ⟨hline, hlines⟩ := List.forall_mem_cons.1 h
    rw [unlines_cons, List.count_append, List.count_eq_zero.2 hline, List.count_cons_self,
      ih hlines, Nat.zero_add, List.length_cons]

theorem newline_notMem_of_mem_splitOn {t line : Text} (h : line ∈ t.splitOn '\n') :
    '\n' ∉ line := by
  induction t generalizing line with
  | nil => simp_all
  | cons c t ih =>
    rw [List.splitOn_cons_eq_if_modifyHead] at h
    split at h
    · rcases List.mem_cons.1 h with rfl | h
      · simp
      · exact ih h
    · rename_i hc
      obtain ⟨first, rest, hs⟩ := List.exists_cons_of_ne_nil (List.splitOn_ne_nil '\n' t)
      rw [hs, List.modifyHead_cons, List.mem_cons] at h
      rcases h with rfl | h
      · have hf : '\n' ∉ first := ih (by simp [hs])
        have hn : '\n' ≠ c := by
          rintro rfl
          exact hc rfl
        simp [hf, hn]
      · exact ih (by simp [hs, h])

/-- There is one more line than there are line feeds. -/
theorem length_splitOn_newline (t : Text) : (t.splitOn '\n').length = t.count '\n' + 1 := by
  induction t with
  | nil => rfl
  | cons c t ih =>
    rw [List.splitOn_cons_eq_if_modifyHead, List.count_cons]
    split
    · rw [List.length_cons, ih]
    · rw [List.length_modifyHead, ih, Nat.add_zero]

theorem ofNat_ne_newline {n : Nat} (h : 10 < n) : Char.ofNat n ≠ '\n' := by
  intro he
  by_cases hv : n.isValidChar
  · have hn : (Char.ofNat n).toNat = n := by
      rw [Char.ofNat, dif_pos hv]
      rfl
    rw [he] at hn
    exact absurd hn (Nat.ne_of_lt h)
  · rw [Char.ofNat, dif_neg hv] at he
    exact absurd he (by decide)

theorem newline_toUpper (c : Char) (hc : c.toNat < 0x80) (h : c.toUpper = '\n') : c = '\n' := by
  have ascii : ∀ n < 0x80, (Char.ofNat n).toUpper = '\n' → Char.ofNat n = '\n' := by decide
  simpa using ascii c.toNat hc (by simpa using h)

theorem caseExpansions_above_newline : ∀ e ∈ caseExpansions, ∀ n ∈ e.2, 10 < n := by
  decide +kernel

theorem caseRuns_above_newline : ∀ r ∈ caseRuns, 10 < r.first + r.shift := by
  decide +kernel

/-- Upper-casing makes no line feed: the images in both tables lie above it. -/
theorem newline_mem_upperChar (c : Char) (h : '\n' ∈ upperChar c) : c = '\n' := by
  unfold upperChar at h
  split at h
  case isTrue hc => exact newline_toUpper c hc (by simpa [eq_comm] using h)
  case isFalse =>
    split at h
    case h_1 image hi =>
      obtain ⟨n, hn, he⟩ := List.mem_map.1 h
      obtain ⟨l₁, l₂, hl, -⟩ := List.lookup_eq_some_iff.1 hi
      have hm : (c.toNat, image) ∈ caseExpansions := by simp [hl]
      exact absurd he (ofNat_ne_newline (caseExpansions_above_newline _ hm n hn))
    case h_2 =>
      split at h
      case h_1 run hr =>
        have habove := caseRuns_above_newline run (List.mem_of_find?_eq_some hr)
        have hcovers : run.first ≤ c.toNat := by
          have := List.find?_some hr
          simp [CaseRun.covers] at this
          omega
        exact absurd (List.mem_singleton.1 h).symm (ofNat_ne_newline (by omega))
      case h_2 => simpa [eq_comm] using h

theorem newline_notMem_upper {t : Text} (h : '\n' ∉ t) : '\n' ∉ upper t := by
  rw [upper, List.mem_flatMap]
  rintro ⟨c, hc, hn⟩
  exact h (newline_mem_upperChar c hn ▸ hc)

end Text

end Mac1
