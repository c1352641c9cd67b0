import Mac1.Proofs.Correspondence
import Mac1.Proofs.Decoding
import Mac1.Proofs.Listing

/-!
What a listing keeps of a program. Operands are shown as they are written, with spaces, slashes and
brackets of their own, so a listing line cannot be cut by its marks alone. Its word tells which
fields follow the mnemonic, and from the end the last bracket is the one around the number.
-/
namespace Mac1

namespace Text

variable {x : Char} {s s' t t' : Text}

/-- What stands before the first occurrence of a character is determined. -/
theorem append_cons_inj_first (hs : x ∉ s) (hs' : x ∉ s') (h : s ++ x :: t = s' ++ x :: t') :
    s = s' ∧ t = t' := by
  have htake := congrArg (List.takeWhile (· ≠ x)) h
  have hdrop := congrArg (List.dropWhile (· ≠ x)) h
  rw [takeWhile_ne_append hs, takeWhile_ne_append hs'] at htake
  rw [dropWhile_ne_append hs, dropWhile_ne_append hs'] at hdrop
  exact ⟨htake, List.tail_eq_of_cons_eq hdrop⟩

/-- So is what stands after the last one. -/
theorem append_cons_inj_last (ht : x ∉ t) (ht' : x ∉ t') (h : s ++ x :: t = s' ++ x :: t') :
    s = s' ∧ t = t' := by
  have hr : t.reverse ++ x :: s.reverse = t'.reverse ++ x :: s'.reverse := by
    simpa using congrArg List.reverse h
  obtain ⟨htail, hhead⟩ := append_cons_inj_first (mt List.mem_reverse.1 ht)
    (mt List.mem_reverse.1 ht') hr
  exact ⟨List.reverse_injective hhead, List.reverse_injective htail⟩

/-- Lines without a line feed are found again. -/
theorem unlines_injective {lines lines' : List Text} (hn : ∀ line ∈ lines, '\n' ∉ line)
    (hn' : ∀ line ∈ lines', '\n' ∉ line) (h : unlines lines = unlines lines') :
    lines = lines' := by
  induction lines generalizing lines' with
  | nil =>
    cases lines' with
    | nil => rfl
    | cons line' lines' => simp [unlines] at h
  | cons line lines ih =>
    cases lines' with
    | nil => simp [unlines] at h
    | cons line' lines' =>
      obtain ⟨hline, hlines⟩ := List.forall_mem_cons.1 hn
      obtain ⟨hline', hlines'⟩ := List.forall_mem_cons.1 hn'
      have hcut : line ++ '\n' :: unlines lines = line' ++ '\n' :: unlines lines' := by
        simpa [unlines] using h
      obtain ⟨rfl, hrest⟩ := append_cons_inj_first hline hline' hcut
      rw [ih hlines hlines' hrest]

end Text

theorem Word.binary_injective {w w' : Word} (h : w.binary = w'.binary) : w = w' := by
  have hread := congrArg ofBinary? h
  rw [ofBinary?_binary, ofBinary?_binary] at hread
  exact Option.some.inj hread

theorem Instruction.mnemonic_injective {i j : Instruction} (h : i.mnemonic = j.mnemonic) :
    i = j := by
  have hread := congrArg ofMnemonic? h
  rw [ofMnemonic?_mnemonic, ofMnemonic?_mnemonic] at hread
  exact Option.some.inj hread

namespace Entry

theorem content_eq_iff {e e' : Entry} : e.content = e'.content ↔ e.word = e'.word ∧
    e.instruction.mnemonic = e'.instruction.mnemonic ∧ e.operand = e'.operand ∧
    e.resolved = e'.resolved := by
  simp only [content, Prod.mk.injEq]
  refine and_congr_right fun _ => and_congr_left fun _ => ?_
  exact ⟨congrArg _, Instruction.mnemonic_injective⟩

/-- The word tells the instruction, and the instruction which fields are shown. -/
structure WellFormed (e : Entry) : Prop where
  instruction : Instruction.ofWord? e.word = some e.instruction
  operand : e.operand.isSome = decide (e.instruction.format ≠ .bare)
  resolved : e.resolved.isSome =
    decide (e.instruction.format = .address ∨ e.instruction.format = .constant)

/-- The operand as it is shown after the mnemonic. -/
def operandField : Option Text → Text
  | none => []
  | some operand => ' ' :: operand

/-- The number that an operand stands for, as it is shown in brackets. -/
def resolvedField : Option Int → Text
  | none => []
  | some value => ' ' :: '(' :: (Numeral.decimal value ++ [')'])

theorem text_eq (e : Entry) :
    e.text = e.word.binary ++ (" / ".toList ++ (e.instruction.mnemonic ++
      (operandField e.operand ++ resolvedField e.resolved))) := by
  obtain ⟨i, w, operand, resolved, line⟩ := e
  cases operand <;> cases resolved <;> simp [text, operandField, resolvedField]

theorem bracket_notMem_number (value : Int) : '(' ∉ Numeral.decimal value ++ [')'] := by
  intro h
  rcases List.mem_append.1 h with h | h
  · exact absurd (Numeral.mem_decimal h) (by decide)
  · simp at h

/-- The number is found behind the last bracket that opens, and the operand before it. -/
theorem fields_injective {operand operand' : Option Text} {resolved resolved' : Option Int}
    (ho : operand.isSome = operand'.isSome) (hr : resolved.isSome = resolved'.isSome)
    (h : operandField operand ++ resolvedField resolved =
      operandField operand' ++ resolvedField resolved') :
    operand = operand' ∧ resolved = resolved' := by
  have hoperand : operandField operand = operandField operand' → operand = operand' := by
    cases operand <;> cases operand' <;> simp_all [operandField]
  cases resolved with
  | none =>
    cases resolved' with
    | none => exact ⟨hoperand (by simpa [resolvedField] using h), rfl⟩
    | some value' => cases hr
  | some value =>
    cases resolved' with
    | none => cases hr
    | some value' =>
      have hcut : (operandField operand ++ [' ']) ++ '(' :: (Numeral.decimal value ++ [')']) =
          (operandField operand' ++ [' ']) ++ '(' :: (Numeral.decimal value' ++ [')']) := by
        simpa [resolvedField] using h
      obtain ⟨hbefore, hnumber⟩ := Text.append_cons_inj_last (bracket_notMem_number value)
        (bracket_notMem_number value') hcut
      have hvalue := Numeral.decimal_injective (List.append_cancel_right hnumber)
      exact ⟨hoperand (List.append_cancel_right hbefore), congrArg some hvalue⟩

/-- A listing line is that of one entry only, apart from the line of the source. -/
theorem content_of_text {e e' : Entry} (he : e.WellFormed) (he' : e'.WellFormed)
    (h : e.text = e'.text) : e.content = e'.content := by
  rw [text_eq, text_eq] at h
  have hlength : e.word.binary.length = e'.word.binary.length := by simp [Word.binary]
  obtain ⟨hbinary, hrest⟩ := List.append_inj h hlength
  have hword := Word.binary_injective hbinary
  have hinstruction : e.instruction = e'.instruction := by
    have hi := he.instruction
    rw [hword, he'.instruction] at hi
    exact (Option.some.inj hi).symm
  rw [hinstruction] at hrest
  have hfields := List.append_cancel_left (List.append_cancel_left hrest)
  obtain ⟨hoperand, hresolved⟩ := fields_injective
    (by rw [he.operand, he'.operand, hinstruction])
    (by rw [he.resolved, he'.resolved, hinstruction]) hfields
  rw [content, content, hword, hinstruction, hoperand, hresolved]

end Entry

/-- What is encoded is well-formed: the fields that are shown go by the format. -/
theorem Operation.wellFormed_of_encode {symbols : SymbolTable} {o : Operation} {line : Nat}
    {e : Entry} (h : o.encode symbols line = .ok e) : e.WellFormed := by
  have hword := ofWord?_of_encode h
  cases hf : e.instruction.format with
  | bare =>
    obtain ⟨hoperand, hresolved, -⟩ := bare_of_encode h hf
    exact ⟨hword, by simp [hoperand, hf], by simp [hresolved, hf]⟩
  | byte =>
    obtain ⟨t, -, -, hresolved, -, -, -, hoperand⟩ := byte_reads_back h hf
    exact ⟨hword, by simp [hoperand, hf], by simp [hresolved, hf]⟩
  | address =>
    obtain ⟨t, a, -, hoperand, hresolved, -⟩ := address_reads_back h hf
    exact ⟨hword, by simp [hoperand, hf], by simp [hresolved, hf]⟩
  | constant =>
    obtain ⟨t, n, -, hoperand, hresolved, -⟩ := constant_reads_back h hf
    exact ⟨hword, by simp [hoperand, hf], by simp [hresolved, hf]⟩

namespace Program

variable {strict strict' : Bool} {source source' : Text} {p q : Program}

theorem listing_eq (p : Program) : p.listing = Text.unlines (p.entries.map Entry.text) := by
  rw [listing, Text.unlines, List.flatMap_map]

theorem wellFormed_of_assemble (h : assemble strict source = .ok p) :
    ∀ e ∈ p.entries, e.WellFormed := by
  intro e he
  obtain ⟨l, -, o, -, henc⟩ := line_of_mem_entries (passes_of_assemble h).2 he
  exact Operation.wellFormed_of_encode henc

theorem content_of_listing (hp : assemble strict source = .ok p)
    (hq : assemble strict' source' = .ok q) (h : p.listing = q.listing) :
    p.entries.map Entry.content = q.entries.map Entry.content := by
  have hline : ∀ {strict source} {r : Program}, assemble strict source = .ok r →
      ∀ line ∈ r.entries.map Entry.text, '\n' ∉ line := by
    intro strict source r hr line hmem
    obtain ⟨e, he, rfl⟩ := List.mem_map.1 hmem
    exact Entry.newline_notMem_text (newline_notMem_operand hr e he)
  rw [listing_eq, listing_eq] at h
  have htexts := Text.unlines_injective (hline hp) (hline hq) h
  rw [map_eq_map_iff_forall₂] at htexts ⊢
  have hwp := wellFormed_of_assemble hp
  have hwq := wellFormed_of_assemble hq
  generalize p.entries = es at htexts hwp
  generalize q.entries = es' at htexts hwq
  induction htexts with
  | nil => exact .nil
  | cons htext _ ih =>
    obtain ⟨he, hes⟩ := List.forall_mem_cons.1 hwp
    obtain ⟨he', hes'⟩ := List.forall_mem_cons.1 hwq
    exact .cons (Entry.content_of_text he he' htext) (ih hes hes')

/-- A listing is lossless. Two programs, of whatever sources and assembled under whatever rules,
have the same listing exactly if they have the same number of words and agree place by place on the
word, the mnemonic, the operand as it is shown and the number it stands for. So everything but the
line of the source can be told from the text, even if an operand looks like an operand and its
number. -/
theorem listing_lossless (hp : assemble strict source = .ok p)
    (hq : assemble strict' source' = .ok q) :
    p.listing = q.listing ↔ p.size = q.size ∧
      ∀ (k : Nat) (e e' : Entry), p.entries[k]? = some e → q.entries[k]? = some e' →
        e.word = e'.word ∧ e.instruction.mnemonic = e'.instruction.mnemonic ∧
          e.operand = e'.operand ∧ e.resolved = e'.resolved := by
  constructor
  · intro h
    have hcontent := content_of_listing hp hq h
    refine ⟨by simpa [size] using congrArg List.length hcontent, fun k e e' he he' => ?_⟩
    have hk := congrArg (·[k]?) hcontent
    simp only [List.getElem?_map, he, he', Option.map_some, Option.some.injEq] at hk
    exact Entry.content_eq_iff.1 hk
  · rintro ⟨hsize, hagree⟩
    refine listing_of_content (List.ext_getElem (by simpa [size] using hsize) fun k hk hk' => ?_)
    rw [List.length_map] at hk hk'
    rw [List.getElem_map, List.getElem_map]
    exact Entry.content_eq_iff.2
      (hagree k _ _ (List.getElem?_eq_getElem hk) (List.getElem?_eq_getElem hk'))

/-- A name that looks like a name and its address, in two layouts. -/
theorem listing_lossless_brackets :
    ∃ p q, assemble true "LODD a (5)\na (5):".toList = .ok p ∧
      assemble false "/ c\n\tlodd\ta (5) \n\na (5) :\n".toList = .ok q ∧
      p.listing = "0000111111111111 / LODD a (5) (4095)\n".toList ∧ p.listing = q.listing ∧
      p.size = q.size ∧
      ∀ (k : Nat) (e e' : Entry), p.entries[k]? = some e → q.entries[k]? = some e' →
        e.operand = e'.operand ∧ e.resolved = e'.resolved := by
  have hlisting : (assemble true "LODD a (5)\na (5):".toList).toOption.map listing =
      some "0000111111111111 / LODD a (5) (4095)\n".toList := by decide
  have hlisting' : (assemble false "/ c\n\tlodd\ta (5) \n\na (5) :\n".toList).toOption.map
      listing = some "0000111111111111 / LODD a (5) (4095)\n".toList := by decide
  obtain ⟨p, hp, htext⟩ := Option.map_eq_some_iff.1 hlisting
  obtain ⟨q, hq, htext'⟩ := Option.map_eq_some_iff.1 hlisting'
  have hsame := htext.trans htext'.symm
  obtain ⟨hsize, hagree⟩ :=
    (listing_lossless (ok_of_toOption hp) (ok_of_toOption hq)).1 hsame
  exact ⟨p, q, ok_of_toOption hp, ok_of_toOption hq, htext, hsame, hsize,
    fun k e e' he he' => (hagree k e e' he he').2.2⟩

end Program

end Mac1
