import Mac1.Source
import Mac1.Proofs.Text

/-!
What the lines of a source hold. Every token is cut out of a longer one, and its offset is that of
the longer one plus the bytes in front of it. So it has no character that its line does not have
and in particular no line feed; lines keep the order of their indices.
-/
namespace Mac1

namespace Token

/-- `t` stands in the text of `outer` and has its offset from there. -/
def Within (t outer : Token) : Prop :=
  ∃ before after, outer.text = before ++ t.text ++ after ∧
    t.start = outer.start + Text.byteLength before

theorem Within.refl (t : Token) : t.Within t := ⟨[], [], by simp, rfl⟩

theorem Within.trans {t u v : Token} (h : t.Within u) (h' : u.Within v) : t.Within v := by
  obtain ⟨before, after, htext, hstart⟩ := h
  obtain ⟨before', after', htext', hstart'⟩ := h'
  refine ⟨before' ++ before, after ++ after', ?_, ?_⟩
  · rw [htext', htext]
    simp only [List.append_assoc]
  · rw [hstart, hstart', Text.byteLength_append, Nat.add_assoc]

theorem Within.subset {t outer : Token} (h : t.Within outer) : t.text ⊆ outer.text := by
  obtain ⟨before, after, htext, -⟩ := h
  intro c hc
  rw [htext]
  exact List.mem_append_left _ (List.mem_append_right _ hc)

/-- The place of a token can be counted on from the span of what it stands in. -/
theorem Within.span_eq {t outer : Token} (h : t.Within outer) :
    ∃ before after, outer.text = before ++ t.text ++ after ∧
      t.start = outer.start + Text.byteLength before ∧
      t.span = Span.ofBytes (outer.span.start.toNat + Text.byteLength before)
        t.text.byteLength := by
  obtain ⟨before, after, htext, hstart⟩ := h
  refine ⟨before, after, htext, hstart, ?_⟩
  rw [ofBytes_span_add, ← hstart]
  rfl

/-- Trimming takes away blanks on both sides and counts those on the left. -/
theorem trimmed_within (start : Nat) (text : Text) : (trimmed start text).Within ⟨start, text⟩ := by
  obtain ⟨after, -, hafter⟩ := Text.exists_trimRight text.trimLeft
  refine ⟨text.takeWhile isBlank, after, ?_, rfl⟩
  calc text = text.takeWhile isBlank ++ text.trimLeft := List.takeWhile_append_dropWhile.symm
    _ = text.takeWhile isBlank ++ (text.trim ++ after) := by rw [Text.trim, ← hafter]
    _ = _ := (List.append_assoc ..).symm

end Token

namespace Statement

/-- Without a colon the whole line is an instruction. -/
theorem ofToken_plain {whole : Token} (h : ':' ∉ whole.text) :
    ofToken whole = .instruction none whole := by
  rw [ofToken, Text.dropWhile_ne_eq_nil h]

/-- The first colon divides a line into its label and its body. -/
theorem ofToken_colon {start : Nat} {before after : Text} (h : ':' ∉ before) :
    ofToken ⟨start, before ++ ':' :: after⟩ =
      let body := Token.trimmed (start + Text.byteLength before + 1) after
      if body.text = [] then .variable (Token.trimmed start before)
      else .instruction (some (Token.trimmed start before)) body := by
  simp only [ofToken, Text.dropWhile_ne_append h, Text.takeWhile_ne_append h]

/-- The label and the body stand in their line; the colon between them is one byte. -/
theorem ofToken_within (whole : Token) :
    match ofToken whole with
    | .variable name => name.Within whole
    | .instruction label body => body.Within whole ∧ ∀ name ∈ label, name.Within whole := by
  obtain ⟨start, text⟩ := whole
  by_cases hc : ':' ∈ text
  · obtain ⟨before, after, rfl, hb⟩ := List.eq_append_cons_of_mem hc
    have hname : (Token.trimmed start before).Within ⟨start, before ++ ':' :: after⟩ :=
      (Token.trimmed_within start before).trans ⟨[], ':' :: after, rfl, rfl⟩
    have hbody : (Token.trimmed (start + Text.byteLength before + 1) after).Within
        ⟨start, before ++ ':' :: after⟩ := by
      refine (Token.trimmed_within _ after).trans ⟨before ++ [':'], [], by simp, ?_⟩
      rw [Text.byteLength_append, ← Nat.add_assoc]
      rfl
    rw [ofToken_colon hb]
    dsimp only
    split
    · rename_i name he
      split at he
      · cases he
        exact hname
      · cases he
    · rename_i label body he
      split at he
      · cases he
      · cases he
        refine ⟨hbody, fun name hn => ?_⟩
        cases hn
        exact hname
  · rw [ofToken_plain hc]
    exact ⟨.refl _, by simp⟩

end Statement

/-- The mnemonic starts the body, and the operand follows it. -/
theorem Operation.ofBody_within (body : Token) :
    (Operation.ofBody body).mnemonic.Within body ∧
      ∀ t ∈ (Operation.ofBody body).operand, t.Within body := by
  have hsplit : body.text = body.text.takeWhile (!isBlank ·) ++ body.text.dropWhile (!isBlank ·) :=
    List.takeWhile_append_dropWhile.symm
  refine ⟨⟨[], body.text.dropWhile (!isBlank ·), hsplit, rfl⟩, ?_⟩
  intro t ht
  simp only [Operation.ofBody] at ht
  split at ht
  · cases ht
  · cases ht
    refine (Token.trimmed_within _ _).trans ⟨body.text.takeWhile (!isBlank ·), [], ?_, rfl⟩
    rw [List.append_nil]
    exact hsplit

namespace Line

/-- Everything that a line says is read off its trimmed text. -/
theorem read?_eq_some {index start : Nat} {raw : Text} {l : Line}
    (h : read? index start raw = some l) :
    l = ⟨index, Token.trimmed start raw, Statement.ofToken (Token.trimmed start raw)⟩ := by
  unfold read? at h
  dsimp only at h
  split at h
  · cases h
  · cases h
  · exact (Option.some.inj h).symm

/-- Every line is read at its own index and offset, which count the lines before it. -/
theorem mem_readFrom {index start : Nat} {raws : List Text} {l : Line}
    (h : l ∈ readFrom index start raws) :
    ∃ before raw after, raws = before ++ raw :: after ∧
      read? (index + before.length) (start + (Text.unlines before).byteLength) raw = some l := by
  induction raws generalizing index start with
  | nil => cases h
  | cons raw rest ih =>
    have later (hl : l ∈ readFrom (index + 1) (start + raw.byteLength + 1) rest) :
        ∃ before raw' after, raw :: rest = before ++ raw' :: after ∧
          read? (index + before.length) (start + (Text.unlines before).byteLength) raw' =
            some l := by
      obtain ⟨before, raw', after, rfl, hread⟩ := ih hl
      refine ⟨raw :: before, raw', after, rfl, ?_⟩
      rw [List.length_cons, Text.byteLength_unlines_cons]
      rw [← hread]
      congr 1 <;> omega
    rw [readFrom_cons, List.mem_append, Option.mem_toList] at h
    rcases h with hline | h
    · exact ⟨[], raw, rest, rfl, hline⟩
    · exact later h

/-- The line is read off its own trimmed text, which holds no line feed. -/
theorem mem_readAll {source : Text} {l : Line} (h : l ∈ readAll source) :
    l.statement = Statement.ofToken l.whole ∧ '\n' ∉ l.whole.text := by
  obtain ⟨before, raw, after, hraws, hread⟩ := mem_readFrom h
  have hraw : raw ∈ source.splitOn '\n' := by simp [hraws]
  rw [read?_eq_some hread]
  refine ⟨rfl, fun hn => ?_⟩
  exact Text.newline_notMem_of_mem_splitOn hraw ((Token.trimmed_within _ raw).subset hn)

theorem label_within {source : Text} {l : Line} (h : l ∈ readAll source) {name : Token}
    (hname : l.label? = some name) : name.Within l.whole := by
  have hwithin := Statement.ofToken_within l.whole
  rw [← (mem_readAll h).1] at hwithin
  cases hst : l.statement with
  | «variable» n =>
    rw [hst] at hwithin
    rw [label?_of_variable hst] at hname
    cases hname
    exact hwithin
  | instruction label body =>
    rw [hst] at hwithin
    rw [label?_of_instruction hst] at hname
    exact hwithin.2 name hname

theorem operation_within {source : Text} {l : Line} (h : l ∈ readAll source) {o : Operation}
    (ho : l.operation? = some o) :
    o.mnemonic.Within l.whole ∧ ∀ t ∈ o.operand, t.Within l.whole := by
  have hwithin := Statement.ofToken_within l.whole
  rw [← (mem_readAll h).1] at hwithin
  cases hst : l.statement with
  | «variable» n =>
    rw [operation?_of_variable hst] at ho
    cases ho
  | instruction label body =>
    rw [hst] at hwithin
    rw [operation?_of_instruction hst] at ho
    cases ho
    obtain ⟨hmnemonic, hoperand⟩ := Operation.ofBody_within body
    exact ⟨hmnemonic.trans hwithin.1, fun t ht => (hoperand t ht).trans hwithin.1⟩

theorem newline_notMem_label {source : Text} {l : Line} (h : l ∈ readAll source) {name : Token}
    (hname : l.label? = some name) : '\n' ∉ name.text :=
  fun hn => (mem_readAll h).2 ((label_within h hname).subset hn)

theorem newline_notMem_operation {source : Text} {l : Line} (h : l ∈ readAll source)
    {o : Operation} (ho : l.operation? = some o) :
    '\n' ∉ o.mnemonic.text ∧ ∀ t ∈ o.operand, '\n' ∉ t.text := by
  obtain ⟨hmnemonic, hoperand⟩ := operation_within h ho
  have hn := (mem_readAll h).2
  exact ⟨fun hm => hn (hmnemonic.subset hm), fun t ht hm => hn ((hoperand t ht).subset hm)⟩

theorem le_index_of_mem_readFrom {index start : Nat} {raws : List Text} {l : Line}
    (h : l ∈ readFrom index start raws) : index ≤ l.index := by
  induction raws generalizing index start with
  | nil => cases h
  | cons raw rest ih =>
    rw [readFrom_cons, List.mem_append, Option.mem_toList] at h
    rcases h with hline | h
    · rw [read?_eq_some hline]
    · exact Nat.le_of_succ_le (ih h)

theorem pairwise_readFrom (index start : Nat) (raws : List Text) :
    (readFrom index start raws).Pairwise (·.index < ·.index) := by
  induction raws generalizing index start with
  | nil => exact .nil
  | cons raw rest ih =>
    rw [readFrom_cons, List.pairwise_append]
    refine ⟨?_, ih .., fun line hline l hl => ?_⟩
    · cases read? index start raw <;> simp
    · have hi : line.index = index := by rw [read?_eq_some (Option.mem_toList.1 hline)]
      have hle := le_index_of_mem_readFrom hl
      omega

/-- The lines of a source have ascending indices. -/
theorem pairwise_readAll (source : Text) : (readAll source).Pairwise (·.index < ·.index) :=
  pairwise_readFrom ..

end Line

theorem Token.trimmed_solid (start : Nat) {t : Text} (h : t.Solid) :
    trimmed start t = ⟨start, t⟩ := by
  rw [trimmed, h.takeWhile_eq, h.trim_eq]
  rfl

namespace Operation

/-- A body without a blank is a mnemonic. -/
theorem ofBody_word {start : Nat} {name : Text} (h : ∀ c ∈ name, isBlank c = false) :
    ofBody ⟨start, name⟩ = ⟨⟨start, name⟩, none⟩ := by
  have htake : name.takeWhile (!isBlank ·) = name := by
    rw [List.takeWhile_eq_self_iff]
    intro c hc
    simp [h c hc]
  have hdrop : name.dropWhile (!isBlank ·) = [] := by
    rw [List.dropWhile_eq_nil_iff]
    intro c hc
    simp [h c hc]
  rw [ofBody, htake, hdrop]
  rfl

/-- The first run of blanks divides a body into its mnemonic and its operand. -/
theorem ofBody_gap {start : Nat} {name gap operand : Text} (h : ∀ c ∈ name, isBlank c = false)
    (hgap : ∀ c ∈ gap, isBlank c = true) (hne : gap ≠ []) (ho : operand.Solid)
    (ho' : operand ≠ []) :
    ofBody ⟨start, name ++ (gap ++ operand)⟩ =
      ⟨⟨start, name⟩, some ⟨start + name.byteLength + gap.byteLength, operand⟩⟩ := by
  have hname : ∀ c ∈ name, (!isBlank c) = true := fun c hc => by simp [h c hc]
  have htake : (name ++ (gap ++ operand)).takeWhile (!isBlank ·) = name := by
    obtain ⟨g, gap, rfl⟩ := List.exists_cons_of_ne_nil hne
    rw [List.takeWhile_append_of_pos hname]
    simp [hgap g (List.mem_cons_self ..)]
  have hdrop : (name ++ (gap ++ operand)).dropWhile (!isBlank ·) = gap ++ operand := by
    obtain ⟨g, gap, rfl⟩ := List.exists_cons_of_ne_nil hne
    rw [List.dropWhile_append_of_pos hname]
    simp [hgap g (List.mem_cons_self ..)]
  have htrim : Text.trim (gap ++ operand) = operand := by
    simpa using ho.trim_padded (a := []) hgap (by simp)
  have hblanks : (gap ++ operand).takeWhile isBlank = gap := by
    rw [List.takeWhile_append_of_pos hgap, ho.takeWhile_eq, List.append_nil]
  simp only [ofBody, htake, hdrop, Token.trimmed, htrim, hblanks, if_neg ho']

end Operation

namespace Line

theorem read?_solid {raw : Text} (index start : Nat) (hs : raw.Solid) (hne : raw ≠ [])
    (hslash : raw.head? ≠ some '/') :
    read? index start raw = some ⟨index, ⟨start, raw⟩, Statement.ofToken ⟨start, raw⟩⟩ := by
  rw [read?, Token.trimmed_solid start hs]
  dsimp only
  split
  · exact absurd rfl hne
  · exact absurd rfl hslash
  · rfl

theorem readFrom_cons_some {index start : Nat} {raw : Text} {l : Line}
    (h : read? index start raw = some l) (rest : List Text) :
    readFrom index start (raw :: rest) =
      l :: readFrom (index + 1) (start + raw.byteLength + 1) rest := by
  rw [readFrom_cons, h]
  rfl

/-- Reading goes on after the first lines as if it began there. -/
theorem readFrom_append (index start : Nat) (xs ys : List Text) :
    readFrom index start (xs ++ ys) = readFrom index start xs ++
      readFrom (index + xs.length) (start + (Text.unlines xs).byteLength) ys := by
  induction xs generalizing index start with
  | nil => rfl
  | cons raw xs ih =>
    have hindex : index + (raw :: xs).length = index + 1 + xs.length := by
      rw [List.length_cons, Nat.add_right_comm, Nat.add_assoc]
    have hstart : start + (Text.unlines (raw :: xs)).byteLength =
        start + raw.byteLength + 1 + (Text.unlines xs).byteLength := by
      rw [Text.byteLength_unlines_cons]
      omega
    rw [List.cons_append, readFrom_cons, readFrom_cons, ih, hindex, hstart, List.append_assoc]

end Line

end Mac1
