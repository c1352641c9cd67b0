import Mac1.Proofs.Layout
import Mac1.Proofs.Positions

/-!
Tokens partition their lines. A line that says something is its whole text between blanks; the whole
text is a label, a colon and a body with blanks between them, or a body alone; a body is a mnemonic,
or a mnemonic, blanks and an operand. The rules are stated apart from the reader, and with the place
of every token in the source. They hold of the lines that are read and of no others, so a line is
divided in one way only.
-/
namespace Mac1

namespace Text

/-- `raw` is a line of the source, after `lead` and before `tail`: line feeds bound it, or the ends
of the source, and none is in it. -/
structure HasLine (source lead raw tail : Text) : Prop where
  eq_append : source = lead ++ raw ++ tail
  newline_notMem : '\n' ∉ raw
  last_lead : ∀ c ∈ lead.getLast?, c = '\n'
  head_tail : ∀ c ∈ tail.head?, c = '\n'

theorem last_unlines (lines : List Text) : ∀ c ∈ (unlines lines).getLast?, c = '\n' := by
  intro c hc
  rcases List.eq_nil_or_concat' lines with rfl | ⟨lines, line, rfl⟩
  · cases hc
  · have hend : unlines (lines ++ [line]) = unlines lines ++ line ++ ['\n'] := by simp [unlines]
    rw [hend, List.getLast?_concat] at hc
    exact (Option.some.inj hc).symm

theorem exists_hasLine {source raw : Text} {before after : List Text}
    (h : source.splitOn '\n' = before ++ raw :: after) :
    ∃ tail, source.HasLine (unlines before) raw tail := by
  have hsource : List.intercalate ['\n'] (source.splitOn '\n') = source :=
    List.intercalate_splitOn '\n'
  obtain ⟨rest, hrest, hhead⟩ := intercalate_newline before raw after
  refine ⟨rest, ?_, newline_notMem_of_mem_splitOn (t := source) (by simp [h]), last_unlines before,
    hhead⟩
  rw [← hrest, ← h, hsource]

/-- A line without a line feed is the first of its text. -/
theorem splitOn_line {raw tail : Text} (hraw : '\n' ∉ raw) (htail : ∀ c ∈ tail.head?, c = '\n') :
    ∃ after, (raw ++ tail).splitOn '\n' = raw :: after := by
  cases tail with
  | nil => exact ⟨[], by rw [List.append_nil, List.splitOn_eq_singleton hraw]⟩
  | cons c tail =>
    obtain rfl : c = '\n' := htail c rfl
    exact ⟨tail.splitOn '\n', by
      rw [List.splitOn_append_cons_self, List.splitOn_eq_singleton hraw, List.singleton_append]⟩

theorem HasLine.exists_splitOn {source lead raw tail : Text} (h : source.HasLine lead raw tail) :
    ∃ before after, source.splitOn '\n' = before ++ raw :: after ∧ lead = unlines before := by
  obtain ⟨after, hafter⟩ := splitOn_line h.newline_notMem h.head_tail
  rcases List.eq_nil_or_concat' lead with rfl | ⟨first, c, rfl⟩
  · exact ⟨[], after, by rw [h.eq_append]; exact hafter, rfl⟩
  · obtain rfl : c = '\n' := h.last_lead c List.getLast?_concat
    refine ⟨first.splitOn '\n', after, ?_, (unlines_splitOn first).symm⟩
    have hsource : source = first ++ '\n' :: (raw ++ tail) := by
      rw [h.eq_append]
      simp
    rw [hsource, List.splitOn_append_cons_self, hafter]

/-- The line feeds before a line count the lines before it. -/
theorem count_newline_lead {source raw : Text} {before after : List Text}
    (h : source.splitOn '\n' = before ++ raw :: after) :
    (unlines before).count '\n' = before.length :=
  count_newline_unlines fun line hline =>
    newline_notMem_of_mem_splitOn (t := source) (by simp [h, hline])

/-- A line is found from the number of line feeds before it. -/
theorem HasLine.raw_eq {source lead raw tail lead' raw' tail' : Text}
    (h : source.HasLine lead raw tail) (h' : source.HasLine lead' raw' tail')
    (hcount : lead.count '\n' = lead'.count '\n') : raw = raw' := by
  obtain ⟨before, after, hsplit, rfl⟩ := h.exists_splitOn
  obtain ⟨before', after', hsplit', rfl⟩ := h'.exists_splitOn
  rw [count_newline_lead hsplit, count_newline_lead hsplit'] at hcount
  rw [hsplit] at hsplit'
  exact (List.cons.inj (List.append_inj hsplit' hcount).2).1

/-- A line says nothing if it is blank or if a slash comes first in it. -/
theorem isSpoken_eq_false_iff {raw : Text} :
    raw.isSpoken = false ↔ raw.Blanks ∨ ∃ a rest, a.Blanks ∧ raw = a ++ '/' :: rest := by
  rw [isSpoken]
  cases hfind : raw.find? (!isBlank ·) with
  | none =>
    have hblanks : raw.Blanks := fun c hc => by simpa using List.find?_eq_none.1 hfind c hc
    simp [hblanks]
  | some c =>
    obtain ⟨hc, a, rest, hraw, ha⟩ := List.find?_eq_some_iff_append.1 hfind
    have hnot : ¬raw.Blanks := by
      intro hblanks
      have hblank := hblanks c (by simp [hraw])
      simp [hblank] at hc
    constructor
    · intro hslash
      obtain rfl : c = '/' := by simpa using hslash
      exact .inr ⟨a, rest, fun d hd => by simpa using ha d hd, hraw⟩
    · rintro (hblanks | ⟨a, rest, ha, rfl⟩)
      · exact absurd hblanks hnot
      · have hslash : (a ++ '/' :: rest).find? (!isBlank ·) = some '/' :=
          List.find?_eq_some_iff_append.2
            ⟨by decide, a, rest, rfl, fun d hd => by simp [ha d hd]⟩
        rw [hslash] at hfind
        cases hfind
        rfl

/-- No blank stands at the ends of a solid text. -/
theorem Solid.eq_nil_of_blanks_append {a t : Text} (h : Solid (a ++ t)) (ha : a.Blanks) :
    a = [] := by
  cases a with
  | nil => rfl
  | cons c a =>
    have hblank := ha c List.mem_cons_self
    rw [h.head c rfl] at hblank
    cases hblank

theorem Solid.eq_nil_of_append_blanks {t b : Text} (h : Solid (t ++ b)) (hb : b.Blanks) :
    b = [] := by
  rcases List.eq_nil_or_concat' b with rfl | ⟨b, c, rfl⟩
  · rfl
  · have hblank := hb c (by simp)
    rw [h.last c (by simp)] at hblank
    cases hblank

end Text

namespace Token

/-- The token stands in the source right after `lead`. Its span starts at the number of bytes before
it modulo 2³², and is as long as its text up to 65535 bytes. -/
structure StandsAfter (source lead : Text) (t : Token) : Prop where
  stands : lead ++ t.text <+: source
  start_eq : t.start = lead.byteLength
  span_start : t.span.start.toNat = lead.byteLength % 0x100000000
  span_length : t.span.length.toNat = min t.text.byteLength 65535

variable {source lead : Text} {t : Token}

theorem standsAfter_iff :
    t.StandsAfter source lead ↔ lead ++ t.text <+: source ∧ t.start = lead.byteLength := by
  constructor
  · intro h
    exact ⟨h.stands, h.start_eq⟩
  · rintro ⟨hstands, hstart⟩
    exact ⟨hstands, hstart, hstart ▸ t.toNat_start_span, t.toNat_length_span⟩

theorem StandsAfter.eq_mk (h : t.StandsAfter source lead) : t = ⟨lead.byteLength, t.text⟩ := by
  rw [← h.start_eq]

/-- A piece of a token stands in the source as well. -/
theorem StandsAfter.piece {outer : Token} (h : outer.StandsAfter source lead) (before after : Text)
    (htext : outer.text = before ++ t.text ++ after)
    (hstart : t.start = outer.start + before.byteLength) :
    t.StandsAfter source (lead ++ before) := by
  obtain ⟨rest, hrest⟩ := h.stands
  refine standsAfter_iff.2 ⟨⟨after ++ rest, ?_⟩, ?_⟩
  · rw [← hrest, htext]
    simp only [List.append_assoc]
  · rw [hstart, h.start_eq, Text.byteLength_append]

/-- Trimming finds a text between blanks and counts the blanks before it. -/
theorem trimmed_padded {a text b : Text} (ha : a.Blanks) (htext : text.Solid) (hb : b.Blanks)
    (hne : text = [] → b = []) (start : Nat) :
    trimmed start (a ++ text ++ b) = ⟨start + a.byteLength, text⟩ := by
  have hblanks : (a ++ text ++ b).takeWhile isBlank = a := by
    rw [List.append_assoc, List.takeWhile_append_of_pos ha]
    cases text with
    | nil =>
      rw [hne rfl]
      exact List.append_nil a
    | cons c text =>
      rw [List.cons_append, List.takeWhile_cons_of_neg (by simp [htext.head c rfl]),
        List.append_nil]
  rw [trimmed, hblanks, htext.trim_padded ha hb]

end Token

/-- The tokens of an operation partition its body, which stands right after `lead`: the body is the
mnemonic, or the mnemonic, blanks and the operand. -/
inductive Operation.Partitions (source lead : Text) : Text → Operation → Prop where
  | mnemonic {name : Token} (hname : name.StandsAfter source lead) (hne : name.text ≠ [])
      (hblank : ∀ c ∈ name.text, isBlank c = false) :
      Partitions source lead name.text ⟨name, none⟩
  | operand {name operand : Token} {gap : Text} (hname : name.StandsAfter source lead)
      (hne : name.text ≠ []) (hblank : ∀ c ∈ name.text, isBlank c = false) (hgap : gap.Blanks)
      (hgap' : gap ≠ []) (hoperand : operand.StandsAfter source (lead ++ name.text ++ gap))
      (hsolid : operand.text.Solid) (hne' : operand.text ≠ []) :
      Partitions source lead (name.text ++ (gap ++ operand.text)) ⟨name, some operand⟩

/-- The label and the body partition the whole text of a line, which stands right after `lead`. With
a colon in it, the whole text is the label, the first colon and the body, if there is one, with
blanks around the colon; without a colon it is the body. The operation partitions the body. -/
inductive Statement.Partitions (source lead : Text) :
    Text → Statement → Option Operation → Prop where
  | plain {body : Token} {o : Operation} (hbody : body.StandsAfter source lead)
      (hcolon : ':' ∉ body.text) (hsolid : body.text.Solid) (hne : body.text ≠ [])
      (ho : o.Partitions source lead body.text) :
      Partitions source lead body.text (.instruction none body) (some o)
  | labelled {label body : Token} {o : Operation} {b c : Text}
      (hlabel : label.StandsAfter source lead) (hcolon : ':' ∉ label.text)
      (hsolid : label.text.Solid) (hb : b.Blanks) (hc : c.Blanks)
      (hbody : body.StandsAfter source (lead ++ label.text ++ b ++ ':' :: c))
      (hsolid' : body.text.Solid) (hne : body.text ≠ [])
      (ho : o.Partitions source (lead ++ label.text ++ b ++ ':' :: c) body.text) :
      Partitions source lead (label.text ++ b ++ ':' :: (c ++ body.text))
        (.instruction (some label) body) (some o)
  | variable {label : Token} {b : Text} (hlabel : label.StandsAfter source lead)
      (hcolon : ':' ∉ label.text) (hsolid : label.text.Solid) (hb : b.Blanks) :
      Partitions source lead (label.text ++ b ++ [':']) (.variable label) none

/-- The whole text of the line stands right after `lead`, is no comment, and is partitioned. -/
structure Line.Partitions (source lead : Text) (l : Line) (o : Option Operation) : Prop where
  whole : l.whole.StandsAfter source lead
  solid : l.whole.text.Solid
  ne_nil : l.whole.text ≠ []
  not_comment : l.whole.text.head? ≠ some '/'
  statement : l.statement.Partitions source lead l.whole.text o

section Rules

variable {source lead : Text}

/-- A text without outer blanks is a word, or a word, blanks and a further text. -/
theorem Text.Solid.operation_cases {t : Text} (h : t.Solid) (hne : t ≠ []) :
    (∀ c ∈ t, isBlank c = false) ∨
      ∃ name gap operand : Text, t = name ++ (gap ++ operand) ∧ name ≠ [] ∧
        (∀ c ∈ name, isBlank c = false) ∧ gap.Blanks ∧ gap ≠ [] ∧ operand.Solid ∧
        operand ≠ [] := by
  have htrim : t.trim ≠ [] := by rwa [h.trim_eq]
  obtain ⟨o, ho⟩ := exists_writtenBody htrim
  cases ho with
  | word ha hd hne' hname =>
    have hword := (Text.Solid.of_forall hname).trim_padded ha hd
    rw [h.trim_eq] at hword
    rw [hword]
    exact .inl hname
  | @operand a name gap operand d ha hd hne' hname hgap hgap' ho ho' =>
    have hform : Text.Solid (name ++ (gap ++ operand)) := solid_operation hne' hname ho ho'
    have hwords := hform.trim_padded ha hd
    rw [h.trim_eq] at hwords
    exact .inr ⟨name, gap, operand, hwords, hne', hname, hgap, hgap', ho, ho'⟩

/-- The operation that is read is the one that partitions the body. -/
theorem Operation.partitions_iff {body : Token} (hbody : body.StandsAfter source lead)
    (hsolid : body.text.Solid) (hne : body.text ≠ []) {o : Operation} :
    o.Partitions source lead body.text ↔ ofBody body = o := by
  obtain ⟨start, text⟩ := body
  obtain rfl : start = lead.byteLength := hbody.start_eq
  constructor
  · intro h
    cases h with
    | mnemonic hname _ hblank => rw [ofBody_word hblank, ← hname.eq_mk]
    | operand hname _ hblank hgap hgap' hoperand ho ho' =>
      refine (ofBody_gap hblank hgap hgap' ho ho').trans ?_
      rw [← hname.eq_mk, hoperand.eq_mk, Text.byteLength_append, Text.byteLength_append]
  · rintro rfl
    rcases hsolid.operation_cases hne with hblank | ⟨name, gap, operand, rfl, hn, hname, hgap,
      hgap', ho, ho'⟩
    · rw [ofBody_word hblank]
      exact .mnemonic hbody hne hblank
    · rw [ofBody_gap hname hgap hgap' ho ho']
      have hfirst : Token.StandsAfter source lead ⟨lead.byteLength, name⟩ := by
        simpa using hbody.piece [] (gap ++ operand) rfl rfl
      have hsecond : Token.StandsAfter source (lead ++ name ++ gap)
          ⟨lead.byteLength + name.byteLength + gap.byteLength, operand⟩ := by
        rw [List.append_assoc]
        exact hbody.piece (name ++ gap) [] (by simp) (by simp [Nat.add_assoc])
      exact .operand hfirst hn hname hgap hgap' hsecond ho ho'

/-- A colon is one byte. -/
theorem Text.byteLength_append_colon (s t : Text) :
    Text.byteLength (s ++ ':' :: t) = s.byteLength + 1 + t.byteLength := by
  rw [Text.byteLength_append, Text.byteLength_cons, ← Nat.add_assoc]
  rfl

/-- A text without outer blanks is cut at its first colon, with blanks only beside the colon. -/
theorem Text.Solid.exists_label {t : Text} (h : t.Solid) (hcolon : ':' ∈ t) :
    ∃ label b c rest : Text, t = label ++ b ++ ':' :: (c ++ rest) ∧ ':' ∉ label ∧ label.Solid ∧
      b.Blanks ∧ c.Blanks ∧ rest.Solid := by
  obtain ⟨before, after, rfl, hnone⟩ : ∃ s u : Text, t = s ++ ':' :: u ∧ ':' ∉ s :=
    List.eq_append_cons_of_mem hcolon
  obtain ⟨a, b, ha, hb, hbefore⟩ := Text.exists_padding before
  obtain ⟨c, d, hc, hd, hafter⟩ := Text.exists_padding after
  have hlabel : ':' ∉ before.trim := by
    intro hmem
    apply hnone
    rw [hbefore]
    simp [hmem]
  have hleft : a = [] := by
    rw [hbefore, List.append_assoc, List.append_assoc] at h
    exact h.eq_nil_of_blanks_append ha
  have hright : d = [] := by
    rw [hafter, ← List.cons_append, ← List.append_assoc] at h
    exact h.eq_nil_of_append_blanks hd
  rw [hleft, List.nil_append] at hbefore
  rw [hright, List.append_nil] at hafter
  refine ⟨before.trim, b, c, after.trim, ?_, hlabel, Text.solid_trim before, hb, hc,
    Text.solid_trim after⟩
  rw [← hbefore, ← hafter]

/-- The first colon of a text without outer blanks gives the label before it and the body after it,
with the bytes before each. -/
theorem Statement.ofToken_solid {start : Nat} {label b c rest : Text}
    (h : Text.Solid (label ++ b ++ ':' :: (c ++ rest))) (hcolon : ':' ∉ label)
    (hlabel : label.Solid) (hb : b.Blanks) (hc : c.Blanks) (hrest : rest.Solid) :
    ofToken ⟨start, label ++ b ++ ':' :: (c ++ rest)⟩ =
      if rest = [] then .variable ⟨start, label⟩
      else .instruction (some ⟨start, label⟩)
        ⟨start + (label ++ b).byteLength + 1 + c.byteLength, rest⟩ := by
  have hbefore : ':' ∉ label ++ b := by simp [hcolon, colon_notMem_blanks hb]
  have hname : Token.trimmed start (label ++ b) = ⟨start, label⟩ := by
    have hnil : label = [] → b = [] := by
      rintro rfl
      exact h.eq_nil_of_blanks_append hb
    simpa using Token.trimmed_padded (a := []) (by simp [Text.Blanks]) hlabel hb hnil start
  have hbody : ∀ first, Token.trimmed first (c ++ rest) = ⟨first + c.byteLength, rest⟩ := by
    intro first
    simpa using Token.trimmed_padded (b := []) hc hrest (by simp [Text.Blanks]) (by simp) first
  rw [ofToken_colon hbefore, hname, hbody]

/-- What partitions the whole text of a line is read from it. -/
theorem Statement.Partitions.eq_ofToken {text : Text} {s : Statement} {o : Option Operation}
    (h : s.Partitions source lead text o) (hwhole : text.Solid) (index : Nat) (whole : Token) :
    ofToken ⟨lead.byteLength, text⟩ = s ∧ (⟨index, whole, s⟩ : Line).operation? = o := by
  cases h with
  | plain hbody hcolon hsolid hne ho =>
    refine ⟨?_, congrArg some ((Operation.partitions_iff hbody hsolid hne).1 ho)⟩
    rw [← hbody.eq_mk, ofToken_plain hcolon]
  | @labelled label body o b c hlabel hcolon hsolid hb hc hbody hsolid' hne ho =>
    refine ⟨?_, congrArg some ((Operation.partitions_iff hbody hsolid' hne).1 ho)⟩
    have hstart : lead.byteLength + (label.text ++ b).byteLength + 1 + c.byteLength =
        body.start := by
      rw [hbody.start_eq, Text.byteLength_append_colon, List.append_assoc,
        Text.byteLength_append lead]
    refine (ofToken_solid hwhole hcolon hsolid hb hc hsolid').trans ?_
    rw [if_neg hne, ← hlabel.eq_mk, hstart]
  | «variable» hlabel hcolon hsolid hb =>
    refine ⟨?_, rfl⟩
    have hnil : Text.Solid [] := ⟨by simp, by simp⟩
    refine (ofToken_solid (c := []) hwhole hcolon hsolid hb (by simp [Text.Blanks]) hnil).trans ?_
    rw [if_pos rfl, ← hlabel.eq_mk]

/-- What is read from the whole text of a line partitions it. -/
theorem Statement.partitions_ofToken {whole : Token} (hwhole : whole.StandsAfter source lead)
    (hsolid : whole.text.Solid) (hne : whole.text ≠ []) (index : Nat) :
    (ofToken whole).Partitions source lead whole.text
      (⟨index, whole, ofToken whole⟩ : Line).operation? := by
  obtain ⟨start, text⟩ := whole
  obtain rfl : start = lead.byteLength := hwhole.start_eq
  by_cases hcolon : ':' ∈ text
  · obtain ⟨label, b, c, rest, rfl, hnone, hlabel, hb, hc, hrest⟩ := hsolid.exists_label hcolon
    have hname : Token.StandsAfter source lead ⟨lead.byteLength, label⟩ := by
      simpa using hwhole.piece [] (b ++ ':' :: (c ++ rest)) (by simp) rfl
    rw [ofToken_solid hsolid hnone hlabel hb hc hrest]
    by_cases hnil : rest = []
    · subst hnil
      have hend : c = [] := by
        have hform : label ++ b ++ ':' :: (c ++ []) = label ++ b ++ [':'] ++ c := by simp
        rw [hform] at hsolid
        exact hsolid.eq_nil_of_append_blanks hc
      subst hend
      exact .variable hname hnone hlabel hb
    · have hbody : Token.StandsAfter source (lead ++ label ++ b ++ ':' :: c)
          ⟨lead.byteLength + (label ++ b).byteLength + 1 + c.byteLength, rest⟩ := by
        have hlead : lead ++ label ++ b ++ ':' :: c = lead ++ (label ++ b ++ ':' :: c) := by simp
        rw [hlead]
        refine hwhole.piece _ [] (by simp) ?_
        rw [Text.byteLength_append_colon, ← Nat.add_assoc, ← Nat.add_assoc]
      rw [if_neg hnil]
      exact .labelled hname hnone hlabel hb hc hbody hrest hnil
        ((Operation.partitions_iff hbody hrest hnil).2 rfl)
  · rw [ofToken_plain hcolon]
    exact .plain hwhole hcolon hsolid hne ((Operation.partitions_iff hwhole hsolid hne).2 rfl)

end Rules

namespace Line

/-- A line is read with the line feeds and the bytes before it. -/
theorem mem_readAll_iff {source : Text} {l : Line} :
    l ∈ readAll source ↔ ∃ lead raw tail, source.HasLine lead raw tail ∧
      read? (lead.count '\n') lead.byteLength raw = some l := by
  constructor
  · intro h
    obtain ⟨before, raw, after, hsplit, hread⟩ := mem_readFrom h
    obtain ⟨tail, hline⟩ := Text.exists_hasLine hsplit
    refine ⟨Text.unlines before, raw, tail, hline, ?_⟩
    rw [Text.count_newline_lead hsplit, ← hread, Nat.zero_add, Nat.zero_add]
  · rintro ⟨lead, raw, tail, hline, hread⟩
    obtain ⟨before, after, hsplit, rfl⟩ := hline.exists_splitOn
    rw [Text.count_newline_lead hsplit] at hread
    rw [readAll, hsplit, readFrom_append, Nat.zero_add, Nat.zero_add, readFrom_cons_some hread]
    simp

/-- A line is read exactly when it has something to say. -/
theorem exists_index_iff {source lead raw tail : Text} (h : source.HasLine lead raw tail) :
    (∃ l ∈ readAll source, l.index = lead.count '\n') ↔ raw.isSpoken = true := by
  constructor
  · rintro ⟨l, hl, hindex⟩
    obtain ⟨lead', raw', tail', h', hread⟩ := mem_readAll_iff.1 hl
    have hcount : lead.count '\n' = lead'.count '\n' := by
      rw [← hindex, read?_eq_some hread]
    rw [h.raw_eq h' hcount]
    exact isSpoken_of_read? hread
  · intro hspoken
    have hread := read?_eq (lead.count '\n') lead.byteLength raw
    rw [if_pos hspoken] at hread
    exact ⟨_, mem_readAll_iff.2 ⟨lead, raw, tail, h, hread⟩, rfl⟩

/-- What is read from a line partitions it, and what partitions it is read from it. -/
theorem read?_iff_partitions {source lead raw tail : Text} (h : source.HasLine lead raw tail)
    {l : Line} {o : Option Operation} :
    read? (lead.count '\n') lead.byteLength raw = some l ∧ l.operation? = o ↔
      l.index = lead.count '\n' ∧ ∃ a b, raw = a ++ l.whole.text ++ b ∧ a.Blanks ∧ b.Blanks ∧
        l.Partitions source (lead ++ a) o := by
  constructor
  · rintro ⟨hread, rfl⟩
    obtain ⟨hne, hhead⟩ := Text.isSpoken_iff.1 (isSpoken_of_read? hread)
    obtain ⟨a, b, ha, hb, hraw⟩ := Text.exists_padding raw
    have htoken : Token.trimmed lead.byteLength raw = ⟨(lead ++ a).byteLength, raw.trim⟩ := by
      conv => lhs; rw [hraw]
      rw [Token.trimmed_padded ha (Text.solid_trim raw) hb (absurd · hne), Text.byteLength_append]
    have hwhole : Token.StandsAfter source (lead ++ a) ⟨(lead ++ a).byteLength, raw.trim⟩ := by
      refine Token.standsAfter_iff.2 ⟨⟨b ++ tail, ?_⟩, rfl⟩
      conv => rhs; rw [h.eq_append, hraw]
      simp
    rw [read?_eq_some hread, htoken]
    exact ⟨rfl, a, b, hraw, ha, hb, hwhole, Text.solid_trim raw, hne, hhead,
      Statement.partitions_ofToken hwhole (Text.solid_trim raw) hne _⟩
  · obtain ⟨index, ⟨start, text⟩, statement⟩ := l
    rintro ⟨rfl, a, b, rfl, ha, hb, hwhole, hsolid, hne, hhead, hstatement⟩
    obtain rfl : start = (lead ++ a).byteLength := hwhole.start_eq
    have htoken : Token.trimmed lead.byteLength (a ++ text ++ b) =
        ⟨(lead ++ a).byteLength, text⟩ := by
      rw [Token.trimmed_padded ha hsolid hb (absurd · hne), Text.byteLength_append]
    have hspoken : Text.isSpoken (a ++ text ++ b) = true := by
      rw [Text.isSpoken_iff, hsolid.trim_padded ha hb]
      exact ⟨hne, hhead⟩
    obtain ⟨hread, ho⟩ := hstatement.eq_ofToken hsolid (lead.count '\n')
      ⟨(lead ++ a).byteLength, text⟩
    rw [read?_eq, if_pos hspoken, htoken, hread]
    exact ⟨rfl, ho⟩

/-- The lines that are read, with their operations, are those that partition a line of the
source. -/
theorem mem_readAll_iff_partitions {source : Text} {l : Line} {o : Option Operation} :
    l ∈ readAll source ∧ l.operation? = o ↔
      ∃ lead raw tail a b, source.HasLine lead raw tail ∧ l.index = lead.count '\n' ∧
        raw = a ++ l.whole.text ++ b ∧ a.Blanks ∧ b.Blanks ∧ l.Partitions source (lead ++ a) o := by
  constructor
  · rintro ⟨hl, ho⟩
    obtain ⟨lead, raw, tail, h, hread⟩ := mem_readAll_iff.1 hl
    obtain ⟨hindex, a, b, hraw, ha, hb, hparts⟩ := (read?_iff_partitions h).1 ⟨hread, ho⟩
    exact ⟨lead, raw, tail, a, b, h, hindex, hraw, ha, hb, hparts⟩
  · rintro ⟨lead, raw, tail, a, b, h, hindex, hraw, ha, hb, hparts⟩
    obtain ⟨hread, ho⟩ := (read?_iff_partitions h).2 ⟨hindex, a, b, hraw, ha, hb, hparts⟩
    exact ⟨mem_readAll_iff.2 ⟨lead, raw, tail, h, hread⟩, ho⟩

end Line

/-- Tokens partition the lines of a source. The lines that are read have ascending indices, and the
index of a line is the number of line feeds before it; a line of the source is passed over exactly
when it is blank or its first character that is no blank is a slash. A line and its operation are
read if and only if they partition a line of the source: blanks, the whole text and blanks are that
line, the label, the first colon and the body with blanks between them are the whole text, or the
body alone without a colon, and the mnemonic, blanks and the operand are the body, or the mnemonic
alone. So nothing is lost, and there is one way to divide a line. Every token stands at the place
that its span tells, the start modulo 2³² and the length up to 65535 bytes, whether the bytes are
counted from the start of the source or on from a span. -/
theorem Line.tokens_partition (source : Text) :
    (readAll source).Pairwise (·.index < ·.index) ∧
    (∀ lead raw tail, source.HasLine lead raw tail →
      ((∀ l ∈ readAll source, l.index ≠ lead.count '\n') ↔
        raw.Blanks ∨ ∃ a rest, a.Blanks ∧ raw = a ++ '/' :: rest)) ∧
    (∀ l o, l ∈ readAll source ∧ l.operation? = o ↔
      ∃ lead raw tail a b, source.HasLine lead raw tail ∧ l.index = lead.count '\n' ∧
        raw = a ++ l.whole.text ++ b ∧ a.Blanks ∧ b.Blanks ∧ l.Partitions source (lead ++ a) o) ∧
    ∀ (t : Token) (k n : Nat),
      Span.ofBytes (t.span.start.toNat + k) n = Span.ofBytes (t.start + k) n := by
  refine ⟨pairwise_readAll source, fun lead raw tail h => ?_,
    fun l o => mem_readAll_iff_partitions, Token.ofBytes_span_add⟩
  rw [← Text.isSpoken_eq_false_iff, ← Bool.not_eq_true, ← exists_index_iff h]
  simp

/-- A comment is passed over; a line with two colons and wide blanks is divided at the first. -/
theorem Line.tokens_partition_colons :
    let source : Text := "é:\r\n / c\n\u3000end :\tJUMP\u00a0 a:b \n".toList
    let o : Operation := ⟨⟨19, "JUMP".toList⟩, some ⟨26, "a:b".toList⟩⟩
    let l : Line := ⟨2, ⟨13, "end :\tJUMP\u00a0 a:b".toList⟩,
      .instruction (some ⟨13, "end".toList⟩) ⟨19, "JUMP\u00a0 a:b".toList⟩⟩
    (∀ m ∈ readAll source, m.index ≠ 1) ∧
      ∃ lead raw tail a b, source.HasLine lead raw tail ∧ lead.count '\n' = 2 ∧
        raw = a ++ l.whole.text ++ b ∧ l.Partitions source (lead ++ a) (some o) := by
  intro source o l
  obtain ⟨-, hskipped, hdivided, -⟩ := tokens_partition source
  have hcomment : source.HasLine "é:\r\n".toList " / c".toList
      "\n\u3000end :\tJUMP\u00a0 a:b \n".toList :=
    ⟨by decide, by decide, by simp, by simp⟩
  have hblank : Text.Blanks [' '] := List.forall_mem_singleton.2 (by decide)
  have hslash := (hskipped _ _ _ hcomment).2 (.inr ⟨[' '], " c".toList, hblank, rfl⟩)
  obtain ⟨lead, raw, tail, a, b, hline, hindex, hraw, -, -, hparts⟩ :=
    (hdivided l (some o)).1 ⟨by decide, by decide⟩
  exact ⟨hslash, lead, raw, tail, a, b, hline, hindex.symm, hraw, hparts⟩

end Mac1
