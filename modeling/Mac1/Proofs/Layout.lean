import Mac1.Proofs.Interleaving
import Mac1.Proofs.Renaming

/-!
Layout. A line is written with blanks of any kind before its label, around its first colon, between
its mnemonic and its operand and at its end, and sources have blank lines and comments anywhere. The
grammar of written lines is stated apart from the reader, which is shown to read every written line
as what it says and to read no other line. So two sources that differ in layout and in the case of
their mnemonics give the same program, or fail for the same reason at the same place.
-/
namespace Mac1

/-- A line that is neither blank nor a comment: its first character that is no blank is not a
slash. -/
def Text.isSpoken (raw : Text) : Bool := (raw.find? (!isBlank ·)).any (· ≠ '/')

/-- What an operation says, wherever it stands. -/
def Operation.wording (o : Operation) : Text × Option Text :=
  (o.mnemonic.text, o.operand.map (·.text))

/-- A mnemonic, or a mnemonic and an operand with blanks between them, with blanks before and after.
The mnemonic has no blank, and the operand has none at its ends. -/
inductive WrittenBody : Text → Text × Option Text → Prop where
  | word {a name d : Text} (ha : a.Blanks) (hd : d.Blanks) (hne : name ≠ [])
    (hname : ∀ c ∈ name, isBlank c = false) : WrittenBody (a ++ name ++ d) (name, none)
  | operand {a name gap operand d : Text} (ha : a.Blanks) (hd : d.Blanks) (hne : name ≠ [])
    (hname : ∀ c ∈ name, isBlank c = false) (hgap : gap.Blanks) (hgap' : gap ≠ [])
    (ho : operand.Solid) (ho' : operand ≠ []) :
    WrittenBody (a ++ (name ++ (gap ++ operand)) ++ d) (name, some operand)

/-- The ways in which a label, if there is one, and an operation, if there is one, are written on a
line. A label has no blank at its ends and ends at the first colon of the line. -/
inductive Written : Text → Option Text × Option (Text × Option Text) → Prop where
  | variable {a name b c : Text} (ha : a.Blanks) (hb : b.Blanks) (hc : c.Blanks)
    (hname : name.Solid) (hcolon : ':' ∉ name) :
    Written (a ++ name ++ b ++ ':' :: c) (some name, none)
  | labelled {a name b body : Text} {o : Text × Option Text} (ha : a.Blanks) (hb : b.Blanks)
    (hname : name.Solid) (hcolon : ':' ∉ name) (hbody : WrittenBody body o) :
    Written (a ++ name ++ b ++ ':' :: body) (some name, some o)
  | plain {body : Text} {o : Text × Option Text} (hcolon : ':' ∉ body)
    (hbody : WrittenBody body o) : Written body (none, some o)

theorem colon_notMem_blanks {t : Text} (h : t.Blanks) : ':' ∉ t :=
  fun hc => absurd (h ':' hc) (by decide)

theorem colon_notMem_padded {a name b : Text} (ha : a.Blanks) (hb : b.Blanks) (h : ':' ∉ name) :
    ':' ∉ a ++ name ++ b := by
  simp [colon_notMem_blanks ha, colon_notMem_blanks hb, h]

/-- A mnemonic and an operand fill the space between the outer blanks. -/
theorem solid_operation {name gap operand : Text} (hne : name ≠ [])
    (hname : ∀ c ∈ name, isBlank c = false) (ho : operand.Solid) (ho' : operand ≠ []) :
    Text.Solid (name ++ (gap ++ operand)) := by
  rw [← List.append_assoc]
  exact (Text.Solid.of_forall hname).append_inner gap ho hne ho'

theorem WrittenBody.trim_ne_nil {body : Text} {o : Text × Option Text} (h : WrittenBody body o) :
    body.trim ≠ [] := by
  cases h with
  | word ha hd hne hname => rwa [(Text.Solid.of_forall hname).trim_padded ha hd]
  | operand ha hd hne hname hgap hgap' ho ho' =>
    rw [(solid_operation hne hname ho ho').trim_padded ha hd]
    exact List.append_ne_nil_of_left_ne_nil hne _

/-- A written body is read as what it says. -/
theorem WrittenBody.wording_eq {body : Text} {o : Text × Option Text} (h : WrittenBody body o)
    {t : Token} (ht : t.text = body.trim) : (Operation.ofBody t).wording = o := by
  obtain ⟨start, text⟩ := t
  obtain rfl : text = body.trim := ht
  cases h with
  | word ha hd hne hname =>
    rw [(Text.Solid.of_forall hname).trim_padded ha hd, Operation.ofBody_word hname]
    rfl
  | operand ha hd hne hname hgap hgap' ho ho' =>
    rw [(solid_operation hne hname ho ho').trim_padded ha hd,
      Operation.ofBody_gap hname hgap hgap' ho ho']
    rfl

/-- The label and the body are what stands before and after the first colon, both trimmed. -/
theorem Statement.ofToken_trimmed_colon {before : Text} (h : ':' ∉ before) (after : Text)
    (start : Nat) :
    ∃ name body : Token, name.text = before.trim ∧ body.text = after.trim ∧
      ofToken (Token.trimmed start (before ++ ':' :: after)) =
        if after.trim = [] then .variable name else .instruction (some name) body := by
  have hcolon : ':' ∉ before.trimLeft :=
    fun hmem => h ((List.dropWhile_suffix _).subset hmem)
  have htrim : Text.trim (before ++ ':' :: after) = before.trimLeft ++ ':' :: after.trimRight :=
    Text.trim_append_cons (by decide) before after
  rw [Token.trimmed, htrim, ofToken_colon hcolon]
  generalize start + Text.byteLength ((before ++ ':' :: after).takeWhile isBlank) = first
  refine ⟨Token.trimmed first before.trimLeft,
    Token.trimmed (first + before.trimLeft.byteLength + 1) after.trimRight,
    Text.trim_trimLeft before, Text.trim_trimRight after, ?_⟩
  rw [← Text.trim_trimRight after]
  rfl

/-- What a line says is neither empty nor a comment. -/
theorem Text.isSpoken_iff {raw : Text} :
    raw.isSpoken = true ↔ raw.trim ≠ [] ∧ raw.trim.head? ≠ some '/' := by
  rw [isSpoken, ← head?_trim]
  cases raw.trim with
  | nil => simp
  | cons c rest => simp

namespace Line

theorem wording_variable {l : Line} {name : Token} (h : l.statement = .variable name) :
    l.wording = (some name.text, none) := by
  simp [wording, name?, label?, operation?, h]

theorem wording_instruction {l : Line} {label : Option Token} {body : Token}
    (h : l.statement = .instruction label body) :
    l.wording = (label.map (·.text), some (Operation.ofBody body).wording) := by
  simp [wording, name?, label?, operation?, h, Operation.wording]

theorem read?_eq (index start : Nat) (raw : Text) :
    read? index start raw =
      if raw.isSpoken then
        some ⟨index, Token.trimmed start raw, Statement.ofToken (Token.trimmed start raw)⟩
      else none := by
  rw [read?]
  split
  · rename_i hnil
    have hraw : raw.trim = [] := hnil
    rw [if_neg (by simp [Text.isSpoken_iff, hraw])]
  · rename_i rest hslash
    have hraw : raw.trim = '/' :: rest := hslash
    rw [if_neg (by simp [Text.isSpoken_iff, hraw])]
  · rename_i hnil hslash
    have hspoken : raw.isSpoken = true := by
      refine Text.isSpoken_iff.2 ⟨hnil, fun hhead => ?_⟩
      obtain ⟨rest, hraw⟩ := List.head?_eq_some_iff.1 hhead
      exact hslash rest hraw
    rw [if_pos hspoken]

theorem isSpoken_of_read? {index start : Nat} {raw : Text} {l : Line}
    (h : read? index start raw = some l) : raw.isSpoken = true := by
  rw [read?_eq] at h
  split at h
  · assumption
  · cases h

end Line

/-- A written line is read as what it says. -/
theorem Written.wording_eq {raw : Text} {w : Option Text × Option (Text × Option Text)}
    (h : Written raw w) {index start : Nat} {l : Line} (hl : Line.read? index start raw = some l) :
    l.wording = w := by
  have hst : l.statement = Statement.ofToken (Token.trimmed start raw) := by
    rw [Line.read?_eq_some hl]
  cases h with
  | @«variable» a name b c ha hb hc hname hcolon =>
    have hbefore := colon_notMem_padded ha hb hcolon
    obtain ⟨t, u, ht, -, htoken⟩ := Statement.ofToken_trimmed_colon hbefore c start
    rw [htoken, if_pos (Text.trim_eq_nil_iff.2 hc)] at hst
    rw [Line.wording_variable hst, ht, hname.trim_padded ha hb]
  | @labelled a name b body o ha hb hname hcolon hbody =>
    have hbefore := colon_notMem_padded ha hb hcolon
    obtain ⟨t, u, ht, hu, htoken⟩ := Statement.ofToken_trimmed_colon hbefore body start
    rw [htoken, if_neg hbody.trim_ne_nil] at hst
    rw [Line.wording_instruction hst, hbody.wording_eq hu, Option.map_some, ht,
      hname.trim_padded ha hb]
  | plain hcolon hbody =>
    have hwhole : ':' ∉ (Token.trimmed start raw).text :=
      fun hmem => hcolon ((Token.trimmed_within start raw).subset hmem)
    rw [Statement.ofToken_plain hwhole] at hst
    rw [Line.wording_instruction hst, hbody.wording_eq rfl]
    rfl

/-- A text is cut at its first blank. -/
theorem Text.exists_word (t : Text) :
    ∃ name rest : Text, t = name ++ rest ∧ (∀ c ∈ name, isBlank c = false) ∧
      ∀ c ∈ rest.head?, isBlank c = true := by
  refine ⟨t.takeWhile (!isBlank ·), t.dropWhile (!isBlank ·),
    List.takeWhile_append_dropWhile.symm, fun c hc => ?_, fun c hc => ?_⟩
  · simpa using List.mem_takeWhile_imp hc
  · have hhead := List.head?_dropWhile_not (!isBlank ·) t
    rw [hc] at hhead
    simpa using hhead

theorem exists_writtenBody {body : Text} (h : body.trim ≠ []) : ∃ o, WrittenBody body o := by
  obtain ⟨a, ha, hbody⟩ := Text.exists_trimLeft body
  obtain ⟨name, rest, hword, hname, hrest⟩ := Text.exists_word body.trimLeft
  have hne : name ≠ [] := by
    rintro rfl
    cases rest with
    | nil =>
      rw [Text.trim, hword] at h
      exact h rfl
    | cons c rest =>
      have hblank : isBlank c = true := hrest c rfl
      have hfirst : isBlank c = false := Text.head_trimLeft (t := body) (by rw [hword]; rfl)
      rw [hfirst] at hblank
      cases hblank
  rw [hbody, hword]
  obtain ⟨gap, d, hgap, hd, hpadding⟩ := Text.exists_padding rest
  by_cases ho : rest.trim = []
  · rw [← List.append_assoc]
    exact ⟨_, .word ha (Text.trim_eq_nil_iff.1 ho) hne hname⟩
  · have hgap' : gap ≠ [] := by
      rintro rfl
      obtain ⟨c, operand, hoperand⟩ := List.exists_cons_of_ne_nil ho
      rw [hoperand] at hpadding
      have hblank : isBlank c = true := hrest c (by rw [hpadding]; rfl)
      have hfirst : isBlank c = false := (Text.solid_trim rest).head c (by rw [hoperand]; rfl)
      rw [hfirst] at hblank
      cases hblank
    have hform : a ++ (name ++ rest) = a ++ (name ++ (gap ++ rest.trim)) ++ d := by
      conv => lhs; rw [hpadding]
      simp
    rw [hform]
    exact ⟨_, .operand ha hd hne hname hgap hgap' (Text.solid_trim rest) ho⟩

/-- The grammar covers every line that is neither blank nor a comment. -/
theorem exists_written {raw : Text} (h : raw.isSpoken = true) : ∃ w, Written raw w := by
  by_cases hcolon : ':' ∈ raw
  · obtain ⟨before, after, rfl, hbefore⟩ : ∃ s t : Text, raw = s ++ ':' :: t ∧ ':' ∉ s :=
      List.eq_append_cons_of_mem hcolon
    obtain ⟨a, b, ha, hb, hlabel⟩ := Text.exists_padding before
    have hname : ':' ∉ before.trim := by
      intro hmem
      apply hbefore
      rw [hlabel]
      simp [hmem]
    rw [hlabel]
    by_cases ho : after.trim = []
    · exact ⟨_, .variable ha hb (Text.trim_eq_nil_iff.1 ho) (Text.solid_trim before) hname⟩
    · obtain ⟨o, hbody⟩ := exists_writtenBody ho
      exact ⟨_, .labelled ha hb (Text.solid_trim before) hname hbody⟩
  · obtain ⟨o, hbody⟩ := exists_writtenBody (Text.isSpoken_iff.1 h).1
    exact ⟨_, .plain hcolon hbody⟩

/-- What a line says up to the case of its mnemonic. -/
def upperWording (w : Option Text × Option (Text × Option Text)) :
    Option Text × Option (Text × Option Text) :=
  (w.1, w.2.map fun o => (Text.upper o.1, o.2))

/-- Both lines are written for the same label, the same operand and the same mnemonic up to case. -/
def LayoutVariant (raw raw' : Text) : Prop :=
  ∃ w w', Written raw w ∧ Written raw' w' ∧ upperWording w = upperWording w'

/-- Variants are read alike, and lines that are read alike are variants. -/
theorem layoutVariant_iff {raw raw' : Text} {index index' start start' : Nat} {l l' : Line}
    (hl : Line.read? index start raw = some l) (hl' : Line.read? index' start' raw' = some l') :
    LayoutVariant raw raw' ↔ upperWording l.wording = upperWording l'.wording := by
  constructor
  · rintro ⟨w, w', hw, hw', heq⟩
    rwa [hw.wording_eq hl, hw'.wording_eq hl']
  · intro heq
    obtain ⟨w, hw⟩ := exists_written (Line.isSpoken_of_read? hl)
    obtain ⟨w', hw'⟩ := exists_written (Line.isSpoken_of_read? hl')
    refine ⟨w, w', hw, hw', ?_⟩
    rwa [← hw.wording_eq hl, ← hw'.wording_eq hl']

theorem Operation.corresponds_of_wording {o o' : Operation}
    (hname : Text.upper o.mnemonic.text = Text.upper o'.mnemonic.text)
    (hoperand : o.operand.map (·.text) = o'.operand.map (·.text)) : o.Corresponds id o' := by
  constructor
  · exact hname.symm
  · intro i _
    rw [← hoperand]
    simp [Instruction.rename]

/-- Lines that are read alike correspond without a renaming. -/
theorem Line.corresponds_of_wording {l l' : Line}
    (h : upperWording l.wording = upperWording l'.wording) : l.Corresponds id l' := by
  unfold Line.Corresponds
  cases hst : l.statement with
  | «variable» name =>
    cases hst' : l'.statement with
    | «variable» name' =>
      rw [wording_variable hst, wording_variable hst'] at h
      simp only [upperWording, Prod.mk.injEq, Option.some.injEq] at h
      exact .variable h.1.symm
    | instruction label' body' =>
      rw [wording_variable hst, wording_instruction hst'] at h
      simp [upperWording] at h
  | instruction label body =>
    cases hst' : l'.statement with
    | «variable» name' =>
      rw [wording_instruction hst, wording_variable hst'] at h
      simp [upperWording] at h
    | instruction label' body' =>
      rw [wording_instruction hst, wording_instruction hst'] at h
      simp only [upperWording, Operation.wording, Option.map_some, Prod.mk.injEq,
        Option.some.injEq] at h
      exact .instruction h.1.symm (Operation.corresponds_of_wording h.2.1 h.2.2)

/-- The lines of a source that are neither blank nor comments, with their indices. -/
def spokenLines (source : Text) : List (Text × Nat) :=
  (source.splitOn '\n').zipIdx.filter (·.1.isSpoken)

/-- The line is read off the given text at the given index. -/
def Line.ReadFrom (l : Line) (x : Text × Nat) : Prop := ∃ start, read? x.2 start x.1 = some l

/-- The reader skips exactly the blank lines and the comments. -/
theorem Line.forall₂_readFrom (index start : Nat) (raws : List Text) :
    List.Forall₂ ReadFrom (readFrom index start raws)
      ((raws.zipIdx index).filter (·.1.isSpoken)) := by
  induction raws generalizing index start with
  | nil => exact .nil
  | cons raw rest ih =>
    have hread := read?_eq index start raw
    rw [readFrom, List.zipIdx_cons, List.filter_cons]
    by_cases hs : raw.isSpoken = true
    · rw [if_pos hs] at hread ⊢
      rw [hread]
      exact .cons ⟨start, hread⟩ (ih ..)
    · rw [if_neg hs] at hread ⊢
      rw [hread]
      exact ih ..

theorem Line.forall₂_readAll (source : Text) :
    List.Forall₂ ReadFrom (readAll source) (spokenLines source) :=
  forall₂_readFrom 0 0 _

theorem Line.map_index_readAll (source : Text) :
    (readAll source).map (·.index) = (spokenLines source).map (·.2) := by
  apply map_eq_map_iff_forall₂.2
  refine (forall₂_readAll source).imp fun l x ⟨start, hl⟩ => ?_
  rw [read?_eq_some hl]

/-- Lists that are read off each other, element by element, stand in the same relations. -/
theorem forall₂_congr {α β γ δ : Type} {R : α → γ → Prop} {S : β → δ → Prop} {P : α → β → Prop}
    {Q : γ → δ → Prop} (hPQ : ∀ a b c d, R a c → S b d → (P a b ↔ Q c d)) {as : List α}
    {bs : List β} {cs : List γ} {ds : List δ} (h : List.Forall₂ R as cs)
    (h' : List.Forall₂ S bs ds) : List.Forall₂ P as bs ↔ List.Forall₂ Q cs ds := by
  induction h generalizing bs ds with
  | nil => cases h' <;> simp
  | cons hr _ ih =>
    cases h' with
    | nil => simp
    | cons hs hrest => rw [List.forall₂_cons, List.forall₂_cons, hPQ _ _ _ _ hr hs, ih hrest]

/-- Sources are written in variants of the same lines exactly when their lines are read alike. -/
theorem forall₂_layoutVariant_iff (source source' : Text) :
    List.Forall₂ (fun x y => LayoutVariant x.1 y.1) (spokenLines source) (spokenLines source') ↔
      List.Forall₂ (fun l l' => upperWording l.wording = upperWording l'.wording)
        (Line.readAll source) (Line.readAll source') := by
  apply Iff.symm
  apply forall₂_congr _ (Line.forall₂_readAll source) (Line.forall₂_readAll source')
  rintro l l' x x' ⟨start, hl⟩ ⟨start', hl'⟩
  exact (layoutVariant_iff hl hl').symm

/-- Assembly is insensitive to layout. Take two sources whose lines, blank lines and comments left
out, are variants of each other one by one: the same label, the same operand and the same mnemonic
up to case, with any blanks before the label, around the first colon, between mnemonic and operand
and at the end. Under either rule both assemble, to the same words, mnemonics, operands and values,
the same listing and the same symbols; or both fail for the same reason, on lines that stand at the
same place among those that are neither blank nor comments. -/
theorem assemble_layout {source source' : Text}
    (h : List.Forall₂ (fun x y => LayoutVariant x.1 y.1) (spokenLines source) (spokenLines source'))
    (strict : Bool) :
    Agree
      (fun d d' => d.fault = d'.fault ∧
        (d.line, d'.line) ∈ ((spokenLines source).map (·.2)).zip ((spokenLines source').map (·.2)))
      (fun p q => p.entries.map Entry.content = q.entries.map Entry.content ∧
        p.listing = q.listing ∧
        p.symbols.toList.map (fun s => (s.name, s.address, s.kind)) =
          q.symbols.toList.map fun s => (s.name, s.address, s.kind))
      (assemble strict source) (assemble strict source') := by
  have hlines : List.Forall₂ (Line.Corresponds id) (Line.readAll source) (Line.readAll source') :=
    ((forall₂_layoutVariant_iff source source').1 h).imp fun _ _ => Line.corresponds_of_wording
  apply (assemble_corresponds Function.injective_id hlines strict).imp
  · rintro d d' ⟨hline, hfault⟩
    rw [Fault.rename_id] at hfault
    rw [Paired, Line.map_index_readAll, Line.map_index_readAll] at hline
    exact ⟨hfault.symm, hline⟩
  · intro p q hpq
    have hcontent : p.entries.map Entry.content = q.entries.map Entry.content := by
      rw [hpq.map_content]
      simp only [Entry.rename_id]
    exact ⟨hcontent, Program.listing_of_content hcontent, hpq.map_symbols.symm⟩

/-- A loop, and the same loop with wide blanks, carriage returns, a comment and mixed case. -/
theorem assemble_layout_wide :
    let source := "loop: LODD x\nJUMP loop\nx:".toList
    let source' := "/ loop\r\n\u3000loop :LoDd\u00a0 x\r\n\r\n jump\tloop\u2028\nx\u0085:\r".toList
    List.Forall₂ (fun x y => LayoutVariant x.1 y.1) (spokenLines source) (spokenLines source') ∧
      ∃ p q, assemble true source = .ok p ∧ assemble true source' = .ok q ∧
        p.code = [0x0fff, 0x6000] ∧ p.listing = q.listing := by
  intro source source'
  have h := (forall₂_layoutVariant_iff source source').2 (by decide)
  obtain ⟨p, hp, hcode⟩ : ∃ p, assemble true source = .ok p ∧ p.code = [0x0fff, 0x6000] :=
    exists_program_of_code (by decide)
  have hagree := assemble_layout h true
  rw [hp] at hagree
  generalize hq : assemble true source' = result at hagree
  cases hagree with
  | @ok _ q hpq => exact ⟨h, p, q, hp, rfl, hcode, hpq.2.1⟩

end Mac1
