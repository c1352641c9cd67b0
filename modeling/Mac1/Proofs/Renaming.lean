import Mac1.Proofs.Correspondence
import Mac1.Proofs.Positions
import Mathlib.Logic.Equiv.Basic

/-!
Names are only names. Two sources whose lines correspond one to one under a renaming of symbols are
followed through both passes: the tables stay in step with each declared line, so every name is
found where its new name is found, and the second pass sees the same addresses. No text of a name
has a meaning of its own.
-/
namespace Mac1

/-- The same statement in other names. -/
inductive Statement.Corresponds (r : Text → Text) : Statement → Statement → Prop where
  | variable {name name' : Token} (h : name'.text = r name.text) :
    Corresponds r (.variable name) (.variable name')
  | instruction {label label' : Option Token} {body body' : Token}
    (hlabel : label'.map (·.text) = label.map fun t => r t.text)
    (hbody : (Operation.ofBody body).Corresponds r (Operation.ofBody body')) :
    Corresponds r (.instruction label body) (.instruction label' body')

/-- The same line in other names: its label is renamed, its mnemonic is the same up to case, and its
operand is renamed where the instruction takes an address and the same where it does not. -/
def Line.Corresponds (r : Text → Text) (l l' : Line) : Prop :=
  l.statement.Corresponds r l'.statement

section Decidable

variable {r : Text → Text}

theorem Operation.corresponds_iff {o o' : Operation} :
    o.Corresponds r o' ↔ Text.upper o'.mnemonic.text = Text.upper o.mnemonic.text ∧
      ∀ i ∈ Instruction.all, i.mnemonic = Text.upper o.mnemonic.text →
        o'.operand.map (·.text) = o.operand.map fun t => i.rename r t.text :=
  ⟨fun h => ⟨h.mnemonic, fun i _ => h.operand i⟩, fun h => ⟨h.1, fun i => h.2 i i.mem_all⟩⟩

instance (o o' : Operation) : Decidable (o.Corresponds r o') :=
  decidable_of_iff _ Operation.corresponds_iff.symm

instance Statement.decidableCorresponds : ∀ s s' : Statement, Decidable (s.Corresponds r s')
  | .variable _, .variable _ => decidable_of_iff _ ⟨.variable, fun | .variable h => h⟩
  | .instruction _ _, .instruction _ _ =>
    decidable_of_iff (_ ∧ _) ⟨fun h => .instruction h.1 h.2, fun | .instruction h h' => ⟨h, h'⟩⟩
  | .variable _, .instruction _ _ => isFalse nofun
  | .instruction _ _, .variable _ => isFalse nofun

instance (l l' : Line) : Decidable (l.Corresponds r l') :=
  Statement.decidableCorresponds l.statement l'.statement

end Decidable

/-- The lines with the indices `i` and `j` stand at the same place in two lists. -/
def Paired (xs ys : List Line) (i j : Nat) : Prop :=
  (i, j) ∈ (xs.map (·.index)).zip (ys.map (·.index))

/-- Lines with corresponding statements, whose indices `L` relates. -/
def Line.Matches (r : Text → Text) (L : Nat → Nat → Prop) (l l' : Line) : Prop :=
  L l.index l'.index ∧ l.Corresponds r l'

/-- Corresponding lists of lines are matched by the places of their lines. -/
theorem matches_of_corresponds {r : Text → Text} {xs ys : List Line}
    (h : List.Forall₂ (Line.Corresponds r) xs ys) :
    List.Forall₂ (Line.Matches r (Paired xs ys)) xs ys := by
  rw [List.forall₂_iff_zip] at h ⊢
  refine ⟨h.1, fun {l l'} hmem => ⟨?_, h.2 hmem⟩⟩
  rw [Paired, List.zip_map]
  exact List.mem_map_of_mem hmem

section Matches

variable {r : Text → Text} {L : Nat → Nat → Prop}

theorem Line.Matches.operation {l l' : Line} (h : l.Matches r L l') :
    Option.Rel (Operation.Corresponds r) l.operation? l'.operation? := by
  obtain ⟨-, hst⟩ := h
  unfold Line.Corresponds at hst
  unfold operation?
  generalize l.statement = s at hst
  generalize l'.statement = s' at hst
  cases hst with
  | «variable» => exact .none
  | instruction _ hbody => exact .some hbody

theorem Line.Matches.isSome_operation {l l' : Line} (h : l.Matches r L l') :
    l.operation?.isSome = l'.operation?.isSome := by
  have ho := h.operation
  generalize l.operation? = o at ho
  generalize l'.operation? = o' at ho
  cases ho <;> rfl

theorem operations_matches {xs ys : List Line} (h : List.Forall₂ (Line.Matches r L) xs ys) :
    List.Forall₂ (fun x y => L x.1 y.1 ∧ x.2.Corresponds r y.2) (operations xs)
      (operations ys) := by
  refine List.rel_filterMap (fun l l' hl => ?_) h
  have ho := hl.operation
  generalize l.operation? = o at ho
  generalize l'.operation? = o' at ho
  cases ho with
  | none => exact .none
  | some ho => exact .some ⟨hl.1, ho⟩

/-- The same symbol in other names. -/
structure Symbol.Corresponds (r : Text → Text) (L : Nat → Nat → Prop) (s s' : Symbol) : Prop where
  name : s'.name = r s.name
  address : s'.address = s.address
  kind : s'.kind = s.kind
  line : L s.line s'.line

/-- The same table in other names, in the same order and with the same counters. -/
structure SymbolTable.Corresponds (r : Text → Text) (L : Nat → Nat → Prop)
    (t t' : SymbolTable) : Prop where
  symbols : List.Forall₂ (Symbol.Corresponds r L) t.toList t'.toList
  instructions : t'.instructions = t.instructions
  nextVariable : t'.nextVariable = t.nextVariable

/-- The same complaint in other names. -/
def Diagnostic.Corresponds (r : Text → Text) (L : Nat → Nat → Prop) (d d' : Diagnostic) : Prop :=
  L d.line d'.line ∧ d'.fault = d.fault.rename r

/-- A search for the new name ends at the symbol at which the search for the old name ends: no other
name has become the new one. -/
theorem find?_corresponds (hr : Function.Injective r) {ss ss' : List Symbol}
    (h : List.Forall₂ (Symbol.Corresponds r L) ss ss') (name : Text) :
    Option.Rel (Symbol.Corresponds r L) (ss.find? (·.name == name))
      (ss'.find? (·.name == r name)) := by
  induction h with
  | nil => exact .none
  | @cons s s' ss ss' hs _ ih =>
    by_cases hname : s.name = name
    · have hname' : s'.name = r name := by rw [hs.name, hname]
      rw [List.find?_cons_of_pos (by simpa using hname),
        List.find?_cons_of_pos (by simpa using hname')]
      exact .some hs
    · have hname' : s'.name ≠ r name := by
        rw [hs.name]
        exact hr.ne hname
      rw [List.find?_cons_of_neg (by simpa using hname),
        List.find?_cons_of_neg (by simpa using hname')]
      exact ih

namespace SymbolTable.Corresponds

variable {t t' : SymbolTable}

theorem empty : Corresponds r L .empty .empty := ⟨.nil, rfl, rfl⟩

theorem address?_eq (hr : Function.Injective r) (h : t.Corresponds r L t') (name : Text) :
    t'.address? (r name) = t.address? name := by
  have hfind := find?_corresponds hr h.symbols name
  rw [← find?_eq, ← find?_eq] at hfind
  rw [address?, address?]
  generalize t.find? name = x at hfind
  generalize t'.find? (r name) = y at hfind
  cases hfind with
  | none => rfl
  | some hs => exact congrArg some hs.address

theorem map_name (h : t.Corresponds r L t') :
    t'.toList.map (·.name) = (t.toList.map (·.name)).map r := by
  rw [List.map_map, map_eq_map_iff_forall₂]
  exact (h.symbols.imp fun _ _ hs => hs.name).flip

/-- A name is new in one table when its new name is new in the other. -/
theorem insert (hr : Function.Injective r) (h : t.Corresponds r L t') {name name' : Token}
    (hname : name'.text = r name.text) (address : Int) (kind : SymbolKind) {line line' : Nat}
    (hline : L line line') :
    Agree (Diagnostic.Corresponds r L) (SymbolTable.Corresponds r L)
      (t.insert name address kind line) (t'.insert name' address kind line') := by
  have hnew : t'.find? name'.text = none ↔ t.find? name.text = none := by
    rw [find?_eq_none_iff, find?_eq_none_iff, h.map_name, hname, List.mem_map_of_injective hr]
  cases hu : t.insert name address kind line with
  | ok u =>
    obtain ⟨new, rfl⟩ := insert_ok hu
    cases hu' : t'.insert name' address kind line' with
    | ok u' =>
      obtain ⟨new', rfl⟩ := insert_ok hu'
      apply Agree.ok
      constructor
      · rw [toList_push, toList_push]
        exact List.rel_append h.symbols (.cons ⟨hname, rfl, rfl, hline⟩ .nil)
      · exact h.instructions
      · exact h.nextVariable
    | error d' => exact absurd (hnew.2 new) (insert_error hu').1
  | error d =>
    obtain ⟨hold, rfl⟩ := insert_error hu
    cases hu' : t'.insert name' address kind line' with
    | ok u' =>
      obtain ⟨new', -⟩ := insert_ok hu'
      exact absurd (hnew.1 new') hold
    | error d' =>
      obtain ⟨-, rfl⟩ := insert_error hu'
      exact .error ⟨hline, congrArg Fault.duplicateLabel hname⟩

theorem takeVariable (h : t.Corresponds r L t') : t.takeVariable.Corresponds r L t'.takeVariable :=
  ⟨h.symbols, h.instructions, congrArg (· - 1) h.nextVariable⟩

theorem countInstruction (h : t.Corresponds r L t') :
    t.countInstruction.Corresponds r L t'.countInstruction :=
  ⟨h.symbols, congrArg (· + 1) h.instructions, h.nextVariable⟩

/-- One line keeps the tables in step. -/
theorem declare (hr : Function.Injective r) (h : t.Corresponds r L t') {l l' : Line}
    (hl : l.Matches r L l') :
    Agree (Diagnostic.Corresponds r L) (SymbolTable.Corresponds r L) (t.declare l)
      (t'.declare l') := by
  obtain ⟨hindex, hst⟩ := hl
  unfold Line.Corresponds at hst
  unfold SymbolTable.declare
  generalize l.statement = s at hst
  generalize l'.statement = s' at hst
  cases hst with
  | «variable» hname =>
    dsimp only
    rw [h.nextVariable]
    exact (h.insert hr hname _ .variable hindex).map fun _ _ hu => hu.takeVariable
  | @instruction label label' body body' hlabel _ =>
    cases label with
    | none =>
      obtain rfl : label' = none := by simpa using hlabel
      exact .ok h.countInstruction
    | some name =>
      obtain ⟨name', rfl, hname⟩ := Option.map_eq_some_iff.1 hlabel
      dsimp only
      rw [h.instructions]
      exact (h.insert hr hname _ .label hindex).map fun _ _ hu => hu.countInstruction

/-- The whole first pass keeps the tables in step, and stops in both at the first repeated name. -/
theorem extend (hr : Function.Injective r) {xs ys : List Line}
    (hlines : List.Forall₂ (Line.Matches r L) xs ys) (h : t.Corresponds r L t') :
    Agree (Diagnostic.Corresponds r L) (SymbolTable.Corresponds r L) (t.extend xs)
      (t'.extend ys) := by
  induction hlines generalizing t t' with
  | nil => exact .ok h
  | @cons l l' xs ys hl _ ih =>
    have hstep := h.declare hr hl
    unfold SymbolTable.extend
    generalize t.declare l = x at hstep
    generalize t'.declare l' = y at hstep
    cases hstep with
    | error hd => exact .error hd
    | ok hu => exact ih hu

theorem overlaps_eq (h : t.Corresponds r L t') : t.overlaps = t'.overlaps := by
  rw [overlaps, overlaps, h.instructions, h.nextVariable]

theorem firstVariable?_eq (h : t.Corresponds r L t') : t'.firstVariable? = t.firstVariable? := by
  rw [firstVariable?, firstVariable?, h.nextVariable]

end SymbolTable.Corresponds

theorem getElem?_forall₂ {α β : Type} {R : α → β → Prop} {xs : List α} {ys : List β}
    (h : List.Forall₂ R xs ys) (n : Nat) : Option.Rel R xs[n]? ys[n]? := by
  induction h generalizing n with
  | nil => exact .none
  | cons hxy _ ih =>
    cases n with
    | zero => exact .some hxy
    | succ n => exact ih n

theorem getLast?_forall₂ {α β : Type} {R : α → β → Prop} {xs : List α} {ys : List β}
    (h : List.Forall₂ R xs ys) : Option.Rel R xs.getLast? ys.getLast? := by
  rw [List.getLast?_eq_getElem?, List.getLast?_eq_getElem?, h.length_eq]
  exact getElem?_forall₂ h _

/-- The instructions stand at the same places, so the strict rule points at matching lines. -/
theorem overflow_corresponds {xs ys : List Line} {t t' : SymbolTable}
    (hlines : List.Forall₂ (Line.Matches r L) xs ys) (h : t.Corresponds r L t') (hne : xs ≠ []) :
    (overflow xs t).Corresponds r L (overflow ys t') := by
  have hfilter : List.Forall₂ (Line.Matches r L) (xs.filter (·.operation?.isSome))
      (ys.filter (·.operation?.isSome)) := by
    refine List.rel_filter (fun l l' hl => ?_) hlines
    dsimp only
    rw [hl.isSome_operation]
  have hlast := getLast?_forall₂ hlines
  unfold overflow
  rw [h.firstVariable?_eq, h.instructions]
  dsimp only
  generalize t.firstVariable?.getD memorySize = first
  have hnth := getElem?_forall₂ hfilter first.toNat
  generalize (xs.filter (·.operation?.isSome))[first.toNat]? = a at hnth
  generalize (ys.filter (·.operation?.isSome))[first.toNat]? = b at hnth
  generalize hx : xs.getLast? = c at hlast
  generalize ys.getLast? = d at hlast
  cases hnth with
  | some hl => exact ⟨hl.1, rfl⟩
  | none =>
    cases hlast with
    | some hl => exact ⟨hl.1, rfl⟩
    | none => exact absurd (List.getLast?_eq_none_iff.1 hx) hne

end Matches

/-- The same program in other names. -/
structure Program.Corresponds (r : Text → Text) (L : Nat → Nat → Prop) (p q : Program) : Prop where
  entries : List.Forall₂ (fun e e' => L e.line e'.line ∧ e' = e.rename r e'.line) p.entries
    q.entries
  symbols : List.Forall₂ (Symbol.Corresponds r L) p.symbols.toList q.symbols.toList

/-- Corresponding lines give corresponding programs, or are refused with corresponding
diagnostics. -/
theorem assemble_corresponds {r : Text → Text} (hr : Function.Injective r)
    {source source' : Text}
    (h : List.Forall₂ (Line.Corresponds r) (Line.readAll source) (Line.readAll source'))
    (strict : Bool) :
    let L := Paired (Line.readAll source) (Line.readAll source')
    Agree (Diagnostic.Corresponds r L) (Program.Corresponds r L) (assemble strict source)
      (assemble strict source') := by
  intro L
  have hlines := matches_of_corresponds h
  apply assemble_agree (T := fun t t' => t.Corresponds r L t' ∧
    SymbolTable.ofLines (Line.readAll source) = .ok t)
  · exact (SymbolTable.Corresponds.empty.extend hr hlines).attach
  · rintro t t' ⟨ht, -⟩
    exact ht.overlaps_eq
  · rintro t t' ⟨ht, hfirst⟩ ho
    exact overflow_corresponds hlines ht
      ((SymbolTable.records_of_ofLines hfirst).ne_nil_of_overlaps ho)
  · rintro t t' ⟨ht, -⟩
    exact (encodeLines_agree (ht.address?_eq hr) (operations_matches hlines)).imp
      (fun _ _ hd => hd) fun _ _ hes => ⟨hes, ht.symbols⟩

namespace Program.Corresponds

variable {r : Text → Text} {L : Nat → Nat → Prop} {p q : Program}

theorem map_content (h : p.Corresponds r L q) :
    q.entries.map Entry.content = p.entries.map fun e => (e.rename r e.line).content := by
  rw [eq_comm, map_eq_map_iff_forall₂]
  refine h.entries.imp fun e e' he => ?_
  rw [he.2]
  rfl

theorem map_symbols (h : p.Corresponds r L q) :
    q.symbols.toList.map (fun s => (s.name, s.address, s.kind)) =
      p.symbols.toList.map fun s => (r s.name, s.address, s.kind) := by
  rw [eq_comm, map_eq_map_iff_forall₂]
  refine h.symbols.imp fun s s' hs => ?_
  rw [hs.name, hs.address, hs.kind]

end Program.Corresponds

/-- Names of symbols are only names. When the lines of two sources correspond one to one under an
injective renaming, both assemble or both fail, under either rule. They assemble to the same words
with the same mnemonics and values, the operands that are addresses renamed, and declare the renamed
symbols in the same order with the same addresses and kinds. They fail at the same place for the
same reason, with the name in it renamed. -/
theorem assemble_renamed {r : Text → Text} (hr : Function.Injective r) {source source' : Text}
    (h : List.Forall₂ (Line.Corresponds r) (Line.readAll source) (Line.readAll source'))
    (strict : Bool) :
    Agree
      (fun d d' => Paired (Line.readAll source) (Line.readAll source') d.line d'.line ∧
        d'.fault = d.fault.rename r)
      (fun p q =>
        q.entries.map (fun e => (e.word, e.instruction, e.operand, e.resolved)) =
          p.entries.map (fun e =>
            (e.word, e.instruction, e.operand.map (e.instruction.rename r), e.resolved)) ∧
        q.symbols.toList.map (fun s => (s.name, s.address, s.kind)) =
          p.symbols.toList.map fun s => (r s.name, s.address, s.kind))
      (assemble strict source) (assemble strict source') :=
  (assemble_corresponds hr h strict).imp (fun _ _ hd => hd)
    fun _ _ hpq => ⟨hpq.map_content, hpq.map_symbols⟩

/-- A loop whose labels become a number and an empty name, and whose variable becomes a mnemonic. -/
theorem assemble_renamed_loop :
    let source := "loop: LODD x\nJUMP loop\nx:\nLoop:".toList
    let source' := "12: lodd JUMP\n/ comment\n jump 12\nJUMP :\n:".toList
    let r := ((Equiv.swap "loop".toList "12".toList).trans
      (Equiv.swap "Loop".toList [])).trans (Equiv.swap "x".toList "JUMP".toList)
    List.Forall₂ (Line.Corresponds r) (Line.readAll source) (Line.readAll source') ∧
      ∃ p q, assemble true source = .ok p ∧ assemble true source' = .ok q ∧
        p.code = [0x0fff, 0x6000] ∧
        q.symbols.toList.map (fun s => (s.name, s.address, s.kind)) =
          p.symbols.toList.map fun s => (r s.name, s.address, s.kind) := by
  intro source source' r
  have h : List.Forall₂ (Line.Corresponds r) (Line.readAll source) (Line.readAll source') := by
    decide
  obtain ⟨p, hp, hcode⟩ : ∃ p, assemble true source = .ok p ∧ p.code = [0x0fff, 0x6000] :=
    exists_program_of_code (by decide)
  have hagree := assemble_renamed r.injective h true
  rw [hp] at hagree
  generalize hq : assemble true source' = result at hagree
  cases hagree with
  | @ok _ q hpq => exact ⟨h, p, q, hp, rfl, hcode, hpq.2⟩

end Mac1
