import Mac1.Proofs.Outcome
import Mathlib.Data.List.Forall2

/-!
Two sources side by side. What an operation is encoded to depends on its mnemonic up to case, on its
operand and on the addresses that the operand may name. So operations that correspond to each other
under a renaming of symbols are encoded alike or refused alike, and so are lists of them.
-/
namespace Mac1

/-- Both succeed, with results that `R` relates, or both fail, with diagnostics that `E` relates. -/
inductive Agree {α β : Type} (E : Diagnostic → Diagnostic → Prop) (R : α → β → Prop) :
    Except Diagnostic α → Except Diagnostic β → Prop where
  | ok {a : α} {b : β} (h : R a b) : Agree E R (.ok a) (.ok b)
  | error {d d' : Diagnostic} (h : E d d') : Agree E R (.error d) (.error d')

namespace Agree

variable {α β γ δ : Type} {E : Diagnostic → Diagnostic → Prop} {R : α → β → Prop}

theorem map {x : Except Diagnostic α} {y : Except Diagnostic β} (h : Agree E R x y)
    {R' : γ → δ → Prop} {f : α → γ} {g : β → δ} (hR : ∀ a b, R a b → R' (f a) (g b)) :
    Agree E R' (x.map f) (y.map g) := by
  cases h with
  | ok h => exact .ok (hR _ _ h)
  | error h => exact .error h

theorem imp {x : Except Diagnostic α} {y : Except Diagnostic β} (h : Agree E R x y)
    {E' : Diagnostic → Diagnostic → Prop} {R' : α → β → Prop} (hE : ∀ d d', E d d' → E' d d')
    (hR : ∀ a b, R a b → R' a b) : Agree E' R' x y := by
  cases h with
  | ok h => exact .ok (hR _ _ h)
  | error h => exact .error (hE _ _ h)

theorem attach {x : Except Diagnostic α} {y : Except Diagnostic β} (h : Agree E R x y) :
    Agree E (fun a b => R a b ∧ x = .ok a) x y := by
  cases h with
  | ok h => exact .ok ⟨h, rfl⟩
  | error h => exact .error h

/-- One step after another: the first pair that fails decides. -/
theorem mapM {f : γ → Except Diagnostic α} {g : δ → Except Diagnostic β} {xs : List γ}
    {ys : List δ} (h : List.Forall₂ (fun x y => Agree E R (f x) (g y)) xs ys) :
    Agree E (List.Forall₂ R) (xs.mapM f) (ys.mapM g) := by
  induction h with
  | nil => exact .ok .nil
  | @cons x y xs ys hxy _ ih =>
    rw [List.mapM_cons, List.mapM_cons]
    generalize f x = a at hxy
    generalize g y = b at hxy
    cases hxy with
    | error h => exact .error h
    | ok h =>
      generalize xs.mapM f = as at ih
      generalize ys.mapM g = bs at ih
      cases ih with
      | error h' => exact .error h'
      | ok h' => exact .ok (.cons h h')

end Agree

/-- An operand that names a symbol is renamed, any other stays as it is. -/
def Instruction.rename (i : Instruction) (r : Text → Text) (operand : Text) : Text :=
  if i.format = .address then r operand else operand

/-- The reason in other names. An operand out of range is a name when the range is that of the
addresses. -/
def Fault.rename (r : Text → Text) : Fault → Fault
  | .duplicateLabel name => .duplicateLabel (r name)
  | .undefinedSymbol name => .undefinedSymbol (r name)
  | .operandOutOfRange operand value max =>
    .operandOutOfRange (if max = lastAddress then r operand else operand) value max
  | f => f

/-- The entry in other names, on the given line. -/
def Entry.rename (r : Text → Text) (line : Nat) (e : Entry) : Entry :=
  { e with operand := e.operand.map (e.instruction.rename r), line }

/-- What an entry holds besides its line. -/
def Entry.content (e : Entry) : Word × Instruction × Option Text × Option Int :=
  (e.word, e.instruction, e.operand, e.resolved)

theorem Fault.rename_id (f : Fault) : f.rename id = f := by
  cases f <;> simp [rename]

theorem Entry.rename_id (line : Nat) (e : Entry) : e.rename id line = { e with line } := by
  have hid : e.instruction.rename id = id := by
    funext operand
    simp [Instruction.rename]
  rw [rename, hid, Option.map_id_fun, id_eq]

theorem map_eq_map_iff_forall₂ {α β γ : Type} {f : α → γ} {g : β → γ} {xs : List α}
    {ys : List β} : xs.map f = ys.map g ↔ List.Forall₂ (fun x y => f x = g y) xs ys := by
  rw [← List.forall₂_eq_eq_eq, List.forall₂_map_left_iff, List.forall₂_map_right_iff]

/-- The line of an entry does not show in a listing. -/
theorem Entry.text_of_content {e e' : Entry} (h : e.content = e'.content) : e.text = e'.text := by
  obtain ⟨i, w, operand, resolved, line⟩ := e
  obtain ⟨i', w', operand', resolved', line'⟩ := e'
  obtain ⟨rfl, rfl, rfl, rfl⟩ : w = w' ∧ i = i' ∧ operand = operand' ∧ resolved = resolved' := by
    simpa [content] using h
  rfl

theorem Program.listing_of_content {p q : Program}
    (h : p.entries.map Entry.content = q.entries.map Entry.content) : p.listing = q.listing := by
  rw [map_eq_map_iff_forall₂] at h
  rw [listing, listing]
  generalize p.entries = es at h
  generalize q.entries = es' at h
  induction h with
  | nil => rfl
  | cons he _ ih => rw [List.flatMap_cons, List.flatMap_cons, Entry.text_of_content he, ih]

/-- The same mnemonic up to case, and the same operand up to the name of a symbol. -/
structure Operation.Corresponds (r : Text → Text) (o o' : Operation) : Prop where
  mnemonic : Text.upper o'.mnemonic.text = Text.upper o.mnemonic.text
  operand : ∀ i : Instruction, i.mnemonic = Text.upper o.mnemonic.text →
    o'.operand.map (·.text) = o.operand.map fun t => i.rename r t.text

section Encoding

variable {t t' : SymbolTable} {r : Text → Text}

theorem Instruction.inRange_rename (r : Text → Text) (operand : Text) (value max : Int) :
    inRange (if max = lastAddress then r operand else operand) value max =
      (inRange operand value max).mapError (Fault.rename r) := by
  by_cases h : 0 ≤ value ∧ value ≤ max
  · rw [inRange, inRange, if_pos h, if_pos h]
    rfl
  · rw [inRange, inRange, if_neg h, if_neg h]
    rfl

/-- The value of an operand stays when its name is changed in the table too. -/
theorem Instruction.operandValue_rename (hr : ∀ name, t'.address? (r name) = t.address? name)
    (i : Instruction) (operand : Text) :
    i.operandValue t' (i.rename r operand) =
      (i.operandValue t operand).mapError (Fault.rename r) := by
  cases hf : i.format with
  | bare => simp [operandValue, hf, Except.mapError]
  | byte =>
    rw [rename, if_neg (by simp [hf]), operandValue_byte hf, operandValue_byte hf, literal]
    cases Numeral.literal? operand with
    | none => rfl
    | some value => exact inRange_rename r operand value 255
  | constant =>
    rw [rename, if_neg (by simp [hf]), operandValue_constant hf, operandValue_constant hf, literal]
    cases Numeral.literal? operand <;> rfl
  | address =>
    rw [rename, if_pos hf]
    cases ha : t.address? operand with
    | none =>
      rw [operandValue_undefined hf ha, operandValue_undefined hf ((hr operand).trans ha)]
      rfl
    | some a =>
      rw [operandValue_address hf ha, operandValue_address hf ((hr operand).trans ha)]
      exact inRange_rename r operand a lastAddress

theorem Entry.withOperand_rename (i : Instruction) (text : Text) (value : Int) (line line' : Nat) :
    withOperand i (i.rename r text) value line' =
      (withOperand i text value line).rename r line' := by
  unfold withOperand
  cases hf : i.format <;> simp [rename, Instruction.rename, bare, hf]

/-- Corresponding operations are encoded to the same word or refused for the same reason. -/
theorem Operation.Corresponds.encode (hr : ∀ name, t'.address? (r name) = t.address? name)
    {o o' : Operation} (h : o.Corresponds r o') (line line' : Nat) :
    Agree (fun d d' => d.line = line ∧ d'.line = line' ∧ d'.fault = d.fault.rename r)
      (fun e e' => e.line = line ∧ e' = e.rename r line')
      (o.encode t line) (o'.encode t' line') := by
  by_cases hex : ∃ i : Instruction, i.mnemonic = Text.upper o.mnemonic.text
  · obtain ⟨i, hi⟩ := hex
    have hi' : i.mnemonic = Text.upper o'.mnemonic.text := hi.trans h.mnemonic.symm
    by_cases hf : i.format = .bare
    · rw [encode_bare hi hf, encode_bare hi' hf]
      exact .ok ⟨rfl, rfl⟩
    have hoperand := h.operand i hi
    cases ho : o.operand with
    | none =>
      rw [ho] at hoperand
      have ho' : o'.operand = none := by simpa using hoperand
      rw [encode_missing hi hf ho, encode_missing hi' hf ho']
      exact .error ⟨rfl, rfl, rfl⟩
    | some u =>
      rw [ho] at hoperand
      obtain ⟨u', ho', (hu : u'.text = i.rename r u.text)⟩ := Option.map_eq_some_iff.1 hoperand
      have hvalue := i.operandValue_rename hr u.text
      rw [← hu] at hvalue
      cases hv : i.operandValue t u.text with
      | error f =>
        rw [hv] at hvalue
        rw [encode_operand_error hi hf ho hv, encode_operand_error hi' hf ho' hvalue]
        exact .error ⟨rfl, rfl, rfl⟩
      | ok value =>
        rw [hv] at hvalue
        rw [encode_operand_ok hi hf ho hv, encode_operand_ok hi' hf ho' hvalue, hu]
        exact .ok ⟨Entry.withOperand_line .., Entry.withOperand_rename ..⟩
  · have hn : ∀ i : Instruction, i.mnemonic ≠ Text.upper o.mnemonic.text :=
      fun i hi => hex ⟨i, hi⟩
    have hn' : ∀ i : Instruction, i.mnemonic ≠ Text.upper o'.mnemonic.text := by
      rw [h.mnemonic]
      exact hn
    rw [encode_unknown hn, encode_unknown hn', h.mnemonic]
    exact .error ⟨rfl, rfl, rfl⟩

/-- Encoding goes over the operations and sees nothing else of the lines. -/
theorem encodeLines_eq (t : SymbolTable) (lines : List Line) :
    encodeLines t lines = (operations lines).mapM fun x => x.2.encode t x.1 := by
  induction lines with
  | nil => rfl
  | cons l rest ih =>
    cases ho : l.operation? with
    | none => rw [encodeLines_cons_none ho, operations_cons_none ho, ih]
    | some o =>
      rw [operations_cons_some ho, List.mapM_cons, ← ih]
      cases he : o.encode t l.index with
      | error d =>
        rw [encodeLines_cons_error ho he]
        rfl
      | ok e =>
        rw [encodeLines_cons_ok ho he]
        cases encodeLines t rest <;> rfl

/-- Lines whose operations correspond one to one, on lines that `L` relates, give corresponding
entries, or are refused for the same reason on related lines. -/
theorem encodeLines_agree (hr : ∀ name, t'.address? (r name) = t.address? name)
    {L : Nat → Nat → Prop} {xs ys : List Line}
    (h : List.Forall₂ (fun x y => L x.1 y.1 ∧ x.2.Corresponds r y.2) (operations xs)
      (operations ys)) :
    Agree (fun d d' => L d.line d'.line ∧ d'.fault = d.fault.rename r)
      (List.Forall₂ fun e e' => L e.line e'.line ∧ e' = e.rename r e'.line)
      (encodeLines t xs) (encodeLines t' ys) := by
  rw [encodeLines_eq, encodeLines_eq]
  apply Agree.mapM
  refine h.imp fun x y hxy => ?_
  refine (hxy.2.encode hr x.1 y.1).imp ?_ ?_
  · rintro d d' ⟨hd, hd', hfault⟩
    rw [hd, hd']
    exact ⟨hxy.1, hfault⟩
  · rintro e e' ⟨he, rfl⟩
    rw [he]
    exact ⟨hxy.1, rfl⟩

end Encoding

/-- Sources agree when each pass does: the first on their tables, the strict rule on related tables,
and the second with related tables. -/
theorem assemble_agree {source source' : Text} {E : Diagnostic → Diagnostic → Prop}
    {T : SymbolTable → SymbolTable → Prop} {R : Program → Program → Prop}
    (hfirst : Agree E T (SymbolTable.ofLines (Line.readAll source))
      (SymbolTable.ofLines (Line.readAll source')))
    (hoverlaps : ∀ t t', T t t' → t.overlaps = t'.overlaps)
    (hoverflow : ∀ t t', T t t' → t.overlaps = true →
      E (overflow (Line.readAll source) t) (overflow (Line.readAll source') t'))
    (hsecond : ∀ t t', T t t' → Agree E (fun es es' => R ⟨es, t⟩ ⟨es', t'⟩)
      (encodeLines t (Line.readAll source)) (encodeLines t' (Line.readAll source')))
    (strict : Bool) : Agree E R (assemble strict source) (assemble strict source') := by
  generalize hx : SymbolTable.ofLines (Line.readAll source) = x at hfirst
  generalize hy : SymbolTable.ofLines (Line.readAll source') = y at hfirst
  cases hfirst with
  | error h =>
    rw [assemble_of_error hx, assemble_of_error hy]
    exact .error h
  | @ok t t' h =>
    by_cases hs : strict = true ∧ t.overlaps = true
    · rw [assemble_of_overlaps hx hs.1 hs.2,
        assemble_of_overlaps hy hs.1 (hoverlaps t t' h ▸ hs.2)]
      exact .error (hoverflow t t' h hs.2)
    · rw [assemble_of_ofLines hx hs, assemble_of_ofLines hy (hoverlaps t t' h ▸ hs)]
      exact (hsecond t t' h).map fun _ _ hR => hR

end Mac1
