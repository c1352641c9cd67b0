import Mac1.Proofs.Image
import Mac1.Proofs.Refinement

/-!
Main memory as a store. Words and rows are kept apart and changed by three operations, one of which
can stop half way. Over every run of them each row shows the word of its cell, and each cell holds
what was last stored in it since memory was last set to zero.
-/
namespace Mac1

/-- What every step keeps, in view of the actions so far, holds after every run. -/
theorem runActions_tracks {σ α ρ : Type} {step : σ → α → ρ × σ} {P : σ → List α → Prop}
    (hstep : ∀ s done a, P s done → P (step s a).2 (done ++ [a])) {s : σ} {done : List α}
    (h : P s done) (as : List α) : P (runActions step s as).2 (done ++ as) := by
  induction as generalizing s done with
  | nil => simpa [runActions] using h
  | cons a as ih => simpa [runActions] using ih (hstep s done a h)

namespace Memory

/-- A change of memory: one cell gets a word, or all cells become zero. -/
inductive Change where
  | store (cell : Nat) (w : Word)
  | erase
  deriving DecidableEq

/-- The word that a change stores in the given cell. -/
def Change.wordAt? (cell : Nat) : Change → Option Word
  | .store c w => if c = cell then some w else none
  | .erase => none

/-- Words stored in consecutive cells. -/
def stores (cell : Nat) (ws : List Word) : List Change :=
  (ws.zipIdx cell).map fun x => .store x.2 x.1

/-- The changes that an action makes. A write outside of memory makes none, and a load sets all
cells to zero before it stores as many words as there are cells for. -/
def Action.changes : Action → List Change
  | .write address w =>
    if 0 ≤ address ∧ address < memorySize then [.store address.toNat w] else []
  | .clear => [.erase]
  | .load listing => .erase :: stores 0 ((machineWords listing).take memorySize)

def history (actions : List Action) : List Change := actions.flatMap Action.changes

/-- The word last stored in a cell since all cells were last set to zero, or zero if there is
none. -/
def lastStored (cell : Nat) (changes : List Change) : Word :=
  ((changes.reverse.takeWhile (· ≠ .erase)).findSome? (Change.wordAt? cell)).getD 0

theorem stores_cons (cell : Nat) (w : Word) (ws : List Word) :
    stores cell (w :: ws) = .store cell w :: stores (cell + 1) ws := rfl

theorem lastStored_erase (cell : Nat) (changes : List Change) :
    lastStored cell (changes ++ [.erase]) = 0 := by
  simp [lastStored]

theorem lastStored_store (cell : Nat) (changes : List Change) (w : Word) :
    lastStored cell (changes ++ [.store cell w]) = w := by
  simp [lastStored, Change.wordAt?]

theorem lastStored_store_ne {cell c : Nat} (h : c ≠ cell) (changes : List Change) (w : Word) :
    lastStored cell (changes ++ [.store c w]) = lastStored cell changes := by
  simp [lastStored, Change.wordAt?, h]

/-- Every cell holds what was last stored in it, and every row shows its cell. -/
structure Tracks (m : Memory) (changes : List Change) : Prop where
  words : ∀ i : Fin memorySize, m.words.get i = lastStored i changes
  rows : ∀ i : Fin memorySize, m.rows.get i = rowAt i (m.words.get i)

/-- A memory of zeros has nothing stored in it. -/
theorem tracks_blank {changes : List Change} (h : ∀ cell, lastStored cell changes = 0) :
    blank.Tracks changes := by
  constructor
  · intro i
    rw [get_words_blank, h]
  · intro i
    rw [get_rows_blank, get_words_blank]

theorem tracks_clear (m : Memory) (changes : List Change) :
    m.clear.Tracks (changes ++ [.erase]) := by
  rw [clear_eq_blank]
  exact tracks_blank fun cell => lastStored_erase cell changes

theorem Tracks.set {m : Memory} {changes : List Change} (h : m.Tracks changes)
    (i : Fin memorySize) (w : Word) : (m.set i w).Tracks (changes ++ [.store i w]) := by
  constructor
  · intro j
    rw [get_words_set]
    by_cases hij : i = j
    · rw [if_pos hij, ← hij, lastStored_store]
    · have hne : (i : Nat) ≠ j := fun he => hij (Fin.ext he)
      rw [if_neg hij, lastStored_store_ne hne, h.words]
  · intro j
    rw [get_rows_set, get_words_set]
    by_cases hij : i = j
    · rw [if_pos hij, if_pos hij, hij]
    · rw [if_neg hij, if_neg hij, h.rows]

/-- The loop of a load stores one word after another and stops behind the last cell. -/
theorem Tracks.writeFrom {m : Memory} {changes : List Change} (h : m.Tracks changes) {a : Nat}
    (ha : a ≤ memorySize) (ws : List Word) :
    (m.writeFrom a ws).2.Tracks (changes ++ stores a (ws.take (memorySize - a))) := by
  induction ws generalizing m a changes with
  | nil => simpa [stores] using h
  | cons w ws ih =>
    rcases Nat.lt_or_eq_of_le ha with hlt | heq
    · have hroom : memorySize - a = (memorySize - (a + 1)) + 1 := by omega
      have hnext := ih (h.set ⟨a, hlt⟩ w) (Nat.succ_le_of_lt hlt)
      rw [writeFrom_cons_ok (write_of_lt m hlt w), hroom, List.take_succ_cons, stores_cons]
      simpa only [List.append_assoc, List.singleton_append] using hnext
    · have hw : m.write (a : Nat) w = .error (.addressOutOfRange (a : Nat)) :=
        write_of_not_mem m (by omega) w
      rw [writeFrom_cons_error hw, heq, Nat.sub_self, List.take_zero]
      simpa [stores] using h

/-- One action, whether or not it fails. -/
theorem Tracks.act {m : Memory} {changes : List Change} (h : m.Tracks changes) (a : Action) :
    (m.act a).2.Tracks (changes ++ a.changes) := by
  cases a with
  | write address w =>
    by_cases ha : 0 ≤ address ∧ address < memorySize
    · obtain ⟨n, rfl⟩ := Int.eq_ofNat_of_zero_le ha.1
      have hn : n < memorySize := Int.ofNat_lt.1 ha.2
      rw [act_write_ok (write_of_lt m hn w), Action.changes, if_pos ha]
      exact h.set ⟨n, hn⟩ w
    · rw [act_write_error (write_of_not_mem m ha w), Action.changes, if_neg ha, List.append_nil]
      exact h
  | clear => exact tracks_clear m changes
  | load listing =>
    have hload := (tracks_clear m changes).writeFrom (Nat.zero_le memorySize) (machineWords listing)
    rw [List.append_assoc] at hload
    exact hload

theorem tracks_run (actions : List Action) :
    (runActions Memory.act blank actions).2.Tracks (history actions) := by
  have hstart : blank.Tracks (history []) := tracks_blank fun _ => rfl
  have hstep : ∀ (m : Memory) (done : List Action) (a : Action), m.Tracks (history done) →
      (m.act a).2.Tracks (history (done ++ [a])) := by
    intro m done a h
    simpa [history] using h.act a
  exact runActions_tracks (P := fun m done => Tracks m (history done)) hstep hstart actions

section Cells

variable {m : Memory} {changes : List Change} {a : Int}

theorem Tracks.read (h : m.Tracks changes) (ha : 0 ≤ a ∧ a < memorySize) :
    m.read a = .ok (lastStored a.toNat changes) := by
  obtain ⟨n, rfl⟩ := Int.eq_ofNat_of_zero_le ha.1
  have hn : n < memorySize := Int.ofNat_lt.1 ha.2
  rw [read_of_lt m hn, h.words]
  rfl

theorem Tracks.row (h : m.Tracks changes) (ha : 0 ≤ a ∧ a < memorySize) :
    m.row a = .ok (Row.ofWord (UInt16.ofNat a.toNat) (lastStored a.toNat changes)) := by
  obtain ⟨n, rfl⟩ := Int.eq_ofNat_of_zero_le ha.1
  have hn : n < memorySize := Int.ofNat_lt.1 ha.2
  rw [row_of_lt m hn, h.rows, h.words]
  rfl

end Cells

/-- Memory is a faithful store over every run of writes, clearings and loads, failed ones among
them. It has 4096 words and as many rows, and each row is that of its address and word. Every
address of a cell can be written; reading it gives the word that was last stored there since memory
was last set to zero, or zero. Every other address is refused by name, and a refused write leaves
memory as it is. -/
theorem run_faithful (actions : List Action) :
    let m := (runActions act blank actions).2
    m.words.toList.length = memorySize ∧ m.rows.toList.length = memorySize ∧
    (∀ i : Fin memorySize, m.rows.get i = Row.ofWord (UInt16.ofNat i) (m.words.get i)) ∧
    (∀ a : Int, 0 ≤ a ∧ a < memorySize →
      m.read a = .ok (lastStored a.toNat (history actions)) ∧
      m.row a = .ok (Row.ofWord (UInt16.ofNat a.toNat) (lastStored a.toNat (history actions))) ∧
      ∀ w, (m.act (.write a w)).1 = .stored (.ok ())) ∧
    (∀ a : Int, ¬(0 ≤ a ∧ a < memorySize) →
      m.read a = .error (.addressOutOfRange a) ∧ m.row a = .error (.addressOutOfRange a) ∧
      ∀ w, m.act (.write a w) = (.stored (.error (.addressOutOfRange a)), m)) := by
  intro m
  have h : m.Tracks (history actions) := tracks_run actions
  refine ⟨Vector.length_toList, Vector.length_toList, h.rows, ?_, ?_⟩
  · intro a ha
    refine ⟨h.read ha, h.row ha, fun w => ?_⟩
    obtain ⟨n, rfl⟩ := Int.eq_ofNat_of_zero_le ha.1
    rw [act_write_ok (write_of_lt m (Int.ofNat_lt.1 ha.2) w)]
  · intro a ha
    exact ⟨read_of_not_mem m ha, row_of_not_mem m ha,
      fun w => act_write_error (write_of_not_mem m ha w)⟩

/-- A load takes back an earlier write, and a refused write does not count. -/
theorem run_faithful_load :
    let actions : List Action :=
      [.write 1 7, .write 2 8, .load "0000000000000101\n/\n1111111111111111".toList,
        .write 4096 9, .write 1 6, .write (-1) 3]
    let m := (runActions act blank actions).2
    m.read 0 = .ok 5 ∧ m.read 1 = .ok 6 ∧ m.read 2 = .ok 0 ∧
      m.read (-1) = .error (.addressOutOfRange (-1)) := by
  intro actions m
  have hlast : lastStored 0 (history actions) = 5 ∧ lastStored 1 (history actions) = 6 ∧
      lastStored 2 (history actions) = 0 := by decide
  obtain ⟨-, -, -, hcells, hothers⟩ := run_faithful actions
  obtain ⟨h₀, h₁, h₂⟩ := hlast
  refine ⟨h₀ ▸ (hcells 0 (by decide)).1, h₁ ▸ (hcells 1 (by decide)).1,
    h₂ ▸ (hcells 2 (by decide)).1, (hothers (-1) (by decide)).1⟩

end Memory

end Mac1
