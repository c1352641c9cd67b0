import Mac1.Proofs.Listing
import Mac1.Proofs.Load
import Mathlib.Logic.Relation

/-!
Loading a text line by line. Memory is set to zero first, so that nothing of it is left. Then every
line that holds a word fills the next cell, any other line is passed over, and a word for which
there is no cell ends the loop.
-/
namespace Mac1

namespace Memory

/-- A load depends on the words alone. -/
theorem load_congr (m m' : Memory) {text text' : Text}
    (h : machineWords text = machineWords text') : m.load text = m'.load text' := by
  rw [load, load, clear_eq_blank, clear_eq_blank, h]

end Memory

theorem machineWords_eq_nil_iff {text : Text} :
    machineWords text = [] ↔ ∀ line ∈ text.splitOn '\n', machineWord? line = none := by
  rw [machineWords_eq, List.filterMap_eq_nil_iff]

/-- Other lines than those of words do not count. -/
theorem machineWords_eq_of_filter {text text' : Text}
    (h : (text.splitOn '\n').filter (machineWord? · |>.isSome) =
      (text'.splitOn '\n').filter (machineWord? · |>.isSome)) :
    machineWords text = machineWords text' := by
  have hfilter : ∀ lines : List Text, lines.filterMap machineWord? =
      (lines.filter (machineWord? · |>.isSome)).filterMap machineWord? := by
    intro lines
    induction lines with
    | nil => rfl
    | cons line lines ih =>
      cases hw : machineWord? line with
      | none => rw [List.filterMap_cons_none hw, List.filter_cons_of_neg (by simp [hw]), ih]
      | some w =>
        rw [List.filterMap_cons_some hw, List.filter_cons_of_pos (by simp [hw]),
          List.filterMap_cons_some hw, ih]
  rw [machineWords_eq, machineWords_eq, hfilter, h, ← hfilter]

/-- A load in progress: memory, the next address, and the lines that are not yet read. -/
structure Loading where
  memory : Memory
  address : Nat
  lines : List Text

namespace Loading

def start (m : Memory) (text : Text) : Loading := ⟨m.clear, 0, text.splitOn '\n'⟩

/-- A line is read. A word that cannot be written is not passed. -/
inductive Step : Loading → Loading → Prop
  | skip {m : Memory} {a : Nat} {line : Text} {lines : List Text} (h : machineWord? line = none) :
      Step ⟨m, a, line :: lines⟩ ⟨m, a, lines⟩
  | store {m m' : Memory} {a : Nat} {line : Text} {lines : List Text} {w : Word}
      (h : machineWord? line = some w) (hw : m.write a w = .ok m') :
      Step ⟨m, a, line :: lines⟩ ⟨m', a + 1, lines⟩

abbrev Steps : Loading → Loading → Prop := Relation.ReflTransGen Step

/-- What the loop answers and leaves behind from here on. -/
def finish (s : Loading) : Except MemoryFault Nat × Memory :=
  s.memory.writeFrom s.address (s.lines.filterMap machineWord?)

theorem finish_start (m : Memory) (text : Text) : (start m text).finish = m.load text := by
  rw [Memory.load, machineWords_eq]
  rfl

/-- What a loop answers that goes no further: the number of words, or the refused address. -/
def answer (s : Loading) : Except MemoryFault Nat :=
  if s.lines = [] then .ok s.address else .error (.addressOutOfRange s.address)

/-- The lines read so far, and that their words fill the memory up to the next address. -/
structure HasRead (s : Loading) (lines read : List Text) : Prop where
  lines : read ++ s.lines = lines
  address : (read.filterMap machineWord?).length = s.address
  room : s.address ≤ memorySize
  words : s.memory.words.toList =
    read.filterMap machineWord? ++ List.replicate (memorySize - s.address) 0

variable {s t : Loading} {lines read : List Text}

theorem hasRead_start (m : Memory) (text : Text) : (start m text).HasRead (text.splitOn '\n') [] :=
  ⟨rfl, rfl, Nat.zero_le _, by simp [start]⟩

theorem set_filled {ws : List Word} (h : ws.length < memorySize) (w : Word) :
    (ws ++ List.replicate (memorySize - ws.length) 0).set ws.length w =
      ws ++ [w] ++ List.replicate (memorySize - (ws.length + 1)) 0 := by
  have hroom : memorySize - ws.length = (memorySize - (ws.length + 1)) + 1 := by omega
  rw [List.set_append_right _ _ (Nat.le_refl _), Nat.sub_self, hroom, List.replicate_succ,
    List.set_cons_zero, List.append_assoc, List.singleton_append]

theorem Step.hasRead (h : Step s t) (hs : s.HasRead lines read) :
    ∃ line, t.HasRead lines (read ++ [line]) := by
  cases h with
  | @skip m a line rest h =>
    have hwords : (read ++ [line]).filterMap machineWord? = read.filterMap machineWord? := by
      simp [h]
    refine ⟨line, ?_, ?_, hs.room, ?_⟩
    · rw [← hs.lines, List.append_assoc, List.singleton_append]
    · rw [hwords, hs.address]
    · rw [hwords, hs.words]
  | @store m m' a line rest w h hw =>
    have hwords : (read ++ [line]).filterMap machineWord? = read.filterMap machineWord? ++ [w] := by
      simp [h]
    have ha : (read.filterMap machineWord?).length = a := hs.address
    have hlt : a < memorySize := by
      by_contra hge
      rw [Memory.write_of_not_mem m (by omega)] at hw
      cases hw
    rw [Memory.write_of_lt m hlt] at hw
    cases hw
    refine ⟨line, ?_, ?_, hlt, ?_⟩
    · rw [← hs.lines, List.append_assoc, List.singleton_append]
    · rw [hwords, List.length_append, ha]
      rfl
    · have hset := set_filled (ha ▸ hlt) w
      have hm : m.words.toList = _ := hs.words
      rw [Memory.toList_words_set, hm, hwords]
      rwa [ha] at hset

theorem Steps.hasRead (h : Steps s t) (hs : s.HasRead lines read) :
    ∃ read', t.HasRead lines read' := by
  induction h with
  | refl => exact ⟨read, hs⟩
  | tail _ hstep ih =>
    obtain ⟨read', hread⟩ := ih
    obtain ⟨line, hline⟩ := hstep.hasRead hread
    exact ⟨_, hline⟩

theorem Step.finish_eq (h : Step s t) : t.finish = s.finish := by
  cases h with
  | skip h => rw [finish, finish, List.filterMap_cons_none h]
  | store h hw =>
    rw [finish, finish, List.filterMap_cons_some h]
    exact (Memory.writeFrom_cons_ok hw _).symm

theorem Steps.finish_eq (h : Steps s t) : t.finish = s.finish := by
  induction h with
  | refl => rfl
  | tail _ hstep ih => exact hstep.finish_eq.trans ih

theorem Step.lines_eq (h : Step s t) : ∃ line, s.lines = line :: t.lines := by
  cases h with
  | skip => exact ⟨_, rfl⟩
  | store => exact ⟨_, rfl⟩

/-- The loop ends. -/
theorem exists_last (s : Loading) : ∃ last, Steps s last ∧ ∀ t, ¬Step last t := by
  induction hlines : s.lines generalizing s with
  | nil =>
    refine ⟨s, .refl, fun t h => ?_⟩
    obtain ⟨line, hline⟩ := h.lines_eq
    rw [hlines] at hline
    cases hline
  | cons line lines ih =>
    by_cases hnext : ∃ t, Step s t
    · obtain ⟨t, ht⟩ := hnext
      obtain ⟨line', hline⟩ := ht.lines_eq
      rw [hlines] at hline
      cases hline
      obtain ⟨last, hlast, hend⟩ := ih t rfl
      exact ⟨last, hlast.head ht, hend⟩
    · exact ⟨s, .refl, fun t ht => hnext ⟨t, ht⟩⟩

theorem finish_of_last (h : ∀ t, ¬Step s t) : s.finish = (s.answer, s.memory) := by
  obtain ⟨m, a, lines⟩ := s
  cases lines with
  | nil => rfl
  | cons line lines =>
    cases hw : machineWord? line with
    | none => exact absurd (.skip hw) (h _)
    | some w =>
      by_cases ha : a < memorySize
      · exact absurd (.store hw (m.write_of_lt ha w)) (h _)
      · have hwrite : m.write (a : Nat) w = .error (.addressOutOfRange (a : Nat)) :=
          m.write_of_not_mem (by omega) w
        rw [finish, List.filterMap_cons_some hw]
        exact Memory.writeFrom_cons_error hwrite _

end Loading

/-- What loading any text does to any memory, in terms of the words of its lines. If they fit, their
number is the answer, and memory holds them with zeros after them; otherwise the address after the
last cell is refused, and memory holds as many of them as fit. Nothing depends on the memory before,
so a second load changes nothing, and nothing depends on lines without a word, wherever they stand.
While the lines are read, the next address is the number of words so far and never passes the last
cell by more than one; the words so far are in memory, and the loop ends with what the load answers
and leaves behind. -/
theorem Memory.load_exact (m : Memory) (text : Text) :
    let ws := (text.splitOn '\n').filterMap machineWord?
    (ws.length ≤ memorySize →
      (m.load text).1 = .ok ws.length ∧
      (m.load text).2.words.toList = ws ++ List.replicate (memorySize - ws.length) 0) ∧
    (memorySize < ws.length →
      (m.load text).1 = .error (.addressOutOfRange memorySize) ∧
      (m.load text).2.words.toList = ws.take memorySize) ∧
    (∀ m' : Memory, m'.load text = m.load text) ∧
    (m.load text).2.load text = m.load text ∧
    (∀ text' : Text, (text'.splitOn '\n').filter (machineWord? · |>.isSome) =
        (text.splitOn '\n').filter (machineWord? · |>.isSome) → m.load text' = m.load text) ∧
    (∀ block after : Text, (∀ line ∈ block.splitOn '\n', machineWord? line = none) →
      m.load (block ++ '\n' :: text) = m.load text ∧
      m.load (text ++ '\n' :: block) = m.load text ∧
      m.load (text ++ '\n' :: block ++ '\n' :: after) = m.load (text ++ '\n' :: after)) ∧
    (∀ s, Loading.Steps (.start m text) s →
      s.address ≤ memorySize ∧ ∃ read, s.HasRead (text.splitOn '\n') read) ∧
    ∃ last, Loading.Steps (.start m text) last ∧ (∀ s, ¬Loading.Step last s) ∧
      m.load text = (last.answer, last.memory) := by
  intro ws
  obtain ⟨hresult, hwords⟩ := m.load_eq text
  have hws : machineWords text = ws := machineWords_eq text
  rw [hws, loaded] at hresult hwords
  refine ⟨fun hfit => ?_, fun hfull => ?_, fun m' => load_congr m' m rfl, load_congr _ m rfl,
    fun text' h => load_congr m m (machineWords_eq_of_filter h), fun block after hblock => ?_,
    fun s hs => ?_, ?_⟩
  · rw [if_pos hfit] at hresult hwords
    exact ⟨hresult, hwords⟩
  · rw [if_neg (Nat.not_le_of_lt hfull)] at hresult hwords
    exact ⟨hresult, hwords⟩
  · have hnone := machineWords_eq_nil_iff.2 hblock
    refine ⟨load_congr m m ?_, load_congr m m ?_, load_congr m m ?_⟩
    · rw [machineWords_append_newline, hnone, List.nil_append]
    · rw [machineWords_append_newline, hnone, List.append_nil]
    · rw [machineWords_append_newline, machineWords_append_newline, hnone, List.append_nil,
        machineWords_append_newline]
  · obtain ⟨read, hread⟩ := hs.hasRead (Loading.hasRead_start m text)
    exact ⟨hread.room, read, hread⟩
  · obtain ⟨last, hlast, hend⟩ := (Loading.start m text).exists_last
    refine ⟨last, hlast, hend, ?_⟩
    rw [← Loading.finish_start, ← hlast.finish_eq, Loading.finish_of_last hend]

end Mac1
