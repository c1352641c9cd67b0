import Mac1.Memory

/-!
What filling memory leaves behind. Words go to consecutive addresses until they or the addresses
run out, so afterwards memory holds as many of the words as fit, followed by zeros.
-/
namespace Mac1

/-- The answer to writing `ws` from address `a` on, with addresses below `size`. -/
def fillResult (size a : Nat) (ws : List Word) : Except MemoryFault Nat :=
  if a + ws.length ≤ size then .ok (a + ws.length) else .error (.addressOutOfRange size)

/-- The words of a memory that held `cells`, after `ws` have been written from address `a` on. -/
def filled (cells : List Word) (a : Nat) (ws : List Word) : List Word :=
  cells.take a ++ ws.take (cells.length - a) ++ cells.drop (a + ws.length)

theorem fillResult_cons (size a : Nat) (w : Word) (ws : List Word) :
    fillResult size (a + 1) ws = fillResult size a (w :: ws) := by
  rw [fillResult, fillResult, List.length_cons, Nat.add_right_comm, Nat.add_assoc]

theorem filled_nil (cells : List Word) (a : Nat) : filled cells a [] = cells := by
  simp [filled]

theorem filled_cons {cells : List Word} {a : Nat} (ha : a < cells.length) (w : Word)
    (ws : List Word) : filled (cells.set a w) (a + 1) ws = filled cells a (w :: ws) := by
  have htake : (cells.set a w).take (a + 1) = cells.take a ++ [w] := by
    rw [List.take_succ_eq_append_getElem (by simpa using ha), List.take_set_of_le (Nat.le_refl a)]
    simp
  have hdrop : (cells.set a w).drop (a + 1 + ws.length) = cells.drop (a + (ws.length + 1)) := by
    rw [List.drop_set_of_lt (by omega), Nat.add_right_comm, Nat.add_assoc]
  have hrest : cells.length - a = (cells.length - (a + 1)) + 1 := by omega
  rw [filled, filled, htake, hdrop, List.length_set, List.length_cons, hrest, List.take_succ_cons]
  simp

theorem filled_end {cells : List Word} (ws : List Word) : filled cells cells.length ws = cells := by
  simp [filled]

namespace Memory

/-- Every word advances the address by one, and the address after the last one stops the loop. -/
theorem writeFrom_eq (m : Memory) (a : Nat) (ws : List Word) (ha : a ≤ memorySize) :
    (m.writeFrom a ws).1 = fillResult memorySize a ws ∧
      (m.writeFrom a ws).2.words.toList = filled m.words.toList a ws := by
  induction ws generalizing m a with
  | nil => exact ⟨(if_pos ha).symm, (filled_nil ..).symm⟩
  | cons w ws ih =>
    have hlen : m.words.toList.length = memorySize := Vector.length_toList
    rcases Nat.lt_or_eq_of_le ha with hlt | heq
    · obtain ⟨hres, hwords⟩ := ih (m.set ⟨a, hlt⟩ w) (a + 1) (Nat.succ_le_of_lt hlt)
      rw [writeFrom_cons_ok (write_of_lt m hlt w)]
      refine ⟨hres.trans (fillResult_cons ..), ?_⟩
      rw [hwords, toList_words_set]
      exact filled_cons (hlen.symm ▸ hlt) w ws
    · have hw : m.write (a : Nat) w = .error (.addressOutOfRange (a : Nat)) :=
        write_of_not_mem m (by omega) w
      rw [writeFrom_cons_error hw]
      constructor
      · rw [fillResult, List.length_cons, if_neg (by omega), heq]
      · have hend : a = m.words.toList.length := heq.trans hlen.symm
        rw [hend, filled_end]

end Memory

/-- What loading words answers and leaves behind: the words with zeros after them or, when they do
not fit, as many of them as do. -/
def loaded (ws : List Word) : Except MemoryFault Nat × List Word :=
  if ws.length ≤ memorySize then
    (.ok ws.length, ws ++ List.replicate (memorySize - ws.length) 0)
  else (.error (.addressOutOfRange memorySize), ws.take memorySize)

theorem Memory.load_eq (m : Memory) (listing : Text) :
    (m.load listing).1 = (loaded (machineWords listing)).1 ∧
      (m.load listing).2.words.toList = (loaded (machineWords listing)).2 := by
  obtain ⟨hres, hwords⟩ := blank.writeFrom_eq 0 (machineWords listing) (Nat.zero_le _)
  rw [toList_words_blank, filled, List.take_zero, List.nil_append, List.length_replicate,
    List.drop_replicate, Nat.zero_add, Nat.sub_zero] at hwords
  rw [load, clear_eq_blank, hres, hwords, fillResult, Nat.zero_add]
  generalize machineWords listing = ws
  by_cases h : ws.length ≤ memorySize
  · rw [loaded, if_pos h, if_pos h, List.take_of_length_le h]
    exact ⟨rfl, rfl⟩
  · rw [loaded, if_neg h, if_neg h, Nat.sub_eq_zero_of_le (Nat.le_of_not_le h),
      List.replicate_zero, List.append_nil]
    exact ⟨rfl, rfl⟩

end Mac1
