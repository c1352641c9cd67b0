import Mac1.Proofs.Listing
import Mac1.Proofs.Load

/-!
Programs in memory. A program reaches memory only as the text of its listing. The words that are
found in that text are those of the program, so memory holds each word at its own address and zero
at every address after the last one.
-/
namespace Mac1

theorem Memory.read_of_getElem? {m : Memory} {a : Nat} {w : Word}
    (h : m.words.toList[a]? = some w) : m.read a = .ok w := by
  obtain ⟨ha, hw⟩ := List.getElem?_eq_some_iff.1 h
  have hlt : a < memorySize := by rwa [Vector.length_toList] at ha
  rw [read_of_lt m hlt, ← hw]
  rfl

theorem getElem?_loaded_of_lt {ws : List Word} (h : ws.length ≤ memorySize) {a : Nat}
    (ha : a < ws.length) : (loaded ws).2[a]? = ws[a]? := by
  rw [loaded, if_pos h]
  exact List.getElem?_append_left ha

theorem getElem?_loaded_of_le {ws : List Word} (h : ws.length ≤ memorySize) {a : Nat}
    (ha : ws.length ≤ a) (hlt : a < memorySize) : (loaded ws).2[a]? = some 0 := by
  rw [loaded, if_pos h]
  dsimp only
  rw [List.getElem?_append_right ha, List.getElem?_replicate, if_pos (by omega)]

section Program

variable {strict : Bool} {source : Text} {p : Program}

/-- Loading the listing of a program is loading its code. -/
theorem load_listing_eq (h : assemble strict source = .ok p) (m : Memory) :
    (m.load p.listing).1 = (loaded p.code).1 ∧
      (m.load p.listing).2.words.toList = (loaded p.code).2 := by
  rw [← machineWords_listing h]
  exact m.load_eq p.listing

theorem load_listing_ok (h : assemble strict source = .ok p) (hsize : p.size ≤ memorySize)
    (m : Memory) : (m.load p.listing).1 = .ok p.size := by
  rw [← p.length_code] at hsize ⊢
  rw [(load_listing_eq h m).1, loaded, if_pos hsize]

/-- Each word of the program arrives at its own address. -/
theorem read_entry (h : assemble strict source = .ok p) (hsize : p.size ≤ memorySize) (m : Memory)
    {a : Nat} {e : Entry} (he : p.entries[a]? = some e) :
    (m.load p.listing).2.read a = .ok e.word := by
  have hcode : p.code[a]? = some e.word := by
    rw [Program.code, List.getElem?_map, he]
    rfl
  have ha : a < p.code.length := (List.getElem?_eq_some_iff.1 hcode).1
  apply Memory.read_of_getElem?
  rw [(load_listing_eq h m).2, getElem?_loaded_of_lt (p.length_code.symm ▸ hsize) ha, hcode]

/-- Addresses after the program hold zero, whatever memory held before. -/
theorem read_after (h : assemble strict source = .ok p) (hsize : p.size ≤ memorySize) (m : Memory)
    {a : Nat} (ha : p.size ≤ a) (hlt : a < memorySize) :
    (m.load p.listing).2.read a = .ok 0 := by
  apply Memory.read_of_getElem?
  rw [← p.length_code] at hsize ha
  rw [(load_listing_eq h m).2, getElem?_loaded_of_le hsize ha hlt]

end Program

/-- Loading undoes listing, for every assembled program and every memory. A program that fits is
answered with its size; each of its words is then read at its own address, and zero at all other
addresses. A program that does not fit is refused at the first address past the end, and memory
holds as many of its words as there are cells. -/
theorem load_listing {strict : Bool} {source : Text} {p : Program}
    (h : assemble strict source = .ok p) (m : Memory) :
    (p.size ≤ memorySize →
      (m.load p.listing).1 = .ok p.size ∧
      (∀ (a : Nat) (e : Entry), p.entries[a]? = some e →
        (m.load p.listing).2.read a = .ok e.word) ∧
      (∀ a : Nat, p.size ≤ a → a < memorySize → (m.load p.listing).2.read a = .ok 0)) ∧
    (memorySize < p.size →
      (m.load p.listing).1 = .error (.addressOutOfRange memorySize) ∧
      (m.load p.listing).2.words.toList = p.code.take memorySize) := by
  constructor
  · intro hsize
    refine ⟨load_listing_ok h hsize m, fun a e he => read_entry h hsize m he, ?_⟩
    exact fun a ha hlt => read_after h hsize m ha hlt
  · intro hsize
    rw [← p.length_code] at hsize
    obtain ⟨hres, hwords⟩ := load_listing_eq h m
    rw [hres, hwords, loaded, if_neg (Nat.not_le_of_lt hsize)]
    exact ⟨rfl, rfl⟩

/-- An operand with a slash, digits in parentheses, a carriage return and a letter outside of ASCII,
loaded over two old words. -/
theorem load_listing_odd_operand :
    let source := "ERROR/(01)\r/é: JUMP ERROR/(01)\r/é".toList
    let m := (Memory.blank.load "0000000000000001\n1111111111111111".toList).2
    ∃ p, assemble false source = .ok p ∧ p.size = 1 ∧ (m.load p.listing).1 = .ok 1 ∧
      (m.load p.listing).2.read 0 = .ok 0x6000 ∧ (m.load p.listing).2.read 1 = .ok 0 := by
  intro source m
  have hcode : (assemble false source).toOption.map Program.code = some [0x6000] := by decide
  cases h : assemble false source with
  | error d =>
    rw [h] at hcode
    cases hcode
  | ok p =>
    rw [h] at hcode
    have hp : p.code = [0x6000] := Option.some.inj hcode
    have hsize : p.size = 1 := by rw [← p.length_code, hp]; rfl
    obtain ⟨e, he, hword⟩ := List.map_eq_singleton_iff.1 hp
    obtain ⟨hok, hread, hzero⟩ := (load_listing h m).1 (by rw [hsize]; decide)
    rw [hsize] at hok
    refine ⟨p, rfl, hsize, hok, ?_, hzero 1 (by rw [hsize]) (by decide)⟩
    rw [← hword]
    exact hread 0 e (by rw [he]; rfl)

end Mac1
