import Mac1.Proofs.Session

/-!
Tables of words. Words that are given on the command line are decoded one after another; words that
are loaded from a listing go through memory and the rows it keeps. Both are shown as one table.
-/
namespace Mac1.Shell

namespace Display

/-- The rows of words that stand at consecutive addresses. -/
def rowsFrom (paint : Paint) (first : Nat) (words : List Word) : List Text :=
  (words.zipIdx first).map fun c => row paint (Row.ofWord (UInt16.ofNat c.2) c.1) c.1

@[simp] theorem rowsFrom_nil (paint : Paint) (first : Nat) : rowsFrom paint first [] = [] := rfl

@[simp] theorem rowsFrom_cons (paint : Paint) (first : Nat) (w : Word) (words : List Word) :
    rowsFrom paint first (w :: words) =
      row paint (Row.ofWord (UInt16.ofNat first) w) w :: rowsFrom paint (first + 1) words := rfl

/-- The table of words that stand in memory from address zero. -/
def table (paint : Paint) (words : List Word) : List Text :=
  header paint :: rowsFrom paint 0 words

end Display

namespace Manner

variable {m : Manner} {disk : Disk} {spelled : List Text} {words : List Word}

/-- Decoding gets past the texts that are words, and prints a row for each. -/
theorem run_decodeFrom (h : spelled.map Word.ofNumeral? = words.map some) (address : Nat)
    (rest : List Text) :
    (m.decodeFrom address (spelled ++ rest)).run disk =
      let next := (m.decodeFrom (address + words.length) rest).run disk
      ⟨next.exitCode, Text.unlines (Display.rowsFrom m.paint address words) ++ next.output,
        next.disk⟩ := by
  induction spelled generalizing address words with
  | nil =>
    obtain rfl : words = [] := by simpa using h
    rfl
  | cons t spelled ih =>
    cases words with
    | nil => simp at h
    | cons w words =>
      obtain ⟨hw, hwords⟩ := List.cons_eq_cons.1 h
      rw [List.cons_append, decodeFrom_cons_some hw, Script.run_print, ih hwords,
        List.length_cons, Nat.add_right_comm]
      simp [Nat.add_assoc]

theorem run_decode (h : spelled.map Word.ofNumeral? = words.map some) :
    (m.decode spelled).run disk = ⟨0, Text.unlines (Display.table m.paint words), disk⟩ := by
  rw [decode, Script.run_print, ← List.append_nil spelled, run_decodeFrom h]
  simp [Display.table]

theorem run_decode_unreadable (h : spelled.map Word.ofNumeral? = words.map some) {t : Text}
    (ht : Word.ofNumeral? t = none) (rest : List Text) :
    (m.decode (spelled ++ t :: rest)).run disk =
      ⟨1, Text.unlines (Display.table m.paint words), disk⟩ := by
  rw [decode, Script.run_print, run_decodeFrom h, decodeFrom_cons_none ht]
  simp [Display.table]

/-- The cells that a listing has filled are shown as its words, and no other cell is. -/
theorem wordTable_filled (hne : words ≠ []) (m : Manner) (zeros : List Word) :
    m.wordTable (words ++ zeros) ⟨0, words.length - 1, true⟩ = Display.table m.paint words := by
  have hlast : words.length - 1 + 1 = words.zipIdx.length := by
    have := List.length_pos_of_ne_nil hne
    rw [List.length_zipIdx]
    omega
  have hshown : (words ++ zeros).zipIdx.take (words.length - 1 + 1) = words.zipIdx := by
    rw [List.zipIdx_append, hlast, List.take_left]
  simp [wordTable, hshown, Display.table, Display.rowsFrom]

/-- Loading a listing and showing the cells that it fills. -/
theorem run_load_filled {path listing : Text} (hext : Path.extension? path ≠ some "asm".toList)
    (htext : disk.text? path = some listing) (hne : machineWords listing ≠ [])
    (hfit : (machineWords listing).length ≤ memorySize) (m : Manner) :
    let words := machineWords listing
    (m.load path ⟨0, words.length - 1, true⟩).run disk =
      ⟨0, Text.unlines (m.status "Reading" (Display.target path) ::
        m.status "Loaded" (Display.wordCount words.length) ::
        Display.table m.paint words), disk⟩ := by
  intro words
  have hlast : min (words.length - 1) (memorySize - 1) = words.length - 1 :=
    Nat.min_eq_left (Nat.sub_le_sub_right hfit 1)
  rw [run_load (Nat.zero_le _) htext]
  dsimp only
  rw [if_neg hext, Script.run_print, hlast, run_loadListing]
  dsimp only
  rw [if_pos hfit, wordTable_filled hne]
  simp [words]

end Manner

theorem exists_words_of_readable {texts : List Text}
    (h : ∀ t ∈ texts, (Word.ofNumeral? t).isSome) :
    ∃ words : List Word, texts.map Word.ofNumeral? = words.map some := by
  induction texts with
  | nil => exact ⟨[], rfl⟩
  | cons t texts ih =>
    obtain ⟨ht, htexts⟩ := List.forall_mem_cons.1 h
    obtain ⟨w, hw⟩ := Option.isSome_iff_exists.1 ht
    obtain ⟨words, hwords⟩ := ih htexts
    exact ⟨w :: words, by rw [List.map_cons, List.map_cons, hw, hwords]⟩

/-- Before the first text that is no word stand the spellings of some words. -/
theorem exists_words_before {texts : List Text} {k : Nat}
    (h : texts.findIdx? (fun t => (Word.ofNumeral? t).isNone) = some k) :
    ∃ (words : List Word) (t : Text), (texts.take k).map Word.ofNumeral? = words.map some ∧
      Word.ofNumeral? t = none ∧ texts = texts.take k ++ t :: texts.drop (k + 1) := by
  obtain ⟨hlt, hfirst, hbefore⟩ := List.findIdx?_eq_some_iff_getElem.1 h
  have hreadable : ∀ t ∈ texts.take k, (Word.ofNumeral? t).isSome := by
    intro t ht
    obtain ⟨i, hi, rfl⟩ := List.getElem_of_mem ht
    rw [List.length_take] at hi
    have hnot := hbefore i (by omega)
    rw [List.getElem_take]
    simpa [Option.ne_none_iff_isSome] using hnot
  obtain ⟨words, hwords⟩ := exists_words_of_readable hreadable
  exact ⟨words, texts[k], hwords, by simpa using hfirst, by simp⟩

/-- Decoding words and loading a listing of them show one table. Words that fit into memory are
decoded, however each of them is spelled, as the header and a row for each; any file that is loaded
as a listing and holds these words is shown, over the cells they fill, as the same lines after two
lines of status. At the first text that cannot be read decoding fails, and has then shown the table
of those before it. The strict rule makes no difference. -/
theorem decode_load_agree (paint : Paint) (e : Environment) (disk : Disk)
    (strict strict' minimal : Bool) :
    let shown := (Manner.under paint e strict minimal).paint
    (∀ (words : List Word) (spelled : List Text) (path listing : Text),
      words ≠ [] → words.length ≤ memorySize →
      spelled.map Word.ofNumeral? = words.map some →
      Path.extension? path ≠ some "asm".toList →
      disk.text? path = some listing → machineWords listing = words →
      let decoded := Request.run paint e disk ⟨strict, minimal, some (.decode spelled)⟩
      let loaded := Request.run paint e disk
        ⟨strict', minimal, some (.load path ⟨0, words.length - 1, true⟩)⟩
      decoded = ⟨0, Text.unlines (Display.table shown words), disk⟩ ∧
      loaded = ⟨0, Text.unlines [Display.status shown "Reading" (Display.target path),
        Display.status shown "Loaded" (Display.wordCount words.length)] ++ decoded.output, disk⟩) ∧
    (∀ (texts : List Text) (k : Nat),
      texts.findIdx? (fun t => (Word.ofNumeral? t).isNone) = some k →
      ∃ words : List Word, (texts.take k).map Word.ofNumeral? = words.map some ∧
        Request.run paint e disk ⟨strict, minimal, some (.decode texts)⟩ =
          ⟨1, Text.unlines (Display.table shown words), disk⟩) := by
  intro shown
  refine ⟨?_, ?_⟩
  · rintro _ spelled path listing hne hfit hspelled hext htext rfl decoded loaded
    have hdecoded : decoded =
        ⟨0, Text.unlines (Display.table shown (machineWords listing)), disk⟩ :=
      Manner.run_decode hspelled
    have hloaded : loaded = _ := Manner.run_load_filled hext htext hne hfit
      (Manner.under paint e strict' minimal)
    have hshown : (Manner.under paint e strict' minimal).paint = shown := rfl
    refine ⟨hdecoded, ?_⟩
    rw [hloaded, hdecoded, Manner.status, Manner.status, hshown]
    simp
  · intro texts k hk
    obtain ⟨words, t, hwords, ht, hsplit⟩ := exists_words_before hk
    refine ⟨words, hwords, ?_⟩
    rw [hsplit, Request.run_some, Manner.command_decode, Manner.run_decode_unreadable hwords ht]

/-- The words of a listing above the working directory, with a comment and a line that is no word in
it, are decoded from a hexadecimal and a decimal numeral. Of three texts the second is no word. -/
theorem decode_load_agree_spelled :
    let e : Environment := ⟨[]⟩
    let home : Name := ⟨"home".toList, by decide, by decide, by decide⟩
    let lst : Name := ⟨"m.lst".toList, by decide, by decide, by decide⟩
    let disk : Disk :=
      ⟨[([], .directory), ([home], .directory),
        ([lst], .file (Script.encode "0111000000000101 // LOCO 5\nend\n 1111111111111111".toList))],
        [home], by decide, by decide, by decide, by decide⟩
    ∃ decoded loaded failed,
      Request.run Paint.plain e disk
        ⟨true, false, some (.decode ["0x7005".toList, "65535".toList])⟩ = decoded ∧
      Request.run Paint.plain e disk
        ⟨false, false, some (.load "../m.lst".toList ⟨0, 1, true⟩)⟩ = loaded ∧
      Request.run Paint.plain e disk
        ⟨true, false, some (.decode ["-1".toList, "-one".toList, "0".toList])⟩ = failed ∧
      decoded.exitCode = 0 ∧ loaded.exitCode = 0 ∧ failed.exitCode = 1 ∧
      loaded.output = "     Reading target ../m.lst\n      Loaded 2 words\n".toList ++
        decoded.output ∧
      decoded.output = ("address binary           decimal  hex  instruction\n" ++
        "0000    0111000000000101       5 0005  LOCO 5\n" ++
        "0001    1111111111111111       0 0000  ???\n").toList ∧
      failed.output = ("address binary           decimal  hex  instruction\n" ++
        "0000    1111111111111111       0 0000  ???\n").toList := by
  intro e home lst disk
  obtain ⟨hshown, hfailed⟩ := decode_load_agree Paint.plain e disk true false false
  have hlocate : disk.locate "../m.lst".toList = some [lst] := by decide +kernel
  have htext : disk.text? "../m.lst".toList =
      some "0111000000000101 // LOCO 5\nend\n 1111111111111111".toList :=
    Disk.text?_of_locate hlocate rfl
  obtain ⟨hdecoded, hloaded⟩ := hshown [0x7005, 0xffff] ["0x7005".toList, "65535".toList]
    "../m.lst".toList _ (by decide) (by decide) (by decide) (by decide) htext (by decide)
  obtain ⟨words, hwords, hrun⟩ := hfailed ["-1".toList, "-one".toList, "0".toList] 1 (by decide)
  have hread : ["-1".toList].map Word.ofNumeral? = [0xffff].map some := by decide
  obtain rfl : words = [0xffff] :=
    List.map_injective_iff.2 (fun _ _ => Option.some.inj) (hwords.symm.trans hread)
  rw [hdecoded] at hloaded
  have hstatus : Text.unlines
      [Display.status Paint.plain "Reading" (Display.target "../m.lst".toList),
        Display.status Paint.plain "Loaded" (Display.wordCount 2)] =
      "     Reading target ../m.lst\n      Loaded 2 words\n".toList := by
    decide
  have htable : Text.unlines (Display.table Paint.plain [0x7005, 0xffff]) =
      ("address binary           decimal  hex  instruction\n" ++
        "0000    0111000000000101       5 0005  LOCO 5\n" ++
        "0001    1111111111111111       0 0000  ???\n").toList := by
    decide +kernel
  have hshort : Text.unlines (Display.table Paint.plain [0xffff]) =
      ("address binary           decimal  hex  instruction\n" ++
        "0000    1111111111111111       0 0000  ???\n").toList := by
    decide +kernel
  exact ⟨_, _, _, hdecoded, hloaded, hrun, rfl, rfl, rfl, congrArg (· ++ _) hstatus, htable, hshort⟩

end Mac1.Shell
