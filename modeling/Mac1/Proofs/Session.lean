import Mac1.Proofs.Files
import Mac1.Proofs.Store

/-!
Commands that are given one after another on one disk. A program can be loaded from its source or
from the listing that was saved of it: the first way goes through a workbench and the second through
a file, and both show the same memory.
-/
namespace Mac1.Shell

namespace Manner

variable {m : Manner} {disk : Disk} {source text : Text} {cells : Selection} {p : Program}

theorem run_assemble_fails (h : ¬∃ text p, disk.Holds m.strict source text p)
    (destination : Option Text) :
    (m.assemble source destination).run disk =
      ⟨1, Text.unlines [m.status "Assembling" (Display.target source)], disk⟩ := by
  simp [assemble, Script.run_withProgram_none h]

theorem run_assemble_saved (h : disk.Holds m.strict source text p) {destination : Option Text}
    {disk' : Disk}
    (hwrite : disk.write? (savedAs source destination) (Script.encode p.listing) = some disk') :
    (m.assemble source destination).run disk =
      ⟨0, Text.unlines [m.status "Assembling" (Display.target source),
        m.status "Finished" (Display.wordCount p.size),
        m.status "Saved" (Display.target (savedAs source destination))], disk'⟩ := by
  simp [assemble, Script.run_withProgram h, Script.run_write_some _ hwrite]

theorem run_assemble_unsaved (h : disk.Holds m.strict source text p) {destination : Option Text}
    (hwrite : disk.write? (savedAs source destination) (Script.encode p.listing) = none) :
    (m.assemble source destination).run disk =
      ⟨1, Text.unlines [m.status "Assembling" (Display.target source)], disk⟩ := by
  simp [assemble, Script.run_withProgram h, Script.run_write_none _ hwrite]

/-- A program that was assembled with success was saved. -/
theorem assemble_success {destination : Option Text}
    (h : ((m.assemble source destination).run disk).exitCode = 0) :
    ∃ text p, disk.Holds m.strict source text p ∧
      disk.write? (savedAs source destination) (Script.encode p.listing) =
        some ((m.assemble source destination).run disk).disk := by
  by_cases hholds : ∃ text p, disk.Holds m.strict source text p
  · obtain ⟨text, p, hp⟩ := hholds
    refine ⟨text, p, hp, ?_⟩
    cases hwrite : disk.write? (savedAs source destination) (Script.encode p.listing) with
    | none =>
      rw [run_assemble_unsaved hp hwrite] at h
      cases h
    | some disk' => rw [run_assemble_saved hp hwrite]
  · rw [run_assemble_fails hholds] at h
    cases h

/-- Saving the listing beside its source leaves the source as it is. -/
theorem assemble_beside (hext : Path.extension? source = some "asm".toList)
    (h : ((m.assemble source none).run disk).exitCode = 0) :
    let saved := ((m.assemble source none).run disk).disk
    ∃ text p, disk.Holds m.strict source text p ∧ saved.text? source = some text ∧
      saved.text? (Path.withExtension source "lst".toList) = some p.listing := by
  obtain ⟨text, p, hp, hwrite⟩ := assemble_success h
  rw [savedAs_none] at hwrite
  have hne : disk.locate source ≠ disk.locate (Path.withExtension source "lst".toList) := by
    obtain ⟨place, -, -, hplace, -⟩ := Disk.write?_eq_some hwrite
    rw [hplace]
    exact Disk.locate_withExtension_ne hext (by decide) (by decide) hplace
  exact ⟨text, p, hp, (Disk.text?_write?_ne hwrite hne).trans hp.1, Disk.text?_write? hwrite⟩

/-- The table of the selected words, which stand in memory from address zero. -/
def wordTable (m : Manner) (words : List Word) (cells : Selection) : List Text :=
  let shown := ((words.zipIdx.take (cells.last + 1)).drop cells.first).filter fun c =>
    cells.all || c.1 ≠ 0
  Display.header m.paint ::
    shown.map fun c => Display.row m.paint (Row.ofWord (UInt16.ofNat c.2) c.1) c.1

/-- The rows that are kept beside the words are those of the words. -/
theorem table_of_tracks {memory : Memory} {changes : List Memory.Change}
    (h : memory.Tracks changes) (m : Manner) (cells : Selection) :
    m.table memory cells = m.wordTable memory.words.toList cells := by
  have hzip : memory.rows.toList.zip memory.words.toList =
      memory.words.toList.zipIdx.map fun c => (Row.ofWord (UInt16.ofNat c.2) c.1, c.1) := by
    refine List.ext_getElem (by simp) fun i h₁ h₂ => ?_
    have hi : i < memorySize := by simpa using h₂
    have hrow : memory.rows[i] = Row.ofWord (UInt16.ofNat i) memory.words[i] := h.rows ⟨i, hi⟩
    simpa using hrow
  rw [table, wordTable, hzip]
  simp only [← List.map_take, ← List.map_drop, List.filter_map, List.map_map]
  rfl

/-- A listing is loaded if its words fit. What memory holds is known from the listing, and the rows
are known from the words. -/
theorem run_loadListing (m : Manner) (listing : Text) (cells : Selection) (disk : Disk) :
    (m.loadListing listing cells).run disk =
      let words := machineWords listing
      if words.length ≤ memorySize then
        ⟨0, Text.unlines (m.status "Loaded" (Display.wordCount words.length) ::
          m.wordTable (words ++ List.replicate (memorySize - words.length) 0) cells), disk⟩
      else ⟨1, [], disk⟩ := by
  obtain ⟨hresult, hwords⟩ := Memory.blank.load_eq listing
  have hblank : Memory.blank.Tracks [] := Memory.tracks_blank fun _ => rfl
  have htracks : (Memory.blank.load listing).2.Tracks _ := hblank.act (.load listing)
  dsimp only
  rw [loadListing]
  generalize Memory.blank.load listing = loading at hresult hwords htracks
  obtain ⟨result, memory⟩ := loading
  rw [loaded] at hresult hwords
  split at hresult
  case isTrue hfit =>
    rw [if_pos hfit] at hwords ⊢
    cases hresult
    dsimp only at hwords
    rw [← hwords, ← table_of_tracks htracks, ← run_showLoaded]
  case isFalse hfit =>
    rw [if_neg hfit]
    cases hresult
    rfl

/-- A workbench sends to memory what its pane holds, and that is the listing. What sending does to
the pane is not shown. -/
theorem loadSource_eq (h : Mac1.assemble m.strict text = .ok p) (cells : Selection) :
    m.loadSource text cells = m.loadListing p.listing cells := by
  rw [loadSource, loadListing, Workbench.assemble_ok h]
  dsimp only
  cases hload : Memory.blank.load p.listing with
  | mk result memory =>
    cases result with
    | ok count =>
      rw [Workbench.send_ok rfl hload]
      rfl
    | error fault =>
      rw [Workbench.send_error rfl hload]

theorem load_empty (h : min cells.last (memorySize - 1) < cells.first) (m : Manner)
    (source : Text) : m.load source cells = .exit 1 := by
  rw [load]
  exact if_pos h

theorem run_load (h : cells.first ≤ min cells.last (memorySize - 1))
    (htext : disk.text? source = some text) (m : Manner) :
    (m.load source cells).run disk =
      let cells := { cells with last := min cells.last (memorySize - 1) }
      if Path.extension? source = some "asm".toList then
        (Script.print (m.status "Assembling" (Display.target source))
          (m.loadSource text cells)).run disk
      else
        (Script.print (m.status "Reading" (Display.target source))
          (m.loadListing text cells)).run disk := by
  rw [load]
  dsimp only
  rw [if_neg (Nat.not_lt_of_le h), Script.run_withText_some htext]
  split <;> rfl

/-- Of a program that fits its code is shown, with zeros after it. -/
theorem run_loadListing_program {strict : Bool} (h : Mac1.assemble strict text = .ok p) (m : Manner)
    (cells : Selection) (disk : Disk) :
    (m.loadListing p.listing cells).run disk =
      if p.size ≤ memorySize then
        ⟨0, Text.unlines (m.status "Loaded" (Display.wordCount p.size) ::
          m.wordTable (p.code ++ List.replicate (memorySize - p.size) 0) cells), disk⟩
      else ⟨1, [], disk⟩ := by
  rw [run_loadListing, machineWords_listing h]
  dsimp only
  rw [p.length_code]

end Manner

/-- A program that has been saved as a listing is loaded alike from its source and from the listing,
whatever the path, the flags, the environment and the selected cells are. Both commands end with the
same exit code, which tells a failure exactly when no cell is selected or the program does not fit
into memory. Without a cell to show both print nothing; otherwise they print the same after their
first lines, which is nothing for a program that does not fit, and else its size and the selected
words of its code with zeros after it. -/
theorem load_paths_agree {paint : Paint} {e : Environment} {disk : Disk} {source : Text}
    {strict minimal' : Bool} (hext : Path.extension? source = some "asm".toList)
    (hsuccess : (Request.run paint e disk
      ⟨strict, minimal', some (.assemble source none)⟩).exitCode = 0)
    (minimal : Bool) (cells : Selection) :
    let listing := Path.withExtension source "lst".toList
    let saved := (Request.run paint e disk ⟨strict, minimal', some (.assemble source none)⟩).disk
    let m := Manner.under paint e strict minimal
    let last := min cells.last (memorySize - 1)
    let fromSource := Request.run paint e saved ⟨strict, minimal, some (.load source cells)⟩
    let fromListing := Request.run paint e saved ⟨strict, minimal, some (.load listing cells)⟩
    ∃ text p, disk.text? source = some text ∧ assemble m.strict text = .ok p ∧
      saved.text? listing = some p.listing ∧
      fromSource.exitCode = fromListing.exitCode ∧
      (fromSource.exitCode ≠ 0 ↔ last < cells.first ∨ memorySize < p.size) ∧
      (last < cells.first → fromSource.output = [] ∧ fromListing.output = []) ∧
      (cells.first ≤ last → ∃ rest,
        fromSource.output = m.status "Assembling" (Display.target source) ++ '\n' :: rest ∧
        fromListing.output = m.status "Reading" (Display.target listing) ++ '\n' :: rest ∧
        (memorySize < p.size → rest = []) ∧
        (p.size ≤ memorySize → rest =
          Text.unlines (m.status "Loaded" (Display.wordCount p.size) ::
            m.wordTable (p.code ++ List.replicate (memorySize - p.size) 0)
              ⟨cells.first, last, cells.all⟩))) := by
  intro listing saved m last fromSource fromListing
  obtain ⟨text, p, ⟨htext, hp⟩, hkept, hsaved⟩ :
      ∃ text p, disk.Holds m.strict source text p ∧ saved.text? source = some text ∧
        saved.text? listing = some p.listing :=
    Manner.assemble_beside hext hsuccess
  have hext' : Path.extension? listing ≠ some "asm".toList :=
    Path.extension?_withExtension_ne hext (by decide) (by decide) (by decide)
  have hfrom : fromSource = (m.load source cells).run saved := rfl
  have hfrom' : fromListing = (m.load listing cells).run saved := rfl
  refine ⟨text, p, htext, hp, hsaved, ?_⟩
  rw [hfrom, hfrom']
  rcases Nat.lt_or_ge last cells.first with hrange | hrange
  · rw [Manner.load_empty hrange, Manner.load_empty hrange]
    exact ⟨rfl, ⟨fun _ => .inl hrange, fun _ => Nat.one_ne_zero⟩, fun _ => ⟨rfl, rfl⟩,
      fun h => absurd hrange (Nat.not_lt_of_le h)⟩
  · rw [Manner.run_load hrange hkept, Manner.run_load hrange hsaved]
    dsimp only
    rw [if_pos hext, if_neg hext', Manner.loadSource_eq hp, Script.run_print, Script.run_print,
      Manner.run_loadListing_program hp]
    refine ⟨rfl, ?_, fun h => absurd h (Nat.not_lt_of_le hrange), fun _ => ⟨_, rfl, rfl, ?_, ?_⟩⟩
    · split
      case isTrue hsize => exact ⟨fun h => absurd rfl h, fun h => by omega⟩
      case isFalse hsize => exact ⟨fun _ => .inr (by omega), fun _ => Nat.one_ne_zero⟩
    · intro hsize
      rw [if_neg (Nat.not_le_of_lt hsize)]
    · intro hsize
      rw [if_pos hsize]

/-- A strict program that lies outside of the working directory is saved over an older listing and
loaded from its second word on. -/
theorem load_paths_agree_overwriting :
    let e : Environment := ⟨[("MIC1_STRICT".toList, "1".toList)]⟩
    let home : Name := ⟨"home".toList, by decide, by decide, by decide⟩
    let srv : Name := ⟨"srv".toList, by decide, by decide, by decide⟩
    let asm : Name := ⟨"a.b.asm".toList, by decide, by decide, by decide⟩
    let lst : Name := ⟨"a.b.lst".toList, by decide, by decide, by decide⟩
    let disk : Disk :=
      ⟨[([], .directory), ([home], .directory), ([srv], .directory),
        ([srv, lst], .file ByteArray.empty),
        ([srv, asm], .file (Script.encode "loop: LODD x\nJUMP loop\nx:".toList))],
        [home], by decide, by decide, by decide, by decide⟩
    let saved := (Request.run Paint.plain e disk
      ⟨false, true, some (.assemble "/srv/a.b.asm".toList none)⟩).disk
    let cells : Selection := ⟨1, 9000, false⟩
    ∃ fromSource fromListing rest,
      Request.run Paint.plain e saved ⟨false, false, some (.load "/srv/a.b.asm".toList cells)⟩ =
        fromSource ∧
      Request.run Paint.plain e saved ⟨false, false, some (.load "/srv/a.b.lst".toList cells)⟩ =
        fromListing ∧
      fromSource.exitCode = 0 ∧ fromListing.exitCode = 0 ∧
      fromSource.output = "  Assembling target /srv/a.b.asm\n".toList ++ rest ∧
      fromListing.output = "     Reading target /srv/a.b.lst\n".toList ++ rest ∧
      "      Loaded 2 words\n".toList <+: rest := by
  intro e home srv asm lst disk saved cells
  have hlocate : disk.locate "/srv/a.b.asm".toList = some [srv, asm] := by decide +kernel
  have hplace : disk.locate "/srv/a.b.lst".toList = some [srv, lst] := by decide +kernel
  have hfree : ¬disk.IsDirectory [srv, lst] := by decide +kernel
  have htext : disk.text? "/srv/a.b.asm".toList = some "loop: LODD x\nJUMP loop\nx:".toList :=
    Disk.text?_of_locate hlocate rfl
  obtain ⟨p, hp, hcode⟩ : ∃ p, assemble true "loop: LODD x\nJUMP loop\nx:".toList = .ok p ∧
      p.code = [0x0fff, 0x6000] := exists_program_of_code (by decide)
  have hsize : p.size = 2 := by
    rw [← p.length_code, hcode]
    rfl
  have hholds : disk.Holds (Manner.under Paint.plain e false true).strict "/srv/a.b.asm".toList
      "loop: LODD x\nJUMP loop\nx:".toList p := ⟨htext, hp⟩
  have hwrite : disk.write? (Manner.savedAs "/srv/a.b.asm".toList none)
      (Script.encode p.listing) = _ := Disk.write?_of_locate hplace hfree _
  have hsuccess : (Request.run Paint.plain e disk
      ⟨false, true, some (.assemble "/srv/a.b.asm".toList none)⟩).exitCode = 0 := by
    rw [Request.run_some, Manner.command_assemble, Manner.run_assemble_saved hholds hwrite]
  obtain ⟨text, q, htext', hq, -, hcodes, hfails, -, hshown⟩ :=
    load_paths_agree (by decide) hsuccess false cells
  rw [htext] at htext'
  cases htext'
  cases hp.symm.trans hq
  have hfits : ¬(min 9000 (memorySize - 1) < 1 ∨ memorySize < p.size) := by
    simp only [memorySize, hsize]
    omega
  have hexit := not_not.1 (mt hfails.1 hfits)
  obtain ⟨rest, hout, hout', -, hrest⟩ := hshown (by decide)
  have hcount : Display.status Paint.plain "Loaded" (Display.wordCount 2) ++ ['\n'] =
      "      Loaded 2 words\n".toList := by decide
  refine ⟨_, _, rest, rfl, rfl, hexit, hcodes.symm.trans hexit, hout, hout', ?_⟩
  rw [hrest (by rw [hsize]; decide), hsize, ← hcount]
  exact List.prefix_append ..

end Mac1.Shell
