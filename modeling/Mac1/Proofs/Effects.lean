import Mac1.Proofs.Session
import Mathlib.Data.List.Dedup

/-!
What a command leaves on a disk. Only the command that saves a listing writes a file, once and as
the last thing that can fail, so a failure leaves the disk as it was. A file is checked exactly as
it is assembled.
-/
namespace Mac1

/-- A name is declared once, so there are as many symbols as different names. -/
theorem size_symbols {strict : Bool} {source : Text} {p : Program}
    (h : assemble strict source = .ok p) :
    p.symbols.size = (names (Line.readAll source)).dedup.length := by
  have hrecords := SymbolTable.records_of_ofLines (passes_of_assemble h).1
  rw [hrecords.nodup.dedup, ← hrecords.map_name, List.length_map, SymbolTable.toList,
    Array.length_toList]
  rfl

namespace Shell

namespace Script

/-- Whatever the files hold, no file is written. -/
inductive ReadsOnly : Script → Prop
  | exit (code : Nat) : ReadsOnly (.exit code)
  | print (line : Text) {next : Script} (h : ReadsOnly next) : ReadsOnly (.print line next)
  | read (path : Text) {next : Option ByteArray → Script}
      (h : ∀ content, ReadsOnly (next content)) : ReadsOnly (.read path next)

theorem ReadsOnly.disk_run {s : Script} (h : s.ReadsOnly) (disk : Disk) :
    (s.run disk).disk = disk := by
  induction h with
  | exit code => rfl
  | print line h ih => exact ih
  | read path h ih => exact ih (disk.read? path)

theorem ReadsOnly.printAll {next : Script} (h : next.ReadsOnly) (lines : List Text) :
    (Script.printAll lines next).ReadsOnly := by
  induction lines with
  | nil => exact h
  | cons line lines ih => exact .print line ih

theorem ReadsOnly.withText (path : Text) {next : Text → Script}
    (h : ∀ text, (next text).ReadsOnly) : (Script.withText path next).ReadsOnly := by
  refine .read path fun content => ?_
  split
  · exact h _
  · exact .exit 1

end Script

namespace Manner

variable (m : Manner)

theorem readsOnly_check (source : Text) : (m.check source).ReadsOnly := by
  refine .print _ (.withText source fun text => ?_)
  split
  · exact .exit 1
  · exact .print _ (.exit 0)

theorem readsOnly_showLoaded (count : Nat) (memory : Memory) (cells : Selection) :
    (m.showLoaded count memory cells).ReadsOnly :=
  .print _ (.printAll (.exit 0) _)

theorem readsOnly_loadListing (text : Text) (cells : Selection) :
    (m.loadListing text cells).ReadsOnly := by
  rw [loadListing]
  split
  · exact .exit 1
  · exact m.readsOnly_showLoaded ..

theorem readsOnly_loadSource (text : Text) (cells : Selection) :
    (m.loadSource text cells).ReadsOnly := by
  rw [loadSource]
  split
  · exact .exit 1
  · split
    · exact .exit 1
    · split
      · exact .exit 1
      · exact m.readsOnly_showLoaded ..

theorem readsOnly_load (source : Text) (cells : Selection) : (m.load source cells).ReadsOnly := by
  rw [load]
  dsimp only
  split
  · exact .exit 1
  · refine .withText source fun text => ?_
    split
    · exact .print _ (m.readsOnly_loadSource ..)
    · exact .print _ (m.readsOnly_loadListing ..)

theorem readsOnly_decodeFrom (address : Nat) (words : List Text) :
    (m.decodeFrom address words).ReadsOnly := by
  induction words generalizing address with
  | nil => exact .exit 0
  | cons t rest ih =>
    rw [decodeFrom]
    split
    · exact .exit 1
    · exact .print _ (ih (address + 1))

/-- Every command but one. -/
theorem readsOnly_command {c : Command}
    (h : ∀ source destination, c ≠ .assemble source destination) : (m.command c).ReadsOnly := by
  cases c with
  | assemble source destination => exact absurd rfl (h source destination)
  | check source => exact m.readsOnly_check source
  | load source cells => exact m.readsOnly_load source cells
  | decode words => exact .print _ (m.readsOnly_decodeFrom 0 words)

end Manner

/-- Every request but one. -/
theorem Request.readsOnly_script {r : Request}
    (h : ∀ source destination, r.command ≠ some (.assemble source destination)) (paint : Paint)
    (e : Environment) : (r.script paint e).ReadsOnly := by
  obtain ⟨strict, minimal, command⟩ := r
  cases command with
  | none => exact .printAll (.exit 0) banner
  | some c =>
    refine Manner.readsOnly_command _ fun source destination hc => ?_
    exact h source destination (congrArg some hc)

/-- However arguments are read, those that ask for anything but a listing leave the disk as it
is. -/
theorem disk_run_of_not_assemble {parse : List Text → Except Answer Request} {arguments : List Text}
    (h : ∀ r, parse arguments = .ok r →
      ∀ source destination, r.command ≠ some (.assemble source destination))
    (paint : Paint) (e : Environment) (disk : Disk) :
    (run parse paint e disk arguments).disk = disk := by
  cases hr : parse arguments with
  | error answer => rw [run_of_error hr]
  | ok request =>
    rw [run_of_ok hr]
    exact (Request.readsOnly_script (h request hr) paint e).disk_run disk

namespace Disk

/-- A path leads to a place where a file can be put. -/
def Accepts (d : Disk) (path : Text) : Prop :=
  ∃ place, d.locate path = some place ∧ ¬d.IsDirectory place

/-- The second disk has the given file at the given path, and every other place as the first. -/
structure Saves (d d' : Disk) (path : Text) (content : ByteArray) : Prop where
  content : d'.read? path = some content
  others : ∀ place, d.locate path ≠ some place → d'.node? place = d.node? place

variable {d : Disk} {path : Text}

theorem Accepts.exists_saves (h : d.Accepts path) (content : ByteArray) :
    ∃ d', d.write? path content = some d' ∧ d.Saves d' path content := by
  obtain ⟨place, hplace, hfree⟩ := h
  have hwrite := write?_of_locate hplace hfree content
  exact ⟨_, hwrite, read?_write? hwrite, fun other hother => node?_write?_ne hwrite hother⟩

theorem write?_of_not_accepts (h : ¬d.Accepts path) (content : ByteArray) :
    d.write? path content = none := by
  cases hwrite : d.write? path content with
  | none => rfl
  | some d' =>
    obtain ⟨place, -, hfree, hplace, -⟩ := write?_eq_some hwrite
    exact absurd ⟨place, hplace, hfree⟩ h

end Disk

namespace Manner

variable {m : Manner} {disk : Disk} {source text : Text} {p : Program}

theorem run_check_fails (h : ¬∃ text p, disk.Holds m.strict source text p) :
    (m.check source).run disk =
      ⟨1, Text.unlines [m.status "Checking" (Display.target source)], disk⟩ := by
  simp [check, Script.run_withProgram_none h]

/-- A program is counted. -/
theorem run_check (h : disk.Holds m.strict source text p) :
    (m.check source).run disk =
      ⟨0, Text.unlines [m.status "Checking" (Display.target source),
        m.status "Success" ("no errors found! ".toList ++ Display.wordCount p.size ++
          ", ".toList ++ Numeral.decimal p.symbols.size ++ " symbols".toList)], disk⟩ := by
  simp [check, Script.run_withProgram h]

end Manner

/-- What assembling and checking a file do, with the strict rule set alike by flag or environment.
If the file cannot be read, is no text or is not that of a program, both fail, and nothing is
written. Otherwise assembling saves the listing if its path accepts a file, changes nothing else and
tells the number of lines saved; if the path accepts none, it fails, and nothing is written.
Checking succeeds exactly if there is a program, tells the same number with that of the different
names declared, and leaves the disk as it is. However arguments are read, none but those that ask to
assemble ever change a file. -/
theorem assemble_check_effects {e e' : Environment} {rule strict strict' : Bool}
    (hrule : (e.value? "MIC1_STRICT" == some "1".toList || strict) = rule)
    (hrule' : (e'.value? "MIC1_STRICT" == some "1".toList || strict') = rule)
    (paint paint' : Paint) (disk : Disk) (minimal minimal' : Bool) (source : Text)
    (destination : Option Text) :
    let m := Manner.under paint e strict minimal
    let m' := Manner.under paint' e' strict' minimal'
    let saved := destination.getD (Path.withExtension source "lst".toList)
    let assembled :=
      Request.run paint e disk ⟨strict, minimal, some (.assemble source destination)⟩
    let checked := Request.run paint' e' disk ⟨strict', minimal', some (.check source)⟩
    ((¬∃ text p, disk.Holds rule source text p) →
      assembled.exitCode = 1 ∧ assembled.disk = disk ∧ checked.exitCode = 1) ∧
    (∀ text p, disk.Holds rule source text p →
      (disk.Accepts saved →
        assembled.exitCode = 0 ∧ disk.Saves assembled.disk saved (Script.encode p.listing) ∧
        assembled.output = Text.unlines [m.status "Assembling" (Display.target source),
          m.status "Finished" (Display.wordCount (p.listing.count '\n')),
          m.status "Saved" (Display.target saved)]) ∧
      (¬disk.Accepts saved → assembled.exitCode = 1 ∧ assembled.disk = disk) ∧
      checked.output = Text.unlines [m'.status "Checking" (Display.target source),
        m'.status "Success" ("no errors found! ".toList ++
          Display.wordCount (p.listing.count '\n') ++ ", ".toList ++
          Numeral.decimal (names (Line.readAll text)).dedup.length ++ " symbols".toList)]) ∧
    (checked.exitCode = 0 ↔ ∃ text p, disk.Holds rule source text p) ∧ checked.disk = disk ∧
    (∀ (parse : List Text → Except Answer Request) (paint : Paint) (e : Environment) (d : Disk)
      (arguments : List Text),
      (∀ r, parse arguments = .ok r →
        ∀ source destination, r.command ≠ some (.assemble source destination)) →
      (run parse paint e d arguments).disk = d) := by
  intro m m' saved assembled checked
  have hassembled : assembled = (m.assemble source destination).run disk := rfl
  have hchecked : checked = (m'.check source).run disk := rfl
  have hm : m.strict = rule := hrule
  have hm' : m'.strict = rule := hrule'
  have hfails : (¬∃ text p, disk.Holds rule source text p) →
      assembled.exitCode = 1 ∧ assembled.disk = disk ∧ checked.exitCode = 1 := by
    intro h
    rw [hassembled, hchecked, Manner.run_assemble_fails (hm.symm ▸ h),
      Manner.run_check_fails (hm'.symm ▸ h)]
    exact ⟨rfl, rfl, rfl⟩
  have hcheck : ∀ {text p}, disk.Holds rule source text p → checked = _ := fun h =>
    hchecked.trans (Manner.run_check (hm'.symm ▸ h))
  refine ⟨hfails, fun text p h => ⟨fun haccepts => ?_, fun hrefuses => ?_, ?_⟩, ⟨?_, ?_⟩,
    (m'.readsOnly_check source).disk_run disk, ?_⟩
  · obtain ⟨d', hwrite, hsaves⟩ := haccepts.exists_saves (Script.encode p.listing)
    rw [hassembled, Manner.run_assemble_saved (hm.symm ▸ h) hwrite, count_newline_listing h.2]
    exact ⟨rfl, hsaves, rfl⟩
  · rw [hassembled, Manner.run_assemble_unsaved (hm.symm ▸ h)
      (Disk.write?_of_not_accepts hrefuses _)]
    exact ⟨rfl, rfl⟩
  · rw [hcheck h, count_newline_listing h.2, ← size_symbols h.2]
  · intro hexit
    by_contra h
    exact absurd (hexit.symm.trans (hfails h).2.2) Nat.zero_ne_one
  · rintro ⟨text, p, h⟩
    rw [hcheck h]
  · exact fun parse paint e d arguments h => disk_run_of_not_assemble h paint e d

/-- A strict program from above the working directory is saved in an empty directory and counted. -/
theorem assemble_check_effects_empty_directory :
    let e : Environment := ⟨[("MIC1_STRICT".toList, "1".toList)]⟩
    let e' : Environment := ⟨[]⟩
    let home : Name := ⟨"home".toList, by decide, by decide, by decide⟩
    let out : Name := ⟨"out".toList, by decide, by decide, by decide⟩
    let asm : Name := ⟨"a.asm".toList, by decide, by decide, by decide⟩
    let disk : Disk :=
      ⟨[([], .directory), ([home], .directory), ([out], .directory),
        ([asm], .file (Script.encode "loop: LODD x\nJUMP loop\nx:".toList))],
        [home], by decide, by decide, by decide, by decide⟩
    ∃ p assembled checked,
      assemble true "loop: LODD x\nJUMP loop\nx:".toList = .ok p ∧
      Request.run Paint.plain e disk
        ⟨false, false, some (.assemble "../a.asm".toList (some "/out/new".toList))⟩ = assembled ∧
      Request.run Paint.plain e' disk ⟨true, false, some (.check "../a.asm".toList)⟩ = checked ∧
      assembled.exitCode = 0 ∧ checked.exitCode = 0 ∧
      assembled.disk.read? "/out/new".toList = some (Script.encode p.listing) ∧
      assembled.disk.node? [asm] =
        some (.file (Script.encode "loop: LODD x\nJUMP loop\nx:".toList)) ∧
      assembled.output = ("  Assembling target ../a.asm\n    Finished 2 words\n" ++
        "       Saved target /out/new\n").toList ∧
      checked.output = ("    Checking target ../a.asm\n" ++
        "     Success no errors found! 2 words, 2 symbols\n").toList ∧
      checked.disk = disk := by
  intro e e' home out asm disk
  have hlocate : disk.locate "../a.asm".toList = some [asm] := by decide +kernel
  have hplace : disk.locate "/out/new".toList =
      some [out, ⟨"new".toList, by decide, by decide, by decide⟩] := by
    decide +kernel
  have hfree : ¬disk.IsDirectory [out, ⟨"new".toList, by decide, by decide, by decide⟩] := by
    decide +kernel
  have hnode : disk.node? [asm] =
      some (.file (Script.encode "loop: LODD x\nJUMP loop\nx:".toList)) := rfl
  have htext := Disk.text?_of_locate hlocate hnode
  obtain ⟨p, hp, hcode⟩ : ∃ p, assemble true "loop: LODD x\nJUMP loop\nx:".toList = .ok p ∧
      p.code = [0x0fff, 0x6000] := exists_program_of_code (by decide)
  have hlines : p.listing.count '\n' = 2 := by
    rw [count_newline_listing hp, ← p.length_code, hcode]
    rfl
  have hnames :
      (names (Line.readAll "loop: LODD x\nJUMP loop\nx:".toList)).dedup.length = 2 := by
    decide
  obtain ⟨-, hsaved, hexit, hkept, -⟩ :=
    @assemble_check_effects e e' true false true (by decide) (by decide) Paint.plain Paint.plain
      disk false false "../a.asm".toList (some "/out/new".toList)
  obtain ⟨haccepted, -, hcounted⟩ := hsaved _ p ⟨htext, hp⟩
  obtain ⟨hcode₀, hsaves, hout⟩ := haccepted ⟨_, hplace, hfree⟩
  rw [hlines] at hout hcounted
  rw [hnames] at hcounted
  refine ⟨p, _, _, hp, rfl, rfl, hcode₀, hexit.2 ⟨_, p, htext, hp⟩, hsaves.content, ?_, ?_, ?_,
    hkept⟩
  · rw [hsaves.others _ (by rw [Option.getD_some, hplace]; decide), hnode]
  · rw [hout]
    decide
  · rw [hcounted]
    decide

end Shell

end Mac1
