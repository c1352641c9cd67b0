import Mac1.Assembly.Program
import Mac1.Memory

/-!
A workbench holds a source, the text of its listing pane and perhaps a main memory. Assembling
replaces the pane by the listing or by the report of what is wrong; sending to memory reads the
words back from whatever text the pane holds.
-/
namespace Mac1

structure Workbench where
  source : Text
  listing : Text
  strict : Bool
  memory : Option Memory

namespace Workbench

/-- The listing pane before anything is assembled. -/
def welcome : Text :=
  ("Press 'Assemble' to build the program.\n\n" ++
    "Press 'Write code to Main Memory' to send it to main memory.").toList

/-- What is added to a listing that has been sent to memory. -/
def writtenNote : Text := "// Program written to main memory".toList

def new (source : Text) : Workbench := ⟨source, welcome, false, none⟩

def setSource (b : Workbench) (source : Text) : Workbench := { b with source }

def setStrict (b : Workbench) (strict : Bool) : Workbench := { b with strict }

/-- Attach a memory in place of any other. -/
def link (b : Workbench) (memory : Memory) : Workbench := { b with memory := some memory }

/-- Detach the memory and hand it out. -/
def unlink (b : Workbench) : Option Memory × Workbench := (b.memory, { b with memory := none })

def assemble (b : Workbench) : Except Diagnostic Program × Workbench :=
  match Mac1.assemble b.strict b.source with
  | .ok program => (.ok program, { b with listing := program.listing })
  | .error d => (.error d, { b with listing := d.report })

theorem assemble_ok {b : Workbench} {p : Program} (h : Mac1.assemble b.strict b.source = .ok p) :
    b.assemble = (.ok p, { b with listing := p.listing }) := by
  rw [assemble, h]

theorem assemble_error {b : Workbench} {d : Diagnostic}
    (h : Mac1.assemble b.strict b.source = .error d) :
    b.assemble = (.error d, { b with listing := d.report }) := by
  rw [assemble, h]

/-- Send the words of the listing pane to memory. -/
def send (b : Workbench) : Except MemoryFault Nat × Workbench :=
  match b.memory with
  | none =>
    let fault := MemoryFault.notLinked
    (.error fault,
      { b with
        listing := errorMarker ++ ": ".toList ++ fault.message ++ ".\n".toList ++ b.listing })
  | some memory =>
    match memory.load b.listing with
    | (.ok count, memory') =>
      let listing :=
        if errorMarker.isPrefixOf b.listing then b.listing
        else b.listing ++ "\n\n".toList ++ writtenNote
      (.ok count, { b with listing, memory := some memory' })
    | (.error fault, memory') =>
      (.error fault,
        { b with
          listing := errorMarker ++ " WRITING TO MEMORY:\n".toList ++ fault.message
          memory := some memory' })

theorem send_none {b : Workbench} (hm : b.memory = none) :
    b.send = (.error .notLinked,
      { b with
        listing := errorMarker ++ ": ".toList ++ MemoryFault.notLinked.message ++ ".\n".toList ++
          b.listing }) := by
  rw [send, hm]

theorem send_ok {b : Workbench} {m m' : Memory} (hm : b.memory = some m) {n : Nat}
    (hl : m.load b.listing = (.ok n, m')) :
    b.send = (.ok n,
      { b with
        listing := if errorMarker.isPrefixOf b.listing then b.listing
          else b.listing ++ "\n\n".toList ++ writtenNote
        memory := some m' }) := by
  rw [send, hm]
  dsimp only
  rw [hl]

theorem send_error {b : Workbench} {m m' : Memory} (hm : b.memory = some m) {fault : MemoryFault}
    (hl : m.load b.listing = (.error fault, m')) :
    b.send = (.error fault,
      { b with
        listing := errorMarker ++ " WRITING TO MEMORY:\n".toList ++ fault.message
        memory := some m' }) := by
  rw [send, hm]
  dsimp only
  rw [hl]

end Workbench

end Mac1
