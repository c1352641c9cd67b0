import Mac1.Proofs.Listing
import Mac1.Proofs.Load
import Mac1.Workbench

/-!
A workbench keeps a program only as the text of its listing pane, and that text is replaced,
preceded by complaints and followed by notes. Every run of a workbench is nevertheless a run of a
smaller machine, which keeps the words of the program and has no pane.
-/
namespace Mac1

/-- Take actions one after another and collect the replies. -/
def runActions {σ α ρ : Type} (step : σ → α → ρ × σ) : σ → List α → List ρ × σ
  | s, [] => ([], s)
  | s, a :: as =>
    let rest := runActions step (step s a).2 as
    ((step s a).1 :: rest.1, rest.2)

/-- Machines that answer alike and stay related in one step do so over every run. -/
theorem runActions_simulates {σ τ α ρ : Type} {step : σ → α → ρ × σ} {step' : τ → α → ρ × τ}
    {R : σ → τ → Prop}
    (hstep : ∀ s t, R s t → ∀ a, (step s a).1 = (step' t a).1 ∧ R (step s a).2 (step' t a).2)
    {s : σ} {t : τ} (h : R s t) (as : List α) :
    (runActions step s as).1 = (runActions step' t as).1 ∧
      R (runActions step s as).2 (runActions step' t as).2 := by
  induction as generalizing s t with
  | nil => exact ⟨rfl, h⟩
  | cons a as ih =>
    obtain ⟨hreply, hnext⟩ := hstep s t h a
    obtain ⟨hreplies, hlast⟩ := ih hnext
    refine ⟨?_, hlast⟩
    rw [runActions, runActions, hreply, hreplies]

namespace Memory

/-- What can be done to a memory. -/
inductive Action where
  | write (address : Int) (w : Word)
  | clear
  | load (listing : Text)

inductive Reply where
  | stored (result : Except MemoryFault Unit)
  | loaded (result : Except MemoryFault Nat)

def act (m : Memory) : Action → Reply × Memory
  | .write address w =>
    match m.write address w with
    | .ok m' => (.stored (.ok ()), m')
    | .error fault => (.stored (.error fault), m)
  | .clear => (.stored (.ok ()), m.clear)
  | .load listing => (.loaded (m.load listing).1, (m.load listing).2)

/-- The same on the words alone. -/
def actWords (words : List Word) : Action → Reply × List Word
  | .write address w =>
    if 0 ≤ address ∧ address < memorySize then
      (.stored (.ok ()), words.set address.toNat w)
    else (.stored (.error (.addressOutOfRange address)), words)
  | .clear => (.stored (.ok ()), List.replicate memorySize 0)
  | .load listing =>
    (.loaded (Mac1.loaded (machineWords listing)).1, (Mac1.loaded (machineWords listing)).2)

theorem act_write_ok {m m' : Memory} {address : Int} {w : Word} (h : m.write address w = .ok m') :
    m.act (.write address w) = (.stored (.ok ()), m') := by
  rw [act, h]

theorem act_write_error {m : Memory} {address : Int} {w : Word} {fault : MemoryFault}
    (h : m.write address w = .error fault) :
    m.act (.write address w) = (.stored (.error fault), m) := by
  rw [act, h]

theorem act_refines (m : Memory) (a : Action) :
    (m.act a).1 = (actWords m.words.toList a).1 ∧
      (m.act a).2.words.toList = (actWords m.words.toList a).2 := by
  cases a with
  | write address w =>
    by_cases h : 0 ≤ address ∧ address < memorySize
    · obtain ⟨n, rfl⟩ := Int.eq_ofNat_of_zero_le h.1
      have hn : n < memorySize := Int.ofNat_lt.1 h.2
      rw [act_write_ok (write_of_lt m hn w), actWords, if_pos h]
      exact ⟨rfl, toList_words_set ..⟩
    · rw [act_write_error (write_of_not_mem m h w), actWords, if_neg h]
      exact ⟨rfl, rfl⟩
  | clear => simp [act, actWords]
  | load listing =>
    obtain ⟨hres, hwords⟩ := m.load_eq listing
    rw [act, actWords, hres]
    exact ⟨rfl, hwords⟩

end Memory

namespace Workbench

theorem machineWords_welcome : machineWords welcome = [] := by
  decide

/-- The complaint about a missing memory is a line of its own, in front of the rest. -/
theorem machineWords_complaint (pane : Text) :
    machineWords (errorMarker ++ ": ".toList ++ MemoryFault.notLinked.message ++ ".\n".toList ++
      pane) = machineWords pane := by
  have hsplit : errorMarker ++ ": ".toList ++ MemoryFault.notLinked.message ++ ".\n".toList ++
      pane = "ERROR: main memory is not linked.".toList ++ '\n' :: pane := by
    delta errorMarker MemoryFault.message
    simp
  have hline : machineWords "ERROR: main memory is not linked.".toList = [] := by decide
  rw [hsplit, machineWords_append_newline, hline, List.nil_append]

theorem machineWords_note (pane : Text) :
    machineWords (pane ++ "\n\n".toList ++ writtenNote) = machineWords pane := by
  have hsplit : pane ++ "\n\n".toList ++ writtenNote =
      pane ++ '\n' :: "\n// Program written to main memory".toList := by
    delta writtenNote
    simp
  have hlines : machineWords "\n// Program written to main memory".toList = [] := by decide
  rw [hsplit, machineWords_append_newline, hlines, List.append_nil]

theorem machineWords_writeError (a : Int) :
    machineWords (errorMarker ++ " WRITING TO MEMORY:\n".toList ++
      (MemoryFault.addressOutOfRange a).message) = [] := by
  have hsplit : errorMarker ++ " WRITING TO MEMORY:\n".toList ++
      (MemoryFault.addressOutOfRange a).message = "ERROR WRITING TO MEMORY:".toList ++
        '\n' :: 'm' :: ("emory address ".toList ++ Numeral.decimal a ++
          " is out of range (0-".toList ++ Numeral.decimal lastAddress ++ ")".toList) := by
    delta errorMarker MemoryFault.message
    simp
  have htitle : machineWords "ERROR WRITING TO MEMORY:".toList = [] := by decide
  have hline : '\n' ∉ 'm' :: ("emory address ".toList ++ Numeral.decimal a ++
      " is out of range (0-".toList ++ Numeral.decimal lastAddress ++ ")".toList) := by
    simp [Numeral.newline_notMem_decimal]
  rw [hsplit, machineWords_append_newline, htitle, machineWords_line hline,
    machineWord?_cons (by decide) (by decide)]
  rfl

/-- What can be done to a workbench, its linked memory included. -/
inductive Action where
  | setSource (source : Text)
  | setStrict (strict : Bool)
  | assemble
  | link (memory : Memory)
  | unlink
  | memory (action : Memory.Action)
  | send

/-- What comes back. Of a memory that is handed out its words are told. -/
inductive Reply where
  | done
  | assembled (result : Except Diagnostic Program)
  | unlinked (words : Option (List Word))
  | memory (reply : Option Memory.Reply)
  | sent (result : Except MemoryFault Nat)

def act (b : Workbench) : Action → Reply × Workbench
  | .setSource source => (.done, b.setSource source)
  | .setStrict strict => (.done, b.setStrict strict)
  | .assemble => (.assembled b.assemble.1, b.assemble.2)
  | .link memory => (.done, b.link memory)
  | .unlink => (.unlinked (b.unlink.1.map (·.words.toList)), b.unlink.2)
  | .memory action =>
    match b.memory with
    | none => (.memory none, b)
    | some m => (.memory (some (m.act action).1), { b with memory := some (m.act action).2 })
  | .send => (.sent b.send.1, b.send.2)

/-- A workbench without a pane: the words of the program, and the words of the linked memory. -/
structure Ghost where
  source : Text
  strict : Bool
  code : List Word
  memory : Option (List Word)

namespace Ghost

def new (source : Text) : Ghost := ⟨source, false, [], none⟩

def assemble (g : Ghost) : Except Diagnostic Program × Ghost :=
  match Mac1.assemble g.strict g.source with
  | .ok program => (.ok program, { g with code := program.code })
  | .error d => (.error d, { g with code := [] })

/-- Sending stores the code with zeros after it. Code that does not fit is cut off and lost. -/
def send (g : Ghost) : Except MemoryFault Nat × Ghost :=
  match g.memory with
  | none => (.error .notLinked, g)
  | some _ =>
    if g.code.length ≤ memorySize then
      (.ok g.code.length,
        { g with memory := some (g.code ++ List.replicate (memorySize - g.code.length) 0) })
    else
      (.error (.addressOutOfRange memorySize),
        { g with code := [], memory := some (g.code.take memorySize) })

def act (g : Ghost) : Action → Reply × Ghost
  | .setSource source => (.done, { g with source })
  | .setStrict strict => (.done, { g with strict })
  | .assemble => (.assembled g.assemble.1, g.assemble.2)
  | .link memory => (.done, { g with memory := some memory.words.toList })
  | .unlink => (.unlinked g.memory, { g with memory := none })
  | .memory action =>
    match g.memory with
    | none => (.memory none, g)
    | some words =>
      (.memory (some (Memory.actWords words action).1),
        { g with memory := some (Memory.actWords words action).2 })
  | .send => (.sent g.send.1, g.send.2)

end Ghost

/-- The pane holds the words of the code, and nothing that reads as another word. -/
structure Represents (b : Workbench) (g : Ghost) : Prop where
  source : b.source = g.source
  strict : b.strict = g.strict
  code : machineWords b.listing = g.code
  memory : b.memory.map (·.words.toList) = g.memory

theorem represents_new (source : Text) : Represents (new source) (Ghost.new source) :=
  ⟨rfl, rfl, machineWords_welcome, rfl⟩

namespace Represents

variable {b : Workbench} {g : Ghost}

theorem assemble (h : Represents b g) :
    b.assemble.1 = g.assemble.1 ∧ Represents b.assemble.2 g.assemble.2 := by
  rw [Ghost.assemble, ← h.source, ← h.strict]
  cases ha : Mac1.assemble b.strict b.source with
  | ok p =>
    rw [assemble_ok ha]
    exact ⟨rfl, rfl, rfl, machineWords_listing ha, h.memory⟩
  | error d =>
    rw [assemble_error ha]
    exact ⟨rfl, rfl, rfl, machineWords_report ha, h.memory⟩

theorem memory_none (h : Represents b g) (hm : b.memory = none) : g.memory = none := by
  rw [← h.memory, hm]
  rfl

theorem memory_some (h : Represents b g) {m : Memory} (hm : b.memory = some m) :
    g.memory = some m.words.toList := by
  rw [← h.memory, hm]
  rfl

/-- The pane is all that is loaded, and it holds exactly the code. -/
theorem send (h : Represents b g) : b.send.1 = g.send.1 ∧ Represents b.send.2 g.send.2 := by
  cases hm : b.memory with
  | none =>
    rw [send_none hm, Ghost.send, h.memory_none hm]
    exact ⟨rfl, h.source, h.strict, (machineWords_complaint _).trans h.code, h.memory⟩
  | some m =>
    obtain ⟨hres, hwords⟩ := m.load_eq b.listing
    rw [h.code] at hres hwords
    rw [Ghost.send, h.memory_some hm]
    by_cases hlen : g.code.length ≤ memorySize
    · rw [loaded, if_pos hlen] at hres hwords
      rw [send_ok hm (Prod.ext hres rfl)]
      dsimp only
      rw [if_pos hlen]
      refine ⟨rfl, h.source, h.strict, ?_, congrArg some hwords⟩
      dsimp only
      split
      · exact h.code
      · exact (machineWords_note _).trans h.code
    · rw [loaded, if_neg hlen] at hres hwords
      rw [send_error hm (Prod.ext hres rfl)]
      dsimp only
      rw [if_neg hlen]
      exact ⟨rfl, h.source, h.strict, machineWords_writeError _, congrArg some hwords⟩

/-- One action: the same reply, and states that still belong together. -/
theorem act (h : Represents b g) (a : Action) :
    (b.act a).1 = (g.act a).1 ∧ Represents (b.act a).2 (g.act a).2 := by
  cases a with
  | setSource source => exact ⟨rfl, rfl, h.strict, h.code, h.memory⟩
  | setStrict strict => exact ⟨rfl, h.source, rfl, h.code, h.memory⟩
  | assemble =>
    obtain ⟨hreply, hnext⟩ := h.assemble
    exact ⟨congrArg Reply.assembled hreply, hnext⟩
  | link memory => exact ⟨rfl, h.source, h.strict, h.code, rfl⟩
  | unlink => exact ⟨congrArg Reply.unlinked h.memory, h.source, h.strict, h.code, rfl⟩
  | memory action =>
    cases hm : b.memory with
    | none =>
      rw [Workbench.act, Ghost.act, hm, h.memory_none hm]
      exact ⟨rfl, h⟩
    | some m =>
      obtain ⟨hreply, hwords⟩ := m.act_refines action
      rw [Workbench.act, Ghost.act, hm, h.memory_some hm]
      dsimp only
      rw [hreply]
      exact ⟨rfl, h.source, h.strict, h.code, congrArg some hwords⟩
  | send =>
    obtain ⟨hreply, hnext⟩ := h.send
    exact ⟨congrArg Reply.sent hreply, hnext⟩

end Represents

/-- Whatever is done to a workbench, it answers as the machine without a pane does, and the text in
its pane holds the code of that machine: no complaint, note, report or name in the source adds,
drops or changes a word. -/
theorem run_refines_ghost (source : Text) (actions : List Action) :
    (runActions act (new source) actions).1 =
        (runActions Ghost.act (Ghost.new source) actions).1 ∧
      Represents (runActions act (new source) actions).2
        (runActions Ghost.act (Ghost.new source) actions).2 :=
  runActions_simulates (fun _ _ h a => h.act a) (represents_new source) actions

end Workbench

end Mac1
