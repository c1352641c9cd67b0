import Mac1.Text

/-!
Paths as they are written on the command line, and a disk that they lead through. A disk is a tree
of directories and files below one root, with a working directory in it; there are no links and no
permissions. A path that starts with a slash is followed from the root and any other path from the
working directory. A name has at most 255 bytes and a path at most 4095.
-/
namespace Mac1.Shell

namespace Path

/-- The part up to the last slash, and the name after it. -/
def splitName (path : Text) : Text × Text :=
  ((path.reverse.dropWhile (· ≠ '/')).reverse, (path.reverse.takeWhile (· ≠ '/')).reverse)

/-- A dot stands for a directory itself and two dots for its parent. -/
def isFileName (name : Text) : Bool := !List.contains [[], ['.'], ['.', '.']] name

/-- The stem of a name, and its extension: what stands after the last dot, unless that dot is the
first character. -/
def splitExtension (name : Text) : Text × Option Text :=
  match name.reverse.dropWhile (· ≠ '.') with
  | _ :: c :: stem => ((c :: stem).reverse, some (name.reverse.takeWhile (· ≠ '.')).reverse)
  | _ => (name, none)

def extension? (path : Text) : Option Text :=
  let name := (splitName path).2
  if isFileName name then (splitExtension name).2 else none

/-- Replace the extension, or add one. The former extension is cut off behind its dot first, and a
name that then stands for a directory stays as it is. -/
def withExtension (path extension : Text) : Text :=
  let directory := (splitName path).1
  let name := (splitName path).2
  let renamed :=
    if isFileName name then
      match splitExtension name with
      | (stem, none) => stem ++ '.' :: extension
      | (stem, some _) =>
        if isFileName (stem ++ ['.']) then stem ++ '.' :: extension else stem ++ ['.']
    else name
  directory ++ renamed

end Path

def longestName : Nat := 255

def longestPath : Nat := 4095

/-- The name of a file or directory in its directory. -/
structure Name where
  text : Text
  isFileName : Path.isFileName text = true
  isPlain : (text.contains '/' || text.contains '\x00') = false
  length_le : text.byteLength ≤ longestName
  deriving DecidableEq, Repr

namespace Name

def ofText? (t : Text) : Option Name :=
  if h : Path.isFileName t = true ∧ (t.contains '/' || t.contains '\x00') = false ∧
      t.byteLength ≤ longestName then
    some ⟨t, h.1, h.2.1, h.2.2⟩
  else none

@[simp] theorem ofText?_text (name : Name) : ofText? name.text = some name :=
  dif_pos ⟨name.isFileName, name.isPlain, name.length_le⟩

theorem text_of_ofText? {t : Text} {name : Name} (h : ofText? t = some name) : name.text = t := by
  unfold ofText? at h
  split at h
  · cases h
    rfl
  · cases h

end Name

/-- The names that lead from the root to a file or directory. -/
abbrev Place := List Name

inductive Node where
  | directory
  | file (content : ByteArray)

namespace Node

/-- Whether a directory is found is decided without a look into files. -/
instance decidableEqDirectory : (found : Option Node) → Decidable (found = some directory)
  | some directory => isTrue rfl
  | some (file _) | none => isFalse nofun

def content? : Node → Option ByteArray
  | directory => none
  | file content => some content

@[simp] theorem content?_directory : directory.content? = none := rfl

@[simp] theorem content?_file (content : ByteArray) : (file content).content? = some content := rfl

end Node

/-- Files and directories with their places. Each of them is in a directory, the root counting as
its own, and so is whoever works on the disk. -/
structure Disk where
  nodes : List (Place × Node)
  working : Place
  nodup : nodes.Pairwise (·.1 ≠ ·.1)
  root : nodes.lookup [] = some .directory
  parent : ∀ n ∈ nodes, nodes.lookup n.1.dropLast = some .directory
  workplace : nodes.lookup working = some .directory

namespace Disk

/-- A disk with the given nodes, if they are those of a disk. -/
def ofNodes? (nodes : List (Place × Node)) (working : Place) : Option Disk :=
  if h : nodes.Pairwise (·.1 ≠ ·.1) ∧ nodes.lookup [] = some .directory ∧
      (∀ n ∈ nodes, nodes.lookup n.1.dropLast = some .directory) ∧
      nodes.lookup working = some .directory then
    some ⟨nodes, working, h.1, h.2.1, h.2.2.1, h.2.2.2⟩
  else none

def node? (d : Disk) (place : Place) : Option Node := d.nodes.lookup place

def IsDirectory (d : Disk) (place : Place) : Prop := d.node? place = some .directory

instance (d : Disk) (place : Place) : Decidable (d.IsDirectory place) :=
  inferInstanceAs (Decidable (_ = _))

@[simp] theorem isDirectory_root (d : Disk) : d.IsDirectory [] := d.root

@[simp] theorem isDirectory_working (d : Disk) : d.IsDirectory d.working := d.workplace

theorem IsDirectory.dropLast {d : Disk} {place : Place} (h : d.IsDirectory place) :
    d.IsDirectory place.dropLast := by
  obtain ⟨before, after, hnodes, -⟩ := List.lookup_eq_some_iff.1 h
  exact d.parent (place, .directory) (by simp [hnodes])

end Disk

/-- What one component of a path does: it stays, goes up or goes down. -/
inductive Step where
  | stay
  | up
  | down (name : Name)
  deriving DecidableEq, Repr

namespace Step

def ofText? (component : Text) : Option Step :=
  if component = [] ∨ component = ['.'] then some stay
  else if component = ['.', '.'] then some up
  else (Name.ofText? component).map down

/-- The root is above itself. -/
def apply : Step → Place → Place
  | stay, place => place
  | up, place => place.dropLast
  | down name, place => place ++ [name]

@[simp] theorem apply_stay (place : Place) : stay.apply place = place := rfl

@[simp] theorem apply_up (place : Place) : up.apply place = place.dropLast := rfl

@[simp] theorem apply_down (name : Name) (place : Place) :
    (down name).apply place = place ++ [name] := rfl

end Step

namespace Disk

/-- Follow the components of a path from a place. Every place that is left by a further component
has to be a directory. -/
def walk (d : Disk) : Place → List Text → Option Place
  | place, [] => some place
  | place, component :: rest =>
    if d.IsDirectory place then
      (Step.ofText? component).bind fun step => d.walk (step.apply place) rest
    else none

@[simp] theorem walk_nil (d : Disk) (place : Place) : d.walk place [] = some place := rfl

theorem walk_cons {d : Disk} {place target : Place} {component : Text} {rest : List Text}
    (h : d.walk place (component :: rest) = some target) :
    d.IsDirectory place ∧ ∃ step, Step.ofText? component = some step ∧
      d.walk (step.apply place) rest = some target := by
  rw [walk] at h
  split at h
  · rename_i hdir
    exact ⟨hdir, Option.bind_eq_some_iff.1 h⟩
  · cases h

/-- Whatever a path leads to would be in a directory. -/
theorem isDirectory_dropLast_of_walk {d : Disk} {place target : Place} {components : List Text}
    (hplace : d.IsDirectory place.dropLast) (h : d.walk place components = some target) :
    d.IsDirectory target.dropLast := by
  induction components generalizing place with
  | nil =>
    cases h
    exact hplace
  | cons component rest ih =>
    obtain ⟨hdir, step, -, hrest⟩ := walk_cons h
    refine ih ?_ hrest
    cases step with
    | stay => exact hplace
    | up => exact hplace.dropLast
    | down name => simpa using hdir

/-- Where a path starts. -/
def start (d : Disk) (path : Text) : Place := if path.head? = some '/' then [] else d.working

/-- The place that a path leads to, whether or not something is there. -/
def locate (d : Disk) (path : Text) : Option Place :=
  if path = [] ∨ path.byteLength > longestPath then none
  else d.walk (d.start path) (path.splitOn '/')

theorem walk_of_locate {d : Disk} {path : Text} {place : Place} (h : d.locate path = some place) :
    d.walk (d.start path) (path.splitOn '/') = some place := by
  rw [locate] at h
  split at h
  · cases h
  · exact h

theorem isDirectory_dropLast_of_locate {d : Disk} {path : Text} {place : Place}
    (h : d.locate path = some place) : d.IsDirectory place.dropLast := by
  have hstart : d.IsDirectory (d.start path) := by
    rw [start]
    split
    · exact d.isDirectory_root
    · exact d.isDirectory_working
  exact isDirectory_dropLast_of_walk hstart.dropLast (walk_of_locate h)

def read? (d : Disk) (path : Text) : Option ByteArray :=
  (d.locate path).bind fun place => (d.node? place).bind Node.content?

/-- The nodes with a file in its place, instead of the one that is there. -/
def insertNode (nodes : List (Place × Node)) (place : Place) (content : ByteArray) :
    List (Place × Node) :=
  nodes.filter (·.1 ≠ place) ++ [(place, .file content)]

theorem lookup_insertNode (nodes : List (Place × Node)) (place other : Place)
    (content : ByteArray) :
    (insertNode nodes place content).lookup other =
      if other = place then some (.file content) else nodes.lookup other := by
  induction nodes with
  | nil =>
    by_cases h : other = place
    · simp [insertNode, h]
    · have hne : (other == place) = false := by simpa using h
      simp [insertNode, List.lookup_cons, hne, h]
  | cons n nodes ih =>
    obtain ⟨p, node⟩ := n
    by_cases hp : p = place
    · have hskip : insertNode ((p, node) :: nodes) place content =
          insertNode nodes place content := by
        simp [insertNode, hp]
      rw [hskip, ih, List.lookup_cons]
      by_cases h : other = place
      · simp [h]
      · have hne : (other == p) = false := by simpa [hp] using h
        rw [if_neg h, if_neg h, hne]
    · have hkeep : insertNode ((p, node) :: nodes) place content =
          (p, node) :: insertNode nodes place content := by
        simp [insertNode, hp]
      rw [hkeep, List.lookup_cons, List.lookup_cons, ih]
      by_cases h : other = place
      · have hne : (other == p) = false := by
          rw [h]
          simpa using fun he => hp he.symm
        rw [hne, if_pos h]
      · simp [h]

theorem mem_insertNode {nodes : List (Place × Node)} {place : Place} {content : ByteArray}
    {n : Place × Node} (h : n ∈ insertNode nodes place content) :
    n ∈ nodes ∨ n = (place, .file content) := by
  simp only [insertNode, List.mem_append, List.mem_filter, List.mem_singleton] at h
  exact h.imp And.left id

/-- A file never takes the place of a directory. -/
theorem lookup_insertNode_directory {nodes : List (Place × Node)} {place other : Place}
    (free : nodes.lookup place ≠ some .directory) (content : ByteArray)
    (h : nodes.lookup other = some .directory) :
    (insertNode nodes place content).lookup other = some .directory := by
  have hne : other ≠ place := by
    intro he
    exact free (he ▸ h)
  rw [lookup_insertNode, if_neg hne, h]

/-- Put a file in a directory, in a place that is not a directory itself. -/
def insert (d : Disk) (place : Place) (content : ByteArray)
    (inside : d.IsDirectory place.dropLast) (free : ¬d.IsDirectory place) : Disk where
  nodes := insertNode d.nodes place content
  working := d.working
  nodup := by
    rw [insertNode, List.pairwise_append]
    refine ⟨d.nodup.filter _, List.pairwise_singleton _ _, ?_⟩
    intro n hn m hm
    obtain rfl := List.mem_singleton.1 hm
    simpa using (List.mem_filter.1 hn).2
  root := lookup_insertNode_directory free content d.root
  parent := by
    intro n hn
    apply lookup_insertNode_directory free content
    rcases mem_insertNode hn with hn | rfl
    · exact d.parent n hn
    · exact inside
  workplace := lookup_insertNode_directory free content d.workplace

section Insert

variable {d : Disk} {place : Place} (content : ByteArray)
  (inside : d.IsDirectory place.dropLast) (free : ¬d.IsDirectory place)

@[simp] theorem working_insert : (d.insert place content inside free).working = d.working := rfl

theorem node?_insert (other : Place) :
    (d.insert place content inside free).node? other =
      if other = place then some (.file content) else d.node? other :=
  lookup_insertNode ..

@[simp] theorem node?_insert_self :
    (d.insert place content inside free).node? place = some (.file content) := by
  rw [node?_insert, if_pos rfl]

/-- A file that replaces no directory makes none either. -/
@[simp] theorem isDirectory_insert (other : Place) :
    (d.insert place content inside free).IsDirectory other ↔ d.IsDirectory other := by
  rw [IsDirectory, IsDirectory, node?_insert]
  by_cases h : other = place
  · have hother : d.node? other ≠ some .directory := h ▸ free
    simp [h, h ▸ hother]
  · rw [if_neg h]

end Insert

/-- A file can be written wherever its directory exists and it does not replace a directory. -/
def write? (d : Disk) (path : Text) (content : ByteArray) : Option Disk :=
  match h : d.locate path with
  | none => none
  | some place =>
    if free : d.IsDirectory place then none
    else some (d.insert place content (isDirectory_dropLast_of_locate h) free)

theorem write?_of_locate {d : Disk} {path : Text} {place : Place}
    (h : d.locate path = some place) (free : ¬d.IsDirectory place) (content : ByteArray) :
    d.write? path content =
      some (d.insert place content (isDirectory_dropLast_of_locate h) free) := by
  unfold write?
  split
  · rename_i hnone
    rw [h] at hnone
    cases hnone
  · rename_i place' hplace
    cases h.symm.trans hplace
    exact dif_neg free

theorem write?_eq_some {d d' : Disk} {path : Text} {content : ByteArray}
    (h : d.write? path content = some d') :
    ∃ (place : Place) (inside : d.IsDirectory place.dropLast) (free : ¬d.IsDirectory place),
      d.locate path = some place ∧ d' = d.insert place content inside free := by
  unfold write? at h
  split at h
  · cases h
  · rename_i place hplace
    split at h
    · cases h
    · rename_i free
      cases h
      exact ⟨place, isDirectory_dropLast_of_locate hplace, free, hplace, rfl⟩

end Disk

end Mac1.Shell
