import Mac1.Proofs.Text
import Mac1.Shell.Session

/-!
Files that are read after one has been written. Writing a file makes no new directory, so every path
still leads where it led: the written file reads back, and every other file reads as before. A path
and the same path with another extension lead to different places.
-/
namespace Mac1.Shell

namespace Disk

variable {d d' : Disk}

/-- A walk looks at directories only. -/
theorem walk_congr (h : ∀ place, d'.IsDirectory place ↔ d.IsDirectory place) (place : Place)
    (components : List Text) : d'.walk place components = d.walk place components := by
  induction components generalizing place with
  | nil => rfl
  | cons component rest ih => simp only [walk, h, ih]

theorem walk_append (d : Disk) (place : Place) (xs ys : List Text) :
    d.walk place (xs ++ ys) = (d.walk place xs).bind (d.walk · ys) := by
  induction xs generalizing place with
  | nil => rfl
  | cons component xs ih =>
    simp only [List.cons_append, walk, ih]
    split
    · rw [Option.bind_assoc]
    · rfl

section Insert

variable {place : Place} (content : ByteArray) (inside : d.IsDirectory place.dropLast)
  (free : ¬d.IsDirectory place)

theorem locate_insert (path : Text) :
    (d.insert place content inside free).locate path = d.locate path := by
  rw [locate, locate, walk_congr (isDirectory_insert content inside free)]
  rfl

end Insert

/-- A written file reads back. -/
theorem read?_write? {path : Text} {content : ByteArray} (h : d.write? path content = some d') :
    d'.read? path = some content := by
  obtain ⟨place, inside, free, hplace, rfl⟩ := write?_eq_some h
  simp [read?, locate_insert, hplace]

/-- Every other place is as before. -/
theorem node?_write?_ne {path : Text} {content : ByteArray} (h : d.write? path content = some d')
    {other : Place} (hne : d.locate path ≠ some other) : d'.node? other = d.node? other := by
  obtain ⟨place, inside, free, hplace, rfl⟩ := write?_eq_some h
  have hother : other ≠ place := by
    rintro rfl
    exact hne hplace
  rw [node?_insert, if_neg hother]

/-- A file in another place reads as before. -/
theorem read?_write?_ne {path other : Text} {content : ByteArray}
    (h : d.write? path content = some d') (hne : d.locate other ≠ d.locate path) :
    d'.read? other = d.read? other := by
  obtain ⟨place, inside, free, hplace, rfl⟩ := write?_eq_some h
  rw [read?, read?, locate_insert]
  cases hother : d.locate other with
  | none => rfl
  | some p =>
    have hp : p ≠ place := by
      rintro rfl
      exact hne (hother.trans hplace.symm)
    simp [node?_insert, hp]

theorem text?_write? {path t : Text} (h : d.write? path (Script.encode t) = some d') :
    d'.text? path = some t := by
  simp [text?, read?_write? h]

theorem text?_write?_ne {path other : Text} {content : ByteArray}
    (h : d.write? path content = some d') (hne : d.locate other ≠ d.locate path) :
    d'.text? other = d.text? other := by
  rw [text?, text?, read?_write?_ne h hne]

end Disk

namespace Path

theorem splitName_plain {name : Text} (h : '/' ∉ name) : splitName name = ([], name) := by
  have h' : '/' ∉ name.reverse := mt List.mem_reverse.1 h
  rw [splitName, Text.dropWhile_ne_eq_nil h', Text.takeWhile_ne_eq_self h', List.reverse_reverse]
  rfl

theorem splitName_slash (directory : Text) {name : Text} (h : '/' ∉ name) :
    splitName (directory ++ '/' :: name) = (directory ++ ['/'], name) := by
  rw [splitName, (Text.cut_reverse directory h).1, (Text.cut_reverse directory h).2]
  simp

theorem slash_notMem_name (path : Text) : '/' ∉ (splitName path).2 := by
  intro h
  simpa using List.mem_takeWhile_imp (List.mem_reverse.1 h)

theorem directory_append_name (path : Text) : (splitName path).1 ++ (splitName path).2 = path := by
  rw [splitName, ← List.reverse_append, List.takeWhile_append_dropWhile, List.reverse_reverse]

/-- Another name may stand in the same directory. -/
theorem exists_directory (path : Text) :
    ∃ names : List Text, ∀ name : Text, '/' ∉ name →
      splitName ((splitName path).1 ++ name) = ((splitName path).1, name) ∧
        ((splitName path).1 ++ name).splitOn '/' = names ++ [name] := by
  by_cases hslash : '/' ∈ path
  · obtain ⟨directory, last, rfl, hlast⟩ := Text.eq_append_cons_of_mem hslash
    refine ⟨directory.splitOn '/', fun name hname => ?_⟩
    rw [splitName_slash directory hlast, List.append_assoc, List.singleton_append,
      splitName_slash directory hname, List.splitOn_append_cons_self,
      List.splitOn_eq_singleton hname]
    exact ⟨rfl, rfl⟩
  · refine ⟨[], fun name hname => ?_⟩
    rw [splitName_plain hslash]
    exact ⟨splitName_plain hname, List.splitOn_eq_singleton hname⟩

theorem splitExtension_dot (stem : Text) {extension : Text} (h : '.' ∉ extension) :
    splitExtension (stem ++ '.' :: extension) =
      if stem = [] then ('.' :: extension, none) else (stem, some extension) := by
  rw [splitExtension, (Text.cut_reverse stem h).1, (Text.cut_reverse stem h).2]
  cases hstem : stem.reverse with
  | nil => simp [List.reverse_eq_nil_iff.1 hstem]
  | cons c rest =>
    have hne : stem ≠ [] := by
      rintro rfl
      cases hstem
    rw [if_neg hne]
    show ((c :: rest).reverse, some extension.reverse.reverse) = (stem, some extension)
    rw [← hstem, List.reverse_reverse, List.reverse_reverse]

/-- An extension stands behind the last dot, unless that dot is the first character. -/
theorem splitExtension_eq_some {name stem extension : Text}
    (h : splitExtension name = (stem, some extension)) :
    name = stem ++ '.' :: extension ∧ stem ≠ [] ∧ '.' ∉ extension := by
  by_cases hdot : '.' ∈ name
  · obtain ⟨stem', extension', rfl, hext⟩ := Text.eq_append_cons_of_mem hdot
    rw [splitExtension_dot stem' hext] at h
    split at h
    · cases h
    · rename_i hne
      cases h
      exact ⟨rfl, hne, hext⟩
  · rw [splitExtension, Text.dropWhile_ne_eq_nil (mt List.mem_reverse.1 hdot)] at h
    cases h

theorem isFileName_dot {stem : Text} (h : stem ≠ []) (extension : Text) :
    isFileName (stem ++ '.' :: extension) = true ↔ (stem = ['.'] → extension ≠ []) := by
  match stem, h with
  | [c], _ =>
    simp only [isFileName, List.singleton_append, List.contains_cons, List.contains_nil]
    simp [imp_iff_not_or]
  | c :: d :: rest, _ => simp [isFileName]

/-- The name of a path is that of a file, with an extension after its last dot. -/
structure Extended (path stem extension : Text) : Prop where
  name : (splitName path).2 = stem ++ '.' :: extension
  stem_ne : stem ≠ []
  dot : '.' ∉ extension
  file : isFileName (stem ++ '.' :: extension) = true

theorem exists_stem {path extension : Text} (h : extension? path = some extension) :
    ∃ stem, Extended path stem extension := by
  rw [extension?] at h
  split at h
  case isFalse => cases h
  case isTrue hfile =>
    obtain ⟨hname, hstem, hdot⟩ := splitExtension_eq_some (Prod.ext rfl h)
    exact ⟨_, hname, hstem, hdot, hname ▸ hfile⟩

/-- What a name becomes when its extension is replaced. A stem of one dot leaves two dots. -/
def renamed (stem extension : Text) : Text :=
  if stem = ['.'] then ['.', '.'] else stem ++ '.' :: extension

namespace Extended

variable {path stem old new : Text}

theorem withExtension_eq (h : Extended path stem old) (new : Text) :
    withExtension path new = (splitName path).1 ++ renamed stem new := by
  have hcut : isFileName (stem ++ ['.']) = true ↔ stem ≠ ['.'] := by
    simp [isFileName_dot h.stem_ne]
  rw [withExtension, h.name, if_pos h.file, splitExtension_dot stem h.dot, if_neg h.stem_ne,
    renamed]
  dsimp only
  by_cases hone : stem = ['.']
  · rw [if_neg fun hfile => hcut.1 hfile hone, if_pos hone, hone]
    rfl
  · rw [if_pos (hcut.2 hone), if_neg hone]

theorem renamed_ne (h : Extended path stem old) (hne : new ≠ old) :
    renamed stem new ≠ stem ++ '.' :: old := by
  intro he
  rw [renamed] at he
  split at he
  case isTrue hone =>
    rw [hone] at he
    exact (isFileName_dot h.stem_ne old).1 h.file hone (by simpa using he.symm)
  case isFalse => exact hne (by simpa using he)

theorem slash_notMem_renamed (h : Extended path stem old) (hnew : '/' ∉ new) :
    '/' ∉ renamed stem new := by
  have hname := slash_notMem_name path
  rw [h.name] at hname
  have hstem : '/' ∉ stem := fun hmem => hname (List.mem_append_left _ hmem)
  rw [renamed]
  split
  · decide
  · simp [hstem, hnew]

end Extended

/-- A replaced extension is gone. -/
theorem extension?_withExtension_ne {path old new : Text} (h : extension? path = some old)
    (hslash : '/' ∉ new) (hdot : '.' ∉ new) (hne : new ≠ old) :
    extension? (withExtension path new) ≠ some old := by
  obtain ⟨stem, hstem⟩ := exists_stem h
  obtain ⟨names, hnames⟩ := exists_directory path
  rw [hstem.withExtension_eq, extension?, (hnames _ (hstem.slash_notMem_renamed hslash)).1]
  dsimp only
  split
  case isFalse => simp
  case isTrue hfile =>
    by_cases hone : stem = ['.']
    · rw [renamed, if_pos hone] at hfile
      exact absurd hfile (by decide)
    · rw [renamed, if_neg hone, splitExtension_dot stem hdot, if_neg hstem.stem_ne]
      simpa using hne

end Path

namespace Step

/-- A component that is the name of a file leads down to it. -/
theorem ofText?_fileName {component : Text} {step : Step}
    (hname : Path.isFileName component = true) (h : ofText? component = some step) :
    ∃ name : Name, name.text = component ∧ step = down name := by
  have hother : component ≠ [] ∧ component ≠ ['.'] ∧ component ≠ ['.', '.'] := by
    simpa [Path.isFileName] using hname
  rw [ofText?, if_neg (by simp [hother]), if_neg hother.2.2] at h
  obtain ⟨name, hread, rfl⟩ := Option.map_eq_some_iff.1 h
  exact ⟨name, Name.text_of_ofText? hread, rfl⟩

/-- Only a name leads down. -/
theorem text_of_ofText?_down {component : Text} {name : Name}
    (h : ofText? component = some (down name)) : component = name.text := by
  unfold ofText? at h
  split at h
  · cases h
  · split at h
    · cases h
    · obtain ⟨other, hread, hdown⟩ := Option.map_eq_some_iff.1 h
      cases hdown
      exact (Name.text_of_ofText? hread).symm

end Step

namespace Disk

variable {d : Disk}

/-- The last component of a path that leads into a directory. -/
theorem walk_last {place : Place} {component : Text} {last : Name}
    (h : d.walk place [component] = some (place ++ [last])) : component = last.text := by
  obtain ⟨-, step, hstep, hrest⟩ := walk_cons h
  have hplace : step.apply place = place ++ [last] := Option.some.inj hrest
  cases step with
  | down name =>
    obtain rfl : name = last := by simpa using hplace
    exact Step.text_of_ofText?_down hstep
  | stay =>
    have hlength := congrArg List.length hplace
    simp at hlength
  | up =>
    have hlength := congrArg List.length hplace
    simp only [Step.apply_up, List.length_dropLast, List.length_append,
      List.length_singleton] at hlength
    omega

theorem walk_file {place target : Place} {component : Text}
    (hname : Path.isFileName component = true) (h : d.walk place [component] = some target) :
    ∃ name : Name, name.text = component ∧ target = place ++ [name] := by
  obtain ⟨-, step, hstep, hrest⟩ := walk_cons h
  obtain ⟨name, htext, rfl⟩ := Step.ofText?_fileName hname hstep
  exact ⟨name, htext, (Option.some.inj hrest).symm⟩

/-- Where a path starts does not depend on its last name. -/
theorem start_append (d : Disk) (directory : Text) {name name' : Text} (h : '/' ∉ name)
    (h' : '/' ∉ name') : d.start (directory ++ name) = d.start (directory ++ name') := by
  have hplain : ∀ {t : Text}, '/' ∉ t → t.head? ≠ some '/' :=
    fun ht he => ht (List.mem_of_mem_head? he)
  cases directory with
  | nil => simp [start, hplain h, hplain h']
  | cons c directory => simp [start]

/-- A path and the same path with another extension never lead to the same place: both walks reach
the same directory and differ in the last name only. -/
theorem locate_withExtension_ne {path old new : Text} (h : Path.extension? path = some old)
    (hslash : '/' ∉ new) (hne : new ≠ old) {place : Place}
    (hplace : d.locate (Path.withExtension path new) = some place) :
    d.locate path ≠ some place := by
  intro hsame
  obtain ⟨stem, hstem⟩ := Path.exists_stem h
  obtain ⟨names, hnames⟩ := Path.exists_directory path
  have hrenamed := hstem.slash_notMem_renamed hslash
  have hwalk := walk_of_locate hsame
  have hwalk' := walk_of_locate hplace
  rw [← Path.directory_append_name path, (hnames _ (Path.slash_notMem_name path)).2, walk_append,
    d.start_append _ (Path.slash_notMem_name path) hrenamed, hstem.name] at hwalk
  rw [hstem.withExtension_eq, (hnames _ hrenamed).2, walk_append] at hwalk'
  obtain ⟨directory, hdirectory, hlast⟩ := Option.bind_eq_some_iff.1 hwalk
  obtain ⟨name, hname, rfl⟩ := walk_file hstem.file hlast
  rw [hdirectory, Option.bind_some] at hwalk'
  exact hstem.renamed_ne hne ((walk_last hwalk').trans hname)

end Disk

end Mac1.Shell
