import Mac1.Shell.Session

/-!
The program on a console: the grammar of its arguments, and the colours of its output. A command
stands between flags for the whole program and its own arguments. Flags may be joined in one
argument, an option takes its number from the same argument or from the next, and after two dashes
every argument is a plain word. Arguments are read from left to right: what is wrong with one is
found before a later one is looked at, so help and the version are shown only when everything before
them is right. The text of the help is left out, and the command that follows the changes of a file
is read and then refused.
-/
namespace Mac1.Shell

namespace Style

def code : Style → Text
  | bold => "1".toList
  | dim => "2".toList
  | green => "32".toList
  | yellow => "33".toList
  | cyan => "36".toList

/-- A text between the escape sequences that begin and end a style. -/
def escape (s : Style) (t : Text) : Text :=
  "\x1b[".toList ++ s.code ++ 'm' :: t ++ "\x1b[0m".toList

end Style

/-- A forced colour wins over a refused one, and without either a terminal gets colour. -/
def Environment.paint (e : Environment) (terminal : Bool) : Paint :=
  if ((e.value? "CLICOLOR_FORCE").filter (· ≠ "0".toList)).isSome then Style.escape
  else if (e.value? "NO_COLOR").isSome then Paint.plain
  else if terminal && e.value? "CLICOLOR" != some "0".toList then Style.escape
  else Paint.plain

/-- Why there is no request: the arguments are no sentence of the grammar, they ask for help or for
the version, or they ask for the changes of a file. -/
inductive Interruption where
  | usage | help | version | watch
  deriving DecidableEq, Repr

def Interruption.answer : Interruption → Answer
  | usage => ⟨[], 2⟩
  | help => ⟨[], 0⟩
  | version => ⟨["mic1 0.1.0".toList], 0⟩
  | watch => ⟨[], 1⟩

/-- The words that one level of the command line takes: a command, which ends the level; at most so
many paths, none of them empty; or any words at all, numbers with a minus among them. -/
inductive Words where
  | command
  | paths (most : Nat)
  | any
  deriving DecidableEq, Repr

namespace Words

/-- What is taken after a word, if the word is. -/
def after? : Words → Text → Option Words
  | command, _ => none
  | paths 0, _ => none
  | paths (most + 1), word => if word = [] then none else some (paths most)
  | any, _ => some any

/-- Take all arguments as words. -/
def takeAll : Words → List Text → Except Interruption (List Text)
  | _, [] => .ok []
  | w, word :: rest =>
    match w.after? word with
    | none => .error .usage
    | some w' => (w'.takeAll rest).map (word :: ·)

end Words

/-- What one level of the command line accepts: flags with their letters, options with a number,
and words. -/
structure Grammar where
  flags : List (Char × Text)
  options : List Text
  words : Words

/-- The flags, options and words of one level, each in the order they are given. -/
structure Given where
  flags : List Text
  options : List (Text × Nat)
  words : List Text

namespace Given

def empty : Given := ⟨[], [], []⟩

/-- A flag is given at most once; help and the version are answered at once. -/
def addFlag (g : Given) (name : Text) : Except Interruption Given :=
  if name = "help".toList then .error .help
  else if name = "version".toList then .error .version
  else if g.flags.contains name then .error .usage
  else .ok { g with flags := g.flags ++ [name] }

/-- An option is given at most once, with a number of sixteen bits. -/
def addOption (g : Given) (name value : Text) : Except Interruption Given :=
  if (g.options.lookup name).isSome then .error .usage
  else
    match Numeral.integer? 0 0xffff value with
    | none => .error .usage
    | some n => .ok { g with options := g.options ++ [(name, n.toNat)] }

/-- A word before the others. -/
def consWord (word : Text) (g : Given) : Given := { g with words := word :: g.words }

def has (g : Given) (name : String) : Bool := g.flags.contains name.toList

def number (g : Given) (name : String) (default : Nat) : Nat :=
  (g.options.lookup name.toList).getD default

end Given

/-- Digits, perhaps a point and further digits, perhaps an exponent. -/
def isNumber (t : Text) : Bool :=
  let rest := t.dropWhile Char.isDigit
  let rest := if rest.head? = some '.' then rest.tail.dropWhile Char.isDigit else rest
  (t.takeWhile Char.isDigit ≠ []) &&
    match rest with
    | [] => true
    | c :: exponent => (c = 'e' || c = 'E') && exponent ≠ [] && exponent.all Char.isDigit

namespace Grammar

def flagOfLetter? (g : Grammar) (letter : Char) : Option Text := g.flags.lookup letter

def isFlag (g : Grammar) (name : Text) : Bool := g.flags.any (·.2 = name)

/-- Several flags in one argument. -/
def scanLetters (g : Grammar) (given : Given) : Text → Except Interruption Given
  | [] => .ok given
  | letter :: rest =>
    match g.flagOfLetter? letter with
    | none => .error .usage
    | some name => (given.addFlag name).bind fun given' => g.scanLetters given' rest

/-- Read the arguments of one level from left to right, after those that are `given`. -/
def scan (g : Grammar) (given : Given) : List Text → Except Interruption Given
  | [] => .ok given
  | ['-', '-'] :: rest => (g.words.takeAll rest).map fun words => { given with words }
  | ('-' :: '-' :: body) :: rest =>
    let name := body.takeWhile (· ≠ '=')
    match body.dropWhile (· ≠ '=') with
    | _ :: value =>
      if g.options.contains name then
        (given.addOption name value).bind fun given' => g.scan given' rest
      else .error .usage
    | [] =>
      if g.options.contains name then
        match rest with
        | [] => .error .usage
        | value :: rest' =>
          if value.head? = some '-' then .error .usage
          else (given.addOption name value).bind fun given' => g.scan given' rest'
      else if g.isFlag name then
        (given.addFlag name).bind fun given' => g.scan given' rest
      else .error .usage
  | ('-' :: letter :: letters) :: rest =>
    if g.words = .any && isNumber (letter :: letters) then
      (g.scan given rest).map (Given.consWord ('-' :: letter :: letters))
    else (g.scanLetters given (letter :: letters)).bind fun given' => g.scan given' rest
  | word :: rest =>
    if g.words = .command then .ok { given with words := word :: rest }
    else
      match g.words.after? word with
      | none => .error .usage
      | some words => ({ g with words }.scan given rest).map (Given.consWord word)

def shared : List (Char × Text) :=
  [('m', "minimal".toList), ('s', "strict".toList), ('h', "help".toList)]

/-- Before the command. -/
def program : Grammar := ⟨shared ++ [('V', "version".toList)], [], .command⟩

/-- After a command that takes paths only. -/
def paths (most : Nat) : Grammar := ⟨shared, [], .paths most⟩

def load : Grammar :=
  ⟨shared ++ [('a', "all".toList)], ["from".toList, "to".toList], .paths 1⟩

def decode : Grammar := ⟨shared, [], .any⟩

end Grammar

namespace Command

def names : List Text :=
  ["assemble".toList, "check".toList, "load".toList, "decode".toList, "watch".toList,
    "help".toList]

def ofAssemble (given : Given) : Except Interruption Command :=
  match given.words with
  | [source] => .ok (.assemble source none)
  | [source, destination] => .ok (.assemble source (some destination))
  | _ => .error .usage

def ofCheck (given : Given) : Except Interruption Command :=
  match given.words with
  | [source] => .ok (.check source)
  | _ => .error .usage

def ofLoad (given : Given) : Except Interruption Command :=
  match given.words with
  | [source] =>
    .ok (.load source ⟨given.number "from" 0, given.number "to" 4095, given.has "all"⟩)
  | _ => .error .usage

def ofDecode (given : Given) : Except Interruption Command :=
  match given.words with
  | [] => .error .usage
  | words => .ok (.decode words)

def ofWatch (given : Given) : Except Interruption Command :=
  match given.words with
  | [_] => .error .watch
  | _ => .error .usage

end Command

namespace Request

/-- A flag counts before the command as well as after it. -/
def make (before after : Given) (command : Option Command) : Request :=
  ⟨before.has "strict" || after.has "strict", before.has "minimal" || after.has "minimal", command⟩

/-- Read the arguments of a command. -/
def ofCommand (before : Given) (g : Grammar) (command : Given → Except Interruption Command)
    (arguments : List Text) : Except Interruption Request := do
  let after ← g.scan .empty arguments
  return make before after (some (← command after))

/-- There is help on the program and on each command. -/
def help : List Text → Interruption
  | [] => .help
  | [name] => if Command.names.contains name then .help else .usage
  | _ => .usage

/-- Read all arguments of the program. -/
def scan (arguments : List Text) : Except Interruption Request := do
  let before ← Grammar.program.scan .empty arguments
  match before.words with
  | [] => return make before .empty none
  | name :: rest =>
    if name = "assemble".toList then ofCommand before (.paths 2) Command.ofAssemble rest
    else if name = "check".toList then ofCommand before (.paths 1) Command.ofCheck rest
    else if name = "load".toList then ofCommand before .load Command.ofLoad rest
    else if name = "decode".toList then ofCommand before .decode Command.ofDecode rest
    else if name = "watch".toList then ofCommand before (.paths 1) Command.ofWatch rest
    else if name = "help".toList then .error (help rest)
    else .error .usage

def ofArguments (arguments : List Text) : Except Answer Request :=
  (scan arguments).mapError Interruption.answer

end Request

end Mac1.Shell
