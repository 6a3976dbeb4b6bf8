import Facade.Text.CharClass
import Facade.Text.Quoted

/-!
# Command lines

What a command line asks for. Options may be shortened as long as only one is meant, and take their
value from the same word or the next one. Two dashes end the options.

* `Flag`, `Flag.names`: the options;
* `Word.classify`: a word of a command line;
* `UsageFault`, `UsageFault.message`: why a command line asks for nothing;
* `Options.parse`: what a command line asks for.
-/

namespace Facade

/-- The options. -/
inductive Flag where
  | help | version | out | diagnostics | dumpTree | dumpUnits | noIncremental | cleanCache | cacheDir
  | noBanner
deriving Repr, DecidableEq

namespace Flag

/-- Every option. -/
def all : List Flag := [help, version, out, diagnostics, dumpTree, dumpUnits, noIncremental,
  cleanCache, cacheDir, noBanner]

/-- The names of an option. -/
def names : Flag → List String
  | help => ["-h", "--help"]
  | version => ["--version"]
  | out => ["-o", "--out"]
  | diagnostics => ["--diagnostics"]
  | dumpTree => ["--dump-tree"]
  | dumpUnits => ["--dump-units"]
  | noIncremental => ["--no-incremental"]
  | cleanCache => ["--clean-cache"]
  | cacheDir => ["--cache-dir"]
  | noBanner => ["--no-banner"]

/-- The option has a value. -/
def takesValue : Flag → Bool
  | out | cacheDir => true
  | _ => false

/-- An option as messages name it. -/
def title (f : Flag) : String := "/".intercalate f.names

/-- All names of options, each with its option. -/
def table : List (String × Flag) := all.flatMap fun f => f.names.map fun n => (n, f)

/-- The option of this name. -/
def ofName? (name : String) : Option Flag := (table.find? fun e => e.1 == name).map Prod.snd

end Flag

/-! ## Faults -/

/-- Why a command line asks for nothing. -/
inductive UsageFault where
  /-- A shortened option that may be several. -/
  | ambiguous (word : String) (matching : List String)
  /-- An option without its value. -/
  | missingValue (flag : Flag)
  /-- A value of an option that has none. -/
  | unexpectedValue (flag : Flag) (value : String)
  /-- Words with no meaning. -/
  | unrecognized (words : List String)
deriving Repr, DecidableEq

/-- The fault in words. -/
def UsageFault.message : UsageFault → String
  | ambiguous word matching =>
    "ambiguous option: " ++ word ++ " could match " ++ ", ".intercalate matching
  | missingValue flag => "argument " ++ flag.title ++ ": expected one argument"
  | unexpectedValue flag value =>
    "argument " ++ flag.title ++ ": ignored explicit argument " ++ Text.quote value
  | unrecognized words => "unrecognized arguments: " ++ " ".intercalate words

/-! ## Words -/

/-- What a word of a command line is. -/
inductive Word where
  | operand (text : String)
  /-- Two dashes: all words after it are operands. -/
  | separator
  /-- An option under one of its names, and the value in the same word. -/
  | option (flag : Flag) (name : String) (value : Option String)
  /-- A word like an option that is none. -/
  | unknown (text : String)
deriving Repr, DecidableEq

namespace Word

/-- What stands before and after the first equals sign of a word. -/
def splitValue? (word : String) : Option (String × String) :=
  match word.toList.span (· != '=') with
  | (name, _ :: value) => some (String.ofList name, String.ofList value)
  | (_, []) => none

/-- The first text begins with the second. -/
def beginsWith (s start : String) : Bool := start.toList.isPrefixOf s.toList

/-- The options that a shortened long option may mean. -/
def longMatches (name : String) (value : Option String) : List Word :=
  (Flag.table.filter fun e => beginsWith e.1 name).map fun e => option e.2 e.1 value

/-- The options that a word with a single dash may mean: an option of one letter with a value, or the
beginning of a name. -/
def shortMatches (word : String) : List Word :=
  let short := String.ofList (word.toList.take 2)
  let value := String.ofList (word.toList.drop 2)
  Flag.table.filterMap fun e =>
    if e.1 == short then some (option e.2 e.1 (some value))
    else if beginsWith e.1 word then some (option e.2 e.1 none)
    else none

/-- The options that a word may mean. -/
def candidates (word : String) : List Word :=
  if beginsWith word "--" then
    match splitValue? word with
    | some (name, value) => longMatches name (some value)
    | none => longMatches word none
  else shortMatches word

/-- The name of an option, or the word itself. -/
def name : Word → String
  | option _ n _ => n
  | operand t | unknown t => t
  | separator => "--"

/-- A text without the line feed at its end, if there is one. -/
def dropLineFeed (cs : List Char) : List Char :=
  if cs.getLast? = some '\n' then cs.dropLast else cs

/-- The word is a negative number, which is no option; a line feed may end it. -/
def isNegativeNumber (word : String) : Bool :=
  match dropLineFeed word.toList with
  | '-' :: rest =>
    let (whole, after) := rest.span Text.isDecimalDigit
    match after with
    | [] => !whole.isEmpty
    | '.' :: places => !places.isEmpty && places.all Text.isDecimalDigit
    | _ => false
  | _ => false

/-- What a word with a dash at its start is, if it is not the name of an option. -/
def classifyDashed (word : String) : Except UsageFault Word :=
  match candidates word with
  | [found] => .ok found
  | [] =>
    if isNegativeNumber word || word.toList.contains ' ' then .ok (operand word)
    else .ok (unknown word)
  | several => .error (.ambiguous word (several.map name))

/-- The option that a word names in full, perhaps with a value after an equals sign. -/
def named? (word : String) : Option Word :=
  match Flag.ofName? word with
  | some flag => some (option flag word none)
  | none => do
    let (name, value) ← splitValue? word
    return option (← Flag.ofName? name) name (some value)

/-- What a word is, before two dashes. -/
def classify (word : String) : Except UsageFault Word :=
  if word == "--" then .ok separator
  else if !beginsWith word "-" || word == "-" then .ok (operand word)
  else
    match named? word with
    | some found => .ok found
    | none => classifyDashed word

/-- What the words of a command line are. -/
def classifyAll : List String → Except UsageFault (List Word)
  | [] => .ok []
  | w :: ws => do
    match ← classify w with
    | separator => return separator :: ws.map operand
    | found => return found :: (← classifyAll ws)

end Word

/-! ## Options -/

/-- What a command line asks for. -/
structure Options where
  sources : List String
  version : Bool
  out : Option String
  diagnostics : Bool
  dumpTree : Bool
  dumpUnits : Bool
  noIncremental : Bool
  cleanCache : Bool
  cacheDir : Option String
  noBanner : Bool
deriving Repr, DecidableEq

namespace Options

/-- What an empty command line asks for. -/
def empty : Options := ⟨[], false, none, false, false, false, false, false, none, false⟩

/-- The options with one more of them; `value` is the value of one that has it. -/
def set (o : Options) (flag : Flag) (value : String) : Options :=
  match flag with
  | .help => o
  | .version => { o with version := true }
  | .out => { o with out := some value }
  | .diagnostics => { o with diagnostics := true }
  | .dumpTree => { o with dumpTree := true }
  | .dumpUnits => { o with dumpUnits := true }
  | .noIncremental => { o with noIncremental := true }
  | .cleanCache => { o with cleanCache := true }
  | .cacheDir => { o with cacheDir := some value }
  | .noBanner => { o with noBanner := true }

end Options

/-- What is left of a command line while it is read: the options so far, whether the operands have been
met, and the words with no meaning. -/
structure Scanned where
  options : Options
  hasOperands : Bool
  extras : List String
deriving Repr, DecidableEq

/-- What a command line comes to. -/
inductive Request where
  | help
  | run (o : Options)
deriving Repr, DecidableEq

namespace Scanned

/-- Nothing read yet. -/
def start : Scanned := ⟨.empty, false, []⟩

/-- Operands that stand together. The first ones are the sources; more of them mean nothing. -/
def addOperands (s : Scanned) (texts : List String) : Scanned :=
  if texts.isEmpty then s
  else if s.hasOperands then { s with extras := s.extras ++ texts }
  else { s with options := { s.options with sources := texts.erase "--" }, hasOperands := true }

/-- A word with no meaning. -/
def addExtra (s : Scanned) (text : String) : Scanned := { s with extras := s.extras ++ [text] }

/-- The options with several more of them that have no value. -/
def setAll (s : Scanned) (flags : List Flag) : Scanned :=
  { s with options := flags.foldl (fun o f => o.set f "") s.options }

/-- The options with one more of them. -/
def set (s : Scanned) (flag : Flag) (value : String) : Scanned :=
  { s with options := s.options.set flag value }

/-- What was read, at the end of the command line. -/
def finish (s : Scanned) : Except UsageFault Request :=
  if s.extras.isEmpty then .ok (.run s.options) else .error (.unrecognized s.extras)

end Scanned

/-- The options that one word holds: some without values, and a last one, whose value may be in the same
word. -/
structure Expansion where
  flags : List Flag
  last : Flag
  value : Option String
deriving Repr, DecidableEq

/-- The options in a word that begins with an option and goes on with `value`. After a single dash there
may be several options of one letter. -/
def Expansion.ofValue (flag : Flag) (name : String) : List Char → Except UsageFault Expansion
  | [] => if flag.takesValue then .ok ⟨[], flag, some ""⟩ else .error (.unexpectedValue flag "")
  | c :: more =>
    let value := String.ofList (c :: more)
    if flag.takesValue then .ok ⟨[], flag, some value⟩
    else if Word.beginsWith name "--" then .error (.unexpectedValue flag value)
    else
      let next := String.ofList ['-', c]
      match Flag.ofName? next with
      | none => .error (.unexpectedValue flag value)
      | some f =>
        if more.isEmpty then .ok ⟨[flag], f, none⟩
        else (ofValue f next more).map fun e => { e with flags := flag :: e.flags }

/-- The options in a word. -/
def Expansion.ofWord (flag : Flag) (name : String) (value : Option String) :
    Except UsageFault Expansion :=
  match value with
  | none => .ok ⟨[], flag, none⟩
  | some v => ofValue flag name v.toList

namespace Expansion

variable (e : Expansion)

/-- One of the options asks for help. -/
def asksForHelp : Bool := e.flags.contains .help || e.last == .help

/-- What was read with these options, the last of which has this value. -/
def addTo (s : Scanned) (value : String) : Scanned := (s.setAll e.flags).set e.last value

end Expansion

namespace Options

/-- Reads the words of a command line; `operands` are those since the last option. Help is given as
soon as it is asked for. -/
def scan (s : Scanned) (operands : List String) : List Word → Except UsageFault Request
  | [] => (s.addOperands operands).finish
  | .operand t :: rest => scan s (operands ++ [t]) rest
  | .separator :: rest => scan s (operands ++ ["--"]) rest
  | .unknown t :: rest => scan ((s.addOperands operands).addExtra t) [] rest
  | .option flag name value :: rest => do
    let e ← Expansion.ofWord flag name value
    let s := s.addOperands operands
    match e.last.takesValue, e.value, rest with
    | false, _, rest => if e.asksForHelp then return .help else scan (e.addTo s "") [] rest
    | true, some v, rest => if e.asksForHelp then return .help else scan (e.addTo s v) [] rest
    | true, none, .operand v :: rest =>
      if e.asksForHelp then return .help else scan (e.addTo s v) [] rest
    | true, none, _ => throw (.missingValue e.last)

/-- What a command line asks for. -/
def parse (arguments : List String) : Except UsageFault Request := do
  scan .start [] (← Word.classifyAll arguments)

end Options

end Facade
