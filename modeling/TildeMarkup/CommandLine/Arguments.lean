import TildeMarkup.Text.Digit

/-!
# Arguments

What the words of a command line mean. Options and the one input may come in any order. A long
option may be cut short as long as only one fits, and takes its value after an equals sign or as the
next word. After a word of two dashes there are no more options.
-/

namespace TildeMarkup.CommandLine

/-- The options. Whether pages are standalone has two of them, one to ask for it and one to rule it
out. -/
inductive Switch where
  | help
  | output
  | standalone
  | noStandalone
  | title
  | language
  | styleSheet
  | config
  | watch
  | debug
  deriving DecidableEq, Repr

namespace Switch

/-- The option takes a value, joined to it or as the next word. -/
def takesValue : Switch → Bool
  | output | title | language | styleSheet | config => true
  | help | standalone | noStandalone | watch | debug => false

/-- The options of one letter. The letter that asks for help is the only one without a value. -/
def short : List (Char × Switch) :=
  [('h', help), ('o', output)]

/-- The options with a name, in the order in which the usage lists them. An option cut short is looked up
here by its start. -/
def long : List (String × Switch) :=
  [("--help", help), ("--output", output), ("--standalone", standalone),
   ("--no-standalone", noStandalone), ("--title", title), ("--lang", language),
   ("--css", styleSheet), ("--config", config), ("--watch", watch), ("--debug", debug)]

end Switch

/-- Why words are refused, with what the message has to name. -/
inductive Refusal where
  | ambiguous (word : String)
  | missingValue (switch : Switch)
  | unexpectedValue (word : String)
  | unrecognized (words : List String)
  | missingInput
  deriving DecidableEq, Repr

/-- Why words give no arguments. -/
inductive Stop where
  /-- They ask for help. -/
  | help
  | refused (refusal : Refusal)
  deriving DecidableEq, Repr

/-- What a word is, as far as it shows by itself. -/
inductive Word where
  /-- A value or the input. -/
  | plain (text : String)
  /-- The two dashes after which there are no options. -/
  | dashes
  /-- A long option, and the value after its equals sign. -/
  | long (switch : Switch) (value : Option String) (text : String)
  /-- A dash, the letter of an option, and the characters after it. -/
  | short (switch : Switch) (tail : List Char) (text : String)
  /-- An option that there is not. -/
  | unknown (text : String)
  deriving DecidableEq, Repr

/-- The characters look like a negative number: digits after a dash, with or without a point before
the last of them. A line feed at the end is overlooked. -/
def isNegativeNumber (chars : List Char) : Bool :=
  let body (cs : List Char) : Bool :=
    let rest := cs.dropWhile Digit.isDecimal
    match rest with
    | [] => !cs.isEmpty
    | '.' :: decimals => !decimals.isEmpty && decimals.all Digit.isDecimal
    | _ => false
  match chars with
  -- One line feed at the end may follow the digits, as the pattern behind this is not anchored there.
  | '-' :: cs => body (if cs.getLast? == some '\n' then cs.dropLast else cs)
  | _ => false

/-- The part of some characters before their first equals sign, and the part after it. -/
def cutAtEquals (chars : List Char) : List Char × Option (List Char) :=
  let name := chars.takeWhile (· != '=')
  (name, (chars.drop name.length).tail?)

/-- A word that starts with two dashes, and is longer. The whole word is looked up before the part in
front of its equals sign, and a start of several names fits none of them. -/
def longWord (text : String) : Except Refusal Word :=
  let (name, value) := cutAtEquals text.toList
  let value := value.map String.ofList
  match Switch.long.lookup text, Switch.long.lookup (String.ofList name) with
  | some switch, _ => .ok (.long switch none text)
  | none, some switch => .ok (.long switch value text)
  | none, none =>
    -- Neither is a name, so the part in front of the equals sign may be the start of one.
    match Switch.long.filter fun entry => name.isPrefixOf entry.1.toList with
    -- What is no option at all still counts as a value if there is a space in it.
    | [] => if text.toList.contains ' ' then .ok (.plain text) else .ok (.unknown text)
    | [(_, switch)] => .ok (.long switch value text)
    | _ => .error (.ambiguous text)

/-- A word that starts with one dash and then has the character `c`. -/
def shortWord (text : String) (c : Char) (tail : List Char) : Word :=
  match Switch.short.lookup c with
  | some switch => .short switch tail text
  | none =>
    if isNegativeNumber text.toList || text.toList.contains ' ' then .plain text
    else .unknown text

/-- What a word is before the two dashes. A single dash and the empty word stand for themselves. -/
def classify (text : String) : Except Refusal Word :=
  match text.toList with
  | ['-', '-'] => .ok .dashes
  | '-' :: '-' :: _ => longWord text
  | '-' :: c :: tail => .ok (shortWord text c tail)
  | _ => .ok (.plain text)

/-- What the words are, up to the two dashes. Behind them every word is plain, however it starts. -/
def classifyAll : List String → Except Refusal (List Word)
  | [] => .ok []
  | text :: rest => do
    match ← classify text with
    | .dashes => return .dashes :: rest.map .plain
    | word => return word :: (← classifyAll rest)

/-- The value of an option that has been given. It is kept as it was written, since an empty value still
overrides the configuration. -/
inductive Given where
  | text (text : String)
  /-- Two dashes that were joined to the option. They are taken away, and nothing is left. -/
  | blank
  deriving DecidableEq, Repr

namespace Given

/-- The value that is joined to an option. -/
def joined (value : String) : Given :=
  if value = "--" then blank else text value

/-- The value as a text. -/
def toText : Given → String
  | text value => value
  | blank => ""

/-- The value, if it names anything. An empty name of a file counts as none given. -/
def nonempty? (given : Given) : Option String :=
  if given.toText.isEmpty then none else some given.toText

end Given

/-- What the words of a command line say, before any configuration is looked at. An option that was not
given is absent. -/
structure Arguments where
  input : String
  output : Option Given
  standalone : Option Bool
  title : Option Given
  language : Option Given
  styleSheets : List Given
  config : Option Given
  watch : Bool
  debug : Bool
  deriving DecidableEq, Repr

/-- What the words have said so far. It is threaded through all of them, so that the last value of an
option wins. -/
structure Progress where
  input : Option String
  said : Arguments
  /-- The words that have no place, the latest first. -/
  extra : List String
  /-- The last word was the input. -/
  afterInput : Bool

namespace Progress

/-- Nothing has been said. -/
def initial : Progress :=
  { input := none
    said := ⟨"", none, none, none, none, [], none, false, false⟩
    extra := []
    afterInput := false }

/-- Sets an option to a value. The last value of an option counts, but style sheets add up. -/
def set (p : Progress) (switch : Switch) (value : Given) : Progress :=
  let said :=
    match switch with
    | .output => { p.said with output := some value }
    | .title => { p.said with title := some value }
    | .language => { p.said with language := some value }
    | .styleSheet => { p.said with styleSheets := p.said.styleSheets ++ [value] }
    | .config => { p.said with config := some value }
    | _ => p.said
  { p with said, afterInput := false }

/-- Turns an option on that takes no value. Of the two that say whether a page is standalone, the later
one counts. -/
def turnOn (p : Progress) (switch : Switch) : Progress :=
  let said :=
    match switch with
    | .standalone => { p.said with standalone := some true }
    | .noStandalone => { p.said with standalone := some false }
    | .watch => { p.said with watch := true }
    | .debug => { p.said with debug := true }
    | _ => p.said
  { p with said, afterInput := false }

/-- Takes a word that has no place. It is refused at the end, together with all others of its kind. -/
def leave (p : Progress) (text : String) : Progress :=
  { p with extra := text :: p.extra, afterInput := false }

/-- Takes a word that stands by itself: the input, if there is none yet. -/
def plain (p : Progress) (text : String) : Progress :=
  match p.input with
  | none => { p with input := some text, afterInput := true }
  | some _ => p.leave text

end Progress

/-- The first of some words can be a value. -/
def startsWithValue : List Word → Bool
  | .plain _ :: _ => true
  | _ => false

/-- What comes of the letters after the one that asks for help. They are options too, and each has
to be there and to have its value before help is given. -/
def helpCluster (text : String) (rest : List Word) : List Char → Stop
  | [] => .help
  | 'h' :: tail => helpCluster text rest tail
  | ['o'] => if startsWithValue rest then .help else .refused (.missingValue .output)
  | 'o' :: _ => .help
  | _ => .refused (.unexpectedValue text)

/-- What comes of a word that starts with the letter that asks for help. An equals sign after the
letter counts for nothing if something follows it. -/
def askHelp (text : String) (rest : List Word) : List Char → Stop
  | ['='] => .refused (.unexpectedValue text)
  | '=' :: tail => helpCluster text rest tail
  | tail => helpCluster text rest tail

/-- Takes the words one after the other. The two dashes belong to the input, right before it or
right after it. -/
def takeWords (p : Progress) : List Word → Except Stop Progress
  | [] => .ok p
  | .plain text :: rest => takeWords (p.plain text) rest
  | .unknown text :: rest => takeWords (p.leave text) rest
  | .dashes :: rest =>
    -- The dashes were already spent on the input in front of them.
    if p.afterInput then takeWords { p with afterInput := false } rest
    else
      match rest with
      | .plain text :: later =>
        match p.input with
        | none => takeWords { p with input := some text } later
        | some _ => takeWords ((p.leave "--").leave text) later
      -- There is no word for the dashes to hand on, so they are one without a place.
      | others => takeWords (p.leave "--") others
  | .long switch value text :: rest =>
    if switch.takesValue then
      match value with
      | some value => takeWords (p.set switch (.joined value)) rest
      | none =>
        match rest with
        | .plain value :: later => takeWords (p.set switch (.text value)) later
        | _ => .error (.refused (.missingValue switch))
    else if value.isSome then .error (.refused (.unexpectedValue text))
    else if switch = .help then .error .help
    else takeWords (p.turnOn switch) rest
  | .short switch tail text :: rest =>
    if switch.takesValue then
      match tail with
      | [] =>
        match rest with
        | .plain value :: later => takeWords (p.set switch (.text value)) later
        | _ => .error (.refused (.missingValue switch))
      -- An equals sign between the letter and its value is dropped, once.
      | '=' :: value => takeWords (p.set switch (.joined (String.ofList value))) rest
      | value => takeWords (p.set switch (.joined (String.ofList value))) rest
    else .error (askHelp text rest tail)

/-- The arguments that some words say. Words are looked at one at a time first, so a name that is cut too
short is refused before anything else is. -/
def Arguments.ofWords (words : List String) : Except Stop Arguments := do
  let words ← (classifyAll words).mapError Stop.refused
  let progress ← takeWords .initial words
  match progress.input, progress.extra with
  | none, _ => .error (.refused .missingInput)
  | some input, [] => return { progress.said with input }
  | some _, extra => .error (.refused (.unrecognized extra.reverse))

end TildeMarkup.CommandLine
