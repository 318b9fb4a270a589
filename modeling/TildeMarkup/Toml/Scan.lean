import TildeMarkup.Toml.Problem
import TildeMarkup.Toml.Value

/-!
# The words of a configuration

Keys, strings, numbers, dates and times, and the gaps between them. Every function takes the
characters that are left, and gives what it has read with the characters after it.
-/

namespace TildeMarkup.Toml

/-- Space and tab. -/
def isBlank (c : Char) : Bool :=
  c == ' ' || c == '\t'

/-- The controls of ASCII, except the tab: no text may hold them. -/
def isControl (c : Char) : Bool :=
  (c.toNat < 0x20 && c != '\t') || c.toNat == 0x7f

/-- The characters after some blanks. Line ends stay, as they end what a line holds. -/
def skipBlanks (cs : List Char) : List Char :=
  cs.dropWhile isBlank

/-- The characters after a comment, up to the end of its line. The line end itself is left to be read. -/
def commentBody : List Char → Except Problem (List Char)
  | [] => .ok []
  | c :: rest =>
    if c == '\n' then .ok (c :: rest)
    else if isControl c then .error (.illegal c)
    else commentBody rest

/-- The characters after a comment, if there is one. -/
def skipComment : List Char → Except Problem (List Char)
  | '#' :: rest => commentBody rest
  | cs => .ok cs

/-- The characters after blanks, line ends and comments, as they may stand between the items of an
array. -/
def skipGaps : (inComment : Bool) → List Char → Except Problem (List Char)
  | _, [] => .ok []
  | true, c :: rest =>
    if c == '\n' then skipGaps false rest
    else if isControl c then .error (.illegal c)
    else skipGaps true rest
  | false, c :: rest =>
    if isBlank c || c == '\n' then skipGaps false rest
    else if c == '#' then skipGaps true rest
    else .ok (c :: rest)

/-! ### Strings -/

/-- The value of a hexadecimal digit. -/
def hexValue? (c : Char) : Option Nat :=
  if '0' ≤ c && c ≤ '9' then some (c.toNat - '0'.toNat)
  else if 'a' ≤ c && c ≤ 'f' then some (c.toNat - 'a'.toNat + 10)
  else if 'A' ≤ c && c ≤ 'F' then some (c.toNat - 'A'.toNat + 10)
  else none

/-- The character whose code point is given in hexadecimal. Not every number is the code point of a
character. -/
def hexChar (digits : List Char) : Except Problem Char :=
  match digits.mapM hexValue? with
  | none => .error (.expected "a hexadecimal digit")
  | some values =>
    let n := values.foldl (fun n value => 16 * n + value) 0
    if n.isValidChar then .ok (Char.ofNat n) else .error (.expected "a character")

/-- The character that a backslash before another one stands for. -/
def escaped? : Char → Option Char
  | 'b' => some '\x08'
  | 't' => some '\t'
  | 'n' => some '\n'
  | 'f' => some '\x0c'
  | 'r' => some '\r'
  | '"' => some '"'
  | '\\' => some '\\'
  | _ => none

/-- Where the reader of a basic string stands. -/
inductive StringState where
  /-- Among its characters. -/
  | plain
  /-- After a backslash that joins lines, before the end of its line. -/
  | joining
  /-- On the next line, before its first character. -/
  | joined
  deriving DecidableEq

/-- The characters of a basic string up to its closing quotes: one quote, or three if it spans
lines. -/
def basicBody (multiline : Bool) : StringState → List Char → Except Problem (List Char × List Char)
  | _, [] => .error (.expected "a closing quote")
  | .joining, c :: rest =>
    if isBlank c then basicBody multiline .joining rest
    else if c == '\n' then basicBody multiline .joined rest
    else .error (.expected "a known escape")
  | state, c :: rest =>
    -- Blanks and further line ends go with the line end that was escaped.
    if state == .joined && (isBlank c || c == '\n') then basicBody multiline .joined rest
    else if c == '"' then
      if multiline then
        match rest with
        | '"' :: '"' :: after => .ok ([], after)
        -- Fewer than three quotes are characters of the text.
        | _ => do
          let (text, after) ← basicBody multiline .plain rest
          return (c :: text, after)
      else .ok ([], rest)
    else if c == '\\' then
      match rest with
      | 'u' :: a :: b :: c :: d :: rest => do
        let char ← hexChar [a, b, c, d]
        let (text, after) ← basicBody multiline .plain rest
        return (char :: text, after)
      | 'U' :: a :: b :: c :: d :: e :: f :: g :: h :: rest => do
        let char ← hexChar [a, b, c, d, e, f, g, h]
        let (text, after) ← basicBody multiline .plain rest
        return (char :: text, after)
      | e :: rest =>
        if multiline && isBlank e then basicBody multiline .joining rest
        else if multiline && e == '\n' then basicBody multiline .joined rest
        else
          match escaped? e with
          | some char => do
            let (text, after) ← basicBody multiline .plain rest
            return (char :: text, after)
          | none => .error (.expected "a known escape")
      | [] => .error (.expected "a known escape")
    else if isControl c && !(multiline && c == '\n') then .error (.illegal c)
    else do
      let (text, after) ← basicBody multiline .plain rest
      return (c :: text, after)

/-- The characters of a literal string up to its closing quotes. There are no escapes in it. -/
def literalBody (multiline : Bool) : List Char → Except Problem (List Char × List Char)
  | [] => .error (.expected "a closing quote")
  | c :: rest =>
    if c == '\'' && !multiline then .ok ([], rest)
    else
      match c, rest with
      | '\'', '\'' :: '\'' :: after => .ok ([], after)
      | _, _ =>
        if isControl c && !(multiline && c == '\n') then .error (.illegal c)
        else do
          let (text, after) ← literalBody multiline rest
          return (c :: text, after)

/-- Up to two quotes after the three that close a string belong to the string. -/
def extraQuotes (mark : Char) (text : List Char) : List Char → String × List Char
  | c :: d :: rest =>
    if c == mark && d == mark then (String.ofList (text ++ [mark, mark]), rest)
    else if c == mark then (String.ofList (text ++ [mark]), d :: rest)
    else (String.ofList text, c :: d :: rest)
  | [c] => if c == mark then (String.ofList (text ++ [mark]), []) else (String.ofList text, [c])
  | [] => (String.ofList text, [])

/-- The characters without a line end in front, which a string that spans lines may start with for
looks. -/
def dropLineEnd : List Char → List Char
  | '\n' :: rest => rest
  | cs => cs

/-- A string on one line, if one starts here. -/
def lineString? : List Char → Option (Except Problem (String × List Char))
  | '"' :: rest => some do
    let (text, after) ← basicBody false .plain rest
    return (String.ofList text, after)
  | '\'' :: rest => some do
    let (text, after) ← literalBody false rest
    return (String.ofList text, after)
  | _ => none

/-- A string, if one starts here. Three quotes start one that spans lines, and so two quotes alone are an
empty string. -/
def string? (cs : List Char) : Option (Except Problem (String × List Char)) :=
  match cs with
  | '"' :: '"' :: '"' :: rest => some do
    let (text, after) ← basicBody true .plain (dropLineEnd rest)
    return extraQuotes '"' text after
  | '\'' :: '\'' :: '\'' :: rest => some do
    let (text, after) ← literalBody true (dropLineEnd rest)
    return extraQuotes '\'' text after
  | _ => lineString? cs

/-! ### Keys -/

/-- The characters of a key without quotes. -/
def isBare (c : Char) : Bool :=
  ('a' ≤ c && c ≤ 'z') || ('A' ≤ c && c ≤ 'Z') || ('0' ≤ c && c ≤ '9') || c == '-' || c == '_'

/-- One part of a key: a string on one line, or characters that need no quotes. -/
def keyPart (cs : List Char) : Except Problem (String × List Char) :=
  match lineString? cs with
  | some scanned => scanned
  | none =>
    let bare := cs.takeWhile isBare
    if bare.isEmpty then .error (.expected "a key")
    else .ok (String.ofList bare, cs.drop bare.length)

/-- A key with its parts, and the characters after the blanks that follow it. Every part takes at
least one character, so `steps` is enough when it is more than the number of characters. -/
def key : (steps : Nat) → List Char → Except Problem (List String × List Char)
  | 0, _ => .error .exhausted
  | steps + 1, cs => do
    let (part, rest) ← keyPart cs
    match skipBlanks rest with
    | '.' :: rest =>
      let (parts, after) ← key steps (skipBlanks rest)
      return (part :: parts, after)
    | rest => return ([part], rest)

/-! ### Numbers -/

/-- The value of some digits in a base. Underscores have been left out before. -/
def digitsValue (base : Nat) (digits : List Char) : Nat :=
  digits.foldl (fun n c => base * n + (hexValue? c).getD 0) 0

/-- A digit below a base. -/
def isDigitOf (base : Nat) (c : Char) : Bool :=
  match hexValue? c with
  | some value => value < base
  | none => false

/-- The digits in front, with single underscores allowed between two of them. An underscore that is not
between digits is left to be read. -/
def digitRun (base : Nat) : List Char → List Char × List Char
  | [] => ([], [])
  | [c] => if isDigitOf base c then ([c], []) else ([], [c])
  | c :: d :: rest =>
    if isDigitOf base c then
      if d == '_' then
        match rest with
        | e :: _ =>
          if isDigitOf base e then
            let (digits, after) := digitRun base rest
            (c :: digits, after)
          else ([c], d :: rest)
        | [] => ([c], [d])
      else
        let (digits, after) := digitRun base (d :: rest)
        (c :: digits, after)
    else ([], c :: d :: rest)

/-- Digits of a base after their mark, if there are any. -/
def basedInteger? (base : Nat) (cs : List Char) : Option (Value × List Char) :=
  match digitRun base cs with
  | ([], _) => none
  | (digits, after) => some (.integer (digitsValue base digits), after)

/-- The fraction digits in front, after their point. A point without digits behind it is no part of the
number. -/
def fraction (cs : List Char) : List Char × List Char :=
  match cs with
  | '.' :: rest =>
    match digitRun 10 rest with
    | ([], _) => ([], cs)
    | found => found
  | _ => ([], cs)

/-- The sign in front, if there is one: whether it is a minus. -/
def sign (cs : List Char) : Bool × List Char :=
  match cs with
  | '-' :: rest => (true, rest)
  | '+' :: rest => (false, rest)
  | _ => (false, cs)

/-- The exponent in front, after its mark. Without digits there is none, and the mark is left. -/
def exponent? (cs : List Char) : Option (Int × List Char) :=
  match cs with
  | e :: rest =>
    if e == 'e' || e == 'E' then
      let (negative, rest) := sign rest
      match digitRun 10 rest with
      | ([], _) => none
      | (digits, after) =>
        let n : Int := digitsValue 10 digits
        some (if negative then -n else n, after)
    else none
  | [] => none

/-- The digits of a whole number in front. More than one start with another digit than zero. -/
def wholeRun (cs : List Char) : List Char × List Char :=
  match cs with
  | '0' :: rest => (['0'], rest)
  | _ => digitRun 10 cs

/-- A decimal number after its sign: a whole number, or a float if there is a fraction or an
exponent. Of a whole number there may be too many digits, of a float there may not. -/
def decimal? (negative : Bool) (cs : List Char) : Option (Except Problem (Value × List Char)) :=
  let (whole, rest) := wholeRun cs
  if whole.isEmpty then none
  else
    let (decimals, rest) := fraction rest
    match decimals, exponent? rest with
    | [], none =>
      -- The underscores are out already, and the sign was never in.
      if maxDigits < whole.length then some (.error .tooManyDigits)
      else
        let n : Int := digitsValue 10 whole
        some (.ok (.integer (if negative then -n else n), rest))
    | _, exponent =>
      let (power, rest) := exponent.getD (0, rest)
      let digits := digitsValue 10 (whole ++ decimals)
      some (.ok (.float (.ofDecimal negative digits (power - decimals.length)), rest))

/-- A number, if one starts here. Other bases take no sign, and without digits after their mark the zero
is a number by itself. -/
def number? (cs : List Char) : Option (Except Problem (Value × List Char)) :=
  let based :=
    match cs with
    | '0' :: 'x' :: rest => basedInteger? 16 rest
    | '0' :: 'o' :: rest => basedInteger? 8 rest
    | '0' :: 'b' :: rest => basedInteger? 2 rest
    | _ => none
  match based with
  | some found => some (.ok found)
  | none =>
    let (negative, rest) := sign cs
    decimal? negative rest

/-- A float that is no number, or infinite, if one starts here. -/
def special? (cs : List Char) : Option (Value × List Char) :=
  let (negative, rest) := sign cs
  match rest with
  | 'i' :: 'n' :: 'f' :: after => some (.float (.infinite negative), after)
  | 'n' :: 'a' :: 'n' :: after => some (.float .nan, after)
  | _ => none

/-! ### Dates and times -/

/-- A number of exactly two digits between two bounds. Years are read as two of them. -/
def twoDigits? (low high : Nat) : List Char → Option (Nat × List Char)
  | a :: b :: rest =>
    let n := digitsValue 10 [a, b]
    if isDigitOf 10 a && isDigitOf 10 b && low ≤ n && n ≤ high then some (n, rest) else none
  | _ => none

/-- The characters after a given one. -/
def after? (mark : Char) : List Char → Option (List Char)
  | c :: rest => if c == mark then some rest else none
  | [] => none

/-- A date, if one starts here. The day need not be one of the month, which is refused only afterwards. -/
def date? (cs : List Char) : Option (Date × List Char) := do
  let (century, rest) ← twoDigits? 0 99 cs
  let (year, rest) ← twoDigits? 0 99 rest
  let (month, rest) ← twoDigits? 1 12 (← after? '-' rest)
  let (day, rest) ← twoDigits? 1 31 (← after? '-' rest)
  return (⟨100 * century + year, month, day⟩, rest)

/-- The fraction of a second in front, in microseconds. Further digits are dropped. -/
def microseconds (cs : List Char) : Nat × List Char :=
  match cs with
  | '.' :: rest =>
    let digits := rest.takeWhile (isDigitOf 10)
    if digits.isEmpty then (0, cs)
    else
      let kept := digits.take 6
      (digitsValue 10 kept * Nat.pow 10 (6 - kept.length), rest.drop digits.length)
  | _ => (0, cs)

/-- A time of day, if one starts here. The seconds have to be there. -/
def time? (cs : List Char) : Option (Time × List Char) := do
  let (hour, rest) ← twoDigits? 0 23 cs
  let (minute, rest) ← twoDigits? 0 59 (← after? ':' rest)
  let (second, rest) ← twoDigits? 0 59 (← after? ':' rest)
  let (microsecond, rest) := microseconds rest
  return (⟨hour, minute, second, microsecond⟩, rest)

/-- The offset of the local time in front, in minutes. -/
def offset? (cs : List Char) : Option (Int × List Char) :=
  match cs with
  | c :: rest =>
    if c == 'Z' || c == 'z' then some (0, rest)
    else if c == '+' || c == '-' then do
      let (hours, rest) ← twoDigits? 0 23 rest
      let (minutes, rest) ← twoDigits? 0 59 (← after? ':' rest)
      let total : Int := 60 * hours + minutes
      return (if c == '-' then -total else total, rest)
    else none
  | [] => none

/-- The time of day that follows a date, after its mark, which may be a space. If no time follows, neither
does the mark belong to the date. -/
def timeAfterDate? : List Char → Option (Time × List Char)
  | c :: rest => if c == 'T' || c == 't' || c == ' ' then time? rest else none
  | [] => none

/-- A date with or without a time, or a time, if one starts here. -/
def moment? (cs : List Char) : Option (Except Problem (Value × List Char)) :=
  match date? cs with
  | some (date, rest) =>
    some <|
      -- What looks like a date is read as nothing else, even if there is no such day.
      if date.exists? then
        match timeAfterDate? rest with
        | some (time, rest) =>
          match offset? rest with
          | some (offset, rest) => .ok (.dateTime date time (some offset), rest)
          | none => .ok (.dateTime date time none, rest)
        | none => .ok (.date date, rest)
      else .error .noSuchDay
  | none => (time? cs).map fun (time, rest) => .ok (.time time, rest)

/-! ### Values without values inside -/

/-- A truth value, if one starts here. -/
def boolean? : List Char → Option (Value × List Char)
  | 't' :: 'r' :: 'u' :: 'e' :: rest => some (.boolean true, rest)
  | 'f' :: 'a' :: 'l' :: 's' :: 'e' :: rest => some (.boolean false, rest)
  | _ => none

/-- A value that is neither an array nor a table. A date is tried before a number, which could start
in the same way. -/
def atom (cs : List Char) : Except Problem (Value × List Char) :=
  match string? cs with
  | some scanned => scanned.map fun (text, rest) => (.string text, rest)
  | none =>
    match boolean? cs with
    | some found => .ok found
    | none =>
      match moment? cs with
      | some scanned => scanned
      | none =>
        match number? cs with
        | some scanned => scanned
        | none =>
          match special? cs with
          | some found => .ok found
          | none => .error (.expected "a value")

end TildeMarkup.Toml
