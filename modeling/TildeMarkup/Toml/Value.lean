import TildeMarkup.Number.Shortest
import TildeMarkup.Text.Quoted
import TildeMarkup.Toml.Problem

/-!
# Values of a configuration

The values that a TOML document can hold, and their text. A string is its own text; inside an array
or a table it is quoted. A value with an integer in it that has too many digits has no text.
-/

namespace TildeMarkup.Toml

/-- A day of the calendar. That there is such a day is checked where one is read. -/
structure Date where
  year : Nat
  month : Nat
  day : Nat
  deriving DecidableEq, Repr

/-- A time of day, in numbers that have been checked where they were read. -/
structure Time where
  hour : Nat
  minute : Nat
  second : Nat
  microsecond : Nat
  deriving DecidableEq, Repr

/-- A value, as the document says it. A day, a time and both together are three kinds of their own. -/
inductive Value where
  | string (text : String)
  | integer (n : Int)
  | float (x : Binary64)
  | boolean (b : Bool)
  | date (date : Date)
  | time (time : Time)
  /-- A day and a time of day, with the offset of the local time in minutes if it is known. -/
  | dateTime (date : Date) (time : Time) (offset : Option Int)
  | array (items : List Value)
  | table (entries : List (String × Value))

/-- A number in decimal, with zeros before it up to a width. A wider number is not cut. -/
def padded (width n : Nat) : String :=
  let digits := Nat.toDigits 10 n
  String.ofList (List.replicate (width - digits.length) '0' ++ digits)

namespace Date

/-- The month has this many days. -/
def daysInMonth (year month : Nat) : Nat :=
  if month = 2 then
    if year % 4 = 0 && (year % 100 != 0 || year % 400 = 0) then 29 else 28
  else if month = 4 || month = 6 || month = 9 || month = 11 then 30
  else 31

/-- There is such a day, from the year 1 on. -/
def exists? (date : Date) : Bool :=
  1 ≤ date.year && date.day ≤ daysInMonth date.year date.month

/-- Year, month and day. -/
def toText (date : Date) : String :=
  padded 4 date.year ++ "-" ++ padded 2 date.month ++ "-" ++ padded 2 date.day

/-- The fields of a day, as the arguments of which its quoted form is made. -/
def fields (date : Date) : List Nat := [date.year, date.month, date.day]

end Date

namespace Time

/-- Hour, minute and second, and the fraction of the second if there is one. -/
def toText (time : Time) : String :=
  padded 2 time.hour ++ ":" ++ padded 2 time.minute ++ ":" ++ padded 2 time.second
    ++ (if time.microsecond = 0 then "" else "." ++ padded 6 time.microsecond)

/-- The fields of a time, as arguments. Seconds and microseconds are left out where only zeros would
follow. -/
def fields (time : Time) : List Nat :=
  if time.microsecond = 0 then
    if time.second = 0 then [time.hour, time.minute] else [time.hour, time.minute, time.second]
  else [time.hour, time.minute, time.second, time.microsecond]

end Time

/-- An offset of the local time: sign, hours and minutes. -/
def offsetText (minutes : Int) : String :=
  (if minutes < 0 then "-" else "+")
    ++ padded 2 (minutes.natAbs / 60) ++ ":" ++ padded 2 (minutes.natAbs % 60)

/-- An offset of the local time as a part of a quoted value: whole days, and seconds that are not
negative. -/
def offsetQuoted (minutes : Int) : String :=
  if minutes = 0 then "datetime.timezone.utc"
  else
    let days := if minutes < 0 then "days=-1, " else ""
    let seconds := (if minutes < 0 then minutes + 24 * 60 else minutes) * 60
    "datetime.timezone(datetime.timedelta(" ++ days ++ "seconds=" ++ toString seconds ++ "))"

/-- Numbers with commas between them. -/
def commaNumbers (numbers : List Nat) : String :=
  ", ".intercalate (numbers.map toString)

/-- A text between quotes, with escapes for what cannot be shown. -/
def quoted (text : String) : String :=
  String.ofList (Quoted.encode text.toList)

/-- An integer in decimal, unless it has too many digits for that. Integers written in other bases may be
so long without being refused when they are read. -/
def integerText? (n : Int) : Option String :=
  if n.natAbs < Nat.pow 10 maxDigits then some (toString n) else none

namespace Value

mutual

/-- The text of a value inside an array or a table, if it has one. -/
def nested? : Value → Option String
  | string text => some (quoted text)
  | integer n => integerText? n
  | float x => some x.toText
  | boolean b => some (if b then "True" else "False")
  | date d => some ("datetime.date(" ++ commaNumbers d.fields ++ ")")
  | time t => some ("datetime.time(" ++ commaNumbers t.fields ++ ")")
  | dateTime d t none => some ("datetime.datetime(" ++ commaNumbers (d.fields ++ t.fields) ++ ")")
  | dateTime d t (some offset) =>
    some ("datetime.datetime(" ++ commaNumbers (d.fields ++ t.fields)
      ++ ", tzinfo=" ++ offsetQuoted offset ++ ")")
  | array items => do return "[" ++ ", ".intercalate (← nestedItems? items) ++ "]"
  | table entries => do return "\x7b" ++ ", ".intercalate (← nestedEntries? entries) ++ "\x7d"

/-- The texts of the items of an array, if all of them have one. -/
def nestedItems? : List Value → Option (List String)
  | [] => some []
  | item :: rest => do return (← nested? item) :: (← nestedItems? rest)

/-- The texts of the entries of a table, if all of the values have one. -/
def nestedEntries? : List (String × Value) → Option (List String)
  | [] => some []
  | (key, value) :: rest => do
    return (quoted key ++ ": " ++ (← nested? value)) :: (← nestedEntries? rest)

end

/-- The text of a value that stands by itself, if it has one. -/
def toText? : Value → Option String
  | string text => some text
  | date d => some d.toText
  | time t => some t.toText
  | dateTime d t offset => some (d.toText ++ " " ++ t.toText ++ (offset.map offsetText).getD "")
  -- All others have one form, whether they stand inside something or not.
  | value => nested? value

/-- The value of a key, if the value is a table that has it. -/
def lookup? (key : String) : Value → Option Value
  | table entries => entries.lookup key
  | _ => none

end Value

end TildeMarkup.Toml
