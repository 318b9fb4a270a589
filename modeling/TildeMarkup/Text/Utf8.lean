import TildeMarkup.Byte

/-!
# Reading bytes as text

UTF-8, written and read. Reading never fails: a sequence of bytes that cannot be continued to a
character gives one replacement character for its longest start that could have been, which is the
practice that the Unicode standard recommends. The reader keeps what an unfinished character still
needs, so that it is a left-to-right pass over the bytes.
-/

namespace TildeMarkup.Utf8

/-- The character that stands for bytes that are no character. -/
def replacement : Char := '\uFFFD'

/-- What is still open between two bytes. The range of the next byte is what rules out long forms,
surrogates and values that are too large. -/
inductive State where
  /-- Nothing: the next byte starts a character. -/
  | clear
  /-- A character with the bits `value` so far. It needs `more + 1` bytes, the next of them
  between `low` and `high`. -/
  | within (value more : Nat) (low high : UInt8)
  deriving DecidableEq, Repr

/-- Reads a byte that stands where a character starts. -/
def start (b : UInt8) : List Char × State :=
  if b < 0x80 then ([Char.ofNat b.toNat], .clear)
  -- These bytes continue a character, or would start one in a longer form than it needs.
  else if b < 0xc2 then ([replacement], .clear)
  else if b < 0xe0 then ([], .within (b.toNat - 0xc0) 0 0x80 0xbf)
  else if b == 0xe0 then ([], .within 0 1 0xa0 0xbf)
  else if b == 0xed then ([], .within 0x0d 1 0x80 0x9f)
  else if b < 0xf0 then ([], .within (b.toNat - 0xe0) 1 0x80 0xbf)
  else if b == 0xf0 then ([], .within 0 2 0x90 0xbf)
  else if b < 0xf4 then ([], .within (b.toNat - 0xf0) 2 0x80 0xbf)
  else if b == 0xf4 then ([], .within 4 2 0x80 0x8f)
  else ([replacement], .clear)

/-- Reads one byte: the characters that it completes, and what is open after it. -/
def step : State → UInt8 → List Char × State
  | .clear, b => start b
  | .within value more low high, b =>
    if low ≤ b && b ≤ high then
      let value := value * 64 + (b.toNat - 0x80)
      match more with
      | 0 => ([Char.ofNat value], .clear)
      | more + 1 => ([], .within value more 0x80 0xbf)
    else
      -- A byte that does not continue the character ends it, and is looked at again as the start of
      -- another.
      let (chars, state) := start b
      (replacement :: chars, state)

/-- The characters of the bytes that follow, from any state on. -/
def decodeFrom : State → Bytes → List Char
  | .clear, [] => []
  | .within .., [] => [replacement]
  | state, b :: rest =>
    let (chars, state) := step state b
    chars ++ decodeFrom state rest

/-- The characters of a text in UTF-8, with replacements where it is not UTF-8. -/
def decodeChars (bytes : Bytes) : List Char :=
  decodeFrom .clear bytes

/-- The text of bytes in UTF-8, with replacements where they are not UTF-8. -/
def decode (bytes : Bytes) : String :=
  String.ofList (decodeChars bytes)

/-- The bytes of some characters in UTF-8. -/
def encodeChars (chars : List Char) : Bytes :=
  chars.flatMap String.utf8EncodeChar

/-- The bytes of a text in UTF-8. Every text has some, and is read back from them. -/
def encode (text : String) : Bytes :=
  encodeChars text.toList

/-- The text of bytes that are UTF-8 throughout, and nothing for others. What is read with a replacement
in it does not give the same bytes again. -/
def decode? (bytes : Bytes) : Option String :=
  let text := decode bytes
  if encode text = bytes then some text else none

/-- The number of UTF-16 units of some characters: two for each one above U+FFFF. -/
def units16 (chars : List Char) : Nat :=
  chars.length + chars.countP fun c => 0x10000 ≤ c.toNat

theorem encodeChars_append (cs ds : List Char) :
    encodeChars (cs ++ ds) = encodeChars cs ++ encodeChars ds := by
  simp [encodeChars]

theorem decodeFrom_cons (state : State) (b : UInt8) (rest : Bytes) :
    decodeFrom state (b :: rest) = (step state b).1 ++ decodeFrom (step state b).2 rest := by
  cases state <;> rfl

end TildeMarkup.Utf8
