/-!
# What a terminal shows of a text

An argument may hold any characters, also those that steer a terminal. A message that quotes the
argument leaves them out (`Terminal.visible`) : control characters other than tabs and line
ends, and the sequences that an escape character begins. Control characters are those of ASCII
only. A sequence goes on until the character that ends its kind, or until another begins, and
one that the text does not end is left out to the end of the text.

A tab or a line end inside a short sequence is shown and suspends it, so that the text behind
it is shown as well. The next control character takes the sequence up again, and a character
beyond ASCII drops it.
-/

namespace Chip8.CommandLine.Terminal

/-- A tab, a line end or the end of a page. -/
def isSpacing (c : Char) : Bool :=
  c == '\t' || c == '\n' || c == '\x0c' || c == '\r'

/-- A character that is no control character of ASCII. -/
def isGraphic (c : Char) : Bool :=
  decide (' ' ≤ c) && c != '\x7f'

/-- A character that is shown where it stands outside of all sequences. -/
def isShown (c : Char) : Bool :=
  isGraphic c || isSpacing c

/-! ## Sequences -/

/-- How much of a sequence is read. -/
inductive Sequence where
  /-- The escape character. -/
  | escape
  /-- An escape character and characters before the final one. -/
  | designation
  /-- A control sequence, before its final character. -/
  | control
  /-- A command to the operating system, which a bell ends. -/
  | command
  /-- A device control string, of which nothing follows yet. -/
  | device
  /-- A device control string with parameters. -/
  | deviceParameters
  /-- A device control string with characters between the parameters and the final one. -/
  | deviceIntermediates
  /-- The body of a string, which the byte `0x9c` ends. -/
  | string
  deriving DecidableEq

/-- A character between the parameters and the final character of a sequence. -/
def isIntermediate (c : Char) : Bool := decide (' ' ≤ c ∧ c ≤ '/')

/-- A character of the parameters of a sequence. -/
def isParameter (c : Char) : Bool := decide ('0' ≤ c ∧ c ≤ '?')

/-- The mark of a private parameter, which stands in front of all others. -/
def isPrivate (c : Char) : Bool := decide ('<' ≤ c ∧ c ≤ '?')

/-- A character that ends a sequence with parameters. -/
def isFinal (c : Char) : Bool := decide ('@' ≤ c ∧ c ≤ '~')

/-- The character has the byte that ends a string in its UTF-8 form. -/
def endsString (c : Char) : Bool := (String.utf8EncodeChar c).contains 0x9c

namespace Sequence

/-- What follows an escape character. -/
def begin (c : Char) : Option Sequence :=
  match c with
  | '[' => some control
  | ']' => some command
  | 'P' => some device
  | 'X' | '^' | '_' => some string
  | c =>
    if isIntermediate c then some designation
    else if isParameter c || isFinal c then none
    else some escape

/-- A sequence with one more character, or nothing if that character ends it. -/
def next (sequence : Sequence) (c : Char) : Option Sequence :=
  match sequence with
  | escape => begin c
  | designation => if isParameter c || isFinal c then none else some designation
  | control => if isFinal c then none else some control
  | command => if c == '\x07' then none else some command
  | device =>
    if isIntermediate c then some deviceIntermediates
    else if isParameter c then some deviceParameters
    else if isFinal c then some string
    else some device
  | deviceParameters =>
    if isIntermediate c then some deviceIntermediates
    else if isPrivate c || isFinal c then some string
    else some deviceParameters
  | deviceIntermediates =>
    if isParameter c || isFinal c then some string else some deviceIntermediates
  | string => if endsString c then none else some string

/-- A sequence in which tabs and line ends are shown. The others are strings, and these
swallow them. -/
def isShort : Sequence → Bool
  | escape | designation | control => true
  | command | device | deviceParameters | deviceIntermediates | string => false

end Sequence

/-! ## Texts -/

/-- Where in a text a character stands. -/
inductive Setting where
  /-- Outside of all sequences. -/
  | plain
  | within (sequence : Sequence)
  /-- Behind a tab or a line end that suspends a sequence. -/
  | suspended (sequence : Sequence)
  deriving DecidableEq

namespace Setting

/-- A character is shown here. -/
def shows : Setting → Char → Bool
  | plain, c | suspended _, c => isShown c
  | within sequence, c => sequence.isShort && isSpacing c

/-- The setting behind a character that begins and breaks off no sequence. -/
def advance : Setting → Char → Setting
  | plain, _ => plain
  | within sequence, c =>
    if sequence.isShort && isSpacing c then suspended sequence
    else
      match sequence.next c with
      | none => plain
      | some longer => within longer
  | suspended sequence, c =>
    if '\x7f' < c then plain
    else if isShown c then suspended sequence
    else within sequence

/-- The setting behind a character. An escape character begins a sequence wherever it stands,
and two control characters break off whatever there is. -/
def after (setting : Setting) (c : Char) : Setting :=
  match c with
  | '\x1b' => within .escape
  | '\x18' | '\x1a' => plain
  | c => setting.advance c

end Setting

/-- The characters that are shown of a text. -/
def visibleFrom : Setting → List Char → List Char
  | _, [] => []
  | setting, c :: rest =>
    if setting.shows c then c :: visibleFrom (setting.after c) rest
    else visibleFrom (setting.after c) rest

/-- What is shown of a text. -/
def visible (text : String) : String :=
  String.ofList (visibleFrom .plain text.toList)

end Chip8.CommandLine.Terminal
