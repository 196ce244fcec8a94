import YulAbi.Document.Block.Place
import YulAbi.Text.Hex

/-!
# Scalars of a block document

Unquoted and quoted scalars. Both may go on over several lines: a single line break
between two words becomes a space, and of several ones all but the first are kept.
An unquoted scalar ends where the indentation ends, at a comment, and at a colon
that ends a word; gaps behind it are dropped.
-/

namespace YulAbi.Document.Block

/-- What a scalar has collected. The white space behind the last character is kept apart, since the
next character decides what becomes of it. -/
structure Collected where
  /-- Characters, the last one first. -/
  chars : List Char
  /-- Gaps on the line of the last character, the last one first. -/
  gaps : List Char
  /-- Whether a line has ended behind the last character. -/
  broken : Bool
  /-- The break that ended it, unless it was escaped. -/
  firstBreak : List Char
  /-- Further breaks, the last one first. -/
  moreBreaks : List Char

namespace Collected

/-- Nothing yet. -/
def empty : Collected := ⟨[], [], false, [], []⟩

/-- The characters with the white space behind them, as it counts inside the scalar. -/
def settled (collected : Collected) : List Char :=
  if !collected.broken then collected.gaps ++ collected.chars
  else if collected.firstBreak == ['\n'] then
    if collected.moreBreaks.isEmpty then ' ' :: collected.chars
    else collected.moreBreaks ++ collected.chars
  else collected.moreBreaks ++ collected.firstBreak ++ collected.chars

/-- Appends a character. -/
def push (collected : Collected) (char : Char) : Collected :=
  { empty with chars := char :: collected.settled }

/-- A character that has been appended is settled. -/
theorem settled_push (collected : Collected) (char : Char) :
    (collected.push char).settled = char :: collected.settled := rfl

/-- Appends a gap; in front of the first word of a line it is lost. -/
def pushGap (collected : Collected) (char : Char) : Collected :=
  if collected.broken then collected else { collected with gaps := char :: collected.gaps }

/-- Appends a line break; gaps in front of it are lost. -/
def pushBreak (collected : Collected) (char : Char) : Collected :=
  if collected.broken then { collected with moreBreaks := char :: collected.moreBreaks }
  else { collected with gaps := [], broken := true, firstBreak := [char] }

/-- Ends the line without a break. -/
def pushEscapedBreak (collected : Collected) : Collected :=
  { empty with chars := collected.settled, broken := true }

/-- A single line break between two words becomes a space. -/
theorem settled_pushBreak_of_unbroken {collected : Collected} (h : collected.broken = false)
    (none_more : collected.moreBreaks = []) :
    (collected.pushBreak '\n').settled = ' ' :: collected.chars := by
  simp [pushBreak, settled, h, none_more]

/-- Whether white space stands behind the last character. -/
def isApart (collected : Collected) : Bool := collected.broken || !collected.gaps.isEmpty

end Collected

/-- Characters with a meaning of their own inside flow collections. -/
def isFlowMark (char : Char) : Bool :=
  char == ',' || char == '[' || char == ']' || char == '\x7b' || char == '\x7d'

/-- Reads an unquoted scalar. Lines that go on with it start at the column `margin` or behind it, a
tab in front of that column is refused. -/
def readPlain? (inFlow : Bool) (margin : Nat) :
    Collected → Place → List Char → Option (Collected × Place × List Char)
  | collected, place, [] => some (collected, place, [])
  | collected, place, char :: rest =>
    if isBreak char then readPlain? inFlow margin (collected.pushBreak char) (place.pass char) rest
    else if isGap char then
      if collected.broken && char == '\t' && place.column < margin then none
      else readPlain? inFlow margin (collected.pushGap char) (place.pass char) rest
    else if collected.isApart &&
        (char == '#' || (!inFlow && place.column < margin) || isDocumentMark place (char :: rest)) then
      some (collected, place, char :: rest)
    else if char == ':' && endsWord rest then some (collected, place, char :: rest)
    else if inFlow && isFlowMark char then some (collected, place, char :: rest)
    else if inFlow && char == ':' && rest.head?.any fun next => isFlowMark next || next == '?' then none
    else readPlain? inFlow margin (collected.push char) (place.pass char) rest

/-- Reads hexadecimal digits of a fixed count as a character. -/
def readCodePoint? (count : Nat) (chars : List Char) : Option (Char × List Char) := do
  if chars.length < count then none
  else
    let code ← Hex.readDigits? (chars.take count)
    if h : code.isValidChar then some (Char.ofNatAux code h, chars.drop count) else none

/-- Reads one escape of a double-quoted scalar after its backslash. -/
def readEscape? : List Char → Option (Char × List Char)
  | '0' :: rest => some (Char.ofNat 0, rest)
  | 'a' :: rest => some (Char.ofNat 7, rest)
  | 'b' :: rest => some (Char.ofNat 8, rest)
  | 't' :: rest => some ('\t', rest)
  | '\t' :: rest => some ('\t', rest)
  | 'n' :: rest => some ('\n', rest)
  | 'v' :: rest => some (Char.ofNat 11, rest)
  | 'f' :: rest => some (Char.ofNat 12, rest)
  | 'r' :: rest => some ('\r', rest)
  | 'e' :: rest => some (Char.ofNat 27, rest)
  | ' ' :: rest => some (' ', rest)
  | '"' :: rest => some ('"', rest)
  | '/' :: rest => some ('/', rest)
  | '\\' :: rest => some ('\\', rest)
  | 'N' :: rest => some (Char.ofNat 0x85, rest)
  | '_' :: rest => some (Char.ofNat 0xA0, rest)
  | 'L' :: rest => some (Char.ofNat 0x2028, rest)
  | 'P' :: rest => some (Char.ofNat 0x2029, rest)
  | 'x' :: rest => readCodePoint? 2 rest
  | 'u' :: rest => readCodePoint? 4 rest
  | 'U' :: rest => readCodePoint? 8 rest
  | _ => none

/-- Reads a quoted scalar behind its opening quote. Inside single quotes a doubled quote stands for
one, inside double quotes a backslash starts an escape. Every step takes a character, so their
number is fuel enough. -/
def readQuoted? (quote : Char) :
    Nat → Collected → Place → List Char → Option (String × Place × List Char)
  | 0, _, _, _ => none
  | fuel + 1, collected, place, chars =>
    match chars with
    | [] => none
    | char :: rest =>
      if isBreak char then readQuoted? quote fuel (collected.pushBreak char) (place.pass char) rest
      else if isGap char then readQuoted? quote fuel (collected.pushGap char) (place.pass char) rest
      else if isDocumentMark place chars then none
      else if char == quote then
        if quote == '\'' && rest.head? == some quote then
          readQuoted? quote fuel (collected.push quote) (place.skip 2) (rest.drop 1)
        else some (String.ofList collected.settled.reverse, place.skip 1, rest)
      else if quote == '"' && char == '\\' then
        match rest with
        | next :: after =>
          if isBreak next then
            readQuoted? quote fuel collected.pushEscapedBreak (place.pass next) after
          else
            match readEscape? rest with
            | none => none
            | some (escaped, tail) =>
              readQuoted? quote fuel (collected.push escaped)
                (place.skip (chars.length - tail.length)) tail
        | [] => none
      else readQuoted? quote fuel (collected.push char) (place.pass char) rest

end YulAbi.Document.Block
