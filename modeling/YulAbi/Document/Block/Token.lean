import YulAbi.Document.Block.Words

/-!
# Tokens of a block document

Text is cut into tokens in one pass. Blocks have no brackets of their own: one opens
where an entry stands further right than the block around it, and closes where
something stands further left. That a scalar or a flow collection is a key shows
only at the colon behind it, so its place is kept until then; it must be on one line
with its colon and at most 1024 bytes in front of it. Anchors, aliases, tags,
directives and block scalars are refused.
-/

namespace YulAbi.Document.Block

/-- A token. -/
inductive Token where
  /-- A scalar. -/
  | scalar (quoted : Bool) (value : String)
  /-- A key follows. -/
  | key
  /-- The value of a key follows. -/
  | value
  /-- An item of a block sequence follows. -/
  | item
  /-- A block sequence starts. -/
  | openItems
  /-- A block mapping starts. -/
  | openEntries
  /-- The innermost block ends. -/
  | close
  /-- A flow sequence starts. -/
  | openFlowItems
  /-- A flow sequence ends. -/
  | closeFlowItems
  /-- A flow mapping starts. -/
  | openFlowEntries
  /-- A flow mapping ends. -/
  | closeFlowEntries
  /-- A comma of a flow collection. -/
  | comma
  /-- The mark that opens a document. -/
  | documentStart
  /-- The mark that closes a document. -/
  | documentEnd

/-- A token that may turn out to start a key. -/
structure Candidate where
  /-- The number of tokens before it. -/
  number : Nat
  /-- Where it starts. -/
  place : Place
  /-- Whether nothing but a key may stand there. -/
  required : Bool

/-- The state of the pass. -/
structure Tokenizer where
  /-- Where the pass is. -/
  place : Place
  /-- The text that is left. -/
  rest : List Char
  /-- The first column inside the innermost block, zero outside of all blocks. -/
  margin : Nat
  /-- The margins around it, the innermost first. -/
  margins : List Nat
  /-- Whether a key may start here. -/
  keyAllowed : Bool
  /-- The candidates, one for each flow collection around and one for the block, the innermost first. -/
  candidates : List (Option Candidate)
  /-- The tokens, the last one first. -/
  tokens : List Token
  /-- Their number. -/
  count : Nat

namespace Tokenizer

/-- The state in front of a text. -/
def start (text : List Char) : Tokenizer := ⟨.start, text, 0, [], true, [none], [], 0⟩

/-- Whether a flow collection is open. -/
def inFlow (tokenizer : Tokenizer) : Bool := 1 < tokenizer.candidates.length

/-- Appends a token. -/
def emit (tokenizer : Tokenizer) (token : Token) : Tokenizer :=
  { tokenizer with tokens := token :: tokenizer.tokens, count := tokenizer.count + 1 }

/-- Inserts a token behind the first tokens of a number. -/
def insert (tokenizer : Tokenizer) (number : Nat) (token : Token) : Tokenizer :=
  let (after, before) := tokenizer.tokens.splitAt (tokenizer.count - number)
  { tokenizer with tokens := after ++ token :: before, count := tokenizer.count + 1 }

/-- Moves over ASCII characters. -/
def skip (tokenizer : Tokenizer) (count : Nat) : Tokenizer :=
  { tokenizer with place := tokenizer.place.skip count, rest := tokenizer.rest.drop count }

/-- Allows or forbids that a key starts next. -/
def allowKey (tokenizer : Tokenizer) (allowed : Bool) : Tokenizer :=
  { tokenizer with keyAllowed := allowed }

/-- Moves over white space and comments. Where a key may start a tab is no white space. -/
def passIdle (inFlow : Bool) : Bool → Bool → Place → List Char → Bool × Place × List Char
  | _, allowed, place, [] => (allowed, place, [])
  | inComment, allowed, place, char :: rest =>
    if isBreak char then passIdle inFlow false (allowed || !inFlow) (place.pass char) rest
    else if inComment || char == '#' then passIdle inFlow true allowed (place.pass char) rest
    else if char == ' ' || (char == '\t' && (inFlow || !allowed)) ||
        (char == byteOrderMark && place.column == 0) then
      passIdle inFlow false allowed (place.pass char) rest
    else (allowed, place, char :: rest)

/-- Closes blocks until the margin is at most `bound`. -/
def closeBeyond (bound : Nat) (tokenizer : Tokenizer) : Tokenizer :=
  let inner := (tokenizer.margin :: tokenizer.margins).takeWhile (bound < ·)
  match (tokenizer.margin :: tokenizer.margins).drop inner.length with
  | margin :: margins =>
    { tokenizer with
      margin := margin
      margins := margins
      tokens := List.replicate inner.length .close ++ tokenizer.tokens
      count := tokenizer.count + inner.length }
  | [] => tokenizer

/-- Opens a block at a column behind the first tokens of a number, unless one is open there or a flow
collection is open. -/
def openBlock (tokenizer : Tokenizer) (column number : Nat) (token : Token) : Tokenizer :=
  if tokenizer.inFlow || column < tokenizer.margin then tokenizer
  else
    { tokenizer.insert number token with
      margin := column + 1
      margins := tokenizer.margin :: tokenizer.margins }

/-- Drops a candidate that is too far away to be a key. -/
def dropFar? (place : Place) : Option Candidate → Option (Option Candidate)
  | none => some none
  | some candidate =>
    if candidate.place.line == place.line && place.width ≤ candidate.place.width + 1024 then
      some (some candidate)
    else if candidate.required then none
    else some none

/-- Moves to the next token, closing the blocks that end in front of it. -/
def advance? (tokenizer : Tokenizer) : Option Tokenizer := do
  let (allowed, place, rest) :=
    passIdle tokenizer.inFlow false tokenizer.keyAllowed tokenizer.place tokenizer.rest
  let candidates ← tokenizer.candidates.mapM (dropFar? place)
  let next := { tokenizer with place, rest, keyAllowed := allowed, candidates }
  return if next.inFlow then next else next.closeBeyond (place.column + 1)

/-- Forgets the innermost candidate, which is not followed by a colon. -/
def forget? (tokenizer : Tokenizer) : Option Tokenizer :=
  match tokenizer.candidates with
  | some candidate :: outer =>
    if candidate.required then none else some { tokenizer with candidates := none :: outer }
  | _ => some tokenizer

/-- Keeps the next token as a candidate where a key may start. -/
def keep? (tokenizer : Tokenizer) : Option Tokenizer :=
  if tokenizer.keyAllowed then do
    let next ← tokenizer.forget?
    let required := !tokenizer.inFlow && tokenizer.margin == tokenizer.place.column + 1
    let candidate : Candidate := ⟨tokenizer.count, tokenizer.place, required⟩
    return { next with candidates := some candidate :: next.candidates.drop 1 }
  else some tokenizer

/-- Reads the bracket that opens a flow collection. -/
def openFlow? (tokenizer : Tokenizer) (token : Token) : Option Tokenizer := do
  let next ← tokenizer.keep?
  return ({ next with candidates := none :: next.candidates }.allowKey true).skip 1 |>.emit token

/-- Reads the bracket that closes a flow collection. -/
def closeFlow? (tokenizer : Tokenizer) (token : Token) : Option Tokenizer := do
  let next ← tokenizer.forget?
  let outer := if next.inFlow then next.candidates.drop 1 else next.candidates
  return ({ next with candidates := outer }.allowKey false).skip 1 |>.emit token

/-- Reads the comma between parts of a flow collection. -/
def comma? (tokenizer : Tokenizer) : Option Tokenizer := do
  return ((← tokenizer.forget?).allowKey true).skip 1 |>.emit .comma

/-- Reads the dash of an item, which opens a block sequence if none is open at its column. -/
def item? (tokenizer : Tokenizer) : Option Tokenizer := do
  if !tokenizer.inFlow && !tokenizer.keyAllowed then none
  else
    let next ← (tokenizer.openBlock tokenizer.place.column tokenizer.count .openItems).forget?
    return (next.allowKey true).skip 1 |>.emit .item

/-- Reads the mark of a key that is not told by its colon. -/
def key? (tokenizer : Tokenizer) : Option Tokenizer := do
  if !tokenizer.inFlow && !tokenizer.keyAllowed then none
  else
    let next ← (tokenizer.openBlock tokenizer.place.column tokenizer.count .openEntries).forget?
    return (next.allowKey (!tokenizer.inFlow)).skip 1 |>.emit .key

/-- Reads a colon. The candidate in front of it becomes a key, and opens a block mapping if none is
open at its column. -/
def value? (tokenizer : Tokenizer) : Option Tokenizer :=
  match tokenizer.candidates with
  | some candidate :: outer =>
    let keyed := { tokenizer with candidates := none :: outer }.insert candidate.number .key
    let next := keyed.openBlock candidate.place.column candidate.number .openEntries
    some ((next.allowKey false).skip 1 |>.emit .value)
  | _ =>
    if !tokenizer.inFlow && !tokenizer.keyAllowed then none
    else
      let next := tokenizer.openBlock tokenizer.place.column tokenizer.count .openEntries
      some ((next.allowKey (!tokenizer.inFlow)).skip 1 |>.emit .value)

/-- Reads a quoted scalar. -/
def quoted? (tokenizer : Tokenizer) (quote : Char) : Option Tokenizer := do
  let next ← tokenizer.keep?
  let (value, place, rest) ←
    readQuoted? quote (tokenizer.rest.length + 1) .empty (tokenizer.place.skip 1) (tokenizer.rest.drop 1)
  return { next.allowKey false with place, rest }.emit (.scalar true value)

/-- Reads an unquoted scalar. A key may follow if it ends with its line. -/
def plain? (tokenizer : Tokenizer) : Option Tokenizer := do
  let next ← tokenizer.keep?
  let (collected, place, rest) ←
    readPlain? tokenizer.inFlow tokenizer.margin .empty tokenizer.place tokenizer.rest
  return { next.allowKey collected.broken with place, rest }.emit
    (.scalar false (String.ofList collected.chars.reverse))

/-- Reads the mark of a document, which ends all blocks. -/
def documentMark? (tokenizer : Tokenizer) (token : Token) : Option Tokenizer := do
  let closed := if tokenizer.inFlow then tokenizer else tokenizer.closeBeyond 0
  return ((← closed.forget?).allowKey false).skip 3 |>.emit token

/-- Characters that cannot start an unquoted scalar. -/
def isIndicator (char : Char) : Bool :=
  isFlowMark char || isGap char ||
    ['-', '?', ':', '#', '&', '*', '!', '|', '>', '%', '@', Char.ofNat 96].contains char

/-- Reads the token that starts with a character. -/
def token? (tokenizer : Tokenizer) (char : Char) (after : List Char) : Option Tokenizer :=
  if isDocumentMark tokenizer.place (char :: after) then
    tokenizer.documentMark? (if char == '-' then .documentStart else .documentEnd)
  else if char == '[' then tokenizer.openFlow? .openFlowItems
  else if char == '\x7b' then tokenizer.openFlow? .openFlowEntries
  else if char == ']' then tokenizer.closeFlow? .closeFlowItems
  else if char == '\x7d' then tokenizer.closeFlow? .closeFlowEntries
  else if char == ',' then tokenizer.comma?
  else if char == '-' && endsWord after then tokenizer.item?
  else if char == '?' && (tokenizer.inFlow || endsWord after) then tokenizer.key?
  else if char == ':' && (tokenizer.inFlow || endsWord after) then tokenizer.value?
  else if char == '\'' || char == '"' then tokenizer.quoted? char
  else if char == '-' || !isIndicator char || char == '?' || char == ':' then tokenizer.plain?
  else none

/-- Reads all tokens. Every step takes a character, so their number is fuel enough. -/
def run? : Nat → Tokenizer → Option (List Token)
  | 0, _ => none
  | fuel + 1, tokenizer => do
    let next ← tokenizer.advance?
    match next.rest with
    | [] => return (← (next.closeBeyond 0).forget?).tokens.reverse
    | char :: after => run? fuel (← next.token? char after)

end Tokenizer

/-- Cuts text into tokens. -/
def tokens? (text : List Char) : Option (List Token) := Tokenizer.run? (text.length + 1) (.start text)

end YulAbi.Document.Block
