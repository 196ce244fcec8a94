import YulAbi.Document
import YulAbi.Document.Block.Token

/-!
# Block documents

The reader for text whose structure is its indentation: block mappings and block
sequences, flow collections, unquoted and quoted scalars, and comments. A text holds
one document. Collections may be nested 128 levels deep where they are read;
deeper ones, and mappings whose keys are no scalars, have no value but may stand
where nothing is read.
-/

namespace YulAbi.Document.Block

/-- The scalar that stands where nothing is written. -/
def nothing : Document := .plain ""

/-- Whether nothing is written in front of these tokens inside a block. -/
def endsEntry : List Token → Bool
  | .key :: _ | .value :: _ | .close :: _ => true
  | _ => false

/-- Whether nothing is written in front of these tokens inside a flow collection. -/
def endsFlowEntry : List Token → Bool
  | .value :: _ | .comma :: _ | .closeFlowItems :: _ | .closeFlowEntries :: _ => true
  | _ => false

/-- The text of a scalar, which names the field that it is the key of. -/
def nameOf? : Document → Option String
  | .plain name | .text name => some name
  | _ => none

/-- The mapping of entries, the last one first. -/
def mappingOf (levels : Nat) (entries : List (Document × Document)) : Document :=
  within levels (recordOf (entries.reverse.map fun entry => (nameOf? entry.1, entry.2)))

/-- The sequence of items, the last one first. -/
def sequenceOf (levels : Nat) (items : List Document) : Document :=
  within levels (.list false items.reverse)

mutual
/-- Reads a node; a block sequence without a block of its own may stand where `loose` says so. Every
step takes a token, or goes on to a part in at most three further ones, so four times the number of
tokens is fuel enough. -/
def readNode? (fuel levels : Nat) (loose : Bool) (tokens : List Token) :
    Option (Document × List Token) :=
  match fuel with
  | 0 => none
  | fuel + 1 =>
    match tokens with
    | .scalar true value :: rest => some (.text value, rest)
    | .scalar false value :: rest => some (.plain value, rest)
    | .openItems :: rest => readItems? fuel levels [] rest
    | .openEntries :: rest => readEntries? fuel levels [] rest
    | .openFlowItems :: rest => readFlowItems? fuel levels [] rest
    | .openFlowEntries :: rest => readFlowEntries? fuel levels [] rest
    | .item :: _ => if loose then readLooseItems? fuel levels [] tokens else none
    | _ => none
/-- Reads the items of a block sequence up to its end. -/
def readItems? (fuel levels : Nat) (done : List Document) (tokens : List Token) :
    Option (Document × List Token) :=
  match fuel with
  | 0 => none
  | fuel + 1 =>
    match tokens with
    | .close :: rest => some (sequenceOf levels done, rest)
    | .item :: .item :: rest => readItems? fuel levels (nothing :: done) (.item :: rest)
    | .item :: .close :: rest => readItems? fuel levels (nothing :: done) (.close :: rest)
    | .item :: rest =>
      match readNode? fuel (levels - 1) false rest with
      | some (item, after) => readItems? fuel levels (item :: done) after
      | none => none
    | _ => none
/-- Reads the items of a sequence that stands at the column of its mapping. -/
def readLooseItems? (fuel levels : Nat) (done : List Document) (tokens : List Token) :
    Option (Document × List Token) :=
  match fuel with
  | 0 => none
  | fuel + 1 =>
    match tokens with
    | .item :: .item :: rest => readLooseItems? fuel levels (nothing :: done) (.item :: rest)
    | .item :: rest =>
      if endsEntry rest then readLooseItems? fuel levels (nothing :: done) rest
      else
        match readNode? fuel (levels - 1) false rest with
        | some (item, after) => readLooseItems? fuel levels (item :: done) after
        | none => none
    | _ => some (sequenceOf levels done, tokens)
/-- Reads the entries of a block mapping up to its end. -/
def readEntries? (fuel levels : Nat) (done : List (Document × Document)) (tokens : List Token) :
    Option (Document × List Token) :=
  match fuel with
  | 0 => none
  | fuel + 1 =>
    match tokens with
    | .close :: rest => some (mappingOf levels done, rest)
    | .key :: rest =>
      match readPart? fuel (levels - 1) rest with
      | none => none
      | some (key, .value :: afterKey) =>
        match readPart? fuel (levels - 1) afterKey with
        | some (value, after) => readEntries? fuel levels ((key, value) :: done) after
        | none => none
      | some (key, after) => readEntries? fuel levels ((key, nothing) :: done) after
    | _ => none
/-- Reads a key or value of a block mapping, which may be missing. -/
def readPart? (fuel levels : Nat) (tokens : List Token) : Option (Document × List Token) :=
  match fuel with
  | 0 => none
  | fuel + 1 => if endsEntry tokens then some (nothing, tokens) else readNode? fuel levels true tokens
/-- Reads the items of a flow sequence up to its bracket. An item with a key is a mapping of its own. -/
def readFlowItems? (fuel levels : Nat) (done : List Document) (tokens : List Token) :
    Option (Document × List Token) :=
  match fuel with
  | 0 => none
  | fuel + 1 =>
    match tokens with
    | .closeFlowItems :: rest => some (sequenceOf levels done, rest)
    | _ =>
      let item? : Option (Document × List Token) := match tokens with
        | .key :: rest =>
          match readFlowEntry? fuel (levels - 2) rest with
          | some (entry, after) => some (mappingOf (levels - 1) [entry], after)
          | none => none
        | _ => readNode? fuel (levels - 1) false tokens
      match item? with
      | some (item, .comma :: after) => readFlowItems? fuel levels (item :: done) after
      | some (item, .closeFlowItems :: after) =>
        some (sequenceOf levels (item :: done), after)
      | _ => none
/-- Reads the entries of a flow mapping up to its brace. -/
def readFlowEntries? (fuel levels : Nat) (done : List (Document × Document)) (tokens : List Token) :
    Option (Document × List Token) :=
  match fuel with
  | 0 => none
  | fuel + 1 =>
    match tokens with
    | .closeFlowEntries :: rest => some (mappingOf levels done, rest)
    | _ =>
      let entry? : Option ((Document × Document) × List Token) := match tokens with
        | .key :: rest => readFlowEntry? fuel (levels - 1) rest
        | _ =>
          match readNode? fuel (levels - 1) false tokens with
          | some (key, after) => some ((key, nothing), after)
          | none => none
      match entry? with
      | some (entry, .comma :: after) => readFlowEntries? fuel levels (entry :: done) after
      | some (entry, .closeFlowEntries :: after) =>
        some (mappingOf levels (entry :: done), after)
      | _ => none
/-- Reads a key of a flow collection and its value, either of which may be missing. -/
def readFlowEntry? (fuel levels : Nat) (tokens : List Token) :
    Option ((Document × Document) × List Token) :=
  match fuel with
  | 0 => none
  | fuel + 1 =>
    match readFlowPart? fuel levels tokens with
    | none => none
    | some (key, .value :: afterKey) =>
      (readFlowPart? fuel levels afterKey).map fun (value, after) => ((key, value), after)
    | some (key, after) => some ((key, nothing), after)
/-- Reads a key or value of a flow collection, which may be missing. -/
def readFlowPart? (fuel levels : Nat) (tokens : List Token) : Option (Document × List Token) :=
  match fuel with
  | 0 => none
  | fuel + 1 =>
    if endsFlowEntry tokens then some (nothing, tokens) else readNode? fuel levels false tokens
end

/-- Whether tokens hold nothing but marks that close the document. -/
def isFinished (tokens : List Token) : Bool :=
  tokens.all fun token => match token with
    | .documentEnd => true
    | _ => false

/-- Reads the only document of a text; one without any content is a scalar without characters. -/
def read? (text : String) : Option Document := do
  let chars := text.toList
  if !chars.all isAllowed then none
  else
    let tokens ← tokens? (unifyBreaks chars)
    let (opened, body) := match tokens with
      | .documentStart :: rest => (true, rest)
      | rest => (false, rest)
    if body.isEmpty || (opened && isFinished body) then return nothing
    else
      let (document, rest) ← readNode? (4 * body.length + 4) 128 false body
      if isFinished rest then return document else none

end YulAbi.Document.Block
