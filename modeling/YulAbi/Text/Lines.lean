/-!
# Nested lines

Generated code is a sequence of lines in which a block stands one level deeper.
It becomes text only at the end, when the indentation is known.
-/

namespace YulAbi

/-- A line of text, or a block one level deeper. -/
inductive Line where
  /-- One line, without its line break. -/
  | text (content : String)
  /-- A block. -/
  | nested (lines : List Line)

/-- A sequence of lines and blocks. -/
abbrev Lines := List Line

namespace Lines

/-- The line that holds nothing. -/
def blank : Line := .text ""

mutual
/-- The text lines of a line or block with their depth. -/
def placedLine (depth : Nat) : Line → List (Nat × String)
  | .text content => [(depth, content)]
  | .nested lines => placed (depth + 1) lines
/-- The text lines of a sequence with their depth, in order. -/
def placed (depth : Nat) : Lines → List (Nat × String)
  | [] => []
  | line :: rest => placedLine depth line ++ placed depth rest
end

/-- All text lines in order, without indentation. -/
def flatten (lines : Lines) : List String := (placed 0 lines).map Prod.snd

/-- Sequences are placed one after the other. -/
theorem placed_append (depth : Nat) (before after : Lines) :
    placed depth (before ++ after) = placed depth before ++ placed depth after := by
  induction before with
  | nil => simp [placed]
  | cons line rest ih => simp [placed, ih]

/-- The text lines of two sequences follow each other. -/
theorem flatten_append (before after : Lines) :
    flatten (before ++ after) = flatten before ++ flatten after := by
  simp [flatten, placed_append]

/-- One text line with its indentation and line break; an empty line is not indented. -/
def renderLine (indent : String) (line : Nat × String) : String :=
  if line.2.isEmpty then "\n" else String.join (List.replicate line.1 indent) ++ line.2 ++ "\n"

/-- The text of all lines, the indentation repeated once for each level. -/
def render (indent : String) (lines : Lines) : String :=
  String.join ((placed 0 lines).map (renderLine indent))

/-- The lines of two sequences with an empty line between them, none after an empty sequence. -/
def appendApart (before after : Lines) : Lines :=
  if before.isEmpty then after else before ++ blank :: after

end Lines

end YulAbi
