import YulAbi.GenerationError
import YulAbi.Text.Lines
import YulAbi.Yul.Syntax

/-!
# Text of generated code

Expressions are written on one line. A block is a sequence of lines in which the
bodies of branches and loops stand one level deeper; the head of a loop is put on
one line.
-/

namespace YulAbi.Yul

mutual
/-- The text of an expression. -/
def Expr.render : Expr → String
  | .literal value => literalText value
  | .ident name => name
  | .constant name => name
  | .builtin operation args => operation.name ++ "(" ++ ", ".intercalate (renderAll args) ++ ")"
  | .call name args => name ++ "(" ++ ", ".intercalate (renderAll args) ++ ")"
/-- The texts of several expressions. -/
def Expr.renderAll : List Expr → List String
  | [] => []
  | expr :: rest => expr.render :: renderAll rest
end

mutual
/-- The lines of a statement. -/
def Stmt.toLines : Stmt → Lines
  | .declare names none => [.text ("let " ++ ", ".intercalate names)]
  | .declare names (some value) => [.text ("let " ++ ", ".intercalate names ++ " := " ++ value.render)]
  | .assign names value => [.text (", ".intercalate names ++ " := " ++ value.render)]
  | .eval expr => [.text expr.render]
  | .branch condition body =>
    [.text ("if " ++ condition.render ++ " \x7b"), .nested (Block.toLines body), .text "\x7d"]
  | .loop start condition step body =>
    [.text ("for \x7b " ++ Block.renderInline start ++ " \x7d " ++ condition.render ++ " \x7b " ++
        Block.renderInline step ++ " \x7d \x7b"),
      .nested (Block.toLines body), .text "\x7d"]
  | .leave => [.text "leave"]
/-- The lines of a block. -/
def Block.toLines : List Stmt → Lines
  | [] => []
  | stmt :: rest => stmt.toLines ++ Block.toLines rest
/-- A block on one line. -/
def Block.renderInline (block : List Stmt) : String :=
  " ".intercalate (Block.inlineParts block)
/-- The statements of a block, each on one line. -/
def Block.inlineParts : List Stmt → List String
  | [] => []
  | stmt :: rest => " ".intercalate stmt.toLines.flatten :: Block.inlineParts rest
end

end YulAbi.Yul
