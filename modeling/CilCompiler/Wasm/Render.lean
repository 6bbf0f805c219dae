import CilCompiler.Wasm.Op

/-!
# Rendered bodies

An operator list is shown with one operator on a line, indented by two blanks for every region that
is open there. The operator that closes a region stands outside of it.

* `Op.depthBefore` and `Op.depthAfter` follow the number of open regions.
* `render` is the text of a list, balanced or not.
-/

namespace CilCompiler.Wasm

namespace Op

/-- The depth at which an operator stands, when `depth` regions are open before it. -/
def depthBefore (op : Op) (depth : Nat) : Nat :=
  match op with
  | .close => depth - 1
  | _ => depth

/-- The number of open regions behind an operator that stands at `depth`. -/
def depthAfter (op : Op) (depth : Nat) : Nat :=
  match op with
  | .block | .loop => depth + 1
  | _ => depth

/-- One line of a rendered body. -/
def line (op : Op) (depth : Nat) : String :=
  String.ofList (List.replicate (2 * depth) ' ') ++ op.text ++ "\n"

end Op

/-- The lines of a body inside `depth` open regions. -/
def renderLines (depth : Nat) : List Op → List String
  | [] => []
  | op :: ops =>
    let inner := op.depthBefore depth
    op.line inner :: renderLines (op.depthAfter inner) ops

/-- The text of an operator list. -/
def render (ops : List Op) : String :=
  String.join (renderLines 0 ops)

end CilCompiler.Wasm
