import ScriptAnalysis.Text.Quoted
import ScriptAnalysis.Tree.Basic

/-!
# The outline of a tree

One line per node, indented by two blanks for each level: an inner node with its span, a token
with its text in quotes.
-/

namespace ScriptAnalysis.SourceTree

/-- The line of a node, without indentation. -/
def line (n : TreeNode) (source : String) : String :=
  match n.kind with
  | .root => "ROOT"
  | .node kind => s!"{kind.text}@{n.span.render}"
  | .token kind => s!"{kind.name} {Quoted.encode (n.span.textIn source)}"

/-- The lines of a node and of at most `depth` levels below it, each with its level. -/
def linesBelow (t : SourceTree) (source : String) : Nat → Nat → TreeId → List (Nat × String)
  | 0, _, _ => []
  | depth + 1, level, id =>
    let n := t.node id
    (level, line n source) ::
      n.children.toList.flatMap (t.linesBelow source depth (level + 1))

def outline (t : SourceTree) (source : String) : String :=
  String.join ((t.linesBelow source t.size 0 root).map fun (level, text) =>
    String.ofList (List.replicate (2 * level) ' ') ++ text ++ "\n")

end ScriptAnalysis.SourceTree
