import Rs5cmd.Lib.Forest
import Rs5cmd.Storage.Object
import Mathlib.Data.Char
import Mathlib.Data.List.Lex

/-!
# `tree` (`command/tree.rs`)

The keys of a listing are split at their slashes and put into a tree of names, which is
printed with one line for each node.
-/

namespace Rs5cmd

/-- What a `Node` holds beside its children. -/
structure TreeNode where
  size : Option Int := none
  isDir : Bool := false
  deriving DecidableEq, Repr

/-- The children of a `Node`: a map from segments to nodes. -/
abbrev Children := Forest Str TreeNode

/-- The options of `tree` that shape the output. -/
structure TreeArgs where
  depth : Option Nat := none
  limit : Option Nat := none
  size : Bool := false
  deriving Repr

namespace TreeNode

/-- A node that `insert` passes or ends at, with what is left of the segments. -/
def mark (size : Option Int) (dir : Bool) (left : List Str) (node : TreeNode) : TreeNode :=
  if left = [] then (if dir then { node with isDir := true } else { node with size := size })
  else { node with isDir := true }

/-- The segments that make a level of the tree. -/
def filled (segments : List Str) : List Str := segments.filter (· ≠ [])

/-- `Node::insert`. -/
def insert (root : Children) (segments : List Str) (size : Option Int) (dir : Bool) : Children :=
  root.graft {} (mark size dir) (filled segments)

/-- `format_node`. -/
def format (name : Str) (node : TreeNode) (children : Children) (showSize : Bool) : Str :=
  let isDir := node.isDir || !children.isEmpty
  if !isDir && showSize then
    match node.size with
    | some sz => name ++ " (".toList ++ (toString sz).toList ++ ")".toList
    | none => name
  else name

/-- `print_children`: the lines it prints. -/
def printChildren (showSize : Bool) : Children → Str → List Str
  | .nil, _ => []
  | .cons name child children rest, indent =>
    let last := rest.isEmpty
    let connector := (if last then "└── " else "├── ").toList
    (indent ++ connector ++ format name child children showSize) ::
      (printChildren showSize children (indent ++ (if last then "    " else "│   ").toList) ++
        printChildren showSize rest indent)

end TreeNode

/-- The key that `tree` sees of a listed object. -/
def Object.treeKey (obj : Object) : Str := (obj.url.map Url.relative).getD []

def Object.isTreeDir (obj : Object) : Bool := obj.typ.isDir || Str.endsWith '/' obj.treeKey

/-- The segments of a key down to `--depth`. -/
def TreeArgs.segments (args : TreeArgs) (key : Str) : List Str :=
  match args.depth with
  | some d => (Str.split '/' key).take d
  | none => Str.split '/' key

/-- The loop of `run` over the listing, with the keys collected so far. -/
def TreeArgs.collect (args : TreeArgs) : List Object → Children → Nat → Except StorageError Children
  | [], root, _ => .ok root
  | obj :: objs, root, collected =>
    match obj.err with
    | some err => .error err
    | none =>
      if obj.treeKey = [] then args.collect objs root collected
      else if args.depth = some 0 then args.collect objs root collected
      else
        let size := if obj.isTreeDir then none else some obj.size
        let root := TreeNode.insert root (args.segments obj.treeKey) size obj.isTreeDir
        if obj.isTreeDir then args.collect objs root collected
        else if args.limit.any (· ≤ collected + 1) then .ok root
        else args.collect objs root (collected + 1)

/-- What `run` prints: the target and the tree below it. -/
def TreeArgs.run (args : TreeArgs) (displayUrl : Str) (objs : List Object) :
    Except StorageError (List Str) :=
  (args.collect objs .nil 0).map fun root => displayUrl :: TreeNode.printChildren args.size root []

end Rs5cmd
