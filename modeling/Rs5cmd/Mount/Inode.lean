import Rs5cmd.Lib.Maps
import Rs5cmd.Str

/-!
# The inode table (`mount/inode.rs`)

A map between inode numbers and S3 keys, kept in both directions. A directory's
key ends with `/`, a file's does not.

The code's maps are hash maps; `rekey_prefix` visits the affected nodes in the
order of the map, so the model takes that order as an argument.
-/

namespace Rs5cmd

inductive NodeKind where
  | dir
  | file
  deriving DecidableEq, Repr

def NodeKind.isDir : NodeKind → Bool
  | .dir => true
  | .file => false

structure Node where
  key : Str
  kind : NodeKind
  parent : Nat
  deriving DecidableEq, Repr

/-- `ROOT_INODE`. -/
def rootInode : Nat := 1

structure InodeTable where
  nodes : Std.ExtTreeMap Nat Node compare
  byKey : Std.ExtTreeMap Str Nat compare
  next : Nat

namespace InodeTable

/-- A table with its root only. -/
def new (rootKey : Str) : InodeTable where
  nodes := (∅ : Std.ExtTreeMap Nat Node compare).insert rootInode ⟨rootKey, .dir, rootInode⟩
  byKey := (∅ : Std.ExtTreeMap Str Nat compare).insert rootKey rootInode
  next := rootInode + 1

def get (t : InodeTable) (ino : Nat) : Option Node := t.nodes[ino]?

def lookupKey (t : InodeTable) (key : Str) : Option Nat := t.byKey[key]?

/-- The inode for `key`, a fresh one if it is unknown. -/
def intern (t : InodeTable) (key : Str) (kind : NodeKind) (parent : Nat) : Nat × InodeTable :=
  match t.byKey[key]? with
  | some ino => (ino, t)
  | none =>
    (t.next,
      { nodes := t.nodes.insert t.next ⟨key, kind, parent⟩
        byKey := t.byKey.insert key t.next
        next := t.next + 1 })

/-- Re-points an inode at a new key. -/
def rekey (t : InodeTable) (ino : Nat) (newKey : Str) : InodeTable :=
  match t.nodes[ino]? with
  | some node =>
    { t with
      nodes := t.nodes.insert ino { node with key := newKey }
      byKey := (t.byKey.erase node.key).insert newKey ino }
  | none => t

/-- The nodes whose key starts with `oldPrefix`, in the order of the map. -/
def affected (t : InodeTable) (order : List Nat) (oldPrefix : Str) : List (Nat × Node) :=
  (Maps.inOrder order t.nodes.toList).filter fun e => Str.startsWith oldPrefix e.2.key

/-- Rekeys every inode whose key starts with `oldPrefix`. -/
def rekeyPrefix (t : InodeTable) (order : List Nat) (oldPrefix newPrefix : Str) :
    List Nat × InodeTable :=
  let affected := t.affected order oldPrefix
  (affected.map Prod.fst,
    affected.foldl (fun t e => t.rekey e.1 (newPrefix ++ e.2.key.drop oldPrefix.length)) t)

/-- Drops an inode. -/
def forget (t : InodeTable) (ino : Nat) : InodeTable :=
  match t.nodes[ino]? with
  | some node => { t with nodes := t.nodes.erase ino, byKey := t.byKey.erase node.key }
  | none => t

end InodeTable

end Rs5cmd
