import RegexPositions.Tree.Attributes
import RegexPositions.Tree.Follow.Basic

/-!
# Passes over a tree

A tree is finished by two passes, `decorate` and `recordFollow`. They may be run in any order and
any number of times; `Tree.run` runs a list of them.
-/

namespace RegexPositions

/-- A **pass** over a tree. -/
inductive Pass where
  /-- Put the attributes on record. -/
  | decorate
  /-- Add the follow table to the leaves. -/
  | recordFollow
  deriving DecidableEq, Repr

/-- The tree after a pass. -/
def Pass.apply : Pass → Tree → Tree
  | decorate => Tree.decorate
  | recordFollow => Tree.recordFollow

/-- The tree after some passes, the first of the list first. -/
def Tree.run (tree : Tree) (passes : List Pass) : Tree :=
  passes.foldl (fun tree pass => pass.apply tree) tree

end RegexPositions
