/-!
# Numberings

A numbering hands out 0, 1, 2, … to keys, in the order in which they are first asked for.

* `Numbering.find?` is the number of a key that has one.
* `Numbering.request` is the number of a key, which gets the next one if it has none.
-/

namespace CilCompiler

/-- The keys that have a number, in the order of their numbers. -/
structure Numbering (α : Type) where
  keys : List α := []
  deriving DecidableEq

namespace Numbering

variable {α : Type} [DecidableEq α]

def size (n : Numbering α) : Nat := n.keys.length

def contains (n : Numbering α) (key : α) : Bool := n.keys.contains key

def find? (n : Numbering α) (key : α) : Option Nat := n.keys.idxOf? key

def request (n : Numbering α) (key : α) : Nat × Numbering α :=
  match n.find? key with
  | some i => (i, n)
  | none => (n.size, ⟨n.keys ++ [key]⟩)

end Numbering

end CilCompiler
