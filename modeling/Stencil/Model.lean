import Std.Data.ExtTreeMap
import Stencil.Error

/-! # Models

A compiled template: blocks and variables with their numbers.
-/

/-! ## Numberings

Distinct keys, numbered in the order in which they were inserted. A numbering finds the number of a
key without looking through the keys. Main statement: finding a key is the inverse of looking up a
number, `Numbering.find?_eq_some_iff`.
-/

namespace Stencil

structure Numbering (α : Type) [Ord α] [Std.TransOrd α] where
  /-- The keys, in the order of their numbers. -/
  keys : Array α
  /-- The number of each key. -/
  numbers : Std.ExtTreeMap α Nat compare
  inverse : ∀ (key : α) (number : Nat), numbers[key]? = some number ↔ keys[number]? = some key

namespace Numbering

variable {α : Type} [Ord α] [Std.TransOrd α]

def empty : Numbering α :=
  ⟨#[], ∅, by simp⟩

def size (t : Numbering α) : Nat :=
  t.keys.size

def toList (t : Numbering α) : List α :=
  t.keys.toList

def get? (t : Numbering α) (number : Nat) : Option α :=
  t.keys[number]?

@[inline]
def find? (t : Numbering α) (key : α) : Option Nat :=
  t.numbers[key]?

theorem find?_eq_some_iff {t : Numbering α} {key : α} {number : Nat} :
    t.find? key = some number ↔ t.get? number = some key :=
  t.inverse key number

/-- Adds a key that is not there yet. -/
@[inline]
def push [Std.LawfulEqOrd α] (t : Numbering α) (key : α) (new : t.find? key = none) :
    Numbering α :=
  let next := t.keys.size
  { keys := t.keys.push key
    numbers := t.numbers.insert key next
    inverse := by
      intro other number
      simp only [next, Std.ExtTreeMap.getElem?_insert, Array.getElem?_push,
        Std.compare_eq_iff_eq]
      have absent : t.keys[number]? ≠ some key := fun h => by
        rw [find?_eq_some_iff.2 h] at new
        cases new
      have beyond : t.numbers[other]? ≠ some t.keys.size := fun h => by
        simpa using (t.inverse other t.keys.size).1 h
      by_cases same : key = other <;> by_cases last : number = t.keys.size
      · simp [same, last]
      · subst same
        simp [last, absent, Ne.symm last]
      · subst last
        simp [same, beyond]
      · simp [same, last, t.inverse] }

@[inline]
def insert [Std.LawfulEqOrd α] (t : Numbering α) (key : α) : Numbering α :=
  if new : t.find? key = none then t.push key new else t

/-- The elements of a list, each at the place where it first stands. -/
@[inline]
def ofList [Std.LawfulEqOrd α] (keys : List α) : Numbering α :=
  keys.foldl insert empty

/-- A numbering is determined by its keys. -/
theorem eq_of_keys_eq [Std.LawfulEqOrd α] {t u : Numbering α} (h : t.keys = u.keys) : t = u := by
  have numbers : t.numbers = u.numbers := by
    apply Std.ExtTreeMap.ext_getElem?
    intro key
    apply Option.ext
    intro number
    rw [t.inverse, u.inverse, h]
  cases t
  cases u
  cases h
  cases numbers
  rfl

instance [Std.LawfulEqOrd α] [DecidableEq α] : DecidableEq (Numbering α) := fun t u =>
  decidable_of_iff (t.keys = u.keys) ⟨eq_of_keys_eq, fun h => h ▸ rfl⟩

end Numbering

/-! ## Blocks and models

A compiled template. Its blocks are numbered in the order of their begin markers, and block 0 is
the template itself, which has no name. A block's body refers to other blocks by number and to
variables by their number in the model and their slot in the block. A model keeps an index of its
block names; main statement: the index finds what looking through the blocks would find,
`Model.blocksNamed_eq`.
-/

inductive Node
  | literal (text : String)
  /-- A variable by its number in the model and its place among the block's variables. -/
  | var (index slot : Nat)
  | block (id : Nat)
  deriving DecidableEq

structure Block where
  name : String := ""
  /-- The block around this one; none for the template itself. -/
  parent : Option Nat := none
  /-- The place of the block among its parent's children. -/
  slot : Nat := 0
  body : Array Node := #[]
  /-- The variables that the body refers to directly, in the order of their first use. -/
  vars : Numbering Nat := .empty
  /-- The blocks that stand directly in the body, in order. -/
  children : Array Nat := #[]
  deriving DecidableEq

namespace Block

def variableSlot? (b : Block) (index : Nat) : Option Nat :=
  b.vars.find? index

/-- Adds text at the end of the body. It joins a literal that stands last, and empty text leaves
nothing behind. -/
def addText (text : String) (b : Block) : Block :=
  if text.isEmpty then b
  else
    match b.body.back? with
    | some (.literal before) => { b with body := b.body.pop.push (.literal (before ++ text)) }
    | _ => { b with body := b.body.push (.literal text) }

def addVariable (index : Nat) (b : Block) : Block :=
  match b.variableSlot? index with
  | some slot => { b with body := b.body.push (.var index slot) }
  | none =>
    { b with
      body := b.body.push (.var index b.vars.size)
      vars := b.vars.insert index }

def addChild (id : Nat) (b : Block) : Block :=
  { b with body := b.body.push (.block id), children := b.children.push id }

theorem name_addText (text : String) (b : Block) : (b.addText text).name = b.name := by
  unfold addText
  repeat' split
  all_goals rfl

theorem name_addVariable (index : Nat) (b : Block) : (b.addVariable index).name = b.name := by
  unfold addVariable
  split <;> rfl

/-- Adding text adds no reference to a block. -/
theorem block_mem_addText {text : String} {b : Block} {id : Nat}
    (h : Node.block id ∈ (b.addText text).body) : Node.block id ∈ b.body := by
  unfold addText at h
  split at h
  · exact h
  · split at h
    · simp only [Array.mem_push, reduceCtorEq, or_false] at h
      rw [← Array.mem_toList_iff, Array.toList_pop] at h
      exact Array.mem_toList_iff.1 (List.dropLast_subset _ h)
    · simpa using h

/-- Adding a variable adds no reference to a block. -/
theorem block_mem_addVariable {index : Nat} {b : Block} {id : Nat}
    (h : Node.block id ∈ (b.addVariable index).body) : Node.block id ∈ b.body := by
  unfold addVariable at h
  split at h <;> simpa using h

theorem block_mem_addChild {child : Nat} {b : Block} {id : Nat} :
    Node.block id ∈ (b.addChild child).body ↔ Node.block id ∈ b.body ∨ id = child := by
  simp [addChild]

end Block

/-- Whether a number is that of a block with a name. The template itself has no name. -/
def Block.isNamed (blocks : Array Block) (name : String) (id : Nat) : Bool :=
  id != 0 && (blocks[id]?.getD {}).name == name

/-- The numbers of the blocks with a name, in descending order. -/
def Block.allNamed (blocks : Array Block) (name : String) : List Nat :=
  ((List.range blocks.size).filter (Block.isNamed blocks name)).reverse

namespace Block

theorem allNamed_congr {blocks others : Array Block} (size : others.size = blocks.size)
    (names : ∀ id : Nat, (others[id]?.getD {}).name = (blocks[id]?.getD {}).name) (name : String) :
    allNamed others name = allNamed blocks name := by
  unfold allNamed
  rw [size]
  congr 2
  funext id
  rw [isNamed, isNamed, names]

theorem allNamed_push {blocks : Array Block} (nonempty : 0 < blocks.size) (b : Block)
    (name : String) :
    allNamed (blocks.push b) name =
      if b.name = name then blocks.size :: allNamed blocks name else allNamed blocks name := by
  have before : (List.range blocks.size).filter (isNamed (blocks.push b) name) =
      (List.range blocks.size).filter (isNamed blocks name) := by
    apply List.filter_congr
    intro id mem
    have other : id ≠ blocks.size := Nat.ne_of_lt (List.mem_range.1 mem)
    simp [isNamed, Array.getElem?_push, other]
  rw [allNamed, Array.size_push, List.range_succ, List.filter_append, before]
  by_cases same : b.name = name <;>
    simp [isNamed, allNamed, same, Nat.ne_of_gt nonempty]

end Block

structure Model where
  blocks : Array Block
  /-- The names of the variables, in the order of their first use. -/
  vars : Numbering String
  /-- For every block name, the numbers of its blocks in descending order. -/
  labels : Std.ExtTreeMap String (List Nat) compare
  labelled : ∀ (name : String) (ids : List Nat),
    labels[name]? = some ids ↔ ids ≠ [] ∧ ids = Block.allNamed blocks name
  /-- The template itself is a block. -/
  nonempty : 0 < blocks.size
  /-- A body refers to blocks of the model with greater numbers only, so bodies nest finitely. -/
  nested : ∀ outer id, .block id ∈ (blocks[outer]?.getD {}).body → outer < id ∧ id < blocks.size
  deriving DecidableEq

namespace Model

def root : Nat := 0

/-- The block of a number. A number that is none of the model's has an empty block. -/
def block (m : Model) (id : Nat) : Block :=
  m.blocks[id]?.getD {}

def blockCount (m : Model) : Nat :=
  m.blocks.size

def variableCount (m : Model) : Nat :=
  m.vars.size

def variableName (m : Model) (index : Nat) : String :=
  (m.vars.get? index).getD ""

def findVariable? (m : Model) (name : String) : Option Nat :=
  m.vars.find? name

def variableNumber (m : Model) (name : String) : Except Error Nat :=
  match m.findVariable? name with
  | some index => .ok index
  | none => .error (.unknownVariable name)

/-- The numbers of the blocks with a name, in ascending order. -/
def blocksNamed (m : Model) (name : String) : List Nat :=
  (m.labels[name]?.getD []).reverse

theorem getD_labels (m : Model) (name : String) :
    m.labels[name]?.getD [] = Block.allNamed m.blocks name := by
  cases h : m.labels[name]? with
  | some ids => exact ((m.labelled name ids).1 h).2
  | none =>
    apply Decidable.byContradiction
    intro other
    rw [(m.labelled name _).2 ⟨fun nil => other nil.symm, rfl⟩] at h
    cases h

theorem blocksNamed_eq (m : Model) (name : String) :
    m.blocksNamed name = (List.range m.blockCount).filter (Block.isNamed m.blocks name) := by
  rw [blocksNamed, getD_labels, Block.allNamed, List.reverse_reverse]
  rfl

theorem mem_blocksNamed {m : Model} {name : String} {id : Nat} :
    id ∈ m.blocksNamed name ↔ id < m.blockCount ∧ id ≠ root ∧ (m.block id).name = name := by
  simp [blocksNamed_eq, Block.isNamed, root, block]

def blockNumbers (m : Model) (name : String) : Except Error (List Nat) :=
  match m.blocksNamed name with
  | [] => .error (.unknownBlock name)
  | ids => .ok ids

/-- The names of the blocks, each once, in the order of their first use. -/
def blockNames (m : Model) : List String :=
  (Numbering.ofList (m.blocks.toList.tail.map (·.name))).toList

theorem lt_of_block_mem {m : Model} {outer id : Nat} (h : .block id ∈ (m.block outer).body) :
    outer < id ∧ id < m.blockCount :=
  m.nested outer id h

/-- A model is determined by its blocks and its variables. -/
theorem eq_of_blocks_eq {m n : Model} (blocks : m.blocks = n.blocks) (vars : m.vars = n.vars) :
    m = n := by
  have labels : m.labels = n.labels := by
    apply Std.ExtTreeMap.ext_getElem?
    intro name
    apply Option.ext
    intro ids
    rw [m.labelled, n.labelled, blocks]
  cases m
  cases n
  cases blocks
  cases vars
  cases labels
  rfl

end Model

end Stencil
