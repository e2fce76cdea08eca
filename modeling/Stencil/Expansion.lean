import Std.Data.ExtTreeSet
import Stencil.Item

/-! # Expansion

What the flags, the options and the subtemplates make of the items of a template: a flat list of
pieces.
-/

/-! ## Options

How the text of a template is read. Two templates read with different options are different
templates.
-/

namespace Stencil

structure Options where
  /-- Whether lines that hold nothing but markers and blanks keep their markers only. -/
  trim : Bool := true
  /-- How deep subtemplates may include one another. -/
  maxIncludeDepth : Nat := 16
  deriving DecidableEq

/-! ## Expanding items

Decides the conditionals of a template by the flags that are set and splices in the subtemplates it
includes. What is left is a flat list of pieces: texts, variables and blocks. Whatever stands in a
branch that is not taken leaves nothing behind: it is neither loaded nor checked against the blocks
around it.
-/

abbrev Loader :=
  String → Except Error String

inductive Piece
  | text (content : String)
  | var (name : String)
  | beginBlock (name : String)
  | endBlock
  deriving DecidableEq

namespace Expansion

inductive Scope
  /-- A block that is kept. -/
  | block (name : String)
  /-- A block in a branch that is not taken. -/
  | skipped
  /-- A conditional: whether one of its branches has been taken, and whether the text around it is
  kept. -/
  | conditional (decided outerKept : Bool)
  deriving DecidableEq

structure State where
  /-- The open scopes, innermost first. -/
  scopes : List Scope
  /-- The names of the kept blocks among the open scopes. -/
  openNames : Std.ExtTreeSet String compare
  /-- Whether the text being read is kept. -/
  kept : Bool
  /-- The pieces so far, last first. -/
  pieces : List Piece

namespace State

def start : State :=
  ⟨[], ∅, true, []⟩

def addPiece (st : State) (piece : Piece) : State :=
  if st.kept then { st with pieces := piece :: st.pieces } else st

def openConditional (st : State) (holds : Bool) : State :=
  { st with
    scopes := .conditional (st.kept && holds) st.kept :: st.scopes
    kept := st.kept && holds }

/-- Enters another branch of the innermost conditional, whose condition is `holds`. It is taken if
no earlier branch was. -/
def nextBranch (st : State) (holds : Bool) : State :=
  match st.scopes with
  | .conditional decided outerKept :: outer =>
    let taken := outerKept && !decided && holds
    { st with scopes := .conditional (decided || taken) outerKept :: outer, kept := taken }
  | _ => st

def closeConditional (st : State) : State :=
  match st.scopes with
  | .conditional _ outerKept :: outer => { st with scopes := outer, kept := outerKept }
  | _ :: outer => { st with scopes := outer }
  | [] => st

def closeBlock (st : State) : State :=
  match st.scopes with
  | .block name :: outer =>
    { st with
      scopes := outer
      openNames := st.openNames.erase name
      pieces := .endBlock :: st.pieces }
  | _ :: outer => { st with scopes := outer }
  | [] => st

/-- Enters a block. A kept block must not stand in a kept block of its name. -/
def openBlock (st : State) (origin : Option String) (name : String) (position : Position) :
    Except Error State :=
  if !st.kept then
    .ok { st with scopes := .skipped :: st.scopes }
  else if st.openNames.contains name then
    .error (.malformed
      ⟨.nestedSameName name, position, "[beginblock:" ++ name ++ "]", origin⟩)
  else
    .ok
      { st with
        scopes := .block name :: st.scopes
        openNames := st.openNames.insert name
        pieces := .beginBlock name :: st.pieces }

end State

/-- What an include marker does: its name, its place, its text, and the state before it. -/
abbrev Splice :=
  String → Position → String → State → Except Error State

/-- Expands one item of a template or, with an origin, of the subtemplate of that name. -/
def step (flags : FlagSet) (origin : Option String) (splice : Splice) (st : State) :
    Item → Except Error State
  | .text content => .ok (st.addPiece (.text content))
  | .var name => .ok (st.addPiece (.var name))
  | .beginBlock name position => st.openBlock origin name position
  | .endBlock => .ok st.closeBlock
  | .ifCond condition => .ok (st.openConditional (condition.eval flags))
  | .elseIf condition => .ok (st.nextBranch (condition.eval flags))
  | .otherwise => .ok (st.nextBranch true)
  | .endIf => .ok st.closeConditional
  | .inclusion name position marker => if st.kept then splice name position marker st else .ok st

def steps (flags : FlagSet) (origin : Option String) (splice : Splice) :
    State → List Item → Except Error State
  | st, [] => .ok st
  | st, item :: items =>
    match step flags origin splice st item with
    | .error e => .error e
    | .ok after => steps flags origin splice after items

/-- Expands the items of a template or subtemplate in which includes may nest `depth` deep. -/
def expand (flags : FlagSet) (options : Options) (loader : Option Loader) :
    (depth : Nat) → Option String → State → List Item → Except Error State
  | 0, origin =>
    steps flags origin fun _ position marker _ =>
      .error (.malformed
        ⟨.includeTooDeep options.maxIncludeDepth, position, marker, origin⟩)
  | depth + 1, origin =>
    steps flags origin fun name position marker st =>
      match loader with
      | none => .error (.malformed ⟨.includeUnavailable, position, marker, origin⟩)
      | some load =>
        match load name with
        | .error e => .error e
        | .ok text =>
          match Item.ofText options.trim text with
          | .error e => .error (.malformed (e.within name))
          | .ok items => expand flags options loader depth (some name) st items

end Expansion

def Piece.ofItems (flags : FlagSet) (options : Options) (loader : Option Loader)
    (items : List Item) : Except Error (List Piece) :=
  (Expansion.expand flags options loader options.maxIncludeDepth none .start items).map
    fun st => st.pieces.reverse

end Stencil
