import Stencil.Condition
import Stencil.Token

/-! # Items

The parts of a template whose markers are known to nest properly: one item for each token, with
conditions read. Items form one flat list; an item that opens a block or a conditional is balanced
by one that closes it, and no conditional and block overlap.
-/

namespace Stencil

/-- One part of a template. Items that can still be found wrong when they are expanded carry the
place of their marker. -/
inductive Item
  | text (content : String)
  | var (name : String)
  | beginBlock (name : String) (position : Position)
  | endBlock
  | ifCond (condition : Condition)
  | elseIf (condition : Condition)
  | otherwise
  | endIf
  | inclusion (name : String) (position : Position) (marker : String)

/-! ## Nesting

Turns the lexemes of a template into items, checking that blocks and conditionals nest. The scopes
that are open form a stack, innermost first: every closing or continuing marker must fit the
innermost one, and none may be left open at the end.
-/

namespace Item

inductive Scope
  | block (name : String) (position : Position) (marker : String)
  | conditional (position : Position) (marker : String) (seenElse : Bool)
  deriving DecidableEq

namespace Scope

def blockName? : Scope → Option String
  | block name _ _ => some name
  | conditional _ _ _ => none

def enclosingBlock? (scopes : List Scope) : Option String :=
  scopes.findSome? blockName?

def unclosed : Scope → SyntaxError
  | block name position marker => ⟨.unclosedBlock name, position, marker, none⟩
  | conditional position marker _ => ⟨.unclosedConditional, position, marker, none⟩

end Scope

def errorAt (l : Lexeme) (kind : SyntaxError.Kind) : SyntaxError :=
  ⟨kind, l.position, l.raw, none⟩

/-- The error of a marker that does not fit the innermost scope: it crosses the boundary of the
innermost block, or, outside all blocks, matches nothing. -/
def misplaced (scopes : List Scope) (l : Lexeme) (unmatched : SyntaxError.Kind) : SyntaxError :=
  errorAt l ((Scope.enclosingBlock? scopes).elim unmatched .crossesBlock)

def readCondition (l : Lexeme) (condition : String) : Except SyntaxError Condition :=
  (Condition.parse condition).mapError fun e => errorAt l (.invalidCondition e.message)

/-- Closes the innermost scope as a block, which must have the given name if one is given. -/
def closeBlock (scopes : List Scope) (l : Lexeme) (found : Option String) :
    Except SyntaxError (List Scope) :=
  match scopes with
  | .block expected _ _ :: outer =>
    match found with
    | none => .ok outer
    | some name =>
      if name = expected then .ok outer
      else .error (errorAt l (.mismatchedEndBlock expected name))
  | _ => .error (misplaced scopes l .unexpectedEndBlock)

/-- Starts another branch of the innermost scope, a conditional whose last branch has not begun
yet. -/
def nextBranch (scopes : List Scope) (l : Lexeme) (isLast : Bool) :
    Except SyntaxError (List Scope) :=
  match scopes with
  | .conditional position marker seenElse :: outer =>
    if seenElse then .error (errorAt l .branchAfterElse)
    else .ok (.conditional position marker isLast :: outer)
  | _ => .error (misplaced scopes l .unexpectedConditional)

def closeConditional (scopes : List Scope) (l : Lexeme) : Except SyntaxError (List Scope) :=
  match scopes with
  | .conditional _ _ _ :: outer => .ok outer
  | _ => .error (misplaced scopes l .unexpectedConditional)

def ofLexeme (scopes : List Scope) (l : Lexeme) : Except SyntaxError (Item × List Scope) :=
  match l.token with
  | .text content => .ok (.text content, scopes)
  | .var name => .ok (.var name, scopes)
  | .beginBlock name =>
    .ok (.beginBlock name l.position, .block name l.position l.raw :: scopes)
  | .endBlock found => do
    let outer ← closeBlock scopes l found
    .ok (.endBlock, outer)
  | .ifCond condition => do
    let c ← readCondition l condition
    .ok (.ifCond c, .conditional l.position l.raw false :: scopes)
  | .elseIf condition => do
    let after ← nextBranch scopes l false
    let c ← readCondition l condition
    .ok (.elseIf c, after)
  | .otherwise => do
    let after ← nextBranch scopes l true
    .ok (.otherwise, after)
  | .endIf => do
    let outer ← closeConditional scopes l
    .ok (.endIf, outer)
  | .inclusion name => .ok (.inclusion name l.position l.raw, scopes)

/-- The items of lexemes, after those in `done` (last first), and the scopes open after them. -/
def ofLexemes (scopes : List Scope) (done : List Item) :
    List Lexeme → Except SyntaxError (List Item × List Scope)
  | [] => .ok (done.reverse, scopes)
  | l :: ls =>
    match ofLexeme scopes l with
    | .error e => .error e
    | .ok (item, after) => ofLexemes after (item :: done) ls

/-- The items of a template. An error among the lexemes delivered comes before the error that
stopped their delivery, and both come before a scope that is never closed. -/
def ofText (trim : Bool) (text : String) : Except SyntaxError (List Item) :=
  let (lexemes, stopped) := (Tokenizer.ofText trim text).drain
  match ofLexemes [] [] lexemes, stopped with
  | .error e, _ => .error e
  | .ok _, some e => .error e
  | .ok (items, []), none => .ok items
  | .ok (_, scope :: _), none => .error scope.unclosed

end Item

/-! ## The grammar of templates

What it means that the markers of a template nest, apart from how this is checked. One relation
serves both for whole texts and for what follows the opening marker of a conditional, so that
statements about it are proved by one induction.
-/

namespace Item

inductive Shape
  /-- A text in which everything that is opened is closed. -/
  | body
  /-- The branches of a conditional, from the text after its `if` to its `endif`. -/
  | branches
  deriving DecidableEq

/-- A token that neither opens, continues nor closes anything. -/
def isPlain : Token → Bool
  | .text _ => true
  | .var _ => true
  | .inclusion _ => true
  | _ => false

def HasCondition (argument : String) : Prop :=
  ∃ c, Condition.parse argument = .ok c

/-- The lists of tokens in which blocks and conditionals nest. -/
inductive Balanced : Shape → List Token → Prop
  | nil : Balanced .body []
  | plain {token : Token} {rest : List Token} :
    isPlain token = true → Balanced .body rest → Balanced .body (token :: rest)
  | block {name : String} {found : Option String} {inner rest : List Token} :
    found = none ∨ found = some name → Balanced .body inner → Balanced .body rest →
      Balanced .body (.beginBlock name :: (inner ++ .endBlock found :: rest))
  | conditional {condition : String} {inner rest : List Token} :
    HasCondition condition → Balanced .branches inner → Balanced .body rest →
      Balanced .body (.ifCond condition :: (inner ++ rest))
  | last {inner : List Token} :
    Balanced .body inner → Balanced .branches (inner ++ [.endIf])
  | elseIf {condition : String} {inner rest : List Token} :
    HasCondition condition → Balanced .body inner → Balanced .branches rest →
      Balanced .branches (inner ++ .elseIf condition :: rest)
  | otherwise {inner final : List Token} :
    Balanced .body inner → Balanced .body final →
      Balanced .branches (inner ++ .otherwise :: (final ++ [.endIf]))

end Item

end Stencil
