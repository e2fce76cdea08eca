/-! # Errors

Everything that can go wrong with a template: its markers are wrong, a text cannot be read or
written, a name is unknown, or a variable has no value.
-/

/-! ## Syntax errors

What can be wrong with the markers of a template, where it was found, and the wording of the
report. Each cause is a constructor; the wording lives in one function per type.
-/

namespace Stencil

/-- A place in a template. Lines and columns count from one, and columns count characters. -/
structure Position where
  line : Nat
  column : Nat
  deriving DecidableEq

def Position.message (p : Position) : String :=
  s!"line {p.line}, column {p.column}"

namespace SyntaxError

inductive Kind
  | malformedMarker
  | invalidName (name : String)
  | missingArgument
  | invalidCondition (reason : String)
  | unclosedBlock (name : String)
  | mismatchedEndBlock (expected found : String)
  | unexpectedEndBlock
  | unclosedConditional
  | unexpectedConditional
  | branchAfterElse
  | crossesBlock (name : String)
  | nestedSameName (name : String)
  | includeUnavailable
  | includeTooDeep (limit : Nat)
  deriving DecidableEq

def Kind.message : Kind → String
  | malformedMarker => "malformed marker"
  | invalidName name => "invalid name `" ++ name ++ "`"
  | missingArgument => "marker requires an argument"
  | invalidCondition reason => "invalid condition: " ++ reason
  | unclosedBlock name => "block `" ++ name ++ "` is never closed"
  | mismatchedEndBlock expected found =>
    "end of block `" ++ found ++ "` does not match open block `" ++ expected ++ "`"
  | unexpectedEndBlock => "end of block without a matching begin"
  | unclosedConditional => "conditional is never closed"
  | unexpectedConditional => "conditional marker without a matching `if`"
  | branchAfterElse => "`elseif` or `else` after `else`"
  | crossesBlock name => "conditional marker crosses the boundary of block `" ++ name ++ "`"
  | nestedSameName name => "block `" ++ name ++ "` is nested inside a block with the same name"
  | includeUnavailable => "include requires a subtemplate loader"
  | includeTooDeep limit => "include depth exceeds " ++ toString limit

end SyntaxError

structure SyntaxError where
  kind : SyntaxError.Kind
  position : Position
  /-- The marker as written. -/
  marker : String
  /-- The subtemplate the marker stands in; none for the template itself. -/
  origin : Option String := none
  deriving DecidableEq

namespace SyntaxError

def message (e : SyntaxError) : String :=
  e.kind.message ++ " at " ++ e.position.message ++
    (if e.marker.isEmpty then "" else " (`" ++ e.marker ++ "`)") ++
    (match e.origin with
      | none => ""
      | some name => " in subtemplate `" ++ name ++ "`")

/-- Places the error in a subtemplate, unless it already names one. -/
def within (e : SyntaxError) (name : String) : SyntaxError :=
  { e with origin := e.origin.or (some name) }

end SyntaxError

/-! ## Failures

Everything that can go wrong with a template after its text has been named: the text cannot be
read or written, its markers are wrong, a name is unknown, or a variable has no value.
-/

inductive StorageFault
  | notFound
  /-- The subtemplates kept in memory do not include the one asked for. -/
  | noSuchSubtemplate
  | isDirectory
  | notDirectory
  | notUtf8
  | nulInPath
  /-- A path, or one name in it, has more bytes than a path or a name may have. -/
  | nameTooLong
  /-- The receiver of a text takes no more bytes. -/
  | sinkFull
  deriving DecidableEq

def StorageFault.message : StorageFault → String
  | notFound => "No such file or directory (os error 2)"
  | noSuchSubtemplate => "no such subtemplate"
  | isDirectory => "Is a directory (os error 21)"
  | notDirectory => "Not a directory (os error 20)"
  | notUtf8 => "stream did not contain valid UTF-8"
  | nulInPath => "file name contained an unexpected NUL byte"
  | nameTooLong => "File name too long (os error 36)"
  | sinkFull => "failed to write whole buffer"

structure UnboundVariable where
  name : String
  deriving DecidableEq

def UnboundVariable.message (e : UnboundVariable) : String :=
  "variable `" ++ e.name ++ "` is referenced but was never assigned"

structure LoadError where
  path : String
  fault : StorageFault
  deriving DecidableEq

inductive Error
  | malformed (e : SyntaxError)
  | unknownVariable (name : String)
  | unknownBlock (name : String)
  | unbound (e : UnboundVariable)
  | load (e : LoadError)
  | storage (fault : StorageFault)
  deriving DecidableEq

def Error.message : Error → String
  | malformed e => "template syntax error: " ++ e.message
  | unknownVariable name => "unknown variable `" ++ name ++ "`"
  | unknownBlock name => "unknown block `" ++ name ++ "`"
  | unbound e => "render failed: " ++ e.message
  | load e => "failed to read `" ++ e.path ++ "`: " ++ e.fault.message
  | storage fault => "I/O error: " ++ fault.message

end Stencil
