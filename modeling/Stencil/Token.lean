import Stencil.Error
import Stencil.Text

/-! # Tokens

What a template is made of: literal text, variables, and the markers that open, continue and close
blocks and conditionals or include a subtemplate. A lexeme is a token with the place it was found
at and the text it was written as.
-/

namespace Stencil

inductive Token
  /-- Literal text, escapes already undone. -/
  | text (content : String)
  | var (name : String)
  | beginBlock (name : String)
  /-- The end of a block; naming the block is optional. -/
  | endBlock (name : Option String)
  | ifCond (condition : String)
  | elseIf (condition : String)
  | otherwise
  | endIf
  | inclusion (name : String)
  deriving DecidableEq

/-- Markers are the tokens that shape the template: all but texts and variables. -/
def Token.isMarker : Token → Bool
  | text _ => false
  | var _ => false
  | _ => true

structure Lexeme where
  token : Token
  position : Position
  /-- The variable or marker as written; empty for a text. -/
  raw : String
  deriving DecidableEq

namespace Lexeme

/-- A lexeme that may stand on a line of markers only: a marker or blank text. -/
def isMarkerOrBlank (isBlank : Char → Bool) (l : Lexeme) : Bool :=
  match l.token with
  | .text content => content.toList.all isBlank
  | token => token.isMarker

/-- Adds literal text to lexemes that are listed last first. The text joins a text that stands
last; otherwise it starts a lexeme of its own at `position`. -/
def addText (position : Position) (content : String) : List Lexeme → List Lexeme
  | ⟨.text before, start, raw⟩ :: done => ⟨.text (before ++ content), start, raw⟩ :: done
  | done => ⟨.text content, position, ""⟩ :: done

end Lexeme

/-! ## Reading variables and markers

A variable is a name in braces. A marker is a keyword in square brackets, for some keywords with an
argument after a colon. Whatever does not have one of these forms is literal text; a bracket that
has the form of a marker and still cannot be read as one is a fault.
-/

namespace Token

inductive Keyword
  | beginBlock
  | endBlock
  | ifCond
  | elseIf
  | otherwise
  | endIf
  | inclusion
  deriving DecidableEq

namespace Keyword

def all : List Keyword :=
  [beginBlock, endBlock, ifCond, elseIf, otherwise, endIf, inclusion]

def spelling : Keyword → String
  | beginBlock => "beginblock"
  | endBlock => "endblock"
  | ifCond => "if"
  | elseIf => "elseif"
  | otherwise => "else"
  | endIf => "endif"
  | inclusion => "include"

/-- The keyword a word spells, in any mixture of ASCII upper and lower case. -/
def ofWord? (word : List Char) : Option Keyword :=
  let lower := word.map Char.toLower
  all.find? fun keyword => keyword.spelling.toList == lower

def blockName (argument : List Char) : Except SyntaxError.Kind String :=
  if Name.isValid argument then .ok (String.ofList argument)
  else .error (.invalidName (String.ofList argument))

/-- The token of a keyword with its trimmed argument, which is empty where none is given. -/
def token : Keyword → List Char → Except SyntaxError.Kind Token
  | endBlock, [] => .ok (.endBlock none)
  | otherwise, [] => .ok .otherwise
  | endIf, [] => .ok .endIf
  | _, [] => .error .missingArgument
  | beginBlock, argument => (blockName argument).map .beginBlock
  | endBlock, argument => (blockName argument).map fun name => .endBlock (some name)
  | ifCond, argument => .ok (.ifCond (String.ofList argument))
  | elseIf, argument => .ok (.elseIf (String.ofList argument))
  | inclusion, argument => .ok (.inclusion (String.ofList argument))
  | otherwise, _ => .error .malformedMarker
  | endIf, _ => .error .malformedMarker

end Keyword

structure Fault where
  kind : SyntaxError.Kind
  marker : List Char

/-- Reads what follows an opening brace. A variable comes with the number of characters it takes,
the closing brace included. -/
def readVariable? (cs : List Char) : Option (Token × Nat) :=
  let name := cs.takeWhile Name.isChar
  if Name.isValid name && (cs.drop name.length).head? == some '}' then
    some (.var (String.ofList name), name.length + 1)
  else
    none

/-- Reads what follows an opening bracket. A marker comes with the number of characters it takes,
the closing bracket included; literal text gives none. -/
def readMarker? (cs : List Char) : Except Fault (Option (Token × Nat)) :=
  let word := cs.takeWhile Char.isAlpha
  match Keyword.ofWord? word with
  | none => .ok none
  | some keyword =>
    let finish (argument : List Char) (length : Nat) : Except Fault (Option (Token × Nat)) :=
      match keyword.token argument with
      | .ok token => .ok (some (token, length))
      | .error kind => .error ⟨kind, '[' :: cs.take length⟩
    match cs.drop word.length with
    | ']' :: _ => finish [] (word.length + 1)
    | ':' :: after =>
      let argument := after.takeWhile (· != ']')
      match after.drop argument.length with
      | [] => .error ⟨.malformedMarker, '[' :: cs⟩
      | _ :: _ => finish (Text.trim argument) (word.length + argument.length + 2)
    | _ => .ok none

end Token

/-! ## The tokens of a line

No token spans two lines, so a template is read line by line. A line is its content and its
terminator; the content is read from left to right, and the terminator is literal text, unless the
line is dropped because it holds nothing but markers and blanks.
-/

namespace Token

def isEscapable (c : Char) : Bool :=
  c == '{' || c == '[' || c == '\\'

inductive Element
  | literal (c : Char)
  | marked (token : Token)

/-- Reads the element that starts with `c`, which the characters `cs` follow. The element comes
with the number of characters it takes of `cs`. -/
def Element.read (c : Char) (cs : List Char) : Except Fault (Element × Nat) :=
  if c == '\\' then
    match cs with
    | [] => .ok (.literal c, 0)
    | d :: _ => if isEscapable d then .ok (.literal d, 1) else .ok (.literal c, 0)
  else if c == '{' then
    match readVariable? cs with
    | some (token, length) => .ok (.marked token, length)
    | none => .ok (.literal c, 0)
  else if c == '[' then
    match readMarker? cs with
    | .error fault => .error fault
    | .ok (some (token, length)) => .ok (.marked token, length)
    | .ok none => .ok (.literal c, 0)
  else
    .ok (.literal c, 0)

/-- Adds an element, written as `raw`, to lexemes that are listed last first. -/
def Element.add (position : Position) (raw : List Char) : Element → List Lexeme → List Lexeme
  | literal c, done => Lexeme.addText position (String.singleton c) done
  | marked token, done => ⟨token, position, String.ofList raw⟩ :: done

/-- Reads a line's content from column `column` on; `done` are the lexemes before it, last
first. -/
def readContent (line column : Nat) (done : List Lexeme) :
    List Char → Except SyntaxError (List Lexeme)
  | [] => .ok done
  | c :: cs =>
    match Element.read c cs with
    | .error fault => .error ⟨fault.kind, ⟨line, column⟩, String.ofList fault.marker, none⟩
    | .ok (element, more) =>
      readContent line (column + 1 + more)
        (element.add ⟨line, column⟩ (c :: cs.take more) done) (cs.drop more)
termination_by cs => cs.length
decreasing_by simp only [List.length_drop, List.length_cons]; omega

end Token

structure Line where
  content : List Char
  /-- A line feed, with the carriage return before it if there is one; empty at the end of the
  template. -/
  terminator : List Char
  deriving DecidableEq

namespace Line

def first (cs : List Char) : Line × List Char :=
  let before := cs.takeWhile (· != '\n')
  match cs.drop before.length with
  | [] => (⟨before, []⟩, [])
  | _ :: rest =>
    if before.getLast? == some '\r' then (⟨before.dropLast, ['\r', '\n']⟩, rest)
    else (⟨before, ['\n']⟩, rest)

/-- A line of markers: it holds a marker, and otherwise nothing but markers and blanks. -/
def isMarkerLine (lexemes : List Lexeme) : Bool :=
  lexemes.any (·.token.isMarker) && lexemes.all (Lexeme.isMarkerOrBlank Text.isBlank)

/-- The lexemes of line number `number`. With `trim`, a line of markers keeps its markers only. -/
def lexemes (trim : Bool) (number : Nat) (line : Line) : Except SyntaxError (List Lexeme) :=
  match Token.readContent number 1 [] line.content with
  | .error e => .error e
  | .ok found =>
    if trim && isMarkerLine found then
      .ok (found.filter (·.token.isMarker)).reverse
    else if line.terminator.isEmpty then
      .ok found.reverse
    else
      .ok (Lexeme.addText ⟨number, line.content.length + 1⟩ (String.ofList line.terminator)
        found).reverse

/-- Taking a line off a text that is not empty leaves a shorter text. -/
theorem length_first_lt {cs : List Char} (h : cs ≠ []) : (first cs).2.length < cs.length := by
  have hpos : 0 < cs.length := List.length_pos_iff.2 h
  simp only [first]
  split
  · exact hpos
  · next rest heq =>
    have hlen := congrArg List.length heq
    simp only [List.length_drop, List.length_cons] at hlen
    split <;> simp only <;> omega

end Line

/-! ## The tokenizer

A tokenizer delivers the lexemes of a template one at a time, reading a line when it has delivered
all lexemes of the lines before. A line that cannot be read delivers nothing and is not consumed, so
the error is met again by every later call.
-/

structure Tokenizer where
  /-- Whether lines of markers keep their markers only. -/
  trim : Bool
  /-- The lines not read yet. -/
  rest : List Char
  /-- The number of the first line not read yet. -/
  line : Nat
  /-- The lexemes of the lines already read that are still to be delivered. -/
  queue : List Lexeme

namespace Tokenizer

def ofText (trim : Bool) (text : String) : Tokenizer :=
  ⟨trim, text.toList, 1, []⟩

/-- The next lexeme, none at the end, or the error of the next line; and the tokenizer after it. -/
def next (t : Tokenizer) : Except SyntaxError (Option Lexeme) × Tokenizer :=
  match t with
  | ⟨trim, rest, line, l :: queue⟩ => (.ok (some l), ⟨trim, rest, line, queue⟩)
  | ⟨_, [], _, []⟩ => (.ok none, t)
  | ⟨trim, c :: cs, line, []⟩ =>
    let cut := Line.first (c :: cs)
    match cut.1.lexemes trim line with
    | .error e => (.error e, t)
    | .ok queue => next ⟨trim, cut.2, line + 1, queue⟩
termination_by t.rest.length
decreasing_by exact Line.length_first_lt (List.cons_ne_nil c cs)

/-- Delivering a lexeme consumes lines, or an element of the queue. -/
theorem next_decreases {t t' : Tokenizer} {l : Lexeme} (h : t.next = (.ok (some l), t')) :
    t'.rest.length < t.rest.length ∨
      t'.rest.length = t.rest.length ∧ t'.queue.length < t.queue.length := by
  fun_induction next t with
  | case1 trim rest line l queue =>
    simp only [Prod.mk.injEq] at h
    rw [← h.2]
    exact .inr ⟨rfl, Nat.lt_succ_self _⟩
  | case2 => simp at h
  | case3 => simp at h
  | case4 trim c cs line cut queue _ ih =>
    have hcut : cut.2.length < (c :: cs).length := Line.length_first_lt (List.cons_ne_nil c cs)
    rcases ih h with h' | ⟨h', _⟩ <;> exact .inl (by simp only at h' ⊢; omega)

/-- All lexemes delivered from here on, after those in `done` (last first), and the error that
stopped the delivery, if one did. -/
def drainInto (t : Tokenizer) (done : List Lexeme) : List Lexeme × Option SyntaxError :=
  match _h : t.next with
  | (.ok none, _) => (done.reverse, none)
  | (.error e, _) => (done.reverse, some e)
  | (.ok (some l), t') => drainInto t' (l :: done)
termination_by (t.rest.length, t.queue.length)
decreasing_by
  rcases next_decreases _h with h' | ⟨h', h''⟩
  · exact Prod.Lex.left _ _ h'
  · rw [h']; exact Prod.Lex.right _ h''

def drain (t : Tokenizer) : List Lexeme × Option SyntaxError :=
  t.drainInto []

end Tokenizer

/-! ## Writing tokens

The text of a token: markers are written with their keyword in lower case, and literal text with a
backslash before every character that a backslash can stand before. So no text is taken for a
variable or a marker when it is read again.
-/

namespace Token

def escapeChar (c : Char) : List Char :=
  if isEscapable c then ['\\', c] else [c]

def escape (cs : List Char) : List Char :=
  cs.flatMap escapeChar

def Keyword.marker (keyword : Keyword) (argument : Option String) : List Char :=
  '[' :: (keyword.spelling.toList ++
    (match argument with
      | none => []
      | some argument => ':' :: argument.toList) ++ [']'])

def print : Token → List Char
  | text content => escape content.toList
  | var name => '{' :: (name.toList ++ ['}'])
  | beginBlock name => Keyword.beginBlock.marker (some name)
  | endBlock name => Keyword.endBlock.marker name
  | ifCond condition => Keyword.ifCond.marker (some condition)
  | elseIf condition => Keyword.elseIf.marker (some condition)
  | otherwise => Keyword.otherwise.marker none
  | endIf => Keyword.endIf.marker none
  | inclusion name => Keyword.inclusion.marker (some name)

def printAll (tokens : List Token) : String :=
  String.ofList (tokens.flatMap print)

end Token

end Stencil
