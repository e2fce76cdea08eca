import Stencil.Text

/-! # Flags and conditions

Which flags are set decides about conditions: how conditions are read and written, and what they
stand for.
-/

/-! ## Flag sets

The condition flags that are set. A flag counts by its upper-case form, so case does not matter,
and the set is kept as an ascending list, so equal sets are equal lists.
-/

namespace Stencil

/-- A set of flags, held as their upper-case forms in strictly ascending order. Texts compare by
their code points, which is also the order of their UTF-8 bytes. -/
structure FlagSet where
  names : List String
  ascending : names.Pairwise (· < ·)
  deriving DecidableEq

namespace FlagSet

def empty : FlagSet :=
  ⟨[], .nil⟩

instance : Inhabited FlagSet :=
  ⟨empty⟩

def insertName (name : String) : List String → List String
  | [] => [name]
  | n :: ns =>
    if name < n then name :: n :: ns
    else if name = n then n :: ns
    else n :: insertName name ns

@[simp]
theorem mem_insertName {x name : String} {ns : List String} :
    x ∈ insertName name ns ↔ x = name ∨ x ∈ ns := by
  induction ns with
  | nil => simp [insertName]
  | cons n ns ih =>
    simp only [insertName]
    split
    · simp
    · split
      · next h => subst h; simp
      · simp only [List.mem_cons, ih]
        exact ⟨fun h => by rcases h with h | h | h <;> simp [h],
          fun h => by rcases h with h | h | h <;> simp [h]⟩

theorem pairwise_insertName {name : String} {ns : List String} (h : ns.Pairwise (· < ·)) :
    (insertName name ns).Pairwise (· < ·) := by
  induction ns with
  | nil => simp [insertName]
  | cons n ns ih =>
    have hn := List.pairwise_cons.1 h
    simp only [insertName]
    split
    · next hlt =>
      refine List.pairwise_cons.2 ⟨fun x hx => ?_, h⟩
      rcases List.mem_cons.1 hx with rfl | hx
      · exact hlt
      · exact String.lt_trans hlt (hn.1 x hx)
    · next hlt =>
      split
      · exact h
      · next hne =>
        have hgt : n < name := by
          apply Decidable.byContradiction
          intro hng
          exact hne (String.le_antisymm (String.not_lt.1 hng) (String.not_lt.1 hlt))
        refine List.pairwise_cons.2 ⟨fun x hx => ?_, ih hn.2⟩
        rcases mem_insertName.1 hx with rfl | hx
        · exact hgt
        · exact hn.1 x hx

def insert (set : FlagSet) (flag : String) : FlagSet :=
  ⟨insertName (Text.upper flag) set.names, pairwise_insertName set.ascending⟩

def extend (set : FlagSet) (flags : List String) : FlagSet :=
  flags.foldl insert set

def ofList (flags : List String) : FlagSet :=
  empty.extend flags

def contains (set : FlagSet) (flag : String) : Bool :=
  set.names.contains (Text.upper flag)

def size (set : FlagSet) : Nat :=
  set.names.length

def isEmpty (set : FlagSet) : Bool :=
  set.names.isEmpty

def display (set : FlagSet) : String :=
  String.intercalate "|" set.names

def compareNames : List String → List String → Ordering
  | [], [] => .eq
  | [], _ :: _ => .lt
  | _ :: _, [] => .gt
  | m :: ms, n :: ns => (compareOfLessAndEq m n).then (compareNames ms ns)

def compare (a b : FlagSet) : Ordering :=
  compareNames a.names b.names

end FlagSet

/-! ## Conditions

Boolean expressions over flags. A conjunction or disjunction holds any number of terms; the reader
builds them from chains of at least two.
-/

inductive Condition
  | flag (name : String)
  | not (inner : Condition)
  | and (terms : List Condition)
  | or (terms : List Condition)

namespace Condition

mutual

def eval (flags : FlagSet) : Condition → Bool
  | flag name => flags.contains name
  | not inner => !inner.eval flags
  | and terms => allHold flags terms
  | or terms => someHolds flags terms

def allHold (flags : FlagSet) : List Condition → Bool
  | [] => true
  | c :: cs => c.eval flags && allHold flags cs

def someHolds (flags : FlagSet) : List Condition → Bool
  | [] => false
  | c :: cs => c.eval flags || someHolds flags cs

end

theorem allHold_eq_all (flags : FlagSet) (cs : List Condition) :
    allHold flags cs = cs.all (eval flags) := by
  induction cs with
  | nil => rfl
  | cons c cs ih => simp [allHold, ih]

theorem someHolds_eq_any (flags : FlagSet) (cs : List Condition) :
    someHolds flags cs = cs.any (eval flags) := by
  induction cs with
  | nil => rfl
  | cons c cs ih => simp [someHolds, ih]

@[simp]
theorem eval_and (flags : FlagSet) (terms : List Condition) :
    (and terms).eval flags = terms.all (eval flags) := by
  rw [eval, allHold_eq_all]

@[simp]
theorem eval_or (flags : FlagSet) (terms : List Condition) :
    (or terms).eval flags = terms.any (eval flags) := by
  rw [eval, someHolds_eq_any]

end Condition

/-! ## The tokens of a condition

A condition is written with flag names, `!`, `&&`, `||` and parentheses, with blanks anywhere
between them. The causes for which a text is no condition are listed here with their wording.
-/

namespace Condition

inductive Token
  | flag (name : String)
  | bang
  | both
  | either
  | opening
  | closing
  deriving DecidableEq

def Token.message : Token → String
  | flag name => "flag `" ++ name ++ "`"
  | bang => "`!`"
  | both => "`&&`"
  | either => "`||`"
  | opening => "`(`"
  | closing => "`)`"

def Token.spelling : Token → List Char
  | flag name => name.toList
  | bang => ['!']
  | both => ['&', '&']
  | either => ['|', '|']
  | opening => ['(']
  | closing => [')']

def maxNesting : Nat := 64

/-- Why a text is no condition. The token found is none at the end of the text. -/
inductive ParseError
  | invalidFlag (name : String)
  | unexpectedChar (c : Char)
  | tooDeep
  | expectedFlag (found : Option Token)
  | expectedClosing (found : Option Token)
  | trailing (found : Token) (input : String)
  deriving DecidableEq

def ParseError.foundMessage : Option Token → String
  | none => "end of condition"
  | some token => token.message

def ParseError.message : ParseError → String
  | invalidFlag name => "invalid flag name `" ++ name ++ "`"
  | unexpectedChar c => "unexpected character `" ++ String.singleton c ++ "`"
  | tooDeep => "condition nested deeper than " ++ toString maxNesting
  | expectedFlag found => "expected flag, got " ++ foundMessage found
  | expectedClosing found => "expected `)`, got " ++ foundMessage found
  | trailing found input => "unexpected " ++ found.message ++ " in `" ++ input ++ "`"

/-- Reads the token that starts with `c`, which the characters `cs` follow. The token comes with the
number of characters it takes of `cs`. A flag takes all name characters there are. -/
def Token.read (c : Char) (cs : List Char) : Except ParseError (Token × Nat) :=
  if c == '!' then .ok (.bang, 0)
  else if c == '(' then .ok (.opening, 0)
  else if c == ')' then .ok (.closing, 0)
  else if c == '&' && cs.head? == some '&' then .ok (.both, 1)
  else if c == '|' && cs.head? == some '|' then .ok (.either, 1)
  else if Name.isChar c then
    let more := cs.takeWhile Name.isChar
    if Name.isValid (c :: more) then .ok (.flag (String.ofList (c :: more)), more.length)
    else .error (.invalidFlag (String.ofList (c :: more)))
  else .error (.unexpectedChar c)

/-- The tokens of a text, after those in `done`, which are listed last first. -/
def Token.readAllInto (done : List Token) (cs : List Char) : Except ParseError (List Token) :=
  match _h : Text.trimStart cs with
  | [] => .ok done.reverse
  | c :: rest =>
    match Token.read c rest with
    | .error e => .error e
    | .ok (token, more) => readAllInto (token :: done) (rest.drop more)
termination_by cs.length
decreasing_by
  have hle := Text.length_trimStart_le cs
  rw [_h, List.length_cons] at hle
  rw [List.length_drop]
  omega

def Token.readAll (cs : List Char) : Except ParseError (List Token) :=
  readAllInto [] cs

end Condition

/-! ## Reading conditions

`!` binds tighter than `&&`, and `&&` tighter than `||`. A chain of one operator is one flat
conjunction or disjunction. A reader takes a condition off the front of the tokens, at least one of
them, which the type of its result records; chains recur on the tokens that are left, and
parentheses and negations on the number of levels still allowed.
-/

namespace Condition

abbrev Reader :=
  (tokens : List Token) →
    Except ParseError { r : Condition × List Token // r.2.length < tokens.length }

/-- Reads on in a chain: as long as the separator follows, one more member. `done` are the members
before, last first. -/
def members (separator : Token) (member : Reader) (bound : Nat) (done : List Condition) :
    (tokens : List Token) → tokens.length < bound →
      Except ParseError { r : List Condition × List Token // r.2.length < bound }
  | [], h => .ok ⟨(done.reverse, []), h⟩
  | token :: tokens, h =>
    if token = separator then
      match member tokens with
      | .error e => .error e
      | .ok ⟨(c, rest), shorter⟩ =>
        members separator member bound (c :: done) rest
          (Nat.lt_trans shorter (Nat.lt_of_succ_lt h))
    else
      .ok ⟨(done.reverse, token :: tokens), h⟩
termination_by tokens => tokens.length
decreasing_by exact Nat.lt_succ_of_lt shorter

/-- The condition of the members of a chain. A chain of one member is that member. -/
def joined (join : List Condition → Condition) : List Condition → Condition
  | [single] => single
  | terms => join terms

def chain (separator : Token) (join : List Condition → Condition) (member : Reader) : Reader :=
  fun tokens =>
    match member tokens with
    | .error e => .error e
    | .ok ⟨(c, rest), shorter⟩ =>
      match members separator member tokens.length [c] rest shorter with
      | .error e => .error e
      | .ok ⟨(terms, rest), h⟩ => .ok ⟨(joined join terms, rest), h⟩

def disjunction (unary : Reader) : Reader :=
  chain .either .or (chain .both .and unary)

/-- Reads a flag, a negation or a condition in parentheses. `inner` reads what stands after a `!`
and the members of what stands in the parentheses. -/
def primary (inner : Reader) : Reader
  | [] => .error (.expectedFlag none)
  | .flag name :: rest => .ok ⟨(.flag name, rest), Nat.lt_succ_self _⟩
  | .bang :: rest =>
    match inner rest with
    | .error e => .error e
    | .ok ⟨(c, rest), shorter⟩ => .ok ⟨(.not c, rest), Nat.lt_succ_of_lt shorter⟩
  | .opening :: rest =>
    match disjunction inner rest with
    | .error e => .error e
    | .ok ⟨(c, after), shorter⟩ =>
      match after, shorter with
      | .closing :: rest, shorter =>
        .ok ⟨(c, rest), Nat.lt_succ_of_lt (Nat.lt_of_succ_lt shorter)⟩
      | _, _ => .error (.expectedClosing after.head?)
  | token :: _ => .error (.expectedFlag (some token))

/-- Reads a flag, a negation or a condition in parentheses, with `levels` levels of nesting allowed,
this one included. -/
def unary : Nat → Reader
  | 0 => fun _ => .error .tooDeep
  | levels + 1 => primary (unary levels)

def parse (input : String) : Except ParseError Condition :=
  match Token.readAll input.toList with
  | .error e => .error e
  | .ok tokens =>
    match disjunction (unary (maxNesting + 1)) tokens with
    | .error e => .error e
    | .ok ⟨(c, rest), _⟩ =>
      match rest with
      | [] => .ok c
      | token :: _ => .error (.trailing token input)

end Condition

/-! ## Writing conditions

A condition is written with as few parentheses as it needs to be read back as the same tree: around
a disjunction that is a term of another condition, and around a conjunction that is negated or a
term of a conjunction.
-/

namespace Condition

/-- Where a condition stands, which decides about its parentheses. -/
inductive Place
  | alone
  | inDisjunction
  | inConjunction
  | negated
  deriving DecidableEq

def needsParentheses : Place → Condition → Bool
  | .alone, _ => false
  | _, or _ => true
  | .inConjunction, and _ => true
  | .negated, and _ => true
  | _, _ => false

def enclose (needed : Bool) (tokens : List Token) : List Token :=
  if needed then .opening :: (tokens ++ [.closing]) else tokens

mutual

def toTokens : Condition → List Token
  | flag name => [.flag name]
  | not inner => .bang :: enclose (needsParentheses .negated inner) inner.toTokens
  | and terms => termTokens .both .inConjunction terms
  | or terms => termTokens .either .inDisjunction terms

def termTokens (separator : Token) (place : Place) : List Condition → List Token
  | [] => []
  | [c] => enclose (needsParentheses place c) c.toTokens
  | c :: d :: cs =>
    enclose (needsParentheses place c) c.toTokens ++
      separator :: termTokens separator place (d :: cs)

end

def print (c : Condition) : String :=
  String.ofList (c.toTokens.flatMap Token.spelling)

def enclosed (needed : Bool) (depths : List Nat) : List Nat :=
  if needed then depths.map (· + 1) else depths

mutual

/-- The number of parentheses and negations that are written around each flag, in the order of the
flags. -/
def depths : Condition → List Nat
  | flag _ => [0]
  | not inner => (enclosed (needsParentheses .negated inner) inner.depths).map (· + 1)
  | and terms => termDepths .inConjunction terms
  | or terms => termDepths .inDisjunction terms

def termDepths (place : Place) : List Condition → List Nat
  | [] => []
  | c :: cs => enclosed (needsParentheses place c) c.depths ++ termDepths place cs

end

end Condition

/-! ## The grammar of conditions

How texts are written for conditions, apart from how they are read. A text splits into tokens; the
tokens are derived by rules, one constructor for each; and a derivation has a condition and, for
every set of flags, a truth value. A condition is a chain of `||`, whose members are chains of `&&`,
whose members are unary expressions; so negation binds tightest and disjunction loosest.
-/

namespace Condition

namespace Token

/-- Whether a token may stand in front of some characters: a flag is a name, and takes all the name
characters there are. -/
def Stands (rest : List Char) : Token → Prop
  | flag name => Name.isValid name.toList = true ∧ ∀ c ∈ rest.head?, Name.isChar c = false
  | _ => True

/-- A text is some tokens as they are written, with blanks before, between and after them. -/
inductive Splits : List Char → List Token → Prop
  | blank {cs : List Char} : (∀ c ∈ cs, Text.isBlank c = true) → Splits cs []
  | token {blanks rest : List Char} {token : Token} {tokens : List Token} :
    (∀ c ∈ blanks, Text.isBlank c = true) → token.Stands rest → Splits rest tokens →
      Splits (blanks ++ (token.spelling ++ rest)) (token :: tokens)

end Token

inductive Operator
  | both
  | either

inductive Rank
  | unary
  | chain (operator : Operator)

namespace Operator

def token : Operator → Token
  | both => .both
  | either => .either

def member : Operator → Rank
  | both => .unary
  | either => .chain both

def join : Operator → List Condition → Condition
  | both => .and
  | either => .or

def combine : Operator → Prop → Prop → Prop
  | both => And
  | either => Or

end Operator

/-- The derivations of the parts of a condition, one constructor for each rule of the grammar. -/
inductive Derivation : Rank → Type
  | flag (name : String) : Derivation .unary
  | not (inner : Derivation .unary) : Derivation .unary
  | group (inner : Derivation (.chain .either)) : Derivation .unary
  | single {operator : Operator} (only : Derivation operator.member) :
    Derivation (.chain operator)
  | more {operator : Operator} (first : Derivation operator.member)
    (rest : Derivation (.chain operator)) : Derivation (.chain operator)

namespace Rank

/-- What a part stands for: a condition, or the terms of a chain. -/
abbrev Meaning : Rank → Type
  | unary => Condition
  | chain _ => List Condition

def condition : (rank : Rank) → rank.Meaning → Condition
  | unary, c => c
  | chain _, [c] => c
  | chain operator, cs => operator.join cs

end Rank

namespace Derivation

def tokens : {rank : Rank} → Derivation rank → List Token
  | _, flag name => [.flag name]
  | _, not inner => .bang :: inner.tokens
  | _, group inner => .opening :: (inner.tokens ++ [.closing])
  | _, single only => only.tokens
  | .chain operator, more first rest => first.tokens ++ operator.token :: rest.tokens

/-- How many parentheses and negations stand around a unary expression, at most. -/
def nesting : {rank : Rank} → Derivation rank → Nat
  | _, flag _ => 0
  | _, not inner => inner.nesting + 1
  | _, group inner => inner.nesting + 1
  | _, single only => only.nesting
  | _, more first rest => max first.nesting rest.nesting

def meaning : {rank : Rank} → Derivation rank → rank.Meaning
  | _, flag name => Condition.flag name
  | _, not inner => Condition.not inner.meaning
  | _, group inner => (Rank.chain .either).condition inner.meaning
  | .chain operator, single only => [operator.member.condition only.meaning]
  | .chain operator, more first rest =>
    List.cons (operator.member.condition first.meaning) rest.meaning

/-- The condition of a derivation. Parentheses leave no trace in it, nor do chains of one term. -/
def condition {rank : Rank} (d : Derivation rank) : Condition :=
  rank.condition d.meaning

def Holds (flags : FlagSet) : {rank : Rank} → Derivation rank → Prop
  | _, flag name => Text.upper name ∈ flags.names
  | _, not inner => ¬inner.Holds flags
  | _, group inner => inner.Holds flags
  | _, single only => only.Holds flags
  | .chain operator, more first rest => operator.combine (first.Holds flags) (rest.Holds flags)

end Derivation

end Condition

end Stencil
