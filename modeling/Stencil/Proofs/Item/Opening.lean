import Stencil.Proofs.Item.Tree

/-! # Scopes that are left open

What the beginning of a template leaves open, said by the grammar: a marker that opens a scope is
followed by text that nests, and so is every branch of a conditional. Main statement: reading
lexemes one after another leads to the scopes that they leave open.
-/

namespace Stencil

/-- The item of a lexeme, wherever it stands; none for a condition that cannot be read. -/
def Lexeme.item? (l : Lexeme) : Option Item :=
  match l.token with
  | .text content => some (.text content)
  | .var name => some (.var name)
  | .beginBlock name => some (.beginBlock name l.position)
  | .endBlock _ => some .endBlock
  | .ifCond condition => (Condition.parse condition).toOption.map .ifCond
  | .elseIf condition => (Condition.parse condition).toOption.map .elseIf
  | .otherwise => some .otherwise
  | .endIf => some .endIf
  | .inclusion name => some (.inclusion name l.position l.raw)

namespace Item

/-- Some continuation of the tokens nests. -/
def Viable (tokens : List Token) : Prop :=
  ∃ rest, Balanced .body (tokens ++ rest)

inductive LeavesOpen : List Lexeme → List Scope → Prop
  | nothing {ls : List Lexeme} : Balanced .body (ls.map Lexeme.token) → LeavesOpen ls []
  | block {before inner : List Lexeme} {scopes : List Scope} {name marker : String}
    {position : Position} :
    LeavesOpen before scopes → Balanced .body (inner.map Lexeme.token) →
      LeavesOpen (before ++ ⟨.beginBlock name, position, marker⟩ :: inner)
        (.block name position marker :: scopes)
  | conditional {before inner : List Lexeme} {scopes : List Scope} {condition marker : String}
    {position : Position} :
    LeavesOpen before scopes → HasCondition condition → Balanced .body (inner.map Lexeme.token) →
      LeavesOpen (before ++ ⟨.ifCond condition, position, marker⟩ :: inner)
        (.conditional position marker false :: scopes)
  | elseIf {before inner : List Lexeme} {l : Lexeme} {scopes : List Scope}
    {condition marker : String} {position : Position} :
    LeavesOpen before (.conditional position marker false :: scopes) →
      l.token = .elseIf condition → HasCondition condition →
      Balanced .body (inner.map Lexeme.token) →
      LeavesOpen (before ++ l :: inner) (.conditional position marker false :: scopes)
  | otherwise {before inner : List Lexeme} {l : Lexeme} {scopes : List Scope} {marker : String}
    {position : Position} :
    LeavesOpen before (.conditional position marker false :: scopes) → l.token = .otherwise →
      Balanced .body (inner.map Lexeme.token) →
      LeavesOpen (before ++ l :: inner) (.conditional position marker true :: scopes)

/-! ## Texts that nest -/

theorem Balanced.append {first second : List Token} (h : Balanced .body first)
    (h' : Balanced .body second) : Balanced .body (first ++ second) := by
  generalize hshape : Shape.body = shape at h
  induction h with
  | nil => exact h'
  | plain isPlain _ ih => exact .plain isPlain (ih hshape)
  | block named inner _ _ ih =>
    rw [List.cons_append, List.append_assoc]
    exact .block named inner (ih hshape)
  | conditional condition inner _ _ ih =>
    rw [List.cons_append, List.append_assoc]
    exact .conditional condition inner (ih hshape)
  | last => cases hshape
  | elseIf => cases hshape
  | otherwise => cases hshape

theorem Balanced.single {token : Token} (h : isPlain token = true) : Balanced .body [token] :=
  .plain h .nil

theorem LeavesOpen.append {ls more : List Lexeme} {scopes : List Scope} (h : LeavesOpen ls scopes)
    (nests : Balanced .body (more.map Lexeme.token)) : LeavesOpen (ls ++ more) scopes := by
  have extend {inner : List Lexeme} (balanced : Balanced .body (inner.map Lexeme.token)) :
      Balanced .body ((inner ++ more).map Lexeme.token) := by
    rw [List.map_append]
    exact balanced.append nests
  cases h with
  | nothing balanced => exact .nothing (extend balanced)
  | block outer balanced =>
    rw [List.append_assoc]
    exact .block outer (extend balanced)
  | conditional outer condition balanced =>
    rw [List.append_assoc]
    exact .conditional outer condition (extend balanced)
  | elseIf outer token condition balanced =>
    rw [List.append_assoc]
    exact .elseIf outer token condition (extend balanced)
  | otherwise outer token balanced =>
    rw [List.append_assoc]
    exact .otherwise outer token (extend balanced)

/-- What has been read of the branches of a conditional, up to where it may go on. -/
structure Branching (seenElse : Bool) (part : List Token) : Prop where
  endIf : Balanced .branches (part ++ [.endIf])
  elseIf : seenElse = false → ∀ condition rest, HasCondition condition →
    Balanced .branches rest → Balanced .branches (part ++ .elseIf condition :: rest)
  otherwise : seenElse = false → ∀ final, Balanced .body final →
    Balanced .branches (part ++ .otherwise :: (final ++ [.endIf]))

theorem Branching.first {inner : List Token} (h : Balanced .body inner) :
    Branching false inner where
  endIf := .last h
  elseIf _ _ _ condition rest := .elseIf condition h rest
  otherwise _ _ final := .otherwise h final

theorem Branching.next {part inner : List Token} {condition : String} (h : Branching false part)
    (readable : HasCondition condition) (balanced : Balanced .body inner) :
    Branching false (part ++ .elseIf condition :: inner) where
  endIf := by
    rw [List.append_assoc]
    exact h.elseIf rfl _ _ readable (.last balanced)
  elseIf _ further rest readable' balanced' := by
    rw [List.append_assoc]
    exact h.elseIf rfl _ _ readable (.elseIf readable' balanced balanced')
  otherwise _ final balanced' := by
    rw [List.append_assoc]
    exact h.elseIf rfl _ _ readable (.otherwise balanced balanced')

theorem Branching.last {part inner : List Token} (h : Branching false part)
    (balanced : Balanced .body inner) : Branching true (part ++ .otherwise :: inner) where
  endIf := by
    rw [List.append_assoc]
    exact h.otherwise rfl _ balanced
  elseIf seen := by cases seen
  otherwise seen := by cases seen

/-- A conditional that is open has been read up to one of its branches. -/
theorem LeavesOpen.branching {ls : List Lexeme} {scopes : List Scope} {position : Position}
    {marker : String} {seenElse : Bool}
    (h : LeavesOpen ls (.conditional position marker seenElse :: scopes)) :
    ∃ before condition part, ls = before ++ ⟨.ifCond condition, position, marker⟩ :: part ∧
      LeavesOpen before scopes ∧ HasCondition condition ∧
      Branching seenElse (part.map Lexeme.token) := by
  generalize hopen : Scope.conditional position marker seenElse :: scopes = opened at h
  induction h generalizing seenElse with
  | nothing => cases hopen
  | block => cases hopen
  | conditional outer readable balanced =>
    cases hopen
    exact ⟨_, _, _, rfl, outer, readable, .first balanced⟩
  | elseIf _ token readable balanced ih =>
    cases hopen
    obtain ⟨before, condition, part, rfl, outer, readable', branching⟩ := ih rfl
    refine ⟨before, condition, part ++ _ :: _, List.append_assoc .., outer, readable', ?_⟩
    rw [List.map_append, List.map_cons, token]
    exact branching.next readable balanced
  | otherwise _ token balanced ih =>
    cases hopen
    obtain ⟨before, condition, part, rfl, outer, readable', branching⟩ := ih rfl
    refine ⟨before, condition, part ++ _ :: _, List.append_assoc .., outer, readable', ?_⟩
    rw [List.map_append, List.map_cons, token]
    exact branching.last balanced

theorem LeavesOpen.closeConditional {ls : List Lexeme} {l : Lexeme} {scopes : List Scope}
    {position : Position} {marker : String} {seenElse : Bool}
    (h : LeavesOpen ls (.conditional position marker seenElse :: scopes))
    (token : l.token = .endIf) : LeavesOpen (ls ++ [l]) scopes := by
  obtain ⟨before, condition, part, rfl, outer, readable, branching⟩ := h.branching
  rw [List.append_assoc]
  apply outer.append
  have closed := Balanced.conditional readable branching.endIf .nil
  simpa [token] using closed

theorem LeavesOpen.closeBlock {ls : List Lexeme} {l : Lexeme} {scopes : List Scope}
    {name : String} {position : Position} {marker : String} {found : Option String}
    (h : LeavesOpen ls (.block name position marker :: scopes)) (token : l.token = .endBlock found)
    (named : found = none ∨ found = some name) : LeavesOpen (ls ++ [l]) scopes := by
  cases h with
  | block outer balanced =>
    rw [List.append_assoc]
    apply outer.append
    have closed := Balanced.block named balanced .nil
    simpa [token] using closed

/-- Whatever is open can be closed. -/
theorem LeavesOpen.viable {ls : List Lexeme} {scopes : List Scope} (h : LeavesOpen ls scopes) :
    Viable (ls.map Lexeme.token) := by
  induction scopes generalizing ls with
  | nil =>
    cases h with
    | nothing balanced => exact ⟨[], by rwa [List.append_nil]⟩
  | cons scope scopes ih =>
    have close : ∃ l : Lexeme, LeavesOpen (ls ++ [l]) scopes := by
      cases scope with
      | block name position marker =>
        exact ⟨⟨.endBlock none, position, ""⟩, h.closeBlock rfl (.inl rfl)⟩
      | conditional position marker seenElse =>
        exact ⟨⟨.endIf, position, ""⟩, h.closeConditional rfl⟩
    obtain ⟨l, closed⟩ := close
    obtain ⟨rest, balanced⟩ := ih closed
    refine ⟨l.token :: rest, ?_⟩
    simpa using balanced

/-! ## Reading leads to what is left open -/

inductive Fits : List Scope → Lexeme → List Scope → Prop
  | plain {scopes : List Scope} {l : Lexeme} : isPlain l.token = true → Fits scopes l scopes
  | beginBlock {scopes : List Scope} {l : Lexeme} {name : String} : l.token = .beginBlock name →
    Fits scopes l (.block name l.position l.raw :: scopes)
  | endBlock {outer : List Scope} {l : Lexeme} {name marker : String} {position : Position}
    {found : Option String} : l.token = .endBlock found → found = none ∨ found = some name →
    Fits (.block name position marker :: outer) l outer
  | ifCond {scopes : List Scope} {l : Lexeme} {condition : String} :
    l.token = .ifCond condition → HasCondition condition →
    Fits scopes l (.conditional l.position l.raw false :: scopes)
  | elseIf {outer : List Scope} {l : Lexeme} {condition marker : String} {position : Position} :
    l.token = .elseIf condition → HasCondition condition →
    Fits (.conditional position marker false :: outer) l
      (.conditional position marker false :: outer)
  | otherwise {outer : List Scope} {l : Lexeme} {marker : String} {position : Position} :
    l.token = .otherwise →
    Fits (.conditional position marker false :: outer) l
      (.conditional position marker true :: outer)
  | endIf {outer : List Scope} {l : Lexeme} {marker : String} {position : Position}
    {seenElse : Bool} : l.token = .endIf →
    Fits (.conditional position marker seenElse :: outer) l outer

theorem readCondition_ok_iff {l : Lexeme} {condition : String} {c : Condition} :
    readCondition l condition = .ok c ↔ Condition.parse condition = .ok c := by
  exact Except.mapError_eq_ok_iff

theorem ofLexeme_ok_iff {scopes after : List Scope} {l : Lexeme} :
    (∃ item, ofLexeme scopes l = .ok (item, after)) ↔ Fits scopes l after := by
  obtain ⟨token, position, raw⟩ := l
  constructor
  · rintro ⟨item, h⟩
    cases token with
    | text content => cases h; exact .plain rfl
    | var name => cases h; exact .plain rfl
    | inclusion name => cases h; exact .plain rfl
    | beginBlock name => cases h; exact .beginBlock rfl
    | endBlock found =>
      obtain ⟨outer, hclose, h⟩ := Except.bind_eq_ok_iff.1 h
      cases h
      obtain ⟨name, start, marker, rfl, named⟩ := closeBlock_ok_iff.1 hclose
      exact .endBlock rfl named
    | ifCond condition =>
      obtain ⟨c, hread, h⟩ := Except.bind_eq_ok_iff.1 h
      cases h
      exact .ifCond rfl ⟨c, readCondition_ok_iff.1 hread⟩
    | elseIf condition =>
      obtain ⟨between, hnext, h⟩ := Except.bind_eq_ok_iff.1 h
      obtain ⟨c, hread, h⟩ := Except.bind_eq_ok_iff.1 h
      cases h
      obtain ⟨start, marker, outer, rfl, rfl⟩ := nextBranch_ok hnext
      exact .elseIf rfl ⟨c, readCondition_ok_iff.1 hread⟩
    | otherwise =>
      obtain ⟨between, hnext, h⟩ := Except.bind_eq_ok_iff.1 h
      cases h
      obtain ⟨start, marker, outer, rfl, rfl⟩ := nextBranch_ok hnext
      exact .otherwise rfl
    | endIf =>
      obtain ⟨outer, hclose, h⟩ := Except.bind_eq_ok_iff.1 h
      cases h
      obtain ⟨start, marker, seenElse, rfl⟩ := closeConditional_ok hclose
      exact .endIf rfl
  · intro h
    cases h with
    | plain plain => cases token <;> first | exact ⟨_, rfl⟩ | cases plain
    | beginBlock same => cases same; exact ⟨_, rfl⟩
    | endBlock same named =>
      cases same
      exact ⟨.endBlock, Except.bind_eq_ok_iff.2
        ⟨after, closeBlock_ok_iff.2 ⟨_, _, _, rfl, named⟩, rfl⟩⟩
    | ifCond same readable =>
      cases same
      obtain ⟨c, hparse⟩ := readable
      exact ⟨.ifCond c, Except.bind_eq_ok_iff.2 ⟨c, readCondition_ok_iff.2 hparse, rfl⟩⟩
    | elseIf same readable =>
      cases same
      obtain ⟨c, hparse⟩ := readable
      exact ⟨.elseIf c, Except.bind_eq_ok_iff.2 ⟨_, rfl,
        Except.bind_eq_ok_iff.2 ⟨c, readCondition_ok_iff.2 hparse, rfl⟩⟩⟩
    | otherwise same => cases same; exact ⟨_, rfl⟩
    | endIf same => cases same; exact ⟨_, rfl⟩

inductive Leads : List Scope → List Lexeme → List Scope → Prop
  | nil {scopes : List Scope} : Leads scopes [] scopes
  | cons {scopes between after : List Scope} {l : Lexeme} {ls : List Lexeme} :
    Fits scopes l between → Leads between ls after → Leads scopes (l :: ls) after

theorem Leads.append {scopes between after : List Scope} {ls more : List Lexeme}
    (h : Leads scopes ls between) (h' : Leads between more after) :
    Leads scopes (ls ++ more) after := by
  induction h with
  | nil => exact h'
  | cons fits _ ih => exact .cons fits (ih h')

/-- One more lexeme that fits changes what is left open as it changes the open scopes. -/
theorem LeavesOpen.snoc {ls : List Lexeme} {l : Lexeme} {scopes after : List Scope}
    (h : LeavesOpen ls scopes) (fits : Fits scopes l after) : LeavesOpen (ls ++ [l]) after := by
  cases fits with
  | plain plain => exact h.append (.single plain)
  | beginBlock token =>
    obtain ⟨_, position, raw⟩ := l
    cases token
    exact .block h .nil
  | endBlock token named => exact h.closeBlock token named
  | ifCond token readable =>
    obtain ⟨_, position, raw⟩ := l
    cases token
    exact .conditional h readable .nil
  | elseIf token readable => exact .elseIf h token readable .nil
  | otherwise token => exact .otherwise h token .nil
  | endIf token => exact h.closeConditional token

theorem Leads.leavesOpen {before ls : List Lexeme} {scopes after : List Scope}
    (h : Leads scopes ls after) (opened : LeavesOpen before scopes) :
    LeavesOpen (before ++ ls) after := by
  induction h generalizing before with
  | nil => rwa [List.append_nil]
  | cons fits _ ih =>
    rw [List.append_cons]
    exact ih (opened.snoc fits)

/-- What reading does to the open scopes at the end of a text that nests. -/
def Passes : Shape → List Lexeme → Prop
  | .body, ls => ∀ scopes, Leads scopes ls scopes
  | .branches, ls => ∀ position marker outer,
      Leads (.conditional position marker false :: outer) ls outer

theorem Balanced.passes {shape : Shape} {tokens : List Token} (h : Balanced shape tokens)
    {ls : List Lexeme} (same : ls.map Lexeme.token = tokens) : Passes shape ls := by
  induction h generalizing ls with
  | nil =>
    cases List.map_eq_nil_iff.1 same
    exact fun _ => .nil
  | plain plain _ ih =>
    obtain ⟨l, ls, rfl, rfl, rest⟩ := List.map_eq_cons_iff.1 same
    exact fun scopes => .cons (.plain plain) (ih rest scopes)
  | block named _ _ ihInner ihRest =>
    obtain ⟨first, ls, rfl, opens, same⟩ := List.map_eq_cons_iff.1 same
    obtain ⟨inner, ls, rfl, inside, same⟩ := List.map_eq_append_iff.1 same
    obtain ⟨last, ls, rfl, closes, same⟩ := List.map_eq_cons_iff.1 same
    intro scopes
    exact .cons (.beginBlock opens)
      ((ihInner inside _).append (.cons (.endBlock closes named) (ihRest same scopes)))
  | conditional readable _ _ ihInner ihRest =>
    obtain ⟨first, ls, rfl, opens, same⟩ := List.map_eq_cons_iff.1 same
    obtain ⟨inner, ls, rfl, inside, same⟩ := List.map_eq_append_iff.1 same
    intro scopes
    exact .cons (.ifCond opens readable) ((ihInner inside _ _ _).append (ihRest same scopes))
  | last _ ih =>
    obtain ⟨inner, ls, rfl, inside, same⟩ := List.map_eq_append_iff.1 same
    obtain ⟨last, ls, rfl, closes, same⟩ := List.map_eq_cons_iff.1 same
    cases List.map_eq_nil_iff.1 same
    intro position marker outer
    exact (ih inside _).append (.cons (.endIf closes) .nil)
  | elseIf readable _ _ ihInner ihRest =>
    obtain ⟨inner, ls, rfl, inside, same⟩ := List.map_eq_append_iff.1 same
    obtain ⟨next, ls, rfl, goes, same⟩ := List.map_eq_cons_iff.1 same
    intro position marker outer
    exact (ihInner inside _).append (.cons (.elseIf goes readable) (ihRest same _ _ _))
  | otherwise _ _ ihInner ihFinal =>
    obtain ⟨inner, ls, rfl, inside, same⟩ := List.map_eq_append_iff.1 same
    obtain ⟨next, ls, rfl, goes, same⟩ := List.map_eq_cons_iff.1 same
    obtain ⟨final, ls, rfl, within, same⟩ := List.map_eq_append_iff.1 same
    obtain ⟨last, ls, rfl, closes, same⟩ := List.map_eq_cons_iff.1 same
    cases List.map_eq_nil_iff.1 same
    intro position marker outer
    exact (ihInner inside _).append
      (.cons (.otherwise goes) ((ihFinal within _).append (.cons (.endIf closes) .nil)))

theorem LeavesOpen.leads {ls : List Lexeme} {scopes : List Scope} (h : LeavesOpen ls scopes) :
    Leads [] ls scopes := by
  induction h with
  | nothing balanced => exact balanced.passes rfl []
  | block _ balanced ih => exact ih.append (.cons (.beginBlock rfl) (balanced.passes rfl _))
  | conditional _ readable balanced ih =>
    exact ih.append (.cons (.ifCond rfl readable) (balanced.passes rfl _))
  | elseIf _ token readable balanced ih =>
    exact ih.append (.cons (.elseIf token readable) (balanced.passes rfl _))
  | otherwise _ token balanced ih =>
    exact ih.append (.cons (.otherwise token) (balanced.passes rfl _))

/-- From the start of a template, lexemes lead to the scopes that they leave open. -/
theorem leads_iff_leavesOpen {ls : List Lexeme} {scopes : List Scope} :
    Leads [] ls scopes ↔ LeavesOpen ls scopes := by
  have start : LeavesOpen [] [] := .nothing .nil
  exact ⟨fun h => h.leavesOpen start, LeavesOpen.leads⟩

end Item

end Stencil
