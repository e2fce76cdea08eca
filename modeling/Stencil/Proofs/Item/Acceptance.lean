import Mathlib.Data.List.Forall2
import Stencil.Proofs.Item.Opening
import Stencil.Proofs.Token.Lines

/-! # Which templates are accepted

A template is accepted if its tokens nest, and its items are then its tokens one for one. Any other
template is rejected at the first token after which nothing can nest or, if there is none, at the
innermost scope that is left open.
-/

namespace Stencil.Item

def startsBranch : Token → Bool
  | .elseIf _ => true
  | .otherwise => true
  | _ => false

/-- The innermost scope is none of the sort that the token closes or continues. -/
inductive Misplaced : List Scope → Token → Prop
  | endBlock {scopes : List Scope} {found : Option String} :
    (∀ scope ∈ scopes.head?, scope.blockName? = none) → Misplaced scopes (.endBlock found)
  | branch {scopes : List Scope} {token : Token} : startsBranch token = true →
    (∀ scope ∈ scopes.head?, scope.blockName?.isSome) → Misplaced scopes token
  | endIf {scopes : List Scope} :
    (∀ scope ∈ scopes.head?, scope.blockName?.isSome) → Misplaced scopes .endIf

def unmatched : Token → SyntaxError.Kind
  | .endBlock _ => .unexpectedEndBlock
  | _ => .unexpectedConditional

inductive Misfit : List Scope → Token → SyntaxError.Kind → Prop
  | mismatched {outer : List Scope} {expected found marker : String} {position : Position} :
    found ≠ expected →
    Misfit (.block expected position marker :: outer) (.endBlock (some found))
      (.mismatchedEndBlock expected found)
  | afterElse {outer : List Scope} {token : Token} {marker : String} {position : Position} :
    startsBranch token = true →
    Misfit (.conditional position marker true :: outer) token .branchAfterElse
  | crosses {scopes : List Scope} {token : Token} {name : String} :
    Misplaced scopes token → Scope.enclosingBlock? scopes = some name →
    Misfit scopes token (.crossesBlock name)
  | unmatched {scopes : List Scope} {token : Token} :
    Misplaced scopes token → Scope.enclosingBlock? scopes = none →
    Misfit scopes token (unmatched token)
  | ifCond {scopes : List Scope} {condition : String} {reason : Condition.ParseError} :
    Condition.parse condition = .error reason →
    Misfit scopes (.ifCond condition) (.invalidCondition reason.message)
  | elseIf {outer : List Scope} {condition marker : String} {position : Position}
    {reason : Condition.ParseError} : Condition.parse condition = .error reason →
    Misfit (.conditional position marker false :: outer) (.elseIf condition)
      (.invalidCondition reason.message)

/-- What is wrong with lexemes that do not nest: the first one after which nothing can nest or, if
there is none, the innermost scope that is left open. -/
inductive FirstFault (ls : List Lexeme) : SyntaxError → Prop
  | misfit {before after : List Lexeme} {l : Lexeme} {scopes : List Scope}
    {kind : SyntaxError.Kind} : ls = before ++ l :: after →
    Viable (before.map Lexeme.token) → ¬Viable ((before ++ [l]).map Lexeme.token) →
    LeavesOpen before scopes → Misfit scopes l.token kind →
    FirstFault ls ⟨kind, l.position, l.raw, none⟩
  | unclosed {scope : Scope} {scopes : List Scope} :
    LeavesOpen ls (scope :: scopes) → FirstFault ls scope.unclosed

/-! ### A lexeme that does not fit -/

theorem misfit_of_misplaced {scopes : List Scope} {l : Lexeme} (h : Misplaced scopes l.token) :
    ∃ kind, Misfit scopes l.token kind ∧
      misplaced scopes l (unmatched l.token) = errorAt l kind := by
  unfold misplaced
  cases inside : Scope.enclosingBlock? scopes with
  | none => exact ⟨_, .unmatched h inside, rfl⟩
  | some name => exact ⟨_, .crosses h inside, rfl⟩

theorem misfit_of_closeBlock {scopes : List Scope} {l : Lexeme} {found : Option String}
    {e : SyntaxError} (token : l.token = .endBlock found)
    (h : closeBlock scopes l found = .error e) :
    ∃ kind, Misfit scopes l.token kind ∧ e = errorAt l kind := by
  unfold closeBlock at h
  split at h
  · cases found with
    | none => cases h
    | some name =>
      simp only at h
      split at h
      · cases h
      · next differs =>
        cases h
        rw [token]
        exact ⟨_, .mismatched differs, rfl⟩
  · next outside =>
    cases h
    have placed : Misplaced scopes l.token := by
      rw [token]
      refine .endBlock fun scope mem => ?_
      cases scope with
      | block name position marker =>
        obtain ⟨outer, rfl⟩ := List.head?_eq_some_iff.1 mem
        exact absurd rfl (outside name position marker outer)
      | conditional position marker seenElse => rfl
    obtain ⟨kind, misfit, same⟩ := misfit_of_misplaced placed
    rw [token] at same
    exact ⟨kind, misfit, same⟩

/-- Where the innermost scope is no conditional, it is a block if there is one. -/
theorem isSome_of_not_conditional {scopes : List Scope}
    (outside : ∀ position marker seenElse outer,
      scopes = .conditional position marker seenElse :: outer → False) :
    ∀ scope ∈ scopes.head?, scope.blockName?.isSome := by
  intro scope mem
  cases scope with
  | block name position marker => rfl
  | conditional position marker seenElse =>
    obtain ⟨outer, rfl⟩ := List.head?_eq_some_iff.1 mem
    exact (outside position marker seenElse outer rfl).elim

theorem misfit_of_nextBranch {scopes : List Scope} {l : Lexeme} {isLast : Bool} {e : SyntaxError}
    (starts : startsBranch l.token = true) (h : nextBranch scopes l isLast = .error e) :
    ∃ kind, Misfit scopes l.token kind ∧ e = errorAt l kind := by
  unfold nextBranch at h
  split at h
  · next position marker seenElse outer =>
    cases seenElse with
    | false => cases h
    | true =>
      cases h
      exact ⟨_, .afterElse starts, rfl⟩
  · next outside =>
    cases h
    obtain ⟨kind, misfit, same⟩ :=
      misfit_of_misplaced (.branch starts (isSome_of_not_conditional outside))
    have plain : unmatched l.token = .unexpectedConditional := by
      cases htoken : l.token <;> first | rfl | simp [htoken, startsBranch] at starts
    rw [plain] at same
    exact ⟨kind, misfit, same⟩

theorem misfit_of_closeConditional {scopes : List Scope} {l : Lexeme} {e : SyntaxError}
    (token : l.token = .endIf) (h : closeConditional scopes l = .error e) :
    ∃ kind, Misfit scopes l.token kind ∧ e = errorAt l kind := by
  unfold closeConditional at h
  split at h
  · cases h
  · next outside =>
    cases h
    have placed : Misplaced scopes l.token := by
      rw [token]
      exact .endIf (isSome_of_not_conditional outside)
    obtain ⟨kind, misfit, same⟩ := misfit_of_misplaced placed
    rw [token] at same
    exact ⟨kind, misfit, same⟩

theorem readCondition_error_iff {l : Lexeme} {condition : String} {e : SyntaxError} :
    readCondition l condition = .error e ↔ ∃ reason, Condition.parse condition = .error reason ∧
      e = errorAt l (.invalidCondition reason.message) := by
  rw [readCondition, Except.mapError_eq_error_iff]
  simp only [eq_comm]

theorem ofLexeme_of_misplaced {scopes : List Scope} {l : Lexeme} (h : Misplaced scopes l.token) :
    ofLexeme scopes l = .error (misplaced scopes l (unmatched l.token)) := by
  obtain ⟨token, position, raw⟩ := l
  cases h with
  | endBlock outside =>
    rcases scopes with _ | ⟨scope | scope, outer⟩
    · rfl
    · cases outside _ rfl
    · rfl
  | branch starts outside =>
    cases token <;> cases starts
    all_goals
      rcases scopes with _ | ⟨scope | scope, outer⟩
      · rfl
      · rfl
      · cases outside _ rfl
  | endIf outside =>
    rcases scopes with _ | ⟨scope | scope, outer⟩
    · rfl
    · rfl
    · cases outside _ rfl

/-- A lexeme is rejected for what is wrong with its token. -/
theorem ofLexeme_error_iff {scopes : List Scope} {l : Lexeme} {e : SyntaxError} :
    ofLexeme scopes l = .error e ↔ ∃ kind, Misfit scopes l.token kind ∧ e = errorAt l kind := by
  constructor
  · intro h
    obtain ⟨token, position, raw⟩ := l
    cases token with
    | text content => cases h
    | var name => cases h
    | inclusion name => cases h
    | beginBlock name => cases h
    | endBlock found =>
      obtain hclose | ⟨_, _, h⟩ := Except.bind_eq_error_iff.1 h
      · exact misfit_of_closeBlock rfl hclose
      · cases h
    | ifCond condition =>
      obtain hread | ⟨_, _, h⟩ := Except.bind_eq_error_iff.1 h
      · obtain ⟨reason, bad, rfl⟩ := readCondition_error_iff.1 hread
        exact ⟨_, .ifCond bad, rfl⟩
      · cases h
    | elseIf condition =>
      obtain hnext | ⟨_, hnext, h⟩ := Except.bind_eq_error_iff.1 h
      · exact misfit_of_nextBranch rfl hnext
      · obtain ⟨start, marker, outer, rfl, rfl⟩ := nextBranch_ok hnext
        obtain hread | ⟨_, _, h⟩ := Except.bind_eq_error_iff.1 h
        · obtain ⟨reason, bad, rfl⟩ := readCondition_error_iff.1 hread
          exact ⟨_, .elseIf bad, rfl⟩
        · cases h
    | otherwise =>
      obtain hnext | ⟨_, _, h⟩ := Except.bind_eq_error_iff.1 h
      · exact misfit_of_nextBranch rfl hnext
      · cases h
    | endIf =>
      obtain hclose | ⟨_, _, h⟩ := Except.bind_eq_error_iff.1 h
      · exact misfit_of_closeConditional rfl hclose
      · cases h
  · rintro ⟨kind, misfit, rfl⟩
    obtain ⟨token, position, raw⟩ := l
    cases misfit with
    | mismatched differs => simp [ofLexeme, closeBlock, differs, bind, Except.bind]
    | afterElse starts => cases token <;> cases starts <;> rfl
    | crosses placed inside => rw [ofLexeme_of_misplaced placed, misplaced, inside]; rfl
    | unmatched placed outside => rw [ofLexeme_of_misplaced placed, misplaced, outside]; rfl
    | ifCond bad =>
      exact Except.bind_eq_error_iff.2 (.inl (readCondition_error_iff.2 ⟨_, bad, rfl⟩))
    | elseIf bad =>
      refine Except.bind_eq_error_iff.2 (.inr ⟨_, rfl, ?_⟩)
      exact Except.bind_eq_error_iff.2 (.inl (readCondition_error_iff.2 ⟨_, bad, rfl⟩))

theorem item?_of_ofLexeme {scopes after : List Scope} {l : Lexeme} {item : Item}
    (h : ofLexeme scopes l = .ok (item, after)) : l.item? = some item := by
  obtain ⟨token, position, raw⟩ := l
  cases token with
  | text content => cases h; rfl
  | var name => cases h; rfl
  | inclusion name => cases h; rfl
  | beginBlock name => cases h; rfl
  | endBlock found =>
    obtain ⟨_, _, h⟩ := Except.bind_eq_ok_iff.1 h
    cases h
    rfl
  | ifCond condition =>
    obtain ⟨c, hread, h⟩ := Except.bind_eq_ok_iff.1 h
    cases h
    simp [Lexeme.item?, readCondition_ok_iff.1 hread, Except.toOption]
  | elseIf condition =>
    obtain ⟨_, _, h⟩ := Except.bind_eq_ok_iff.1 h
    obtain ⟨c, hread, h⟩ := Except.bind_eq_ok_iff.1 h
    cases h
    simp [Lexeme.item?, readCondition_ok_iff.1 hread, Except.toOption]
  | otherwise =>
    obtain ⟨_, _, h⟩ := Except.bind_eq_ok_iff.1 h
    cases h
    rfl
  | endIf =>
    obtain ⟨_, _, h⟩ := Except.bind_eq_ok_iff.1 h
    cases h
    rfl

/-! ### Lexemes one after another -/

theorem ofLexemes_ok_iff {scopes after : List Scope} {done : List Item} {ls : List Lexeme} :
    (∃ items, ofLexemes scopes done ls = .ok (items, after)) ↔ Leads scopes ls after := by
  induction ls generalizing scopes done with
  | nil =>
    constructor
    · rintro ⟨items, h⟩
      cases h
      exact .nil
    · rintro ⟨⟩
      exact ⟨_, rfl⟩
  | cons l ls ih =>
    rw [ofLexemes]
    cases hl : ofLexeme scopes l with
    | error e =>
      simp only [reduceCtorEq, exists_false, false_iff]
      rintro (_ | ⟨fits, _⟩)
      obtain ⟨item, accepted⟩ := ofLexeme_ok_iff.2 fits
      simp [hl] at accepted
    | ok pair =>
      obtain ⟨item, between⟩ := pair
      simp only [ih]
      constructor
      · exact .cons (ofLexeme_ok_iff.1 ⟨item, hl⟩)
      · rintro (_ | ⟨fits, onward⟩)
        obtain ⟨item', accepted⟩ := ofLexeme_ok_iff.2 fits
        simp only [hl, Except.ok.injEq, Prod.mk.injEq] at accepted
        exact accepted.2 ▸ onward

theorem ofLexemes_error_iff {scopes : List Scope} {done : List Item} {ls : List Lexeme}
    {e : SyntaxError} : ofLexemes scopes done ls = .error e ↔ ∃ before l after between,
      ls = before ++ l :: after ∧ Leads scopes before between ∧ ofLexeme between l = .error e := by
  induction ls generalizing scopes done with
  | nil => simp [ofLexemes]
  | cons l ls ih =>
    rw [ofLexemes]
    constructor
    · intro h
      cases hl : ofLexeme scopes l with
      | error e' =>
        simp only [hl, Except.error.injEq] at h
        exact ⟨[], l, ls, scopes, rfl, .nil, h ▸ hl⟩
      | ok pair =>
        obtain ⟨item, between⟩ := pair
        simp only [hl] at h
        obtain ⟨before, l', after, reached, rfl, leads, wrong⟩ := ih.1 h
        exact ⟨l :: before, l', after, reached, rfl,
          .cons (ofLexeme_ok_iff.1 ⟨item, hl⟩) leads, wrong⟩
    · rintro ⟨before, l', after, reached, same, leads, wrong⟩
      cases leads with
      | nil =>
        cases same
        simp [wrong]
      | cons fits onward =>
        cases same
        obtain ⟨item, accepted⟩ := ofLexeme_ok_iff.2 fits
        simp only [accepted]
        exact ih.2 ⟨_, _, _, _, rfl, onward, wrong⟩

theorem item?_of_ofLexemes {scopes after : List Scope} {done items : List Item}
    {ls : List Lexeme} (h : ofLexemes scopes done ls = .ok (items, after)) :
    items.map some = done.reverse.map some ++ ls.map Lexeme.item? := by
  induction ls generalizing scopes done with
  | nil =>
    cases h
    simp
  | cons l ls ih =>
    cases hl : ofLexeme scopes l with
    | error e => simp [ofLexemes, hl] at h
    | ok pair =>
      obtain ⟨item, between⟩ := pair
      simp only [ofLexemes, hl] at h
      rw [ih h, List.map_cons, item?_of_ofLexeme hl]
      simp

/-- From the start of a template, lexemes nest if they lead back to no open scope. -/
theorem balanced_iff_leads {ls : List Lexeme} :
    Balanced .body (ls.map Lexeme.token) ↔ Leads [] ls [] := by
  rw [leads_iff_leavesOpen]
  constructor
  · exact .nothing
  · rintro ⟨⟩
    assumption

/-- Nothing can nest after a lexeme that is rejected. -/
theorem not_viable_of_error {before : List Lexeme} {l : Lexeme} {scopes : List Scope}
    {e : SyntaxError} (leads : Leads [] before scopes) (wrong : ofLexeme scopes l = .error e) :
    ¬Viable ((before ++ [l]).map Lexeme.token) := by
  rintro ⟨rest, balanced⟩
  -- Any lexemes with the tokens of the continuation will do.
  let further : List Lexeme := rest.map fun token => ⟨token, l.position, ""⟩
  have tokens : (before ++ l :: further).map Lexeme.token =
      (before ++ [l]).map Lexeme.token ++ rest := by
    simp [further, Function.comp_def]
  rw [← tokens, balanced_iff_leads] at balanced
  have accepted : ∃ items, ofLexemes [] [] (before ++ l :: further) = .ok (items, []) :=
    ofLexemes_ok_iff.2 balanced
  rw [ofLexemes_error_iff.2 ⟨before, l, further, scopes, rfl, leads, wrong⟩] at accepted
  simp at accepted

/-- Lexemes are rejected for their first fault. -/
theorem firstFault_iff {ls : List Lexeme} {e : SyntaxError} :
    FirstFault ls e ↔ ofLexemes [] [] ls = .error e ∨
      ∃ items scope scopes, ofLexemes [] [] ls = .ok (items, scope :: scopes) ∧
        e = scope.unclosed := by
  constructor
  · rintro (⟨same, -, -, opened, misfit⟩ | opened)
    · exact .inl (ofLexemes_error_iff.2
        ⟨_, _, _, _, same, opened.leads, ofLexeme_error_iff.2 ⟨_, misfit, rfl⟩⟩)
    · obtain ⟨items, accepted⟩ := ofLexemes_ok_iff.2 opened.leads
      exact .inr ⟨items, _, _, accepted, rfl⟩
  · rintro (wrong | ⟨items, scope, scopes, accepted, rfl⟩)
    · obtain ⟨before, l, after, scopes, same, leads, rejected⟩ := ofLexemes_error_iff.1 wrong
      obtain ⟨kind, misfit, rfl⟩ := ofLexeme_error_iff.1 rejected
      have opened := leads_iff_leavesOpen.1 leads
      exact .misfit same opened.viable (not_viable_of_error leads rejected) opened misfit
    · exact .unclosed (leads_iff_leavesOpen.1 (ofLexemes_ok_iff.1 ⟨items, accepted⟩))

/-- A template is rejected for the first fault of the lexemes that are delivered, or else for what
stops their delivery. -/
theorem fault_of_ofText {trim : Bool} {text : String} {e : SyntaxError}
    (h : ofText trim text = .error e) :
    FirstFault (Tokenizer.ofText trim text).drain.1 e ∨
      (Tokenizer.ofText trim text).drain.2 = some e := by
  rcases drained : (Tokenizer.ofText trim text).drain with ⟨ls, stopped⟩
  simp only [ofText, drained] at h
  rcases read : ofLexemes [] [] ls with wrong | ⟨items, scopes⟩
  · simp only [read, Except.error.injEq] at h
    exact .inl (firstFault_iff.2 (.inl (h ▸ read)))
  · rcases stopped with none | stop
    · rcases scopes with nil | ⟨scope, outer⟩
      · simp [read] at h
      · simp only [read, Except.error.injEq] at h
        exact .inl (firstFault_iff.2 (.inr ⟨items, scope, outer, read, h.symm⟩))
    · simp only [read, Except.error.injEq] at h
      exact .inr (congrArg some h)

theorem ofText_of_drain {trim : Bool} {text : String} {ls : List Lexeme}
    (lexes : (Tokenizer.ofText trim text).drain = (ls, none)) :
    ofText trim text = match ofLexemes [] [] ls with
      | .error e => .error e
      | .ok (items, []) => .ok items
      | .ok (_, scope :: _) => .error scope.unclosed := by
  simp only [ofText, lexes]
  rcases ofLexemes [] [] ls with e | ⟨items, _ | ⟨scope, scopes⟩⟩ <;> rfl

section

variable {trim : Bool} {text : String} {ls : List Lexeme}

/-- A template whose lines can be read is accepted if its tokens nest. -/
theorem exists_ofText_iff (lexes : (Tokenizer.ofText trim text).drain = (ls, none)) :
    (∃ items, ofText trim text = .ok items) ↔ Balanced .body (ls.map Lexeme.token) := by
  rw [ofText_of_drain lexes, balanced_iff_leads, ← ofLexemes_ok_iff]
  rcases ofLexemes [] [] ls with e | ⟨items, _ | ⟨scope, scopes⟩⟩ <;> simp

/-- The items of an accepted template are its tokens one for one. -/
theorem item?_of_ofText (lexes : (Tokenizer.ofText trim text).drain = (ls, none))
    {items : List Item} (h : ofText trim text = .ok items) :
    items.map some = ls.map Lexeme.item? := by
  rw [ofText_of_drain lexes] at h
  split at h <;> try cases h
  next read => exact item?_of_ofLexemes read

/-- A template whose lines can be read is rejected for its first fault. -/
theorem ofText_error_iff (lexes : (Tokenizer.ofText trim text).drain = (ls, none))
    {e : SyntaxError} : ofText trim text = .error e ↔ FirstFault ls e := by
  rw [ofText_of_drain lexes, firstFault_iff]
  rcases ofLexemes [] [] ls with e' | ⟨items, _ | ⟨scope, scopes⟩⟩
  · simp
  · simp
  · simp only [Except.error.injEq, reduceCtorEq, Except.ok.injEq, Prod.mk.injEq, List.cons.injEq,
      false_or]
    constructor
    · rintro rfl
      exact ⟨_, _, _, ⟨rfl, rfl, rfl⟩, rfl⟩
    · rintro ⟨_, _, _, ⟨rfl, rfl, rfl⟩, rfl⟩
      rfl

end

/-- A template whose lines can be read is accepted if its tokens nest, with its tokens one for one
as items, and rejected for its first fault if they do not. -/
theorem ofText_accepts_balanced {trim : Bool} {text : String} {ls : List Lexeme}
    (lexes : (Tokenizer.ofText trim text).drain = (ls, none)) :
    ((∃ items, ofText trim text = .ok items) ↔ Balanced .body (ls.map Lexeme.token)) ∧
      (∀ items, ofText trim text = .ok items → items.map some = ls.map Lexeme.item?) ∧
      ∀ e, ofText trim text = .error e ↔ FirstFault ls e :=
  ⟨exists_ofText_iff lexes, fun _ => item?_of_ofText lexes, fun _ => ofText_error_iff lexes⟩

theorem ofText_crossing :
    ∃ ls, (Tokenizer.ofText true "[beginblock:row][if:x][endblock:row]").drain = (ls, none) ∧
      ((∃ items, ofText true "[beginblock:row][if:x][endblock:row]" = .ok items) ↔
        Balanced .body (ls.map Lexeme.token)) ∧
      (∀ items, ofText true "[beginblock:row][if:x][endblock:row]" = .ok items →
        items.map some = ls.map Lexeme.item?) ∧
      ∀ e, ofText true "[beginblock:row][if:x][endblock:row]" = .error e ↔ FirstFault ls e := by
  have lexes : (Tokenizer.ofText true "[beginblock:row][if:x][endblock:row]").drain =
      ([⟨.beginBlock "row", ⟨1, 1⟩, "[beginblock:row]"⟩, ⟨.ifCond "x", ⟨1, 17⟩, "[if:x]"⟩,
        ⟨.endBlock (some "row"), ⟨1, 23⟩, "[endblock:row]"⟩], none) :=
    (Tokenizer.drain_ofText ..).trans rfl
  exact ⟨_, lexes, ofText_accepts_balanced lexes⟩

/-! ## What reading a template as items keeps

The names in the items of a template are names, and an error in its text names no subtemplate.
-/

/-- An error in the text of a template names no subtemplate. -/
theorem origin_of_ofText {trim : Bool} {text : String} {e : SyntaxError}
    (h : ofText trim text = .error e) : e.origin = none := by
  rcases fault_of_ofText h with fault | stopped
  · cases fault with
    | misfit => rfl
    | @unclosed scope => cases scope <;> rfl
  · exact Tokenizer.origin_of_drain stopped

theorem exists_drain_of_ofText {trim : Bool} {text : String} {items : List Item}
    (h : ofText trim text = .ok items) :
    ∃ ls, (Tokenizer.ofText trim text).drain = (ls, none) := by
  rcases hdrain : (Tokenizer.ofText trim text).drain with ⟨ls, _ | e⟩
  · exact ⟨ls, rfl⟩
  · simp only [ofText, hdrain] at h
    cases hread : ofLexemes [] [] ls <;> simp [hread] at h

/-- Every item of an accepted template is that of a lexeme. -/
theorem exists_lexeme_of_mem {trim : Bool} {text : String} {items : List Item}
    (h : ofText trim text = .ok items) {item : Item} (mem : item ∈ items) :
    ∃ l ∈ (Tokenizer.ofText trim text).drain.1, l.item? = some item := by
  obtain ⟨ls, lexes⟩ := exists_drain_of_ofText h
  have there : some item ∈ ls.map Lexeme.item? := by
    rw [← item?_of_ofText lexes h]
    exact List.mem_map_of_mem mem
  obtain ⟨l, mem, same⟩ := List.mem_map.1 there
  exact ⟨l, by rwa [lexes], same⟩

/-! ### Names -/

def Named : Item → Prop
  | .var name => Name.isValid name.toList = true
  | .beginBlock name _ => Name.isValid name.toList = true
  | _ => True

theorem named_of_item? {l : Lexeme} {item : Item} (h : l.item? = some item)
    (named : l.token.Named) : item.Named := by
  obtain ⟨token, position, raw⟩ := l
  cases token with
  | var name => cases h; exact named
  | beginBlock name => cases h; exact named
  | ifCond condition =>
    obtain ⟨_, _, rfl⟩ := Option.map_eq_some_iff.1 h
    trivial
  | elseIf condition =>
    obtain ⟨_, _, rfl⟩ := Option.map_eq_some_iff.1 h
    trivial
  | _ => cases h; trivial

theorem named_of_ofText {trim : Bool} {text : String} {items : List Item}
    (h : ofText trim text = .ok items) : ∀ item ∈ items, item.Named := by
  intro item mem
  obtain ⟨l, delivered, same⟩ := exists_lexeme_of_mem h mem
  exact named_of_item? same (Tokenizer.named_drain trim text l delivered)

/-- The items of a text from its lexemes. On a given text the premises hold by evaluation, but for
those conditions that have to be parsed. -/
theorem ofText_of_drainWithin {trim : Bool} {text : String} {found : List Lexeme}
    {items : List Item}
    (lexemes : Tokenizer.drainWithin trim text.toList.length 1 text.toList = (found, none))
    (nested : ofLexemes [] [] found = .ok (items, [])) : ofText trim text = .ok items := by
  rw [ofText, Tokenizer.drain_ofText, lexemes]
  simp only [nested]

end Stencil.Item

/-! ## Items without their places

An item carries the place and the text of its marker only for the errors that can still be found.
What is left without them depends on the tokens of a template alone, so the items of a text made of
two are those of the one and then those of the other.
-/

namespace Stencil

namespace Item

def bare : Item → Item
  | .beginBlock name _ => .beginBlock name ⟨0, 0⟩
  | .inclusion name _ _ => .inclusion name ⟨0, 0⟩ ""
  | item => item

/-- Items that do the same, wherever they stand. -/
inductive Alike : Item → Item → Prop
  | bare {item item' : Item} : item.bare = item'.bare → Alike item item'
  | ifCond {c c' : Condition} : (∀ flags, c'.eval flags = c.eval flags) →
    Alike (.ifCond c) (.ifCond c')
  | elseIf {c c' : Condition} : (∀ flags, c'.eval flags = c.eval flags) →
    Alike (.elseIf c) (.elseIf c')

theorem forall₂_alike_of_bare {items items' : List Item}
    (same : items.map bare = items'.map bare) : List.Forall₂ Alike items items' := by
  have each : List.Forall₂ (· = ·) (items.map bare) (items'.map bare) := by
    rw [List.forall₂_eq_eq_eq, same]
  rw [List.forall₂_map_left_iff, List.forall₂_map_right_iff] at each
  exact each.imp fun _ _ => .bare

namespace Tree

def bare : {part : Part} → Tree part → Tree part
  | _, nil => nil
  | _, text content rest => text content rest.bare
  | _, var name rest => var name rest.bare
  | _, inclusion name _ _ rest => inclusion name ⟨0, 0⟩ "" rest.bare
  | _, block name _ inner rest => block name ⟨0, 0⟩ inner.bare rest.bare
  | _, conditional condition first others rest =>
    conditional condition first.bare others.bare rest.bare
  | _, endIf => endIf
  | _, otherwise last => otherwise last.bare
  | _, elseIf condition branch others => elseIf condition branch.bare others.bare

theorem items_bare {part : Part} (tree : Tree part) :
    tree.bare.items = tree.items.map Item.bare := by
  induction tree <;> simp_all [bare, items, Item.bare]

/-- Trees with the same items are the same. -/
theorem eq_of_items_eq {tree other : Tree .body} (h : tree.items = other.items) : tree = other :=
  Option.some.inj ((ofItems?_items tree).symm.trans (h ▸ ofItems?_items other))

theorem bare_eq_of_items {tree other : Tree .body}
    (h : tree.items.map Item.bare = other.items.map Item.bare) : tree.bare = other.bare :=
  eq_of_items_eq (by rw [items_bare, items_bare, h])

end Tree

/-- Without its place, the item of a lexeme is that of its token. -/
theorem bare_item? {l l' : Lexeme} (h : l.token = l'.token) :
    l.item?.map bare = l'.item?.map bare := by
  unfold Lexeme.item?
  rw [h]
  cases l'.token <;> rfl

theorem bare_items_down (lines : Nat) (ls : List Lexeme) :
    (ls.map (Lexeme.down lines)).map (fun l => l.item?.map bare) =
      ls.map fun l => l.item?.map bare := by
  rw [List.map_map]
  exact List.map_congr_left fun l _ => bare_item? rfl

/-- The items of an accepted template, without their places. -/
theorem bare_of_ofText {trim : Bool} {text : String} {items : List Item} {ls : List Lexeme}
    (lexes : (Tokenizer.ofText trim text).drain = (ls, none)) (h : ofText trim text = .ok items) :
    (items.map bare).map some = ls.map fun l => l.item?.map bare := by
  have mapped := congrArg (List.map (Option.map bare)) (item?_of_ofText lexes h)
  simpa [Function.comp_def] using mapped

/-- A text of whole lines and a text after it are accepted together if each is. -/
theorem ofText_append {trim : Bool} {first second : String} (complete : Line.Complete first.toList)
    {items others : List Item} (h : ofText trim first = .ok items)
    (h' : ofText trim second = .ok others) :
    ∃ both, ofText trim (first ++ second) = .ok both ∧
      both.map bare = items.map bare ++ others.map bare := by
  obtain ⟨ls, lexes⟩ := exists_drain_of_ofText h
  obtain ⟨ls', lexes'⟩ := exists_drain_of_ofText h'
  have whole : (Tokenizer.ofText trim (first ++ second)).drain =
      (ls ++ ls'.map (Lexeme.down (first.toList.count '\n')), none) := by
    rw [Tokenizer.drain_ofText_append trim complete, lexes, lexes']
    rfl
  have nests := ((exists_ofText_iff lexes).1 ⟨items, h⟩).append
    ((exists_ofText_iff lexes').1 ⟨others, h'⟩)
  rw [← Lexeme.token_down (first.toList.count '\n') ls', ← List.map_append,
    ← exists_ofText_iff whole] at nests
  obtain ⟨both, accepted⟩ := nests
  refine ⟨both, accepted, ?_⟩
  have read := bare_of_ofText whole accepted
  rw [List.map_append, bare_items_down, ← bare_of_ofText lexes h, ← bare_of_ofText lexes' h',
    ← List.map_append] at read
  exact List.map_injective_iff.2 (fun _ _ => Option.some.inj) read

end Item

/-! ## Reading does not count includes

How deep includes nest is found out in expanding a template. No error in reading a text, be it at a
marker or in how the markers nest, is about it. Main statement: `isTooDeep_of_ofText`.
-/

def SyntaxError.Kind.isTooDeep : Kind → Bool
  | .includeTooDeep _ => true
  | _ => false

namespace Token

theorem Keyword.isTooDeep_of_token {keyword : Keyword} {argument : List Char}
    {kind : SyntaxError.Kind} (h : keyword.token argument = .error kind) :
    kind.isTooDeep = false := by
  have named {f : String → Token} (h : (blockName argument).map f = .error kind) :
      kind.isTooDeep = false := by
    rw [Except.map_eq_error_iff, blockName] at h
    split at h <;> cases h
    rfl
  unfold Keyword.token at h
  split at h
  case h_5 => exact named h
  case h_6 => exact named h
  all_goals cases h
  all_goals rfl

theorem isTooDeep_of_readMarker? {cs : List Char} {fault : Fault}
    (h : readMarker? cs = .error fault) : fault.kind.isTooDeep = false := by
  unfold readMarker? at h
  simp only at h
  split at h
  · cases h
  · split at h
    · split at h
      · cases h
      · next wrong =>
        cases h
        exact Keyword.isTooDeep_of_token wrong
    · split at h
      · cases h
        rfl
      · split at h
        · cases h
        · next wrong =>
          cases h
          exact Keyword.isTooDeep_of_token wrong
    · cases h

theorem Element.isTooDeep_of_read {c : Char} {cs : List Char} {fault : Fault}
    (h : Element.read c cs = .error fault) : fault.kind.isTooDeep = false := by
  unfold Element.read at h
  split at h
  · split at h
    · cases h
    · split at h <;> cases h
  · split at h
    · split at h <;> cases h
    · split at h
      · split at h
        · next read =>
          cases h
          exact isTooDeep_of_readMarker? read
        · cases h
        · cases h
      · cases h

end Token

theorem SyntaxError.IsFault.isTooDeep {e : SyntaxError} (h : e.IsFault) :
    e.kind.isTooDeep = false := by
  obtain ⟨c, cs, fault, wrong, same⟩ := h
  rw [same]
  exact Token.Element.isTooDeep_of_read wrong

namespace Item

theorem isTooDeep_of_misfit {scopes : List Scope} {token : Token} {kind : SyntaxError.Kind}
    (h : Misfit scopes token kind) : kind.isTooDeep = false := by
  cases h with
  | unmatched => cases token <;> rfl
  | _ => rfl

/-- The error of a text that cannot be read is not about includes. -/
theorem isTooDeep_of_ofText {trim : Bool} {text : String} {e : SyntaxError}
    (h : ofText trim text = .error e) : e.kind.isTooDeep = false := by
  rcases fault_of_ofText h with fault | stopped
  · cases fault with
    | misfit _ _ _ _ misfit => exact isTooDeep_of_misfit misfit
    | @unclosed scope => cases scope <;> rfl
  · exact (Tokenizer.isFault_of_drain stopped).isTooDeep

end Item

end Stencil
