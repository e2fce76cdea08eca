import Stencil.Proofs.Outline.Loop
import Stencil.Proofs.Token.Respelling

/-! # Compiling other spellings

However its markers are spelled, a template compiles to the same model.
-/

/-! ## Items of respelled markers

Where the markers of a template nest, they also nest if they are respelled. The items stay the same
but for their places, and but for conditions that hold with the same flags. Main statement:
`exists_ofText_of_respells`.
-/

namespace Stencil.Item

namespace Scope

/-- Scopes that are the same but for the places and the texts of their markers. -/
inductive Alike : Scope → Scope → Prop
  | block {name marker marker' : String} {position position' : Position} :
    Alike (block name position marker) (block name position' marker')
  | conditional {marker marker' : String} {position position' : Position} {seenElse : Bool} :
    Alike (conditional position marker seenElse) (conditional position' marker' seenElse)

def names (scopes : List Scope) : List String :=
  scopes.filterMap blockName?

end Scope

/-! ### A respelled lexeme -/

variable {scopes scopes' after : List Scope} {l l' : Lexeme}

theorem hasCondition_of_respelled {condition other : String}
    (respelled : Condition.Respelled condition other) (h : HasCondition condition) :
    HasCondition other := by
  obtain ⟨c, read⟩ := h
  obtain ⟨c', read', -⟩ := Condition.parse_of_respelled respelled read
  exact ⟨c', read'⟩

/-- A lexeme fits where another one fits that has the same token. -/
theorem Fits.of_token_eq (h : Fits scopes l after) (token : l'.token = l.token)
    (alike : List.Forall₂ Scope.Alike scopes scopes') :
    ∃ after', Fits scopes' l' after' ∧ List.Forall₂ Scope.Alike after after' := by
  cases h with
  | plain plain => exact ⟨scopes', .plain (token ▸ plain), alike⟩
  | beginBlock opens => exact ⟨_, .beginBlock (token.trans opens), .cons .block alike⟩
  | endBlock closes named =>
    cases alike with
    | cons scope outer =>
      cases scope
      exact ⟨_, .endBlock (token.trans closes) named, outer⟩
  | ifCond opens readable =>
    exact ⟨_, .ifCond (token.trans opens) readable, .cons .conditional alike⟩
  | elseIf goes readable =>
    cases alike with
    | cons scope outer =>
      cases scope
      exact ⟨_, .elseIf (token.trans goes) readable, .cons .conditional outer⟩
  | otherwise goes =>
    cases alike with
    | cons scope outer =>
      cases scope
      exact ⟨_, .otherwise (token.trans goes), .cons .conditional outer⟩
  | endIf closes =>
    cases alike with
    | cons scope outer =>
      cases scope
      exact ⟨_, .endIf (token.trans closes), outer⟩

/-- A lexeme changes the names of the blocks that are open as its token does. -/
theorem Fits.names_eq (h : Fits scopes l after) :
    Scope.names after = l.openAfter (Scope.names scopes) := by
  obtain ⟨token, position, raw⟩ := l
  cases h with
  | plain plain => cases token <;> first | rfl | cases plain
  | beginBlock same => cases same; rfl
  | endBlock same => cases same; rfl
  | ifCond same => cases same; rfl
  | elseIf same => cases same; rfl
  | otherwise same => cases same; rfl
  | endIf same => cases same; rfl

/-- A lexeme that is respelled fits where it fitted before. -/
theorem Fits.of_respelled (h : Fits scopes l after)
    (respelled : l.Respelled (Scope.names scopes) l')
    (alike : List.Forall₂ Scope.Alike scopes scopes') :
    ∃ after', Fits scopes' l' after' ∧ List.Forall₂ Scope.Alike after after' := by
  obtain ⟨token, position, raw⟩ := l
  obtain ⟨token', position', raw'⟩ := l'
  cases respelled with
  | refl => exact h.of_token_eq rfl alike
  | ifCond same =>
    cases h with
    | plain plain => cases plain
    | ifCond opens readable =>
      cases opens
      exact ⟨_, .ifCond rfl (hasCondition_of_respelled same readable), .cons .conditional alike⟩
    | _ => contradiction
  | elseIf same =>
    cases h with
    | plain plain => cases plain
    | elseIf goes readable =>
      cases goes
      cases alike with
      | cons scope outer =>
        cases scope
        exact ⟨_, .elseIf rfl (hasCondition_of_respelled same readable), .cons .conditional outer⟩
    | _ => contradiction
  | unnamed =>
    cases h with
    | plain plain => cases plain
    | endBlock closes _ =>
      cases alike with
      | cons scope outer =>
        cases scope
        exact ⟨_, .endBlock rfl (.inl rfl), outer⟩
    | _ => contradiction
  | named innermost =>
    cases h with
    | plain plain => cases plain
    | endBlock closes _ =>
      cases alike with
      | cons scope outer =>
        cases scope
        exact ⟨_, .endBlock rfl (.inr innermost.symm), outer⟩
    | _ => contradiction

/-- What a condition that can be read makes of an item, another spelling of it makes as well. -/
theorem exists_condition_of_respelled {condition other : String} {make : Condition → Item}
    (respelled : Condition.Respelled condition other) {item : Item}
    (h : (Condition.parse condition).toOption.map make = some item) :
    ∃ c c', item = make c ∧ (Condition.parse other).toOption.map make = some (make c') ∧
      ∀ flags, c'.eval flags = c.eval flags := by
  cases read : Condition.parse condition with
  | error e => simp [read, Except.toOption] at h
  | ok c =>
    obtain ⟨c', read', same⟩ := Condition.parse_of_respelled respelled read
    rw [read] at h
    rw [read']
    exact ⟨c, c', (Option.some.inj h).symm, rfl, same⟩

/-- The items of a lexeme and of its respelling are alike. -/
theorem exists_item?_of_respelled {names : List String} (respelled : l.Respelled names l')
    {item : Item} (h : l.item? = some item) :
    ∃ item', l'.item? = some item' ∧ Alike item item' := by
  obtain ⟨token, position, raw⟩ := l
  obtain ⟨token', position', raw'⟩ := l'
  cases respelled with
  | refl =>
    have same := @bare_item? ⟨token, position, raw⟩ ⟨token, position', raw'⟩ rfl
    rw [h, Option.map_some, eq_comm, Option.map_eq_some_iff] at same
    obtain ⟨item', found, same⟩ := same
    exact ⟨item', found, .bare same.symm⟩
  | ifCond spelled =>
    obtain ⟨c, c', rfl, found, same⟩ := exists_condition_of_respelled spelled h
    exact ⟨_, found, .ifCond same⟩
  | elseIf spelled =>
    obtain ⟨c, c', rfl, found, same⟩ := exists_condition_of_respelled spelled h
    exact ⟨_, found, .elseIf same⟩
  | unnamed | named =>
    cases h
    exact ⟨_, rfl, .bare rfl⟩

/-! ### Respelled lexemes -/

theorem Leads.of_respelled {ls ls' : List Lexeme} (h : Leads scopes ls after)
    (respelled : Along Lexeme.openAfter Lexeme.Respelled (Scope.names scopes) ls ls')
    (alike : List.Forall₂ Scope.Alike scopes scopes') :
    ∃ after', Leads scopes' ls' after' ∧ List.Forall₂ Scope.Alike after after' := by
  induction h generalizing scopes' ls' with
  | nil =>
    cases respelled
    exact ⟨scopes', .nil, alike⟩
  | cons fits _ ih =>
    cases respelled with
    | cons here onward =>
      obtain ⟨between', fits', alike⟩ := fits.of_respelled here alike
      rw [← fits.names_eq] at onward
      obtain ⟨after', leads, alike⟩ := ih onward alike
      exact ⟨after', .cons fits' leads, alike⟩

theorem forall₂_items {names : List String} {ls ls' : List Lexeme}
    (respelled : Along Lexeme.openAfter Lexeme.Respelled names ls ls') {items items' : List Item}
    (h : items.map some = ls.map Lexeme.item?) (h' : items'.map some = ls'.map Lexeme.item?) :
    List.Forall₂ Alike items items' := by
  induction respelled generalizing items items' with
  | nil =>
    cases List.map_eq_nil_iff.1 h
    cases List.map_eq_nil_iff.1 h'
    exact .nil
  | cons here _ ih =>
    obtain ⟨item, items, rfl, first, rest⟩ := List.map_eq_cons_iff.1 h
    obtain ⟨item', items', rfl, first', rest'⟩ := List.map_eq_cons_iff.1 h'
    obtain ⟨_, found, alike⟩ := exists_item?_of_respelled here first.symm
    cases first'.trans found
    exact .cons alike (ih rest rest')

/-- If a template is accepted, so is the template with its markers respelled, and the items of the
two are alike. -/
theorem exists_ofText_of_respells {source other : String}
    (respells : Token.Respells [] source.toList other.toList) {trim : Bool} {items : List Item}
    (h : ofText trim source = .ok items) :
    ∃ items', ofText trim other = .ok items' ∧ List.Forall₂ Alike items items' := by
  obtain ⟨ls, ls', lexes, lexes', respelled⟩ := Tokenizer.exists_drain_of_respells respells trim
  have nests := balanced_iff_leads.1 ((exists_ofText_iff lexes).1 ⟨items, h⟩)
  obtain ⟨after, leads, alike⟩ := nests.of_respelled respelled .nil
  cases alike
  obtain ⟨items', accepted⟩ := (exists_ofText_iff lexes').2 (balanced_iff_leads.2 leads)
  exact ⟨items', accepted,
    forall₂_items respelled (item?_of_ofText lexes h) (item?_of_ofText lexes' accepted)⟩

end Stencil.Item

/-! ## Models of respelled markers

The items of respelled markers are expanded alike, so the spelling of the markers of a template has
no part in the model that it compiles to. Main statement: `compile_of_respells`.
-/

namespace Stencil

/-- The spelling of markers does not matter. A template that compiles is a respelling of itself, so
each of its markers is written in one of the ways there are; and with any of its markers respelled
it compiles to the same model. -/
theorem compile_of_respells {source : String} {flags : FlagSet} {options : Options}
    {loader : Option Loader} {m : Model} (compiled : compile source flags options loader = .ok m) :
    Token.Respells [] source.toList source.toList ∧
      ∀ other : String, Token.Respells [] source.toList other.toList →
        compile other flags options loader = .ok m := by
  cases read : Item.ofText options.trim source with
  | error e =>
    rw [compile, read] at compiled
    cases compiled
  | ok items =>
    obtain ⟨found, lexes⟩ := Item.exists_drain_of_ofText read
    refine ⟨Token.respells_of_drain lexes, fun other respells => ?_⟩
    obtain ⟨items', read', alike⟩ := Item.exists_ofText_of_respells respells read
    rw [compile_of_items read] at compiled
    rw [compile_of_items read']
    obtain ⟨st, expanded, rfl⟩ := Except.map_eq_ok_iff.1 compiled
    exact Except.map_eq_ok_iff.2 ⟨st, Expansion.expand_of_alike (Nat.le_refl _) alike expanded, rfl⟩

theorem compile_of_respells_block :
    ∃ m, Token.Respells [] "[if:!x][beginblock:b]{v}[endblock][endif]".toList
        "[IF: ! X ][BeginBlock: b]{v}[endblock:b][endif]".toList ∧
      compile "[if:!x][beginblock:b]{v}[endblock][endif]" .empty ⟨true, 1⟩ none = .ok m ∧
      compile "[IF: ! X ][BeginBlock: b]{v}[endblock:b][endif]" .empty ⟨true, 1⟩ none = .ok m := by
  have splits : Condition.Token.Splits "!x".toList [.bang, .flag "x"] :=
    @Condition.Token.Splits.token [] ['x'] .bang _ (by simp) trivial
      (@Condition.Token.Splits.token [] [] (.flag "x") _ (by simp) ⟨rfl, by simp⟩
        (.blank (by simp)))
  have splits' : Condition.Token.Splits "! X".toList [.bang, .flag "X"] :=
    @Condition.Token.Splits.token [] [' ', 'X'] .bang _ (by simp) trivial
      (@Condition.Token.Splits.token [' '] [] (.flag "X") _ (List.forall_mem_singleton.2 rfl)
        ⟨rfl, by simp⟩
        (.blank (by simp)))
  have parsed : Condition.parse "!x" = .ok (.not (.flag "x")) :=
    Condition.parse_eq_ok_iff.2 ⟨.single (.single (.not (.flag "x"))), splits, by decide, rfl⟩
  have opens : (Token.ifCond "!x").IsWritten "[if:!x]".toList :=
    @Token.isWritten_of_readMarker? "if:!x]".toList _ 6 rfl (by decide)
  have opens' : (Token.ifCond "! X").IsWritten "[IF: ! X ]".toList :=
    @Token.isWritten_of_readMarker? "IF: ! X ]".toList _ 9 rfl (by decide)
  have begins : (Token.beginBlock "b").IsWritten "[beginblock:b]".toList :=
    @Token.isWritten_of_readMarker? "beginblock:b]".toList _ 13 rfl (by decide)
  have begins' : (Token.beginBlock "b").IsWritten "[BeginBlock: b]".toList :=
    @Token.isWritten_of_readMarker? "BeginBlock: b]".toList _ 14 rfl (by decide)
  have ends : (Token.endBlock none).IsWritten "[endblock]".toList :=
    @Token.isWritten_of_readMarker? "endblock]".toList _ 9 rfl (by decide)
  have ends' : (Token.endBlock (some "b")).IsWritten "[endblock:b]".toList :=
    @Token.isWritten_of_readMarker? "endblock:b]".toList _ 11 rfl (by decide)
  have closes : Token.endIf.IsWritten "[endif]".toList :=
    @Token.isWritten_of_readMarker? "endif]".toList _ 6 rfl (by decide)
  have respells : Token.Respells [] "[if:!x][beginblock:b]{v}[endblock][endif]".toList
      "[IF: ! X ][BeginBlock: b]{v}[endblock:b][endif]".toList := by
    refine .marker opens opens' (.ifCond ⟨_, _, splits, splits', rfl⟩)
      (.marker begins begins' (.refl _) ?_)
    refine @Token.Respells.same ["b"] '{' ['v', '}'] _ _ (.marked (.var "v")) rfl rfl ?_
    exact .marker ends ends' (.named rfl) (.marker closes closes (.refl _) (.nil []))
  have items : Item.ofText true "[if:!x][beginblock:b]{v}[endblock][endif]" =
      .ok [.ifCond (.not (.flag "x")), .beginBlock "b" ⟨1, 8⟩, .var "v", .endBlock, .endIf] := by
    refine Item.ofText_of_drainWithin
      (show _ = ([⟨.ifCond "!x", ⟨1, 1⟩, "[if:!x]"⟩, ⟨.beginBlock "b", ⟨1, 8⟩, "[beginblock:b]"⟩,
        ⟨.var "v", ⟨1, 22⟩, "{v}"⟩, ⟨.endBlock none, ⟨1, 25⟩, "[endblock]"⟩,
        ⟨.endIf, ⟨1, 35⟩, "[endif]"⟩], none) from rfl) ?_
    simp only [Item.ofLexemes, Item.ofLexeme, Item.readCondition, parsed]
    rfl
  obtain ⟨m, compiled⟩ : ∃ m, compile "[if:!x][beginblock:b]{v}[endblock][endif]" .empty ⟨true, 1⟩
      none = .ok m := by
    rw [compile_of_items items]
    exact ⟨_, rfl⟩
  exact ⟨m, respells, compiled, (compile_of_respells compiled).2 _ respells⟩

end Stencil
