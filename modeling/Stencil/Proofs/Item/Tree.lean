import Stencil.Item
import Stencil.Proofs.Results

/-! # Items as trees

The flat items of a template, read as what they nest into. The reading runs from the last item to
the first: a closing item opens a context, its opening item closes it, and what lies between them
is one subtree. Main statements: the items of a tree are read as that tree, `ofItems?_items`, and
whatever `Item.ofText` accepts has a tree.
-/

namespace Stencil.Item

/-- What a tree stands for: a whole text, or the branches of a conditional after its first one. -/
inductive Part
  | body
  | branches

inductive Tree : Part → Type
  | nil : Tree .body
  | text (content : String) (rest : Tree .body) : Tree .body
  | var (name : String) (rest : Tree .body) : Tree .body
  | inclusion (name : String) (position : Position) (marker : String) (rest : Tree .body) :
    Tree .body
  | block (name : String) (position : Position) (inner rest : Tree .body) : Tree .body
  | conditional (condition : Condition) (first : Tree .body) (others : Tree .branches)
    (rest : Tree .body) : Tree .body
  | endIf : Tree .branches
  | otherwise (last : Tree .body) : Tree .branches
  | elseIf (condition : Condition) (branch : Tree .body) (others : Tree .branches) :
    Tree .branches

namespace Tree

def items : {part : Part} → Tree part → List Item
  | _, nil => []
  | _, text content rest => .text content :: rest.items
  | _, var name rest => .var name :: rest.items
  | _, inclusion name position marker rest => .inclusion name position marker :: rest.items
  | _, block name position inner rest =>
    .beginBlock name position :: (inner.items ++ .endBlock :: rest.items)
  | _, conditional condition first others rest =>
    .ifCond condition :: (first.items ++ (others.items ++ rest.items))
  | _, endIf => [.endIf]
  | _, otherwise last => .otherwise :: (last.items ++ [.endIf])
  | _, elseIf condition branch others => .elseIf condition :: (branch.items ++ others.items)

/-! ### Reading from the right -/

/-- The scopes that are closed further to the right, with what follows inside and after each. -/
inductive Context
  | template
  | block (rest : Tree .body) (outer : Context)
  | branch (others : Tree .branches) (rest : Tree .body) (outer : Context)

def readItem : Item → Tree .body × Context → Option (Tree .body × Context)
  | .text content, (body, context) => some (text content body, context)
  | .var name, (body, context) => some (var name body, context)
  | .inclusion name position marker, (body, context) =>
    some (inclusion name position marker body, context)
  | .endBlock, (body, context) => some (nil, .block body context)
  | .beginBlock name position, (body, .block rest outer) =>
    some (block name position body rest, outer)
  | .endIf, (body, context) => some (nil, .branch endIf body context)
  | .otherwise, (body, .branch endIf rest outer) => some (nil, .branch (otherwise body) rest outer)
  | .elseIf condition, (body, .branch others rest outer) =>
    some (nil, .branch (elseIf condition body others) rest outer)
  | .ifCond condition, (body, .branch others rest outer) =>
    some (conditional condition body others rest, outer)
  | _, _ => none

def read : List Item → Option (Tree .body × Context)
  | [] => some (nil, .template)
  | item :: items => (read items).bind (readItem item)

def ofItems? (items : List Item) : Option (Tree .body) :=
  match read items with
  | some (tree, .template) => some tree
  | _ => none

/-- Putting the items of a subtree in front of a text puts the subtree in front of its reading. -/
def ReadsBack : {part : Part} → Tree part → Prop
  | .body, tree => ∀ after context, read after = some (nil, context) →
      read (tree.items ++ after) = some (tree, context)
  | .branches, others => ∀ after rest context, read after = some (rest, context) →
      read (others.items ++ after) = some (nil, .branch others rest context)

theorem readsBack {part : Part} (tree : Tree part) : tree.ReadsBack := by
  induction tree with
  | nil =>
    intro after context h
    simpa [items] using h
  | text content rest ih =>
    intro after context h
    simp [items, read, ih after context h, readItem]
  | var name rest ih =>
    intro after context h
    simp [items, read, ih after context h, readItem]
  | inclusion name position marker rest ih =>
    intro after context h
    simp [items, read, ih after context h, readItem]
  | block name position inner rest ihInner ihRest =>
    intro after context h
    have closed : read (.endBlock :: (rest.items ++ after)) = some (nil, .block rest context) := by
      simp [read, ihRest after context h, readItem]
    have opened := ihInner _ _ closed
    simp only [items, List.cons_append, List.append_assoc, read]
    rw [opened]
    rfl
  | conditional condition first others rest ihFirst ihOthers ihRest =>
    intro after context h
    have later := ihOthers _ _ _ (ihRest after context h)
    have opened := ihFirst _ _ later
    simp only [items, List.cons_append, List.append_assoc, read]
    rw [opened]
    rfl
  | endIf =>
    intro after rest context h
    simp [items, read, h, readItem]
  | otherwise last ih =>
    intro after rest context h
    have closed : read (.endIf :: after) = some (nil, .branch endIf rest context) := by
      simp [read, h, readItem]
    have opened := ih _ _ closed
    simp only [items, List.cons_append, List.append_assoc, List.nil_append, read]
    rw [opened]
    rfl
  | elseIf condition branch others ihBranch ihOthers =>
    intro after rest context h
    have opened := ihBranch _ _ (ihOthers after rest context h)
    simp only [items, List.cons_append, List.append_assoc, read]
    rw [opened]
    rfl

theorem ofItems?_items (tree : Tree .body) : ofItems? tree.items = some tree := by
  have h := tree.readsBack [] .template rfl
  rw [List.append_nil] at h
  simp [ofItems?, h]

def Context.itemsAfter : Context → List Item
  | template => []
  | block rest outer => .endBlock :: (rest.items ++ outer.itemsAfter)
  | branch others rest outer => others.items ++ (rest.items ++ outer.itemsAfter)

theorem items_of_readItem {item : Item} {body after : Tree .body} {context outer : Context}
    (h : readItem item (body, context) = some (after, outer)) :
    after.items ++ outer.itemsAfter = item :: (body.items ++ context.itemsAfter) := by
  unfold readItem at h
  split at h <;> simp_all [items, Context.itemsAfter]
  all_goals
    obtain ⟨rfl, rfl⟩ := h
    simp [items, Context.itemsAfter]

theorem items_of_read {given : List Item} {body : Tree .body} {context : Context}
    (h : read given = some (body, context)) : body.items ++ context.itemsAfter = given := by
  induction given generalizing body context with
  | nil =>
    simp only [read, Option.some.injEq, Prod.mk.injEq] at h
    obtain ⟨rfl, rfl⟩ := h
    rfl
  | cons item given ih =>
    obtain ⟨⟨inner, within⟩, hread, hitem⟩ := Option.bind_eq_some_iff.1 h
    rw [items_of_readItem hitem, ih hread]

end Tree

/-! ### Accepted templates -/

/-- The scopes that are open on the left of a text are those that its context closes. -/
inductive Closes : List Scope → Tree.Context → Prop
  | template : Closes [] .template
  | block {name : String} {position : Position} {marker : String} {outer : List Scope}
    {rest : Tree .body} {context : Tree.Context} :
    Closes outer context → Closes (.block name position marker :: outer) (.block rest context)
  | branch {position : Position} {marker : String} {seenElse : Bool} {outer : List Scope}
    {others : Tree .branches} {rest : Tree .body} {context : Tree.Context} :
    (seenElse = true → others = .endIf) → Closes outer context →
      Closes (.conditional position marker seenElse :: outer) (.branch others rest context)

theorem closeBlock_ok_iff {scopes outer : List Scope} {l : Lexeme} {found : Option String} :
    closeBlock scopes l found = .ok outer ↔ ∃ name position marker,
      scopes = .block name position marker :: outer ∧ (found = none ∨ found = some name) := by
  unfold closeBlock
  constructor
  · intro h
    split at h
    · next name position marker inner =>
      cases found with
      | none => cases h; exact ⟨name, position, marker, rfl, .inl rfl⟩
      | some given =>
        simp only at h
        split at h
        · next same => cases h; exact ⟨name, position, marker, rfl, .inr (congrArg some same)⟩
        · cases h
    · cases h
  · rintro ⟨name, position, marker, rfl, rfl | rfl⟩
    · rfl
    · simp

theorem nextBranch_ok {scopes after : List Scope} {l : Lexeme} {isLast : Bool}
    (h : nextBranch scopes l isLast = .ok after) :
    ∃ position marker outer, scopes = .conditional position marker false :: outer ∧
      after = .conditional position marker isLast :: outer := by
  unfold nextBranch at h
  split at h
  · next position marker seenElse outer =>
    cases seenElse with
    | true => simp at h
    | false =>
      cases h
      exact ⟨position, marker, outer, rfl, rfl⟩
  · cases h

theorem closeConditional_ok {scopes outer : List Scope} {l : Lexeme}
    (h : closeConditional scopes l = .ok outer) :
    ∃ position marker seenElse, scopes = .conditional position marker seenElse :: outer := by
  unfold closeConditional at h
  split at h
  · next position marker seenElse inner =>
    cases h
    exact ⟨position, marker, seenElse, rfl⟩
  · cases h

/-- A lexeme that nests puts an item that can be read in front of a text. -/
theorem readItem_of_ofLexeme {scopes after : List Scope} {l : Lexeme} {item : Item}
    {context : Tree.Context} (h : ofLexeme scopes l = .ok (item, after))
    (closes : Closes after context) (body : Tree .body) :
    ∃ front outer, Tree.readItem item (body, context) = some (front, outer) ∧
      Closes scopes outer := by
  obtain ⟨token, position, raw⟩ := l
  cases token with
  | text content => cases h; exact ⟨_, _, rfl, closes⟩
  | var name => cases h; exact ⟨_, _, rfl, closes⟩
  | inclusion name => cases h; exact ⟨_, _, rfl, closes⟩
  | beginBlock name =>
    cases h
    cases closes with
    | block inner => exact ⟨_, _, rfl, inner⟩
  | endBlock found =>
    obtain ⟨outer, hclose, h⟩ := Except.bind_eq_ok_iff.1 h
    cases h
    obtain ⟨name, start, marker, rfl, -⟩ := closeBlock_ok_iff.1 hclose
    exact ⟨_, _, rfl, .block closes⟩
  | ifCond condition =>
    obtain ⟨c, -, h⟩ := Except.bind_eq_ok_iff.1 h
    cases h
    cases closes with
    | branch _ inner => exact ⟨_, _, rfl, inner⟩
  | elseIf condition =>
    obtain ⟨between, hnext, h⟩ := Except.bind_eq_ok_iff.1 h
    obtain ⟨c, -, h⟩ := Except.bind_eq_ok_iff.1 h
    cases h
    obtain ⟨start, marker, outer, rfl, rfl⟩ := nextBranch_ok hnext
    cases closes with
    | branch _ inner => exact ⟨_, _, rfl, .branch (fun seen => by cases seen) inner⟩
  | otherwise =>
    obtain ⟨between, hnext, h⟩ := Except.bind_eq_ok_iff.1 h
    cases h
    obtain ⟨start, marker, outer, rfl, rfl⟩ := nextBranch_ok hnext
    cases closes with
    | branch isLast inner =>
      -- Nothing but the end of the conditional follows its last branch.
      cases isLast rfl
      exact ⟨_, _, rfl, .branch (fun seen => by cases seen) inner⟩
  | endIf =>
    obtain ⟨outer, hclose, h⟩ := Except.bind_eq_ok_iff.1 h
    cases h
    obtain ⟨start, marker, seenElse, rfl⟩ := closeConditional_ok hclose
    exact ⟨_, _, rfl, .branch (fun _ => rfl) closes⟩

theorem read_of_ofLexemes {scopes : List Scope} {done given : List Item} {ls : List Lexeme}
    (h : ofLexemes scopes done ls = .ok (given, [])) :
    ∃ items body context, given = done.reverse ++ items ∧
      Tree.read items = some (body, context) ∧ Closes scopes context := by
  induction ls generalizing scopes done with
  | nil =>
    simp only [ofLexemes, Except.ok.injEq, Prod.mk.injEq] at h
    obtain ⟨rfl, rfl⟩ := h
    exact ⟨[], .nil, .template, by simp, rfl, .template⟩
  | cons l ls ih =>
    cases hl : ofLexeme scopes l with
    | error e => simp [ofLexemes, hl] at h
    | ok pair =>
      obtain ⟨item, after⟩ := pair
      simp only [ofLexemes, hl] at h
      obtain ⟨items, body, context, rfl, hread, closes⟩ := ih h
      obtain ⟨front, outer, hitem, outerCloses⟩ := readItem_of_ofLexeme hl closes body
      exact ⟨item :: items, front, outer, by simp, by simp [Tree.read, hread, hitem], outerCloses⟩

/-- The items of an accepted template nest. -/
theorem exists_tree_of_ofText {trim : Bool} {text : String} {items : List Item}
    (h : ofText trim text = .ok items) : ∃ tree : Tree .body, tree.items = items := by
  unfold ofText at h
  split at h
  split at h <;> try cases h
  next found lexemes stopped accepted =>
  obtain ⟨read, body, context, rfl, hread, closes⟩ := read_of_ofLexemes accepted
  cases closes
  refine ⟨body, ?_⟩
  simpa [Tree.Context.itemsAfter] using Tree.items_of_read hread

namespace Tree

def ofText (trim : Bool) (text : String) : Except SyntaxError (Tree .body) :=
  (Item.ofText trim text).map fun items => (ofItems? items).getD .nil

/-- A template is accepted with a tree just if it is accepted with the items of the tree. -/
theorem ofText_eq_ok_iff {trim : Bool} {text : String} {tree : Tree .body} :
    ofText trim text = .ok tree ↔ Item.ofText trim text = .ok tree.items := by
  unfold ofText
  constructor
  · intro h
    cases hitems : Item.ofText trim text with
    | error e => simp [hitems, Except.map] at h
    | ok items =>
      obtain ⟨found, rfl⟩ := exists_tree_of_ofText hitems
      simp only [hitems, Except.map, ofItems?_items, Option.getD_some, Except.ok.injEq] at h
      rw [h]
  · intro h
    simp [h, Except.map, ofItems?_items]

theorem ofText_eq_error_iff {trim : Bool} {text : String} {e : SyntaxError} :
    ofText trim text = .error e ↔ Item.ofText trim text = .error e := by
  unfold ofText
  cases Item.ofText trim text <;> simp [Except.map]

end Tree

/-! ## Scopes along items

Items open and close scopes one after another, each of them the innermost one only. The items of an
accepted template close what they open and nothing else.
-/

/-- The scopes that are open after an item, innermost first: the name of a block, or none for a
conditional. There are none to tell if the item does not fit the innermost scope. -/
def openAfter (scopes : List (Option String)) : Item → Option (List (Option String))
  | .text _ => some scopes
  | .var _ => some scopes
  | .inclusion _ _ _ => some scopes
  | .beginBlock name _ => some (some name :: scopes)
  | .ifCond _ => some (none :: scopes)
  | .endBlock =>
    match scopes with
    | some _ :: outer => some outer
    | _ => none
  | .elseIf _ =>
    match scopes with
    | none :: _ => some scopes
    | _ => none
  | .otherwise =>
    match scopes with
    | none :: _ => some scopes
    | _ => none
  | .endIf =>
    match scopes with
    | none :: outer => some outer
    | _ => none

theorem foldlM_openAfter_cons {scopes after : List (Option String)} {item : Item}
    {items : List Item} :
    (item :: items).foldlM openAfter scopes = some after ↔
      ∃ between, openAfter scopes item = some between ∧
        items.foldlM openAfter between = some after := by
  rw [List.foldlM_cons]
  exact Option.bind_eq_some_iff

/-- What an item does to the innermost scopes does not depend on those around them. -/
theorem openAfter_append {scopes after : List (Option String)} {item : Item}
    (h : openAfter scopes item = some after) (outer : List (Option String)) :
    openAfter (scopes ++ outer) item = some (after ++ outer) := by
  cases item with
  | text content => cases h; rfl
  | var name => cases h; rfl
  | inclusion name position marker => cases h; rfl
  | beginBlock name position => cases h; rfl
  | ifCond condition => cases h; rfl
  | endBlock => rcases scopes with _ | ⟨_ | name, scopes⟩ <;> cases h; rfl
  | elseIf condition => rcases scopes with _ | ⟨_ | name, scopes⟩ <;> cases h; rfl
  | otherwise => rcases scopes with _ | ⟨_ | name, scopes⟩ <;> cases h; rfl
  | endIf => rcases scopes with _ | ⟨_ | name, scopes⟩ <;> cases h; rfl

def Tree.Returns : {part : Part} → Tree part → Prop
  | .body, tree => ∀ scopes after,
      (tree.items ++ after).foldlM openAfter scopes = after.foldlM openAfter scopes
  | .branches, others => ∀ outer after,
      (others.items ++ after).foldlM openAfter (none :: outer) = after.foldlM openAfter outer

theorem Tree.returns {part : Part} (tree : Tree part) : tree.Returns := by
  induction tree with
  | nil =>
    intro scopes after
    rfl
  | text content rest ih =>
    intro scopes after
    exact ih scopes after
  | var name rest ih =>
    intro scopes after
    exact ih scopes after
  | inclusion name position marker rest ih =>
    intro scopes after
    exact ih scopes after
  | block name position inner rest ihInner ihRest =>
    intro scopes after
    have inside := ihInner (some name :: scopes) (.endBlock :: (rest.items ++ after))
    simp only [items, List.cons_append, List.append_assoc]
    exact inside.trans (ihRest scopes after)
  | conditional condition first others rest ihFirst ihOthers ihRest =>
    intro scopes after
    have inFirst := ihFirst (none :: scopes) (others.items ++ (rest.items ++ after))
    have inOthers := ihOthers scopes (rest.items ++ after)
    simp only [items, List.cons_append, List.append_assoc]
    exact inFirst.trans (inOthers.trans (ihRest scopes after))
  | endIf =>
    intro outer after
    rfl
  | otherwise last ih =>
    intro outer after
    simp only [items, List.cons_append, List.append_assoc, List.nil_append]
    exact ih (none :: outer) (.endIf :: after)
  | elseIf condition branch others ihBranch ihOthers =>
    intro outer after
    simp only [items, List.cons_append, List.append_assoc]
    exact (ihBranch (none :: outer) (others.items ++ after)).trans (ihOthers outer after)

/-- An accepted template closes every scope that it opens. -/
theorem foldlM_openAfter_of_ofText {trim : Bool} {text : String} {items : List Item}
    (h : ofText trim text = .ok items) : items.foldlM openAfter [] = some [] := by
  obtain ⟨tree, rfl⟩ := exists_tree_of_ofText h
  have returns := tree.returns [] []
  rwa [List.append_nil] at returns

end Stencil.Item
