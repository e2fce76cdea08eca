import Stencil.Proofs.Outline.Compilation
import Stencil.Proofs.Token.Placement

/-! # Where errors point

Errors of a compilation point into the text that they are about.
-/

/-! ## Where the items of a template stand

An item that keeps the place of its marker keeps the place that the marker has in the text, and an
error in the nesting of the markers is an error at one of them. Main statement: `occurs_of_ofText`.
-/

namespace Stencil.Item

variable {trim : Bool} {text : String} {items : List Item}

/-! ### Errors -/

theorem isText_of_startsBranch {l : Lexeme} (h : startsBranch l.token = true) :
    l.isText = false := by
  obtain ⟨token, position, raw⟩ := l
  cases token <;> first | rfl | cases h

theorem isText_of_misplaced {scopes : List Scope} {l : Lexeme} (h : Misplaced scopes l.token) :
    l.isText = false := by
  obtain ⟨token, position, raw⟩ := l
  cases h with
  | endBlock => rfl
  | branch starts => exact isText_of_startsBranch starts
  | endIf => rfl

theorem isText_of_misfit {scopes : List Scope} {l : Lexeme} {kind : SyntaxError.Kind}
    (h : Misfit scopes l.token kind) : l.isText = false := by
  obtain ⟨token, position, raw⟩ := l
  cases h with
  | mismatched => rfl
  | afterElse starts => exact isText_of_startsBranch starts
  | crosses placed => exact isText_of_misplaced placed
  | unmatched placed => exact isText_of_misplaced placed
  | ifCond => rfl
  | elseIf => rfl

/-- A scope that is left open is reported at the marker that opened it. -/
theorem LeavesOpen.unclosed {ls : List Lexeme} {scopes : List Scope} (h : LeavesOpen ls scopes)
    {scope : Scope} (mem : scope ∈ scopes) :
    ∃ l ∈ ls, l.isText = false ∧ ∃ kind, scope.unclosed = errorAt l kind := by
  induction h generalizing scope with
  | nothing => cases mem
  | block _ _ ih =>
    rcases List.mem_cons.1 mem with rfl | outer
    · exact ⟨_, List.mem_append_right _ List.mem_cons_self, rfl, _, rfl⟩
    · obtain ⟨l, before, found⟩ := ih outer
      exact ⟨l, List.mem_append_left _ before, found⟩
  | conditional _ _ _ ih =>
    rcases List.mem_cons.1 mem with rfl | outer
    · exact ⟨_, List.mem_append_right _ List.mem_cons_self, rfl, _, rfl⟩
    · obtain ⟨l, before, found⟩ := ih outer
      exact ⟨l, List.mem_append_left _ before, found⟩
  | elseIf _ _ _ _ ih =>
    obtain ⟨l, before, found⟩ := ih mem
    exact ⟨l, List.mem_append_left _ before, found⟩
  | @otherwise _ _ _ scopes marker position _ _ _ ih =>
    -- The report of a conditional does not depend on the branch that is open.
    have opened : ∃ scope' ∈ .conditional position marker false :: scopes,
        scope'.unclosed = scope.unclosed := by
      rcases List.mem_cons.1 mem with rfl | outer
      · exact ⟨_, List.mem_cons_self, rfl⟩
      · exact ⟨scope, List.mem_cons_of_mem _ outer, rfl⟩
    obtain ⟨scope', mem', same⟩ := opened
    obtain ⟨l, before, found⟩ := ih mem'
    exact ⟨l, List.mem_append_left _ before, same ▸ found⟩

/-- An error at a marker of a text stands in the text. -/
theorem occurs_errorAt {l : Lexeme} (mem : l ∈ (Tokenizer.ofText trim text).drain.1)
    (isText : l.isText = false) (kind : SyntaxError.Kind) :
    (errorAt l kind).Occurs text.toList ∧ (errorAt l kind).marker ≠ "" :=
  ⟨Tokenizer.occurs_drain mem isText, Tokenizer.raw_ne_of_drain mem isText⟩

/-- The error of a template stands in its text with its marker, which is not empty. -/
theorem occurs_of_ofText {e : SyntaxError} (h : ofText trim text = .error e) :
    e.Occurs text.toList ∧ e.marker ≠ "" := by
  rcases fault_of_ofText h with fault | stopped
  · cases fault with
    | @misfit before after l _ kind same _ _ _ misfit =>
      have mem : l ∈ (Tokenizer.ofText trim text).drain.1 := by rw [same]; simp
      exact occurs_errorAt mem (isText_of_misfit misfit) kind
    | unclosed opened =>
      obtain ⟨l, mem, isText, kind, same⟩ := opened.unclosed List.mem_cons_self
      rw [same]
      exact occurs_errorAt mem isText kind
  · exact Tokenizer.occurs_of_drain stopped

/-! ### Items -/

theorem beginBlock_of_item? {l : Lexeme} {name : String} {position : Position}
    (h : l.item? = some (.beginBlock name position)) :
    l.token = .beginBlock name ∧ l.position = position := by
  obtain ⟨token, place, raw⟩ := l
  cases token <;> simp_all [Lexeme.item?]

theorem inclusion_of_item? {l : Lexeme} {name marker : String} {position : Position}
    (h : l.item? = some (.inclusion name position marker)) :
    l.token = .inclusion name ∧ l.position = position ∧ l.raw = marker := by
  obtain ⟨token, place, raw⟩ := l
  cases token <;> simp_all [Lexeme.item?]

/-- A block begins where its marker stands. -/
theorem exists_lexeme_of_beginBlock (h : ofText trim text = .ok items) {name : String}
    {position : Position} (mem : .beginBlock name position ∈ items) :
    ∃ l ∈ (Tokenizer.ofText trim text).drain.1, l.token = .beginBlock name ∧
      l.position = position ∧ l.Occurs text.toList := by
  obtain ⟨l, delivered, same⟩ := exists_lexeme_of_mem h mem
  obtain ⟨token, place⟩ := beginBlock_of_item? same
  have isText : l.isText = false := by rw [Lexeme.isText, token]
  exact ⟨l, delivered, token, place, Tokenizer.occurs_drain delivered isText⟩

theorem exists_lexeme_of_inclusion (h : ofText trim text = .ok items) {name marker : String}
    {position : Position} (mem : .inclusion name position marker ∈ items) :
    ∃ l ∈ (Tokenizer.ofText trim text).drain.1, l.token = .inclusion name ∧
      l.position = position ∧ l.raw = marker := by
  obtain ⟨l, delivered, same⟩ := exists_lexeme_of_mem h mem
  exact ⟨l, delivered, inclusion_of_item? same⟩

/-- An include stands in the text where its item says, as its item says. -/
theorem occurs_of_inclusion (h : ofText trim text = .ok items) {name marker : String}
    {position : Position} (mem : .inclusion name position marker ∈ items)
    {e : SyntaxError} (place : e.position = position) (written : e.marker = marker) :
    e.Occurs text.toList ∧ e.marker ≠ "" := by
  obtain ⟨l, delivered, token, rfl, rfl⟩ := exists_lexeme_of_inclusion h mem
  have isText : l.isText = false := by rw [Lexeme.isText, token]
  obtain ⟨before, after, cut, there⟩ := Tokenizer.occurs_drain delivered isText
  refine ⟨⟨before, after, by rwa [written], place.trans there⟩, ?_⟩
  rw [written]
  exact Tokenizer.raw_ne_of_drain delivered isText

end Stencil.Item

/-! ## Where errors stand

A syntax error found in compiling a template points into the text it names, be it the template's own
or that of a subtemplate however deep. It gives the marker as it is written there, except where a
block stands in a block of its name: then the marker is written anew from the name, so that it need
not be what the text says. Main statement: `compile_error_placed`.
-/

namespace Stencil

open Item (Tree Part)

def textOf? (source : String) (loader : Option Loader) : Option String → Option String
  | none => some source
  | some name => loader.bind fun load => (load name).toOption

namespace SyntaxError

inductive PointsInto (trim : Bool) (text : String) (e : SyntaxError) : Prop
  /-- The text goes on with the marker at the place. -/
  | written : e.Occurs text.toList → e.marker ≠ "" → PointsInto trim text e
  /-- At the place a block of the name begins, whichever way its marker is written. -/
  | nested {name : String} {l : Lexeme} : e.kind = .nestedSameName name →
    e.marker = "[beginblock:" ++ name ++ "]" → l ∈ (Tokenizer.ofText trim text).drain.1 →
    l.token = .beginBlock name → l.position = e.position → l.Occurs text.toList →
    PointsInto trim text e

def Placed (options : Options) (source : String) (loader : Option Loader) (e : SyntaxError) :
    Prop :=
  ∃ text, textOf? source loader e.origin = some text ∧ e.PointsInto options.trim text

/-- The loader gives the error, instead of a text that the template or a subtemplate includes. -/
def Given (options : Options) (source : String) (loader : Option Loader) (e : SyntaxError) :
    Prop :=
  ∃ load origin text name, loader = some load ∧ textOf? source loader origin = some text ∧
    (∃ l ∈ (Tokenizer.ofText options.trim text).drain.1, l.token = .inclusion name) ∧
    load name = .error (.malformed e)

end SyntaxError

namespace Outline

variable {flags : FlagSet} {options : Options} {loader : Option Loader} {source : String}
  {origin : Option String} {inclusion : Inclusion}

/-- How an item stops the walk over a template: a block begins in a block of its name, or an include
fails. -/
inductive Stops (origin : Option String) (inclusion : Inclusion) : Item → Error → Prop
  | nested {name : String} {position : Position} :
    Stops origin inclusion (.beginBlock name position) (.malformed
      ⟨.nestedSameName name, position, "[beginblock:" ++ name ++ "]", origin⟩)
  | inclusion {name marker : String} {position : Position} {around : List String} {e : Error} :
    inclusion name position marker around = .error e →
      Stops origin inclusion (.inclusion name position marker) e

theorem walk_error {part : Part} {tree : Tree part} {around : List String} {e : Error}
    (h : walk flags origin inclusion around tree = .error e) :
    ∃ item ∈ tree.items, Stops origin inclusion item e := by
  have within {items whole : List Item} (sub : items ⊆ whole)
      (found : ∃ item ∈ items, Stops origin inclusion item e) :
      ∃ item ∈ whole, Stops origin inclusion item e := by
    obtain ⟨item, mem, stops⟩ := found
    exact ⟨item, sub mem, stops⟩
  induction tree generalizing around with
  | nil => cases h
  | text content rest ih =>
    obtain h | ⟨_, _, h⟩ := Except.bind_eq_error_iff.1 h
    · exact within (by simp [Tree.items]) (ih h)
    · cases h
  | var name rest ih =>
    obtain h | ⟨_, _, h⟩ := Except.bind_eq_error_iff.1 h
    · exact within (by simp [Tree.items]) (ih h)
    · cases h
  | inclusion name position marker rest ih =>
    obtain failed | ⟨_, _, h⟩ := Except.bind_eq_error_iff.1 h
    · exact ⟨_, List.mem_cons_self, .inclusion failed⟩
    · obtain h | ⟨_, _, h⟩ := Except.bind_eq_error_iff.1 h
      · exact within (by simp [Tree.items]) (ih h)
      · cases h
  | block name position inner rest ihInner ihRest =>
    rw [walk] at h
    split at h
    · cases h
      exact ⟨_, List.mem_cons_self, .nested⟩
    · obtain h | ⟨_, _, h⟩ := Except.bind_eq_error_iff.1 h
      · exact within (fun _ mem => by simp [Tree.items, mem]) (ihInner h)
      · obtain h | ⟨_, _, h⟩ := Except.bind_eq_error_iff.1 h
        · exact within (fun _ mem => by simp [Tree.items, mem]) (ihRest h)
        · cases h
  | conditional condition first others rest ihFirst ihOthers ihRest =>
    obtain h | ⟨_, _, h⟩ := Except.bind_eq_error_iff.1 h
    · split at h
      · exact within (fun _ mem => by simp [Tree.items, mem]) (ihFirst h)
      · exact within (fun _ mem => by simp [Tree.items, mem]) (ihOthers h)
    · obtain h | ⟨_, _, h⟩ := Except.bind_eq_error_iff.1 h
      · exact within (fun _ mem => by simp [Tree.items, mem]) (ihRest h)
      · cases h
  | endIf => cases h
  | otherwise last ih => exact within (fun _ mem => by simp [Tree.items, mem]) (ih h)
  | elseIf condition branch others ihBranch ihOthers =>
    rw [walk] at h
    split at h
    · exact within (fun _ mem => by simp [Tree.items, mem]) (ihBranch h)
    · exact within (fun _ mem => by simp [Tree.items, mem]) (ihOthers h)

/-- What the error of an include is about: the marker itself, or a text further inside, unless it is
one that the loader gives. -/
def Reports (options : Options) (source : String) (loader : Option Loader)
    (origin : Option String) (inclusion : Inclusion) : Prop :=
  ∀ name position marker around e, inclusion name position marker around = .error (.malformed e) →
    (e.origin = origin ∧ e.position = position ∧ e.marker = marker) ∨
      (∃ load, loader = some load ∧ load name = .error (.malformed e)) ∨
      e.Placed options source loader ∨ e.Given options source loader

/-- If the errors of includes are placed, so are those of the text that has the includes. -/
theorem Reports.walk (reports : Reports options source loader origin inclusion) {text : String}
    (stands : textOf? source loader origin = some text) {tree : Tree .body}
    (read : Tree.ofText options.trim text = .ok tree) {around : List String} {e : SyntaxError}
    (h : walk flags origin inclusion around tree = .error (.malformed e)) :
    e.Placed options source loader ∨ e.Given options source loader := by
  have accepted := Tree.ofText_eq_ok_iff.1 read
  obtain ⟨item, mem, stops⟩ := walk_error h
  cases stops with
  | nested =>
    obtain ⟨l, delivered, token, place, occurs⟩ := Item.exists_lexeme_of_beginBlock accepted mem
    exact .inl ⟨text, stands, .nested rfl rfl delivered token place occurs⟩
  | inclusion failed =>
    rcases reports _ _ _ _ _ failed with
      ⟨rfl, place, written⟩ | ⟨load, loads, refused⟩ | elsewhere
    · obtain ⟨occurs, filled⟩ := Item.occurs_of_inclusion accepted mem place written
      exact .inl ⟨text, stands, .written occurs filled⟩
    · obtain ⟨l, delivered, token, -, -⟩ := Item.exists_lexeme_of_inclusion accepted mem
      exact .inr ⟨load, origin, text, _, loads, stands, ⟨l, delivered, token⟩, refused⟩
    · exact elsewhere

/-- Errors of includes are placed, however deep includes still nest. -/
theorem reports_inclusionAt (source : String) (depth : Nat) (origin : Option String) :
    Reports options source loader origin (inclusionAt flags options loader depth origin) := by
  intro name position marker around e h
  induction hleft : options.maxIncludeDepth - depth
    generalizing depth origin name position marker around e with
  | zero =>
    rw [inclusionAt.eq_def, if_pos (by omega)] at h
    cases h
    exact .inl ⟨rfl, rfl, rfl⟩
  | succ left ih =>
    rw [inclusionAt.eq_def, if_neg (by omega)] at h
    rcases loader with _ | load
    · cases h
      exact .inl ⟨rfl, rfl, rfl⟩
    · simp only at h
      split at h
      · next refused =>
        cases h
        exact .inr (.inl ⟨load, rfl, refused⟩)
      · next text loaded =>
        have stands : textOf? source (some load) (some name) = some text := by
          simp [textOf?, loaded, Except.toOption]
        split at h
        · next wrong rejected =>
          cases h
          obtain ⟨occurs, filled⟩ := Item.occurs_of_ofText (Tree.ofText_eq_error_iff.1 rejected)
          exact .inr (.inr (.inl ⟨text, stands, .written occurs filled⟩))
        · next tree read =>
          have deeper : Reports options source (some load) (some name)
              (inclusionAt flags options (some load) (depth + 1) (some name)) :=
            fun _ _ _ _ _ failed => ih _ _ _ _ _ _ _ failed (by omega)
          exact .inr (.inr (deeper.walk stands read h))

end Outline

/-- Every syntax error of a compilation points into the text that its origin names, but for those
that the loader gives itself for a text that is included. -/
theorem compile_error_placed {source : String} {flags : FlagSet} {options : Options}
    {loader : Option Loader} {e : SyntaxError}
    (h : compile source flags options loader = .error (.malformed e)) :
    e.Placed options source loader ∨ e.Given options source loader := by
  rw [compile_eq_map_ofSource, Except.map_eq_error_iff] at h
  unfold Outline.ofSource at h
  split at h
  · next wrong rejected =>
    cases h
    have rejected := Tree.ofText_eq_error_iff.1 rejected
    obtain ⟨occurs, filled⟩ := Item.occurs_of_ofText rejected
    exact .inl ⟨source, by rw [Item.origin_of_ofText rejected]; rfl, .written occurs filled⟩
  · next tree read =>
    exact (Outline.reports_inclusionAt source 0 none).walk rfl read h

/-- The inner block begins with a marker in capitals, which the error does not give. -/
theorem compile_respelled :
    compile "[beginblock:a][BeginBlock:a][endblock][endblock]" .empty {} none =
      .error (.malformed ⟨.nestedSameName "a", ⟨1, 15⟩, "[beginblock:a]", none⟩) := by
  have items : Item.ofText true "[beginblock:a][BeginBlock:a][endblock][endblock]" =
      .ok (Tree.block "a" ⟨1, 1⟩ (.block "a" ⟨1, 15⟩ .nil .nil) .nil).items :=
    Item.ofText_of_drainWithin rfl rfl
  rw [compile_eq_map_ofSource, Outline.ofSource, Tree.ofText_eq_ok_iff.2 items]
  rfl

theorem respelled_placed :
    compile "[beginblock:a][BeginBlock:a][endblock][endblock]" .empty {} none =
        .error (.malformed ⟨.nestedSameName "a", ⟨1, 15⟩, "[beginblock:a]", none⟩) ∧
      (⟨.nestedSameName "a", ⟨1, 15⟩, "[beginblock:a]", none⟩ : SyntaxError).Placed {}
        "[beginblock:a][BeginBlock:a][endblock][endblock]" none := by
  refine ⟨compile_respelled, (compile_error_placed compile_respelled).resolve_right ?_⟩
  rintro ⟨_, _, _, _, absent, _⟩
  cases absent

/-- The error gives a marker that does not stand at its place. -/
theorem not_occurs_respelled :
    compile "[beginblock:a][BeginBlock:a][endblock][endblock]" .empty {} none =
        .error (.malformed ⟨.nestedSameName "a", ⟨1, 15⟩, "[beginblock:a]", none⟩) ∧
      ¬(⟨.nestedSameName "a", ⟨1, 15⟩, "[beginblock:a]", none⟩ : SyntaxError).Occurs
        "[beginblock:a][BeginBlock:a][endblock][endblock]".toList := by
  refine ⟨compile_respelled, ?_⟩
  have cut : "[beginblock:a][BeginBlock:a][endblock][endblock]".toList =
      "[beginblock:a]".toList ++ "[BeginBlock:a][endblock][endblock]".toList := rfl
  rw [cut, SyntaxError.occurs_iff (by rfl)]
  decide

end Stencil
