import Mathlib.Data.Set.List
import Stencil.Proofs.Outline.Expansion
import Stencil.Proofs.Token.Splitting

/-! # Models and their pieces

A model is determined by the pieces it is built from, and they can be read off it again.
-/

/-! ## Pieces and their tokens

A piece is written as a token. Where a text is cut into pieces makes no difference to the model, nor
to the blocks that are open, so tokens that come down to the same elements make the same model.
-/

namespace Stencil

/-! ### Cutting texts -/

theorem Block.addText_addText (first second : String) (b : Block) :
    (b.addText first).addText second = b.addText (first ++ second) := by
  unfold addText
  by_cases nothing : first = ""
  · simp [nothing]
  · by_cases nothing' : second = ""
    · simp [nothing']
    · simp only [String.isEmpty_iff, nothing, nothing', if_false, String.append_eq_empty_iff,
        false_and]
      cases last : b.body.back? with
      | none => simp
      | some node => cases node <;> simp [String.append_assoc]

namespace Model.Builder

theorem add_text_empty (b : Builder) : b.add (.text "") = b := by
  have same : b.model.mapBlock b.current (.addText "") (Block.name_addText "")
      (fun _ _ => Block.block_mem_addText) = b.model := by
    apply Model.eq_of_blocks_eq
    · apply Array.toList_inj.1
      show (b.model.blocks.modify b.current id).toList = _
      rw [Array.toList_modify, List.modify_id]
    · rfl
  rw [add, same]

theorem add_text_text (b : Builder) (first second : String) :
    (b.add (.text first)).add (.text second) = b.add (.text (first ++ second)) := by
  have same : (b.model.mapBlock b.current (.addText first) (Block.name_addText first)
        fun _ _ => Block.block_mem_addText).mapBlock b.current (.addText second)
        (Block.name_addText second) (fun _ _ => Block.block_mem_addText) =
      b.model.mapBlock b.current (.addText (first ++ second)) (Block.name_addText _)
        fun _ _ => Block.block_mem_addText := by
    apply Model.eq_of_blocks_eq
    · apply Array.toList_inj.1
      show ((b.model.blocks.modify b.current _).modify b.current _).toList =
        (b.model.blocks.modify b.current _).toList
      rw [Array.toList_modify, Array.toList_modify, Array.toList_modify, List.modify_modify_eq]
      exact congrArg (List.modify _ _) (funext fun block => block.addText_addText first second)
    · rfl
  simp only [add, same]

end Model.Builder

namespace Piece

def split : Piece → List Piece
  | text content => content.toList.map fun c => text (String.singleton c)
  | piece => [piece]

open Model (Builder)

/-- Characters make one text with the text before them. -/
theorem foldl_chars (b : Builder) (before : String) (cs : List Char) :
    (cs.map fun c => text (String.singleton c)).foldl Builder.add (b.add (text before)) =
      b.add (text (before ++ String.ofList cs)) := by
  induction cs generalizing before with
  | nil => simp
  | cons c cs ih =>
    have joined : before ++ String.singleton c ++ String.ofList cs =
        before ++ String.ofList (c :: cs) := by
      apply String.toList_injective
      simp
    rw [List.map_cons, List.foldl_cons, Builder.add_text_text, ih, joined]

theorem foldl_split (b : Builder) (piece : Piece) :
    piece.split.foldl Builder.add b = b.add piece := by
  cases piece with
  | text content =>
    have whole := foldl_chars b "" content.toList
    rwa [Builder.add_text_empty, String.empty_append, String.ofList_toList] at whole
  | var name => rfl
  | beginBlock name => rfl
  | endBlock => rfl

theorem foldl_flatMap_split (pieces : List Piece) (b : Builder) :
    (pieces.flatMap split).foldl Builder.add b = pieces.foldl Builder.add b := by
  induction pieces generalizing b with
  | nil => rfl
  | cons piece pieces ih => rw [List.flatMap_cons, List.foldl_append, foldl_split, ih]; rfl

/-- Where texts are cut makes no difference to the model. -/
theorem ofPieces_congr {pieces others : List Piece}
    (h : pieces.flatMap split = others.flatMap split) :
    Model.ofPieces pieces = Model.ofPieces others := by
  rw [Model.ofPieces, ← foldl_flatMap_split, h, foldl_flatMap_split, Model.ofPieces]

/-! ### Open blocks -/

/-- The blocks that are open after a piece, innermost first. None, if the piece opens a block of a
name that is open or closes none. -/
def openAfter (names : List String) : Piece → Option (List String)
  | text _ => some names
  | var _ => some names
  | beginBlock name => if name ∈ names then none else some (name :: names)
  | endBlock =>
    match names with
    | [] => none
    | _ :: outer => some outer

theorem foldlM_cons_eq_some_iff {names after : List String} {piece : Piece} {pieces : List Piece} :
    (piece :: pieces).foldlM openAfter names = some after ↔
      ∃ between, openAfter names piece = some between ∧
        pieces.foldlM openAfter between = some after := by
  rw [List.foldlM_cons]
  exact Option.bind_eq_some_iff

theorem foldlM_split (names : List String) (piece : Piece) :
    piece.split.foldlM openAfter names = openAfter names piece := by
  cases piece with
  | text content =>
    rw [split]
    induction content.toList with
    | nil => rfl
    | cons c cs ih => exact ih
  | var name => rfl
  | beginBlock name => simp [split]
  | endBlock => simp [split]

theorem foldlM_flatMap_split (pieces : List Piece) (names : List String) :
    (pieces.flatMap split).foldlM openAfter names = pieces.foldlM openAfter names := by
  induction pieces generalizing names with
  | nil => rfl
  | cons piece pieces ih =>
    rw [List.flatMap_cons, List.foldlM_append, foldlM_split, List.foldlM_cons]
    exact congrArg _ (funext ih)

/-- An outline leaves the blocks around it open. -/
theorem foldlM_pieces {α : Type} {o : Outline α} {around : List String} (proper : o.Proper around) :
    o.pieces.foldlM openAfter around = some around := by
  induction o generalizing around with
  | nil => rfl
  | text content rest ih => exact ih proper
  | var name rest ih => exact ih proper
  | block name mark inner rest ihInner ihRest =>
    obtain ⟨-, fresh, inside, beyond⟩ := proper
    rw [Outline.pieces, List.foldlM_cons, openAfter, if_neg fresh]
    show (inner.pieces ++ endBlock :: rest.pieces).foldlM openAfter (name :: around) = _
    rw [List.foldlM_append, ihInner inside]
    exact ihRest beyond

/-! ### Tokens -/

def token : Piece → Token
  | text content => .text content
  | var name => .var name
  | beginBlock name => .beginBlock name
  | endBlock => .endBlock none

end Piece

def Token.Element.piece? : Token.Element → Option Piece
  | .literal c => some (.text (String.singleton c))
  | .marked (.var name) => some (.var name)
  | .marked (.beginBlock name) => some (.beginBlock name)
  | .marked (.endBlock _) => some .endBlock
  | .marked _ => none

namespace Piece

theorem filterMap_elements (piece : Piece) :
    piece.token.elements.filterMap Token.Element.piece? = piece.split := by
  cases piece with
  | text content => simp [token, Token.elements, split, Function.comp_def, Token.Element.piece?]
  | _ => rfl

theorem filterMap_flatMap_elements (pieces : List Piece) :
    ((pieces.map token).flatMap Token.elements).filterMap Token.Element.piece? =
      pieces.flatMap split := by
  rw [List.flatMap_map, List.filterMap_flatMap]
  exact congrArg (pieces.flatMap ·) (funext filterMap_elements)

/-- Tokens that come down to the elements of pieces are those of the same pieces, with their texts
cut in other places. -/
theorem exists_of_elements {tokens : List Token} {pieces : List Piece}
    (h : tokens.flatMap Token.elements = (pieces.map token).flatMap Token.elements) :
    ∃ others : List Piece, tokens = others.map token ∧
      others.flatMap split = pieces.flatMap split := by
  have each (t : Token) (mem : t ∈ tokens) : t ∈ Set.range token := by
    by_cases literal : ∃ content, t = .text content
    · obtain ⟨content, rfl⟩ := literal
      exact ⟨.text content, rfl⟩
    · have single := Token.elements_of_ne_text (not_exists.1 literal)
      have there : .marked t ∈ tokens.flatMap Token.elements :=
        List.mem_flatMap.2 ⟨t, mem, by simp [single]⟩
      rw [h] at there
      obtain ⟨other, written, found⟩ := List.mem_flatMap.1 there
      obtain ⟨piece, -, rfl⟩ := List.mem_map.1 written
      exact ⟨piece, Token.eq_of_marked_mem found⟩
  have made : tokens ∈ Set.range (List.map token) := by
    rw [Set.range_list_map]
    exact each
  obtain ⟨others, rfl⟩ := made
  refine ⟨others, rfl, ?_⟩
  rw [← filterMap_flatMap_elements, ← filterMap_flatMap_elements, h]

end Piece

/-! ## Templates without conditionals and includes

The tokens of such a template are its pieces. If these close all blocks that they open, and no block
is opened in one of its name, the template compiles to the model of the pieces, whatever the flags
and the loader are.
-/

/-! ### Nesting -/

namespace Item

def piece? : Item → Option Piece
  | .text content => some (.text content)
  | .var name => some (.var name)
  | .beginBlock name _ => some (.beginBlock name)
  | .endBlock => some .endBlock
  | _ => none

def Scope.Named (scopes : List Scope) (names : List String) : Prop :=
  scopes.map blockName? = names.map some

theorem piece?_of_token {l : Lexeme} {piece : Piece} (h : l.token = piece.token) :
    l.item?.bind piece? = some piece := by
  cases piece <;> simp [Lexeme.item?, h, Piece.token, piece?]

theorem pieces_of_tokens {ls : List Lexeme} {pieces : List Piece}
    (tokens : ls.map Lexeme.token = pieces.map Piece.token) :
    ls.map (fun l => l.item?.bind piece?) = pieces.map some := by
  induction ls generalizing pieces with
  | nil =>
    cases List.map_eq_nil_iff.1 tokens.symm
    rfl
  | cons l ls ih =>
    obtain ⟨piece, pieces, rfl, token, tokens⟩ := List.map_eq_cons_iff.1 tokens.symm
    rw [List.map_cons, List.map_cons, piece?_of_token token.symm, ih tokens.symm]

/-- The lexeme of a piece that fits the open blocks fits the open scopes. -/
theorem exists_fits {l : Lexeme} {piece : Piece} (token : l.token = piece.token)
    {names after : List String} (opens : piece.openAfter names = some after) {scopes : List Scope}
    (named : Scope.Named scopes names) :
    ∃ between, Fits scopes l between ∧ Scope.Named between after := by
  cases piece with
  | text content =>
    cases opens
    exact ⟨scopes, .plain (by rw [token]; rfl), named⟩
  | var name =>
    cases opens
    exact ⟨scopes, .plain (by rw [token]; rfl), named⟩
  | beginBlock name =>
    rw [Piece.openAfter] at opens
    split at opens
    · cases opens
    · cases opens
      exact ⟨_, .beginBlock token, congrArg (List.cons (some name)) named⟩
  | endBlock =>
    cases names with
    | nil => cases opens
    | cons name outer =>
      cases opens
      rcases scopes with _ | ⟨⟨name', position, marker⟩ | _, scopes⟩
      · cases named
      · exact ⟨scopes, .endBlock token (.inl rfl), (List.cons.inj named).2⟩
      · cases named

theorem exists_leads {ls : List Lexeme} {pieces : List Piece}
    (tokens : ls.map Lexeme.token = pieces.map Piece.token) {names after : List String}
    (opens : pieces.foldlM Piece.openAfter names = some after) {scopes : List Scope}
    (named : Scope.Named scopes names) :
    ∃ last, Leads scopes ls last ∧ Scope.Named last after := by
  induction ls generalizing pieces names scopes with
  | nil =>
    cases List.map_eq_nil_iff.1 tokens.symm
    cases opens
    exact ⟨scopes, .nil, named⟩
  | cons l ls ih =>
    obtain ⟨piece, pieces, rfl, token, tokens⟩ := List.map_eq_cons_iff.1 tokens.symm
    obtain ⟨between, first, opens⟩ := Piece.foldlM_cons_eq_some_iff.1 opens
    obtain ⟨scopes', fits, named'⟩ := exists_fits token.symm first named
    obtain ⟨last, leads, named''⟩ := ih tokens.symm opens named'
    exact ⟨last, .cons fits leads, named''⟩

/-- A template is accepted if its tokens are those of pieces that close the blocks they open. -/
theorem exists_ofText_of_pieces {trim : Bool} {text : String} {ls : List Lexeme}
    {pieces : List Piece} (lexes : (Tokenizer.ofText trim text).drain = (ls, none))
    (tokens : ls.map Lexeme.token = pieces.map Piece.token)
    (closes : pieces.foldlM Piece.openAfter [] = some []) :
    ∃ items, ofText trim text = .ok items ∧ items.map piece? = pieces.map some := by
  have outside : Scope.Named [] [] := rfl
  obtain ⟨last, leads, named⟩ := exists_leads tokens closes outside
  cases List.map_eq_nil_iff.1 named
  obtain ⟨items, accepted⟩ := (exists_ofText_iff lexes).2 (balanced_iff_leads.2 leads)
  have read := congrArg (List.map (Option.bind · piece?)) (item?_of_ofText lexes accepted)
  rw [List.map_map, List.map_map] at read
  exact ⟨items, accepted, read.trans (pieces_of_tokens tokens)⟩

end Item

/-! ### Expansion -/

namespace Expansion

/-- Text that is kept, inside blocks of these names and in nothing else. -/
structure State.Inside (st : State) (names : List String) : Prop where
  scopes : st.scopes = names.map .block
  records : Records st.openNames names
  apart : names.Nodup
  kept : st.kept = true

/-- The item of a piece that fits the open blocks is expanded to the piece. -/
theorem exists_step (flags : FlagSet) (origin : Option String) (splice : Splice) {st : State}
    {names after : List String} (h : st.Inside names) {item : Item} {piece : Piece}
    (made : item.piece? = some piece) (opens : piece.openAfter names = some after) :
    ∃ st', step flags origin splice st item = .ok st' ∧ st'.Inside after ∧
      st'.pieces = piece :: st.pieces := by
  cases item with
  | text content =>
    cases made
    cases opens
    refine ⟨_, rfl, ?_, ?_⟩ <;> rw [State.addPiece, if_pos h.kept]
    exact ⟨h.scopes, h.records, h.apart, h.kept⟩
  | var name =>
    cases made
    cases opens
    refine ⟨_, rfl, ?_, ?_⟩ <;> rw [State.addPiece, if_pos h.kept]
    exact ⟨h.scopes, h.records, h.apart, h.kept⟩
  | beginBlock name position =>
    cases made
    rw [Piece.openAfter] at opens
    split at opens
    · cases opens
    · next fresh =>
      cases opens
      have new : ¬st.openNames.contains name = true := by
        rwa [Std.ExtTreeSet.contains_iff_mem, h.records name]
      refine ⟨_, by rw [step, State.openBlock, if_neg (by simp [h.kept]), if_neg new], ?_, rfl⟩
      exact ⟨congrArg _ h.scopes, h.records.insert name, List.nodup_cons.2 ⟨fresh, h.apart⟩, h.kept⟩
  | endBlock =>
    cases made
    cases names with
    | nil => cases opens
    | cons name outer =>
      cases opens
      have closed : st.closeBlock = ⟨after.map .block, st.openNames.erase name, st.kept,
          .endBlock :: st.pieces⟩ := by
        rw [State.closeBlock, h.scopes]
        rfl
      refine ⟨_, rfl, ?_, ?_⟩ <;> rw [closed]
      obtain ⟨fresh, apart⟩ := List.nodup_cons.1 h.apart
      exact ⟨rfl, h.records.erase fresh, apart, h.kept⟩
  | _ => cases made

theorem exists_steps (flags : FlagSet) (origin : Option String) (splice : Splice) {st : State}
    {names after : List String} (h : st.Inside names) {items : List Item} {pieces : List Piece}
    (made : items.map Item.piece? = pieces.map some)
    (opens : pieces.foldlM Piece.openAfter names = some after) :
    ∃ st', steps flags origin splice st items = .ok st' ∧
      st'.pieces = pieces.reverse ++ st.pieces := by
  induction items generalizing st names pieces with
  | nil =>
    cases List.map_eq_nil_iff.1 made.symm
    exact ⟨st, rfl, rfl⟩
  | cons item items ih =>
    obtain ⟨piece, pieces, rfl, first, made⟩ := List.map_eq_cons_iff.1 made.symm
    obtain ⟨between, here, opens⟩ := Piece.foldlM_cons_eq_some_iff.1 opens
    obtain ⟨st', stepped, inside, written⟩ :=
      exists_step flags origin splice h first.symm here
    obtain ⟨last, run, written'⟩ := ih inside made.symm opens
    refine ⟨last, by rw [steps, stepped]; exact run, ?_⟩
    rw [written', written]
    simp

/-- However deep includes may nest, items are expanded by steps. -/
theorem exists_expand_eq (flags : FlagSet) (options : Options) (loader : Option Loader)
    (depth : Nat) (origin : Option String) :
    ∃ splice, expand flags options loader depth origin = steps flags origin splice := by
  cases depth <;> exact ⟨_, rfl⟩

end Expansion

theorem Piece.ofItems_of_pieces {items : List Item} {pieces : List Piece}
    (made : items.map Item.piece? = pieces.map some)
    (closes : pieces.foldlM openAfter [] = some []) (flags : FlagSet) (options : Options)
    (loader : Option Loader) : ofItems flags options loader items = .ok pieces := by
  have start : Expansion.State.start.Inside [] :=
    ⟨rfl, by simp [Expansion.Records, Expansion.State.start], .nil, rfl⟩
  obtain ⟨splice, same⟩ :=
    Expansion.exists_expand_eq flags options loader options.maxIncludeDepth none
  obtain ⟨last, run, written⟩ := Expansion.exists_steps flags none splice start made closes
  rw [ofItems, same, run, Except.map, written]
  simp [Expansion.State.start]

/-- A template whose tokens are those of pieces that close the blocks they open. -/
theorem compile_of_pieces {source : String} {ls : List Lexeme} {pieces : List Piece}
    {options : Options} (lexes : (Tokenizer.ofText options.trim source).drain = (ls, none))
    (tokens : ls.map Lexeme.token = pieces.map Piece.token)
    (closes : pieces.foldlM Piece.openAfter [] = some []) (flags : FlagSet)
    (loader : Option Loader) :
    compile source flags options loader = .ok (Model.ofPieces pieces) := by
  obtain ⟨items, accepted, made⟩ := Item.exists_ofText_of_pieces lexes tokens closes
  rw [compile, accepted]
  simp only [Piece.ofItems_of_pieces made closes]
  rfl

end Stencil
