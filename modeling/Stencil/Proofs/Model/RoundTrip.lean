import Stencil.Document
import Stencil.Proofs.Model.Pieces
import Stencil.Proofs.Outline.Compilation
import Stencil.Proofs.Token.NormalForm
import Stencil.Proofs.Token.Trimming

/-! # Writing and reading again

Tokens and models that are written as text are read again as they were.
-/

/-! ## Writing tokens and reading them again

Tokens that can be written are read again in their normal form. What a tokenizer delivers can be
written and is in normal form, so it is read again as it is. A text that is written with its escapes
is a template that renders as the text. Main statement: `drain_printAll`.
-/

namespace Stencil

/-- A template without markers is not trimmed. -/
theorem Lexeme.trimmed_eq_self {ls : List Lexeme} (h : ∀ l ∈ ls, l.token.isMarker = false) :
    trimmed ls = ls := by
  rw [trimmed, List.filter_eq_self]
  intro l _
  have bare : ¬OnMarkerLine ls l := by
    rintro ⟨⟨other, mem, -, marker⟩, -, -⟩
    exact absurd (isMarker_iff.2 marker) (by simp [h other mem])
  rw [decide_eq_false bare, Bool.and_false, Bool.not_false]

namespace Tokenizer

theorem drain_print_tokens {tokens : List Token} (h : ∀ token ∈ tokens, token.Legible) :
    ∃ ls, (ofText false (Token.printAll tokens)).drain = (ls, none) ∧
      ls.map Lexeme.token = Token.normalForm tokens := by
  have legible : ∀ e ∈ tokens.flatMap Token.elements, e.Legible := by
    intro e mem
    obtain ⟨token, there, mem⟩ := List.mem_flatMap.1 mem
    exact Token.legible_elements (h token there) e mem
  obtain ⟨ls, drained, same⟩ := exists_drain_printAll legible
  have normal := normal_drain false (Token.printAll tokens)
  rw [drained] at normal
  rw [Lexeme.elements, ← List.flatMap_map] at same
  exact ⟨ls, drained, (Token.normalForm_eq normal same).symm⟩

/-- A text that is written with its escapes is delivered in one or more texts. -/
theorem exists_drain_escape (trim : Bool) (text : String) :
    ∃ ls, (ofText trim (String.ofList (Token.escape text.toList))).drain = (ls, none) ∧
      (ls.map Lexeme.token).flatMap Token.elements = text.toList.map .literal := by
  have written : Token.printAll [.text text] = String.ofList (Token.escape text.toList) := by
    simp [Token.printAll, Token.print]
  have legible : ∀ e ∈ [Token.text text].flatMap Token.elements, e.Legible := by
    intro e mem
    rw [List.flatMap_singleton] at mem
    exact Token.legible_elements (show (Token.text text).Legible from trivial) e mem
  obtain ⟨ls, drained, same⟩ := exists_drain_printAll legible
  rw [written] at drained
  rw [Lexeme.elements, ← List.flatMap_map, List.flatMap_singleton] at same
  refine ⟨ls, ?_, same⟩
  cases trim with
  | false => exact drained
  | true =>
    have bare : ∀ l ∈ ls, l.token.isMarker = false := by
      intro l mem
      cases token : l.token with
      | text content => rfl
      | var name => rfl
      | _ =>
        have there : .marked l.token ∈ (ls.map Lexeme.token).flatMap Token.elements :=
          List.mem_flatMap.2 ⟨_, List.mem_map_of_mem mem, by simp [token, Token.elements]⟩
        rw [same] at there
        obtain ⟨c, -, other⟩ := List.mem_map.1 there
        cases other
    rw [drain_trim, drained, Lexeme.trimmed_eq_self bare]

end Tokenizer

theorem Model.toList_body_ofPieces_text (text : String) :
    ((ofPieces [.text text]).block root).body.toList =
      if text.isEmpty then [] else [.literal text] := by
  have body : ((ofPieces [.text text]).block root).body = (Block.addText text {}).body := by
    simp [ofPieces, Builder.start, Builder.add, mapBlock, block, empty, root]
  rw [body, Block.addText]
  split <;> rfl

/-- A text by itself renders as it is, whatever the bindings are. -/
theorem Bindings.render_ofPieces_text (text : String) (b : Bindings) :
    b.render (Model.ofPieces [.text text]) = .ok text := by
  rw [render, Evaluation.render, Model.toList_body_ofPieces_text]
  by_cases nothing : text = ""
  · rw [if_pos (by simp [nothing]), List.map_nil, Evaluation.run, nothing]
  · rw [if_neg (by simp [nothing]), List.map_singleton, Evaluation.run, Evaluation.run,
      String.empty_append]

/-- A text that is written with its escapes compiles to a model that renders as the text. -/
theorem render_escape (text : String) (flags : FlagSet) (options : Options)
    (loader : Option Loader) :
    ∃ m, compile (String.ofList (Token.escape text.toList)) flags options loader = .ok m ∧
      ∀ d : Document, d.model = m → d.render = .ok text := by
  obtain ⟨ls, drained, same⟩ := Tokenizer.exists_drain_escape options.trim text
  have alone : text.toList.map .literal =
      ([Piece.text text].map Piece.token).flatMap Token.elements := by
    simp [Piece.token, Token.elements]
  rw [alone] at same
  obtain ⟨pieces, tokens, split⟩ := Piece.exists_of_elements same
  have closes : pieces.foldlM Piece.openAfter [] = some [] := by
    rw [← Piece.foldlM_flatMap_split, split, Piece.foldlM_flatMap_split]
    rfl
  refine ⟨_, compile_of_pieces drained tokens closes flags loader, ?_⟩
  rw [Piece.ofPieces_congr split]
  intro d model
  rw [Document.render, model, Bindings.render_ofPieces_text]
  rfl

/-- Tokens that can be written are read again in their normal form. What is delivered of any text
can be written and is in normal form, so it is read again as it is. A text that is written with its
escapes renders as the text. -/
theorem Tokenizer.drain_printAll :
    (∀ tokens : List Token, (∀ token ∈ tokens, token.Legible) →
      ∃ ls, (ofText false (Token.printAll tokens)).drain = (ls, none) ∧
        ls.map Lexeme.token = Token.normalForm tokens) ∧
    (∀ (trim : Bool) (text : String) (delivered : List Token),
      (ofText trim text).drain.1.map Lexeme.token = delivered →
        (∀ token ∈ delivered, token.Legible) ∧ Token.normalForm delivered = delivered ∧
          ∃ ls, (ofText false (Token.printAll delivered)).drain = (ls, none) ∧
            ls.map Lexeme.token = delivered) ∧
    ∀ (text : String) (flags : FlagSet) (options : Options) (loader : Option Loader),
      ∃ m, compile (String.ofList (Token.escape text.toList)) flags options loader = .ok m ∧
        ∀ d : Document, d.model = m → d.render = .ok text := by
  refine ⟨fun _ => drain_print_tokens, fun trim text delivered tokens => ?_, render_escape⟩
  have legible : ∀ token ∈ delivered, token.Legible := by
    intro token mem
    rw [← tokens] at mem
    obtain ⟨l, there, rfl⟩ := List.mem_map.1 mem
    exact legible_drain trim text l there
  have normal : Token.normalForm delivered = delivered :=
    Token.normalForm_eq (tokens ▸ normal_drain trim text) rfl
  obtain ⟨ls, drained, same⟩ := drain_print_tokens legible
  exact ⟨legible, normal, ls, drained, same.trans normal⟩

/-- Texts that are cut in other places, and a bracket that is no marker's. -/
theorem Tokenizer.drain_printAll_texts :
    (∀ token ∈ [Token.text "a", .text "", .text "\n[", .ifCond "x"], token.Legible) ∧
      ∃ ls, (ofText false (Token.printAll [.text "a", .text "", .text "\n[", .ifCond "x"])).drain =
          (ls, none) ∧
        ls.map Lexeme.token = [.text "a\n", .text "[", .ifCond "x"] := by
  have argument : Token.IsArgument "x".toList := ⟨by decide, by decide, by decide, rfl⟩
  have legible :
      ∀ token ∈ [Token.text "a", .text "", .text "\n[", .ifCond "x"], token.Legible := by
    intro token mem
    rcases mem with _ | ⟨_, _ | ⟨_, _ | ⟨_, _ | ⟨_, ⟨⟩⟩⟩⟩⟩
    · trivial
    · trivial
    · trivial
    · exact argument
  exact ⟨legible, drain_printAll.1 _ legible⟩

/-! ## Compiling written models

A model is written as the tokens of its outline, up to the parts of the texts. So the template that
a model is written as compiles to that model again.
-/

/-- The names in the pieces of a template are names. -/
theorem Outline.closed_legible :
    Closed fun _ o => ∀ piece ∈ o.pieces, piece.token.Legible where
  nil _ _ mem := by cases mem
  text content h := List.forall_mem_cons.2 ⟨trivial, h⟩
  var named h := List.forall_mem_cons.2 ⟨named, h⟩
  block named _ inside h := by
    refine List.forall_mem_cons.2 ⟨named, fun piece mem => ?_⟩
    rcases List.mem_append.1 mem with mem | mem
    · exact inside piece mem
    · exact List.forall_mem_cons.2 ⟨trivial, h⟩ piece mem
  append h h' := by
    rw [pieces_append]
    exact fun piece mem => (List.mem_append.1 mem).elim (h piece) (h' piece)

theorem Outline.pieces_number {α : Type} (o : Outline α) (next : Nat) :
    (o.number next).pieces = o.pieces := by
  induction o generalizing next <;> simp_all [number, pieces]

namespace Model

variable {m : Model}

def nodeTokens (m : Model) : Node → List Token
  | .literal text => [.text text]
  | .var index _ => [.var (m.variableName index)]
  | .block id => .beginBlock (m.block id).name :: (m.bodyTokens id ++ [.endBlock none])

theorem bodyTokens_eq (m : Model) (id : Nat) :
    m.bodyTokens id = (m.block id).body.toList.flatMap m.nodeTokens := by
  rw [bodyTokens]
  conv_rhs => rw [← List.attach_map_subtype_val (m.block id).body.toList, List.flatMap_map]
  refine congrArg (List.flatMap · _) (funext fun ⟨node, mem⟩ => ?_)
  cases node <;> rfl

def elements (m : Model) (nodes : List Node) : List Token.Element :=
  (nodes.flatMap m.nodeTokens).flatMap Token.elements

theorem elements_joinText (m : Model) (content : String) (nodes : List Node) :
    m.elements (joinText content nodes) = content.toList.map .literal ++ m.elements nodes := by
  by_cases nothing : content = ""
  · rw [nothing, joinText_empty]
    rfl
  · unfold joinText
    rw [if_neg (by simpa using nothing)]
    split
    · simp [elements, nodeTokens, Token.elements]
    · simp [elements, nodeTokens, Token.elements]

/-- The body of a block is written as its part of the outline. -/
theorem Hosts.elements_nodes {parent slot : Nat} {o : Outline Nat} (h : m.Hosts parent slot o)
    (known : ∀ ref ∈ o.references, ref ∈ m.vars.toList) (slotOf : String → Nat) :
    m.elements (o.nodes m.indexOf slotOf) =
      (o.pieces.map Piece.token).flatMap Token.elements := by
  induction o generalizing parent slot slotOf with
  | nil => rfl
  | text content rest ih =>
    rw [Outline.nodes, elements_joinText, ih h known]
    rfl
  | var name rest ih =>
    have later := ih h (fun ref mem => known ref (List.mem_cons_of_mem name mem)) slotOf
    have here := variableName_indexOf (known name List.mem_cons_self)
    show [.marked (.var (m.variableName (m.indexOf name)))] ++ m.elements (rest.nodes _ _) =
      [.marked (.var name)] ++ (rest.pieces.map Piece.token).flatMap Token.elements
    rw [here, later]
  | block name id inner rest ihInner ihRest =>
    obtain ⟨-, -, layout, inside, beyond⟩ := h
    have called : (m.block id).name = name := congrArg BlockLayout.name layout
    have within : (m.bodyTokens id).flatMap Token.elements =
        (inner.pieces.map Piece.token).flatMap Token.elements := by
      rw [bodyTokens_eq, body_of_layout layout]
      exact ihInner inside (fun ref mem => known ref (List.mem_append_left _ mem)) _
    have later := ihRest beyond (fun ref mem => known ref (List.mem_append_right _ mem)) slotOf
    have whole : m.elements ((Outline.block name id inner rest).nodes m.indexOf slotOf) =
        .marked (.beginBlock name) :: ((m.bodyTokens id).flatMap Token.elements ++
          .marked (.endBlock none) :: m.elements (rest.nodes m.indexOf slotOf)) := by
      simp [elements, Outline.nodes, nodeTokens, Token.elements, called]
    rw [whole, within, later]
    simp [Outline.pieces, Piece.token, Token.elements]

/-- A model is written as the tokens of its outline. -/
theorem Outlined.elements_bodyTokens {o : Outline Nat} (h : m.Outlined o) :
    (m.bodyTokens root).flatMap Token.elements =
      (o.pieces.map Piece.token).flatMap Token.elements := by
  rw [bodyTokens_eq, body_of_layout h.body]
  refine h.hosts.elements_nodes (fun ref mem => ?_) _
  rw [h.vars]
  exact List.mem_eraseDups.2 mem

end Model

/-- The template that a compiled model is written as compiles to the same model, with any flags and
however deep includes may nest. -/
theorem compile_print {source : String} {flags : FlagSet} {options : Options}
    {loader : Option Loader} {m : Model} (h : compile source flags options loader = .ok m)
    (flags' : FlagSet) (depth : Nat) :
    compile m.print flags' { trim := false, maxIncludeDepth := depth } none = .ok m := by
  obtain ⟨o, found, outlined⟩ := exists_outlined_of_compile h
  have made : Model.ofPieces o.pieces = m := by
    rw [compile_eq_map_ofSource, found] at h
    exact Except.ok.inj h
  have written := outlined.elements_bodyTokens
  rw [Outline.pieces_number] at written
  have legible : ∀ e ∈ (m.bodyTokens Model.root).flatMap Token.elements, e.Legible := by
    rw [written]
    intro e mem
    obtain ⟨token, there, mem⟩ := List.mem_flatMap.1 mem
    obtain ⟨piece, listed, rfl⟩ := List.mem_map.1 there
    exact Token.legible_elements (Outline.closed_legible.ofSource found piece listed) e mem
  obtain ⟨ls, lexes, same⟩ := Tokenizer.exists_drain_printAll legible
  rw [written, Lexeme.elements, ← List.flatMap_map] at same
  obtain ⟨pieces, tokens, split⟩ := Piece.exists_of_elements same
  have closes : pieces.foldlM Piece.openAfter [] = some [] := by
    rw [← Piece.foldlM_flatMap_split, split, Piece.foldlM_flatMap_split]
    exact Piece.foldlM_pieces (Outline.proper_of_ofSource found)
  rw [compile_of_pieces lexes tokens closes, Piece.ofPieces_congr split, made]

theorem compile_print_rows :
    ∃ m, compile "\\\x7b[beginblock:row]{x}[endblock:row]" .empty {} none = .ok m ∧
      compile m.print .empty { trim := false, maxIncludeDepth := 0 } none = .ok m := by
  have items : Item.ofText true "\\\x7b[beginblock:row]{x}[endblock:row]" =
      .ok [.text "\x7b", .beginBlock "row" ⟨1, 3⟩, .var "x", .endBlock] :=
    Item.ofText_of_drainWithin rfl rfl
  obtain ⟨m, compiled⟩ :
      ∃ m, compile "\\\x7b[beginblock:row]{x}[endblock:row]" .empty {} none = .ok m := by
    rw [compile, items]
    exact ⟨_, rfl⟩
  exact ⟨m, compiled, compile_print compiled .empty 0⟩

end Stencil
