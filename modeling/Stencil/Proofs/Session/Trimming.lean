import Stencil.Proofs.Session.Concatenation
import Stencil.Proofs.Token.Trimming

/-! # Templates without blank texts

Leaving out blank texts changes nothing but blanks, from the outline to the text of the document.
-/

/-! ## Outlines without some blank texts

An outline from which blank texts have been left out has the same blocks and variables, so it is
laid out in the same way up to the literals. Its text is that of the whole outline without some
blanks. Main statements: `Thins.bare_layout` and `Thins.agree_render`.
-/

namespace Stencil

def Piece.IsBlankText (piece : Piece) : Prop :=
  ∃ content, piece = .text content ∧ ∀ c ∈ content.toList, Text.isBlank c = true

namespace Outline

/-- The first outline is the second without some blank texts. -/
inductive Thins {α : Type} : Outline α → Outline α → Prop
  | nil : Thins nil nil
  | text (content : String) {rest rest' : Outline α} :
    Thins rest rest' → Thins (text content rest) (text content rest')
  | blank {content : String} {rest rest' : Outline α} :
    (∀ c ∈ content.toList, Text.isBlank c = true) → Thins rest rest' →
      Thins rest (Outline.text content rest')
  | var (name : String) {rest rest' : Outline α} :
    Thins rest rest' → Thins (var name rest) (var name rest')
  | block (name : String) (mark : α) {inner inner' rest rest' : Outline α} :
    Thins inner inner' → Thins rest rest' →
      Thins (block name mark inner rest) (block name mark inner' rest')

/-! ### Outlines of pieces -/

def Closing : List Piece → Prop
  | [] => True
  | .endBlock :: _ => True
  | _ => False

theorem exists_kept {piece : Piece} {part all : List Piece}
    (h : Omits Piece.IsBlankText part (piece :: all)) (other : ∀ content, piece ≠ .text content) :
    ∃ rest, part = piece :: rest ∧ Omits Piece.IsBlankText rest all :=
  h.exists_of_cons fun ⟨content, same, _⟩ => other content same

/-- Pieces that are left out of those of an outline leave an outline, and what follows is left. -/
theorem Thins.of_omits {o o' : Outline Unit} {tail tail' : List Piece}
    (h : Omits Piece.IsBlankText (o.pieces ++ tail) (o'.pieces ++ tail')) (closing : Closing tail)
    (closing' : Closing tail') : o.Thins o' ∧ Omits Piece.IsBlankText tail tail' := by
  -- Along the whole outline: the piece that is next is kept, or is a blank text and left out.
  induction o' generalizing o tail tail' with
  | nil =>
    have nothing : o = .nil := by
      rw [pieces, List.nil_append] at h
      rcases tail' with _ | ⟨piece, tail'⟩
      · cases o <;> cases h
        rfl
      · cases piece with
        | endBlock =>
          obtain ⟨rest, same, -⟩ := exists_kept h (by simp)
          cases o <;> cases same
          rfl
        | _ => exact closing'.elim
    subst nothing
    exact ⟨.nil, h⟩
  | text content rest' ih =>
    rw [pieces, List.cons_append] at h
    generalize whole : o.pieces ++ tail = part at h
    cases h with
    | keep _ h =>
      cases o with
      | nil =>
        cases whole
        exact closing.elim
      | text content' rest =>
        cases whole
        obtain ⟨thins, after⟩ := ih h closing closing'
        exact ⟨.text content thins, after⟩
      | _ => cases whole
    | drop blank h =>
      obtain ⟨_, ⟨⟩, blank⟩ := blank
      obtain ⟨thins, after⟩ := ih (whole ▸ h) closing closing'
      exact ⟨.blank blank thins, after⟩
  | var name rest' ih =>
    obtain ⟨part, whole, h⟩ := exists_kept h (by simp)
    cases o with
    | nil =>
      cases whole
      exact closing.elim
    | var name' rest =>
      cases whole
      obtain ⟨thins, after⟩ := ih h closing closing'
      exact ⟨.var name thins, after⟩
    | _ => cases whole
  | block name mark inner' rest' ihInner ihRest =>
    rw [pieces, List.cons_append, List.append_assoc, List.cons_append] at h
    obtain ⟨part, whole, h⟩ := exists_kept h (by simp)
    cases o with
    | nil =>
      cases whole
      exact closing.elim
    | block name' mark' inner rest =>
      rw [pieces, List.cons_append, List.append_assoc, List.cons_append] at whole
      cases whole
      obtain ⟨inside, h⟩ := ihInner h trivial trivial
      obtain ⟨part, whole, h⟩ := exists_kept h (by simp)
      cases whole
      obtain ⟨thins, after⟩ := ihRest h closing closing'
      exact ⟨.block name mark inside thins, after⟩
    | _ => cases whole

namespace Thins

variable {α β : Type} {o o' : Outline α}

theorem map (h : o.Thins o') (f : α → β) : (o.map f).Thins (o'.map f) := by
  induction h with
  | nil => exact .nil
  | text content _ ih => exact .text content ih
  | blank blank _ ih => exact .blank blank ih
  | var name _ ih => exact .var name ih
  | block name mark _ _ ihInner ihRest => exact .block name (f mark) ihInner ihRest

theorem blockCount_eq (h : o.Thins o') : o.blockCount = o'.blockCount := by
  induction h <;> simp_all [blockCount]

theorem number (h : o.Thins o') (next : Nat) : (o.number next).Thins (o'.number next) := by
  induction h generalizing next with
  | nil => exact .nil
  | text content _ ih => exact .text content (ih next)
  | blank blank _ ih => exact .blank blank (ih next)
  | var name _ ih => exact .var name (ih next)
  | block name mark inner _ ihInner ihRest =>
    rw [Outline.number, Outline.number, ← inner.blockCount_eq]
    exact .block name next (ihInner _) (ihRest _)

theorem blockNames_eq (h : o.Thins o') : o.blockNames = o'.blockNames := by
  induction h <;> simp_all [blockNames]

theorem references_eq (h : o.Thins o') : o.references = o'.references := by
  induction h <;> simp_all [references]

theorem ownReferences_eq (h : o.Thins o') : o.ownReferences = o'.ownReferences := by
  induction h <;> simp_all [ownReferences]

theorem marks_eq (h : o.Thins o') : o.marks = o'.marks := by
  induction h <;> simp_all [marks]

end Thins

end Outline

/-! ### Layouts without literals -/

def BlockLayout.bare (b : BlockLayout) : BlockLayout :=
  { b with body := b.body.filter (!·.isLiteral) }

def Layout.bare (l : Layout) : Layout :=
  { l with blocks := l.blocks.map BlockLayout.bare }

theorem filter_isLiteral_joinText (content : String) (nodes : List Node) :
    (joinText content nodes).filter (!·.isLiteral) = nodes.filter (!·.isLiteral) := by
  unfold joinText
  split
  · rfl
  · split <;> rfl

namespace Outline.Thins

theorem filter_nodes {o o' : Outline Nat} (h : o.Thins o') (index slot : String → Nat) :
    (o.nodes index slot).filter (!·.isLiteral) = (o'.nodes index slot).filter (!·.isLiteral) := by
  induction h with
  | nil => rfl
  | text content _ ih => rw [nodes, nodes, filter_isLiteral_joinText, filter_isLiteral_joinText, ih]
  | blank _ _ ih => rw [nodes, filter_isLiteral_joinText, ih]
  | var name _ ih => simpa [nodes, Node.isLiteral] using ih
  | block name mark _ _ _ ih => simpa [nodes, Node.isLiteral] using ih

theorem bare_blockLayout {o o' : Outline Nat} (h : o.Thins o') (index : String → Nat)
    (name : String) (parent : Option Nat) (slot : Nat) :
    (o.blockLayout index name parent slot).bare = (o'.blockLayout index name parent slot).bare := by
  simp only [blockLayout, BlockLayout.bare, h.ownReferences_eq, h.marks_eq, h.filter_nodes]

theorem bare_blockLayouts {o o' : Outline Nat} (h : o.Thins o') (index : String → Nat)
    (parent slot : Nat) :
    (o.blockLayouts index parent slot).map BlockLayout.bare =
      (o'.blockLayouts index parent slot).map BlockLayout.bare := by
  induction h generalizing parent slot with
  | nil => rfl
  | text content _ ih => exact ih parent slot
  | blank _ _ ih => exact ih parent slot
  | var name _ ih => exact ih parent slot
  | block name mark inner _ ihInner ihRest =>
    simp only [blockLayouts, List.map_cons, List.map_append, inner.bare_blockLayout, ihInner,
      ihRest]

theorem bare_layout {o o' : Outline Nat} (h : o.Thins o') : o.layout.bare = o'.layout.bare := by
  simp only [layout, Layout.bare, List.map_cons, h.references_eq, h.blockNames_eq,
    h.bare_blockLayout, h.bare_blockLayouts]

end Outline.Thins

/-! ### Texts without some blanks -/

namespace Text

def Thins (s s' : String) : Prop :=
  Omits (isBlank · = true) s.toList s'.toList

variable {s s' t t' : String}

theorem Thins.refl (s : String) : Thins s s :=
  Omits.refl s.toList

theorem Thins.append (h : Thins s s') (h' : Thins t t') : Thins (s ++ t) (s' ++ t') := by
  rw [Thins, String.toList_append, String.toList_append]
  exact Omits.append h h'

theorem Thins.prepend_blank (h : Thins s s') (blank : ∀ c ∈ t.toList, isBlank c = true) :
    Thins s (t ++ s') := by
  rw [Thins, String.toList_append]
  exact (Omits.nil_of_forall blank).append h

end Text

namespace Outline

theorem agree_concat {α : Type} (parts : List α) {f g : α → Except UnboundVariable String}
    (h : ∀ a, Agree Text.Thins (f a) (g a)) :
    Agree Text.Thins (concat (parts.map f)) (concat (parts.map g)) := by
  induction parts with
  | nil => exact .ok (.refl _)
  | cons a parts ih =>
    exact (h a).bind fun _ _ thins => ih.bind fun _ _ thins' => .ok (thins.append thins')

/-- An outline is written as the whole outline is, without some blanks, or fails like it. -/
theorem Thins.agree_render {α : Type} {o o' : Outline α} (h : o.Thins o')
    (values : String → Option String) (scopes : List (String → Option String))
    (parts : List (List Sealed)) :
    Agree Text.Thins (o.render values scopes parts) (o'.render values scopes parts) := by
  induction h generalizing scopes parts with
  | nil => exact .ok (.refl _)
  | text content _ ih =>
    exact (ih scopes parts).bind fun _ _ thins => .ok (.append (.refl content) thins)
  | @blank content rest rest' blank _ ih =>
    rw [render]
    obtain ⟨e, trimmed, whole⟩ | ⟨after, after', trimmed, whole, thins⟩ := (ih scopes parts).both
    · rw [trimmed, whole]
      exact .error e
    · rw [trimmed, whole]
      exact .ok (thins.prepend_blank blank)
  | var name _ ih =>
    rw [render, render]
    cases lookup values scopes name with
    | none => exact .error _
    | some value => exact (ih scopes parts).bind fun _ _ thins => .ok (.append (.refl value) thins)
  | block name mark _ _ ihInner ihRest =>
    exact (agree_concat _ fun made => ihInner _ _).bind fun _ _ thins =>
      (ihRest scopes parts.tail).bind fun _ _ thins' => .ok (thins.append thins')

end Outline

/-! ## Trimming and outlines

Blank texts show in no error and in no decision on the way from a template to its outline, so with
trimming and without it the way ends in the same error or in outlines of which one is the other
without some blank texts. Main statement: `agree_ofSource`.
-/

/-! ### Items -/

namespace Item

def IsBlankText (item : Item) : Prop :=
  ∃ content, item = .text content ∧ ∀ c ∈ content.toList, Text.isBlank c = true

theorem agree_ofLexemes {ls ls' : List Lexeme} (h : Omits Lexeme.IsBlankText ls ls')
    (scopes : List Scope) {done done' : List Item} (before : Omits IsBlankText done done') :
    Agree (fun x y => Omits IsBlankText x.1 y.1 ∧ x.2 = y.2)
      (ofLexemes scopes done ls) (ofLexemes scopes done' ls') := by
  induction h generalizing scopes done done' with
  | nil => exact .ok ⟨before.reverse, rfl⟩
  | keep l _ ih =>
    rw [ofLexemes, ofLexemes]
    cases ofLexeme scopes l with
    | error e => exact .error e
    | ok result => exact ih result.2 (.keep result.1 before)
  | @drop l _ _ blank _ ih =>
    obtain ⟨content, token, blank⟩ := blank
    have read : ofLexeme scopes l = .ok (.text content, scopes) := by rw [ofLexeme, token]
    rw [ofLexemes, read]
    exact ih scopes (.drop ⟨content, rfl, blank⟩ before)

/-- Trimming leaves out blank texts and changes no error. -/
theorem agree_ofText (text : String) :
    Agree (Omits IsBlankText) (ofText true text) (ofText false text) := by
  have agree := agree_ofLexemes (Lexeme.omits_trimmed (Tokenizer.ofText false text).drain.1) []
    .nil
  rw [ofText, ofText, Tokenizer.drain_trim]
  generalize (Tokenizer.ofText false text).drain = drained at agree ⊢
  obtain ⟨ls, stopped⟩ := drained
  simp only at agree ⊢
  obtain ⟨e, trimmed, whole⟩ | ⟨⟨items, scopes⟩, ⟨items', _⟩, trimmed, whole, omits, rfl⟩ :=
    agree.both
  · simp only [trimmed, whole]
    exact .error e
  · simp only [trimmed, whole]
    cases stopped with
    | some e => exact .error e
    | none =>
      cases scopes with
      | nil => exact .ok omits
      | cons scope scopes => exact .error scope.unclosed

end Item

/-! ### Pieces -/

namespace Expansion

/-- Without some blank texts, an expansion has come just as far. -/
def State.Thins (st st' : State) : Prop :=
  ∃ pieces, Omits Piece.IsBlankText pieces st'.pieces ∧ st = { st' with pieces := pieces }

def Splice.Agrees (splice splice' : Splice) : Prop :=
  ∀ name position marker st st', State.Thins st st' →
    Agree State.Thins (splice name position marker st) (splice' name position marker st')

variable {flags : FlagSet} {origin : Option String} {splice splice' : Splice} {st st' : State}

theorem State.Thins.addPiece (h : st.Thins st') (piece : Piece) :
    (st.addPiece piece).Thins (st'.addPiece piece) := by
  obtain ⟨pieces, omits, rfl⟩ := h
  unfold State.addPiece
  split
  · exact ⟨_, .keep piece omits, rfl⟩
  · exact ⟨pieces, omits, rfl⟩

theorem State.Thins.addBlank (h : st.Thins st') {piece : Piece} (blank : piece.IsBlankText) :
    st.Thins (st'.addPiece piece) := by
  obtain ⟨pieces, omits, rfl⟩ := h
  unfold State.addPiece
  split
  · exact ⟨_, .drop blank omits, rfl⟩
  · exact ⟨pieces, omits, rfl⟩

theorem State.Thins.openBlock (h : st.Thins st') (name : String) (position : Position) :
    Agree State.Thins (st.openBlock origin name position) (st'.openBlock origin name position) := by
  obtain ⟨pieces, omits, rfl⟩ := h
  unfold State.openBlock
  split
  · exact .ok ⟨pieces, omits, rfl⟩
  · split
    · exact .error _
    · exact .ok ⟨_, .keep _ omits, rfl⟩

theorem State.Thins.closeBlock (h : st.Thins st') : st.closeBlock.Thins st'.closeBlock := by
  obtain ⟨pieces, omits, rfl⟩ := h
  unfold State.closeBlock
  simp only
  split
  · exact ⟨_, .keep _ omits, rfl⟩
  · exact ⟨pieces, omits, rfl⟩
  · exact ⟨pieces, omits, rfl⟩

theorem State.Thins.nextBranch (h : st.Thins st') (holds : Bool) :
    (st.nextBranch holds).Thins (st'.nextBranch holds) := by
  obtain ⟨pieces, omits, rfl⟩ := h
  unfold State.nextBranch
  simp only
  split
  · exact ⟨pieces, omits, rfl⟩
  · exact ⟨pieces, omits, rfl⟩

theorem State.Thins.closeConditional (h : st.Thins st') :
    st.closeConditional.Thins st'.closeConditional := by
  obtain ⟨pieces, omits, rfl⟩ := h
  unfold State.closeConditional
  simp only
  split
  · exact ⟨pieces, omits, rfl⟩
  · exact ⟨pieces, omits, rfl⟩
  · exact ⟨pieces, omits, rfl⟩

theorem agree_step (agrees : Splice.Agrees splice splice') (h : st.Thins st') (item : Item) :
    Agree State.Thins (step flags origin splice st item) (step flags origin splice' st' item) := by
  cases item with
  | text content => exact .ok (h.addPiece _)
  | var name => exact .ok (h.addPiece _)
  | beginBlock name position => exact h.openBlock name position
  | endBlock => exact .ok h.closeBlock
  | ifCond condition =>
    obtain ⟨pieces, omits, rfl⟩ := h
    exact .ok ⟨pieces, omits, rfl⟩
  | elseIf condition => exact .ok (h.nextBranch _)
  | otherwise => exact .ok (h.nextBranch _)
  | endIf => exact .ok h.closeConditional
  | inclusion name position marker =>
    have kept : st.kept = st'.kept := by
      obtain ⟨pieces, -, rfl⟩ := h
      rfl
    rw [step, step, kept]
    split
    · exact agrees name position marker st st' h
    · exact .ok h

/-- Blank texts left out change nothing but the texts. -/
theorem agree_steps (agrees : Splice.Agrees splice splice') {items items' : List Item}
    (omits : Omits Item.IsBlankText items items') (h : st.Thins st') :
    Agree State.Thins (steps flags origin splice st items)
      (steps flags origin splice' st' items') := by
  induction omits generalizing st st' with
  | nil => exact .ok h
  | keep item _ ih =>
    rw [steps_cons, steps_cons]
    exact (agree_step agrees h item).bind fun _ _ related => ih related
  | drop blank _ ih =>
    obtain ⟨content, rfl, blank⟩ := blank
    exact ih (h.addBlank ⟨content, rfl, blank⟩)

theorem agree_expand (flags : FlagSet) (limit : Nat) (loader : Option Loader) (depth : Nat)
    (origin : Option String) {items items' : List Item}
    (omits : Omits Item.IsBlankText items items') (h : st.Thins st') :
    Agree State.Thins (expand flags ⟨true, limit⟩ loader depth origin st items)
      (expand flags ⟨false, limit⟩ loader depth origin st' items') := by
  induction depth generalizing origin items items' st st' with
  | zero =>
    rw [expand, expand]
    refine agree_steps (fun name position marker before before' thins => ?_) omits h
    exact .error _
  | succ depth ih =>
    rw [expand, expand]
    refine agree_steps (fun name position marker before before' thins => ?_) omits h
    cases loader with
    | none => exact .error _
    | some load =>
      simp only
      cases load name with
      | error e => exact .error _
      | ok text =>
        simp only
        obtain ⟨e, trimmed, whole⟩ | ⟨items, items', trimmed, whole, omits⟩ :=
          (Item.agree_ofText text).both
        · simp only [trimmed, whole]
          exact .error _
        · simp only [trimmed, whole]
          exact ih (some name) omits thins

end Expansion

theorem Piece.agree_ofItems (flags : FlagSet) (limit : Nat) (loader : Option Loader)
    {items items' : List Item} (omits : Omits Item.IsBlankText items items') :
    Agree (Omits IsBlankText) (ofItems flags ⟨true, limit⟩ loader items)
      (ofItems flags ⟨false, limit⟩ loader items') := by
  have start : Expansion.State.start.Thins Expansion.State.start := ⟨[], .nil, rfl⟩
  refine (Expansion.agree_expand flags limit loader limit none omits start).map ?_
  rintro _ after ⟨pieces, omits, rfl⟩
  exact omits.reverse

/-- With trimming and without it, a template has the same error or outlines of which the first is
the second without some blank texts. -/
theorem Outline.agree_ofSource (source : String) (flags : FlagSet) (limit : Nat)
    (loader : Option Loader) :
    Agree Thins (ofSource source flags ⟨true, limit⟩ loader)
      (ofSource source flags ⟨false, limit⟩ loader) := by
  have agree : Agree (Omits Piece.IsBlankText)
      ((ofSource source flags ⟨true, limit⟩ loader).map pieces)
      ((ofSource source flags ⟨false, limit⟩ loader).map pieces) := by
    rw [map_pieces_ofSource, map_pieces_ofSource]
    obtain ⟨e, trimmed, whole⟩ | ⟨items, items', trimmed, whole, omits⟩ :=
      (Item.agree_ofText source).both
    · simp only [trimmed, whole]
      exact .error _
    · simp only [trimmed, whole]
      exact Piece.agree_ofItems flags limit loader omits
  refine agree.of_map.mono fun o o' omits => ?_
  rw [← List.append_nil o.pieces, ← List.append_nil o'.pieces] at omits
  exact (Thins.of_omits omits trivial trivial).1

/-! ## Documents of trimmed templates

A template compiles with trimming as it does without, up to blanks: the errors are the same, the
models differ in their literals only, and the two documents being filled in alike, the text of the
trimmed one is that of the other without some blanks. Main statement: `compile_trim`.
-/

namespace Outline.Thins

variable {o o' : Outline (List Sealed)}

theorem sealAll (h : o.Thins o') (values : String → Option String) (target : String)
    (taken : Bool) : (o.sealAll values target taken).Thins (o'.sealAll values target taken) := by
  induction h generalizing taken with
  | nil => exact .nil
  | text content _ ih => exact .text content (ih taken)
  | blank blank _ ih => exact .blank blank (ih taken)
  | var name _ ih => exact .var name (ih taken)
  | @block name pending inner inner' rest rest' inside _ ihInner ihRest =>
    have snapshot : inner.snapshot values = inner'.snapshot values := by
      funext name
      rw [Outline.snapshot, Outline.snapshot, inside.ownReferences_eq]
    rw [Outline.sealAll, Outline.sealAll, snapshot, inside.marks_eq]
    split
    · exact .block name _ (ihInner true) (ihRest taken)
    · exact .block name _ (ihInner false) (ihRest taken)

end Outline.Thins

structure Session.Thins (s s' : Session) : Prop where
  values : s.values = s'.values
  document : s.document.Thins s'.document

namespace Session.Thins

theorem start {α : Type} {o o' : Outline α} (h : o.Thins o') :
    Session.Thins (.start o) (.start o') :=
  ⟨rfl, h.map _⟩

theorem step {s s' : Session} (h : s.Thins s') (command : Command) :
    (s.step command).Thins (s'.step command) := by
  cases command with
  | set name value => exact ⟨by simp only [Session.step, h.values], h.document⟩
  | add name =>
    refine ⟨h.values, ?_⟩
    simp only [Session.step, h.values]
    exact h.document.sealAll _ name false
  | clear => exact .start h.document

theorem after {s s' : Session} (h : s.Thins s') (commands : List Command) :
    (s.after commands).Thins (s'.after commands) := by
  induction commands generalizing s s' with
  | nil => exact h
  | cons command commands ih => exact ih (h.step command)

theorem agree_render {s s' : Session} (h : s.Thins s') : Agree Text.Thins s.render s'.render := by
  rw [Session.render, Session.render, h.values, h.document.marks_eq]
  exact h.document.agree_render _ _ _

end Session.Thins

/-- Trimming affects blanks only. It takes the texts off the lines of markers. Both templates fail
to compile with the same error, or the models are laid out alike up to their literals, and being
filled in alike they fail to render with the same error, or the text with trimming is the other text
without some blanks. -/
theorem compile_trim (source : String) (flags : FlagSet) (loader : Option Loader) (depth : Nat) :
    (Tokenizer.ofText true source).drain =
        (Lexeme.trimmed (Tokenizer.ofText false source).drain.1,
          (Tokenizer.ofText false source).drain.2) ∧
      Agree
        (fun m m' => m.layout.bare = m'.layout.bare ∧
          ∀ (serial serial' : Nat) (commands : List Command),
            Agree
              (fun text text' => text.toList.Sublist text'.toList ∧
                text.toList.filter (!Text.isBlank ·) = text'.toList.filter (!Text.isBlank ·))
              ((Document.ofEdition ⟨serial, m⟩).after commands).render
              ((Document.ofEdition ⟨serial', m'⟩).after commands).render)
        (compile source flags ⟨true, depth⟩ loader)
        (compile source flags ⟨false, depth⟩ loader) := by
  refine ⟨Tokenizer.drain_trim source, ?_⟩
  have agree := Outline.agree_ofSource source flags depth loader
  rw [compile_eq_map_ofSource, compile_eq_map_ofSource]
  obtain ⟨e, found, found'⟩ | ⟨o, o', found, found', thins⟩ := agree.both
  · rw [found, found']
    exact .error e
  · rw [found, found']
    have outlined : (Model.ofPieces o.pieces).Outlined (o.number 1) :=
      .of_layout (Model.layout_ofPieces o) (Outline.proper_of_ofSource found)
    have outlined' : (Model.ofPieces o'.pieces).Outlined (o'.number 1) :=
      .of_layout (Model.layout_ofPieces o') (Outline.proper_of_ofSource found')
    refine .ok ⟨?_, fun serial serial' commands => ?_⟩
    · rw [Model.layout_ofPieces, Model.layout_ofPieces, (thins.number 1).bare_layout]
    · rw [Document.render_after, Document.render_after, outlined.render_after,
        outlined'.render_after]
      have render := ((Session.Thins.start thins).after commands).agree_render
      refine (render.mapError Error.unbound).mono fun text text' omits => ⟨omits.sublist, ?_⟩
      exact omits.filter_eq fun c blank => by simp [blank]

end Stencil
