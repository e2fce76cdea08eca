import Stencil.Proofs.Outline.Standing

/-! # The discipline of the loop

No scope is closed but the innermost, and what is built stands where the scopes say.
-/

/-! ## The blocks that are being built

A builder works on one block at a time; around it stand the blocks that are still open, out to the
template itself. What is built later leaves the blocks that are there in their places.
-/

namespace Stencil

def Block.place (b : Block) : String × Option Nat :=
  (b.name, b.parent)

theorem Block.map_place_modify (blocks : Array Block) (id : Nat) {f : Block → Block}
    (place_eq : ∀ b, (f b).place = b.place) :
    (blocks.modify id f).toList.map place = blocks.toList.map place := by
  apply List.ext_getElem?
  intro other
  rw [Array.toList_modify, List.getElem?_map, List.getElem?_map, List.getElem?_modify]
  cases blocks.toList[other]? with
  | none => rfl
  | some b => by_cases here : id = other <;> simp [here, place_eq]

namespace Model

def places (m : Model) : List (String × Option Nat) :=
  m.blocks.toList.map Block.place

inductive Lineage (m : Model) : Nat → List (Nat × String) → Prop
  | root : m.places[root]? = some ("", none) → m.Lineage root [(root, "")]
  | inner {id parent : Nat} {name : String} {outer : List (Nat × String)} :
    m.places[id]? = some (name, some parent) → m.Lineage parent outer →
    m.Lineage id ((id, name) :: outer)

variable {m n : Model} {id : Nat} {blocks : List (Nat × String)}

theorem length_places (m : Model) : m.places.length = m.blockCount := by
  simp [places, blockCount]

theorem parent_of_place {name : String} {parent : Option Nat}
    (h : m.places[id]? = some (name, parent)) : (m.block id).parent = parent := by
  rw [places, List.getElem?_map, Array.getElem?_toList, Option.map_eq_some_iff] at h
  obtain ⟨b, found, same⟩ := h
  rw [block, found]
  exact congrArg Prod.snd same

theorem Lineage.of_append {more : List (String × Option Nat)} (h : m.Lineage id blocks)
    (places : n.places = m.places ++ more) : n.Lineage id blocks := by
  have stays {id : Nat} {place : String × Option Nat} (found : m.places[id]? = some place) :
      n.places[id]? = some place := by
    rw [places, List.getElem?_append_left (List.getElem?_eq_some_iff.1 found).1, found]
  induction h with
  | root found => exact .root (stays found)
  | inner found _ ih => exact .inner (stays found) ih

theorem Lineage.eq_root (h : m.Lineage id [(Model.root, "")]) : id = Model.root := by
  cases h <;> rfl

/-- Around a block that is not the template itself stands its parent. -/
theorem Lineage.parent {first : Nat × String} {outer : List (Nat × String)}
    (h : m.Lineage id (first :: outer)) (around : outer ≠ []) :
    ∃ parent, (m.block id).parent = some parent ∧ m.Lineage parent outer := by
  cases h with
  | root => exact absurd rfl around
  | inner found around => exact ⟨_, parent_of_place found, around⟩

namespace Builder

variable {b : Builder}

/-- A new block stands in the one that is open, and all others stay where they are. -/
theorem places_beginBlock (b : Builder) (name : String) :
    (b.add (.beginBlock name)).model.places = b.model.places ++ [(name, some b.current)] := by
  have others : (b.model.blocks.modify b.current (Block.addChild b.model.blocks.size)).toList.map
      Block.place = b.model.places := Block.map_place_modify _ _ fun _ => rfl
  show (appendBlock b.model.blocks name b.current).toList.map Block.place = _
  rw [appendBlock, Array.toList_push, List.map_append, others]
  rfl

theorem places_text (b : Builder) (content : String) :
    (b.add (.text content)).model.places = b.model.places :=
  Block.map_place_modify _ _ fun block =>
    Prod.ext (Block.name_addText content block) (Block.parent_addText content block)

theorem places_var (b : Builder) (name : String) :
    (b.add (.var name)).model.places = b.model.places :=
  Block.map_place_modify _ _ fun block =>
    Prod.ext (Block.name_addVariable _ block) (Block.parent_addVariable _ block)

/-- A new block is open inside those that were. -/
theorem lineage_beginBlock (h : b.model.Lineage b.current blocks) (name : String) :
    (b.add (.beginBlock name)).model.Lineage (b.add (.beginBlock name)).current
      ((b.model.blockCount, name) :: blocks) := by
  have places := places_beginBlock b name
  refine .inner ?_ (h.of_append places)
  show (b.add (.beginBlock name)).model.places[b.model.blockCount]? = _
  rw [places, ← length_places, List.getElem?_concat_length]

/-- After the end of a block, the one around it is open. -/
theorem lineage_endBlock {first : Nat × String} {outer : List (Nat × String)}
    (h : b.model.Lineage b.current (first :: outer)) (around : outer ≠ []) :
    (∃ parent, (b.model.block b.current).parent = some parent) ∧
      (b.add .endBlock).model.Lineage (b.add .endBlock).current outer := by
  obtain ⟨parent, above, rest⟩ := h.parent around
  have current : (b.add .endBlock).current = parent := by rw [add, above, Option.getD_some]
  rw [current]
  exact ⟨⟨parent, above⟩, rest⟩

end Builder

end Model

end Stencil

/-! ## The discipline of the open scopes

The loop that expands a template never checks that an item fits the scope it comes in, nor that a
text closes what it opens: each text was accepted on its own, and that is enough, although a text
may be included anywhere, in blocks and in branches that its own markers do not tell of. Main
statement: `compile_discipline`.
-/

namespace Stencil.Expansion

open Item (openAfter)

/-! ### What is being built -/

section

variable {marks : List Mark} {st after : State} {origin : Option String} {item : Item}
  {flags : FlagSet} {opened : List (Option String)}

/-- The blocks that are being built are the template itself and those of the marks. -/
def Builds (marks : List Mark) (st : State) : Prop :=
  st.builder.model.Lineage st.builder.current
    (marks.filterMap Mark.built? ++ [(Model.root, "")])

theorem State.builder_eq_add {piece : Piece} (h : after.pieces = piece :: st.pieces) :
    after.builder = st.builder.add piece := by
  simp [builder, h, List.foldl_append]

theorem Builds.of_pieces_eq (builds : Builds marks st) (h : after.pieces = st.pieces) :
    Builds marks after := by
  rw [Builds, State.builder, h]
  exact builds

theorem Builds.addPiece (builds : Builds marks st) {piece : Piece}
    (places : (st.builder.add piece).model.places = st.builder.model.places)
    (current : (st.builder.add piece).current = st.builder.current) :
    Builds marks (st.addPiece piece) := by
  unfold State.addPiece
  split
  · rw [Builds, State.builder_eq_add rfl, current]
    exact builds.of_append (places.trans (List.append_nil _).symm)
  · exact builds

theorem Builds.openBlock (builds : Builds marks st) {name : String} {position : Position}
    (h : st.openBlock origin name position = .ok after) :
    Builds (⟨some name, st, after.kept, after.kept⟩ :: marks) after := by
  unfold State.openBlock at h
  split at h
  · next discarded =>
    cases h
    rw [Builds, List.filterMap_cons_none (Mark.built?_of_discarded (by simpa using discarded))]
    exact builds
  · next kept =>
    split at h
    · cases h
    · cases h
      have built : Mark.built? ⟨some name, st, st.kept, st.kept⟩ =
          some (st.builder.model.blockCount, name) :=
        Mark.built?_of_kept rfl (by simpa using kept)
      rw [Builds, List.filterMap_cons_some built, State.builder_eq_add rfl]
      exact Model.Builder.lineage_beginBlock builds name

/-- The end of a block closes the block that was built last, if it is kept, and then there is one
around it. -/
theorem Builds.closeBlock {mark : Mark} {name : String} (builds : Builds (mark :: marks) st)
    (inside : mark.Inside st) (block : mark.block = some name) :
    Builds marks st.closeBlock ∧ (mark.before.kept = true →
      ∃ parent, (st.builder.model.block st.builder.current).parent = some parent) := by
  cases inside with
  | block kept fresh here =>
    rw [Builds, List.filterMap_cons_some (Mark.built?_of_kept rfl kept)] at builds
    obtain ⟨parent, around⟩ := Model.Builder.lineage_endBlock builds (by simp)
    have closed : st.closeBlock.pieces = .endBlock :: st.pieces := by
      rw [State.closeBlock, here.scopes]
    refine ⟨?_, fun _ => parent⟩
    rw [Builds, State.builder_eq_add closed]
    exact around
  | skipped discarded here =>
    rw [Builds, List.filterMap_cons_none (Mark.built?_of_discarded discarded)] at builds
    have same : st.closeBlock.pieces = st.pieces := by rw [State.closeBlock, here.scopes]
    exact ⟨Builds.of_pieces_eq builds same, fun kept => absurd kept (by simp [discarded])⟩
  | conditional => cases block

/-- What is being built does not depend on conditionals. -/
theorem Builds.of_conditional {mark : Mark} (conditional : mark.block = none) :
    Builds (mark :: marks) st ↔ Builds marks st := by
  rw [Builds, List.filterMap_cons_none (Mark.built?_of_conditional conditional), Builds]

theorem State.pieces_nextBranch (st : State) (holds : Bool) :
    (st.nextBranch holds).pieces = st.pieces := by
  unfold nextBranch
  split <;> rfl

theorem State.pieces_closeConditional (st : State) :
    st.closeConditional.pieces = st.pieces := by
  unfold closeConditional
  split <;> rfl

theorem Stands.builds_read (stands : Stands marks st) (builds : Builds marks st)
    (fits : openAfter (marks.map Mark.block) item = some opened)
    (h : step flags origin (fun _ _ _ st => .ok st) st item = .ok after) :
    Builds (Mark.afterItem st after marks item) after := by
  cases item with
  | text content =>
    cases h
    exact builds.addPiece (Model.Builder.places_text _ _) rfl
  | var name =>
    cases h
    exact builds.addPiece (Model.Builder.places_var _ _) rfl
  | inclusion name position marker =>
    rw [step, ite_self] at h
    cases h
    exact builds
  | beginBlock name position => exact builds.openBlock h
  | ifCond condition =>
    cases h
    exact (Builds.of_conditional rfl).2 builds
  | endBlock =>
    cases h
    rcases marks with _ | ⟨⟨_ | name, before, kept, taken⟩, below⟩ <;> cases fits
    cases stands with
    | inside around here => exact (builds.closeBlock here rfl).1
  | elseIf condition =>
    cases h
    rcases marks with _ | ⟨⟨_ | name, before, kept, taken⟩, below⟩ <;> cases fits
    refine (Builds.of_conditional rfl).2 (Builds.of_pieces_eq ?_ (st.pieces_nextBranch _))
    exact (Builds.of_conditional rfl).1 builds
  | otherwise =>
    cases h
    rcases marks with _ | ⟨⟨_ | name, before, kept, taken⟩, below⟩ <;> cases fits
    refine (Builds.of_conditional rfl).2 (Builds.of_pieces_eq ?_ (st.pieces_nextBranch _))
    exact (Builds.of_conditional rfl).1 builds
  | endIf =>
    cases h
    rcases marks with _ | ⟨⟨_ | name, before, kept, taken⟩, below⟩ <;> cases fits
    exact ((Builds.of_conditional rfl).1 builds).of_pieces_eq st.pieces_closeConditional

end

/-! ### One round -/

/-- Every open text closes what it has opened, and around that stands what was open when it was
opened itself. -/
inductive Covers : List Source → List State → List Mark → Prop
  | nil : Covers [] [] []
  | cons {source : Source} {outer : List Source} {first : State} {opened : List State}
    {segment below : List Mark} :
    source.items.foldlM openAfter (segment.map Mark.block) = some [] → Stands below first →
    Covers outer opened below → Covers (source :: outer) (first :: opened) (segment ++ below)

theorem Covers.length_eq {sources : List Source} {opened : List State} {marks : List Mark}
    (h : Covers sources opened marks) : opened.length = sources.length := by
  induction h with
  | nil => rfl
  | cons _ _ _ ih => rw [List.length_cons, List.length_cons, ih]

structure Loop.Sound (l : Loop) (h : History) : Prop where
  stands : Stands h.marks l.st
  builds : Builds h.marks l.st
  covers : Covers l.sources h.opened h.marks

namespace Loop

inductive Turn (flags : FlagSet) : Source → List Source → State → History → Loop → History → Prop
  | closed {origin : Option String} {depth : Nat} {outer : List Source} {st : State}
    {h : History} :
    Turn flags ⟨[], origin, depth⟩ outer st h ⟨outer, st⟩ ⟨h.opened.tail, h.marks⟩
  | read {item : Item} {items : List Item} {origin : Option String} {depth : Nat}
    {outer : List Source} {st after : State} {h : History} :
    step flags origin (fun _ _ _ st => .ok st) st item = .ok after →
    Turn flags ⟨item :: items, origin, depth⟩ outer st h
      ⟨⟨items, origin, depth⟩ :: outer, after⟩ ⟨h.opened, Mark.afterItem st after h.marks item⟩
  | opened {name marker : String} {position : Position} {items : List Item}
    {origin : Option String} {depth : Nat} {included : Source} {outer : List Source} {st : State}
    {h : History} :
    included.items.foldlM openAfter [] = some [] →
    Turn flags ⟨.inclusion name position marker :: items, origin, depth⟩ outer st h
      ⟨included :: ⟨items, origin, depth⟩ :: outer, st⟩ ⟨st :: h.opened, h.marks⟩

variable {flags : FlagSet} {trim : Bool} {loader : Option Loader} {limit : Option Nat}
  {items : List Item} {source : Source} {outer : List Source} {st : State} {l : Loop}
  {h h' : History}

theorem closes_of_opening {origin : Option String} {depth : Nat} {name marker : String}
    {position : Position} (h : opening trim loader limit origin depth name position marker =
      .ok source) : source.items.foldlM openAfter [] = some [] := by
  unfold opening at h
  split at h
  · cases h
  · split at h
    · cases h
    · split at h
      · cases h
      · split at h <;> cases h
        next read => exact Item.foldlM_openAfter_of_ofText read

theorem turn_of_round (taken : Loop.round flags trim loader limit source outer st = .ok l)
    (h : History) : Turn flags source outer st h l (h.next source st l.st) := by
  unfold Loop.round at taken
  split at taken
  · cases taken
    exact .closed
  · next name position marker items origin depth =>
    rw [History.next]
    split at taken
    · next kept =>
      obtain ⟨included, given, rfl⟩ := Except.map_eq_ok_iff.1 taken
      rw [if_pos kept]
      exact .opened (closes_of_opening given)
    · next discarded =>
      cases taken
      rw [if_neg discarded]
      exact .read (ite_self _)
  · next item items origin depth other =>
    obtain ⟨after, read, rfl⟩ := Except.map_eq_ok_iff.1 taken
    cases item with
    | inclusion name position marker => exact absurd rfl (other name position marker)
    | _ => exact .read read

theorem sound_start (closes : items.foldlM openAfter [] = some []) :
    (start items).Sound .start where
  stands := .outside (.refl _)
  builds := .root rfl
  covers := @Covers.cons _ [] _ [] [] [] closes (.outside (.refl _)) .nil

theorem Sound.turn (sound : Sound ⟨source :: outer, st⟩ h)
    (turn : Turn flags source outer st h l h') : l.Sound h' := by
  obtain ⟨opened, marks⟩ := h
  obtain ⟨stands, builds, covers⟩ := sound
  cases covers with
  | @cons _ _ _ _ segment below closes around covers =>
    cases turn with
    | closed =>
      cases segment with
      | nil => exact ⟨stands, builds, covers⟩
      | cons => cases closes
    | @read item items origin depth _ _ after _ read =>
      -- The item fits what its own text has opened, so it fits all that is open.
      obtain ⟨scopes, fits, closes⟩ := Item.foldlM_openAfter_cons.1 closes
      obtain ⟨left, left_eq, rfl⟩ := Mark.afterItem_append fits st after below
      have here := Item.openAfter_append fits (below.map Mark.block)
      rw [← List.map_append] at here
      have covers : Covers (⟨items, origin, depth⟩ :: outer) _ (left ++ below) :=
        .cons closes around covers
      rw [← left_eq] at covers
      exact ⟨stands.read here read, stands.builds_read builds here read, covers⟩
    | opened closed =>
      obtain ⟨scopes, fits, closes⟩ := Item.foldlM_openAfter_cons.1 closes
      cases fits
      -- The text that is opened has opened nothing; below it is all that is open.
      exact ⟨stands, builds, @Covers.cons _ _ _ _ [] _ closed stands (.cons closes around covers)⟩

theorem Traced.sound (closes : items.foldlM openAfter [] = some [])
    (traced : Traced flags trim loader limit items l h) : l.Sound h := by
  induction traced with
  | start => exact sound_start closes
  | round _ taken ih => exact ih.turn (turn_of_round taken _)

end Loop

/-! ### The discipline -/

/-- An item that ends a scope or goes on in it finds that scope innermost, as the marks say: a kept
block is the one that is built, and a block is skipped just if the text around it is not kept. -/
def State.Finds (st : State) (marks : List Mark) : Item → Prop
  | .endBlock => ∃ mark below name, marks = mark :: below ∧ mark.block = some name ∧
      if mark.before.kept then
        st.scopes = .block name :: mark.before.scopes ∧ name ∈ st.openNames ∧
          ∃ parent, (st.builder.model.block st.builder.current).parent = some parent
      else
        st.scopes = .skipped :: mark.before.scopes
  | .elseIf _ | .otherwise | .endIf => ∃ mark below, marks = mark :: below ∧
      st.scopes = .conditional mark.taken mark.before.kept :: mark.before.scopes
  | _ => True

theorem Stands.finds {marks : List Mark} {st : State} {item : Item}
    {opened : List (Option String)} (stands : Stands marks st) (builds : Builds marks st)
    (fits : openAfter (marks.map Mark.block) item = some opened) : st.Finds marks item := by
  have conditional {mark : Mark} {below : List Mark} (block : mark.block = none)
      (stands : Stands (mark :: below) st) :
      st.scopes = .conditional mark.taken mark.before.kept :: mark.before.scopes := by
    cases stands with
    | inside _ here => rw [here.scopes, Mark.scope_of_conditional block]
  cases item with
  | endBlock =>
    rcases marks with _ | ⟨⟨_ | name, before, kept, taken⟩, below⟩ <;> cases fits
    cases stands with
    | inside _ here =>
      refine ⟨_, _, name, rfl, rfl, ?_⟩
      split
      · next kept =>
        have scopes := here.scopes
        rw [Mark.scope_of_kept rfl kept] at scopes
        exact ⟨scopes, here.mem_openNames rfl kept, (builds.closeBlock here rfl).2 kept⟩
      · next discarded =>
        rw [here.scopes, Mark.scope_of_discarded rfl (by simpa using discarded)]
  | elseIf =>
    rcases marks with _ | ⟨⟨_ | name, before, kept, taken⟩, below⟩ <;> cases fits
    exact ⟨_, _, rfl, conditional rfl stands⟩
  | otherwise =>
    rcases marks with _ | ⟨⟨_ | name, before, kept, taken⟩, below⟩ <;> cases fits
    exact ⟨_, _, rfl, conditional rfl stands⟩
  | endIf =>
    rcases marks with _ | ⟨⟨_ | name, before, kept, taken⟩, below⟩ <;> cases fits
    exact ⟨_, _, rfl, conditional rfl stands⟩
  | _ => trivial

structure Loop.Disciplined (l : Loop) (h : History) : Prop where
  /-- The open scopes are those of the history. -/
  scopes : l.st.scopes = h.marks.map Mark.scope
  /-- Whether text is kept is what the innermost of them says. -/
  kept : l.st.kept = (h.marks.head?.map Mark.kept).getD true
  /-- From the block that is being built out to the template itself stand the blocks that were built
  for the kept blocks among the open scopes. -/
  built : l.st.builder.model.Lineage l.st.builder.current
    (h.marks.filterMap Mark.built? ++ [(Model.root, "")])
  names : (h.marks.filterMap Mark.built?).map Prod.snd = l.st.scopes.filterMap Scope.name?
  /-- No two kept blocks of a name are open, and the open ones are noted. -/
  count_block : ∀ name, l.st.scopes.count (.block name) = if name ∈ l.st.openNames then 1 else 0
  /-- In a branch or block that is not kept no kept block is open. -/
  discarded : ∀ above mark below, h.marks = above ++ mark :: below → mark.kept = false →
    ∀ name, .block name ∉ above.map Mark.scope
  /-- No item comes where it does not fit. -/
  finds : ∀ item items origin depth outer, l.sources = ⟨item :: items, origin, depth⟩ :: outer →
    l.st.Finds h.marks item
  /-- The history tells of every open text in which state it was opened. -/
  opened : h.opened.length = l.sources.length
  /-- A text leaves open what was open when it was opened itself. -/
  exhausted : ∀ origin depth outer, l.sources = ⟨[], origin, depth⟩ :: outer →
    ∃ first opened, h.opened = first :: opened ∧ first.Level l.st
  /-- When no text is open any more, no scope is, and what is being built is the template. -/
  ended : l.sources = [] → State.start.Level l.st ∧ l.st.builder.current = Model.root

namespace Loop

variable {flags : FlagSet} {trim : Bool} {loader : Option Loader} {limit : Option Nat}
  {items : List Item} {source : Source} {outer : List Source} {st : State} {l : Loop}
  {h : History}

theorem Sound.closes (sound : l.Sound h) (sources_eq : l.sources = source :: outer) :
    ∃ segment below first opened, h.marks = segment ++ below ∧ h.opened = first :: opened ∧
      source.items.foldlM openAfter (segment.map Mark.block) = some [] ∧ Stands below first := by
  obtain ⟨opened, marks⟩ := h
  obtain ⟨-, -, covers⟩ := sound
  rw [sources_eq] at covers
  cases covers with
  | cons closes around => exact ⟨_, _, _, _, rfl, rfl, closes, around⟩

theorem Sound.disciplined (sound : l.Sound h) : l.Disciplined h where
  scopes := sound.stands.scopes
  kept := sound.stands.kept
  built := sound.builds
  names := by
    rw [sound.stands.scopes, List.filterMap_map, List.map_filterMap]
    congr 1
    funext mark
    rw [Function.comp_apply, Mark.name?_scope, Mark.built?, Option.map_map]
    exact Option.map_id_apply
  count_block := sound.stands.count_block
  discarded above mark below marks_eq discarded name mem := by
    have stands := sound.stands
    rw [marks_eq] at stands
    obtain ⟨other, here, same⟩ := List.mem_map.1 mem
    have outside := (stands.discarded discarded).2 other here
    have named := other.name?_scope
    rw [same, Mark.name?, outside] at named
    cases named
  finds item items origin depth outer sources_eq := by
    obtain ⟨segment, below, -, -, marks_eq, -, closes, -⟩ := sound.closes sources_eq
    obtain ⟨scopes, fits, -⟩ := Item.foldlM_openAfter_cons.1 closes
    have here := Item.openAfter_append fits (below.map Mark.block)
    rw [← List.map_append, ← marks_eq] at here
    exact sound.stands.finds sound.builds here
  opened := sound.covers.length_eq
  exhausted origin depth outer sources_eq := by
    obtain ⟨segment, below, first, opened, marks_eq, opened_eq, closes, around⟩ :=
      sound.closes sources_eq
    cases segment with
    | nil =>
      have stands := sound.stands
      rw [marks_eq] at stands
      exact ⟨first, opened, opened_eq, around.level stands⟩
    | cons => cases closes
  ended sources_eq := by
    obtain ⟨opened, marks⟩ := h
    obtain ⟨stands, builds, covers⟩ := sound
    rw [sources_eq] at covers
    cases covers
    cases stands with
    | outside here => exact ⟨here, builds.eq_root⟩

end Loop

end Stencil.Expansion

namespace Stencil

open Expansion

/-- The loop keeps to the discipline of its scopes, whatever template has been accepted and whatever
it includes. In each round the open scopes stand in each other as their markers do, the blocks that
are being built are those of the kept ones among them, and the item that is read finds the scope it
ends or goes on in. A text leaves the scopes around it as they were, and in the end none is open and
the template alone is being built. -/
theorem compile_discipline {source : String} {options : Options} {items : List Item}
    (read : Item.ofText options.trim source = .ok items) (flags : FlagSet)
    (loader : Option Loader) :
    (∃ r, Loop.Ends flags options.trim loader (some options.maxIncludeDepth) (.start items) r ∧
      compile source flags options loader = r.map (·.builder.model) ∧
      ∀ st, r = .ok st →
        Loop.Reaches flags options.trim loader (some options.maxIncludeDepth) (.start items)
          ⟨[], st⟩) ∧
    (∀ l, Loop.Reaches flags options.trim loader (some options.maxIncludeDepth) (.start items) l →
      ∃ h, Loop.Traced flags options.trim loader (some options.maxIncludeDepth) items l h) ∧
    ∀ l h, Loop.Traced flags options.trim loader (some options.maxIncludeDepth) items l h →
      l.Disciplined h := by
  have ends := Loop.ends_expand flags options loader items
  refine ⟨⟨_, ends, compile_of_items read, fun st done => ?_⟩, fun l => ?_, fun l h traced => ?_⟩
  · exact Loop.Ends.reaches ends done
  · exact Loop.reaches_iff_exists_traced.1
  · exact (traced.sound (Item.foldlM_openAfter_of_ofText read)).disciplined

theorem ofText_row :
    Item.ofText true "[beginblock:row][include:cell][endblock:row]" =
      .ok [.beginBlock "row" ⟨1, 1⟩, .inclusion "cell" ⟨1, 17⟩ "[include:cell]", .endBlock] :=
  Item.ofText_of_drainWithin rfl rfl

theorem ofText_cell : Item.ofText true "{x}" = .ok [.var "x"] :=
  Item.ofText_of_drainWithin rfl rfl

/-- In a text that is included in a block, the block is open and being built. -/
theorem compile_discipline_row :
    Item.ofText true "[beginblock:row][include:cell][endblock:row]" =
      .ok [.beginBlock "row" ⟨1, 1⟩, .inclusion "cell" ⟨1, 17⟩ "[include:cell]", .endBlock] ∧
    ∃ l h, Loop.Traced .empty true (some fun _ => .ok "{x}") (some 4)
        [.beginBlock "row" ⟨1, 1⟩, .inclusion "cell" ⟨1, 17⟩ "[include:cell]", .endBlock] l h ∧
      l.sources = [⟨[.var "x"], some "cell", 1⟩, ⟨[.endBlock], none, 0⟩] ∧
      l.st.scopes = [.block "row"] ∧ l.st.builder.current = 1 ∧ l.Disciplined h := by
  have opening : Loop.opening true (some fun _ => .ok "{x}") (some 4) none 0 "cell" ⟨1, 17⟩
      "[include:cell]" = .ok ⟨[.var "x"], some "cell", 1⟩ := by
    have allowed : (some 4).filter (· ≤ 0) = none := rfl
    simp only [Loop.opening, allowed, ofText_cell]
  have entered : Loop.Traced .empty true (some fun _ => .ok "{x}") (some 4)
      [.beginBlock "row" ⟨1, 1⟩, .inclusion "cell" ⟨1, 17⟩ "[include:cell]", .endBlock] _ _ :=
    .round (.round .start rfl) (by rw [Loop.round, opening]; rfl)
  exact ⟨ofText_row, _, _, entered, rfl, rfl, rfl,
    (@compile_discipline _ ⟨true, 4⟩ _ ofText_row .empty _).2.2 _ _ entered⟩

end Stencil
