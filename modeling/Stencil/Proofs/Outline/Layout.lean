import Mathlib.Data.List.Basic
import Stencil.Compile
import Stencil.Proofs.Model.WellFormed

/-! # Outlines and their models

What nests in a template, apart from all numbers, and what a builder makes of it.
-/

/-! ## Outlines

What a template comes down to once its conditionals are decided and its subtemplates are spliced
in: texts, variables and blocks, each block with its own outline. Blocks carry a mark, which stands
for whatever is known of them.
-/

namespace Stencil

inductive Outline (α : Type)
  | nil
  | text (content : String) (rest : Outline α)
  | var (name : String) (rest : Outline α)
  | block (name : String) (mark : α) (inner rest : Outline α)

namespace Outline

variable {α β : Type}

def append : Outline α → Outline α → Outline α
  | nil, after => after
  | text content rest, after => text content (rest.append after)
  | var name rest, after => var name (rest.append after)
  | block name mark inner rest, after => block name mark inner (rest.append after)

def map (f : α → β) : Outline α → Outline β
  | nil => nil
  | text content rest => text content (rest.map f)
  | var name rest => var name (rest.map f)
  | block name mark inner rest => block name (f mark) (inner.map f) (rest.map f)

def pieces : Outline α → List Piece
  | nil => []
  | text content rest => .text content :: rest.pieces
  | var name rest => .var name :: rest.pieces
  | block name _ inner rest => .beginBlock name :: (inner.pieces ++ .endBlock :: rest.pieces)

def blockCount : Outline α → Nat
  | nil => 0
  | text _ rest => rest.blockCount
  | var _ rest => rest.blockCount
  | block _ _ inner rest => 1 + inner.blockCount + rest.blockCount

def blockNames : Outline α → List String
  | nil => []
  | text _ rest => rest.blockNames
  | var _ rest => rest.blockNames
  | block name _ inner rest => name :: (inner.blockNames ++ rest.blockNames)

/-- The variables referred to at any depth, once for each reference. -/
def references : Outline α → List String
  | nil => []
  | text _ rest => rest.references
  | var name rest => name :: rest.references
  | block _ _ inner rest => inner.references ++ rest.references

/-- The variables referred to outside the blocks of the outline, once for each reference. -/
def ownReferences : Outline α → List String
  | nil => []
  | text _ rest => rest.ownReferences
  | var name rest => name :: rest.ownReferences
  | block _ _ _ rest => rest.ownReferences

def marks : Outline α → List α
  | nil => []
  | text _ rest => rest.marks
  | var _ rest => rest.marks
  | block _ mark _ rest => mark :: rest.marks

/-- Every block has a name, and no block around it has the same, when the outline itself stands in
blocks of the names `around`. -/
def Proper (around : List String) : Outline α → Prop
  | nil => True
  | text _ rest => rest.Proper around
  | var _ rest => rest.Proper around
  | block name _ inner rest =>
    Name.isValid name.toList = true ∧ name ∉ around ∧ inner.Proper (name :: around) ∧
      rest.Proper around

theorem pieces_append (first second : Outline α) :
    (first.append second).pieces = first.pieces ++ second.pieces := by
  induction first with
  | nil => rfl
  | text content rest ih => simp [append, pieces, ih]
  | var name rest ih => simp [append, pieces, ih]
  | block name mark inner rest _ ih => simp [append, pieces, ih]

theorem Proper.append {around : List String} {first second : Outline α}
    (h : first.Proper around) (h' : second.Proper around) :
    (first.append second).Proper around := by
  induction first with
  | nil => exact h'
  | text content rest ih => exact ih h
  | var name rest ih => exact ih h
  | block name mark inner rest _ ih =>
    obtain ⟨named, fresh, inside, after⟩ := h
    exact ⟨named, fresh, inside, ih after⟩

end Outline

/-! ## The layout of an outline

What the model of an outline consists of, said by recursion on the outline and in plain lists.
Blocks are numbered in the order of their begin markers. Variables are numbered by their first use
in the outline and have their slots by their first use in the block.
-/

structure BlockLayout where
  name : String
  parent : Option Nat
  slot : Nat
  body : List Node
  vars : List Nat
  children : List Nat
  deriving DecidableEq

structure Layout where
  blocks : List BlockLayout
  vars : List String
  /-- The number of every variable. -/
  variableIndex : String → Option Nat
  /-- The numbers of the blocks of every block name, in ascending order. -/
  blockIndex : String → Option (List Nat)

def Block.layout (b : Block) : BlockLayout :=
  ⟨b.name, b.parent, b.slot, b.body.toList, b.vars.toList, b.children.toList⟩

def Model.layout (m : Model) : Layout where
  blocks := m.blocks.toList.map Block.layout
  vars := m.vars.toList
  variableIndex := m.findVariable?
  blockIndex := fun name => (m.labels[name]?).map List.reverse

theorem Block.layout_injective : Function.Injective Block.layout := by
  intro b c h
  simp only [Block.layout, BlockLayout.mk.injEq, Array.toList_inj] at h
  obtain ⟨name, parent, slot, body, vars, children⟩ := h
  have same : b.vars = c.vars := Numbering.eq_of_keys_eq (Array.toList_inj.1 vars)
  cases b
  cases c
  simp_all

/-- A model is determined by its layout. -/
theorem Model.layout_injective : Function.Injective Model.layout := by
  intro m n h
  have blocks : m.blocks.toList.map Block.layout = n.blocks.toList.map Block.layout :=
    congrArg Layout.blocks h
  have vars : m.vars.toList = n.vars.toList := congrArg Layout.vars h
  apply Model.eq_of_blocks_eq
  · exact Array.toList_inj.1 (List.map_injective_iff.2 Block.layout_injective blocks)
  · exact Numbering.eq_of_keys_eq (Array.toList_inj.1 vars)

/-- Text in front of nodes. It joins a literal that stands first, and empty text leaves nothing
behind. -/
def joinText (content : String) (nodes : List Node) : List Node :=
  if content.isEmpty then nodes
  else
    match nodes with
    | .literal after :: rest => .literal (content ++ after) :: rest
    | _ => .literal content :: nodes

namespace Outline

variable {α : Type}

/-- Marks every block with its number: blocks are numbered from `next` on in the order of their
begin markers. -/
def number : (next : Nat) → Outline α → Outline Nat
  | _, nil => nil
  | next, text content rest => text content (rest.number next)
  | next, var name rest => var name (rest.number next)
  | next, block name _ inner rest =>
    block name next (inner.number (next + 1)) (rest.number (next + 1 + inner.blockCount))

def nodes (index slot : String → Nat) : Outline Nat → List Node
  | nil => []
  | text content rest => joinText content (rest.nodes index slot)
  | var name rest => .var (index name) (slot name) :: rest.nodes index slot
  | block _ id _ rest => .block id :: rest.nodes index slot

def blockLayout (index : String → Nat) (name : String) (parent : Option Nat) (slot : Nat)
    (o : Outline Nat) : BlockLayout where
  name := name
  parent := parent
  slot := slot
  body := o.nodes index o.ownReferences.eraseDups.idxOf
  vars := o.ownReferences.eraseDups.map index
  children := o.marks

/-- The blocks of an outline in the order of their begin markers. The outline stands in the block
`parent`, after `slot` other blocks. -/
def blockLayouts (index : String → Nat) (parent : Nat) :
    (slot : Nat) → Outline Nat → List BlockLayout
  | _, nil => []
  | slot, text _ rest => rest.blockLayouts index parent slot
  | slot, var _ rest => rest.blockLayouts index parent slot
  | slot, block name id inner rest =>
    inner.blockLayout index name (some parent) slot ::
      (inner.blockLayouts index id 0 ++ rest.blockLayouts index parent (slot + 1))

/-- What the model of a numbered outline consists of. Block 0 is the template itself. -/
def layout (o : Outline Nat) : Layout :=
  let vars := o.references.eraseDups
  { blocks := o.blockLayout vars.idxOf "" none 0 :: o.blockLayouts vars.idxOf 0 0
    vars
    variableIndex := vars.idxOf?
    blockIndex := fun name =>
      if name ∈ o.blockNames then some (o.blockNames.idxsOf name 1) else none }

end Outline

/-! ## Building an outline

What the builder makes of the pieces of an outline. While the outline is read only the open block
changes, and the blocks of the outline follow all others in the order of their begin markers.
-/

theorem modify_middle {α : Type} (before : List α) (a : α) (after : List α) (f : α → α) :
    (before ++ a :: after).modify before.length f = before ++ f a :: after := by
  induction before with
  | nil => rfl
  | cons first before ih => rw [List.cons_append, List.length_cons, List.modify_succ_cons, ih]; rfl

/-! ### Joining texts -/

theorem joinText_empty (nodes : List Node) : joinText "" nodes = nodes := by
  simp [joinText]

theorem joinText_joinText (before content : String) (nodes : List Node) :
    joinText before (joinText content nodes) = joinText (before ++ content) nodes := by
  by_cases first : before = ""
  · simp [first, joinText_empty]
  · by_cases second : content = ""
    · simp [second, joinText_empty]
    · have both : before ++ content ≠ "" := by simp [first]
      rcases nodes with _ | ⟨text | ⟨index, slot⟩ | id, rest⟩
      all_goals simp [joinText, first, second, String.append_assoc]

theorem joinText_cons {before : String} {node : Node} (h : ∀ text, node ≠ .literal text)
    (nodes : List Node) :
    joinText before (node :: nodes) = joinText before [] ++ node :: nodes := by
  unfold joinText
  split
  · rfl
  · cases node with
    | literal text => exact absurd rfl (h text)
    | var index slot => rfl
    | block id => rfl

namespace Block

/-! ### Adding to a block -/

theorem addText_eq (content : String) (b : Block) :
    b.addText content = { b with body := (b.addText content).body } := by
  unfold addText
  repeat' split
  all_goals rfl

theorem addVariable_eq {index slot : Nat} {b : Block}
    (h : (b.vars.insert index).find? index = some slot) :
    b.addVariable index =
      { b with body := b.body.push (.var index slot), vars := b.vars.insert index } := by
  unfold addVariable variableSlot?
  split
  · next old found =>
    have same : b.vars.insert index = b.vars := by rw [Numbering.insert, dif_neg (by simp [found])]
    rw [same, found, Option.some.injEq] at h
    rw [h, same]
  · next new =>
    have last : (b.vars.insert index).find? index = some b.vars.size := by
      rw [Numbering.find?_eq_some_iff, ← Numbering.getElem?_toList,
        Numbering.toList_insert_of_not_mem (Numbering.find?_eq_none_iff.1 new),
        ← Numbering.length_toList, List.getElem?_append_right (Nat.le_refl _), Nat.sub_self]
      rfl
    rw [last, Option.some.injEq] at h
    rw [h]

theorem parent_addText (content : String) (b : Block) : (b.addText content).parent = b.parent := by
  rw [addText_eq]

theorem children_addText (content : String) (b : Block) :
    (b.addText content).children = b.children := by
  rw [addText_eq]

theorem children_addVariable (index : Nat) (b : Block) :
    (b.addVariable index).children = b.children := by
  obtain ⟨slot, found⟩ := Numbering.exists_find?_insert b.vars index
  rw [addVariable_eq found]

theorem parent_addVariable (index : Nat) (b : Block) :
    (b.addVariable index).parent = b.parent := by
  obtain ⟨slot, found⟩ := Numbering.exists_find?_insert b.vars index
  rw [addVariable_eq found]

theorem size_children_addChild (id : Nat) (b : Block) :
    (b.addChild id).children.size = b.children.size + 1 :=
  Array.size_push id

theorem toList_addText {b : Block} {init : List Node} {before : String}
    (ends : ∀ text, init.getLast? ≠ some (.literal text))
    (body : b.body.toList = init ++ joinText before []) (content : String) :
    (b.addText content).body.toList = init ++ joinText (before ++ content) [] := by
  have last : b.body.back? = (init ++ joinText before []).getLast? := by
    rw [← body, Array.getLast?_toList]
  by_cases nothing : content = ""
  · simp [addText, nothing, body]
  · have joined : joinText (before ++ content) [] = [.literal (before ++ content)] := by
      simp [joinText, nothing]
    rw [addText, if_neg (by simpa using nothing), joined]
    by_cases fresh : before = ""
    · subst fresh
      rw [joinText_empty, List.append_nil] at body last
      rw [last]
      split
      · next text found => exact absurd found (ends text)
      · simp [body]
    · have single : joinText before [] = [.literal before] := by simp [joinText, fresh]
      rw [single] at body last
      rw [last, List.getLast?_concat]
      simp [body]

end Block

namespace Outline

variable {α : Type}

theorem references_number (o : Outline α) (next : Nat) :
    (o.number next).references = o.references := by
  induction o generalizing next with
  | nil => rfl
  | text content rest ih => exact ih next
  | var name rest ih => rw [number, references, ih, references]
  | block name mark inner rest ihInner ihRest =>
    rw [number, references, ihInner, ihRest, references]

theorem blockNames_number (o : Outline α) (next : Nat) :
    (o.number next).blockNames = o.blockNames := by
  induction o generalizing next with
  | nil => rfl
  | text content rest ih => exact ih next
  | var name rest ih => exact ih next
  | block name mark inner rest ihInner ihRest =>
    rw [number, blockNames, ihInner, ihRest, blockNames]

/-- A block after the texts, variables and blocks of an outline have been added to it. -/
def absorb (index : String → Nat) : Outline Nat → Block → Block
  | nil, b => b
  | text content rest, b => rest.absorb index (b.addText content)
  | var name rest, b => rest.absorb index (b.addVariable (index name))
  | block _ id _ rest, b => rest.absorb index (b.addChild id)

def blocks (index : String → Nat) (parent : Nat) : (slot : Nat) → Outline Nat → List Block
  | _, nil => []
  | slot, text _ rest => rest.blocks index parent slot
  | slot, var _ rest => rest.blocks index parent slot
  | slot, block name id inner rest =>
    inner.absorb index { name, parent := some parent, slot } ::
      (inner.blocks index id 0 ++ rest.blocks index parent (slot + 1))

theorem length_blocks (index : String → Nat) (o : Outline α) (parent slot next : Nat) :
    ((o.number next).blocks index parent slot).length = o.blockCount := by
  induction o generalizing parent slot next with
  | nil => rfl
  | text content rest ih => exact ih parent slot next
  | var name rest ih => exact ih parent slot next
  | block name mark inner rest ihInner ihRest =>
    simp only [number, blocks, blockCount, List.length_cons, List.length_append, ihInner, ihRest]
    omega

theorem parent_absorb (index : String → Nat) (o : Outline Nat) (b : Block) :
    (o.absorb index b).parent = b.parent := by
  induction o generalizing b with
  | nil => rfl
  | text content rest ih => exact (ih _).trans (Block.parent_addText content b)
  | var name rest ih => exact (ih _).trans (Block.parent_addVariable (index name) b)
  | block name mark inner rest _ ih => exact ih _

end Outline

namespace Model.Builder

variable {α : Type} {index : String → Nat}

/-- The builder stands in the block `b`, with the given blocks around it. -/
structure At (builder : Builder) (before : List Block) (b : Block) (after : List Block) :
    Prop where
  blocks : builder.model.blocks.toList = before ++ b :: after
  current : builder.current = before.length

theorem At.size {builder : Builder} {before after : List Block} {b : Block}
    (h : builder.At before b after) :
    builder.model.blocks.size = before.length + 1 + after.length := by
  rw [← Array.length_toList, h.blocks]
  simp only [List.length_append, List.length_cons]
  omega

theorem At.addText {builder : Builder} {before after : List Block} {b : Block}
    (h : builder.At before b after) (content : String) :
    (builder.add (.text content)).At before (b.addText content) after where
  blocks := by
    show (builder.model.blocks.modify builder.current _).toList = _
    rw [Array.toList_modify, h.blocks, h.current, modify_middle]
  current := h.current

theorem At.addVariable {builder : Builder} {before after : List Block} {b : Block}
    (h : builder.At before b after) {name : String} {number : Nat}
    (found : (builder.model.vars.insert name).find? name = some number) :
    (builder.add (.var name)).At before (b.addVariable number) after where
  blocks := by
    show (builder.model.blocks.modify builder.current
      (Block.addVariable (((builder.model.vars.insert name).find? name).getD 0))).toList = _
    rw [Array.toList_modify, h.blocks, h.current, modify_middle, found, Option.getD_some]
  current := h.current

theorem At.beginBlock {builder : Builder} {before after : List Block} {b : Block}
    (h : builder.At before b after) (name : String) :
    (builder.add (.beginBlock name)).At
      (before ++ b.addChild builder.model.blockCount :: after)
      { name, parent := some before.length, slot := b.children.size } [] where
  blocks := by
    have there : builder.model.blocks[before.length]? = some b := by
      rw [← Array.getElem?_toList, h.blocks]
      simp
    show (Model.appendBlock builder.model.blocks name builder.current).toList = _
    rw [Model.appendBlock, h.current, there, Array.toList_push, Array.toList_modify, h.blocks,
      modify_middle]
    rfl
  current := by
    show builder.model.blocks.size = _
    rw [h.size]
    simp only [List.length_append, List.length_cons]
    omega

theorem At.endBlock {builder : Builder} {before after : List Block} {b : Block}
    {inner : Block} {beyond : List Block}
    (h : builder.At (before ++ b :: after) inner beyond)
    (parent : inner.parent = some before.length) :
    (builder.add .endBlock).At before b (after ++ inner :: beyond) where
  blocks := by
    show builder.model.blocks.toList = _
    rw [h.blocks]
    simp
  current := by
    have there : builder.model.blocks[builder.current]? = some inner := by
      rw [← Array.getElem?_toList, h.blocks, h.current]
      simp
    show ((builder.model.blocks[builder.current]?.getD {}).parent).getD root = _
    rw [there, Option.getD_some, parent, Option.getD_some]

/-- Building an outline adds it to the open block, and its blocks after all others. -/
theorem At.build {o : Outline α} {builder : Builder} {before after : List Block} {b : Block}
    (next : Nat) (h : builder.At before b after) (count : next = before.length + 1 + after.length)
    (numbers : ∀ name id, (o.references.foldl Numbering.insert builder.model.vars).find? name =
      some id → index name = id) :
    (o.pieces.foldl add builder).model.vars =
        o.references.foldl Numbering.insert builder.model.vars ∧
      (o.pieces.foldl add builder).At before ((o.number next).absorb index b)
        (after ++ (o.number next).blocks index before.length b.children.size) := by
  induction o generalizing builder before b after next with
  | nil =>
    refine ⟨rfl, ?_⟩
    rw [Outline.number, Outline.blocks, List.append_nil]
    exact h
  | text content rest ih =>
    obtain ⟨vars, stands⟩ := ih next (h.addText content) count numbers
    refine ⟨vars, ?_⟩
    rw [Block.children_addText] at stands
    exact stands
  | var name rest ih =>
    obtain ⟨id, found⟩ := Numbering.exists_find?_insert builder.model.vars name
    have same : index name = id :=
      numbers name id (Numbering.find?_foldl_insert found rest.references)
    obtain ⟨vars, stands⟩ := ih next (h.addVariable found) count numbers
    refine ⟨vars, ?_⟩
    rw [Block.children_addVariable, ← same] at stands
    exact stands
  | block name mark inner rest ihInner ihRest =>
    have size : builder.model.blockCount = next := h.size.trans count.symm
    have around : (before ++ b.addChild next :: after).length = next := by
      simp only [List.length_append, List.length_cons]
      omega
    rw [Outline.references, List.foldl_append] at numbers
    have opened := h.beginBlock name
    rw [size] at opened
    obtain ⟨innerVars, inside⟩ := ihInner (next + 1) opened (by rw [around]; rfl)
      fun other id found => numbers other id (Numbering.find?_foldl_insert found _)
    rw [around] at inside
    have closed := inside.endBlock (Outline.parent_absorb index (inner.number (next + 1)) _)
    have vars : ((inner.pieces.foldl add (builder.add (.beginBlock name))).add
        .endBlock).model.vars = inner.references.foldl Numbering.insert builder.model.vars :=
      innerVars
    have count' : next + 1 + inner.blockCount = before.length + 1 +
        (after ++ (inner.number (next + 1)).absorb index
            { name, parent := some before.length, slot := b.children.size } ::
          (inner.number (next + 1)).blocks index next 0).length := by
      simp only [List.length_append, List.length_cons, Outline.length_blocks]
      omega
    obtain ⟨restVars, stands⟩ := ihRest (next + 1 + inner.blockCount) closed count'
      fun other id found => numbers other id (by rwa [vars] at found)
    rw [vars] at restVars
    rw [Block.size_children_addChild, List.append_assoc] at stands
    rw [Outline.pieces, List.foldl_cons, List.foldl_append, List.foldl_cons]
    refine ⟨?_, stands⟩
    rw [restVars, Outline.references, List.foldl_append]

end Model.Builder

end Stencil
