import Stencil.Expansion
import Stencil.Model

/-! # Compiling

From the text of a template to its model, and back to a text.
-/

/-! ## Building models

A model is built from the pieces of a template one by one. The builder keeps the model so far and
the number of the block that is open.
-/

namespace Stencil

namespace Model

def empty : Model where
  blocks := #[{}]
  vars := .empty
  labels := ∅
  labelled := by simp [Block.allNamed, Block.isNamed, List.range_succ]
  nonempty := Nat.zero_lt_one
  nested := by
    intro outer id h
    rcases outer with _ | outer <;> simp at h

/-- Changes one block, without renaming it or adding references to blocks. -/
def mapBlock (m : Model) (id : Nat) (f : Block → Block) (name_eq : ∀ b, (f b).name = b.name)
    (mem_body : ∀ b c, Node.block c ∈ (f b).body → Node.block c ∈ b.body) : Model where
  blocks := m.blocks.modify id f
  vars := m.vars
  labels := m.labels
  labelled := by
    intro name ids
    rw [m.labelled, Block.allNamed_congr Array.size_modify]
    intro other
    rw [Array.getElem?_modify]
    split
    · cases m.blocks[other]? <;> simp [name_eq]
    · rfl
  nonempty := by simpa using m.nonempty
  nested := by
    intro outer c h
    rw [Array.size_modify]
    apply m.nested outer c
    rw [Array.getElem?_modify] at h
    cases hb : m.blocks[outer]? with
    | none => simp [hb] at h
    | some b =>
      rw [hb] at h
      split at h
      · exact mem_body b c h
      · exact h

def addName (m : Model) (name : String) : Model :=
  { m with vars := m.vars.insert name }

/-- Blocks followed by an empty block, which stands at the end of the body of block `parent`. -/
def appendBlock (blocks : Array Block) (name : String) (parent : Nat) : Array Block :=
  let child : Block :=
    { name, parent := some parent, slot := (blocks[parent]?.getD {}).children.size }
  (blocks.modify parent (Block.addChild blocks.size)).push child

def addBlock (m : Model) (name : String) (parent : Nat) : Model :=
  let ids := m.blocks.size :: m.labels[name]?.getD []
  { blocks := appendBlock m.blocks name parent
    vars := m.vars
    labels := m.labels.insert name ids
    labelled := by
      intro other found
      have all : Block.allNamed (m.blocks.modify parent (Block.addChild m.blocks.size)) other =
          Block.allNamed m.blocks other := by
        apply Block.allNamed_congr Array.size_modify
        intro id
        rw [Array.getElem?_modify]
        split
        · cases m.blocks[id]? <;> simp [Block.addChild]
        · rfl
      rw [appendBlock, Block.allNamed_push (by simpa using m.nonempty), all]
      simp only [ids, m.getD_labels, Std.ExtTreeMap.getElem?_insert, Std.compare_eq_iff_eq,
        Array.size_modify]
      by_cases same : name = other
      · subst same
        simp only [↓reduceIte, Option.some.injEq, eq_comm]
        exact ⟨fun h => ⟨fun nil => List.cons_ne_nil _ _ (h.symm.trans nil), h⟩, And.right⟩
      · simp [same, m.labelled]
    nonempty := by simp [appendBlock]
    nested := by
      intro outer c h
      simp only [appendBlock, Array.size_push, Array.size_modify, Array.getElem?_push,
        Array.getElem?_modify] at h ⊢
      split at h
      · simp at h
      · cases hb : m.blocks[outer]? with
        | none => simp [hb] at h
        | some b =>
          have hlt : outer < m.blocks.size := (Array.getElem?_eq_some_iff.1 hb).1
          have hnested := m.nested outer c
          simp only [hb, Option.getD_some] at h hnested
          split at h
          · rcases Block.block_mem_addChild.1 h with h | rfl
            · have := hnested h
              omega
            · omega
          · have := hnested h
            omega }

structure Builder where
  model : Model
  /-- The number of the innermost open block. -/
  current : Nat

namespace Builder

def start : Builder :=
  ⟨.empty, root⟩

def add (b : Builder) : Piece → Builder
  | .text content =>
    { b with
      model := b.model.mapBlock b.current (.addText content) (Block.name_addText content)
        fun _ _ => Block.block_mem_addText }
  | .var name =>
    let named := b.model.addName name
    let index := (named.findVariable? name).getD 0
    { b with
      model := named.mapBlock b.current (.addVariable index) (Block.name_addVariable index)
        fun _ _ => Block.block_mem_addVariable }
  | .beginBlock name =>
    let id := b.model.blockCount
    { model := b.model.addBlock name b.current, current := id }
  | .endBlock => { b with current := ((b.model.block b.current).parent).getD root }

end Builder

def ofPieces (pieces : List Piece) : Model :=
  (pieces.foldl Builder.add .start).model

end Model

/-! ## The model of a template

A template is compiled by reading its items, expanding them to pieces and building a model of the
pieces. The flags are decided here once and for all; the model does not depend on them any more.
-/

/-- The model of a template. Without a loader, the template must not include others. -/
def compile (source : String) (flags : FlagSet) (options : Options) (loader : Option Loader) :
    Except Error Model :=
  match Item.ofText options.trim source with
  | .error e => .error (.malformed e)
  | .ok items => (Piece.ofItems flags options loader items).map Model.ofPieces

/-! ## Writing models

A model written as a template without conditionals and includes: literals are escaped, variables
stand in braces, and blocks between their markers.
-/

namespace Model

/-- The tokens of a block's body. Bodies refer to later blocks only, so this ends. -/
def bodyTokens (m : Model) (block : Nat) : List Token :=
  (m.block block).body.toList.attach.flatMap fun node =>
    match _h : node.1 with
    | .literal text => [.text text]
    | .var index _ => [.var (m.variableName index)]
    | .block id => .beginBlock (m.block id).name :: (bodyTokens m id ++ [.endBlock none])
termination_by m.blockCount - block
decreasing_by
  have := Model.lt_of_block_mem (Array.mem_toList_iff.1 (_h ▸ node.2))
  omega

def print (m : Model) : String :=
  Token.printAll (m.bodyTokens root)

end Model

end Stencil
