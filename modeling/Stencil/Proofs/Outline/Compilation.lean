import Mathlib.Data.List.Basic
import Stencil.Proofs.Outline.Expansion

/-! # Compiling by the outline

A template compiles to the model that its outline lays out.
-/

/-! ## Compiling an outline

The model of a template is laid out as its outline says. The blocks that the builder leaves are
compared with the blocks of the layout one by one.
-/

namespace Stencil

namespace Outline

variable {α : Type} {index : String → Nat}

theorem layout_absorb {slot : String → Nat} (o : Outline Nat) {b : Block}
    {init : List Node} {before : String} (ends : ∀ text, init.getLast? ≠ some (.literal text))
    (body : b.body.toList = init ++ joinText before [])
    (slots : ∀ name ∈ o.ownReferences,
      ((o.ownReferences.map index).foldl Numbering.insert b.vars).find? (index name) =
        some (slot name)) :
    (o.absorb index b).layout =
      { name := b.name
        parent := b.parent
        slot := b.slot
        body := init ++ joinText before (o.nodes index slot)
        vars := ((o.ownReferences.map index).foldl Numbering.insert b.vars).toList
        children := b.children.toList ++ o.marks } := by
  induction o generalizing b init before with
  | nil =>
    simp [absorb, Block.layout, body, nodes, ownReferences, marks]
  | text content rest ih =>
    have written := Block.toList_addText ends body content
    rw [absorb, ih ends written (by rw [Block.addText_eq]; exact slots), Block.addText_eq,
      nodes, joinText_joinText]
    rfl
  | var name rest ih =>
    have last := slots name List.mem_cons_self
    obtain ⟨number, found⟩ := Numbering.exists_find?_insert b.vars (index name)
    have same : number = slot name := by
      have kept := Numbering.find?_foldl_insert found (rest.ownReferences.map index)
      exact Option.some.inj (kept.symm.trans last)
    subst same
    rw [absorb, Block.addVariable_eq found]
    have written : (b.body.push (.var (index name) (slot name))).toList =
        (init ++ joinText before [] ++ [.var (index name) (slot name)]) ++ joinText "" [] := by
      rw [Array.toList_push, body, joinText_empty, List.append_nil]
    have ends' (text : String) : (init ++ joinText before [] ++
        [Node.var (index name) (slot name)]).getLast? ≠ some (.literal text) := by simp
    rw [ih ends' written fun other mem => slots other (List.mem_cons_of_mem name mem), nodes,
      joinText_cons (by simp), joinText_empty]
    simp [ownReferences, marks]
  | block name id inner rest _ ih =>
    have written : (b.body.push (.block id)).toList =
        (init ++ joinText before [] ++ [.block id]) ++ joinText "" [] := by
      rw [Array.toList_push, body, joinText_empty, List.append_nil]
    have ends' (text : String) : (init ++ joinText before [] ++ [Node.block id]).getLast? ≠
        some (.literal text) := by simp
    have added := ih (b := b.addChild id) ends' written slots
    rw [absorb, added, nodes, joinText_cons (by simp), joinText_empty]
    simp [ownReferences, marks, Block.addChild]

/-- The references of an outline are told apart by their numbers. -/
def Apart (index : String → Nat) (names : List String) : Prop :=
  ∀ a ∈ names, ∀ b ∈ names, index a = index b → a = b

theorem apart_idxOf (names : List String) : Apart names.eraseDups.idxOf names :=
  fun _ mem _ _ same => (List.idxOf_inj (List.mem_eraseDups.2 mem)).1 same

theorem layout_absorb_empty {o : Outline Nat} (apart : Apart index o.ownReferences)
    (name : String) (parent : Option Nat) (slot : Nat) :
    (o.absorb index { name, parent, slot }).layout = o.blockLayout index name parent slot := by
  have vars : ((o.ownReferences.map index).foldl Numbering.insert .empty).toList =
      o.ownReferences.eraseDups.map index := by
    rw [Numbering.toList_foldl_insert, ← eraseDups_map apart]
    rfl
  have slots (other : String) (mem : other ∈ o.ownReferences) :
      ((o.ownReferences.map index).foldl Numbering.insert .empty).find? (index other) =
        some (o.ownReferences.eraseDups.idxOf other) := by
    rw [Numbering.find?_eq_some_iff, ← Numbering.getElem?_toList, vars, List.getElem?_map,
      List.getElem?_idxOf (List.mem_eraseDups.2 mem)]
    rfl
  have ends (text : String) : ([] : List Node).getLast? ≠ some (.literal text) := by simp
  have body : (#[] : Array Node).toList = [] ++ joinText "" [] := rfl
  rw [layout_absorb o ends body slots, vars, joinText_empty]
  rfl

theorem ownReferences_subset (o : Outline α) : o.ownReferences ⊆ o.references := by
  induction o with
  | nil => exact List.Subset.refl _
  | text content rest ih => exact ih
  | var name rest ih => exact List.cons_subset_cons name ih
  | block name mark inner rest _ ih => exact fun _ mem => List.mem_append_right _ (ih mem)

theorem Apart.mono {names others : List String} (h : Apart index names) (sub : others ⊆ names) :
    Apart index others :=
  fun a ha b hb => h a (sub ha) b (sub hb)

theorem layout_blocks {o : Outline Nat} (apart : Apart index o.references) (parent slot : Nat) :
    (o.blocks index parent slot).map Block.layout = o.blockLayouts index parent slot := by
  induction o generalizing parent slot with
  | nil => rfl
  | text content rest ih => exact ih apart parent slot
  | var name rest ih =>
    exact ih (apart.mono fun _ mem => List.mem_cons_of_mem name mem) parent slot
  | block name mark inner rest ihInner ihRest =>
    have inside : Apart index inner.references := apart.mono (List.subset_append_left _ _)
    have beyond : Apart index rest.references := apart.mono (List.subset_append_right _ _)
    rw [blocks, List.map_cons, List.map_append, ihInner inside, ihRest beyond, blockLayouts,
      layout_absorb_empty (inside.mono inner.ownReferences_subset)]

theorem name_blockLayouts (index : String → Nat) (o : Outline Nat) (parent slot : Nat) :
    (o.blockLayouts index parent slot).map (·.name) = o.blockNames := by
  induction o generalizing parent slot with
  | nil => rfl
  | text content rest ih => exact ih parent slot
  | var name rest ih => exact ih parent slot
  | block name mark inner rest ihInner ihRest =>
    rw [blockLayouts, List.map_cons, List.map_append, ihInner, ihRest]
    rfl

end Outline

theorem idxsOf_eq_filter (name : String) (names : List String) (start : Nat) :
    names.idxsOf name start =
      (List.range' start names.length).filter fun id => names[id - start]? == some name := by
  induction names generalizing start with
  | nil => rfl
  | cons first names ih =>
    have later : (List.range' (start + 1) names.length).filter
        (fun id => (first :: names)[id - start]? == some name) = names.idxsOf name (start + 1) := by
      rw [ih]
      apply List.filter_congr
      intro id mem
      obtain ⟨bound, _⟩ := List.mem_range'_1.1 mem
      rw [show id - start = id - (start + 1) + 1 by omega, List.getElem?_cons_succ]
    rw [List.length_cons, List.range'_succ, List.filter_cons, later, List.idxsOf,
      List.findIdxs_cons]
    simp [List.idxsOf]

namespace Model

/-- The numbers of the blocks of a name are the places of the name among the block names. -/
theorem blocksNamed_eq_idxsOf {m : Model} {names : List String}
    (h : m.blocks.toList.map (·.name) = "" :: names) (name : String) :
    m.blocksNamed name = names.idxsOf name 1 := by
  have count : m.blockCount = names.length + 1 := by
    have := congrArg List.length h
    simpa [blockCount] using this
  rw [blocksNamed_eq, idxsOf_eq_filter, count, List.range_eq_range', List.range'_succ,
    List.filter_cons_of_neg (by simp [Block.isNamed])]
  apply List.filter_congr
  intro id mem
  obtain ⟨positive, bound⟩ := List.mem_range'_1.1 mem
  have named : (m.blocks[id]?).map (·.name) = names[id - 1]? := by
    rw [← Array.getElem?_toList, ← List.getElem?_map, h]
    rw [show id = id - 1 + 1 by omega, List.getElem?_cons_succ, Nat.add_sub_cancel]
  have there : id < m.blocks.size := by
    rw [blockCount] at count
    omega
  have other : id ≠ 0 := by omega
  rw [← named, Block.isNamed, Array.getElem?_eq_getElem there]
  simp [other]

theorem idxsOf_eq_nil_iff {name : String} {names : List String} {start : Nat} :
    names.idxsOf name start = [] ↔ name ∉ names := by
  rw [List.idxsOf, List.findIdxs_eq_nil_iff]
  simp only [beq_eq_false_iff_ne]
  exact ⟨fun h mem => h name mem rfl, fun h other mem same => h (same ▸ mem)⟩

/-- The index of the block names, given the names of the blocks. -/
theorem labels_eq {m : Model} {names : List String}
    (h : m.blocks.toList.map (·.name) = "" :: names) (name : String) :
    (m.labels[name]?).map List.reverse =
      if name ∈ names then some (names.idxsOf name 1) else none := by
  have named := blocksNamed_eq_idxsOf h name
  rw [blocksNamed] at named
  cases found : m.labels[name]? with
  | none =>
    rw [found] at named
    rw [if_neg (idxsOf_eq_nil_iff.1 named.symm)]
    rfl
  | some ids =>
    rw [found, Option.getD_some] at named
    have filled : names.idxsOf name 1 ≠ [] := by
      rw [← named]
      simpa using ((m.labelled name ids).1 found).1
    have there : name ∈ names := Decidable.byContradiction fun absent =>
      filled (idxsOf_eq_nil_iff.2 absent)
    rw [if_pos there, ← named]
    rfl

/-- The model of an outline's pieces is laid out as the outline says. -/
theorem layout_ofPieces {α : Type} (o : Outline α) :
    (ofPieces o.pieces).layout = (o.number 1).layout := by
  have refs : (o.number 1).references = o.references := o.references_number 1
  have start : Builder.start.At [] {} [] := ⟨rfl, rfl⟩
  have vars : (o.references.foldl Numbering.insert Builder.start.model.vars).toList =
      (o.number 1).references.eraseDups := by
    rw [refs]
    exact Numbering.toList_foldl_insert .empty o.references
  have numbers (name : String) (id : Nat)
      (found : (o.references.foldl Numbering.insert Builder.start.model.vars).find? name =
        some id) :
      (o.number 1).references.eraseDups.idxOf name = id := by
    rw [← vars, Numbering.idxOf_toList found]
  have apart := Outline.apart_idxOf (o.number 1).references
  obtain ⟨built, stands⟩ := start.build 1 rfl numbers
  have blocks : (ofPieces o.pieces).blocks.toList.map Block.layout =
      (o.number 1).layout.blocks := by
    rw [ofPieces, stands.blocks, List.nil_append, List.nil_append, List.map_cons,
      Outline.layout_blocks apart,
      Outline.layout_absorb_empty (apart.mono (o.number 1).ownReferences_subset)]
    rfl
  have names : (ofPieces o.pieces).blocks.toList.map (·.name) = "" :: (o.number 1).blockNames := by
    have := congrArg (List.map BlockLayout.name) blocks
    rw [List.map_map] at this
    refine this.trans ?_
    rw [Outline.layout, List.map_cons, Outline.name_blockLayouts]
    rfl
  have lookup : (ofPieces o.pieces).findVariable? = (o.number 1).references.eraseDups.idxOf? := by
    funext name
    rw [findVariable?, ofPieces, built, Numbering.find?_eq_idxOf?, vars]
  rw [layout, blocks, lookup, funext (labels_eq names), ofPieces, built, vars]
  rfl

end Model

/-- The pieces of a template are the pieces of its outline. -/
theorem Outline.map_pieces_ofSource (source : String) (flags : FlagSet) (options : Options)
    (loader : Option Loader) :
    (ofSource source flags options loader).map pieces =
      match Item.ofText options.trim source with
      | .error e => .error (.malformed e)
      | .ok items => Piece.ofItems flags options loader items := by
  rw [ofSource]
  cases hitems : Item.ofText options.trim source with
  | error e => rw [Item.Tree.ofText_eq_error_iff.2 hitems]; rfl
  | ok items =>
    obtain ⟨tree, rfl⟩ := Item.exists_tree_of_ofText hitems
    rw [Item.Tree.ofText_eq_ok_iff.2 hitems]
    exact (Piece.ofItems_items flags options loader tree).symm

theorem compile_eq_map_ofSource (source : String) (flags : FlagSet) (options : Options)
    (loader : Option Loader) :
    compile source flags options loader =
      (Outline.ofSource source flags options loader).map fun o => Model.ofPieces o.pieces := by
  have pieces := Outline.map_pieces_ofSource source flags options loader
  rw [compile]
  cases hitems : Item.ofText options.trim source with
  | error e =>
    simp only [hitems, Except.map_eq_error_iff] at pieces
    rw [pieces]
    rfl
  | ok items =>
    simp only [hitems] at pieces
    simp only [← pieces]
    cases Outline.ofSource source flags options loader <;> rfl

/-- Compiling a template succeeds with the model whose layout is that of the template's outline, and
fails with the error of the walk that finds the outline. -/
theorem compile_elaborates (source : String) (flags : FlagSet) (options : Options)
    (loader : Option Loader) :
    (∀ m, compile source flags options loader = .ok m ↔
      ∃ o, Outline.ofSource source flags options loader = .ok o ∧ m.layout = (o.number 1).layout) ∧
    (∀ e, compile source flags options loader = .error e ↔
      Outline.ofSource source flags options loader = .error e) := by
  rw [compile_eq_map_ofSource]
  refine ⟨fun m => ?_, fun e => Except.map_eq_error_iff⟩
  rw [Except.map_eq_ok_iff]
  constructor
  · rintro ⟨o, found, rfl⟩
    exact ⟨o, found, Model.layout_ofPieces o⟩
  · rintro ⟨o, found, same⟩
    exact ⟨o, found, Model.layout_injective ((Model.layout_ofPieces o).trans same.symm)⟩

theorem compile_rows_eq :
    compile "[beginblock:row]{x}[endblock:row]" .empty {} none =
      .ok (.ofPieces [.beginBlock "row", .var "x", .endBlock]) := by
  have items : Item.ofText true "[beginblock:row]{x}[endblock:row]" =
      .ok [.beginBlock "row" ⟨1, 1⟩, .var "x", .endBlock] :=
    Item.ofText_of_drainWithin rfl rfl
  rw [compile, items]
  rfl

theorem compile_rows :
    ∃ m, compile "[beginblock:row]{x}[endblock:row]" .empty {} none = .ok m :=
  ⟨_, compile_rows_eq⟩

/-! ## Models and their outlines

A model has an outline if it consists of what the outline says, block by block. Every compiled
template has the outline of its source, with the blocks numbered in order.
-/

namespace Outline

variable {α : Type}

def allMarks : Outline α → List α
  | nil => []
  | text _ rest => rest.allMarks
  | var _ rest => rest.allMarks
  | block _ mark inner rest => mark :: (inner.allMarks ++ rest.allMarks)

theorem allMarks_number (o : Outline α) (next : Nat) :
    (o.number next).allMarks = List.range' next o.blockCount := by
  induction o generalizing next with
  | nil => rfl
  | text content rest ih => exact ih next
  | var name rest ih => exact ih next
  | block name mark inner rest ihInner ihRest =>
    have count : 1 + inner.blockCount + rest.blockCount =
        inner.blockCount + rest.blockCount + 1 := by omega
    rw [number, allMarks, ihInner, ihRest, blockCount, count, List.range'_succ,
      List.range'_append_1]

theorem length_blockLayouts {index : String → Nat} {o : Outline α} {next : Nat}
    (apart : Apart index (o.number next).references) (parent slot : Nat) :
    ((o.number next).blockLayouts index parent slot).length = o.blockCount := by
  rw [← layout_blocks apart, List.length_map, length_blocks]

theorem proper_number {o : Outline α} {around : List String} (h : o.Proper around) (next : Nat) :
    (o.number next).Proper around := by
  induction o generalizing around next with
  | nil => trivial
  | text content rest ih => exact ih h next
  | var name rest ih => exact ih h next
  | block name mark inner rest ihInner ihRest =>
    obtain ⟨named, fresh, inside, beyond⟩ := h
    exact ⟨named, fresh, ihInner inside _, ihRest beyond _⟩

end Outline

namespace Model

variable {α : Type} {m : Model}

def indexOf (m : Model) : String → Nat :=
  m.vars.toList.idxOf

theorem variableName_indexOf {name : String} (mem : name ∈ m.vars.toList) :
    m.variableName (m.indexOf name) = name := by
  rw [variableName, ← Numbering.getElem?_toList, indexOf, List.getElem?_idxOf mem]
  rfl

/-- The model has the blocks of an outline that stands in block `parent`, after `slot` other
blocks. -/
def Hosts (m : Model) (parent slot : Nat) : Outline Nat → Prop
  | .nil => True
  | .text _ rest => m.Hosts parent slot rest
  | .var _ rest => m.Hosts parent slot rest
  | .block name id inner rest =>
    parent < id ∧ id < m.blockCount ∧
      (m.block id).layout = inner.blockLayout m.indexOf name (some parent) slot ∧
      m.Hosts id 0 inner ∧ m.Hosts parent (slot + 1) rest

section

variable {parent slot : Nat} {name : String} {id : Nat} {within after : Outline Nat}

theorem Hosts.layout (h : m.Hosts parent slot (.block name id within after)) :
    (m.block id).layout = within.blockLayout m.indexOf name (some parent) slot :=
  h.2.2.1

theorem Hosts.inner (h : m.Hosts parent slot (.block name id within after)) : m.Hosts id 0 within :=
  h.2.2.2.1

theorem Hosts.rest (h : m.Hosts parent slot (.block name id within after)) :
    m.Hosts parent (slot + 1) after :=
  h.2.2.2.2

end

structure Outlined (m : Model) (o : Outline Nat) : Prop where
  vars : m.vars.toList = o.references.eraseDups
  blocks : m.blocks.toList.map Block.layout =
    o.blockLayout m.indexOf "" none 0 :: o.blockLayouts m.indexOf root 0
  hosts : m.Hosts root 0 o
  marks : o.allMarks = List.range' 1 (m.blockCount - 1)
  proper : o.Proper []

/-! ### The parts of a layout -/

section

variable {o : Outline Nat} {id : Nat} {name : String} {parent : Option Nat} {slot : Nat}

theorem parent_of_layout (h : (m.block id).layout = o.blockLayout m.indexOf name parent slot) :
    (m.block id).parent = parent :=
  congrArg BlockLayout.parent h

theorem body_of_layout (h : (m.block id).layout = o.blockLayout m.indexOf name parent slot) :
    (m.block id).body.toList = o.nodes m.indexOf o.ownReferences.eraseDups.idxOf :=
  congrArg BlockLayout.body h

theorem vars_of_layout (h : (m.block id).layout = o.blockLayout m.indexOf name parent slot) :
    (m.block id).vars.toList = o.ownReferences.eraseDups.map m.indexOf :=
  congrArg BlockLayout.vars h

theorem children_of_layout (h : (m.block id).layout = o.blockLayout m.indexOf name parent slot) :
    (m.block id).children.toList = o.marks :=
  congrArg BlockLayout.children h

end

/-! ### Blocks from their layouts -/

theorem layout_block {id : Nat} {b : BlockLayout}
    (h : (m.blocks.toList.map Block.layout)[id]? = some b) :
    id < m.blockCount ∧ (m.block id).layout = b := by
  rw [List.getElem?_map, Array.getElem?_toList] at h
  rw [blockCount, block]
  cases found : m.blocks[id]? with
  | none => simp [found] at h
  | some block =>
    rw [found] at h
    exact ⟨(Array.getElem?_eq_some_iff.1 found).1, Option.some.inj h⟩

theorem hosts_of_layout {o : Outline α} {before after : List BlockLayout} {parent slot : Nat}
    (next : Nat)
    (blocks : m.blocks.toList.map Block.layout =
      before ++ ((o.number next).blockLayouts m.indexOf parent slot ++ after))
    (apart : Outline.Apart m.indexOf (o.number next).references)
    (start : before.length = next) (inside : parent < next) :
    m.Hosts parent slot (o.number next) := by
  induction o generalizing before after parent slot next with
  | nil => trivial
  | text content rest ih => exact ih next blocks apart start inside
  | var name rest ih =>
    exact ih next blocks (apart.mono fun _ mem => List.mem_cons_of_mem name mem) start inside
  | block name mark inner rest ihInner ihRest =>
    have apartInner := apart.mono (List.subset_append_left _ _)
    have apartRest := apart.mono (List.subset_append_right _ _)
    rw [Outline.number, Outline.blockLayouts, List.cons_append, List.append_assoc] at blocks
    have here : (m.blocks.toList.map Block.layout)[next]? = some (Outline.blockLayout m.indexOf name
        (some parent) slot (inner.number (next + 1))) := by
      rw [blocks, List.getElem?_append_right (by omega), start, Nat.sub_self]
      rfl
    obtain ⟨bound, layout⟩ := layout_block here
    refine ⟨inside, bound, layout, ?_, ?_⟩
    · have within := blocks.trans (List.append_cons before _ _)
      exact ihInner (next + 1) within apartInner (by simp [start]) (Nat.lt_succ_self next)
    · have beyond := blocks.trans (List.append_assoc before (_ :: _) _).symm
      refine ihRest (next + 1 + inner.blockCount) beyond apartRest ?_ (by omega)
      simp only [List.length_append, List.length_cons, Outline.length_blockLayouts apartInner,
        start]
      omega

theorem Outlined.of_layout {o : Outline α} (h : m.layout = (o.number 1).layout)
    (proper : o.Proper []) : m.Outlined (o.number 1) := by
  have vars : m.vars.toList = (o.number 1).references.eraseDups := congrArg Layout.vars h
  have index : m.indexOf = (o.number 1).references.eraseDups.idxOf := by
    funext name
    rw [indexOf, vars]
  have blocks : m.blocks.toList.map Block.layout =
      (o.number 1).blockLayout m.indexOf "" none 0 ::
        (o.number 1).blockLayouts m.indexOf root 0 := by
    rw [index]
    exact congrArg Layout.blocks h
  have apart : Outline.Apart m.indexOf (o.number 1).references :=
    index ▸ Outline.apart_idxOf (o.number 1).references
  have count : m.blockCount = 1 + o.blockCount := by
    have := congrArg List.length blocks
    rw [List.length_map, Array.length_toList, List.length_cons,
      Outline.length_blockLayouts apart] at this
    rw [blockCount, this]
    omega
  refine ⟨vars, blocks, ?_, ?_, Outline.proper_number proper 1⟩
  · have after := blocks.trans (congrArg (List.cons _) (List.append_nil _).symm)
    exact hosts_of_layout 1 (after.trans (List.append_cons [] _ _)) apart rfl Nat.zero_lt_one
  · rw [Outline.allMarks_number, count, Nat.add_sub_cancel_left]

theorem Outlined.body {o : Outline Nat} (h : m.Outlined o) :
    (m.block root).layout = o.blockLayout m.indexOf "" none 0 :=
  (layout_block (by rw [h.blocks]; rfl)).2

theorem Outlined.mem_allMarks {o : Outline Nat} (h : m.Outlined o) {id : Nat} :
    id ∈ o.allMarks ↔ id ≠ root ∧ id < m.blockCount := by
  have := m.nonempty
  rw [h.marks, List.mem_range'_1, root, blockCount]
  omega

theorem Outlined.index_apart {o : Outline Nat} (h : m.Outlined o) :
    Outline.Apart m.indexOf o.references := by
  have index : m.indexOf = o.references.eraseDups.idxOf := by
    funext name
    rw [indexOf, h.vars]
  exact index ▸ Outline.apart_idxOf o.references

end Model

/-- Every compiled template has the outline of its source. -/
theorem exists_outlined_of_compile {source : String} {flags : FlagSet} {options : Options}
    {loader : Option Loader} {m : Model} (h : compile source flags options loader = .ok m) :
    ∃ o, Outline.ofSource source flags options loader = .ok o ∧ m.Outlined (o.number 1) := by
  rw [compile_eq_map_ofSource, Except.map_eq_ok_iff] at h
  obtain ⟨o, found, rfl⟩ := h
  exact ⟨o, found, .of_layout (Model.layout_ofPieces o) (Outline.proper_of_ofSource found)⟩

end Stencil
