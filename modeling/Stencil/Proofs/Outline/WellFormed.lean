import Stencil.Proofs.Outline.Compilation

/-! # Outlines give well-formed models

Every body of a model with an outline is the list of nodes of some part of the outline, so facts
about one body are facts about lists of nodes. Facts about several blocks go by induction on the
outline.
-/

namespace Stencil

/-! ## Bodies -/

theorem mem_joinText {content : String} {nodes : List Node} {node : Node}
    (other : node.isLiteral = false) : node ∈ joinText content nodes ↔ node ∈ nodes := by
  unfold joinText
  split
  · rfl
  · split
    all_goals
      cases node <;> simp_all [Node.isLiteral]

theorem filterMap_joinText {β : Type} {f : Node → Option β} (h : ∀ text, f (.literal text) = none)
    (content : String) (nodes : List Node) :
    (joinText content nodes).filterMap f = nodes.filterMap f := by
  unfold joinText
  split
  · rfl
  · split <;> simp [h]

/-- Literals are not empty and do not stand side by side. -/
structure Tidy (nodes : List Node) : Prop where
  nonempty : ∀ text, Node.literal text ∈ nodes → text ≠ ""
  apart : nodes.IsChain fun first second => ¬(first.isLiteral = true ∧ second.isLiteral = true)

theorem Tidy.cons {nodes : List Node} (h : Tidy nodes) {node : Node}
    (other : node.isLiteral = false) : Tidy (node :: nodes) where
  nonempty text mem := by
    rcases List.mem_cons.1 mem with rfl | mem
    · cases other
    · exact h.nonempty text mem
  apart := by
    cases nodes with
    | nil => exact .singleton node
    | cons second rest => exact .cons_cons (by simp [other]) h.apart

theorem Tidy.literal {nodes : List Node} (h : Tidy nodes) {content : String}
    (something : content ≠ "") (next : ∀ text rest, nodes ≠ .literal text :: rest) :
    Tidy (.literal content :: nodes) where
  nonempty text mem := by
    rcases List.mem_cons.1 mem with same | mem
    · cases same
      exact something
    · exact h.nonempty text mem
  apart := by
    cases nodes with
    | nil => exact .singleton _
    | cons second rest =>
      refine .cons_cons (fun both => ?_) h.apart
      cases second with
      | literal text => exact next text rest rfl
      | var index slot => cases both.2
      | block id => cases both.2

theorem Tidy.tail {nodes : List Node} {node : Node} (h : Tidy (node :: nodes)) : Tidy nodes where
  nonempty text mem := h.nonempty text (List.mem_cons_of_mem node mem)
  apart := by
    cases h.apart with
    | singleton => exact .nil
    | cons_cons _ rest => exact rest

theorem Tidy.joinText {nodes : List Node} (h : Tidy nodes) (content : String) :
    Tidy (joinText content nodes) := by
  by_cases nothing : content = ""
  · rw [nothing, joinText_empty]
    exact h
  · unfold Stencil.joinText
    rw [if_neg (by simpa using nothing)]
    split
    · next after rest =>
      refine h.tail.literal (by simp [nothing]) fun text others same => ?_
      subst same
      cases h.apart with
      | cons_cons both _ => exact both ⟨rfl, rfl⟩
    · next other => exact h.literal nothing other

namespace Outline

variable {index slot : String → Nat}

theorem blocks_nodes (o : Outline Nat) :
    (o.nodes index slot).filterMap Node.block? = o.marks := by
  induction o with
  | nil => rfl
  | text content rest ih => rw [nodes, filterMap_joinText (fun _ => rfl), ih, marks]
  | var name rest ih => exact ih
  | block name id inner rest _ ih => exact congrArg (List.cons id) ih

theorem vars_nodes (o : Outline Nat) :
    (o.nodes index slot).filterMap Node.var? = o.ownReferences.map index := by
  induction o with
  | nil => rfl
  | text content rest ih => rw [nodes, filterMap_joinText (fun _ => rfl), ih, ownReferences]
  | var name rest ih => exact congrArg (List.cons (index name)) ih
  | block name id inner rest _ ih => exact ih

theorem var_mem_nodes {o : Outline Nat} {number place : Nat} :
    .var number place ∈ o.nodes index slot ↔
      ∃ name ∈ o.ownReferences, number = index name ∧ place = slot name := by
  induction o with
  | nil => simp [nodes, ownReferences]
  | text content rest ih => rw [nodes, mem_joinText rfl, ih, ownReferences]
  | var name rest ih => simp [nodes, ownReferences, ih]
  | block name id inner rest _ ih => simp [nodes, ownReferences, ih]

theorem tidy_nodes (o : Outline Nat) : Tidy (o.nodes index slot) := by
  induction o with
  | nil => exact ⟨by simp [nodes], .nil⟩
  | text content rest ih => exact ih.joinText content
  | var name rest ih => exact ih.cons rfl
  | block name id inner rest _ ih => exact ih.cons rfl

end Outline

namespace Model

variable {m : Model} {o : Outline Nat}

theorem Hosts.block_eq {parent slot id : Nat} (h : m.Hosts parent slot o)
    (mem : id ∈ o.allMarks) :
    ∃ name outer place inner,
      (m.block id).layout = Outline.blockLayout m.indexOf name outer place inner ∧
        m.Hosts id 0 inner ∧ inner.references ⊆ o.references := by
  induction o generalizing parent slot with
  | nil => cases mem
  | text content rest ih => exact ih h mem
  | var name rest ih =>
    obtain ⟨name', outer, place, inner, layout, hosts, sub⟩ := ih h mem
    exact ⟨name', outer, place, inner, layout, hosts,
      fun _ ref => List.mem_cons_of_mem name (sub ref)⟩
  | block name first within rest ihInner ihRest =>
    obtain ⟨-, -, layout, inside, beyond⟩ := h
    rcases List.mem_cons.1 mem with rfl | mem
    · exact ⟨name, some parent, slot, within, layout, inside, List.subset_append_left _ _⟩
    · rcases List.mem_append.1 mem with mem | mem
      · obtain ⟨name', outer, place, inner, layout, hosts, sub⟩ := ihInner inside mem
        exact ⟨name', outer, place, inner, layout, hosts,
          fun _ ref => List.mem_append_left _ (sub ref)⟩
      · obtain ⟨name', outer, place, inner, layout, hosts, sub⟩ := ihRest beyond mem
        exact ⟨name', outer, place, inner, layout, hosts,
          fun _ ref => List.mem_append_right _ (sub ref)⟩

/-- Every block of the model is laid out as some part of the outline says. -/
theorem Outlined.block_eq (h : m.Outlined o) (id : Nat) :
    ∃ name outer place inner,
      (m.block id).layout = Outline.blockLayout m.indexOf name outer place inner ∧
        m.Hosts id 0 inner ∧ inner.references ⊆ o.references := by
  by_cases top : id = root
  · subst top
    exact ⟨"", none, 0, o, h.body, h.hosts, List.Subset.refl _⟩
  · by_cases bound : id < m.blockCount
    · exact h.hosts.block_eq (h.mem_allMarks.2 ⟨top, bound⟩)
    · rw [block_of_le (Nat.le_of_not_lt bound)]
      exact ⟨"", none, 0, .nil, rfl, trivial, by simp [Outline.references]⟩

theorem Outlined.children_eq (h : m.Outlined o) (id : Nat) :
    (m.block id).body.toList.filterMap Node.block? = (m.block id).children.toList := by
  obtain ⟨name, outer, place, inner, layout, -⟩ := h.block_eq id
  rw [body_of_layout layout, children_of_layout layout, Outline.blocks_nodes]

theorem Outlined.vars_eq (h : m.Outlined o) (id : Nat) :
    (m.block id).vars.toList = ((m.block id).body.toList.filterMap Node.var?).eraseDups := by
  obtain ⟨name, outer, place, inner, layout, -, sub⟩ := h.block_eq id
  have apart : Outline.Apart m.indexOf inner.ownReferences :=
    h.index_apart.mono (List.Subset.trans inner.ownReferences_subset sub)
  rw [body_of_layout layout, vars_of_layout layout, Outline.vars_nodes, eraseDups_map apart]

theorem Outlined.tidy (h : m.Outlined o) (id : Nat) : Tidy (m.block id).body.toList := by
  obtain ⟨name, outer, place, inner, layout, -⟩ := h.block_eq id
  rw [body_of_layout layout]
  exact Outline.tidy_nodes inner

theorem Outlined.slot_eq (h : m.Outlined o) {id index slot : Nat}
    (mem : .var index slot ∈ (m.block id).body) :
    (m.block id).vars.get? slot = some index ∧ index < m.variableCount := by
  obtain ⟨name, outer, place, inner, layout, -, sub⟩ := h.block_eq id
  rw [← Array.mem_toList_iff, body_of_layout layout] at mem
  obtain ⟨ref, own, rfl, rfl⟩ := Outline.var_mem_nodes.1 mem
  refine ⟨?_, ?_⟩
  · rw [← Numbering.getElem?_toList, vars_of_layout layout, List.getElem?_map,
      List.getElem?_idxOf (List.mem_eraseDups.2 own)]
    rfl
  · have there : ref ∈ m.vars.toList := by
      rw [h.vars]
      exact List.mem_eraseDups.2 (sub (inner.ownReferences_subset own))
    rw [variableCount, ← Numbering.length_toList]
    exact List.idxOf_lt_length_of_mem there

theorem Hosts.bounds {parent slot id : Nat} (h : m.Hosts parent slot o) (mem : id ∈ o.allMarks) :
    parent < id ∧ id < m.blockCount := by
  induction o generalizing parent slot with
  | nil => cases mem
  | text content rest ih => exact ih h mem
  | var name rest ih => exact ih h mem
  | block name first within rest ihInner ihRest =>
    obtain ⟨later, bound, -, inside, beyond⟩ := h
    rcases List.mem_cons.1 mem with rfl | mem
    · exact ⟨later, bound⟩
    · rcases List.mem_append.1 mem with mem | mem
      · obtain ⟨deeper, there⟩ := ihInner inside mem
        exact ⟨Nat.lt_trans later deeper, there⟩
      · exact ihRest beyond mem

theorem Hosts.ne_root {parent slot id : Nat} (h : m.Hosts parent slot o)
    (mem : id ∈ o.allMarks) : id ≠ root :=
  Nat.ne_zero_of_lt (h.bounds mem).1

/-- A block of the outline stands in the outline itself or in a block of it. -/
theorem Hosts.parent {parent slot id : Nat} (h : m.Hosts parent slot o) (mem : id ∈ o.allMarks) :
    ∃ outer, (m.block id).parent = some outer ∧ outer < id ∧
      (outer = parent ∧ id ∈ o.marks ∨ outer ∈ o.allMarks ∧ id ∈ (m.block outer).children) := by
  induction o generalizing parent slot with
  | nil => cases mem
  | text content rest ih => exact ih h mem
  | var name rest ih => exact ih h mem
  | block name first within rest ihInner ihRest =>
    obtain ⟨later, -, layout, inside, beyond⟩ := h
    rcases List.mem_cons.1 mem with rfl | mem
    · exact ⟨parent, parent_of_layout layout, later, .inl ⟨rfl, List.mem_cons_self⟩⟩
    · rcases List.mem_append.1 mem with mem | mem
      · obtain ⟨outer, above, before, place⟩ := ihInner inside mem
        refine ⟨outer, above, before, .inr ?_⟩
        rcases place with ⟨rfl, direct⟩ | ⟨there, deeper⟩
        · rw [← Array.mem_toList_iff, children_of_layout layout]
          exact ⟨List.mem_cons_self, direct⟩
        · exact ⟨List.mem_cons_of_mem first (List.mem_append_left _ there), deeper⟩
      · obtain ⟨outer, above, before, place⟩ := ihRest beyond mem
        refine ⟨outer, above, before, ?_⟩
        rcases place with ⟨same, direct⟩ | ⟨there, deeper⟩
        · exact .inl ⟨same, List.mem_cons_of_mem first direct⟩
        · exact .inr ⟨List.mem_cons_of_mem first (List.mem_append_right _ there), deeper⟩

theorem Hosts.child {parent slot place id : Nat} (h : m.Hosts parent slot o)
    (child : o.marks[place]? = some id) :
    (m.block id).parent = some parent ∧ (m.block id).slot = slot + place := by
  induction o generalizing slot place with
  | nil => cases child
  | text content rest ih => exact ih h child
  | var name rest ih => exact ih h child
  | block name first within rest _ ih =>
    obtain ⟨-, -, layout, -, beyond⟩ := h
    cases place with
    | zero =>
      cases child
      exact ⟨parent_of_layout layout, congrArg BlockLayout.slot layout⟩
    | succ place =>
      obtain ⟨above, there⟩ := ih beyond child
      exact ⟨above, by omega⟩

/-- Every block of the outline is referred to once. -/
theorem count_children (index : String → Nat) (o : Outline Nat) (parent slot id : Nat) :
    o.marks.count id + ((o.blockLayouts index parent slot).flatMap (·.children)).count id =
      o.allMarks.count id := by
  induction o generalizing parent slot with
  | nil => rfl
  | text content rest ih => exact ih parent slot
  | var name rest ih => exact ih parent slot
  | block name first within rest ihInner ihRest =>
    have inside := ihInner first 0
    have beyond := ihRest parent (slot + 1)
    simp only [Outline.marks, Outline.blockLayouts, Outline.blockLayout, Outline.allMarks,
      List.flatMap_cons, List.flatMap_append, List.count_append, List.count_cons]
      at inside beyond ⊢
    omega

theorem Outlined.count_children (h : m.Outlined o) (id : Nat) :
    ((m.blocks.toList.map Block.layout).flatMap (·.children)).count id = o.allMarks.count id := by
  rw [h.blocks, List.flatMap_cons, List.count_append]
  exact Model.count_children m.indexOf o root 0 id

theorem count_block_eq (id : Nat) (nodes : List Node) :
    nodes.count (.block id) = (nodes.filterMap Node.block?).count id := by
  rw [List.count, List.count, List.countP_filterMap]
  apply List.countP_congr
  intro node _
  cases node <;> simp [Node.block?]

theorem Outlined.count_block (h : m.Outlined o) (id : Nat) :
    (m.blocks.toList.flatMap fun b => b.body.toList).count (.block id) = o.allMarks.count id := by
  have bodies : (m.blocks.toList.flatMap fun b => b.body.toList).filterMap Node.block? =
      (m.blocks.toList.map Block.layout).flatMap (·.children) := by
    rw [List.filterMap_flatMap, List.flatMap_map]
    apply List.flatMap_congr
    intro b mem
    obtain ⟨place, found⟩ := List.mem_iff_getElem?.1 mem
    have there : m.block place = b := by
      rw [block, ← Array.getElem?_toList, found]
      rfl
    rw [← there]
    exact h.children_eq place
  rw [count_block_eq, bodies, h.count_children]

theorem Hosts.used {parent slot : Nat} {ref : String} (h : m.Hosts parent slot o)
    (mem : ref ∈ o.references) :
    ref ∈ o.ownReferences ∨
      ∃ id name outer place inner, id < m.blockCount ∧
        (m.block id).layout = Outline.blockLayout m.indexOf name outer place inner ∧
        ref ∈ inner.ownReferences := by
  induction o generalizing parent slot with
  | nil => cases mem
  | text content rest ih => exact ih h mem
  | var name rest ih =>
    rcases List.mem_cons.1 mem with rfl | mem
    · exact .inl List.mem_cons_self
    · exact (ih h mem).imp_left (List.mem_cons_of_mem name)
  | block name first within rest ihInner ihRest =>
    obtain ⟨-, bound, layout, inside, beyond⟩ := h
    rcases List.mem_append.1 mem with mem | mem
    · rcases ihInner inside mem with own | found
      · exact .inr ⟨first, name, some parent, slot, within, bound, layout, own⟩
      · exact .inr found
    · exact ihRest beyond mem

/-- No block of the outline has the name of a block around it, given the names around the
outline. -/
theorem Hosts.apart {parent slot : Nat} {around : List String} (h : m.Hosts parent slot o)
    (proper : o.Proper around)
    (names : ∀ outer, outer = parent ∨ m.Encloses outer parent →
      (m.block outer).name = "" ∨ (m.block outer).name ∈ around)
    {id : Nat} (mem : id ∈ o.allMarks) {outer : Nat} (encloses : m.Encloses outer id) :
    (m.block outer).name ≠ (m.block id).name := by
  induction o generalizing parent slot around with
  | nil => cases mem
  | text content rest ih => exact ih h proper names mem
  | var name rest ih => exact ih h proper names mem
  | block name first within rest ihInner ihRest =>
    obtain ⟨later, bound, layout, inside, beyond⟩ := h
    obtain ⟨valid, fresh, properInside, properBeyond⟩ := proper
    have called : (m.block first).name = name := congrArg BlockLayout.name layout
    have above : (m.block first).parent = some parent := parent_of_layout layout
    have outside (outer : Nat) (encloses : m.Encloses outer first) :
        (m.block outer).name = "" ∨ (m.block outer).name ∈ around :=
      names outer ((encloses_iff above).1 encloses)
    rcases List.mem_cons.1 mem with rfl | mem
    · rw [called]
      rcases outside outer encloses with empty | old
      · intro same
        rw [← same, empty] at valid
        cases valid
      · exact fun same => fresh (same ▸ old)
    · rcases List.mem_append.1 mem with mem | mem
      · refine ihInner inside properInside (fun other at' => ?_) mem
        rcases at' with rfl | further
        · exact .inr (called ▸ List.mem_cons_self)
        · exact (outside other further).imp_right (List.mem_cons_of_mem name)
      · exact ihRest beyond properBeyond names mem

theorem Outlined.used (h : m.Outlined o) {index : Nat} (bound : index < m.variableCount) :
    ∃ id slot, id < m.blockCount ∧ .var index slot ∈ (m.block id).body := by
  have named : m.vars.get? index = some m.vars.keys[index] := Array.getElem?_eq_getElem bound
  have found := Numbering.find?_eq_some_iff.2 named
  have number : m.indexOf m.vars.keys[index] = index := Numbering.idxOf_toList found
  have ref : m.vars.keys[index] ∈ o.references := by
    rw [← List.mem_eraseDups, ← h.vars]
    exact Numbering.mem_toList.2 ⟨index, found⟩
  have stands : ∃ id name outer place inner, id < m.blockCount ∧
      (m.block id).layout = Outline.blockLayout m.indexOf name outer place inner ∧
      m.vars.keys[index] ∈ inner.ownReferences := by
    rcases h.hosts.used ref with own | found
    · exact ⟨root, "", none, 0, o, m.nonempty, h.body, own⟩
    · exact found
  obtain ⟨id, name, outer, place, inner, inside, layout, own⟩ := stands
  refine ⟨id, inner.ownReferences.eraseDups.idxOf m.vars.keys[index], inside, ?_⟩
  rw [← Array.mem_toList_iff, body_of_layout layout]
  exact Outline.var_mem_nodes.2 ⟨_, own, number.symm, rfl⟩

theorem Outlined.nodup_allMarks (h : m.Outlined o) : o.allMarks.Nodup := by
  rw [h.marks]
  exact List.nodup_range'

theorem Outlined.child (h : m.Outlined o) {outer slot id : Nat}
    (child : (m.block outer).children[slot]? = some id) :
    (m.block id).parent = some outer ∧ (m.block id).slot = slot := by
  obtain ⟨name, above, place, inner, layout, hosts, -⟩ := h.block_eq outer
  rw [← Array.getElem?_toList, children_of_layout layout] at child
  have found := hosts.child child
  rwa [Nat.zero_add] at found

theorem Outlined.parent (h : m.Outlined o) {id : Nat} (mem : id ∈ o.allMarks) :
    ∃ outer, outer < id ∧ (m.block id).parent = some outer ∧
      id ∈ (m.block outer).children := by
  obtain ⟨outer, above, before, place⟩ := h.hosts.parent mem
  refine ⟨outer, before, above, ?_⟩
  rcases place with ⟨rfl, direct⟩ | ⟨-, deeper⟩
  · rwa [← Array.mem_toList_iff, children_of_layout h.body]
  · exact deeper

theorem Outlined.block_mem_body (h : m.Outlined o) {outer id : Nat} :
    .block id ∈ (m.block outer).body ↔ id ∈ (m.block outer).children := by
  rw [← Array.mem_toList_iff, ← Array.mem_toList_iff, ← h.children_eq, List.mem_filterMap]
  constructor
  · exact fun mem => ⟨.block id, mem, rfl⟩
  · rintro ⟨node, mem, same⟩
    cases node with
    | block other =>
      cases same
      exact mem
    | literal text => cases same
    | var index slot => cases same

theorem Outlined.wellFormed (h : m.Outlined o) : m.WellFormed where
  root_name := congrArg BlockLayout.name h.body
  root_parent := parent_of_layout h.body
  parent id top bound := by
    obtain ⟨outer, before, above, place⟩ := h.parent (h.mem_allMarks.2 ⟨top, bound⟩)
    exact ⟨outer, before, above, h.block_mem_body.2 place⟩
  place id top bound outer slot := by
    refine ⟨h.child, ?_⟩
    rintro ⟨above, rfl⟩
    obtain ⟨outer', -, above', place⟩ := h.parent (h.mem_allMarks.2 ⟨top, bound⟩)
    rw [above, Option.some.injEq] at above'
    subst above'
    obtain ⟨slot, child⟩ := List.mem_iff_getElem?.1 (Array.mem_toList_iff.2 place)
    rw [Array.getElem?_toList] at child
    rw [(h.child child).2, child]
  occurs_once id top bound := by
    have mem : id ∈ o.allMarks := h.mem_allMarks.2 ⟨top, bound⟩
    rw [h.count_block, List.count_eq_one_of_mem h.nodup_allMarks mem]
  children id _ := h.children_eq id
  blockVars id _ := ⟨Numbering.nodup_toList _, h.vars_eq id⟩
  slots id index slot mem := h.slot_eq mem
  vars_nodup := Numbering.nodup_toList _
  used index bound := h.used bound
  findVariable name index := Numbering.find?_eq_some_iff
  labels := labels_eq_named m
  apart outer inner encloses := by
    have above : inner ∈ o.allMarks := by
      rw [h.mem_allMarks]
      refine ⟨?_, ?_⟩
      · rintro rfl
        exact not_encloses (parent_of_layout h.body) encloses
      · refine Nat.lt_of_not_le fun beyond => not_encloses ?_ encloses
        rw [block_of_le beyond]
    refine h.hosts.apart h.proper (fun other at' => ?_) above encloses
    rcases at' with rfl | further
    · exact .inl (congrArg BlockLayout.name h.body)
    · exact absurd further (not_encloses (parent_of_layout h.body))
  literal_ne id text mem := (h.tidy id).nonempty text (Array.mem_toList_iff.2 mem)
  literals id := (h.tidy id).apart

end Model

/-- Every compiled template is well-formed. -/
theorem wellFormed_of_compile {source : String} {flags : FlagSet} {options : Options}
    {loader : Option Loader} {m : Model} (h : compile source flags options loader = .ok m) :
    m.WellFormed := by
  obtain ⟨o, -, outlined⟩ := exists_outlined_of_compile h
  exact outlined.wellFormed

theorem wellFormed_rows :
    ∃ m, compile "[beginblock:row]{x}[endblock:row]" .empty {} none = .ok m ∧
      m.WellFormed := by
  obtain ⟨m, compiled⟩ := compile_rows
  exact ⟨m, compiled, wellFormed_of_compile compiled⟩

end Stencil
