import Stencil.Proofs.Session.Refinement

/-! # Commands in either order

Commands that do not depend on each other can change places.
-/

/-! ## Commands that do not depend on each other

Variables are set independently of one another, and of the sealing of blocks that do not refer to
them: the bindings are the same in either order. Blocks of which none stands directly in another are
sealed independently as well, but in either order only up to the numbers of the new instances: each
new instance is the one that sealing its block at first would make.
-/

namespace Stencil

namespace Model

def RefersTo (m : Model) (block : Nat) (name : String) : Prop :=
  ∃ index slot, .var index slot ∈ (m.block block).body ∧ m.variableName index = name

/-- A variable that a block keeps is one that its body refers to. -/
theorem WellFormed.refersTo {m : Model} (wf : m.WellFormed) {block index : Nat} {name : String}
    (bound : block < m.blockCount) (kept : index ∈ (m.block block).vars.toList)
    (found : m.findVariable? name = some index) : m.RefersTo block name := by
  rw [(wf.blockVars block bound).2, List.mem_eraseDups, List.mem_filterMap] at kept
  obtain ⟨node, mem, same⟩ := kept
  cases node with
  | literal text => cases same
  | block id => cases same
  | var other slot =>
    cases same
    refine ⟨index, slot, Array.mem_toList_iff.1 mem, ?_⟩
    rw [variableName, Numbering.find?_eq_some_iff.1 found]
    rfl

end Model

namespace Bindings

variable {m : Model} {b c : Bindings} {owners : List Nat}

/-! ### Setting variables -/

theorem setValue_comm (b : Bindings) {index other : Nat} (apart : index ≠ other)
    (value value' : String) :
    (b.setValue index value).setValue other value' =
      (b.setValue other value').setValue index value := by
  rw [setValue, setValue, setValue, setValue, Array.setIfInBounds_comm _ _ apart]

theorem setValue_setValue (b : Bindings) (index : Nat) (value value' : String) :
    (b.setValue index value).setValue index value' = b.setValue index value' := by
  rw [setValue, setValue, setValue, Array.setIfInBounds_setIfInBounds]

/-- Two variables are set in either order. -/
theorem step_set_comm (b : Bindings) {name other : String} (apart : name ≠ other)
    (value value' : String) :
    (b.step m (.set name value)).step m (.set other value') =
      (b.step m (.set other value')).step m (.set name value) := by
  simp only [step_set]
  cases found : m.findVariable? name with
  | none => rfl
  | some index =>
    cases found' : m.findVariable? other with
    | none => rfl
    | some index' =>
      refine setValue_comm b (fun same => apart ?_) value value'
      subst same
      rw [Model.findVariable?, Numbering.find?_eq_some_iff] at found found'
      exact Option.some.inj (found.symm.trans found')

/-- Of two values for one variable the second stays. -/
theorem step_set_step_set (b : Bindings) (name value value' : String) :
    (b.step m (.set name value)).step m (.set name value') = b.step m (.set name value') := by
  simp only [step_set]
  cases m.findVariable? name with
  | none => rfl
  | some index => exact setValue_setValue b index value value'

theorem snapshot_setValue {block index : Nat} (foreign : index ∉ (m.block block).vars.toList)
    (value : String) : (b.setValue index value).snapshot m block = b.snapshot m block := by
  rw [snapshot, snapshot]
  congr 1
  apply Array.map_congr_left
  intro other mem
  refine value?_setValue_of_ne (fun same => foreign ?_) value
  exact same ▸ Array.mem_toList_iff.2 mem

/-- A variable that none of the blocks keeps is set before or after they are sealed. -/
theorem sealBlocks_setValue (b : Bindings) {index : Nat} {blocks : List Nat}
    (foreign : ∀ block ∈ blocks, index ∉ (m.block block).vars.toList) (value : String) :
    (b.setValue index value).sealBlocks m blocks =
      (b.sealBlocks m blocks).setValue index value := by
  induction blocks generalizing b with
  | nil => rfl
  | cons first rest ih =>
    have here : (b.setValue index value).sealBlock m first =
        (b.sealBlock m first).setValue index value := by
      rw [sealBlock, snapshot_setValue (foreign first List.mem_cons_self)]
      rfl
    have onward := ih (b.sealBlock m first) fun block mem =>
      foreign block (List.mem_cons_of_mem first mem)
    rw [← here] at onward
    exact onward

/-- A variable that no block of a name refers to is set before or after they are sealed. -/
theorem step_set_add_comm (wf : m.WellFormed) (b : Bindings) {name block : String}
    (hidden : ∀ id ∈ m.blocksNamed block, ¬m.RefersTo id name) (value : String) :
    (b.step m (.set name value)).step m (.add block) =
      (b.step m (.add block)).step m (.set name value) := by
  simp only [step_set, step_add]
  cases found : m.findVariable? name with
  | none => rfl
  | some index =>
    refine sealBlocks_setValue b (fun id mem kept => hidden id mem ?_) value
    exact wf.refersTo (Model.mem_blocksNamed.1 mem).1 kept found

/-! ### Sealing blocks -/

def Independent (m : Model) (blocks : List Nat) : Prop :=
  ∀ block ∈ blocks, ∀ other ∈ blocks, (m.block other).parent ≠ some block

/-- What sealing each of some blocks makes of the bindings `b`, but for the numbers of the new
instances: each is the instance that sealing its block in `b` would make. -/
structure SealsEach (m : Model) (blocks : List Nat) (b c : Bindings) : Prop where
  keeps : Keeps b c
  value : ∀ index, c.value? index = b.value? index
  made : ∀ block ∈ blocks, ∃ inst, c.pendingOf block = (b.pendingOf block).push inst ∧
    c.instanceAt inst = b.snapshot m block
  other : ∀ block, block ∉ blocks → c.pendingOf block =
    if ∃ parent ∈ blocks, (m.block block).parent = some parent then #[] else b.pendingOf block

/-- What an instance takes was pending before. -/
theorem exists_pending_of_snapshot {block slot inst : Nat}
    (mem : inst ∈ (b.snapshot m block).childrenAt slot) : ∃ child, inst ∈ b.pendingOf child := by
  rw [Instance.childrenAt, snapshot, Array.getElem?_map] at mem
  cases place : (m.block block).children[slot]? with
  | none => simp [place] at mem
  | some child =>
    rw [place] at mem
    exact ⟨child, mem⟩

/-- Sealing another block does not change what a block would take. -/
theorem snapshot_sealBlock (wf : m.WellFormed) (ledger : Ledger m b owners) {first block : Nat}
    (bound : first < m.blockCount) (apart : block ≠ first)
    (outside : (m.block first).parent ≠ some block) :
    (b.sealBlock m first).snapshot m block = b.snapshot m block := by
  rw [snapshot, snapshot]
  congr 1
  apply Array.map_congr_left
  intro child mem
  have above := wf.mem_children_iff.1 mem
  have differs : child ≠ first := by
    rintro rfl
    exact outside above
  rw [ledger.pendingOf_sealBlock wf bound, if_neg differs, if_neg (wf.not_child above apart)]

/-- Blocks of which none stands directly in another are sealed each as if it were sealed at
first. -/
theorem sealsEach (wf : m.WellFormed) (ledger : Ledger m b owners) {blocks : List Nat}
    (named : ∀ block ∈ blocks, block ≠ Model.root ∧ block < m.blockCount)
    (distinct : blocks.Nodup) (independent : Independent m blocks) :
    SealsEach m blocks b (b.sealBlocks m blocks) := by
  induction blocks generalizing b owners with
  | nil => exact ⟨fun _ there => ⟨there, rfl⟩, fun _ => rfl, by simp, by simp [sealBlocks]⟩
  | cons first rest ih =>
    obtain ⟨top, bound⟩ := named first List.mem_cons_self
    obtain ⟨fresh, distinct⟩ := List.nodup_cons.1 distinct
    have further : Independent m rest := fun block mem other mem' =>
      independent block (List.mem_cons_of_mem first mem) other (List.mem_cons_of_mem first mem')
    have pending := ledger.pendingOf_sealBlock wf bound
    have onward := ih (ledger.sealBlock wf top bound)
      (fun block mem => named block (List.mem_cons_of_mem first mem)) distinct further
    refine ⟨keeps_sealBlocks m b _, value?_sealBlocks m b _, ?made, ?other⟩
    case made =>
      intro block mem
      rcases List.mem_cons.1 mem with rfl | later
      · have alone : ¬∃ parent ∈ rest, (m.block block).parent = some parent :=
          fun ⟨parent, there, above⟩ =>
            independent parent (List.mem_cons_of_mem block there) block mem above
        have listed : block < b.pending.size := ledger.pending ▸ bound
        have there : b.instances.size < (b.sealBlock m block).instances.size := by
          rw [instances_sealBlock listed, Array.size_push]
          exact Nat.lt_succ_self _
        refine ⟨b.instances.size, ?_, ?_⟩
        · exact (onward.other block fresh).trans (by rw [if_neg alone, pending, if_pos rfl])
        · refine (onward.keeps _ there).2.trans ?_
          rw [instanceAt_sealBlock listed]
      · have apart : block ≠ first := fun same => fresh (same ▸ later)
        have stays : block ∉ (m.block first).children := fun child =>
          independent first List.mem_cons_self block mem (wf.mem_children_iff.1 child)
        have outside := independent block mem first List.mem_cons_self
        obtain ⟨inst, listed, new⟩ := onward.made block later
        refine ⟨inst, listed.trans ?_, new.trans ?_⟩
        · rw [pending, if_neg apart, if_neg stays]
        · exact snapshot_sealBlock wf ledger bound apart outside
    case other =>
      intro block away
      rw [List.mem_cons, not_or] at away
      obtain ⟨apart, beyond⟩ := away
      refine (onward.other block beyond).trans ?_
      simp only [pending, if_neg apart, wf.mem_children_iff, List.exists_mem_cons_iff]
      by_cases taken : (m.block block).parent = some first <;> simp [taken]

end Bindings

/-! ## Independent commands in either order

When blocks are sealed in another order, their instances have other numbers. The numbers are all
that differs: both bindings represent the same session, so they are written alike now and after
every further command.

Main statement: settings of different variables commute, setting a variable commutes with sealing
blocks that do not refer to it, and sealing the blocks of two names commutes unless a block of the
one stands directly in a block of the other.
-/

namespace Bindings

variable {m : Model} {b c d : Bindings} {owners : List Nat} {o : Outline Nat}

/-- An instance is what it was sealed as, whatever its number. -/
theorem tree_eq_of_snapshot (ledger : Ledger m b owners) (keeps : Keeps b c) (keeps' : Keeps b d)
    {block inst inst' : Nat} (made : c.instanceAt inst = b.snapshot m block)
    (made' : d.instanceAt inst' = b.snapshot m block) :
    c.tree m block o inst = d.tree m block o inst' := by
  have values : c.sealedValue m block inst = d.sealedValue m block inst' := by
    funext name
    rw [sealedValue, sealedValue, made, made']
  have there : ∀ child ∈ o.marks, ∀ part ∈
      (b.snapshot m block).childrenAt (m.block child).slot, part < b.instances.size := by
    intro child _ part mem
    obtain ⟨other, pending⟩ := exists_pending_of_snapshot mem
    exact ledger.pending_lt pending
  rw [tree, tree, values, made, made', parts_congr ledger keeps (fun _ _ => rfl) there,
    parts_congr ledger keeps' (fun _ _ => rfl) there]

/-- Sealing each of some blocks makes one document, whatever the numbers of the new instances. -/
theorem document_eq_of_sealsEach (ledger : Ledger m b owners) {blocks others : List Nat}
    (h : SealsEach m blocks b c) (h' : SealsEach m others b d) (permuted : blocks.Perm others) :
    c.document m o = d.document m o := by
  induction o with
  | nil => rfl
  | text content rest ih => exact congrArg (Outline.text content) ih
  | var name rest ih => exact congrArg (Outline.var name) ih
  | block name id inner rest ihInner ihRest =>
    have kept : (b.pendingOf id).toList.map (c.tree m id inner) =
        (b.pendingOf id).toList.map (d.tree m id inner) :=
      (map_tree_congr ledger h.keeps id inner).trans (map_tree_congr ledger h'.keeps id inner).symm
    have pending : (c.pendingOf id).toList.map (c.tree m id inner) =
        (d.pendingOf id).toList.map (d.tree m id inner) := by
      by_cases mem : id ∈ blocks
      · obtain ⟨inst, listed, made⟩ := h.made id mem
        obtain ⟨inst', listed', made'⟩ := h'.made id (permuted.mem_iff.1 mem)
        rw [listed, listed', Array.toList_push, Array.toList_push, List.map_append, List.map_append,
          kept, List.map_singleton, List.map_singleton,
          tree_eq_of_snapshot ledger h.keeps h'.keeps made made']
      · rw [h.other id mem, h'.other id fun there => mem (permuted.mem_iff.2 there)]
        simp only [permuted.mem_iff]
        split
        · rfl
        · exact kept
    rw [document, document, pending, ihInner, ihRest]

/-- Independent blocks are sealed in any order: the document is written alike after all further
commands. -/
theorem render_sealBlocks_perm (outlined : m.Outlined o) (ledger : Ledger m b owners)
    {blocks others : List Nat} (permuted : blocks.Perm others)
    (named : ∀ block ∈ blocks, block ≠ Model.root ∧ block < m.blockCount)
    (distinct : blocks.Nodup) (independent : Independent m blocks) (later : List Command) :
    (later.foldl (step m) (b.sealBlocks m blocks)).render m =
      (later.foldl (step m) (b.sealBlocks m others)).render m := by
  have wf := outlined.wellFormed
  have named' : ∀ block ∈ others, block ≠ Model.root ∧ block < m.blockCount := fun block mem =>
    named block (permuted.mem_iff.2 mem)
  have independent' : Independent m others := fun block mem other mem' =>
    independent block (permuted.mem_iff.2 mem) other (permuted.mem_iff.2 mem')
  have each := sealsEach wf ledger named distinct independent
  have each' := sealsEach wf ledger named' (permuted.nodup_iff.1 distinct) independent'
  -- Both bindings represent the session that has the document of the first.
  let s : Session :=
    ⟨fun name => b.value? (m.indexOf name), (b.sealBlocks m blocks).document m o⟩
  have represents : Represents m o (b.sealBlocks m blocks) s :=
    ⟨rfl, fun ref mem => ⟨mem_vars_of_reference outlined mem, (each.value _).symm⟩⟩
  have represents' : Represents m o (b.sealBlocks m others) s :=
    ⟨document_eq_of_sealsEach ledger each each' permuted,
      fun ref mem => ⟨mem_vars_of_reference outlined mem, (each'.value _).symm⟩⟩
  have ledgerHere := ledger.sealBlocks wf named
  have ledgerThere := ledger.sealBlocks wf named'
  rw [(represents.foldl outlined ledgerHere later).render_eq outlined (ledgerHere.foldl wf later),
    (represents'.foldl outlined ledgerThere later).render_eq outlined (ledgerThere.foldl wf later)]

/-! ### The blocks of a name -/

theorem nodup_blocksNamed (m : Model) (name : String) : (m.blocksNamed name).Nodup := by
  rw [Model.blocksNamed_eq]
  exact List.nodup_range.filter _

theorem named_of_mem {name : String} {block : Nat} (mem : block ∈ m.blocksNamed name) :
    block ≠ Model.root ∧ block < m.blockCount :=
  ⟨(Model.mem_blocksNamed.1 mem).2.1, (Model.mem_blocksNamed.1 mem).1⟩

/-- Blocks of one name never stand in one another. -/
theorem independent_blocksNamed (wf : m.WellFormed) (name : String) :
    Independent m (m.blocksNamed name) := by
  intro block mem other mem' above
  refine wf.apart block other (.parent above) ?_
  rw [(Model.mem_blocksNamed.1 mem).2.2, (Model.mem_blocksNamed.1 mem').2.2]

/-- No block of the one name stands directly in a block of the other. -/
def Apart (m : Model) (name other : String) : Prop :=
  ∀ block ∈ m.blocksNamed name, ∀ block' ∈ m.blocksNamed other,
    (m.block block).parent ≠ some block' ∧ (m.block block').parent ≠ some block

theorem independent_append (wf : m.WellFormed) {name other : String} (apart : Apart m name other) :
    Independent m (m.blocksNamed name ++ m.blocksNamed other) := by
  intro block mem block' mem'
  rcases List.mem_append.1 mem with mem | mem <;> rcases List.mem_append.1 mem' with mem' | mem'
  · exact independent_blocksNamed wf name block mem block' mem'
  · exact (apart block mem block' mem').2
  · exact (apart block' mem' block mem).1
  · exact independent_blocksNamed wf other block mem block' mem'

theorem nodup_append_blocksNamed (m : Model) {name other : String} (differs : name ≠ other) :
    (m.blocksNamed name ++ m.blocksNamed other).Nodup := by
  refine List.nodup_append.2 ⟨nodup_blocksNamed m name, nodup_blocksNamed m other, ?_⟩
  rintro block mem _ mem' rfl
  rw [Model.mem_blocksNamed] at mem mem'
  exact differs (mem.2.2.symm.trans mem'.2.2)

end Bindings

open Bindings in
/-- On a compiled template independent commands may change places. -/
theorem commutation_of_compile {source : String} {flags : FlagSet} {options : Options}
    {loader : Option Loader} {m : Model} (h : compile source flags options loader = .ok m)
    (commands : List Command) :
    (∀ name other value value', name ≠ other →
        after m (commands ++ [.set name value, .set other value']) =
          after m (commands ++ [.set other value', .set name value])) ∧
      (∀ name value value', after m (commands ++ [.set name value, .set name value']) =
        after m (commands ++ [.set name value'])) ∧
      (∀ name value block, (∀ id ∈ m.blocksNamed block, ¬m.RefersTo id name) →
        after m (commands ++ [.set name value, .add block]) =
          after m (commands ++ [.add block, .set name value])) ∧
      (∀ name other, name ≠ other → Apart m name other → ∀ later,
        (after m (commands ++ [.add name, .add other] ++ later)).render m =
          (after m (commands ++ [.add other, .add name] ++ later)).render m) ∧
      ∀ name blocks, (m.blocksNamed name).Perm blocks → ∀ later,
        (after m (commands ++ [.add name] ++ later)).render m =
          (later.foldl (step m) ((after m commands).sealBlocks m blocks)).render m := by
  obtain ⟨o, -, outlined⟩ := exists_outlined_of_compile h
  have wf := outlined.wellFormed
  have ledger := Ledger.of_after wf commands
  simp only [after, List.foldl_append, List.foldl_cons, List.foldl_nil]
  refine ⟨fun name other value value' apart => step_set_comm _ apart value value',
    step_set_step_set _, fun name value block hidden => step_set_add_comm wf _ hidden value,
    fun name other differs apart later => ?_, fun name blocks permuted later => ?_⟩
  · simp only [step_add, ← sealBlocks_append]
    refine render_sealBlocks_perm outlined ledger List.perm_append_comm (fun block mem => ?_)
      (nodup_append_blocksNamed m differs) (independent_append wf apart) later
    exact (List.mem_append.1 mem).elim named_of_mem named_of_mem
  · rw [step_add]
    exact render_sealBlocks_perm outlined ledger permuted (fun block mem => named_of_mem mem)
      (nodup_blocksNamed m name) (independent_blocksNamed wf name) later

theorem compile_siblings :
    compile "{y}[beginblock:a]{x}[endblock][beginblock:b][endblock][beginblock:a][endblock]" .empty
        {} none =
      .ok (.ofPieces [.var "y", .beginBlock "a", .var "x", .endBlock, .beginBlock "b", .endBlock,
        .beginBlock "a", .endBlock]) := by
  have items : Item.ofText true
      "{y}[beginblock:a]{x}[endblock][beginblock:b][endblock][beginblock:a][endblock]" =
      .ok [.var "y", .beginBlock "a" ⟨1, 4⟩, .var "x", .endBlock, .beginBlock "b" ⟨1, 31⟩,
        .endBlock, .beginBlock "a" ⟨1, 55⟩, .endBlock] :=
    Item.ofText_of_drainWithin rfl rfl
  rw [compile, items]
  rfl

open Bindings in
theorem commutation_siblings :
    ∃ m, compile "{y}[beginblock:a]{x}[endblock][beginblock:b][endblock][beginblock:a][endblock]"
        .empty {} none = .ok m ∧
      after m [.set "x" "1", .set "y" "2"] = after m [.set "y" "2", .set "x" "1"] ∧
      after m [.set "y" "2", .add "a"] = after m [.add "a", .set "y" "2"] ∧
      (∀ later, (after m ([.add "a", .add "b"] ++ later)).render m =
        (after m ([.add "b", .add "a"] ++ later)).render m) ∧
      ∀ later, (after m ([.add "a"] ++ later)).render m =
        (later.foldl (step m) ((after m []).sealBlocks m [3, 1])).render m := by
  refine ⟨_, compile_siblings, ?_⟩
  generalize made : Model.ofPieces _ = m
  have first : m.blocksNamed "a" = [1, 3] := by rw [← made]; rfl
  have second : m.blocksNamed "b" = [2] := by rw [← made]; rfl
  have inside : (m.block 1).body = #[.var 1 0] := by rw [← made]; rfl
  have nothing : (m.block 3).body = #[] := by rw [← made]; rfl
  have x : m.variableName 1 = "x" := by rw [← made]; rfl
  have top : (m.block 1).parent = some 0 ∧ (m.block 2).parent = some 0 ∧
      (m.block 3).parent = some 0 := by rw [← made]; exact ⟨rfl, rfl, rfl⟩
  have hidden : ∀ id ∈ m.blocksNamed "a", ¬m.RefersTo id "y" := by
    simp [first, Model.RefersTo, inside, nothing, x]
  have apart : Apart m "a" "b" := by
    simp [Apart, first, second, top]
  obtain ⟨sets, -, seals, adds, orders⟩ := commutation_of_compile (made ▸ compile_siblings) []
  exact ⟨sets _ _ _ _ (by decide), seals _ _ _ hidden, adds _ _ (by decide) apart,
    orders "a" [3, 1] (first ▸ by decide)⟩

end Stencil
