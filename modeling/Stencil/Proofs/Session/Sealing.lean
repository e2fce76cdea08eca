import Stencil.Proofs.Bindings.Ledger
import Stencil.Proofs.Outline.WellFormed

/-! # Sessions and the bindings that represent them

Filling in a template said on its outline, and sealing done by numbers.
-/

/-! ## Sessions

What filling in a template means, said on its outline: instances are trees that own their parts,
blocks are marked with the instances that are not part of another, and writing the document follows
the outline. There are no numbers, no slots and no work that is left.
-/

namespace Stencil

/-- An instance of a block: the values that its variables had, and the instances of the blocks
standing directly in it, block by block. -/
inductive Sealed
  | mk (values : String → Option String) (parts : List (List Sealed))

namespace Sealed

def values : Sealed → String → Option String
  | mk values _ => values

def parts : Sealed → List (List Sealed)
  | mk _ parts => parts

end Sealed

namespace Outline

variable {α : Type}

/-- The values of the variables that are referred to outside the blocks of the outline. -/
def snapshot (values : String → Option String) (o : Outline α) : String → Option String :=
  fun name => if name ∈ o.ownReferences then values name else none

/-- Seals an instance of every block of the name `target`, given the current values. The instances
that the outermost blocks are marked with have been `taken` into an instance already, or not. -/
def sealAll (values : String → Option String) (target : String) :
    (taken : Bool) → Outline (List Sealed) → Outline (List Sealed)
  | _, nil => nil
  | taken, text content rest => text content (rest.sealAll values target taken)
  | taken, var name rest => var name (rest.sealAll values target taken)
  | taken, block name pending inner rest =>
    let kept := if taken then [] else pending
    let after := rest.sealAll values target taken
    if name = target then
      let made := Sealed.mk (inner.snapshot values) inner.marks
      block name (kept ++ [made]) (inner.sealAll values target true) after
    else
      block name kept (inner.sealAll values target false) after

def concat : List (Except UnboundVariable String) → Except UnboundVariable String
  | [] => .ok ""
  | first :: rest => do
    let here ← first
    let after ← concat rest
    .ok (here ++ after)

/-- The value of a variable: the current one outside all instances, and the one sealed into the
nearest instance inside. -/
def lookup (values : String → Option String) (scopes : List (String → Option String))
    (name : String) : Option String :=
  match scopes with
  | [] => values name
  | _ :: _ => scopes.findSome? fun sealed => sealed name

/-- Writes an outline, given the instances of its outermost blocks. The scopes are the values sealed
into the instances around it, innermost first. -/
def render (values : String → Option String) :
    (scopes : List (String → Option String)) → (parts : List (List Sealed)) → Outline α →
      Except UnboundVariable String
  | _, _, nil => .ok ""
  | scopes, parts, text content rest => do
    let after ← rest.render values scopes parts
    .ok (content ++ after)
  | scopes, parts, var name rest =>
    match lookup values scopes name with
    | none => .error ⟨name⟩
    | some value => do
      let after ← rest.render values scopes parts
      .ok (value ++ after)
  | scopes, parts, block _ _ inner rest => do
    let here ← concat ((parts.headD []).map fun made =>
      inner.render values (made.values :: scopes) made.parts)
    let after ← rest.render values scopes parts.tail
    .ok (here ++ after)

end Outline

/-- A template being filled in. Every block is marked with its instances that are not part of
another, in the order of their sealing. -/
structure Session where
  values : String → Option String
  document : Outline (List Sealed)

namespace Session

def start {α : Type} (o : Outline α) : Session :=
  ⟨fun _ => none, o.map fun _ => []⟩

def step (s : Session) : Command → Session
  | .set name value =>
    { s with values := fun other => if other = name then some value else s.values other }
  | .add name => { s with document := s.document.sealAll s.values name false }
  | .clear => start s.document

def after (s : Session) (commands : List Command) : Session :=
  commands.foldl step s

def render (s : Session) : Except UnboundVariable String :=
  s.document.render s.values [] s.document.marks

end Session

/-! ## What bindings represent

The instance that a number stands for, with everything sealed into it, and the outline marked with
the pending instances. Instances never change once they are sealed, so what a number stands for
stays the same.
-/

namespace Bindings

variable {m : Model} {b c : Bindings} {owners : List Nat} {o : Outline Nat}

def sealedValue (m : Model) (b : Bindings) (block inst : Nat) : String → Option String :=
  fun name => ((m.block block).variableSlot? (m.indexOf name)).bind (b.instanceAt inst).value?

/-- The instances of the outermost blocks of an outline, block by block, given the numbers that are
listed for each block. -/
def parts (m : Model) (b : Bindings) :
    (listed : Nat → Array Nat) → Outline Nat → List (List Sealed)
  | _, .nil => []
  | listed, .text _ rest => parts m b listed rest
  | listed, .var _ rest => parts m b listed rest
  | listed, .block _ id inner rest =>
    let made (inst : Nat) : Sealed :=
      .mk (b.sealedValue m id inst)
        (parts m b (fun child => (b.instanceAt inst).childrenAt (m.block child).slot) inner)
    ((listed id).toList.map made) :: parts m b listed rest

def tree (m : Model) (b : Bindings) (block : Nat) (inner : Outline Nat) (inst : Nat) : Sealed :=
  .mk (b.sealedValue m block inst)
    (b.parts m (fun child => (b.instanceAt inst).childrenAt (m.block child).slot) inner)

/-- The outline of a template, marked with the pending instances. -/
def document (m : Model) (b : Bindings) : Outline Nat → Outline (List Sealed)
  | .nil => .nil
  | .text content rest => .text content (b.document m rest)
  | .var name rest => .var name (b.document m rest)
  | .block name id inner rest =>
    .block name ((b.pendingOf id).toList.map (b.tree m id inner)) (b.document m inner)
      (b.document m rest)

theorem parts_block (listed : Nat → Array Nat) (name : String) (id : Nat)
    (inner rest : Outline Nat) :
    b.parts m listed (.block name id inner rest) =
      (listed id).toList.map (b.tree m id inner) :: b.parts m listed rest :=
  rfl

theorem marks_document (m : Model) (b : Bindings) (o : Outline Nat) :
    (b.document m o).marks = b.parts m b.pendingOf o := by
  induction o with
  | nil => rfl
  | text content rest ih => exact ih
  | var name rest ih => exact ih
  | block name id inner rest _ ih => rw [document, Outline.marks, ih, parts_block]

theorem ownReferences_document (m : Model) (b : Bindings) (o : Outline Nat) :
    (b.document m o).ownReferences = o.ownReferences := by
  induction o with
  | nil => rfl
  | text content rest ih => exact ih
  | var name rest ih => exact congrArg (List.cons name) ih
  | block name id inner rest _ ih => exact ih

theorem snapshot_document (values : String → Option String) (m : Model) (b : Bindings)
    (o : Outline Nat) : (b.document m o).snapshot values = o.snapshot values := by
  funext name
  rw [Outline.snapshot, Outline.snapshot, ownReferences_document]

/-! ### What a number stands for stays the same -/

def Keeps (b c : Bindings) : Prop :=
  ∀ id, id < b.instances.size → id < c.instances.size ∧ c.instanceAt id = b.instanceAt id

theorem Ledger.part_lt (ledger : Ledger m b owners) {inst slot part : Nat}
    (there : inst < b.instances.size) (mem : part ∈ (b.instanceAt inst).childrenAt slot) :
    part < b.instances.size := by
  rw [ledger.instances] at there ⊢
  have owner : owners[inst]? = some owners[inst] := List.getElem?_eq_getElem there
  by_cases bound : slot < (m.block owners[inst]).children.size
  · have place := Array.getElem?_eq_getElem bound
    exact lt_of_owner (ledger.child _ _ _ _ owner place part mem).2
  · rw [← (ledger.shape _ _ owner).2] at bound
    rw [Instance.childrenAt, Array.getElem?_eq_none (Nat.le_of_not_lt bound)] at mem
    simp at mem

theorem Ledger.pending_lt (ledger : Ledger m b owners) {block inst : Nat}
    (mem : inst ∈ b.pendingOf block) : inst < b.instances.size := by
  rw [ledger.instances]
  exact lt_of_owner (ledger.pending_owner block inst mem)

theorem tree_eq_of_parts_eq (keeps : Keeps b c) {block inst : Nat}
    (there : inst < b.instances.size)
    (same : c.parts m (fun child => (b.instanceAt inst).childrenAt (m.block child).slot) o =
      b.parts m (fun child => (b.instanceAt inst).childrenAt (m.block child).slot) o) :
    c.tree m block o inst = b.tree m block o inst := by
  have values : c.sealedValue m block inst = b.sealedValue m block inst := by
    funext name
    rw [sealedValue, sealedValue, (keeps inst there).2]
  rw [tree, tree, values, (keeps inst there).2, same]

theorem parts_congr (ledger : Ledger m b owners) (keeps : Keeps b c)
    {listed others : Nat → Array Nat} (same : ∀ id ∈ o.marks, others id = listed id)
    (there : ∀ id ∈ o.marks, ∀ inst ∈ listed id, inst < b.instances.size) :
    c.parts m others o = b.parts m listed o := by
  induction o generalizing listed others with
  | nil => rfl
  | text content rest ih => exact ih same there
  | var name rest ih => exact ih same there
  | block name id inner rest ihInner ihRest =>
    rw [parts_block, parts_block, same id List.mem_cons_self]
    congr 1
    · apply List.map_congr_left
      intro inst mem
      have bound := there id List.mem_cons_self inst (Array.mem_toList_iff.1 mem)
      exact tree_eq_of_parts_eq keeps bound
        (ihInner (fun _ _ => rfl) fun _ _ _ part => ledger.part_lt bound part)
    · exact ihRest (fun other mem => same other (List.mem_cons_of_mem id mem))
        fun other mem => there other (List.mem_cons_of_mem id mem)

theorem tree_congr (ledger : Ledger m b owners) (keeps : Keeps b c) {block inst : Nat}
    (there : inst < b.instances.size) : c.tree m block o inst = b.tree m block o inst :=
  tree_eq_of_parts_eq keeps there
    (parts_congr ledger keeps (fun _ _ => rfl) fun _ _ _ part => ledger.part_lt there part)

theorem map_tree_congr (ledger : Ledger m b owners) (keeps : Keeps b c) (block : Nat)
    (o : Outline Nat) :
    (b.pendingOf block).toList.map (c.tree m block o) =
      (b.pendingOf block).toList.map (b.tree m block o) := by
  apply List.map_congr_left
  intro inst mem
  exact tree_congr ledger keeps (ledger.pending_lt (Array.mem_toList_iff.1 mem))

theorem document_congr (ledger : Ledger m b owners) (keeps : Keeps b c)
    (same : ∀ id ∈ o.allMarks, c.pendingOf id = b.pendingOf id) :
    c.document m o = b.document m o := by
  induction o with
  | nil => rfl
  | text content rest ih => exact congrArg (Outline.text content) (ih same)
  | var name rest ih => exact congrArg (Outline.var name) (ih same)
  | block name id inner rest ihInner ihRest =>
    have inside := ihInner fun other mem =>
      same other (List.mem_cons_of_mem id (List.mem_append_left _ mem))
    have beyond := ihRest fun other mem =>
      same other (List.mem_cons_of_mem id (List.mem_append_right _ mem))
    rw [document, document, same id List.mem_cons_self, inside, beyond,
      map_tree_congr ledger keeps id inner]

end Bindings

/-! ## Sealing by numbers and on the outline

Sealing the blocks of a name one after another does to the bindings what sealing does to the outline
they represent.
-/

namespace Outline

def release : Outline (List Sealed) → Outline (List Sealed)
  | nil => nil
  | text content rest => text content rest.release
  | var name rest => var name rest.release
  | block name _ inner rest => block name [] inner rest.release

theorem sealAll_release (values : String → Option String) (target : String)
    (o : Outline (List Sealed)) :
    o.release.sealAll values target false = o.sealAll values target true := by
  induction o with
  | nil => rfl
  | text content rest ih => exact congrArg (text content) ih
  | var name rest ih => exact congrArg (var name) ih
  | block name pending inner rest _ ih => simp only [release, sealAll, ih]; simp

end Outline

namespace Bindings

variable {m : Model} {b : Bindings} {owners : List Nat} {o : Outline Nat}

theorem keeps_sealBlock (m : Model) (b : Bindings) (block : Nat) :
    Keeps b (b.sealBlock m block) := by
  intro id there
  exact ⟨Nat.lt_of_lt_of_le there (size_instances_le_sealBlock m b block),
    instanceAt_sealBlock_of_lt m b block there⟩

theorem keeps_sealBlocks (m : Model) (b : Bindings) (blocks : List Nat) :
    Keeps b (b.sealBlocks m blocks) := by
  induction blocks generalizing b with
  | nil => exact fun id there => ⟨there, rfl⟩
  | cons first rest ih =>
    intro id there
    obtain ⟨there', same⟩ := keeps_sealBlock m b first id there
    obtain ⟨there'', same'⟩ := ih (b.sealBlock m first) id there'
    exact ⟨there'', same'.trans same⟩

theorem value?_sealBlocks (m : Model) (b : Bindings) (blocks : List Nat) (index : Nat) :
    (b.sealBlocks m blocks).value? index = b.value? index := by
  induction blocks generalizing b with
  | nil => rfl
  | cons first rest ih => exact ih (b.sealBlock m first)

theorem pendingOf_sealBlocks (wf : m.WellFormed) (ledger : Ledger m b owners) {blocks : List Nat}
    (named : ∀ block ∈ blocks, block ≠ Model.root ∧ block < m.blockCount) {other : Nat}
    (away : ∀ block ∈ blocks, other ≠ block ∧ other ∉ (m.block block).children) :
    (b.sealBlocks m blocks).pendingOf other = b.pendingOf other := by
  induction blocks generalizing b owners with
  | nil => rfl
  | cons first rest ih =>
    obtain ⟨top, bound⟩ := named first List.mem_cons_self
    obtain ⟨distinct, apart⟩ := away first List.mem_cons_self
    have step := ih (ledger.sealBlock wf top bound)
      (fun block mem => named block (List.mem_cons_of_mem first mem))
      fun block mem => away block (List.mem_cons_of_mem first mem)
    refine step.trans ?_
    rw [ledger.pendingOf_sealBlock wf bound, if_neg distinct, if_neg apart]

/-! ### The new instance -/

/-- The current values are known to the bindings by the numbers of the variables. -/
def Known (m : Model) (b : Bindings) (values : String → Option String) (o : Outline Nat) : Prop :=
  ∀ name ∈ o.references, name ∈ m.vars.toList ∧ values name = b.value? (m.indexOf name)

theorem sealedValue_sealBlock {values : String → Option String} {block : Nat} {name : String}
    {outer : Option Nat} {place : Nat} (bound : block < b.pending.size)
    (layout : (m.block block).layout = o.blockLayout m.indexOf name outer place)
    (known : Known m b values o) :
    (b.sealBlock m block).sealedValue m block b.instances.size = o.snapshot values := by
  funext ref
  have vars := Model.vars_of_layout layout
  rw [sealedValue, instanceAt_sealBlock bound, Outline.snapshot, Block.variableSlot?]
  cases found : (m.block block).vars.find? (m.indexOf ref) with
  | none =>
    rw [Numbering.find?_eq_none_iff, vars] at found
    have foreign : ref ∉ o.ownReferences := fun own =>
      found (List.mem_map_of_mem (List.mem_eraseDups.2 own))
    rw [if_neg foreign]
    rfl
  | some slot =>
    have place : (m.block block).vars.keys[slot]? = some (m.indexOf ref) :=
      Numbering.find?_eq_some_iff.1 found
    have mem : m.indexOf ref ∈ (m.block block).vars.toList := Numbering.mem_toList.2 ⟨slot, found⟩
    rw [vars] at mem
    obtain ⟨other, own, same⟩ := List.mem_map.1 mem
    rw [List.mem_eraseDups] at own
    have there := (known other (o.ownReferences_subset own)).1
    obtain rfl : other = ref := (List.idxOf_inj there).1 same
    rw [if_pos own, (known other (o.ownReferences_subset own)).2, Option.bind_some, Instance.value?,
      snapshot, Array.getElem?_map, place]
    rfl

theorem place_of_mem_marks {block child : Nat} {name : String} {outer : Option Nat} {place : Nat}
    (layout : (m.block block).layout = o.blockLayout m.indexOf name outer place)
    (hosts : m.Hosts block 0 o) (mem : child ∈ o.marks) :
    (m.block block).children[(m.block child).slot]? = some child := by
  obtain ⟨slot, found⟩ := List.mem_iff_getElem?.1 mem
  have there := (hosts.child found).2
  rw [Nat.zero_add] at there
  rw [there, ← Array.getElem?_toList, Model.children_of_layout layout, found]

/-- The new instance is what sealing makes of the outline of its block. -/
theorem tree_sealBlock (ledger : Ledger m b owners) {values : String → Option String}
    {block : Nat} {name : String} {outer : Option Nat} {place : Nat} (bound : block < m.blockCount)
    (layout : (m.block block).layout = o.blockLayout m.indexOf name outer place)
    (hosts : m.Hosts block 0 o) (known : Known m b values o) :
    (b.sealBlock m block).tree m block o b.instances.size =
      .mk (o.snapshot values) (b.document m o).marks := by
  have listed : block < b.pending.size := ledger.pending ▸ bound
  rw [tree, sealedValue_sealBlock listed layout known, marks_document, instanceAt_sealBlock listed]
  congr 1
  apply parts_congr ledger (keeps_sealBlock m b block)
  · intro child mem
    exact childrenAt_snapshot (place_of_mem_marks layout hosts mem)
  · exact fun child _ inst mem => ledger.pending_lt mem

/-- Sealing a block takes the pending instances of the blocks directly in it. -/
theorem document_sealBlock (wf : m.WellFormed) (ledger : Ledger m b owners) {block slot : Nat}
    (bound : block < m.blockCount) (hosts : m.Hosts block slot o) :
    (b.sealBlock m block).document m o = (b.document m o).release := by
  induction o generalizing slot with
  | nil => rfl
  | text content rest ih => exact congrArg (Outline.text content) (ih hosts)
  | var name rest ih => exact congrArg (Outline.var name) (ih hosts)
  | block name id inner rest _ ihRest =>
    obtain ⟨later, there, layout, inside, beyond⟩ := hosts
    have top : id ≠ Model.root := Nat.ne_zero_of_lt later
    have above : (m.block id).parent = some block := Model.parent_of_layout layout
    have child : id ∈ (m.block block).children :=
      Array.mem_of_getElem? ((wf.place id top there block _).2 ⟨above, rfl⟩)
    have emptied : (b.sealBlock m block).pendingOf id = #[] := by
      rw [ledger.pendingOf_sealBlock wf bound, if_neg (Nat.ne_of_gt later), if_pos child]
    have deeper : (b.sealBlock m block).document m inner = b.document m inner := by
      refine document_congr ledger (keeps_sealBlock m b block) fun other mem => ?_
      obtain ⟨outer, parent, before, place⟩ := inside.parent mem
      have beneath : id ≤ outer := by
        rcases place with ⟨rfl, -⟩ | ⟨there, -⟩
        · exact Nat.le_refl outer
        · exact Nat.le_of_lt (inside.bounds there).1
      have stays := wf.not_child parent (Nat.ne_of_gt (Nat.lt_of_lt_of_le later beneath))
      rw [ledger.pendingOf_sealBlock wf bound, if_neg (by omega), if_neg stays]
    rw [document, document, emptied, deeper, ihRest beyond]
    rfl

/-- Sealing blocks of an outline changes nothing of a block that stands elsewhere. -/
theorem pendingOf_sealBlocks_of_hosts (wf : m.WellFormed) (ledger : Ledger m b owners)
    {parent slot : Nat} (hosts : m.Hosts parent slot o) {blocks : List Nat}
    (sub : blocks ⊆ o.allMarks) {other outer : Nat} (above : (m.block other).parent = some outer)
    (away : other ∉ o.allMarks) (apart : outer ∉ o.allMarks) :
    (b.sealBlocks m blocks).pendingOf other = b.pendingOf other := by
  apply pendingOf_sealBlocks wf ledger
  · exact fun block mem => ⟨hosts.ne_root (sub mem), (hosts.bounds (sub mem)).2⟩
  · intro block mem
    have there := sub mem
    exact ⟨fun same => away (same ▸ there), wf.not_child above fun same => apart (same ▸ there)⟩

theorem sealBlocks_append (m : Model) (b : Bindings) (first second : List Nat) :
    b.sealBlocks m (first ++ second) = (b.sealBlocks m first).sealBlocks m second :=
  List.foldl_append

theorem Ledger.sealBlocks_of_hosts (wf : m.WellFormed) (ledger : Ledger m b owners)
    {parent slot : Nat} (hosts : m.Hosts parent slot o) {blocks : List Nat}
    (sub : blocks ⊆ o.allMarks) : Ledger m (b.sealBlocks m blocks) (owners ++ blocks) :=
  ledger.sealBlocks wf fun _ mem => ⟨hosts.ne_root (sub mem), (hosts.bounds (sub mem)).2⟩

/-- Sealing blocks inside one block does not reach the blocks beyond it. -/
theorem document_beyond (wf : m.WellFormed) (ledger : Ledger m b owners) {parent slot : Nat}
    {name : String} {id : Nat} {inner rest : Outline Nat}
    (hosts : m.Hosts parent slot (.block name id inner rest))
    (distinct : (Outline.block name id inner rest).allMarks.Nodup) {blocks : List Nat}
    (sub : blocks ⊆ inner.allMarks) :
    (b.sealBlocks m blocks).document m rest = b.document m rest := by
  obtain ⟨later, -, -, inside, beyond⟩ := hosts
  obtain ⟨-, distinct⟩ := List.nodup_cons.1 distinct
  have apart := (List.nodup_append.1 distinct).2.2
  refine document_congr ledger (keeps_sealBlocks m b blocks) fun other mem => ?_
  obtain ⟨outer, above, -, place⟩ := beyond.parent mem
  refine pendingOf_sealBlocks_of_hosts wf ledger inside sub above
    (fun there => apart other there other mem rfl) fun there => ?_
  rcases place with ⟨rfl, -⟩ | ⟨outside, -⟩
  · exact Nat.lt_asymm later (inside.bounds there).1
  · exact apart outer there outer outside rfl

/-- Sealing blocks beyond one block does not reach the blocks inside it. -/
theorem document_inside (wf : m.WellFormed) (ledger : Ledger m b owners) {parent slot : Nat}
    {name : String} {id : Nat} {inner rest : Outline Nat}
    (hosts : m.Hosts parent slot (.block name id inner rest))
    (distinct : (Outline.block name id inner rest).allMarks.Nodup) {blocks : List Nat}
    (sub : blocks ⊆ rest.allMarks) :
    (b.sealBlocks m blocks).document m inner = b.document m inner := by
  obtain ⟨later, -, -, inside, beyond⟩ := hosts
  obtain ⟨fresh, distinct⟩ := List.nodup_cons.1 distinct
  have apart := (List.nodup_append.1 distinct).2.2
  refine document_congr ledger (keeps_sealBlocks m b blocks) fun other mem => ?_
  obtain ⟨outer, above, -, place⟩ := inside.parent mem
  refine pendingOf_sealBlocks_of_hosts wf ledger beyond sub above
    (fun there => apart other mem other there rfl) fun there => ?_
  rcases place with ⟨rfl, -⟩ | ⟨within, -⟩
  · exact fresh (List.mem_append_right _ there)
  · exact apart outer within outer there rfl

/-- Sealing blocks inside and beyond one block leaves the pending instances of that block. -/
theorem pendingOf_between (wf : m.WellFormed) (ledger : Ledger m b owners) {parent slot : Nat}
    {name : String} {id : Nat} {inner rest : Outline Nat}
    (hosts : m.Hosts parent slot (.block name id inner rest))
    (distinct : (Outline.block name id inner rest).allMarks.Nodup) {first second : List Nat}
    (within : first ⊆ inner.allMarks) (without : second ⊆ rest.allMarks) :
    (b.sealBlocks m (first ++ second)).pendingOf id = b.pendingOf id := by
  obtain ⟨later, -, layout, inside, beyond⟩ := hosts
  obtain ⟨fresh, -⟩ := List.nodup_cons.1 distinct
  have above : (m.block id).parent = some parent := Model.parent_of_layout layout
  have ledger' := ledger.sealBlocks_of_hosts wf inside within
  rw [sealBlocks_append]
  have after := pendingOf_sealBlocks_of_hosts wf ledger' beyond without above
    (fun there => fresh (List.mem_append_right _ there))
    fun there => Nat.lt_irrefl parent (beyond.bounds there).1
  refine after.trans (pendingOf_sealBlocks_of_hosts wf ledger inside within above
    (fun there => fresh (List.mem_append_left _ there)) fun there => ?_)
  exact Nat.lt_asymm later (inside.bounds there).1

theorem document_sealBlocks_block (wf : m.WellFormed) (ledger : Ledger m b owners)
    {parent slot : Nat} {name : String} {id : Nat} {inner rest : Outline Nat}
    (hosts : m.Hosts parent slot (.block name id inner rest))
    (distinct : (Outline.block name id inner rest).allMarks.Nodup) {first second : List Nat}
    (within : first ⊆ inner.allMarks) (without : second ⊆ rest.allMarks) :
    (b.sealBlocks m (first ++ second)).document m (.block name id inner rest) =
      .block name ((b.pendingOf id).toList.map (b.tree m id inner))
        ((b.sealBlocks m first).document m inner)
        (((b.sealBlocks m first).sealBlocks m second).document m rest) := by
  have ledger' := ledger.sealBlocks_of_hosts wf hosts.inner within
  rw [document, pendingOf_between wf ledger hosts distinct within without,
    map_tree_congr ledger (keeps_sealBlocks m b _) id inner, sealBlocks_append,
    document_inside wf ledger' hosts distinct without]

def targets (m : Model) (target : String) (o : Outline Nat) : List Nat :=
  o.allMarks.filter fun id => (m.block id).name = target

/-- Sealing the blocks of a name one after another is sealing them in the outline. -/
def Seals (m : Model) (values : String → Option String) (target : String) (o : Outline Nat) :
    Prop :=
  ∀ (b : Bindings) (owners : List Nat), Ledger m b owners → Known m b values o →
    (b.sealBlocks m (targets m target o)).document m o =
      (b.document m o).sealAll values target false

/-- What remains to be done once the outermost block has been dealt with. -/
theorem document_onward (wf : m.WellFormed) (ledger : Ledger m b owners) {parent slot : Nat}
    {name : String} {id : Nat} {inner rest : Outline Nat}
    (hosts : m.Hosts parent slot (.block name id inner rest))
    (distinct : (Outline.block name id inner rest).allMarks.Nodup)
    {values : String → Option String} {target : String}
    (sealsInner : Seals m values target inner) (sealsRest : Seals m values target rest)
    (known : Known m b values (.block name id inner rest)) :
    (b.sealBlocks m (targets m target inner ++ targets m target rest)).document m
        (.block name id inner rest) =
      .block name ((b.pendingOf id).toList.map (b.tree m id inner))
        ((b.document m inner).sealAll values target false)
        ((b.document m rest).sealAll values target false) := by
  have within : targets m target inner ⊆ inner.allMarks := List.filter_subset_self _
  have without : targets m target rest ⊆ rest.allMarks := List.filter_subset_self _
  have knownInner : Known m b values inner := fun ref mem =>
    known ref (List.mem_append_left _ mem)
  have knownRest : Known m (b.sealBlocks m (targets m target inner)) values rest := by
    intro ref mem
    rw [value?_sealBlocks]
    exact known ref (List.mem_append_right _ mem)
  have ledger' := ledger.sealBlocks_of_hosts wf hosts.inner within
  rw [document_sealBlocks_block wf ledger hosts distinct within without,
    sealsInner b owners ledger knownInner, sealsRest _ _ ledger' knownRest,
    document_beyond wf ledger hosts distinct within]

/-- The outline of a block of the name, right after the block itself has been sealed. -/
theorem document_sealBlock_block (wf : m.WellFormed) (ledger : Ledger m b owners)
    {parent slot : Nat} {name : String} {id : Nat} {inner rest : Outline Nat}
    (hosts : m.Hosts parent slot (.block name id inner rest))
    (distinct : (Outline.block name id inner rest).allMarks.Nodup)
    {values : String → Option String} (known : Known m b values inner) :
    ((b.sealBlock m id).pendingOf id).toList.map ((b.sealBlock m id).tree m id inner) =
        (b.pendingOf id).toList.map (b.tree m id inner) ++
          [.mk (inner.snapshot values) (b.document m inner).marks] ∧
      (b.sealBlock m id).document m inner = (b.document m inner).release ∧
      (b.sealBlock m id).document m rest = b.document m rest := by
  obtain ⟨later, bound, layout, inside, beyond⟩ := hosts
  obtain ⟨fresh, -⟩ := List.nodup_cons.1 distinct
  refine ⟨?_, document_sealBlock wf ledger bound inside, ?_⟩
  · have old := map_tree_congr ledger (keeps_sealBlock m b id) id inner
    rw [ledger.pendingOf_sealBlock wf bound, if_pos rfl, Array.toList_push, List.map_append, old,
      List.map_singleton, tree_sealBlock ledger bound layout inside known]
  · refine document_congr ledger (keeps_sealBlock m b id) fun other mem => ?_
    obtain ⟨outer, above, -, place⟩ := beyond.parent mem
    have differs : other ≠ id := fun same => fresh (List.mem_append_right _ (same ▸ mem))
    have apart : outer ≠ id := by
      rcases place with ⟨rfl, -⟩ | ⟨there, -⟩
      · exact Nat.ne_of_lt later
      · exact fun same => fresh (List.mem_append_right _ (same ▸ there))
    rw [ledger.pendingOf_sealBlock wf bound, if_neg differs, if_neg (wf.not_child above apart)]

/-- Sealing all blocks of a name in an outline that the model has. -/
theorem seals_of_hosts (wf : m.WellFormed) (values : String → Option String) (target : String)
    {parent slot : Nat} (hosts : m.Hosts parent slot o) (distinct : o.allMarks.Nodup) :
    Seals m values target o := by
  induction o generalizing parent slot with
  | nil => exact fun _ _ _ _ => rfl
  | text content rest ih =>
    intro b owners ledger known
    exact congrArg (Outline.text content) (ih hosts distinct b owners ledger known)
  | var name rest ih =>
    intro b owners ledger known
    exact congrArg (Outline.var name) (ih hosts distinct b owners ledger fun ref mem =>
      known ref (List.mem_cons_of_mem name mem))
  | block name id inner rest ihInner ihRest =>
    intro b owners ledger known
    have apart := (List.nodup_cons.1 distinct).2
    have sealsInner := ihInner hosts.inner (List.nodup_append.1 apart).1
    have sealsRest := ihRest hosts.rest (List.nodup_append.1 apart).2.1
    have called : (m.block id).name = name := congrArg BlockLayout.name hosts.layout
    have split : targets m target (.block name id inner rest) =
        (if name = target then [id] else []) ++
          (targets m target inner ++ targets m target rest) := by
      rw [targets, Outline.allMarks, List.filter_cons, List.filter_append, called]
      by_cases same : name = target <;> simp [same, targets]
    by_cases same : name = target
    · obtain ⟨pending, taken, after⟩ := document_sealBlock_block wf ledger hosts distinct
        fun ref mem => known ref (List.mem_append_left _ mem)
      have listed : id ∈ (Outline.block name id inner rest).allMarks := List.mem_cons_self
      have ledger' := ledger.sealBlock wf (hosts.ne_root listed) (hosts.bounds listed).2
      have onward := document_onward wf ledger' hosts distinct sealsInner sealsRest known
      rw [split, if_pos same, sealBlocks_append]
      refine onward.trans ?_
      rw [pending, taken, after, Outline.sealAll_release, document, Outline.sealAll, if_pos same,
        snapshot_document]
      rfl
    · rw [split, if_neg same, List.nil_append,
        document_onward wf ledger hosts distinct sealsInner sealsRest known, document,
        Outline.sealAll, if_neg same]
      rfl

end Bindings

end Stencil
