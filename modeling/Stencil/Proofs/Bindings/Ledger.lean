import Mathlib.Data.List.Basic
import Stencil.Document
import Stencil.Proofs.Model.WellFormed

/-! # Bindings along a run

What commands do to bindings, and where every instance is kept.
-/

/-! ## Runs of bindings

The bindings after a sequence of commands, and what sealing one block changes in them.
-/

namespace Stencil

inductive Command
  | set (name value : String)
  | add (name : String)
  | clear
  deriving DecidableEq

namespace Bindings

variable {m : Model} {b : Bindings}

def perform (m : Model) (b : Bindings) : Command → Except Error Bindings
  | .set name value => b.set m name value
  | .add name => b.add m name
  | .clear => .ok b.clear

/-- The bindings after a command. A command with an error changes nothing. -/
def step (m : Model) (b : Bindings) (command : Command) : Bindings :=
  match b.perform m command with
  | .ok after => after
  | .error _ => b

def after (m : Model) (commands : List Command) : Bindings :=
  commands.foldl (step m) (.ofModel m)

theorem step_set (name value : String) :
    b.step m (.set name value) =
      match m.findVariable? name with
      | some index => b.setValue index value
      | none => b := by
  rw [step, perform, set, Model.variableNumber]
  cases m.findVariable? name <;> rfl

theorem step_add (name : String) : b.step m (.add name) = b.sealBlocks m (m.blocksNamed name) := by
  rw [step, perform, add, Model.blockNumbers]
  cases m.blocksNamed name <;> rfl

theorem step_clear : b.step m .clear = b.clear :=
  rfl

theorem value?_setValue_of_ne {index other : Nat} (differs : other ≠ index) (value : String) :
    (b.setValue index value).value? other = b.value? other := by
  rw [value?, setValue, Array.getElem?_setIfInBounds_ne (Ne.symm differs)]
  rfl

/-! ### Sealing a block -/

theorem getElem?_release (pending : Array (Array Nat)) (blocks : Array Nat) (block : Nat) :
    (release pending blocks)[block]? =
      if block ∈ blocks then (pending[block]?).map fun _ => #[] else pending[block]? := by
  simp only [release, ← Array.foldl_toList, ← Array.mem_toList_iff]
  induction blocks.toList generalizing pending with
  | nil => rfl
  | cons first rest ih =>
    rw [List.foldl_cons, ih, Array.getElem?_setIfInBounds]
    by_cases same : first = block
    · subst same
      by_cases bound : first < pending.size <;> by_cases later : first ∈ rest <;>
        simp [bound, later]
    · have other : block ≠ first := fun h => same h.symm
      simp [same, other]

theorem size_release (pending : Array (Array Nat)) (blocks : Array Nat) :
    (release pending blocks).size = pending.size := by
  rw [release, ← Array.foldl_toList]
  induction blocks.toList generalizing pending with
  | nil => rfl
  | cons first rest ih => rw [List.foldl_cons, ih, Array.size_setIfInBounds]

theorem size_pending_sealBlock (m : Model) (b : Bindings) (block : Nat) :
    (b.sealBlock m block).pending.size = b.pending.size := by
  rw [sealBlock, Array.size_modify, size_release]

theorem pendingOf_sealBlock {block : Nat} (bound : block < b.pending.size)
    (apart : block ∉ (m.block block).children) (other : Nat) :
    (b.sealBlock m block).pendingOf other =
      if other = block then (b.pendingOf other).push b.instances.size
      else if other ∈ (m.block block).children then #[]
      else b.pendingOf other := by
  rw [pendingOf, sealBlock, Array.getElem?_modify, getElem?_release]
  by_cases same : other = block
  · subst same
    simp [apart, pendingOf, bound]
  · have distinct : block ≠ other := fun h => same h.symm
    by_cases child : other ∈ (m.block block).children
    · simp only [if_neg distinct, if_pos child, if_neg same]
      cases b.pending[other]? <;> rfl
    · simp [distinct, child, same, pendingOf]

theorem instances_sealBlock {block : Nat} (bound : block < b.pending.size) :
    (b.sealBlock m block).instances = b.instances.push (b.snapshot m block) :=
  if_pos bound

theorem instances_sealBlock_of_le {block : Nat} (beyond : b.pending.size ≤ block) :
    (b.sealBlock m block).instances = b.instances :=
  if_neg (Nat.not_lt.2 beyond)

/-- Sealing leaves the instances that are there. -/
theorem getElem?_sealBlock (m : Model) (b : Bindings) (block : Nat) {id : Nat}
    (there : id < b.instances.size) :
    (b.sealBlock m block).instances[id]? = b.instances[id]? := by
  by_cases bound : block < b.pending.size
  · rw [instances_sealBlock bound, Array.getElem?_push, if_neg (Nat.ne_of_lt there)]
  · rw [instances_sealBlock_of_le (Nat.le_of_not_lt bound)]

theorem instanceAt_sealBlock_of_lt (m : Model) (b : Bindings) (block : Nat) {id : Nat}
    (there : id < b.instances.size) :
    (b.sealBlock m block).instanceAt id = b.instanceAt id := by
  rw [instanceAt, getElem?_sealBlock m b block there, instanceAt]

/-- The new instance is what the block holds when it is sealed. -/
theorem instanceAt_sealBlock {block : Nat} (bound : block < b.pending.size) :
    (b.sealBlock m block).instanceAt b.instances.size = b.snapshot m block := by
  rw [instanceAt, instances_sealBlock bound, Array.getElem?_push_size]
  rfl

theorem instanceAt_sealBlock_cases (m : Model) (b : Bindings) (block id : Nat) :
    (b.sealBlock m block).instanceAt id = b.snapshot m block ∨
      (b.sealBlock m block).instanceAt id = b.instanceAt id := by
  by_cases bound : block < b.pending.size
  · rw [instanceAt, instances_sealBlock bound, Array.getElem?_push]
    split
    · exact .inl rfl
    · exact .inr rfl
  · rw [instanceAt, instances_sealBlock_of_le (Nat.le_of_not_lt bound)]
    exact .inr rfl

theorem size_instances_le_sealBlock (m : Model) (b : Bindings) (block : Nat) :
    b.instances.size ≤ (b.sealBlock m block).instances.size := by
  by_cases bound : block < b.pending.size
  · rw [instances_sealBlock bound, Array.size_push]
    exact Nat.le_succ _
  · have same := instances_sealBlock_of_le (m := m) (Nat.le_of_not_lt bound)
    exact Nat.le_of_eq (congrArg Array.size same).symm

end Bindings

/-! ## The ledger of sealed instances

Which block every instance was sealed for, and where it is kept: in an instance of the parent of its
block, or among the pending instances of its block. A ledger says that every instance is kept in
one place and that the order of sealing is kept; main statement: every run leaves a ledger in
order, `Ledger.of_after`.
-/

namespace Bindings

variable {m : Model} {b : Bindings} {owners : List Nat}

def sealedAfter (m : Model) (sealed : List Nat) : Command → List Nat
  | .set _ _ => sealed
  | .add name => sealed ++ m.blocksNamed name
  | .clear => []

/-- The blocks of the instances sealed since the last clear, in the order of their sealing. -/
def sealedBlocks (m : Model) (commands : List Command) : List Nat :=
  commands.foldl (sealedAfter m) []

/-- The instances of a block that are sealed into instances of another, in the order of the
latter. -/
def sealedInto (m : Model) (b : Bindings) (owners : List Nat) (parent block : Nat) : List Nat :=
  (owners.idxsOf parent).flatMap fun id =>
    ((b.instanceAt id).childrenAt (m.block block).slot).toList

/-- The bindings keep an instance for each of the owners. -/
structure Ledger (m : Model) (b : Bindings) (owners : List Nat) : Prop where
  values : b.values.size = m.variableCount
  pending : b.pending.size = m.blockCount
  instances : b.instances.size = owners.length
  owner : ∀ block ∈ owners, block ≠ Model.root ∧ block < m.blockCount
  /-- An instance has a value for every variable and a list for every child of its block. -/
  shape : ∀ id block, owners[id]? = some block →
    (b.instanceAt id).values.size = (m.block block).vars.size ∧
      (b.instanceAt id).children.size = (m.block block).children.size
  /-- The list of a child holds earlier instances of that child. -/
  child : ∀ id block slot child : Nat, owners[id]? = some block →
    (m.block block).children[slot]? = some child →
    ∀ part ∈ (b.instanceAt id).childrenAt slot, part < id ∧ owners[part]? = some child
  pending_owner : ∀ block, ∀ id ∈ b.pendingOf block, owners[id]? = some block
  /-- No instance is lost, duplicated or reordered. -/
  conserved : ∀ block, block ≠ Model.root → block < m.blockCount →
    ∃ parent, (m.block block).parent = some parent ∧
      sealedInto m b owners parent block ++ (b.pendingOf block).toList = owners.idxsOf block

theorem pendingOf_ofModel (m : Model) (block : Nat) : (ofModel m).pendingOf block = #[] := by
  rw [pendingOf, ofModel, Array.getElem?_replicate]
  split <;> rfl

theorem Ledger.ofModel (wf : m.WellFormed) : Ledger m (ofModel m) [] where
  values := Array.size_replicate
  pending := Array.size_replicate
  instances := rfl
  owner := by simp
  shape := by simp
  child := by simp
  pending_owner block id mem := by simp [pendingOf_ofModel] at mem
  conserved block top bound := by
    obtain ⟨parent, -, above, -⟩ := wf.parent block top bound
    exact ⟨parent, above, by rw [pendingOf_ofModel]; rfl⟩

theorem idxsOf_concat (owners : List Nat) (block other : Nat) :
    (owners ++ [block]).idxsOf other =
      owners.idxsOf other ++ if block = other then [owners.length] else [] := by
  rw [List.idxsOf, List.findIdxs_append]
  simp [List.idxsOf, List.findIdxs_cons]

theorem childrenAt_snapshot {block slot child : Nat}
    (place : (m.block block).children[slot]? = some child) :
    (b.snapshot m block).childrenAt slot = b.pendingOf child := by
  rw [Instance.childrenAt, snapshot, Array.getElem?_map, place]
  rfl

theorem lt_of_owner {id block : Nat} (owned : owners[id]? = some block) : id < owners.length :=
  (List.getElem?_eq_some_iff.1 owned).1

theorem owner_concat {id block other : Nat} (owned : (owners ++ [block])[id]? = some other) :
    owners[id]? = some other ∨ id = owners.length ∧ other = block := by
  by_cases old : id < owners.length
  · rw [List.getElem?_append_left old] at owned
    exact .inl owned
  · have bound := lt_of_owner owned
    rw [List.length_append, List.length_singleton] at bound
    have last : id = owners.length := by omega
    subst last
    rw [List.getElem?_concat_length, Option.some.injEq] at owned
    exact .inr ⟨rfl, owned.symm⟩

theorem owner_concat_of_owner {id block other : Nat} (owned : owners[id]? = some other) :
    (owners ++ [block])[id]? = some other := by
  rw [List.getElem?_append_left (lt_of_owner owned), owned]

/-- Sealing a block moves the pending instances of its children into the new instance. -/
theorem Ledger.sealedInto_sealBlock (h : Ledger m b owners) {block other parent : Nat}
    (bound : block < m.blockCount)
    (place : (m.block parent).children[(m.block other).slot]? = some other) :
    sealedInto m (b.sealBlock m block) (owners ++ [block]) parent other =
      sealedInto m b owners parent other ++
        if block = parent then (b.pendingOf other).toList else [] := by
  have before : (owners.idxsOf parent).flatMap (fun id =>
      (((b.sealBlock m block).instanceAt id).childrenAt (m.block other).slot).toList) =
      sealedInto m b owners parent other := by
    apply List.flatMap_congr
    intro id mem
    have there : id < owners.length := List.lt_add_of_mem_findIdxs id mem
    rw [instanceAt_sealBlock_of_lt m b block (h.instances ▸ there)]
  rw [sealedInto, idxsOf_concat, List.flatMap_append, before]
  congr 1
  split
  · next same =>
    subst same
    rw [List.flatMap_singleton, ← h.instances, instanceAt_sealBlock (h.pending ▸ bound),
      childrenAt_snapshot place]
  · rfl

theorem Ledger.pendingOf_sealBlock (wf : m.WellFormed) (h : Ledger m b owners) {block : Nat}
    (bound : block < m.blockCount) (other : Nat) :
    (b.sealBlock m block).pendingOf other =
      if other = block then (b.pendingOf other).push b.instances.size
      else if other ∈ (m.block block).children then #[]
      else b.pendingOf other := by
  refine Bindings.pendingOf_sealBlock (h.pending ▸ bound) (fun mem => ?_) other
  obtain ⟨slot, child⟩ := Array.mem_iff_getElem?.1 mem
  exact Nat.lt_irrefl block (wf.child_bounds child).1

/-- Sealing one block leaves the ledger in order. -/
theorem Ledger.sealBlock (wf : m.WellFormed) (h : Ledger m b owners) {block : Nat}
    (top : block ≠ Model.root) (bound : block < m.blockCount) :
    Ledger m (b.sealBlock m block) (owners ++ [block]) := by
  have pendingOf := h.pendingOf_sealBlock wf bound
  have old {id other : Nat} (owned : owners[id]? = some other) :
      (b.sealBlock m block).instanceAt id = b.instanceAt id :=
    instanceAt_sealBlock_of_lt m b block (h.instances ▸ lt_of_owner owned)
  have listed : block < b.pending.size := h.pending ▸ bound
  have new : (b.sealBlock m block).instanceAt owners.length = b.snapshot m block := by
    rw [← h.instances, instanceAt_sealBlock listed]
  constructor
  case values => exact h.values
  case pending => rw [size_pending_sealBlock, h.pending]
  case instances =>
    rw [instances_sealBlock listed, Array.size_push, h.instances, List.length_append,
      List.length_singleton]
  case owner =>
    intro other mem
    rcases List.mem_append.1 mem with mem | mem
    · exact h.owner other mem
    · rw [List.mem_singleton.1 mem]
      exact ⟨top, bound⟩
  case shape =>
    intro id other owned
    rcases owner_concat owned with owned | ⟨rfl, rfl⟩
    · rw [old owned]
      exact h.shape id other owned
    · rw [new]
      exact ⟨Array.size_map, Array.size_map⟩
  case child =>
    intro id other slot child owned place part mem
    rcases owner_concat owned with owned | ⟨rfl, rfl⟩
    · rw [old owned] at mem
      obtain ⟨earlier, kept⟩ := h.child id other slot child owned place part mem
      exact ⟨earlier, owner_concat_of_owner kept⟩
    · rw [new, childrenAt_snapshot place] at mem
      have kept := h.pending_owner child part mem
      exact ⟨lt_of_owner kept, owner_concat_of_owner kept⟩
  case pending_owner =>
    intro other id mem
    rw [pendingOf] at mem
    split at mem
    · next same =>
      rcases Array.mem_push.1 mem with mem | rfl
      · exact owner_concat_of_owner (h.pending_owner other id mem)
      · rw [h.instances, same, List.getElem?_concat_length]
    · split at mem
      · simp at mem
      · exact owner_concat_of_owner (h.pending_owner other id mem)
  case conserved =>
    intro other otherTop otherBound
    obtain ⟨parent, above, kept⟩ := h.conserved other otherTop otherBound
    have place := (wf.place other otherTop otherBound parent _).2 ⟨above, rfl⟩
    have before : parent < other := (wf.child_bounds place).1
    refine ⟨parent, above, ?_⟩
    rw [h.sealedInto_sealBlock bound place, idxsOf_concat, pendingOf]
    by_cases inside : block = parent
    · -- The parent is sealed: it takes all that was pending.
      subst inside
      have other_ne : other ≠ block := Nat.ne_of_gt before
      have child : other ∈ (m.block block).children := Array.mem_of_getElem? place
      rw [if_pos rfl, if_neg other_ne, if_pos child, if_neg (Ne.symm other_ne), List.append_nil,
        List.append_nil, kept]
    · rw [if_neg inside, List.append_nil]
      by_cases same : other = block
      · subst same
        rw [if_pos rfl, if_pos rfl, Array.toList_push, ← List.append_assoc, kept, h.instances]
      · have stays := wf.not_child above (Ne.symm inside)
        rw [if_neg same, if_neg stays, if_neg (Ne.symm same), List.append_nil, kept]

theorem Ledger.sealBlocks (wf : m.WellFormed) (h : Ledger m b owners) {blocks : List Nat}
    (named : ∀ block ∈ blocks, block ≠ Model.root ∧ block < m.blockCount) :
    Ledger m (b.sealBlocks m blocks) (owners ++ blocks) := by
  induction blocks generalizing b owners with
  | nil =>
    rw [List.append_nil]
    exact h
  | cons first rest ih =>
    obtain ⟨top, bound⟩ := named first List.mem_cons_self
    rw [List.append_cons]
    exact ih (h.sealBlock wf top bound) fun block mem =>
      named block (List.mem_cons_of_mem first mem)

theorem Ledger.setValue (h : Ledger m b owners) (index : Nat) (value : String) :
    Ledger m (b.setValue index value) owners where
  values := Array.size_setIfInBounds.trans h.values
  pending := h.pending
  instances := h.instances
  owner := h.owner
  shape := h.shape
  child := h.child
  pending_owner := h.pending_owner
  conserved := h.conserved

theorem Ledger.clear_eq (h : Ledger m b owners) : b.clear = Bindings.ofModel m := by
  rw [clear, Bindings.ofModel, Array.map_const', Array.map_const', h.values, h.pending]

theorem Ledger.step (wf : m.WellFormed) (h : Ledger m b owners) (command : Command) :
    Ledger m (b.step m command) (sealedAfter m owners command) := by
  cases command with
  | set name value =>
    rw [step_set]
    cases m.findVariable? name with
    | none => exact h
    | some index => exact h.setValue index value
  | add name =>
    rw [step_add]
    refine h.sealBlocks wf fun block mem => ?_
    obtain ⟨bound, top, -⟩ := Model.mem_blocksNamed.1 mem
    exact ⟨top, bound⟩
  | clear =>
    rw [step_clear, h.clear_eq]
    exact .ofModel wf

/-- Further commands leave the ledger in order. -/
theorem Ledger.foldl (wf : m.WellFormed) (h : Ledger m b owners) (commands : List Command) :
    Ledger m (commands.foldl (Bindings.step m) b) (commands.foldl (sealedAfter m) owners) := by
  induction commands generalizing b owners with
  | nil => exact h
  | cons command commands ih => exact ih (h.step wf command)

/-- The ledger is in order after every run. -/
theorem Ledger.of_after (wf : m.WellFormed) (commands : List Command) :
    Ledger m (after m commands) (sealedBlocks m commands) :=
  (Ledger.ofModel wf).foldl wf commands

end Bindings

end Stencil
