import Stencil.Model
import Stencil.Text

/-! # Documents

A model is filled in with values and instances, which are its bindings, and written out.
-/

/-! ## Bindings

What a document has been given so far: the current values of the variables, and the instances of
its blocks. Adding a block seals an instance: a snapshot of the block's variables together with the
instances of its children that were added since its last instance. Instances are numbered in the
order in which they were sealed and never change.
-/

namespace Stencil

structure Instance where
  /-- The values of the block's variables, in their order; none where a variable had no value. -/
  values : Array (Option String) := #[]
  /-- For each child of the block, in their order, the instances sealed into this one. -/
  children : Array (Array Nat) := #[]
  deriving DecidableEq

namespace Instance

def value? (i : Instance) (slot : Nat) : Option String :=
  (i.values[slot]?).getD none

def childrenAt (i : Instance) (slot : Nat) : Array Nat :=
  (i.children[slot]?).getD #[]

end Instance

structure Bindings where
  /-- The current value of every variable of the model. -/
  values : Array (Option String)
  /-- For every block of the model, its instances that are not sealed into another instance. -/
  pending : Array (Array Nat)
  /-- Every instance sealed so far. -/
  instances : Array Instance
  deriving DecidableEq

namespace Bindings

def ofModel (m : Model) : Bindings :=
  ⟨Array.replicate m.variableCount none, Array.replicate m.blockCount #[], #[]⟩

def clear (b : Bindings) : Bindings :=
  ⟨b.values.map fun _ => none, b.pending.map fun _ => #[], #[]⟩

def value? (b : Bindings) (index : Nat) : Option String :=
  (b.values[index]?).getD none

/-- The instances of a block that are not sealed into another instance. -/
def pendingOf (b : Bindings) (block : Nat) : Array Nat :=
  (b.pending[block]?).getD #[]

/-- The instance of a number. A number that is none of the instances' has an empty instance. -/
def instanceAt (b : Bindings) (id : Nat) : Instance :=
  (b.instances[id]?).getD {}

def setValue (b : Bindings) (index : Nat) (value : String) : Bindings :=
  { b with values := b.values.setIfInBounds index (some value) }

/-- The instance that sealing a block makes now. -/
def snapshot (m : Model) (b : Bindings) (block : Nat) : Instance where
  values := (m.block block).vars.keys.map b.value?
  children := (m.block block).children.map b.pendingOf

/-- The pending instances without those of the given blocks. -/
def release (pending : Array (Array Nat)) (blocks : Array Nat) : Array (Array Nat) :=
  blocks.foldl (fun pending block => pending.setIfInBounds block #[]) pending

/-- Seals an instance of a block. The pending instances of the block's children become part of it,
and the instance itself becomes pending. Bindings that have no list for the block, as those of
another model may, get no instance. -/
def sealBlock (m : Model) (b : Bindings) (block : Nat) : Bindings :=
  let sealed := snapshot m b block
  let number := b.instances.size
  { values := b.values
    pending := (release b.pending (m.block block).children).modify block (·.push number)
    instances := if block < b.pending.size then b.instances.push sealed else b.instances }

def sealBlocks (m : Model) (b : Bindings) (blocks : List Nat) : Bindings :=
  blocks.foldl (sealBlock m) b

def set (m : Model) (b : Bindings) (name value : String) : Except Error Bindings :=
  (m.variableNumber name).map fun index => b.setValue index value

/-- Seals an instance of every block of a name, in the order of the blocks. -/
def add (m : Model) (b : Bindings) (name : String) : Except Error Bindings :=
  (m.blockNumbers name).map fun blocks => b.sealBlocks m blocks

end Bindings

/-! ## Steps of evaluation

Writing out a block is work that is left as a list of steps, so that nesting costs no recursion, and
the instances being written form a stack of scopes. Inside an instance a variable has the value
sealed into that instance or, failing that, into the nearest instance around it; outside all
instances it has its current value.
-/

namespace Evaluation

/-- An instance being written: its block and its number. -/
structure Scope where
  block : Nat
  inst : Nat
  deriving DecidableEq

inductive Step
  | node (n : Node)
  | enter (block inst : Nat)
  | leave
  deriving DecidableEq

structure Outcome where
  text : String
  /-- The scopes that are still open. An error leaves open what it interrupts. -/
  scopes : List Scope
  error : Option UnboundVariable
  deriving DecidableEq

/-- The value of a variable, given its slot in the block being written. -/
def value? (m : Model) (b : Bindings) (scopes : List Scope) (index slot : Nat) : Option String :=
  match scopes with
  | [] => b.value? index
  | innermost :: outer =>
    ((b.instanceAt innermost.inst).value? slot).or
      (outer.findSome? fun scope =>
        ((m.block scope.block).variableSlot? index).bind (b.instanceAt scope.inst).value?)

/-- The instances of a block that are to be written where the block stands. -/
def instancesOf (m : Model) (b : Bindings) (scopes : List Scope) (block : Nat) : Array Nat :=
  match scopes with
  | [] => b.pendingOf block
  | innermost :: _ => (b.instanceAt innermost.inst).childrenAt (m.block block).slot

/-- The steps that write an instance of a block, once its scope is open. -/
def bodySteps (m : Model) (block : Nat) : List Step :=
  (m.block block).body.toList.map .node ++ [.leave]

end Evaluation

/-! ## Why evaluation ends

Every step has a weight, and a step weighs more than all the steps that replace it: bodies refer to
later blocks only, and no list of instances is longer than all of them together. Nothing is assumed
about the bindings; their lists of instances may be of any shape.
-/

namespace Evaluation

def total (l : List Nat) : Nat :=
  l.foldr (· + ·) 0

@[simp]
theorem total_nil : total [] = 0 :=
  rfl

@[simp]
theorem total_cons (n : Nat) (l : List Nat) : total (n :: l) = n + total l :=
  rfl

@[simp]
theorem total_append (l r : List Nat) : total (l ++ r) = total l + total r := by
  induction l with
  | nil => simp [total]
  | cons n l ih => rw [List.cons_append, total_cons, total_cons, ih, Nat.add_assoc]

theorem le_total_of_mem {n : Nat} {l : List Nat} (h : n ∈ l) : n ≤ total l := by
  induction l with
  | nil => simp at h
  | cons a l ih =>
    rw [total_cons]
    rcases List.mem_cons.1 h with rfl | h
    · omega
    · have := ih h
      omega

/-- The number of places in the bindings where an instance is listed. -/
def fan (b : Bindings) : Nat :=
  total (b.pending.toList.map Array.size) +
    total (b.instances.toList.map fun i => total (i.children.toList.map Array.size))

theorem size_getD_le_total (lists : Array (Array Nat)) (i : Nat) :
    ((lists[i]?).getD #[]).size ≤ total (lists.toList.map Array.size) := by
  cases h : lists[i]? with
  | none => simp
  | some list =>
    exact le_total_of_mem
      (List.mem_map_of_mem (Array.mem_toList_iff.2 (Array.mem_of_getElem? h)))

theorem size_instancesOf_le (m : Model) (b : Bindings) (scopes : List Scope) (block : Nat) :
    (instancesOf m b scopes block).size ≤ fan b := by
  unfold instancesOf fan
  split
  · have := size_getD_le_total b.pending block
    unfold Bindings.pendingOf
    omega
  · next innermost _ =>
    refine Nat.le_trans ?_ (Nat.le_add_left _ _)
    refine Nat.le_trans (size_getD_le_total _ _) ?_
    unfold Bindings.instanceAt
    cases h : b.instances[innermost.inst]? with
    | none => simp
    | some i =>
      exact le_total_of_mem (List.mem_map.2
        ⟨i, Array.mem_toList_iff.2 (Array.mem_of_getElem? h), rfl⟩)

/-- The weight of an instance of a block, when no block has more than `width` instances. -/
def blockWeight (m : Model) (width block : Nat) : Nat :=
  2 + total ((m.block block).body.toList.attach.map fun node =>
    match _h : node.1 with
    | .block id => 1 + width * blockWeight m width id
    | _ => 1)
termination_by m.blockCount - block
decreasing_by
  have := Model.lt_of_block_mem (Array.mem_toList_iff.1 (_h ▸ node.2))
  omega

def stepWeight (m : Model) (width : Nat) : Step → Nat
  | .node (.block id) => 1 + width * blockWeight m width id
  | .node _ => 1
  | .enter block _ => blockWeight m width block
  | .leave => 1

def weight (m : Model) (width : Nat) (steps : List Step) : Nat :=
  total (steps.map (stepWeight m width))

@[simp]
theorem weight_cons (m : Model) (width : Nat) (step : Step) (steps : List Step) :
    weight m width (step :: steps) = stepWeight m width step + weight m width steps := by
  simp [weight]

@[simp]
theorem weight_append (m : Model) (width : Nat) (first second : List Step) :
    weight m width (first ++ second) = weight m width first + weight m width second := by
  simp [weight]

theorem blockWeight_eq (m : Model) (width block : Nat) :
    blockWeight m width block = 1 + weight m width (bodySteps m block) := by
  have hmap : ((m.block block).body.toList.attach.map fun node =>
      match _h : node.1 with
      | .block id => 1 + width * blockWeight m width id
      | _ => 1) = (m.block block).body.toList.map fun node => stepWeight m width (.node node) := by
    refine Eq.trans (List.map_congr_left fun node _ => ?_) List.attach_map_val
    cases node.1 <;> rfl
  rw [blockWeight, hmap]
  simp only [bodySteps, weight, List.map_append, List.map_map, total_append, List.map_cons,
    List.map_nil, total_cons, total_nil, stepWeight, Function.comp_def]
  omega

theorem weight_enter (m : Model) (width block : Nat) (ids : List Nat) (h : ids.length ≤ width) :
    weight m width (ids.map (.enter block)) ≤ width * blockWeight m width block := by
  refine Nat.le_trans (Nat.le_of_eq ?_) (Nat.mul_le_mul_right _ h)
  induction ids with
  | nil => simp [weight]
  | cons id ids ih =>
    rw [List.map_cons, weight_cons, ih (Nat.le_of_succ_le h), List.length_cons, Nat.succ_mul,
      stepWeight]
    omega

end Evaluation

/-! ## Evaluation

Does the steps of writing out a block one after another, until none is left or a variable has no
value.
-/

namespace Evaluation

/-- Does the steps one after another, from the given scopes, adding to the text written. -/
def run (m : Model) (b : Bindings) :
    (steps : List Step) → (scopes : List Scope) → (text : String) → Outcome
  | [], scopes, text => ⟨text, scopes, none⟩
  | .node (.literal s) :: rest, scopes, text => run m b rest scopes (text ++ s)
  | .node (.var index slot) :: rest, scopes, text =>
    match value? m b scopes index slot with
    | some s => run m b rest scopes (text ++ s)
    | none => ⟨text, scopes, some ⟨m.variableName index⟩⟩
  | .node (.block id) :: rest, scopes, text =>
    run m b ((instancesOf m b scopes id).toList.map (.enter id) ++ rest) scopes text
  | .enter block inst :: rest, scopes, text =>
    if inst < b.instances.size then
      run m b (bodySteps m block ++ rest) (⟨block, inst⟩ :: scopes) text
    else
      run m b rest scopes text
  | .leave :: rest, scopes, text => run m b rest scopes.tail text
termination_by steps => weight m (fan b) steps
decreasing_by
  · simp only [weight_cons, stepWeight]; omega
  · simp only [weight_cons, stepWeight]; omega
  · have := weight_enter m (fan b) id _ (size_instancesOf_le m b scopes id)
    rw [weight_append, weight_cons, stepWeight]
    exact Nat.add_lt_add_right (by omega) _
  · rw [weight_append, weight_cons, stepWeight, blockWeight_eq]
    omega
  · rw [weight_cons, stepWeight, blockWeight_eq]
    omega
  · simp only [weight_cons, stepWeight]; omega

def render (m : Model) (b : Bindings) (scopes : List Scope) (block : Nat) : Outcome :=
  run m b ((m.block block).body.toList.map .node) scopes ""

end Evaluation

namespace Bindings

def render (m : Model) (b : Bindings) : Except UnboundVariable String :=
  let outcome := Evaluation.render m b [] Model.root
  match outcome.error with
  | none => .ok outcome.text
  | some e => .error e

end Bindings

/-! ## Filling in documents

A document is a model together with the bindings it has been given. Documents made from one compiled
template share its edition.
-/

/-- A compiled template. The serial number tells apart editions with equal models. -/
structure Edition where
  serial : Nat
  model : Model

/-- Takes the bytes of a text, all of them or up to a limit. -/
structure Sink where
  received : ByteArray
  /-- How many more bytes are taken; none for any number. -/
  capacity : Option Nat

namespace Sink

def ofCapacity (capacity : Option Nat) : Sink :=
  ⟨ByteArray.empty, capacity⟩

/-- Passes a text to the sink: all of it, or as much as the sink takes and the fault that it takes
no more. -/
def write (s : Sink) (text : String) : Except StorageFault Unit × Sink :=
  let bytes := text.toUTF8
  match s.capacity with
  | none => (.ok (), ⟨s.received ++ bytes, none⟩)
  | some capacity =>
    if bytes.size ≤ capacity then
      (.ok (), ⟨s.received ++ bytes, some (capacity - bytes.size)⟩)
    else
      (.error .sinkFull, ⟨s.received ++ bytes.extract 0 capacity, some 0⟩)

end Sink

structure Document where
  edition : Edition
  bindings : Bindings

namespace Document

def ofEdition (e : Edition) : Document :=
  ⟨e, .ofModel e.model⟩

def model (d : Document) : Model :=
  d.edition.model

def hasVariable (d : Document) (name : String) : Bool :=
  (d.model.findVariable? name).isSome

def hasBlock (d : Document) (name : String) : Bool :=
  !(d.model.blocksNamed name).isEmpty

def setValue (d : Document) (index : Nat) (value : String) : Document :=
  { d with bindings := d.bindings.setValue index value }

def sealBlocks (d : Document) (blocks : List Nat) : Document :=
  { d with bindings := d.bindings.sealBlocks d.edition.model blocks }

def set (d : Document) (name value : String) : Except Error Document :=
  (d.model.variableNumber name).map fun index => d.setValue index value

def setEscaped (d : Document) (name value : String) : Except Error Document :=
  d.set name (Text.Html.escape value)

def set? (d : Document) (name value : String) : Option Document :=
  (d.set name value).toOption

def add (d : Document) (name : String) : Except Error Document :=
  (d.model.blockNumbers name).map d.sealBlocks

def add? (d : Document) (name : String) : Option Document :=
  (d.add name).toOption

def reset (d : Document) : Document :=
  { d with bindings := d.bindings.clear }

def fresh (d : Document) : Document :=
  .ofEdition d.edition

def render (d : Document) : Except Error String :=
  (d.bindings.render d.model).mapError .unbound

/-- Passes the text of the document to a sink, which receives nothing if there is no text. -/
def renderTo (d : Document) (sink : Sink) : Except Error Unit × Sink :=
  match d.render with
  | .error e => (.error e, sink)
  | .ok text =>
    match sink.write text with
    | (result, after) => (result.mapError .storage, after)

end Document

end Stencil
