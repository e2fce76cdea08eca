import Stencil.Proofs.Bindings.Ledger
import Stencil.Proofs.Outline.WellFormed

/-! # Strict evaluation

The evaluator takes a missing instance, slot or variable for an empty one. The strict evaluator
gives up instead. Both agree on bindings whose ledger is in order: every step of the work that is
left refers to a block or an instance that is there.
-/

namespace Stencil

namespace Evaluation

variable {m : Model} {b : Bindings} {owners : List Nat}

def hasSlot (b : Bindings) (inst slot : Nat) : Bool :=
  inst < b.instances.size && slot < (b.instanceAt inst).values.size

def hasVariable (m : Model) (b : Bindings) (scopes : List Scope) (index slot : Nat) : Bool :=
  match scopes with
  | [] => index < b.values.size
  | innermost :: outer =>
    hasSlot b innermost.inst slot && outer.all fun scope =>
      match (m.block scope.block).variableSlot? index with
      | some slot => hasSlot b scope.inst slot
      | none => true

def hasInstances (m : Model) (b : Bindings) (scopes : List Scope) (block : Nat) : Bool :=
  match scopes with
  | [] => block < b.pending.size
  | innermost :: _ =>
    innermost.inst < b.instances.size &&
      (m.block block).slot < (b.instanceAt innermost.inst).children.size

/-- Does the steps like `run`, but gives up where something is missing. -/
def strictRun (m : Model) (b : Bindings) :
    (steps : List Step) → (scopes : List Scope) → (text : String) → Option Outcome
  | [], scopes, text => some ⟨text, scopes, none⟩
  | .node (.literal s) :: rest, scopes, text => strictRun m b rest scopes (text ++ s)
  | .node (.var index slot) :: rest, scopes, text =>
    if hasVariable m b scopes index slot then
      match value? m b scopes index slot with
      | some s => strictRun m b rest scopes (text ++ s)
      | none => some ⟨text, scopes, some ⟨m.variableName index⟩⟩
    else none
  | .node (.block id) :: rest, scopes, text =>
    if hasInstances m b scopes id then
      strictRun m b ((instancesOf m b scopes id).toList.map (.enter id) ++ rest) scopes text
    else none
  | .enter block inst :: rest, scopes, text =>
    if inst < b.instances.size then
      strictRun m b (bodySteps m block ++ rest) (⟨block, inst⟩ :: scopes) text
    else none
  | .leave :: rest, scopes, text => strictRun m b rest scopes.tail text
termination_by steps => weight m (fan b) steps
decreasing_by
  · simp only [weight_cons, stepWeight]; omega
  · simp only [weight_cons, stepWeight]; omega
  · have := weight_enter m (fan b) id _ (size_instancesOf_le m b scopes id)
    rw [weight_append, weight_cons, stepWeight]
    exact Nat.add_lt_add_right (by omega) _
  · rw [weight_append, weight_cons, stepWeight, blockWeight_eq]
    omega
  · simp only [weight_cons, stepWeight]; omega

def current : List Scope → Nat
  | [] => Model.root
  | innermost :: _ => innermost.block

/-- Every step refers to something that is there: a node to the block being written, an instance to
its own block. -/
def Ready (m : Model) (owners : List Nat) : List Step → List Scope → Prop
  | [], _ => True
  | .node n :: rest, scopes => n ∈ (m.block (current scopes)).body ∧ Ready m owners rest scopes
  | .enter block inst :: rest, scopes => owners[inst]? = some block ∧ Ready m owners rest scopes
  | .leave :: rest, scopes => Ready m owners rest scopes.tail

theorem ready_nodes {nodes : List Node} {rest : List Step} {scopes : List Scope}
    (sub : ∀ n ∈ nodes, n ∈ (m.block (current scopes)).body) (h : Ready m owners rest scopes) :
    Ready m owners (nodes.map .node ++ rest) scopes := by
  induction nodes with
  | nil => exact h
  | cons first nodes ih =>
    exact ⟨sub first List.mem_cons_self, ih fun n mem => sub n (List.mem_cons_of_mem first mem)⟩

theorem ready_enter {block : Nat} {ids : List Nat} {rest : List Step} {scopes : List Scope}
    (owned : ∀ id ∈ ids, owners[id]? = some block) (h : Ready m owners rest scopes) :
    Ready m owners (ids.map (.enter block) ++ rest) scopes := by
  induction ids with
  | nil => exact h
  | cons first ids ih =>
    exact ⟨owned first List.mem_cons_self,
      ih fun id mem => owned id (List.mem_cons_of_mem first mem)⟩

theorem ready_body {block inst : Nat} {rest : List Step} {scopes : List Scope}
    (h : Ready m owners rest scopes) :
    Ready m owners (bodySteps m block ++ rest) (⟨block, inst⟩ :: scopes) := by
  rw [bodySteps, List.append_assoc]
  exact ready_nodes (fun n mem => Array.mem_toList_iff.1 mem) h

def Owned (owners : List Nat) (scopes : List Scope) : Prop :=
  ∀ scope ∈ scopes, owners[scope.inst]? = some scope.block

theorem hasSlot_of_owner (ledger : b.Ledger m owners) {inst block slot : Nat}
    (owned : owners[inst]? = some block) (bound : slot < (m.block block).vars.size) :
    hasSlot b inst slot = true := by
  have there : inst < b.instances.size := by
    rw [ledger.instances]
    exact Bindings.lt_of_owner owned
  have shape := (ledger.shape inst block owned).1
  simp [hasSlot, there, shape, bound]

theorem hasVariable_of_mem (wf : m.WellFormed) (ledger : b.Ledger m owners) {scopes : List Scope}
    (owned : Owned owners scopes) {index slot : Nat}
    (mem : .var index slot ∈ (m.block (current scopes)).body) :
    hasVariable m b scopes index slot = true := by
  obtain ⟨place, known⟩ := wf.slots _ index slot mem
  cases scopes with
  | nil =>
    rw [← ledger.values] at known
    simpa [hasVariable] using known
  | cons innermost outer =>
    have here : hasSlot b innermost.inst slot = true :=
      hasSlot_of_owner ledger (owned innermost List.mem_cons_self)
        (Numbering.lt_size_of_find? (Numbering.find?_eq_some_iff.2 place))
    rw [hasVariable, here, Bool.true_and, List.all_eq_true]
    intro scope above
    split
    · next slot' found =>
      exact hasSlot_of_owner ledger (owned scope (List.mem_cons_of_mem innermost above))
        (Numbering.lt_size_of_find? found)
    · rfl

theorem hasInstances_of_mem (wf : m.WellFormed) (ledger : b.Ledger m owners) {scopes : List Scope}
    (owned : Owned owners scopes) {id : Nat} (mem : .block id ∈ (m.block (current scopes)).body) :
    hasInstances m b scopes id = true ∧
      ∀ inst ∈ instancesOf m b scopes id, owners[inst]? = some id := by
  have place := wf.place_of_mem mem
  cases scopes with
  | nil =>
    have bound : id < b.pending.size := by
      rw [ledger.pending]
      exact (Model.lt_of_block_mem mem).2
    refine ⟨by simpa [hasInstances] using bound, ledger.pending_owner id⟩
  | cons innermost outer =>
    have owner := owned innermost List.mem_cons_self
    have there : innermost.inst < b.instances.size := by
      rw [ledger.instances]
      exact Bindings.lt_of_owner owner
    have slot : (m.block id).slot < (b.instanceAt innermost.inst).children.size := by
      rw [(ledger.shape _ _ owner).2]
      exact (Array.getElem?_eq_some_iff.1 place).1
    refine ⟨by simp [hasInstances, there, slot], fun inst listed => ?_⟩
    exact (ledger.child _ _ _ _ owner place inst listed).2

theorem Owned.enter {scopes : List Scope} (owned : Owned owners scopes) {block inst : Nat}
    (owner : owners[inst]? = some block) : Owned owners (⟨block, inst⟩ :: scopes) := by
  intro scope mem
  rcases List.mem_cons.1 mem with rfl | mem
  · exact owner
  · exact owned scope mem

/-- Where every step is ready, nothing is missing. -/
theorem strictRun_eq (wf : m.WellFormed) (ledger : b.Ledger m owners) {steps : List Step}
    {scopes : List Scope} {text : String} (ready : Ready m owners steps scopes)
    (owned : Owned owners scopes) :
    strictRun m b steps scopes text = some (run m b steps scopes text) := by
  fun_induction run m b steps scopes text with
  | case1 scopes text => rw [strictRun]
  | case2 scopes text s rest ih =>
    rw [strictRun]
    exact ih ready.2 owned
  | case3 scopes text index slot rest s found ih =>
    rw [strictRun, if_pos (hasVariable_of_mem wf ledger owned ready.1), found]
    exact ih ready.2 owned
  | case4 scopes text index slot rest missing =>
    rw [strictRun, if_pos (hasVariable_of_mem wf ledger owned ready.1), missing]
  | case5 scopes text id rest ih =>
    obtain ⟨listed, owners⟩ := hasInstances_of_mem wf ledger owned ready.1
    rw [strictRun, if_pos listed]
    exact ih (ready_enter (fun inst mem => owners inst (Array.mem_toList_iff.1 mem)) ready.2) owned
  | case6 scopes text block inst rest there ih =>
    rw [strictRun, if_pos there]
    exact ih (ready_body ready.2) (owned.enter ready.1)
  | case7 scopes text block inst rest missing ih =>
    have there := Bindings.lt_of_owner ready.1
    rw [← ledger.instances] at there
    exact absurd there missing
  | case8 scopes text rest ih =>
    rw [strictRun]
    exact ih ready fun scope mem => owned scope (List.mem_of_mem_tail mem)

def strictRender (m : Model) (b : Bindings) : Option Outcome :=
  strictRun m b ((m.block Model.root).body.toList.map .node) [] ""

theorem strictRender_eq (wf : m.WellFormed) (ledger : b.Ledger m owners) :
    strictRender m b = some (render m b [] Model.root) := by
  have ready : Ready m owners ((m.block Model.root).body.toList.map .node) [] := by
    rw [← List.append_nil (List.map _ _)]
    exact ready_nodes (fun n mem => Array.mem_toList_iff.1 mem) trivial
  exact strictRun_eq wf ledger ready (by simp [Owned])

end Evaluation

open Bindings in
/-- After every run on a compiled template the ledger is in order, so that evaluation never falls
back, and clearing leaves a new document. -/
theorem ledger_of_compile {source : String} {flags : FlagSet} {options : Options}
    {loader : Option Loader} {m : Model} (h : compile source flags options loader = .ok m)
    (commands : List Command) :
    Ledger m (after m commands) (sealedBlocks m commands) ∧
      Evaluation.strictRender m (after m commands) =
        some (Evaluation.render m (after m commands) [] Model.root) ∧
      (after m commands).clear = ofModel m := by
  obtain ⟨o, -, outlined⟩ := exists_outlined_of_compile h
  have ledger := Ledger.of_after outlined.wellFormed commands
  exact ⟨ledger, Evaluation.strictRender_eq outlined.wellFormed ledger, ledger.clear_eq⟩

open Bindings in
theorem ledger_rows :
    ∃ m, compile "[beginblock:row]{x}[endblock:row]" .empty {} none = .ok m ∧
      ∀ commands, Ledger m (after m commands) (sealedBlocks m commands) ∧
        Evaluation.strictRender m (after m commands) =
          some (Evaluation.render m (after m commands) [] Model.root) ∧
        (after m commands).clear = ofModel m := by
  obtain ⟨m, compiled⟩ := compile_rows
  exact ⟨m, compiled, ledger_of_compile compiled⟩

end Stencil
