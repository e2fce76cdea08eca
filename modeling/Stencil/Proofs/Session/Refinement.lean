import Stencil.Proofs.Evaluation.Strict
import Stencil.Proofs.Session.Sealing

/-! # Documents behave like sessions

What is written by steps is what the outline says, at every moment of a session.
-/

/-! ## Writing by steps and on the outline

Doing the steps of an outline's nodes one after another writes what the outline says, then goes on
with the steps that follow, or it stops with the same error.
-/

namespace Stencil

namespace Evaluation

variable {m : Model} {b : Bindings} {owners : List Nat} {o : Outline Nat}
  {values : String → Option String}

def Yields (result : Except UnboundVariable String) (outcome : Outcome)
    (onward : String → Outcome) : Prop :=
  match result with
  | .ok text => outcome = onward text
  | .error e => outcome.error = some e

theorem yields_nothing (rest : List Step) (scopes : List Scope) (text : String) :
    Yields (.ok "") (run m b rest scopes text) fun s => run m b rest scopes (text ++ s) := by
  show run m b rest scopes text = run m b rest scopes (text ++ "")
  rw [String.append_empty]

theorem Yields.prepend {result : Except UnboundVariable String} {outcome : Outcome}
    {rest : List Step} {scopes : List Scope} {text first : String}
    (h : Yields result outcome fun s => run m b rest scopes (text ++ first ++ s)) :
    Yields (do let after ← result; .ok (first ++ after)) outcome
      fun s => run m b rest scopes (text ++ s) := by
  cases result with
  | error e => exact h
  | ok s =>
    show outcome = run m b rest scopes (text ++ (first ++ s))
    rw [← String.append_assoc]
    exact h

theorem Yields.bind {result after : Except UnboundVariable String} {outcome : Outcome}
    {middle rest : List Step} {scopes : List Scope} {text : String}
    (h : Yields result outcome fun s => run m b middle scopes (text ++ s))
    (h' : ∀ s, Yields after (run m b middle scopes (text ++ s))
      fun s' => run m b rest scopes (text ++ s ++ s')) :
    Yields (do let here ← result; let after ← after; .ok (here ++ after)) outcome
      fun s => run m b rest scopes (text ++ s) := by
  cases result with
  | error e => exact h
  | ok s =>
    have same : outcome = run m b middle scopes (text ++ s) := h
    rw [same]
    exact (h' s).prepend

def sealedValues (m : Model) (b : Bindings) (scopes : List Scope) :
    List (String → Option String) :=
  scopes.map fun scope => b.sealedValue m scope.block scope.inst

theorem run_joinText (content : String) (nodes : List Node) (rest : List Step)
    (scopes : List Scope) (text : String) :
    run m b ((joinText content nodes).map .node ++ rest) scopes text =
      run m b (nodes.map .node ++ rest) scopes (text ++ content) := by
  by_cases nothing : content = ""
  · rw [nothing, joinText_empty, String.append_empty]
  · unfold joinText
    rw [if_neg (by simpa using nothing)]
    split
    · next after others =>
      rw [List.map_cons, List.map_cons, List.cons_append, List.cons_append, run, run,
        String.append_assoc]
    · rw [List.map_cons, List.cons_append, run]

theorem value?_eq_lookup (wf : m.WellFormed) {scopes : List Scope} {name : String} {slot : Nat}
    (mem : .var (m.indexOf name) slot ∈ (m.block (current scopes)).body)
    (known : values name = b.value? (m.indexOf name)) :
    value? m b scopes (m.indexOf name) slot =
      Outline.lookup values (sealedValues m b scopes) name := by
  cases scopes with
  | nil => exact known.symm
  | cons innermost outer =>
    have place := (wf.slots _ _ slot mem).1
    have found : (m.block innermost.block).variableSlot? (m.indexOf name) = some slot :=
      Numbering.find?_eq_some_iff.2 place
    have here : b.sealedValue m innermost.block innermost.inst name =
        (b.instanceAt innermost.inst).value? slot := by
      rw [Bindings.sealedValue, found]
      rfl
    rw [value?, sealedValues, List.map_cons, Outline.lookup, List.findSome?_cons, here,
      List.findSome?_map]
    cases (b.instanceAt innermost.inst).value? slot <;> rfl

theorem yields_enter {id : Nat} {ids : List Nat} {inner : Outline Nat} {rest : List Step}
    {scopes : List Scope} (text : String) (ledger : b.Ledger m owners)
    (owned : ∀ inst ∈ ids, owners[inst]? = some id)
    (body : ∀ inst, owners[inst]? = some id → ∀ rest text,
      Yields (inner.render values (sealedValues m b (⟨id, inst⟩ :: scopes))
          (b.tree m id inner inst).parts)
        (run m b (bodySteps m id ++ rest) (⟨id, inst⟩ :: scopes) text)
        fun s => run m b rest scopes (text ++ s)) :
    Yields
      (Outline.concat ((ids.map (b.tree m id inner)).map fun made =>
        inner.render values (made.values :: sealedValues m b scopes) made.parts))
      (run m b (ids.map (.enter id) ++ rest) scopes text)
      fun s => run m b rest scopes (text ++ s) := by
  induction ids generalizing text with
  | nil => exact yields_nothing rest scopes text
  | cons inst ids ih =>
    have owner := owned inst List.mem_cons_self
    have there : inst < b.instances.size := by
      rw [ledger.instances]
      exact Bindings.lt_of_owner owner
    show Yields (Outline.concat (_ :: _))
      (run m b (.enter id inst :: (ids.map (.enter id) ++ rest)) scopes text) _
    rw [run, if_pos there, Outline.concat]
    exact (body inst owner _ text).bind fun s =>
      ih (text ++ s) fun other mem => owned other (List.mem_cons_of_mem inst mem)

theorem yields_render (wf : m.WellFormed) (ledger : b.Ledger m owners) {scopes : List Scope}
    {slot : Nat} {slotOf : String → Nat} (hosts : m.Hosts (current scopes) slot o)
    (owned : Owned owners scopes) (known : b.Known m values o)
    (sub : ∀ n ∈ o.nodes m.indexOf slotOf, n.isLiteral = false →
      n ∈ (m.block (current scopes)).body) (rest : List Step) (text : String) :
    Yields
      (o.render values (sealedValues m b scopes) (b.parts m (instancesOf m b scopes) o))
      (run m b ((o.nodes m.indexOf slotOf).map .node ++ rest) scopes text)
      fun s => run m b rest scopes (text ++ s) := by
  induction o generalizing scopes slot slotOf rest text with
  | nil => exact yields_nothing rest scopes text
  | text content after ih =>
    rw [Outline.nodes, run_joinText, Outline.render]
    exact (ih hosts owned known (fun n mem other => sub n ((mem_joinText other).2 mem) other)
      rest (text ++ content)).prepend
  | var name after ih =>
    obtain ⟨there, current⟩ := known name List.mem_cons_self
    have mem := sub _ List.mem_cons_self rfl
    show Yields _ (run m b (.node (.var (m.indexOf name) (slotOf name)) :: _) scopes text) _
    rw [run, value?_eq_lookup wf mem current, Outline.render]
    cases Outline.lookup values (sealedValues m b scopes) name with
    | none =>
      show some (UnboundVariable.mk (m.variableName (m.indexOf name))) = some _
      rw [Model.variableName_indexOf there]
    | some value =>
      have later := ih hosts owned (fun ref mem => known ref (List.mem_cons_of_mem name mem))
        (fun n mem => sub n (List.mem_cons_of_mem _ mem)) rest (text ++ value)
      exact later.prepend
  | block name id inner after ihInner ihRest =>
    obtain ⟨-, -, layout, inside, beyond⟩ := hosts
    have mem := sub _ List.mem_cons_self rfl
    have listed := (hasInstances_of_mem wf ledger owned mem).2
    show Yields _ (run m b (.node (.block id) :: _) scopes text) _
    rw [run, Outline.render, Bindings.parts_block, List.headD_cons, List.tail_cons]
    refine (yields_enter text ledger (fun inst mem => listed inst (Array.mem_toList_iff.1 mem))
      ?_).bind fun s => ?_
    · intro inst owner rest text
      have body := Model.body_of_layout layout
      have left (written : String) : run m b (.leave :: rest) (⟨id, inst⟩ :: scopes) written =
          run m b rest scopes written := by rw [run, List.tail_cons]
      have hosted : m.Hosts (current (⟨id, inst⟩ :: scopes)) 0 inner := inside
      have inner := ihInner hosted (owned.enter owner)
        (fun ref mem => known ref (List.mem_append_left _ mem))
        (fun n mem _ => Array.mem_toList_iff.1 (body ▸ mem)) (.leave :: rest) text
      simp only [left] at inner
      rw [bodySteps, body, List.append_assoc]
      exact inner
    · exact ihRest beyond owned (fun ref mem => known ref (List.mem_append_right _ mem))
        (fun n mem => sub n (List.mem_cons_of_mem _ mem)) rest (text ++ s)

end Evaluation

/-! ## Bindings behave like sessions

Bindings represent a session when their pending instances are the marks of its outline and they know
its values. Every command keeps it so, and the texts are the same.
-/

namespace Outline

variable {α β : Type}

theorem map_number (f : β) (o : Outline α) (next : Nat) :
    (o.number next).map (fun _ => f) = o.map fun _ => f := by
  induction o generalizing next with
  | nil => rfl
  | text content rest ih => exact congrArg (text content) (ih next)
  | var name rest ih => exact congrArg (var name) (ih next)
  | block name mark inner rest ihInner ihRest => rw [number, map, ihInner, ihRest, map]

/-- Writing does not look at the marks. -/
theorem render_document (values : String → Option String) (m : Model) (b : Bindings)
    (o : Outline Nat) (scopes : List (String → Option String)) (parts : List (List Sealed)) :
    (b.document m o).render values scopes parts = o.render values scopes parts := by
  induction o generalizing scopes parts with
  | nil => rfl
  | text content rest ih => rw [Bindings.document, render, ih, render]
  | var name rest ih => rw [Bindings.document, render, ih, render]
  | block name id inner rest ihInner ihRest =>
    simp only [Bindings.document, render, ihInner, ihRest]

end Outline

namespace Bindings

variable {m : Model} {b : Bindings} {owners : List Nat} {o : Outline Nat}

theorem document_of_empty (empty : ∀ id, b.pendingOf id = #[]) :
    b.document m o = o.map fun _ => [] := by
  induction o with
  | nil => rfl
  | text content rest ih => exact congrArg (Outline.text content) ih
  | var name rest ih => exact congrArg (Outline.var name) ih
  | block name id inner rest ihInner ihRest =>
    rw [document, empty, ihInner, ihRest, Outline.map]
    rfl

theorem map_document (m : Model) (b : Bindings) (o : Outline Nat) :
    ((b.document m o).map fun _ => ([] : List Sealed)) = o.map fun _ => [] := by
  induction o with
  | nil => rfl
  | text content rest ih => exact congrArg (Outline.text content) ih
  | var name rest ih => exact congrArg (Outline.var name) ih
  | block name id inner rest ihInner ihRest =>
    rw [document, Outline.map, ihInner, ihRest, Outline.map]

structure Represents (m : Model) (o : Outline Nat) (b : Bindings) (s : Session) : Prop where
  document : s.document = b.document m o
  known : Known m b s.values o

theorem targets_eq (outlined : m.Outlined o) (name : String) :
    targets m name o = m.blocksNamed name := by
  have count : m.blockCount = m.blockCount - 1 + 1 := by
    have := m.nonempty
    rw [Model.blockCount]
    omega
  rw [← Model.named_eq_blocksNamed, Model.named, count, List.range_eq_range', List.range'_succ,
    List.filter_cons_of_neg (by simp [Model.root]), targets, outlined.marks]
  apply List.filter_congr
  intro id mem
  have top : id ≠ Model.root := Nat.ne_of_gt (List.mem_range'_1.1 mem).1
  simp [top]

theorem mem_vars_of_reference (outlined : m.Outlined o) {name : String}
    (mem : name ∈ o.references) : name ∈ m.vars.toList := by
  rw [outlined.vars]
  exact List.mem_eraseDups.2 mem

theorem value?_setValue (b : Bindings) (index other : Nat) (value : String)
    (bound : index < b.values.size) :
    (b.setValue index value).value? other =
      if other = index then some value else b.value? other := by
  rw [value?, setValue, Array.getElem?_setIfInBounds]
  by_cases same : other = index
  · simp [same, bound]
  · rw [if_neg (Ne.symm same), if_neg same]
    rfl

theorem Represents.ofModel (outlined : m.Outlined o) :
    Represents m o (ofModel m) (.start o) where
  document := (document_of_empty (pendingOf_ofModel m)).symm
  known ref mem := by
    refine ⟨mem_vars_of_reference outlined mem, ?_⟩
    rw [value?, Bindings.ofModel, Array.getElem?_replicate]
    split <;> rfl

theorem Represents.setValue (outlined : m.Outlined o) (ledger : Ledger m b owners) {s : Session}
    (h : Represents m o b s) {name : String} {index : Nat}
    (found : m.findVariable? name = some index) (value : String) :
    Represents m o (b.setValue index value) (s.step (.set name value)) where
  document := by
    have same : (b.setValue index value).document m o = b.document m o :=
      document_congr ledger (fun _ there => ⟨there, rfl⟩) fun _ _ => rfl
    exact h.document.trans same.symm
  known ref mem := by
    have there := mem_vars_of_reference outlined mem
    have number : m.indexOf name = index := Numbering.idxOf_toList found
    have bound : index < b.values.size := by
      rw [ledger.values]
      exact Numbering.lt_size_of_find? found
    have apart : m.indexOf ref = index ↔ ref = name := by
      rw [← number]
      exact List.idxOf_inj there
    refine ⟨there, ?_⟩
    rw [value?_setValue _ _ _ _ bound]
    show (if ref = name then some value else s.values ref) = _
    by_cases same : ref = name
    · rw [if_pos same, if_pos (apart.2 same)]
    · rw [if_neg same, if_neg (fun number => same (apart.1 number)), (h.known ref mem).2]

/-- A value for a name that the template does not refer to is never looked at. -/
theorem Represents.setUnknown {s : Session} (h : Represents m o b s) {name : String}
    (unknown : m.findVariable? name = none) (value : String) :
    Represents m o b (s.step (.set name value)) where
  document := h.document
  known ref mem := by
    obtain ⟨there, current⟩ := h.known ref mem
    have other : ref ≠ name := by
      rintro rfl
      exact Numbering.find?_eq_none_iff.1 unknown there
    refine ⟨there, ?_⟩
    show (if ref = name then some value else s.values ref) = _
    rw [if_neg other, current]

theorem Represents.sealBlocks (outlined : m.Outlined o) (ledger : Ledger m b owners) {s : Session}
    (h : Represents m o b s) (name : String) :
    Represents m o (b.sealBlocks m (m.blocksNamed name)) (s.step (.add name)) where
  document := by
    have distinct := outlined.nodup_allMarks
    have sealed := seals_of_hosts outlined.wellFormed s.values name outlined.hosts distinct
    rw [← targets_eq outlined, sealed b owners ledger h.known, ← h.document]
    rfl
  known ref mem := by
    rw [value?_sealBlocks]
    exact h.known ref mem

theorem Represents.step (outlined : m.Outlined o) (ledger : Ledger m b owners) {s : Session}
    (h : Represents m o b s) (command : Command) :
    Represents m o (b.step m command) (s.step command) := by
  cases command with
  | set name value =>
    rw [step_set]
    cases found : m.findVariable? name with
    | none => exact h.setUnknown found value
    | some index => exact h.setValue outlined ledger found value
  | add name =>
    rw [step_add]
    exact h.sealBlocks outlined ledger name
  | clear =>
    have same : s.step .clear = .start o := by
      rw [Session.step, Session.start, h.document, map_document]
      rfl
    rw [step_clear, ledger.clear_eq, same]
    exact .ofModel outlined

/-- Further commands keep the bindings and the session together. -/
theorem Represents.foldl (outlined : m.Outlined o) (ledger : Ledger m b owners) {s : Session}
    (h : Represents m o b s) (commands : List Command) :
    Represents m o (commands.foldl (Bindings.step m) b) (s.after commands) := by
  induction commands generalizing b owners s with
  | nil => exact h
  | cons command commands ih =>
    exact ih (ledger.step outlined.wellFormed command) (h.step outlined ledger command)

theorem Represents.of_after (outlined : m.Outlined o) (commands : List Command) :
    Represents m o (after m commands) ((Session.start o).after commands) :=
  (Represents.ofModel outlined).foldl outlined (.ofModel outlined.wellFormed) commands

/-- Bindings write what the session writes. -/
theorem Represents.render_eq (outlined : m.Outlined o) (ledger : Ledger m b owners) {s : Session}
    (h : Represents m o b s) : b.render m = s.render := by
  have body := Model.body_of_layout outlined.body
  have hosted : m.Hosts (Evaluation.current []) 0 o := outlined.hosts
  have nobody : Evaluation.Owned owners [] := by simp [Evaluation.Owned]
  have written := Evaluation.yields_render outlined.wellFormed ledger hosted nobody h.known
    (fun n mem _ => Array.mem_toList_iff.1 (body ▸ mem)) [] ""
  rw [List.append_nil, ← body] at written
  have reference : s.render = o.render s.values (Evaluation.sealedValues m b [])
      (b.parts m (Evaluation.instancesOf m b []) o) := by
    rw [Session.render, h.document, Outline.render_document, marks_document]
    rfl
  rw [← reference] at written
  unfold Bindings.render Evaluation.render
  generalize Evaluation.run m b _ [] "" = outcome at written ⊢
  cases result : s.render with
  | error e =>
    rw [result] at written
    have stopped : outcome.error = some e := written
    simp only [stopped]
  | ok text =>
    rw [result] at written
    have done : outcome = ⟨text, [], none⟩ := by
      have there : outcome = Evaluation.run m b [] [] ("" ++ text) := written
      rw [there, String.empty_append, Evaluation.run]
    rw [done]

end Bindings

/-- Whatever is done to the bindings of a compiled template, they write what the session on the
template's outline writes, or they stop at the same variable. -/
theorem render_eq_session {source : String} {flags : FlagSet} {options : Options}
    {loader : Option Loader} {m : Model} (h : compile source flags options loader = .ok m) :
    ∃ o, Outline.ofSource source flags options loader = .ok o ∧ ∀ commands,
      (Bindings.after m commands).render m = ((Session.start o).after commands).render := by
  obtain ⟨o, found, outlined⟩ := exists_outlined_of_compile h
  refine ⟨o, found, fun commands => ?_⟩
  have start : Session.start (o.number 1) = Session.start o := by
    rw [Session.start, Outline.map_number, Session.start]
  have ledger := Bindings.Ledger.of_after outlined.wellFormed commands
  rw [(Bindings.Represents.of_after outlined commands).render_eq outlined ledger, start]

theorem render_rows :
    ∃ m, compile "[beginblock:row]{x}[endblock:row]" .empty {} none = .ok m ∧
      ∃ o, Outline.ofSource "[beginblock:row]{x}[endblock:row]" .empty {} none = .ok o ∧
        ∀ commands,
          (Bindings.after m commands).render m = ((Session.start o).after commands).render := by
  obtain ⟨m, compiled⟩ := compile_rows
  exact ⟨m, compiled, render_eq_session compiled⟩

end Stencil
