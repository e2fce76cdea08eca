import Stencil.Proofs.Session.Sealing

/-! # What stays as it was sealed

Evaluation reads little of the bindings, and none of what it reads inside an instance changes any
more.
-/

/-! ## Steps in sequence

Doing some steps and then others is doing all of them, each step adds its own text, and the steps
that write a node or an instance leave the scopes as they were. So a document is written part by
part: its text is that of the nodes of the template, and the text of a block is that of its
instances.
-/

namespace Stencil

namespace Outline

theorem concat_append (first second : List (Except UnboundVariable String)) :
    concat (first ++ second) =
      (concat first).bind fun here => (concat second).map fun after => here ++ after := by
  induction first with
  | nil =>
    show concat second = (concat second).map fun after => "" ++ after
    cases concat second <;> simp [Except.map]
  | cons part first ih =>
    rw [List.cons_append, concat, concat, ih]
    cases part with
    | error e => rfl
    | ok text =>
      cases concat first with
      | error e => rfl
      | ok here => cases concat second <;> simp [bind, Except.bind, Except.map, String.append_assoc]

theorem exists_of_concat {parts : List (Except UnboundVariable String)} {whole : String}
    (h : concat parts = .ok whole) : ∀ part ∈ parts, ∃ text, part = .ok text := by
  induction parts generalizing whole with
  | nil => simp
  | cons first parts ih =>
    obtain ⟨text, here, h⟩ := Except.bind_eq_ok_iff.1 h
    obtain ⟨others, onward, -⟩ := Except.bind_eq_ok_iff.1 h
    intro part mem
    rcases List.mem_cons.1 mem with rfl | mem
    · exact ⟨text, here⟩
    · exact ih onward part mem

end Outline

namespace Evaluation

variable {m : Model} {b : Bindings}

def Outcome.result (o : Outcome) : Except UnboundVariable String :=
  match o.error with
  | none => .ok o.text
  | some e => .error e

theorem Outcome.result_eq (o : Outcome) : o.result = o.error.elim (.ok o.text) .error := by
  rw [result]
  cases o.error <;> rfl

def written (m : Model) (b : Bindings) (step : Step) : Except UnboundVariable String :=
  (run m b [step] [] "").result

theorem run_append (first second : List Step) (scopes : List Scope) (text : String) :
    run m b (first ++ second) scopes text =
      match (run m b first scopes text).error with
      | none => run m b second (run m b first scopes text).scopes (run m b first scopes text).text
      | some _ => run m b first scopes text := by
  fun_induction run m b first scopes text with
  | case1 scopes text => rfl
  | case2 s rest scopes text ih => rw [List.cons_append, run, ih]
  | case3 index slot rest scopes text s found ih =>
    rw [List.cons_append, run, found]
    exact ih
  | case4 index slot rest scopes text missing => rw [List.cons_append, run, missing]
  | case5 id rest scopes text ih =>
    rw [List.append_assoc] at ih
    rw [List.cons_append, run, ih]
  | case6 block inst rest scopes text there ih =>
    rw [List.append_assoc] at ih
    rw [List.cons_append, run, if_pos there, ih]
  | case7 block inst rest scopes text missing ih =>
    rw [List.cons_append, run, if_neg missing, ih]
  | case8 rest scopes text ih => rw [List.cons_append, run, ih]

/-- Steps do not look at the text before them. -/
theorem run_append_text (before : String) (steps : List Step) (scopes : List Scope)
    (text : String) :
    run m b steps scopes (before ++ text) =
      { run m b steps scopes text with text := before ++ (run m b steps scopes text).text } := by
  fun_induction run m b steps scopes text with
  | case1 scopes text => rw [run]
  | case2 s rest scopes text ih => rw [run, String.append_assoc, ih]
  | case3 index slot rest scopes text s found ih => rw [run, found, ← ih, ← String.append_assoc]
  | case4 index slot rest scopes text missing => rw [run, missing]
  | case5 id rest scopes text ih => rw [run, ih]
  | case6 block inst rest scopes text there ih => rw [run, if_pos there, ih]
  | case7 block inst rest scopes text missing ih => rw [run, if_neg missing, ih]
  | case8 rest scopes text ih => rw [run, ih]

/-- Steps that come to an end have left as many scopes as they say. -/
theorem scopes_run {steps : List Step} {scopes : List Scope} {text : String}
    (ends : (run m b steps scopes text).error = none) :
    (run m b steps scopes text).scopes = scopes.drop (steps.count .leave) := by
  fun_induction run m b steps scopes text with
  | case1 scopes text => rfl
  | case2 s rest scopes text ih => rw [ih ends, List.count_cons_of_ne (by simp)]
  | case3 index slot rest scopes text s found ih =>
    rw [ih ends, List.count_cons_of_ne (by simp)]
  | case4 index slot rest scopes text missing => cases ends
  | case5 id rest scopes text ih =>
    have none : ((instancesOf m b scopes id).toList.map (Step.enter id)).count .leave = 0 := by
      simp [List.count_eq_zero]
    rw [ih ends, List.count_append, none, List.count_cons_of_ne (by simp), Nat.zero_add]
  | case6 block inst rest scopes text there ih =>
    have once : (bodySteps m block).count .leave = 1 := by
      simp [bodySteps, List.count_eq_zero.2]
    rw [ih ends, List.count_append, once, List.count_cons_of_ne (by simp), Nat.add_comm,
      List.drop_succ_cons]
  | case7 block inst rest scopes text missing ih =>
    rw [ih ends, List.count_cons_of_ne (by simp)]
  | case8 rest scopes text ih =>
    rw [ih ends, List.count_cons_self, List.drop_tail]

/-- Steps that leave no scope write their texts one after another. -/
theorem result_run_eq_concat {steps : List Step} (stays : .leave ∉ steps) :
    (run m b steps [] "").result = Outline.concat (steps.map (written m b)) := by
  induction steps with
  | nil => rw [run]; rfl
  | cons step rest ih =>
    have stays' : .leave ∉ rest := fun mem => stays (List.mem_cons_of_mem step mem)
    have here : [step].count .leave = 0 :=
      List.count_eq_zero.2 fun mem => stays (List.mem_singleton.1 mem ▸ List.mem_cons_self)
    rw [List.map_cons, Outline.concat, ← ih stays', ← List.singleton_append, run_append]
    cases stopped : (run m b [step] [] "").error with
    | some e => simp only [written, Outcome.result, stopped]; rfl
    | none =>
      simp only [written, Outcome.result, stopped]
      rw [scopes_run stopped, here, List.drop_zero]
      have onward := run_append_text (run m b [step] [] "").text rest [] "" (m := m) (b := b)
      rw [String.append_empty] at onward
      rw [onward]
      simp only
      cases (run m b rest [] "").error <;> rfl

end Evaluation

namespace Bindings

open Evaluation

variable {m : Model} {b : Bindings}

/-- What an instance of a block that stands in no other block adds to the text of a document. -/
def contribution (m : Model) (b : Bindings) (block inst : Nat) : Except UnboundVariable String :=
  written m b (.enter block inst)

def output (m : Model) (b : Bindings) (block : Nat) : Except UnboundVariable String :=
  written m b (.node (.block block))

theorem render_eq_result (m : Model) (b : Bindings) :
    b.render m = (Evaluation.render m b [] Model.root).result := by
  unfold Bindings.render Outcome.result
  rfl

/-- A document is written node by node. -/
theorem render_eq_concat (m : Model) (b : Bindings) :
    b.render m =
      Outline.concat ((m.block Model.root).body.toList.map fun n => written m b (.node n)) := by
  rw [render_eq_result, Evaluation.render, result_run_eq_concat (by simp), List.map_map]
  rfl

/-- A block is written instance by instance. -/
theorem output_eq_concat (m : Model) (b : Bindings) (block : Nat) :
    b.output m block =
      Outline.concat ((b.pendingOf block).toList.map (b.contribution m block)) := by
  rw [output, written, run, List.append_nil, result_run_eq_concat (by simp), List.map_map]
  rfl

end Bindings

/-! ## What evaluation reads

Inside an instance evaluation reads only instances that were sealed before it, and outside all
instances the current values and the pending instances of what it writes. Bindings that agree on
what is read are written alike.

Main statement: sealed instances are final. Whatever is set or added later, they stay, what they
contribute to the text stays, and the blocks of the document only gain text at their ends.
-/

namespace Evaluation

variable {m : Model} {b c : Bindings} {owners : List Nat}

/-- The bindings agree on what a node reads outside all instances. -/
def Agree (b c : Bindings) : Node → Prop
  | .literal _ => True
  | .var index _ => c.value? index = b.value? index
  | .block id => c.pendingOf id = b.pendingOf id

/-- Steps that read alike in `b` and in `c`: what they read outside all instances is the same, and
they enter instances of `b` only. -/
def Framed (b c : Bindings) : List Step → List Scope → Prop
  | [], _ => True
  | .node n :: rest, scopes => (scopes = [] → Agree b c n) ∧ Framed b c rest scopes
  | .enter _ inst :: rest, scopes => inst < b.instances.size ∧ Framed b c rest scopes
  | .leave :: rest, scopes => Framed b c rest scopes.tail

theorem framed_nodes {nodes : List Node} {rest : List Step} {scopes : List Scope}
    (agree : scopes = [] → ∀ n ∈ nodes, Agree b c n) (framed : Framed b c rest scopes) :
    Framed b c (nodes.map .node ++ rest) scopes := by
  induction nodes with
  | nil => exact framed
  | cons n nodes ih =>
    exact ⟨fun outside => agree outside n List.mem_cons_self,
      ih fun outside other mem => agree outside other (List.mem_cons_of_mem n mem)⟩

theorem framed_enter {block : Nat} {ids : List Nat} {rest : List Step} {scopes : List Scope}
    (there : ∀ inst ∈ ids, inst < b.instances.size) (framed : Framed b c rest scopes) :
    Framed b c (ids.map (.enter block) ++ rest) scopes := by
  induction ids with
  | nil => exact framed
  | cons inst ids ih =>
    exact ⟨there inst List.mem_cons_self,
      ih fun other mem => there other (List.mem_cons_of_mem inst mem)⟩

theorem framed_body {block : Nat} {scope : Scope} {rest : List Step} {scopes : List Scope}
    (framed : Framed b c rest scopes) :
    Framed b c (bodySteps m block ++ rest) (scope :: scopes) := by
  rw [bodySteps, List.append_assoc]
  exact framed_nodes (fun outside => by cases outside) framed

theorem value?_congr (keeps : b.Keeps c) {scopes : List Scope} {index slot : Nat}
    (inside : ∀ scope ∈ scopes, scope.inst < b.instances.size)
    (agree : scopes = [] → c.value? index = b.value? index) :
    value? m c scopes index slot = value? m b scopes index slot := by
  cases scopes with
  | nil => exact agree rfl
  | cons innermost outer =>
    have here := (keeps innermost.inst (inside innermost List.mem_cons_self)).2
    have around : ∀ scope ∈ outer, c.instanceAt scope.inst = b.instanceAt scope.inst :=
      fun scope mem => (keeps scope.inst (inside scope (List.mem_cons_of_mem innermost mem))).2
    rw [value?, value?, here]
    congr 1
    clear here agree inside
    induction outer with
    | nil => rfl
    | cons scope outer ih =>
      rw [List.findSome?_cons, List.findSome?_cons, around scope List.mem_cons_self,
        ih fun other mem => around other (List.mem_cons_of_mem scope mem)]

theorem instancesOf_congr (keeps : b.Keeps c) {scopes : List Scope} {block : Nat}
    (inside : ∀ scope ∈ scopes, scope.inst < b.instances.size)
    (agree : scopes = [] → c.pendingOf block = b.pendingOf block) :
    instancesOf m c scopes block = instancesOf m b scopes block := by
  cases scopes with
  | nil => exact agree rfl
  | cons innermost outer =>
    rw [instancesOf, instancesOf, (keeps innermost.inst (inside innermost List.mem_cons_self)).2]

/-- The instances that are written where a block stands are there. -/
theorem lt_of_mem_instancesOf (ledger : b.Ledger m owners) {scopes : List Scope} {block : Nat}
    (inside : ∀ scope ∈ scopes, scope.inst < b.instances.size) :
    ∀ inst ∈ instancesOf m b scopes block, inst < b.instances.size := by
  intro inst mem
  cases scopes with
  | nil => exact ledger.pending_lt mem
  | cons innermost outer => exact ledger.part_lt (inside innermost List.mem_cons_self) mem

/-- Steps that read alike do alike. -/
theorem run_eq_of_framed (ledger : b.Ledger m owners) (keeps : b.Keeps c) {steps : List Step}
    {scopes : List Scope} {text : String} (framed : Framed b c steps scopes)
    (inside : ∀ scope ∈ scopes, scope.inst < b.instances.size) :
    run m c steps scopes text = run m b steps scopes text := by
  fun_induction run m b steps scopes text with
  | case1 scopes text => rw [run]
  | case2 s rest scopes text ih => rw [run, ih framed.2 inside]
  | case3 index slot rest scopes text s found ih =>
    rw [run, value?_congr keeps inside framed.1, found]
    exact ih framed.2 inside
  | case4 index slot rest scopes text missing =>
    rw [run, value?_congr keeps inside framed.1, missing]
  | case5 id rest scopes text ih =>
    have listed : ∀ inst ∈ instancesOf m b scopes id, inst < b.instances.size :=
      lt_of_mem_instancesOf ledger inside
    rw [run, instancesOf_congr keeps inside framed.1]
    exact ih (framed_enter (fun inst mem => listed inst (Array.mem_toList_iff.1 mem)) framed.2)
      inside
  | case6 block inst rest scopes text there ih =>
    rw [run, if_pos (keeps inst there).1]
    refine ih (framed_body framed.2) fun scope mem => ?_
    rcases List.mem_cons.1 mem with rfl | mem
    · exact there
    · exact inside scope mem
  | case7 block inst rest scopes text missing ih => exact absurd framed.1 missing
  | case8 rest scopes text ih =>
    rw [run]
    exact ih framed fun scope mem => inside scope (List.mem_of_mem_tail mem)

end Evaluation

namespace Bindings

open Evaluation

variable {m : Model} {b c d : Bindings} {owners : List Nat}

/-- What an instance contributes does not change while the instances before it stay. -/
theorem contribution_eq (ledger : Ledger m b owners) (keeps : Keeps b c) {block inst : Nat}
    (there : inst < b.instances.size) :
    c.contribution m block inst = b.contribution m block inst := by
  have framed : Framed b c [.enter block inst] [] := ⟨there, trivial⟩
  rw [contribution, written, run_eq_of_framed ledger keeps framed (by simp)]
  rfl

/-! ### Setting a variable that the document does not show -/

theorem render_set_of_not_shown (ledger : Ledger m b owners) {name : String}
    (hidden : ∀ index slot, .var index slot ∈ (m.block Model.root).body →
      m.variableName index ≠ name) (value : String) :
    (b.step m (.set name value)).render m = b.render m := by
  rw [step_set]
  cases found : m.findVariable? name with
  | none => rfl
  | some number =>
    have named : m.variableName number = name := by
      rw [Model.variableName, Numbering.find?_eq_some_iff.1 found, Option.getD_some]
    have framed : Framed b (b.setValue number value)
        ((m.block Model.root).body.toList.map .node ++ []) [] := by
      refine framed_nodes (fun _ n mem => ?_) trivial
      cases n with
      | literal text => trivial
      | block id => rfl
      | var index slot =>
        refine value?_setValue_of_ne (fun same => ?_) value
        exact hidden index slot (Array.mem_toList_iff.1 mem) (same ▸ named)
    rw [List.append_nil] at framed
    have keeps : Keeps b (b.setValue number value) := fun _ there => ⟨there, rfl⟩
    rw [Bindings.render, Evaluation.render, run_eq_of_framed ledger keeps framed (by simp)]
    rfl

end Bindings

/-! ## Sealed instances are final

However variables are set and blocks are added, instances stay as they were sealed, and so does what
they contribute to the text; the blocks that stand in no other block only gain text at their ends.
-/

namespace Bindings

variable {m : Model} {b c d : Bindings} {owners : List Nat}

/-- Every instance stays, and the blocks that stand in no other block only gain instances. -/
structure Grows (m : Model) (b c : Bindings) : Prop where
  instances : ∀ id, id < b.instances.size → c.instances[id]? = b.instances[id]?
  pending : ∀ block, (m.block block).parent = some Model.root →
    (b.pendingOf block).toList <+: (c.pendingOf block).toList

theorem Grows.refl (m : Model) (b : Bindings) : Grows m b b :=
  ⟨fun _ _ => rfl, fun _ _ => List.prefix_rfl⟩

theorem Grows.lt (grows : Grows m b c) {id : Nat} (there : id < b.instances.size) :
    id < c.instances.size := by
  have same := grows.instances id there
  rw [Array.getElem?_eq_getElem there] at same
  exact (Array.getElem?_eq_some_iff.1 same).1

theorem Grows.keeps (grows : Grows m b c) : Keeps b c := by
  intro id there
  exact ⟨grows.lt there, by rw [instanceAt, grows.instances id there, instanceAt]⟩

theorem Grows.trans (first : Grows m b c) (second : Grows m c d) : Grows m b d where
  instances id there := (second.instances id (first.lt there)).trans (first.instances id there)
  pending block above := (first.pending block above).trans (second.pending block above)

theorem grows_sealBlock (wf : m.WellFormed) (ledger : Ledger m b owners) {block : Nat}
    (top : block ≠ Model.root) (bound : block < m.blockCount) :
    Grows m b (b.sealBlock m block) where
  instances id there := getElem?_sealBlock m b block there
  pending other above := by
    rw [ledger.pendingOf_sealBlock wf bound, if_neg (wf.not_child above (Ne.symm top))]
    split
    · rw [Array.toList_push]
      exact List.prefix_append _ _
    · exact List.prefix_rfl

theorem grows_sealBlocks (wf : m.WellFormed) (ledger : Ledger m b owners) {blocks : List Nat}
    (named : ∀ block ∈ blocks, block ≠ Model.root ∧ block < m.blockCount) :
    Grows m b (b.sealBlocks m blocks) := by
  induction blocks generalizing b owners with
  | nil => exact .refl m b
  | cons first rest ih =>
    obtain ⟨top, bound⟩ := named first List.mem_cons_self
    have onward := ih (ledger.sealBlock wf top bound) fun block mem =>
      named block (List.mem_cons_of_mem first mem)
    exact (grows_sealBlock wf ledger top bound).trans onward

theorem grows_step (wf : m.WellFormed) (ledger : Ledger m b owners) {command : Command}
    (kept : command ≠ .clear) : Grows m b (b.step m command) := by
  cases command with
  | set name value =>
    rw [step_set]
    cases m.findVariable? name with
    | none => exact .refl m b
    | some index => exact ⟨fun _ _ => rfl, fun _ _ => List.prefix_rfl⟩
  | add name =>
    rw [step_add]
    refine grows_sealBlocks wf ledger fun block mem => ?_
    obtain ⟨bound, top, -⟩ := Model.mem_blocksNamed.1 mem
    exact ⟨top, bound⟩
  | clear => exact absurd rfl kept

/-- Bindings grow along every run that does not clear them. -/
theorem grows_run (wf : m.WellFormed) (ledger : Ledger m b owners) {commands : List Command}
    (kept : .clear ∉ commands) : Grows m b (commands.foldl (step m) b) := by
  induction commands generalizing b owners with
  | nil => exact .refl m b
  | cons command commands ih =>
    have here : command ≠ .clear := fun same => kept (same ▸ List.mem_cons_self)
    exact (grows_step wf ledger here).trans
      (ih (ledger.step wf command) fun mem => kept (List.mem_cons_of_mem command mem))

/-! ### The text of a block -/

/-- If a document can be written, so can each of its blocks. -/
theorem exists_output (wf : m.WellFormed) {whole : String} (h : b.render m = .ok whole)
    {block : Nat} (above : (m.block block).parent = some Model.root) :
    ∃ text, b.output m block = .ok text := by
  obtain ⟨top, bound⟩ := wf.bounds_of_parent above
  obtain ⟨outer, -, above', place⟩ := wf.parent block top bound
  rw [above, Option.some.injEq] at above'
  subst above'
  rw [render_eq_concat] at h
  exact Outline.exists_of_concat h _
    (List.mem_map.2 ⟨.block block, Array.mem_toList_iff.2 place, rfl⟩)

/-- The text of a block that stands in no other block only grows at its end. -/
theorem Grows.output (grows : Grows m b c) (ledger : Ledger m b owners) {block : Nat}
    (above : (m.block block).parent = some Model.root) {text later : String}
    (before : b.output m block = .ok text) (after : c.output m block = .ok later) :
    ∃ more, later = text ++ more := by
  obtain ⟨added, pending⟩ := grows.pending block above
  have same : (b.pendingOf block).toList.map (c.contribution m block) =
      (b.pendingOf block).toList.map (b.contribution m block) := by
    apply List.map_congr_left
    intro inst mem
    exact contribution_eq ledger grows.keeps (ledger.pending_lt (Array.mem_toList_iff.1 mem))
  rw [output_eq_concat, ← pending, List.map_append, same, Outline.concat_append,
    ← output_eq_concat, before] at after
  obtain ⟨more, -, rfl⟩ := Except.map_eq_ok_iff.1 after
  exact ⟨more, rfl⟩

structure Final (m : Model) (commands later : List Command) : Prop where
  /-- Every instance stays as it was sealed. -/
  instances : ∀ id, id < (after m commands).instances.size →
    (after m (commands ++ later)).instances[id]? = (after m commands).instances[id]?
  /-- An instance of a block that stands in no other block contributes what it did. -/
  contribution : ∀ inst block, (sealedBlocks m commands)[inst]? = some block →
    (m.block block).parent = some Model.root →
    (after m (commands ++ later)).contribution m block inst =
      (after m commands).contribution m block inst
  /-- Such a block has its earlier text as the beginning of its later text. -/
  output : ∀ whole whole', (after m commands).render m = .ok whole →
    (after m (commands ++ later)).render m = .ok whole' →
    ∀ block, (m.block block).parent = some Model.root → ∃ text more,
      (after m commands).output m block = .ok text ∧
        (after m (commands ++ later)).output m block = .ok (text ++ more)

end Bindings

open Bindings in
/-- On a compiled template sealed instances are final: no setting of variables and adding of blocks
changes them or what they contribute. A document is written node by node, and a block of it instance
by instance; so setting a variable that only blocks refer to leaves its text or its error. -/
theorem final_of_compile {source : String} {flags : FlagSet} {options : Options}
    {loader : Option Loader} {m : Model} (h : compile source flags options loader = .ok m)
    (commands : List Command) {later : List Command} (kept : .clear ∉ later) :
    Final m commands later ∧
      (after m commands).render m = Outline.concat ((m.block Model.root).body.toList.map fun n =>
        Evaluation.written m (after m commands) (.node n)) ∧
      (∀ block, (after m commands).output m block =
        Outline.concat (((after m commands).pendingOf block).toList.map
          ((after m commands).contribution m block))) ∧
      ∀ name value, (∀ index slot, .var index slot ∈ (m.block Model.root).body →
          m.variableName index ≠ name) →
        ((after m commands).step m (.set name value)).render m = (after m commands).render m := by
  obtain ⟨o, -, outlined⟩ := exists_outlined_of_compile h
  have wf := outlined.wellFormed
  have ledger := Ledger.of_after wf commands
  have grows : Grows m (after m commands) (after m (commands ++ later)) := by
    rw [after, after, List.foldl_append]
    exact grows_run wf ledger kept
  refine ⟨⟨grows.instances, ?_, ?_⟩, render_eq_concat _ _, output_eq_concat _ _, ?_⟩
  · intro inst block owned _
    refine contribution_eq ledger grows.keeps ?_
    rw [ledger.instances]
    exact lt_of_owner owned
  · intro whole whole' before now block above
    obtain ⟨text, earlier⟩ := exists_output wf before above
    obtain ⟨text', present⟩ := exists_output wf now above
    obtain ⟨more, rfl⟩ := grows.output ledger above earlier present
    exact ⟨text, more, earlier, present⟩
  · exact fun name value hidden => render_set_of_not_shown ledger hidden value

open Bindings in
theorem final_rows :
    ∃ m, compile "[beginblock:row]{x}[endblock:row]" .empty {} none = .ok m ∧
      let commands : List Command := [.set "x" "1", .add "row"]
      let later : List Command := [.set "x" "2", .add "row"]
      .clear ∉ later ∧ Final m commands later ∧
      (after m commands).render m = Outline.concat ((m.block Model.root).body.toList.map fun n =>
        Evaluation.written m (after m commands) (.node n)) ∧
      (∀ block, (after m commands).output m block =
        Outline.concat (((after m commands).pendingOf block).toList.map
          ((after m commands).contribution m block))) ∧
      ∀ name value, (∀ index slot, .var index slot ∈ (m.block Model.root).body →
          m.variableName index ≠ name) →
        ((after m commands).step m (.set name value)).render m = (after m commands).render m := by
  obtain ⟨m, compiled⟩ := compile_rows
  have kept : Command.clear ∉ [Command.set "x" "2", .add "row"] := by decide
  exact ⟨m, compiled, kept, final_of_compile compiled _ kept⟩

end Stencil
