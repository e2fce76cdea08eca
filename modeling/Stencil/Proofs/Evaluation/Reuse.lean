import Stencil.Proofs.Evaluation.Finality

/-! # Writing on from the scopes left open

Bodies of blocks are written one after another, each from the scopes that the one before has left.
A writing that comes to an end leaves the scopes as it found them. A variable without a value stops
a writing at once; the instances around the variable then stay open, and what is written next reads
them.

Main statement: up to and including the first writing that is stopped inside an instance, each is as
it would be on its own.
-/

namespace Stencil

namespace Evaluation

variable {m : Model} {b : Bindings}

def renderOnto (m : Model) (b : Bindings) (scopes : List Scope) (block : Nat) (text : String) :
    Outcome :=
  run m b ((m.block block).body.toList.map .node) scopes text

/-- Writes the bodies of blocks one after another, each at the end of a text of its own, and from
the scopes that the one before has left. -/
def renderAll (m : Model) (b : Bindings) : List Scope → List (Nat × String) → List Outcome
  | _, [] => []
  | scopes, (block, text) :: calls =>
    let here := renderOnto m b scopes block text
    here :: renderAll m b here.scopes calls

/-- The scopes that are open while the body of `inner` is written, where the body of `block` is
written from the scopes `found`: each instance on top of them is listed where its block stands. -/
inductive Within (m : Model) (b : Bindings) (block : Nat) (found : List Scope) :
    (inner : Nat) → List Scope → Prop
  | body : Within m b block found block found
  | enter {outer id inst : Nat} {scopes : List Scope} (around : Within m b block found outer scopes)
    (place : .block id ∈ (m.block outer).body) (listed : inst ∈ instancesOf m b scopes id)
    (there : inst < b.instances.size) : Within m b block found id (⟨id, inst⟩ :: scopes)

/-- The scopes left by a writing that a variable without a value has stopped: those that are open
where the variable stands. -/
def StoppedAt (m : Model) (b : Bindings) (block : Nat) (found left : List Scope)
    (e : UnboundVariable) : Prop :=
  ∃ inner index slot, Within m b block found inner left ∧
    .var index slot ∈ (m.block inner).body ∧ value? m b left index slot = none ∧
    e = ⟨m.variableName index⟩

/-- The steps that are left when the body of a block is being written: each is met where it
stands. -/
def Due (m : Model) (b : Bindings) (block : Nat) (found : List Scope) :
    List Step → List Scope → Prop
  | [], _ => True
  | .node n :: rest, scopes =>
    (∃ inner, Within m b block found inner scopes ∧ n ∈ (m.block inner).body) ∧
      Due m b block found rest scopes
  | .enter id inst :: rest, scopes =>
    (inst < b.instances.size → Within m b block found id (⟨id, inst⟩ :: scopes)) ∧
      Due m b block found rest scopes
  | .leave :: rest, scopes => Due m b block found rest scopes.tail

section

variable {block : Nat} {found : List Scope}

theorem due_nodes {inner : Nat} {nodes : List Node} {rest : List Step} {scopes : List Scope}
    (within : Within m b block found inner scopes) (sub : ∀ n ∈ nodes, n ∈ (m.block inner).body)
    (due : Due m b block found rest scopes) :
    Due m b block found (nodes.map .node ++ rest) scopes := by
  induction nodes with
  | nil => exact due
  | cons n nodes ih =>
    exact ⟨⟨inner, within, sub n List.mem_cons_self⟩,
      ih fun other mem => sub other (List.mem_cons_of_mem n mem)⟩

theorem due_enter {inner id : Nat} {ids : List Nat} {rest : List Step} {scopes : List Scope}
    (within : Within m b block found inner scopes) (place : .block id ∈ (m.block inner).body)
    (listed : ∀ inst ∈ ids, inst ∈ instancesOf m b scopes id)
    (due : Due m b block found rest scopes) :
    Due m b block found (ids.map (.enter id) ++ rest) scopes := by
  induction ids with
  | nil => exact due
  | cons inst ids ih =>
    exact ⟨.enter within place (listed inst List.mem_cons_self),
      ih fun other mem => listed other (List.mem_cons_of_mem inst mem)⟩

theorem due_body {id : Nat} {scope : Scope} {rest : List Step} {scopes : List Scope}
    (within : Within m b block found id (scope :: scopes))
    (due : Due m b block found rest scopes) :
    Due m b block found (bodySteps m id ++ rest) (scope :: scopes) := by
  rw [bodySteps, List.append_assoc]
  exact due_nodes within (fun n mem => Array.mem_toList_iff.1 mem) due

/-- Steps that are met where they stand stop where a variable stands. -/
theorem stoppedAt_of_due {steps : List Step} {scopes : List Scope} {text : String}
    (due : Due m b block found steps scopes) {e : UnboundVariable}
    (stopped : (run m b steps scopes text).error = some e) :
    StoppedAt m b block found (run m b steps scopes text).scopes e := by
  fun_induction run m b steps scopes text with
  | case1 scopes text => cases stopped
  | case2 s rest scopes text ih => exact ih due.2 stopped
  | case3 index slot rest scopes text s known ih => exact ih due.2 stopped
  | case4 index slot rest scopes text missing =>
    obtain ⟨⟨inner, within, mem⟩, -⟩ := due
    cases stopped
    exact ⟨inner, index, slot, within, mem, missing, rfl⟩
  | case5 id rest scopes text ih =>
    obtain ⟨⟨inner, within, mem⟩, due⟩ := due
    exact ih (due_enter within mem (fun inst listed => Array.mem_toList_iff.1 listed) due) stopped
  | case6 id inst rest scopes text there ih => exact ih (due_body (due.1 there) due.2) stopped
  | case7 id inst rest scopes text missing ih => exact ih due.2 stopped
  | case8 rest scopes text ih => exact ih due stopped

/-- The scopes found stay at the bottom of the stack. -/
theorem Within.exists_append {inner : Nat} {left : List Scope}
    (within : Within m b block found inner left) : ∃ opened, left = opened ++ found := by
  induction within with
  | body => exact ⟨[], rfl⟩
  | enter around place listed there ih =>
    obtain ⟨opened, rfl⟩ := ih
    exact ⟨_ :: opened, rfl⟩

end

theorem renderOnto_eq (m : Model) (b : Bindings) (scopes : List Scope) (block : Nat)
    (text : String) :
    renderOnto m b scopes block text =
      { render m b scopes block with text := text ++ (render m b scopes block).text } := by
  have onward := run_append_text (m := m) (b := b) text
    ((m.block block).body.toList.map .node) scopes ""
  rw [String.append_empty] at onward
  exact onward

/-- A writing that comes to an end leaves the scopes as it found them. -/
theorem scopes_renderOnto {scopes : List Scope} {block : Nat} {text : String}
    (ends : (renderOnto m b scopes block text).error = none) :
    (renderOnto m b scopes block text).scopes = scopes := by
  have stays : ((m.block block).body.toList.map Step.node).count .leave = 0 := by
    simp [List.count_eq_zero]
  rw [renderOnto] at ends ⊢
  rw [scopes_run ends, stays, List.drop_zero]

theorem stoppedAt_renderOnto {scopes : List Scope} {block : Nat} {text : String}
    {e : UnboundVariable} (stopped : (renderOnto m b scopes block text).error = some e) :
    StoppedAt m b block scopes (renderOnto m b scopes block text).scopes e := by
  have due : Due m b block scopes ((m.block block).body.toList.map .node ++ []) scopes :=
    due_nodes .body (fun n mem => Array.mem_toList_iff.1 mem) trivial
  rw [List.append_nil] at due
  exact stoppedAt_of_due due stopped

theorem renderAll_append (scopes : List Scope) (first second : List (Nat × String))
    (closed : ∀ call ∈ first, (renderOnto m b scopes call.1 call.2).scopes = scopes) :
    renderAll m b scopes (first ++ second) =
      first.map (fun call => renderOnto m b scopes call.1 call.2) ++
        renderAll m b scopes second := by
  induction first with
  | nil => rfl
  | cons call first ih =>
    have here := closed call List.mem_cons_self
    rw [List.cons_append, renderAll, here, List.map_cons, List.cons_append,
      ih fun other mem => closed other (List.mem_cons_of_mem call mem)]

/-- Bodies are written one after another from no scopes. A writing adds its own text, whatever
stands before it; one that comes to an end leaves the scopes it found, and one that is stopped
leaves on top of them the instances around the variable. So each writing is as on its own while
those before it have been stopped in no instance; what follows the first that is starts from its
instances. -/
theorem renderAll_of_closed (m : Model) (b : Bindings) :
    (∀ (scopes : List Scope) (block : Nat) (text : String),
      renderOnto m b scopes block text =
          { render m b scopes block with text := text ++ (render m b scopes block).text } ∧
        ((renderOnto m b scopes block text).error = none →
          (renderOnto m b scopes block text).scopes = scopes) ∧
        ∀ e, (renderOnto m b scopes block text).error = some e →
          StoppedAt m b block scopes (renderOnto m b scopes block text).scopes e ∧
          ∃ opened, (renderOnto m b scopes block text).scopes = opened ++ scopes) ∧
    ∀ (first : List (Nat × String)) (last : Nat × String) (calls : List (Nat × String)),
      (∀ call ∈ first, (renderOnto m b [] call.1 call.2).scopes = []) →
      renderAll m b [] (first ++ last :: calls) =
        first.map (fun call => renderOnto m b [] call.1 call.2) ++
          renderOnto m b [] last.1 last.2 ::
            renderAll m b (renderOnto m b [] last.1 last.2).scopes calls := by
  constructor
  · intro scopes block text
    refine ⟨renderOnto_eq m b scopes block text, scopes_renderOnto, fun e stopped => ?_⟩
    obtain ⟨inner, index, slot, within, place⟩ := stoppedAt_renderOnto stopped
    exact ⟨⟨inner, index, slot, within, place⟩, within.exists_append⟩
  · intro first last calls closed
    rw [renderAll_append [] first _ closed, renderAll]

/-! ## A row whose variable has no value -/

section

open Bindings

variable {m : Model}

theorem after_rows (h : m = .ofPieces [.beginBlock "row", .var "x", .endBlock]) :
    after m [.add "row"] = ⟨#[none], #[#[], #[0]], #[⟨#[none], #[]⟩]⟩ := by
  subst h
  decide +kernel

/-- On its own, the body of the block is stopped in no instance. -/
theorem renderOnto_row (h : m = .ofPieces [.beginBlock "row", .var "x", .endBlock])
    (text : String) :
    renderOnto m (after m [.add "row"]) [] 1 text = ⟨text, [], some ⟨"x"⟩⟩ := by
  have inside : (m.block 1).body = #[.var 0 0] := by rw [h]; rfl
  have name : m.variableName 0 = "x" := by rw [h]; rfl
  have missing : value? m ⟨#[none], #[#[], #[0]], #[⟨#[none], #[]⟩]⟩ [] 0 0 = none := rfl
  rw [after_rows h, renderOnto, inside]
  simp [run, missing, name]

/-- The document is stopped in the only instance. -/
theorem renderOnto_rows (h : m = .ofPieces [.beginBlock "row", .var "x", .endBlock])
    (text : String) :
    renderOnto m (after m [.add "row"]) [] Model.root text = ⟨text, [⟨1, 0⟩], some ⟨"x"⟩⟩ := by
  have top : (m.block Model.root).body = #[.block 1] := by rw [h]; rfl
  have inside : (m.block 1).body = #[.var 0 0] := by rw [h]; rfl
  have name : m.variableName 0 = "x" := by rw [h]; rfl
  have listed : instancesOf m ⟨#[none], #[#[], #[0]], #[⟨#[none], #[]⟩]⟩ [] 1 = #[0] := rfl
  have missing : value? m ⟨#[none], #[#[], #[0]], #[⟨#[none], #[]⟩]⟩ [⟨1, 0⟩] 0 0 = none := rfl
  rw [after_rows h, renderOnto, top]
  simp [run, listed, bodySteps, inside, missing, name]

/-- From the scope of that instance the document has no instance, and no variable is met. -/
theorem renderOnto_rows_again (h : m = .ofPieces [.beginBlock "row", .var "x", .endBlock])
    (text : String) :
    renderOnto m (after m [.add "row"]) [⟨1, 0⟩] Model.root text = ⟨text, [⟨1, 0⟩], none⟩ := by
  have top : (m.block Model.root).body = #[.block 1] := by rw [h]; rfl
  have nothing : instancesOf m ⟨#[none], #[#[], #[0]], #[⟨#[none], #[]⟩]⟩ [⟨1, 0⟩] 1 = #[] := rfl
  rw [after_rows h, renderOnto, top]
  simp [run, nothing]

theorem renderAll_of_closed_rows :
    ∃ m, compile "[beginblock:row]{x}[endblock:row]" .empty {} none = .ok m ∧
      let b := after m [.add "row"]
      (∀ call ∈ [(1, "a")], (renderOnto m b [] call.1 call.2).scopes = []) ∧
      renderAll m b [] ([(1, "a")] ++ (Model.root, "b") :: [(Model.root, "c")]) =
        [(1, "a")].map (fun call => renderOnto m b [] call.1 call.2) ++
          renderOnto m b [] Model.root "b" ::
            renderAll m b (renderOnto m b [] Model.root "b").scopes [(Model.root, "c")] := by
  have closed (m : Model) (h : m = .ofPieces [.beginBlock "row", .var "x", .endBlock]) :
      ∀ call ∈ [(1, "a")], (renderOnto m (after m [.add "row"]) [] call.1 call.2).scopes = [] :=
    List.forall_mem_singleton.2 (by rw [renderOnto_row h])
  exact ⟨_, compile_rows_eq, closed _ rfl, (renderAll_of_closed _ _).2 _ _ _ (closed _ rfl)⟩

/-- A writing is not always as on its own: after a row without a value for its variable has stopped
it, the document is written again without the row and without an error. -/
theorem not_renderAll_fresh :
    ¬∀ (source : String) (flags : FlagSet) (options : Options) (loader : Option Loader)
      (m : Model), compile source flags options loader = .ok m →
        ∀ (commands : List Command) (calls : List (Nat × String)),
          (renderAll m (after m commands) [] calls).map (fun o => (o.text, o.error)) =
            calls.map fun call =>
              ((renderOnto m (after m commands) [] call.1 call.2).text,
                (renderOnto m (after m commands) [] call.1 call.2).error) := by
  intro h
  have fresh := h _ _ _ _ _ compile_rows_eq [.add "row"] [(Model.root, ""), (Model.root, "")]
  simp only [renderAll, renderOnto_rows rfl, renderOnto_rows_again rfl, List.map_cons] at fresh
  simp at fresh

end

end Evaluation

end Stencil
