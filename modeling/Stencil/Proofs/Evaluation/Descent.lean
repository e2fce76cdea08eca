import Stencil.Proofs.Evaluation.Reuse

/-! # The loop of an evaluation

Evaluating by a loop over frames, for arbitrary bindings.
-/

/-! ## Evaluating in a loop

An evaluation need not list all its steps. One loop keeps a stack of frames: the rest of a body that
is being written, and the rest of the instances of a block. In each round it does the next node of
the innermost body, turns to the next of the innermost instances, or closes a frame that is used up.

Whatever the loop has left to do is steps of the evaluation, and each round leaves less. Main
statement: it ends, and with what the evaluation comes to, `exists_after_eq`.
-/

namespace Stencil

namespace Evaluation

inductive Frame
  /-- Nodes of a body; whether a scope was opened for the body. -/
  | body (nodes : List Node) (entered : Bool)
  /-- Instances of a block. -/
  | instances (block : Nat) (ids : List Nat)

def Frame.steps : Frame → List Step
  | .body nodes entered => nodes.map .node ++ if entered then [.leave] else []
  | .instances block ids => ids.map (.enter block)

structure Loop where
  /-- The open frames, innermost first. -/
  frames : List Frame
  scopes : List Scope
  text : String

namespace Loop

def start (m : Model) (block : Nat) : Loop :=
  ⟨[.body (m.block block).body.toList false], [], ""⟩

section

variable (m : Model) (b : Bindings)

/-- One round of the loop: how it goes on, or what it has come to. -/
def round : Loop → Loop ⊕ Outcome
  | ⟨[], scopes, text⟩ => .inr ⟨text, scopes, none⟩
  | ⟨.body [] entered :: frames, scopes, text⟩ =>
    .inl ⟨frames, if entered then scopes.tail else scopes, text⟩
  | ⟨.body (.literal s :: nodes) entered :: frames, scopes, text⟩ =>
    .inl ⟨.body nodes entered :: frames, scopes, text ++ s⟩
  | ⟨.body (.var index slot :: nodes) entered :: frames, scopes, text⟩ =>
    match value? m b scopes index slot with
    | some s => .inl ⟨.body nodes entered :: frames, scopes, text ++ s⟩
    | none => .inr ⟨text, scopes, some ⟨m.variableName index⟩⟩
  | ⟨.body (.block id :: nodes) entered :: frames, scopes, text⟩ =>
    .inl ⟨.instances id (instancesOf m b scopes id).toList :: .body nodes entered :: frames, scopes,
      text⟩
  | ⟨.instances _ [] :: frames, scopes, text⟩ => .inl ⟨frames, scopes, text⟩
  | ⟨.instances block (inst :: ids) :: frames, scopes, text⟩ =>
    if inst < b.instances.size then
      .inl ⟨.body (m.block block).body.toList true :: .instances block ids :: frames,
        ⟨block, inst⟩ :: scopes, text⟩
    else
      .inl ⟨.instances block ids :: frames, scopes, text⟩

def after : Nat → Loop → Loop ⊕ Outcome
  | 0, l => .inl l
  | n + 1, l =>
    match l.round m b with
    | .inl next => next.after n
    | .inr outcome => .inr outcome

inductive Turn : Loop → Loop → Prop
  | leave (entered : Bool) (frames : List Frame) (scopes : List Scope) (text : String) :
    Turn ⟨.body [] entered :: frames, scopes, text⟩
      ⟨frames, if entered then scopes.tail else scopes, text⟩
  | literal (s : String) (nodes : List Node) (entered : Bool) (frames : List Frame)
    (scopes : List Scope) (text : String) :
    Turn ⟨.body (.literal s :: nodes) entered :: frames, scopes, text⟩
      ⟨.body nodes entered :: frames, scopes, text ++ s⟩
  | value {index slot : Nat} {nodes : List Node} {entered : Bool} {frames : List Frame}
    {scopes : List Scope} {text s : String} : value? m b scopes index slot = some s →
    Turn ⟨.body (.var index slot :: nodes) entered :: frames, scopes, text⟩
      ⟨.body nodes entered :: frames, scopes, text ++ s⟩
  | block (id : Nat) (nodes : List Node) (entered : Bool) (frames : List Frame)
    (scopes : List Scope) (text : String) :
    Turn ⟨.body (.block id :: nodes) entered :: frames, scopes, text⟩
      ⟨.instances id (instancesOf m b scopes id).toList :: .body nodes entered :: frames, scopes,
        text⟩
  | enough (id : Nat) (frames : List Frame) (scopes : List Scope) (text : String) :
    Turn ⟨.instances id [] :: frames, scopes, text⟩ ⟨frames, scopes, text⟩
  | enter {id inst : Nat} {ids : List Nat} {frames : List Frame} {scopes : List Scope}
    {text : String} : inst < b.instances.size →
    Turn ⟨.instances id (inst :: ids) :: frames, scopes, text⟩
      ⟨.body (m.block id).body.toList true :: .instances id ids :: frames, ⟨id, inst⟩ :: scopes,
        text⟩
  | missing {id inst : Nat} {ids : List Nat} {frames : List Frame} {scopes : List Scope}
    {text : String} : ¬inst < b.instances.size →
    Turn ⟨.instances id (inst :: ids) :: frames, scopes, text⟩
      ⟨.instances id ids :: frames, scopes, text⟩

end

variable {m : Model} {b : Bindings} {l next : Loop}

theorem turn_of_round (h : l.round m b = .inl next) : Turn m b l next := by
  unfold round at h
  split at h
  · cases h
  · cases h
    exact .leave ..
  · cases h
    exact .literal ..
  · split at h
    · next known =>
      cases h
      exact .value known
    · cases h
  · cases h
    exact .block ..
  · cases h
    exact .enough ..
  · split at h <;> cases h
    · next there => exact .enter there
    · next missing => exact .missing missing

/-! ### The same outcome -/

def steps (l : Loop) : List Step :=
  l.frames.flatMap Frame.steps

def outcome (m : Model) (b : Bindings) (l : Loop) : Outcome :=
  run m b l.steps l.scopes l.text

theorem outcome_start (m : Model) (b : Bindings) (block : Nat) :
    (start m block).outcome m b = render m b [] block := by
  have steps : (start m block).steps = (m.block block).body.toList.map .node := by
    simp [start, Loop.steps, Frame.steps]
  rw [outcome, steps]
  rfl

theorem Turn.outcome_eq (turn : Turn m b l next) : next.outcome m b = l.outcome m b := by
  cases turn with
  | leave entered => cases entered <;> simp [outcome, steps, Frame.steps, run]
  | literal => simp [outcome, steps, Frame.steps, run]
  | value known => simp [outcome, steps, Frame.steps, run, known]
  | block => simp [outcome, steps, Frame.steps, run]
  | enough => simp [outcome, steps, Frame.steps]
  | enter there => simp [outcome, steps, Frame.steps, run, there, bodySteps]
  | missing missing => simp [outcome, steps, Frame.steps, run, missing]

/-- The loop stops with what the steps that are left come to. -/
theorem outcome_of_round {o : Outcome} (h : l.round m b = .inr o) : l.outcome m b = o := by
  unfold round at h
  split at h
  · cases h
    simp [outcome, steps, run]
  · cases h
  · cases h
  · split at h
    · cases h
    · next missing =>
      cases h
      simp [outcome, steps, Frame.steps, run, missing]
  · cases h
  · cases h
  · split at h <;> cases h

/-! ### An end -/

theorem weight_body_cons (m : Model) (width : Nat) (n : Node) (nodes : List Node)
    (entered : Bool) :
    weight m width (Frame.body (n :: nodes) entered).steps =
      stepWeight m width (.node n) + weight m width (Frame.body nodes entered).steps :=
  weight_cons m width _ _

theorem weight_instances_cons (m : Model) (width id inst : Nat) (ids : List Nat) :
    weight m width (Frame.instances id (inst :: ids)).steps =
      blockWeight m width id + weight m width (Frame.instances id ids).steps :=
  weight_cons m width _ _

/-- A bound on the rounds that are left before the last one. -/
def measure (m : Model) (b : Bindings) (frames : List Frame) : Nat :=
  -- A round that opens a frame does a step as well, and steps count twice.
  2 * weight m (fan b) (frames.flatMap Frame.steps) + frames.length

theorem measure_cons (m : Model) (b : Bindings) (frame : Frame) (frames : List Frame) :
    measure m b (frame :: frames) =
      2 * weight m (fan b) frame.steps + 1 + measure m b frames := by
  simp only [measure, List.flatMap_cons, weight_append, List.length_cons]
  omega

theorem Turn.measure_lt (turn : Turn m b l next) :
    measure m b next.frames < measure m b l.frames := by
  cases turn with
  | leave =>
    simp only [measure_cons]
    omega
  | literal =>
    simp only [measure_cons, weight_body_cons, stepWeight]
    omega
  | value =>
    simp only [measure_cons, weight_body_cons, stepWeight]
    omega
  | block id nodes entered frames scopes =>
    have listed : weight m (fan b) (Frame.instances id (instancesOf m b scopes id).toList).steps ≤
        fan b * blockWeight m (fan b) id :=
      weight_enter m (fan b) id _ (size_instancesOf_le m b scopes id)
    simp only [measure_cons, weight_body_cons, stepWeight]
    omega
  | enough =>
    simp only [measure_cons]
    omega
  | @enter id =>
    have opened : blockWeight m (fan b) id =
        1 + weight m (fan b) (Frame.body (m.block id).body.toList true).steps :=
      blockWeight_eq m (fan b) id
    simp only [measure_cons, weight_instances_cons]
    omega
  | @missing id =>
    have := blockWeight_eq m (fan b) id
    simp only [measure_cons, weight_instances_cons]
    omega

theorem exists_after_eq (m : Model) (b : Bindings) (l : Loop) :
    ∃ n ≤ measure m b l.frames, l.after m b (n + 1) = .inr (l.outcome m b) := by
  induction bound : measure m b l.frames using Nat.strongRecOn generalizing l with
  | ind k ih =>
    subst bound
    cases taken : l.round m b with
    | inr o => exact ⟨0, Nat.zero_le _, by rw [after, taken, outcome_of_round taken]⟩
    | inl next =>
      have turn := turn_of_round taken
      obtain ⟨n, le, ends⟩ := ih _ turn.measure_lt next rfl
      refine ⟨n + 1, Nat.lt_of_le_of_lt le turn.measure_lt, ?_⟩
      rw [after, taken]
      exact ends.trans (congrArg _ turn.outcome_eq)

end Loop

end Evaluation

/-! ## Down the blocks of a model

Nothing is assumed of the bindings that a body is written with. Instances may list each other in a
circle, and they may list numbers that no instance has. The blocks of the model still nest as they
do, and the frames of the loop that writes a body go down them: a frame may come back to an
instance, but never to a block that it stands in. Main statement: `render_of_compile`.
-/

namespace Evaluation

def Frame.InRange (m : Model) : Frame → Prop
  | .body nodes _ =>
    (∀ index slot, .var index slot ∈ nodes → index < m.variableCount) ∧
      ∀ id, .block id ∈ nodes → id < m.blockCount
  | .instances block _ => block < m.blockCount

namespace Loop

/-- The frames go down from the body of `block` to that of `inner`: each body is that of a block
that stands in the body around it, and is written for one of the instances listed there. -/
inductive Descends (m : Model) (b : Bindings) (block : Nat) :
    (inner : Nat) → List Frame → List Scope → Prop
  | root {nodes : List Node} : (∀ n ∈ nodes, n ∈ (m.block block).body) →
    Descends m b block block [.body nodes false] []
  | enter {outer id inst : Nat} {ids : List Nat} {nodes : List Node} {frames : List Frame}
    {scopes : List Scope} (around : Descends m b block outer frames scopes)
    (place : .block id ∈ (m.block outer).body)
    (listed : ∀ other ∈ inst :: ids, other ∈ instancesOf m b scopes id)
    (there : inst < b.instances.size) (inside : ∀ n ∈ nodes, n ∈ (m.block id).body) :
    Descends m b block id (.body nodes true :: .instances id ids :: frames) (⟨id, inst⟩ :: scopes)

inductive Placed (m : Model) (b : Bindings) (block : Nat) : List Frame → List Scope → Prop
  | closed : Placed m b block [] []
  | body {inner : Nat} {frames : List Frame} {scopes : List Scope} :
    Descends m b block inner frames scopes → Placed m b block frames scopes
  | instances {outer id : Nat} {ids : List Nat} {frames : List Frame} {scopes : List Scope}
    (around : Descends m b block outer frames scopes) (place : .block id ∈ (m.block outer).body)
    (listed : ∀ inst ∈ ids, inst ∈ instancesOf m b scopes id) :
    Placed m b block (.instances id ids :: frames) scopes

variable {m : Model} {b : Bindings} {l l' next : Loop} {block inner : Nat} {frames : List Frame}
  {scopes : List Scope}

theorem placed_start (m : Model) (b : Bindings) (block : Nat) :
    Placed m b block (start m block).frames (start m block).scopes :=
  .body (.root fun _ mem => Array.mem_toList_iff.1 mem)

/-- Of the innermost body any part may be left. -/
theorem Descends.part {nodes part : List Node} {entered : Bool}
    (h : Descends m b block inner (.body nodes entered :: frames) scopes)
    (sub : ∀ n ∈ part, n ∈ nodes) :
    Descends m b block inner (.body part entered :: frames) scopes := by
  cases h with
  | root inside => exact .root fun n mem => inside n (sub n mem)
  | enter around place listed there inside =>
    exact .enter around place listed there fun n mem => inside n (sub n mem)

theorem Descends.mem_body {nodes : List Node} {entered : Bool}
    (h : Descends m b block inner (.body nodes entered :: frames) scopes) :
    ∀ n ∈ nodes, n ∈ (m.block inner).body := by
  cases h with
  | root inside => exact inside
  | enter _ _ _ _ inside => exact inside

theorem Descends.leave {entered : Bool}
    (h : Descends m b block inner (.body [] entered :: frames) scopes) :
    Placed m b block frames (if entered then scopes.tail else scopes) := by
  cases h with
  | root => exact .closed
  | enter around place listed =>
    exact .instances around place fun other mem => listed other (List.mem_cons_of_mem _ mem)

theorem Turn.placed (turn : Turn m b l next) (placed : Placed m b block l.frames l.scopes) :
    Placed m b block next.frames next.scopes := by
  cases turn with
  | leave entered =>
    cases placed with
    | body descends => exact descends.leave
  | literal =>
    cases placed with
    | body descends => exact .body (descends.part fun n mem => List.mem_cons_of_mem _ mem)
  | value =>
    cases placed with
    | body descends => exact .body (descends.part fun n mem => List.mem_cons_of_mem _ mem)
  | block =>
    cases placed with
    | body descends =>
      have place := descends.mem_body _ List.mem_cons_self
      exact .instances (descends.part fun n mem => List.mem_cons_of_mem _ mem) place
        fun inst listed => Array.mem_toList_iff.1 listed
  | enough =>
    cases placed with
    | body descends => cases descends
    | instances around => exact .body around
  | enter there =>
    cases placed with
    | body descends => cases descends
    | instances around place listed =>
      exact .body (.enter around place listed there fun n mem => Array.mem_toList_iff.1 mem)
  | missing =>
    cases placed with
    | body descends => cases descends
    | instances around place listed =>
      exact .instances around place fun inst mem => listed inst (List.mem_cons_of_mem _ mem)

theorem Descends.add_length_le (h : Descends m b block inner frames scopes) :
    block + scopes.length ≤ inner ∧ frames.length = 2 * scopes.length + 1 := by
  induction h with
  | root => exact ⟨Nat.le_refl _, rfl⟩
  | enter _ place _ _ _ ih =>
    have := (Model.lt_of_block_mem place).1
    simp only [List.length_cons]
    omega

/-! ### Numbers in range -/

theorem Descends.lt (h : Descends m b block inner frames scopes) (bound : block < m.blockCount) :
    inner < m.blockCount := by
  cases h with
  | root => exact bound
  | enter _ place => exact (Model.lt_of_block_mem place).2

/-- The blocks and instances of the scopes are there. -/
theorem Descends.forall_scope (h : Descends m b block inner frames scopes) :
    ∀ scope ∈ scopes, scope.block < m.blockCount ∧ scope.inst < b.instances.size := by
  induction h with
  | root => simp
  | enter _ place _ there _ ih =>
    exact List.forall_mem_cons.2 ⟨⟨(Model.lt_of_block_mem place).2, there⟩, ih⟩

theorem Descends.forall_frame (h : Descends m b block inner frames scopes) (wf : m.WellFormed) :
    ∀ frame ∈ frames, frame.InRange m := by
  have part {nodes : List Node} {id : Nat} (entered : Bool)
      (inside : ∀ n ∈ nodes, n ∈ (m.block id).body) : (Frame.body nodes entered).InRange m :=
    ⟨fun index slot mem => (wf.slots id index slot (inside _ mem)).2,
      fun _ mem => (Model.lt_of_block_mem (inside _ mem)).2⟩
  induction h with
  | root inside => exact List.forall_mem_singleton.2 (part false inside)
  | enter _ place _ _ inside ih =>
    refine List.forall_mem_cons.2 ⟨part true inside, List.forall_mem_cons.2 ⟨?_, ih⟩⟩
    exact (Model.lt_of_block_mem place).2

/-- The loop that writes the body of `block` is on its way: no more frames are open than the blocks
below allow, whatever it may read next is there, and it closes no scope but one that is open. -/
structure Orderly (m : Model) (b : Bindings) (block : Nat) (l : Loop) : Prop where
  placed : Placed m b block l.frames l.scopes
  length_lt : l.frames.length < 2 * (m.blockCount - block)
  frames : ∀ frame ∈ l.frames, frame.InRange m
  scopes : ∀ scope ∈ l.scopes, scope.block < m.blockCount ∧ scope.inst < b.instances.size
  leaves : ∀ nodes frames, l.frames = .body nodes true :: frames → l.scopes ≠ []

theorem Placed.orderly {text : String} (placed : Placed m b block frames scopes)
    (wf : m.WellFormed) (bound : block < m.blockCount) :
    Orderly m b block ⟨frames, scopes, text⟩ := by
  cases placed with
  | closed =>
    refine ⟨.closed, ?_, by simp, by simp, by simp⟩
    show 0 < 2 * (m.blockCount - block)
    omega
  | body descends =>
    have deep := descends.add_length_le
    have below := descends.lt bound
    refine ⟨.body descends, ?_, descends.forall_frame wf, descends.forall_scope, ?_⟩
    · show frames.length < 2 * (m.blockCount - block)
      omega
    · rintro nodes outer rfl
      cases descends with
      | enter => exact List.cons_ne_nil _ _
  | @instances outer id ids frames _ around place listed =>
    have deep := around.add_length_le
    obtain ⟨later, there⟩ := Model.lt_of_block_mem place
    refine ⟨.instances around place listed, ?_,
      List.forall_mem_cons.2 ⟨there, around.forall_frame wf⟩, around.forall_scope, ?_⟩
    · show frames.length + 1 < 2 * (m.blockCount - block)
      omega
    · rintro nodes outer ⟨⟩

theorem placed_after {n : Nat} (h : l.after m b n = .inl l')
    (placed : Placed m b block l.frames l.scopes) : Placed m b block l'.frames l'.scopes := by
  induction n generalizing l with
  | zero =>
    cases h
    exact placed
  | succ n ih =>
    cases taken : l.round m b with
    | inl next =>
      rw [after, taken] at h
      exact ih h ((turn_of_round taken).placed placed)
    | inr o =>
      rw [after, taken] at h
      cases h

end Loop

/-- The body of any block of a compiled template can be written with any bindings at all. The loop
ends, and every round finds what it looks for where the model has it. Writing comes to its end, with
no scope left open, or stops at a variable of the model that has no value. -/
theorem render_of_compile {source : String} {flags : FlagSet} {options : Options}
    {loader : Option Loader} {m : Model} (h : compile source flags options loader = .ok m)
    {block : Nat} (bound : block < m.blockCount) (b : Bindings) :
    (∃ n ≤ Loop.measure m b (Loop.start m block).frames,
      (Loop.start m block).after m b (n + 1) = .inr (render m b [] block)) ∧
    (∀ n l, (Loop.start m block).after m b n = .inl l → l.Orderly m b block) ∧
    ((render m b [] block).error = none ∧ (render m b [] block).scopes = [] ∨
      ∃ index < m.variableCount, (render m b [] block).error = some ⟨m.variableName index⟩ ∧
        StoppedAt m b block [] (render m b [] block).scopes ⟨m.variableName index⟩) := by
  obtain ⟨o, -, outlined⟩ := exists_outlined_of_compile h
  have wf := outlined.wellFormed
  refine ⟨?_, fun n l reached => ?_, ?_⟩
  · obtain ⟨n, le, ends⟩ := Loop.exists_after_eq m b (.start m block)
    rw [Loop.outcome_start] at ends
    exact ⟨n, le, ends⟩
  · exact (Loop.placed_after reached (Loop.placed_start m b block)).orderly wf bound
  · cases stopped : (render m b [] block).error with
    | none => exact .inl ⟨rfl, scopes_renderOnto stopped⟩
    | some e =>
      obtain ⟨inner, index, slot, within, mem, missing, rfl⟩ := stoppedAt_renderOnto stopped
      exact .inr ⟨index, (wf.slots inner index slot mem).2, rfl,
        inner, index, slot, within, mem, missing, rfl⟩

theorem compile_nested_eq :
    compile "[beginblock:a][beginblock:b]{x}[endblock:b][endblock:a]" .empty {} none =
      .ok (.ofPieces [.beginBlock "a", .beginBlock "b", .var "x", .endBlock, .endBlock]) := by
  have items : Item.ofText true "[beginblock:a][beginblock:b]{x}[endblock:b][endblock:a]" =
      .ok [.beginBlock "a" ⟨1, 1⟩, .beginBlock "b" ⟨1, 15⟩, .var "x", .endBlock, .endBlock] :=
    Item.ofText_of_drainWithin rfl rfl
  rw [compile, items]
  rfl

/-- An instance that lists itself is written once for each of the two blocks, and the number 9,
which no instance has, is passed over. -/
theorem render_nested (m : Model)
    (h : m = .ofPieces [.beginBlock "a", .beginBlock "b", .var "x", .endBlock, .endBlock]) :
    render m ⟨#[], #[#[], #[0, 9]], #[⟨#[some "v"], #[#[0]]⟩]⟩ [] Model.root =
      ⟨"v", [], none⟩ := by
  have top : (m.block Model.root).body = #[.block 1] := by rw [h]; rfl
  have outer : (m.block 1).body = #[.block 2] := by rw [h]; rfl
  have inner : (m.block 2).body = #[.var 0 0] := by rw [h]; rfl
  have slot : (m.block 2).slot = 0 := by rw [h]; rfl
  rw [render, top]
  simp [run, instancesOf, bodySteps, outer, inner, slot, value?, Bindings.pendingOf,
    Bindings.instanceAt, Instance.childrenAt, Instance.value?]

theorem render_of_compile_cyclic :
    ∃ m, compile "[beginblock:a][beginblock:b]{x}[endblock:b][endblock:a]" .empty {} none = .ok m ∧
      Model.root < m.blockCount ∧
      let b : Bindings := ⟨#[], #[#[], #[0, 9]], #[⟨#[some "v"], #[#[0]]⟩]⟩
      (∃ n ≤ Loop.measure m b (Loop.start m Model.root).frames,
        (Loop.start m Model.root).after m b (n + 1) = .inr ⟨"v", [], none⟩) ∧
      ∀ n l, (Loop.start m Model.root).after m b n = .inl l → l.Orderly m b Model.root := by
  have bound : Model.root < (Model.ofPieces
      [.beginBlock "a", .beginBlock "b", .var "x", .endBlock, .endBlock]).blockCount :=
    Model.nonempty _
  obtain ⟨ends, orderly, -⟩ := render_of_compile compile_nested_eq bound
    ⟨#[], #[#[], #[0, 9]], #[⟨#[some "v"], #[#[0]]⟩]⟩
  rw [render_nested _ rfl] at ends
  exact ⟨_, compile_nested_eq, bound, ends, orderly⟩

end Evaluation

end Stencil
