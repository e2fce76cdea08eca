import Stencil.Proofs.Evaluation.Finality

/-! # Values in the text of a document

Values are handed on as they are, by the bindings and by the evaluation.
-/

/-! ## Values as tokens

Bindings only hand values on. Replacing every value by its image under some map, before a command
or after it, comes to the same, and the values that bindings hold are values that they were given.
Main statements: `mapValues_after`, `holds_after`.
-/

namespace Stencil

def Instance.mapValues (f : String → String) (i : Instance) : Instance :=
  { i with values := i.values.map (·.map f) }

theorem Instance.value?_mapValues (f : String → String) (i : Instance) (slot : Nat) :
    (i.mapValues f).value? slot = (i.value? slot).map f := by
  rw [value?, value?, mapValues, Array.getElem?_map]
  cases i.values[slot]? <;> rfl

namespace Command

def mapValue (f : String → String) : Command → Command
  | .set name value => .set name (f value)
  | .add name => .add name
  | .clear => .clear

def value? : Command → Option String
  | .set _ value => some value
  | .add _ => none
  | .clear => none

end Command

namespace Bindings

variable {m : Model} {b : Bindings}

/-! ### Replacing values -/

section Replacing

variable (f : String → String)

def mapValues (b : Bindings) : Bindings :=
  { values := b.values.map (·.map f)
    pending := b.pending
    instances := b.instances.map (·.mapValues f) }

@[simp]
theorem value?_mapValues (b : Bindings) (index : Nat) :
    (b.mapValues f).value? index = (b.value? index).map f := by
  rw [value?, value?, mapValues, Array.getElem?_map]
  cases b.values[index]? <;> rfl

@[simp]
theorem size_instances_mapValues (b : Bindings) :
    (b.mapValues f).instances.size = b.instances.size :=
  Array.size_map

@[simp]
theorem instanceAt_mapValues (b : Bindings) (id : Nat) :
    (b.mapValues f).instanceAt id = (b.instanceAt id).mapValues f := by
  rw [instanceAt, instanceAt, mapValues, Array.getElem?_map]
  cases b.instances[id]? with
  | none => simp [Instance.mapValues]
  | some i => rfl

theorem mapValues_ofModel (m : Model) : (ofModel m).mapValues f = ofModel m := by
  simp [ofModel, mapValues]

theorem mapValues_clear (b : Bindings) : b.clear.mapValues f = (b.mapValues f).clear := by
  simp [clear, mapValues, Function.comp_def]

theorem mapValues_setValue (b : Bindings) (index : Nat) (value : String) :
    (b.setValue index value).mapValues f = (b.mapValues f).setValue index (f value) := by
  rw [setValue, setValue, mapValues, mapValues, Array.map_setIfInBounds]
  rfl

theorem mapValues_snapshot (m : Model) (b : Bindings) (block : Nat) :
    (b.snapshot m block).mapValues f = (b.mapValues f).snapshot m block := by
  rw [snapshot, snapshot, Instance.mapValues, Array.map_map]
  congr 1
  exact Array.map_congr_left fun index _ => (value?_mapValues f b index).symm

theorem mapValues_sealBlock (m : Model) (b : Bindings) (block : Nat) :
    (b.sealBlock m block).mapValues f = (b.mapValues f).sealBlock m block := by
  rw [sealBlock, sealBlock, mapValues, ← mapValues_snapshot, size_instances_mapValues]
  have pending : (b.mapValues f).pending = b.pending := rfl
  simp only [pending, apply_ite (Array.map _), Array.map_push]
  rfl

theorem mapValues_sealBlocks (m : Model) (b : Bindings) (blocks : List Nat) :
    (b.sealBlocks m blocks).mapValues f = (b.mapValues f).sealBlocks m blocks := by
  induction blocks generalizing b with
  | nil => rfl
  | cons block blocks ih =>
    rw [sealBlocks, sealBlocks, List.foldl_cons, List.foldl_cons, ← mapValues_sealBlock]
    exact ih _

theorem mapValues_step (m : Model) (b : Bindings) (command : Command) :
    (b.step m command).mapValues f = (b.mapValues f).step m (command.mapValue f) := by
  cases command with
  | set name value =>
    rw [Command.mapValue, step_set, step_set]
    cases m.findVariable? name with
    | none => rfl
    | some index => exact mapValues_setValue f b index value
  | add name => rw [Command.mapValue, step_add, step_add, mapValues_sealBlocks]
  | clear => exact mapValues_clear f b

/-- Commands with other values leave bindings that differ in these values only. -/
theorem mapValues_after (m : Model) (commands : List Command) :
    (after m commands).mapValues f = after m (commands.map (·.mapValue f)) := by
  have onward (b : Bindings) :
      (commands.foldl (step m) b).mapValues f =
        (commands.map (·.mapValue f)).foldl (step m) (b.mapValues f) := by
    induction commands generalizing b with
    | nil => rfl
    | cons command commands ih =>
      rw [List.foldl_cons, List.map_cons, List.foldl_cons, ih, mapValues_step]
  rw [after, after, onward, mapValues_ofModel]

end Replacing

/-! ### Values that are held -/

/-- Every value that the bindings hold, sealed or not, is as `P` says. -/
structure Holds (P : String → Prop) (b : Bindings) : Prop where
  current : ∀ index, ∀ value ∈ b.value? index, P value
  sealed : ∀ id slot, ∀ value ∈ (b.instanceAt id).value? slot, P value

variable {P : String → Prop}

theorem holds_ofModel (m : Model) : (ofModel m).Holds P where
  current index value mem := by
    rw [value?, ofModel, Array.getElem?_replicate] at mem
    split at mem <;> cases mem
  sealed id slot value mem := by cases mem

theorem holds_clear (b : Bindings) : b.clear.Holds P where
  current index value mem := by
    rw [value?, clear, Array.getElem?_map] at mem
    cases found : b.values[index]? <;> simp [found] at mem
  sealed id slot value mem := by cases mem

theorem Holds.setValue (h : b.Holds P) {value : String} (given : P value) (index : Nat) :
    (b.setValue index value).Holds P where
  current other found mem := by
    rw [value?, Bindings.setValue, Array.getElem?_setIfInBounds] at mem
    split at mem
    · split at mem
      · cases mem
        exact given
      · cases mem
    · exact h.current other found mem
  sealed := h.sealed

theorem Holds.sealBlock (h : b.Holds P) (m : Model) (block : Nat) :
    (b.sealBlock m block).Holds P where
  current := h.current
  sealed id slot value mem := by
    rcases instanceAt_sealBlock_cases m b block id with same | same <;> rw [same] at mem
    · rw [snapshot, Instance.value?, Array.getElem?_map] at mem
      cases found : (m.block block).vars.keys[slot]? with
      | none => simp [found] at mem
      | some index => exact h.current index value (by simpa [found] using mem)
    · exact h.sealed id slot value mem

theorem Holds.sealBlocks (h : b.Holds P) (m : Model) (blocks : List Nat) :
    (b.sealBlocks m blocks).Holds P := by
  induction blocks generalizing b with
  | nil => exact h
  | cons block blocks ih => exact ih (h.sealBlock m block)

theorem Holds.step (h : b.Holds P) (m : Model) {command : Command}
    (given : ∀ value ∈ command.value?, P value) : (b.step m command).Holds P := by
  cases command with
  | set name value =>
    rw [step_set]
    cases m.findVariable? name with
    | none => exact h
    | some index => exact h.setValue (given value rfl) index
  | add name =>
    rw [step_add]
    exact h.sealBlocks m _
  | clear => exact holds_clear b

/-- Bindings hold only values that commands gave them. -/
theorem holds_after (m : Model) {commands : List Command}
    (given : ∀ value ∈ commands.filterMap Command.value?, P value) :
    (after m commands).Holds P := by
  have onward {b : Bindings} (h : b.Holds P) : (commands.foldl (step m) b).Holds P := by
    induction commands generalizing b with
    | nil => exact h
    | cons command commands ih =>
      refine ih (fun value mem => given value ?_) (h.step m fun value mem => given value ?_)
      · obtain ⟨other, there, same⟩ := List.mem_filterMap.1 mem
        exact List.mem_filterMap.2 ⟨other, List.mem_cons_of_mem command there, same⟩
      · exact List.mem_filterMap.2 ⟨command, List.mem_cons_self, mem⟩
  exact onward (holds_ofModel m)

end Bindings

/-! ## Where the text of a document comes from

A document is made of literals of its template and of values that it was given, one after another.
Which ones these are, and whether there is a value for every variable, does not depend on the values
themselves: evaluation hands values on without looking at them. Main statement: `render_opaque`.

For the proof every value is replaced by a tag that tells which of the values it is. One run on
tagged values then stands for the runs on all values.
-/

inductive Fragment
  | literal (text : String)
  /-- A value, numbered among the values that commands set. -/
  | value (number : Nat)
  deriving DecidableEq

namespace Fragment

def text (values : List String) : Fragment → String
  | literal text => text
  | value number => values.getD number ""

def joined (values : List String) (fragments : List Fragment) : String :=
  fragments.foldr (fun fragment after => fragment.text values ++ after) ""

/-- The fragment is a literal of a block of the model, or one of `count` values. -/
def ComesFrom (m : Model) (count : Nat) : Fragment → Prop
  | literal text => ∃ block, .literal text ∈ (m.block block).body
  | value number => number < count

theorem joined_cons (values : List String) (fragment : Fragment) (fragments : List Fragment) :
    joined values (fragment :: fragments) = fragment.text values ++ joined values fragments :=
  rfl

end Fragment

/-! ### Tags -/

namespace Command

/-- The tag of a value is its number, written as so many blanks. -/
def tag (number : Nat) : String :=
  String.ofList (List.replicate number ' ')

def valueAt (values : List String) (tag : String) : String :=
  values.getD tag.length ""

theorem length_tag (number : Nat) : (tag number).length = number := by
  simp [tag]

def blank : Command → Command :=
  mapValue fun _ => ""

/-- The commands with tags for the values they set, from the tag of `next` on. -/
def tagged (next : Nat) : List Command → List Command
  | [] => []
  | .set name _ :: commands => .set name (tag next) :: tagged (next + 1) commands
  | .add name :: commands => .add name :: tagged next commands
  | .clear :: commands => .clear :: tagged next commands

theorem tagged_blank (next : Nat) (commands : List Command) :
    tagged next (commands.map blank) = tagged next commands := by
  fun_induction tagged next commands with
  | case1 => rfl
  | case2 next name value commands ih => exact congrArg (.set name (tag next) :: ·) ih
  | case3 next name commands ih => exact congrArg (.add name :: ·) ih
  | case4 next commands ih => exact congrArg (.clear :: ·) ih

/-- The commands are got back from the tagged ones by putting in the values. -/
theorem map_valueAt_tagged (earlier : List String) (commands : List Command) :
    (tagged earlier.length commands).map
      (mapValue (valueAt (earlier ++ commands.filterMap value?))) = commands := by
  induction commands generalizing earlier with
  | nil => rfl
  | cons command commands ih =>
    cases command with
    | set name value =>
      have here : valueAt (earlier ++ value :: commands.filterMap value?) (tag earlier.length) =
          value := by
        simp [valueAt, length_tag]
      have later := ih (earlier ++ [value])
      rw [List.append_assoc, List.length_append] at later
      show Command.set name (valueAt (earlier ++ value :: _) _) :: _ = _
      rw [here]
      exact congrArg (.set name value :: ·) later
    | add name => exact congrArg (.add name :: ·) (ih earlier)
    | clear => exact congrArg (.clear :: ·) (ih earlier)

theorem length_lt_of_tagged {next : Nat} {commands : List Command} {found : String}
    (mem : found ∈ (tagged next commands).filterMap value?) :
    found.length < next + (commands.filterMap value?).length := by
  fun_induction tagged next commands with
  | case1 => cases mem
  | case2 next name value commands ih =>
    have more : ((Command.set name value :: commands).filterMap value?).length =
        (commands.filterMap value?).length + 1 := rfl
    rcases List.mem_cons.1 mem with rfl | mem
    · rw [length_tag]
      omega
    · have := ih mem
      omega
  | case3 next name commands ih => exact ih mem
  | case4 next commands ih => exact ih mem

end Command

/-! ### Evaluation of other values -/

namespace Evaluation

variable {m : Model} {b : Bindings}

theorem value?_mapValues (f : String → String) (m : Model) (b : Bindings) (scopes : List Scope)
    (index slot : Nat) :
    value? m (b.mapValues f) scopes index slot = (value? m b scopes index slot).map f := by
  cases scopes with
  | nil => exact b.value?_mapValues f index
  | cons innermost outer =>
    have around : (outer.findSome? fun scope =>
        ((m.block scope.block).variableSlot? index).bind
          ((b.mapValues f).instanceAt scope.inst).value?) =
        (outer.findSome? fun scope => ((m.block scope.block).variableSlot? index).bind
          (b.instanceAt scope.inst).value?).map f := by
      induction outer with
      | nil => rfl
      | cons scope outer ih =>
        have here : (((m.block scope.block).variableSlot? index).bind
            ((b.mapValues f).instanceAt scope.inst).value?) =
            (((m.block scope.block).variableSlot? index).bind
              (b.instanceAt scope.inst).value?).map f := by
          cases (m.block scope.block).variableSlot? index with
          | none => rfl
          | some slot => simp [Instance.value?_mapValues]
        rw [List.findSome?_cons, List.findSome?_cons, here, ih]
        cases ((m.block scope.block).variableSlot? index).bind
          (b.instanceAt scope.inst).value? <;> rfl
    rw [value?, value?, around, b.instanceAt_mapValues, Instance.value?_mapValues]
    cases (b.instanceAt innermost.inst).value? slot <;> rfl

theorem instancesOf_mapValues (f : String → String) (m : Model) (b : Bindings)
    (scopes : List Scope) (block : Nat) :
    instancesOf m (b.mapValues f) scopes block = instancesOf m b scopes block := by
  cases scopes with
  | nil => rfl
  | cons innermost outer =>
    rw [instancesOf, instancesOf, b.instanceAt_mapValues]
    rfl

/-- Evaluation finds only values that the bindings hold. -/
theorem of_value? {P : String → Prop} (holds : b.Holds P) {scopes : List Scope}
    {index slot : Nat} {found : String} (h : value? m b scopes index slot = some found) :
    P found := by
  cases scopes with
  | nil => exact holds.current index found h
  | cons innermost outer =>
    rcases Option.or_eq_some_iff.1 h with here | ⟨-, around⟩
    · exact holds.sealed _ _ found here
    · obtain ⟨scope, -, same⟩ := List.exists_of_findSome?_eq_some around
      obtain ⟨slot', -, there⟩ := Option.bind_eq_some_iff.1 same
      exact holds.sealed _ _ found there

/-- The step writes a node of the model, if it writes a node. -/
def Step.Stands (m : Model) : Step → Prop
  | node n => ∃ block, n ∈ (m.block block).body
  | enter _ _ => True
  | leave => True

theorem stands_bodySteps (m : Model) (block : Nat) :
    ∀ step ∈ bodySteps m block, step.Stands m := by
  intro step mem
  rcases List.mem_append.1 mem with mem | mem
  · obtain ⟨n, there, rfl⟩ := List.mem_map.1 mem
    exact ⟨block, Array.mem_toList_iff.1 there⟩
  · obtain rfl := List.mem_singleton.1 mem
    trivial

/-- A run on tagged values stands for the runs on all values: there are the same fragments, and the
same end. -/
theorem exists_fragments {count : Nat} (holds : b.Holds fun tag => tag.length < count)
    {steps : List Step} (stands : ∀ step ∈ steps, step.Stands m) (scopes : List Scope)
    (text : String) :
    ∃ fragments : List Fragment, (∀ fragment ∈ fragments, fragment.ComesFrom m count) ∧
      ∀ values before, run m (b.mapValues (Command.valueAt values)) steps scopes before =
        { run m b steps scopes text with text := before ++ Fragment.joined values fragments } := by
  -- One more fragment in front of those of the steps that follow.
  have prepend {first : Fragment} {fragments : List Fragment} (here : first.ComesFrom m count)
      (later : ∀ fragment ∈ fragments, fragment.ComesFrom m count) :
      ∀ fragment ∈ first :: fragments, fragment.ComesFrom m count := by
    intro fragment mem
    rcases List.mem_cons.1 mem with rfl | mem
    · exact here
    · exact later fragment mem
  fun_induction run m b steps scopes text with
  | case1 scopes text =>
    refine ⟨[], by simp, fun values before => ?_⟩
    rw [run]
    simp [Fragment.joined]
  | case2 s rest scopes text ih =>
    obtain ⟨here, later⟩ := List.forall_mem_cons.1 stands
    obtain ⟨fragments, come, same⟩ := ih later
    refine ⟨.literal s :: fragments, prepend here come, fun values before => ?_⟩
    rw [run, same, Fragment.joined_cons, ← String.append_assoc]
    rfl
  | case3 index slot rest scopes text s found ih =>
    obtain ⟨-, later⟩ := List.forall_mem_cons.1 stands
    obtain ⟨fragments, come, same⟩ := ih later
    refine ⟨.value s.length :: fragments, prepend (of_value? holds found) come,
      fun values before => ?_⟩
    rw [run, value?_mapValues, found, Fragment.joined_cons, ← String.append_assoc]
    exact same values _
  | case4 index slot rest scopes text missing =>
    refine ⟨[], by simp, fun values before => ?_⟩
    rw [run, value?_mapValues, missing]
    simp [Fragment.joined]
  | case5 id rest scopes text ih =>
    obtain ⟨-, later⟩ := List.forall_mem_cons.1 stands
    obtain ⟨fragments, come, same⟩ := ih fun step mem => by
      rcases List.mem_append.1 mem with mem | mem
      · obtain ⟨inst, -, rfl⟩ := List.mem_map.1 mem
        trivial
      · exact later step mem
    refine ⟨fragments, come, fun values before => ?_⟩
    rw [run, instancesOf_mapValues, same]
  | case6 block inst rest scopes text there ih =>
    obtain ⟨-, later⟩ := List.forall_mem_cons.1 stands
    obtain ⟨fragments, come, same⟩ := ih fun step mem =>
      (List.mem_append.1 mem).elim (stands_bodySteps m block step) (later step)
    refine ⟨fragments, come, fun values before => ?_⟩
    rw [run, b.size_instances_mapValues, if_pos there, same]
  | case7 block inst rest scopes text missing ih =>
    obtain ⟨-, later⟩ := List.forall_mem_cons.1 stands
    obtain ⟨fragments, come, same⟩ := ih later
    refine ⟨fragments, come, fun values before => ?_⟩
    rw [run, b.size_instances_mapValues, if_neg missing, same]
  | case8 rest scopes text ih =>
    obtain ⟨-, later⟩ := List.forall_mem_cons.1 stands
    obtain ⟨fragments, come, same⟩ := ih later
    refine ⟨fragments, come, fun values before => ?_⟩
    rw [run, same]

end Evaluation

namespace Bindings

open Evaluation Command

/-- A document is put together in the same way whatever the values are. The same commands with other
values leave bindings that differ in the values only, and there is one result for all of them: the
variable without a value, or the fragments of the text, each a literal of the template or the value
that a certain command set. -/
theorem render_opaque (m : Model) (commands : List Command) :
    ∃ result : Except UnboundVariable (List Fragment),
      (∀ fragments, result = .ok fragments → ∀ fragment ∈ fragments,
        fragment.ComesFrom m (commands.filterMap Command.value?).length) ∧
      ∀ commands', commands'.map blank = commands.map blank →
        (after m commands').mapValues (fun _ => "") = (after m commands).mapValues (fun _ => "") ∧
        (after m commands').render m =
          result.map (Fragment.joined (commands'.filterMap Command.value?)) := by
  let b := after m (tagged 0 commands)
  have holds : b.Holds fun tag => tag.length < (commands.filterMap Command.value?).length :=
    holds_after m fun tag mem => by simpa using length_lt_of_tagged mem
  have stands : ∀ step ∈ (m.block Model.root).body.toList.map Step.node, step.Stands m := by
    intro step mem
    obtain ⟨n, there, rfl⟩ := List.mem_map.1 mem
    exact ⟨Model.root, Array.mem_toList_iff.1 there⟩
  obtain ⟨fragments, come, same⟩ := exists_fragments holds stands [] ""
  let outcome := Evaluation.render m b [] Model.root
  refine ⟨outcome.error.elim (.ok fragments) .error, ?_, fun commands' alike => ⟨?_, ?_⟩⟩
  · intro fragments' found
    cases stopped : outcome.error with
    | none =>
      rw [stopped] at found
      cases found
      exact come
    | some e =>
      rw [stopped] at found
      cases found
  · rw [mapValues_after, mapValues_after]
    exact congrArg (after m) alike
  · have untagged : after m commands' =
        b.mapValues (valueAt (commands'.filterMap Command.value?)) := by
      rw [mapValues_after, ← tagged_blank, ← alike, tagged_blank]
      exact congrArg (after m) (map_valueAt_tagged [] commands').symm
    rw [render_eq_result, Evaluation.render, untagged, same, Outcome.result_eq]
    show (outcome.error.elim (.ok ("" ++ Fragment.joined _ fragments)) .error :
      Except UnboundVariable String) = _
    rw [String.empty_append]
    cases outcome.error <;> rfl

end Bindings

end Stencil
