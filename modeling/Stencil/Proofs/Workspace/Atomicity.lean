import Stencil.Proofs.Workspace.History

/-! # Operations that fail

An operation that fails, or that answers that there is no such name, leaves documents, cache and
files as they are. A variable can be set just if the outline of the template refers to it, and a
block can be added just if the outline has it. Main statement: `attempt_atomic`.
-/

namespace Stencil

/-! ## Names in the outline -/

namespace Model

variable {α : Type} {m : Model} {o : Outline α}

/-- The variables with a number are those that the outline refers to. -/
theorem variableNumber_of_layout (laid : m.layout = (o.number 1).layout) (name : String) :
    (m.variableNumber name).map (fun _ => ()) =
      if name ∈ o.references then .ok () else .error (.unknownVariable name) := by
  have found : m.findVariable? name = o.references.eraseDups.idxOf? name := by
    rw [← o.references_number 1]
    exact congrFun (congrArg Layout.variableIndex laid) name
  rw [variableNumber, found]
  by_cases mem : name ∈ o.references
  · rw [if_pos mem]
    cases place : o.references.eraseDups.idxOf? name with
    | none => exact absurd (List.mem_eraseDups.2 mem) (List.idxOf?_eq_none_iff.1 place)
    | some index => rfl
  · have absent : o.references.eraseDups.idxOf? name = none :=
      List.idxOf?_eq_none_iff.2 fun there => mem (List.mem_eraseDups.1 there)
    rw [if_neg mem, absent]
    rfl

/-- The blocks with a number are those of the outline. -/
theorem blockNumbers_of_layout (laid : m.layout = (o.number 1).layout) (name : String) :
    (m.blockNumbers name).map (fun _ => ()) =
      if name ∈ o.blockNames then .ok () else .error (.unknownBlock name) := by
  have names : m.blocks.toList.map (·.name) = "" :: o.blockNames := by
    have names := congrArg (List.map BlockLayout.name) (congrArg Layout.blocks laid)
    rw [layout, List.map_map] at names
    refine names.trans ?_
    rw [Outline.layout, List.map_cons, Outline.name_blockLayouts, o.blockNames_number 1]
    rfl
  rw [blockNumbers, blocksNamed_eq_idxsOf names]
  by_cases mem : name ∈ o.blockNames
  · rw [if_pos mem]
    cases found : o.blockNames.idxsOf name 1 with
    | nil => exact absurd mem (idxsOf_eq_nil_iff.1 found)
    | cons id ids => rfl
  · rw [if_neg mem, idxsOf_eq_nil_iff.2 mem]
    rfl

def IsCompiled (m : Model) : Prop :=
  ∃ source flags options loader, compile source flags options loader = .ok m

end Model

theorem Spec.isCompiled {s : Spec} {files : FileTree} {m : Model} (h : s.compile files = .ok m) :
    m.IsCompiled := by
  obtain ⟨text, -, compiled⟩ := Except.bind_eq_ok_iff.1 h
  exact ⟨text, _, _, _, compiled⟩

namespace Workspace

variable {w : Workspace}

/-! ## Attempts -/

inductive Attempt
  | parse (source : String) (flags : FlagSet)
  | compile (source : String) (flags : FlagSet) (options : Options) (loader : Option Loader)
  | openSpec (s : Spec)
  | get (s : Spec)
  | set (name value : String)
  | setEscaped (name value : String)
  | add (name : String)
  | set? (name value : String)
  | add? (name : String)
  | render
  | renderTo (sink : Sink)
  | renderToFile (path : String)

def Attempt.made (result : Except Error Nat × Workspace) : Option Bool × Workspace :=
  (some result.1.isOk, result.2)

def Attempt.served (result : Option (Except Error Unit) × Workspace) : Option Bool × Workspace :=
  (result.1.map Except.isOk, result.2)

/-- Whether an operation succeeds, and the workspace afterwards. There is no answer where an
operation needs a document and none is selected. -/
def attempt (w : Workspace) : Attempt → Option Bool × Workspace
  | .parse source flags => Attempt.made (w.parse source flags)
  | .compile source flags options loader => Attempt.made (w.compile source flags options loader)
  | .openSpec s => Attempt.made (w.openSpec s)
  | .get s => Attempt.made (w.get s)
  | .set name value => Attempt.served (w.set name value)
  | .setEscaped name value => Attempt.served (w.setEscaped name value)
  | .add name => Attempt.served (w.add name)
  | .set? name value => w.set? name value
  | .add? name => w.add? name
  | .render => (w.render.map Except.isOk, w)
  | .renderTo sink => ((w.renderTo sink).map fun written => written.1.isOk, w)
  | .renderToFile path => Attempt.served (w.renderToFile path)

theorem publish_of_not_isOk {compiled : Except Error Model}
    (failed : (w.publish compiled).1.isOk ≠ true) : (w.publish compiled).2 = w := by
  cases compiled with
  | error e => rfl
  | ok model => exact absurd rfl failed

theorem get_of_not_isOk {s : Spec} (failed : (w.get s).1.isOk ≠ true) : (w.get s).2 = w := by
  cases answer : (w.get s).1 with
  | error e => exact get_of_error answer
  | ok number =>
    rw [answer] at failed
    exact absurd rfl failed

section Change

variable {β : Type} {find : Model → Except Error β} {f : β → Document → Document}

theorem change_answer (w : Workspace) (find : Model → Except Error β)
    (f : β → Document → Document) :
    (w.change find f).1 = w.document?.map fun d => (find d.model).map fun _ => () := by
  rw [change]
  cases w.document? with
  | none => rfl
  | some d =>
    rw [Option.map_some, Option.map_some]
    cases find d.model <;> rfl

theorem change_of_not_isOk (failed : (w.change find f).1.map Except.isOk ≠ some true) :
    (w.change find f).2 = w := by
  rw [change] at failed ⊢
  split at failed
  · rfl
  · rfl
  · exact absurd rfl failed

end Change

theorem renderToFile_of_not_isOk {path : String}
    (failed : (w.renderToFile path).1.map Except.isOk ≠ some true) :
    (w.renderToFile path).2 = w := by
  rw [renderToFile] at failed ⊢
  split at failed
  · rfl
  · split at failed
    · rfl
    · split at failed
      · rfl
      · exact absurd rfl failed

theorem attempt_of_not_done {a : Attempt} (failed : (w.attempt a).1 ≠ some true) :
    (w.attempt a).2 = w := by
  have made {result : Except Error Nat} (failed : some result.isOk ≠ some true) :
      result.isOk ≠ true := fun done => failed (congrArg some done)
  cases a with
  | parse source flags => exact publish_of_not_isOk (made failed)
  | compile source flags options loader => exact publish_of_not_isOk (made failed)
  | openSpec s => exact publish_of_not_isOk (made failed)
  | get s => exact get_of_not_isOk (made failed)
  | set name value => exact change_of_not_isOk failed
  | setEscaped name value => exact change_of_not_isOk failed
  | add name => exact change_of_not_isOk failed
  | set? name value =>
    rw [attempt, set?_eq] at failed ⊢
    exact change_of_not_isOk failed
  | add? name =>
    rw [attempt, add?_eq] at failed ⊢
    exact change_of_not_isOk failed
  | render => rfl
  | renderTo sink => rfl
  | renderToFile path => exact renderToFile_of_not_isOk failed

/-! ## Where models come from -/

structure Compiled (w : Workspace) : Prop where
  documents : ∀ d ∈ w.documents, d.model.IsCompiled
  cache : ∀ entry ∈ w.cache.entries, entry.2.model.IsCompiled

namespace Compiled

theorem insert (compiled : w.Compiled) {d : Document} (made : d.model.IsCompiled) :
    (w.insert d).Compiled where
  documents other mem := by
    rcases Array.mem_push.1 mem with old | rfl
    · exact compiled.documents other old
    · exact made
  cache := compiled.cache

theorem publish (compiled : w.Compiled) {result : Except Error Model}
    (made : ∀ m, result = .ok m → m.IsCompiled) : (w.publish result).2.Compiled := by
  cases result with
  | error e => exact compiled
  | ok m =>
    have inserted : (w.insert (.ofEdition ⟨w.serial, m⟩)).Compiled := compiled.insert (made m rfl)
    exact ⟨inserted.documents, inserted.cache⟩

theorem derive (compiled : w.Compiled) {f : Document → Document}
    (keeps : ∀ d, (f d).edition = d.edition) : ((w.derive? f).getD w).Compiled := by
  rw [derive?]
  cases selected : w.document? with
  | none => exact compiled
  | some d =>
    have made := compiled.documents d (Array.mem_of_getElem? selected)
    refine compiled.insert ?_
    rw [Document.model, keeps]
    exact made

theorem modify (compiled : w.Compiled) {f : Document → Document}
    (keeps : ∀ d, (f d).edition = d.edition) : (w.modify f).Compiled where
  documents d mem := by
    obtain ⟨i, there⟩ := Array.getElem?_of_mem mem
    rw [Workspace.modify, Array.getElem?_modify] at there
    split at there
    · obtain ⟨d', old, rfl⟩ := Option.map_eq_some_iff.1 there
      rw [Document.model, keeps]
      exact compiled.documents d' (Array.mem_of_getElem? old)
    · exact compiled.documents d (Array.mem_of_getElem? there)
  cache := compiled.cache

theorem change (compiled : w.Compiled) {β : Type} {find : Model → Except Error β}
    {f : β → Document → Document} (keeps : ∀ found d, (f found d).edition = d.edition) :
    (w.change find f).2.Compiled := by
  rw [Workspace.change]
  split
  · exact compiled
  · exact compiled
  · next found _ => exact compiled.modify (keeps found)

theorem get (compiled : w.Compiled) (s : Spec) : (w.get s).2.Compiled := by
  have ends := w.served s
  generalize w.get s = result at ends
  cases ends with
  | failed missing failed => exact compiled
  | @kept e found =>
    have made := compiled.cache _ (Cache.mem_of_find? found)
    have inserted : (w.insert (.ofEdition e)).Compiled := compiled.insert made
    exact ⟨inserted.documents, inserted.cache⟩
  | @compiled model missing made =>
    have made := Spec.isCompiled made
    have inserted : (w.insert (.ofEdition ⟨w.serial, model⟩)).Compiled := compiled.insert made
    refine ⟨inserted.documents, fun entry mem => ?_⟩
    rcases List.mem_cons.1 mem with rfl | mem
    · exact made
    · exact compiled.cache entry mem

theorem act (compiled : w.Compiled) (a : Action) : (w.act a).Compiled := by
  cases a with
  | get s => exact compiled.get s
  | clearCache => exact ⟨compiled.documents, by simp [Workspace.act, clearCache, Cache.empty]⟩
  | changeFiles files => exact ⟨compiled.documents, compiled.cache⟩
  | parse source flags => exact compiled.publish fun m made => ⟨_, _, _, _, made⟩
  | compile source flags options loader =>
    exact compiled.publish fun m made => ⟨_, _, _, _, made⟩
  | openSpec s => exact compiled.publish fun m => Spec.isCompiled
  | select number =>
    rw [Workspace.act, select?]
    split
    · exact ⟨compiled.documents, compiled.cache⟩
    · exact compiled
  | clone => exact compiled.derive fun _ => rfl
  | cloneFresh => exact compiled.derive fun _ => rfl
  | set name value => exact compiled.change fun _ _ => rfl
  | setEscaped name value => exact compiled.change fun _ _ => rfl
  | add name => exact compiled.change fun _ _ => rfl
  | set? name value =>
    rw [act_set?]
    exact compiled.change fun _ _ => rfl
  | add? name =>
    rw [act_add?]
    exact compiled.change fun _ _ => rfl
  | reset => exact compiled.change fun _ _ => rfl
  | render => exact compiled
  | renderTo sink => exact compiled
  | renderToFile path =>
    rw [Workspace.act, Workspace.renderToFile]
    split
    · exact compiled
    · split
      · exact compiled
      · split
        · exact compiled
        · exact ⟨compiled.documents, compiled.cache⟩

theorem after (compiled : w.Compiled) (actions : List Action) :
    (actions.foldl Workspace.act w).Compiled := by
  induction actions generalizing w with
  | nil => exact compiled
  | cons a actions ih => exact ih (compiled.act a)

end Compiled

/-! ## Failing changes nothing -/

/-- An operation that does not succeed leaves the workspace as it is, and a sink receives nothing if
it is the rendering that fails. The operations that answer instead of failing answer as the others
succeed, and do the same then. Where the model of a document is that of a template, as it always is
in a workspace that has been reached, these fail just for the names that the outline of the template
lacks. -/
theorem attempt_atomic (w : Workspace) :
    (∀ a, (w.attempt a).1 ≠ some true → (w.attempt a).2 = w) ∧
    (∀ sink e, w.render = some (.error e) → w.renderTo sink = some (.error e, sink)) ∧
    (∀ name value,
      w.set? name value = ((w.set name value).1.map Except.isOk, (w.set name value).2)) ∧
    (∀ name, w.add? name = ((w.add name).1.map Except.isOk, (w.add name).2)) ∧
    (∀ d source flags options loader, w.document? = some d →
      Stencil.compile source flags options loader = .ok d.model →
      ∃ o, Outline.ofSource source flags options loader = .ok o ∧
        (∀ name value, (w.set name value).1 =
          some (if name ∈ o.references then .ok () else .error (.unknownVariable name))) ∧
        (∀ name value, (w.setEscaped name value).1 =
          some (if name ∈ o.references then .ok () else .error (.unknownVariable name))) ∧
        ∀ name, (w.add name).1 =
          some (if name ∈ o.blockNames then .ok () else .error (.unknownBlock name))) ∧
    ∀ files (actions : List Action), w = actions.foldl act (ofFiles files) →
      ∀ d ∈ w.documents, d.model.IsCompiled := by
  refine ⟨fun a => attempt_of_not_done, fun sink e failed => ?_, w.set?_eq, w.add?_eq,
    fun d source flags options loader selected compiled => ?_, ?_⟩
  · obtain ⟨d, selected, failed⟩ := Option.map_eq_some_iff.1 failed
    rw [renderTo, selected, Option.map_some, Document.renderTo, failed]
  · rw [compile_eq_map_ofSource, Except.map_eq_ok_iff] at compiled
    obtain ⟨o, found, same⟩ := compiled
    have laid : d.model.layout = (o.number 1).layout := same ▸ Model.layout_ofPieces o
    have sets (name value : String) : (w.set name value).1 =
        some (if name ∈ o.references then .ok () else .error (.unknownVariable name)) := by
      rw [set, change_answer, selected, Option.map_some, Model.variableNumber_of_layout laid]
    refine ⟨o, found, sets, fun name value => sets name _, fun name => ?_⟩
    rw [add, change_answer, selected, Option.map_some, Model.blockNumbers_of_layout laid]
  · rintro files actions rfl
    have start : (ofFiles files).Compiled :=
      ⟨by simp [ofFiles], by simp [ofFiles, Cache.empty]⟩
    exact (start.after actions).documents

theorem attempt_rows :
    let w := ((ofFiles (.ofCurrent [])).parse "[beginblock:row]{x}[endblock:row]" .empty).2
    ∃ o, Outline.ofSource "[beginblock:row]{x}[endblock:row]" .empty {} none = .ok o ∧
      (∀ name value, (w.set name value).1 =
        some (if name ∈ o.references then .ok () else .error (.unknownVariable name))) ∧
      (∀ name value, (w.setEscaped name value).1 =
        some (if name ∈ o.references then .ok () else .error (.unknownVariable name))) ∧
      ∀ name, (w.add name).1 =
        some (if name ∈ o.blockNames then .ok () else .error (.unknownBlock name)) := by
  intro w
  obtain ⟨m, compiled⟩ := compile_rows
  have selected : w.document? = some (.ofEdition ⟨0, m⟩) := by
    simp only [w, parse, compiled]
    rfl
  obtain ⟨-, -, -, -, fails, -⟩ := attempt_atomic w
  exact fails (.ofEdition ⟨0, m⟩) _ _ _ _ selected compiled

end Workspace

end Stencil
