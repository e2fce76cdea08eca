import Mathlib.Data.List.Dedup
import Stencil.Proofs.Spec

/-! # Workspaces along a run

What actions do to a workspace, and what the cache holds after them.
-/

/-! ## Runs of workspaces

What can be done with a workspace, one action after another, by the one who fills in its documents
and by others who change its files. Requests to the cache are inverted here once; apart from them an
action leaves the cache alone, and no action touches a document that is not selected.
-/

namespace Stencil

namespace Workspace

inductive Action
  | get (s : Spec)
  | clearCache
  /-- The files become others, by whatever means. -/
  | changeFiles (files : FileTree)
  | parse (source : String) (flags : FlagSet)
  | compile (source : String) (flags : FlagSet) (options : Options) (loader : Option Loader)
  | openSpec (s : Spec)
  | select (number : Nat)
  | clone
  | cloneFresh
  | set (name value : String)
  | setEscaped (name value : String)
  | add (name : String)
  | set? (name value : String)
  | add? (name : String)
  | reset
  | render
  | renderTo (sink : Sink)
  | renderToFile (path : String)

/-- The workspace after an action. An action that cannot be done changes nothing, and what a text
is written to belongs to it only if it is a file. -/
def act (w : Workspace) : Action → Workspace
  | .get s => (w.get s).2
  | .clearCache => w.clearCache
  | .changeFiles files => { w with files }
  | .parse source flags => (w.parse source flags).2
  | .compile source flags options loader => (w.compile source flags options loader).2
  | .openSpec s => (w.openSpec s).2
  | .select number => (w.select? number).getD w
  | .clone => w.clone?.getD w
  | .cloneFresh => w.cloneFresh?.getD w
  | .set name value => (w.set name value).2
  | .setEscaped name value => (w.setEscaped name value).2
  | .add name => (w.add name).2
  | .set? name value => (w.set? name value).2
  | .add? name => (w.add? name).2
  | .reset => w.reset.2
  | .render => w
  | .renderTo _ => w
  | .renderToFile path => (w.renderToFile path).2

/-- Setting a variable that the template may lack comes to the same as setting it. -/
theorem set?_eq (w : Workspace) (name value : String) :
    w.set? name value = ((w.set name value).1.map Except.isOk, (w.set name value).2) := by
  rw [set?, set, change]
  cases w.document? with
  | none => rfl
  | some d =>
    simp only [Option.map_some, Model.variableNumber]
    cases d.model.findVariable? name <;> rfl

theorem add?_eq (w : Workspace) (name : String) :
    w.add? name = ((w.add name).1.map Except.isOk, (w.add name).2) :=
  rfl

theorem act_set? (w : Workspace) (name value : String) :
    w.act (.set? name value) = w.act (.set name value) :=
  congrArg Prod.snd (w.set?_eq name value)

theorem act_add? (w : Workspace) (name : String) : w.act (.add? name) = w.act (.add name) :=
  congrArg Prod.snd (w.add?_eq name)

inductive Served (w : Workspace) (s : Spec) : Except Error Nat × Workspace → Prop
  | kept {e : Edition} : w.cache.find? s.key = some e →
      Served w s (.ok w.documents.size, { w.insert (.ofEdition e) with serial := w.serial + 1 })
  | compiled {model : Model} : w.cache.find? s.key = none → s.compile w.files = .ok model →
      Served w s (.ok w.documents.size,
        { w.insert (.ofEdition ⟨w.serial, model⟩) with
          cache := w.cache.insert s.key ⟨w.serial, model⟩
          serial := w.serial + 1 })
  | failed {e : Error} : w.cache.find? s.key = none → s.compile w.files = .error e →
      Served w s (.error e, w)

theorem served (w : Workspace) (s : Spec) : Served w s (w.get s) := by
  rw [get, Cache.get]
  cases found : w.cache.find? s.key with
  | some e => exact .kept found
  | none =>
    cases made : s.compile w.files with
    | error e => exact .failed found made
    | ok model => exact .compiled found made

def Action.ignoresCache : Action → Bool
  | get _ => false
  | clearCache => false
  | _ => true

/-- What every action but those on the cache leaves as it is: the cache and its serial numbers, of
which some may be used up, and all documents but the selected one. -/
structure Spares (w after : Workspace) : Prop where
  cache : after.cache = w.cache
  serial : w.serial ≤ after.serial
  others : ∀ i < w.documents.size, i ≠ w.selected → after.documents[i]? = w.documents[i]?

namespace Spares

variable {w : Workspace}

theorem refl (w : Workspace) : w.Spares w :=
  ⟨rfl, Nat.le_refl _, fun _ _ _ => rfl⟩

theorem insert (w : Workspace) (d : Document) : w.Spares (w.insert d) :=
  ⟨rfl, Nat.le_refl _, fun _ small _ =>
    (Array.getElem?_push_lt small).trans (Array.getElem?_eq_getElem small).symm⟩

theorem publish (w : Workspace) (compiled : Except Error Model) :
    w.Spares (w.publish compiled).2 := by
  cases compiled with
  | error e => exact .refl w
  | ok model =>
    have made := insert w (.ofEdition ⟨w.serial, model⟩)
    exact ⟨made.cache, Nat.le_succ _, made.others⟩

theorem derive (w : Workspace) (f : Document → Document) : w.Spares ((w.derive? f).getD w) := by
  rw [derive?]
  cases w.document? with
  | none => exact .refl w
  | some d => exact insert w (f d)

theorem modify (w : Workspace) (f : Document → Document) : w.Spares (w.modify f) := by
  refine ⟨rfl, Nat.le_refl _, fun i _ other => ?_⟩
  rw [Workspace.modify, Array.getElem?_modify, if_neg (Ne.symm other)]

theorem change {α : Type} (w : Workspace) (find : Model → Except Error α)
    (f : α → Document → Document) : w.Spares (w.change find f).2 := by
  rw [Workspace.change]
  split
  · exact .refl w
  · exact .refl w
  · exact modify w _

theorem renderToFile (w : Workspace) (path : String) : w.Spares (w.renderToFile path).2 := by
  rw [Workspace.renderToFile]
  split
  · exact .refl w
  · split
    · exact .refl w
    · split
      · exact .refl w
      · exact ⟨rfl, Nat.le_refl _, fun _ _ _ => rfl⟩

theorem act (w : Workspace) {a : Action} (ignores : a.ignoresCache = true) :
    w.Spares (w.act a) := by
  cases a with
  | get s => cases ignores
  | clearCache => cases ignores
  | changeFiles files => exact ⟨rfl, Nat.le_refl _, fun _ _ _ => rfl⟩
  | parse source flags => exact publish w _
  | compile source flags options loader => exact publish w _
  | openSpec s => exact publish w _
  | select number =>
    rw [Workspace.act, select?]
    split
    · exact ⟨rfl, Nat.le_refl _, fun _ _ _ => rfl⟩
    · exact .refl w
  | clone => exact derive w id
  | cloneFresh => exact derive w Document.fresh
  | set name value => exact change w _ _
  | setEscaped name value => exact change w _ _
  | add name => exact change w _ _
  | set? name value =>
    rw [act_set?]
    exact change w _ _
  | add? name =>
    rw [act_add?]
    exact change w _ _
  | reset => exact change w _ _
  | render => exact .refl w
  | renderTo sink => exact .refl w
  | renderToFile path => exact renderToFile w path

end Spares

variable {w : Workspace} {s : Spec}

/-- A specification that an edition is kept for gets a new document of that edition. -/
theorem get_of_kept {e : Edition} (found : w.cache.find? s.key = some e) :
    (w.get s).1 = .ok w.documents.size ∧
      (w.get s).2.documents = w.documents.push ⟨e, .ofModel e.model⟩ ∧
      (w.get s).2.cache = w.cache := by
  rw [get, Cache.get, found]
  exact ⟨rfl, rfl, rfl⟩

/-- A specification that no edition is kept for is compiled as without the cache, which keeps the
edition there is then. -/
theorem get_of_missing (missing : w.cache.find? s.key = none) :
    (w.get s).1 = (w.openSpec s).1 ∧ (w.get s).2.documents = (w.openSpec s).2.documents ∧
      (w.get s).2.cache =
        match s.compile w.files with
        | .error _ => w.cache
        | .ok model => w.cache.insert s.key ⟨w.serial, model⟩ := by
  rw [get, Cache.get, missing, openSpec]
  cases s.compile w.files with
  | error e => exact ⟨rfl, rfl, rfl⟩
  | ok model => exact ⟨rfl, rfl, rfl⟩

theorem get_of_error {e : Error} (failed : (w.get s).1 = .error e) : (w.get s).2 = w := by
  have ends := w.served s
  generalize w.get s = result at failed ends
  cases ends with
  | failed missing failed => rfl
  | _ => cases failed

/-- No action changes a document that is not selected. -/
theorem act_others (w : Workspace) (a : Action) {i : Nat} (there : i < w.documents.size)
    (other : i ≠ w.selected) : (w.act a).documents[i]? = w.documents[i]? := by
  cases a with
  | get s =>
    have ends := w.served s
    rw [act]
    generalize w.get s = result at ends
    cases ends with
    | failed missing failed => rfl
    | kept found => exact (Spares.insert w _).others i there other
    | compiled missing compiled => exact (Spares.insert w _).others i there other
  | clearCache => rfl
  | _ => exact (Spares.act w rfl).others i there other

end Workspace

/-! ## The cache over a history

A record of what has been obtained from the cache of a workspace, kept apart from the cache itself.
After any actions the cache holds just what has been obtained since it was last cleared, and whoever
asks for it again gets the same edition. Main statement: `cache_of_history`.
-/

namespace Cache

variable {c : Cache} {key : Spec.Key} {e : Edition}

theorem mem_of_find? (found : c.find? key = some e) : (key, e) ∈ c.entries := by
  obtain ⟨before, after, split, -⟩ := List.lookup_eq_some_iff.1 found
  rw [split]
  exact List.mem_append_right before List.mem_cons_self

theorem not_mem_of_find? (missing : c.find? key = none) : key ∉ c.entries.map Prod.fst := by
  intro there
  obtain ⟨entry, mem, rfl⟩ := List.mem_map.1 there
  have differs := List.lookup_eq_none_iff.1 missing entry mem
  exact absurd rfl (bne_iff_ne.1 differs)

/-- If there is one entry for each key, every entry is found. -/
theorem find?_eq_some_iff (distinct : (c.entries.map Prod.fst).Nodup) :
    c.find? key = some e ↔ (key, e) ∈ c.entries := by
  refine ⟨mem_of_find?, fun mem => ?_⟩
  cases found : c.find? key with
  | none => exact absurd (List.mem_map_of_mem mem) (not_mem_of_find? found)
  | some e' =>
    have same := List.inj_on_of_nodup_map distinct (mem_of_find? found) mem rfl
    exact congrArg some (Prod.mk.inj same).2

end Cache

namespace Workspace

/-- The key and the edition that a request for a specification obtains by how it ends. -/
def obtains (s : Spec) : Except Error Nat × Workspace → List (Spec.Key × Edition)
  | (.error _, _) => []
  | (.ok number, after) => after.documents[number]?.toList.map fun d => (s.key, d.edition)

theorem obtains_push {w after : Workspace} {d : Document} (s : Spec)
    (made : after.documents = w.documents.push d) :
    obtains s (.ok w.documents.size, after) = [(s.key, d.edition)] := by
  rw [obtains, made, Array.getElem?_push_size]
  rfl

/-- A workspace together with what has been obtained from its cache since it was last cleared. -/
structure History where
  workspace : Workspace
  obtained : List (Spec.Key × Edition)

namespace History

def ofFiles (files : FileTree) : History :=
  ⟨.ofFiles files, []⟩

def next (h : History) (a : Action) : History where
  workspace := h.workspace.act a
  obtained :=
    match a with
    | .get s => obtains s (h.workspace.get s) ++ h.obtained
    | .clearCache => []
    | _ => h.obtained

def after (h : History) (actions : List Action) : History :=
  actions.foldl next h

/-- The cache holds what has been obtained, one entry for each key. The editions of different keys
are different, and the next edition will be another one. -/
structure Kept (h : History) : Prop where
  distinct : (h.workspace.cache.entries.map Prod.fst).Nodup
  same : ∀ entry, entry ∈ h.workspace.cache.entries ↔ entry ∈ h.obtained
  apart : (h.workspace.cache.entries.map fun entry => entry.2.serial).Nodup
  fresh : ∀ entry ∈ h.workspace.cache.entries, entry.2.serial < h.workspace.serial

namespace Kept

theorem ofFiles (files : FileTree) : (ofFiles files).Kept :=
  ⟨.nil, fun _ => Iff.rfl, .nil, fun _ mem => absurd mem List.not_mem_nil⟩

variable {h : History}

/-- A request keeps the cache to what has been obtained. -/
theorem next_get (kept : h.Kept) (s : Spec) : (h.next (.get s)).Kept := by
  have ends := h.workspace.served s
  rw [next, act]
  generalize h.workspace.get s = result at ends
  cases ends with
  | failed missing failed => exact kept
  | @kept e found =>
    have there : (s.key, e) ∈ h.workspace.cache.entries := Cache.mem_of_find? found
    refine ⟨kept.distinct, fun entry => ?_, kept.apart, fun entry mem =>
      Nat.lt_succ_of_lt (kept.fresh entry mem)⟩
    rw [obtains_push s rfl]
    refine (kept.same entry).trans ⟨List.mem_cons_of_mem _, fun mem => ?_⟩
    rcases List.mem_cons.1 mem with rfl | mem
    · exact (kept.same _).1 there
    · exact mem
  | @compiled model missing compiled =>
    have new := Cache.not_mem_of_find? missing
    refine ⟨List.nodup_cons.2 ⟨new, kept.distinct⟩, fun entry => ?_,
      List.nodup_cons.2 ⟨fun mem => ?_, kept.apart⟩, fun entry mem => ?_⟩
    · rw [obtains_push s rfl]
      exact List.mem_cons.trans ((or_congr_right (kept.same entry)).trans List.mem_cons.symm)
    · obtain ⟨entry, mem, serial⟩ := List.mem_map.1 mem
      exact absurd serial (Nat.ne_of_lt (kept.fresh entry mem))
    · rcases List.mem_cons.1 mem with rfl | mem
      · exact Nat.lt_succ_self _
      · exact Nat.lt_succ_of_lt (kept.fresh entry mem)

/-- So does any other action. -/
theorem next_of_ignoresCache (kept : h.Kept) {a : Action} (ignores : a.ignoresCache = true) :
    (h.next a).Kept := by
  have spares := Spares.act h.workspace ignores
  have obtains : (h.next a).obtained = h.obtained := by
    cases a with
    | get s => cases ignores
    | clearCache => cases ignores
    | _ => rfl
  have cache : (h.next a).workspace.cache = h.workspace.cache := spares.cache
  refine ⟨cache ▸ kept.distinct, ?_, cache ▸ kept.apart, ?_⟩
  · rw [cache, obtains]
    exact kept.same
  · rw [cache]
    exact fun entry mem => Nat.lt_of_lt_of_le (kept.fresh entry mem) spares.serial

theorem next (kept : h.Kept) (a : Action) : (h.next a).Kept := by
  cases a with
  | get s => exact kept.next_get s
  | clearCache => exact ⟨.nil, fun _ => Iff.rfl, .nil, fun _ mem => absurd mem List.not_mem_nil⟩
  | _ => exact kept.next_of_ignoresCache rfl

theorem after (kept : h.Kept) (actions : List Action) : (h.after actions).Kept := by
  induction actions generalizing h with
  | nil => exact kept
  | cons a actions ih => exact ih (kept.next a)

/-- There are as many entries as different keys have been obtained. -/
theorem size_eq (kept : h.Kept) :
    h.workspace.cache.size = (h.obtained.map Prod.fst).dedup.length := by
  have keys : (h.workspace.cache.entries.map Prod.fst).Perm (h.obtained.map Prod.fst).dedup := by
    refine (List.perm_ext_iff_of_nodup kept.distinct (List.nodup_dedup _)).2 fun key => ?_
    simp only [List.mem_dedup, List.mem_map, kept.same]
  rw [← keys.length_eq, List.length_map, Cache.size]

/-- What has been obtained is found, and nothing else. -/
theorem find?_eq_some_iff (kept : h.Kept) {key : Spec.Key} {e : Edition} :
    h.workspace.cache.find? key = some e ↔ (key, e) ∈ h.obtained :=
  (Cache.find?_eq_some_iff kept.distinct).trans (kept.same _)

theorem find?_eq_none (kept : h.Kept) {key : Spec.Key} (never : key ∉ h.obtained.map Prod.fst) :
    h.workspace.cache.find? key = none := by
  cases found : h.workspace.cache.find? key with
  | none => rfl
  | some e => exact absurd (List.mem_map_of_mem (kept.find?_eq_some_iff.1 found)) never

end Kept

end History

/-- After any actions the cache has one entry for each key that has been obtained since it was last
cleared, where two specifications have the same key just if their sources, flags, directories and
options are the same, paths counting by their components. A key obtained before gives a new document
of the same edition, whatever the files are; any other is compiled now, and kept if it compiles. A
request that fails changes nothing, other actions do not change the cache, and none changes a
document but the selected one. -/
theorem cache_of_history (files : FileTree) (actions : List Action) :
    let h := (History.ofFiles files).after actions
    let w := h.workspace
    h.Kept ∧ w.cache.size = (h.obtained.map Prod.fst).dedup.length ∧
      (∀ s s' : Spec, s.key = s'.key ↔
        s.source.Alike s'.source ∧ s.flags = s'.flags ∧
          s.base.map Path.components = s'.base.map Path.components ∧ s.options = s'.options) ∧
      (∀ s e, (s.key, e) ∈ h.obtained →
        (w.get s).1 = .ok w.documents.size ∧
        (w.get s).2.documents = w.documents.push ⟨e, .ofModel e.model⟩ ∧
        (w.get s).2.cache = w.cache) ∧
      (∀ s, s.key ∉ h.obtained.map Prod.fst →
        (w.get s).1 = (w.openSpec s).1 ∧ (w.get s).2.documents = (w.openSpec s).2.documents ∧
        (w.get s).2.cache =
          match s.compile w.files with
          | .error _ => w.cache
          | .ok model => w.cache.insert s.key ⟨w.serial, model⟩) ∧
      (∀ s e, (w.get s).1 = .error e → (w.get s).2 = w) ∧
      ∀ a, (a.ignoresCache = true → (w.act a).cache = w.cache) ∧
        ∀ i < w.documents.size, i ≠ w.selected →
          (w.act a).documents[i]? = w.documents[i]? := by
  intro h w
  have kept : h.Kept := (History.Kept.ofFiles files).after actions
  refine ⟨kept, kept.size_eq, fun _ _ => Spec.key_eq_iff, fun s e known => ?_, fun s never => ?_,
    fun s e => get_of_error,
    fun a => ⟨fun ignores => (Spares.act w ignores).cache, fun i => w.act_others a⟩⟩
  · exact get_of_kept (kept.find?_eq_some_iff.2 known)
  · exact get_of_missing (kept.find?_eq_none never)

end Workspace

end Stencil
