import Stencil.Proofs.Workspace.History

/-! # The cache while files do not change

As long as the files stay as they are, a request to the cache ends as without the cache. The one
exception are paths that cannot be opened as they are written, where the cache may know the edition
of the same path written differently. Main statement: `get_of_unchanged_files`.
-/

namespace Stencil.Workspace

def Action.keepsFiles : Action → Bool
  | changeFiles _ => false
  | renderToFile _ => false
  | _ => true

variable {w : Workspace} {t : FileTree}

theorem files_publish (w : Workspace) (compiled : Except Error Model) :
    (w.publish compiled).2.files = w.files := by
  cases compiled <;> rfl

theorem files_derive (w : Workspace) (f : Document → Document) :
    ((w.derive? f).getD w).files = w.files := by
  rw [derive?]
  cases w.document? <;> rfl

theorem files_change {α : Type} (w : Workspace) (find : Model → Except Error α)
    (f : α → Document → Document) : (w.change find f).2.files = w.files := by
  rw [change]
  split <;> rfl

theorem files_get (w : Workspace) (s : Spec) : (w.get s).2.files = w.files := by
  have ends := w.served s
  generalize w.get s = result at ends
  cases ends <;> rfl

theorem files_act (w : Workspace) {a : Action} (keeps : a.keepsFiles = true) :
    (w.act a).files = w.files := by
  cases a with
  | get s => exact files_get w s
  | clearCache => rfl
  | changeFiles files => cases keeps
  | parse source flags => exact files_publish w _
  | compile source flags options loader => exact files_publish w _
  | openSpec s => exact files_publish w _
  | select number =>
    rw [act, select?]
    split <;> rfl
  | clone => exact files_derive w id
  | cloneFresh => exact files_derive w Document.fresh
  | set name value => exact files_change w _ _
  | setEscaped name value => exact files_change w _ _
  | add name => exact files_change w _ _
  | set? name value =>
    rw [act_set?]
    exact files_change w _ _
  | add? name =>
    rw [act_add?]
    exact files_change w _ _
  | reset => exact files_change w _ _
  | render => rfl
  | renderTo sink => rfl
  | renderToFile path => cases keeps

/-- The files are these, and every edition that is kept is what some specification of its key
compiles to. -/
structure Settled (t : FileTree) (w : Workspace) : Prop where
  unchanged : w.files = t
  current : ∀ entry ∈ w.cache.entries, ∃ s : Spec,
    s.key = entry.1 ∧ s.compile t = .ok entry.2.model

namespace Settled

theorem ofFiles (t : FileTree) : Settled t (.ofFiles t) :=
  ⟨rfl, fun _ mem => absurd mem List.not_mem_nil⟩

theorem get (settled : Settled t w) (s : Spec) : Settled t (w.get s).2 := by
  refine ⟨(files_get w s).trans settled.unchanged, ?_⟩
  have ends := w.served s
  generalize w.get s = result at ends
  cases ends with
  | failed missing failed => exact settled.current
  | kept found => exact settled.current
  | compiled missing compiled =>
    rw [settled.unchanged] at compiled
    exact List.forall_mem_cons.2 ⟨⟨s, rfl, compiled⟩, settled.current⟩

theorem act (settled : Settled t w) {a : Action} (keeps : a.keepsFiles = true) :
    Settled t (w.act a) := by
  cases ignores : a.ignoresCache with
  | true =>
    refine ⟨(files_act w keeps).trans settled.unchanged, ?_⟩
    rw [(Spares.act w ignores).cache]
    exact settled.current
  | false =>
    cases a with
    | get s => exact settled.get s
    | clearCache => exact ⟨settled.unchanged, fun _ mem => absurd mem List.not_mem_nil⟩
    | _ => cases ignores

theorem after (settled : Settled t w) {actions : List Action}
    (keep : ∀ a ∈ actions, a.keepsFiles = true) : Settled t (actions.foldl Workspace.act w) := by
  induction actions generalizing w with
  | nil => exact settled
  | cons a actions ih =>
    obtain ⟨first, rest⟩ := List.forall_mem_cons.1 keep
    exact ih (settled.act first) rest

end Settled

/-- The model of the document that an operation has made, or the error it has ended with. -/
def made (result : Except Error Nat × Workspace) : Option (Except Error Model) :=
  match result.1 with
  | .error e => some (.error e)
  | .ok number => result.2.documents[number]?.map fun d => .ok d.model

theorem made_openSpec (w : Workspace) (s : Spec) :
    made (w.openSpec s) = some (s.compile w.files) := by
  rw [made, openSpec]
  cases s.compile w.files with
  | error e => rfl
  | ok model => simp only [publish, insert, Array.getElem?_push_size]; rfl

theorem made_get_of_missing {s : Spec} (missing : w.cache.find? s.key = none) :
    made (w.get s) = made (w.openSpec s) := by
  obtain ⟨answer, documents, -⟩ := get_of_missing missing
  rw [made, made, answer, documents]

theorem made_get_of_kept {s : Spec} {e : Edition} (found : w.cache.find? s.key = some e) :
    made (w.get s) = some (.ok e.model) := by
  obtain ⟨answer, documents, -⟩ := get_of_kept found
  simp only [made, answer, documents, Array.getElem?_push_size]
  rfl

/-- As long as the files stay as they are, a request to the cache ends as without the cache: with an
equal model, or with the same error. Where it does not, a path cannot be opened as it is written,
and the model is that of a specification with the same key. -/
theorem get_of_unchanged_files (t : FileTree) {actions : List Action}
    (keep : ∀ a ∈ actions, a.keepsFiles = true) (s : Spec) :
    let w := actions.foldl act (.ofFiles t)
    made (w.get s) = made (w.openSpec s) ∨
      ∃ e m, ∃ s' : Spec, s.Misspelled e ∧ made (w.openSpec s) = some (.error (.load e)) ∧
        made (w.get s) = some (.ok m) ∧ s'.key = s.key ∧ s'.compile t = .ok m := by
  intro w
  have settled : Settled t w := (Settled.ofFiles t).after keep
  cases found : w.cache.find? s.key with
  | none => exact .inl (made_get_of_missing found)
  | some edition =>
    obtain ⟨s', same, compiled⟩ := settled.current _ (Cache.mem_of_find? found)
    rw [made_get_of_kept found, made_openSpec, settled.unchanged]
    rcases Spec.compile_of_key same.symm compiled with compiled' | ⟨_, ⟨e, misspelled, rfl⟩, failed⟩
    · exact .inl (by rw [compiled'])
    · exact .inr ⟨e, edition.model, s', misspelled, by rw [failed], rfl, same, compiled⟩

theorem get_of_unchanged_files_slash :
    (∀ a ∈ [Action.get { source := .file "a" }], a.keepsFiles = true) ∧
      let t : FileTree := ⟨[(["a"], .file "x".toUTF8)], []⟩
      let s : Spec := { source := .file "a/" }
      let w := [Action.get { source := .file "a" }].foldl act (.ofFiles t)
      made (w.get s) = made (w.openSpec s) ∨
        ∃ e m, ∃ s' : Spec, s.Misspelled e ∧ made (w.openSpec s) = some (.error (.load e)) ∧
          made (w.get s) = some (.ok m) ∧ s'.key = s.key ∧ s'.compile t = .ok m :=
  have keep : ∀ a ∈ [Action.get { source := .file "a" }], a.keepsFiles = true :=
    List.forall_mem_singleton.2 rfl
  ⟨keep, get_of_unchanged_files _ keep _⟩

/-- What has been compiled for one specification is the answer to others with its key. -/
theorem made_get_of_key {s s' : Spec} {m : Model} (same : s.key = s'.key)
    (compiled : s'.compile t = .ok m) :
    made (((ofFiles t).act (.get s')).get s) = some (.ok m) := by
  have cache : ((ofFiles t).act (.get s')).cache = Cache.empty.insert s'.key ⟨0, m⟩ := by
    have files : (ofFiles t).files = t := rfl
    rw [act, (get_of_missing rfl).2.2, files, compiled]
    rfl
  have found : ((ofFiles t).act (.get s')).cache.find? s.key = some ⟨0, m⟩ := by
    rw [cache, same]
    exact List.lookup_cons_self
  exact made_get_of_kept found

/-- The cache knows a file by two other paths by which it cannot be opened: one that ends with a
slash, and one that is too long. -/
theorem get_of_misspelled_path :
    let t : FileTree := ⟨[(["d"], .directory), (["d", "a"], .file "x".toUTF8)], []⟩
    let w := (ofFiles t).act (.get { source := .file "d/a" })
    let long := String.ofList (['d'] ++ '/' :: (List.replicate 4094 '/' ++ ['a']))
    ∃ m, made (w.get { source := .file "d/a/" }) = some (.ok m) ∧
      made (w.openSpec { source := .file "d/a/" }) =
        some (.error (.load ⟨"d/a/", .notDirectory⟩)) ∧
      made (w.get { source := .file long }) = some (.ok m) ∧
      made (w.openSpec { source := .file long }) =
        some (.error (.load ⟨long, .nameTooLong⟩)) := by
  intro t w long
  have checked : FileTree.checkPath "d/a" = .ok () := FileTree.checkPath_eq_ok_iff.2 (by decide)
  have walk : t.followAll (t.origin "d/a") (Path.segments "d/a".toList) = .ok ["d", "a"] := rfl
  have there : t.read "d/a" = .ok "x" :=
    FileTree.read_eq_ok_iff.2 ⟨checked, ["d", "a"], _, walk, rfl, dif_pos "x".isValidUTF8⟩
  have items : Item.ofText true "x" = .ok [.text "x"] := Item.ofText_of_drainWithin rfl rfl
  obtain ⟨m, compiled⟩ : ∃ m, Spec.compile { source := .file "d/a" } t = .ok m := by
    have loaded : Spec.load { source := .file "d/a" } t = .ok "x" :=
      (Except.mapError_eq_ok_iff (f := fun fault => .load ⟨"d/a", fault⟩)).2 there
    rw [Spec.compile, loaded]
    show ∃ m, Stencil.compile "x" .empty {} _ = .ok m
    rw [Stencil.compile, items]
    exact ⟨_, rfl⟩
  -- what another path with the same components gets, and what it gets without the cache
  have both {path : String} {fault : StorageFault}
      (same : Path.components path = Path.components "d/a")
      (failed : t.read path = .error fault) :
      made (w.get { source := .file path }) = some (.ok m) ∧
        made (w.openSpec { source := .file path }) = some (.error (.load ⟨path, fault⟩)) := by
    have key : Spec.key { source := .file path } = Spec.key { source := .file "d/a" } := by
      simp only [Spec.key, same]
    have files : w.files = t := files_act _ rfl
    refine ⟨made_get_of_key key compiled, ?_⟩
    rw [made_openSpec, files, Spec.compile_of_unreadable rfl failed]
  have slash : Path.components "d/a/" = Path.components "d/a" := rfl
  have read_slash : t.read "d/a/" = .error .notDirectory := by
    rw [FileTree.read_of_components slash there]
    rfl
  have slashes : Path.components long = Path.components "d/a" :=
    Path.components_slashes ['d'] ['a'] 4094
  have read_slashes : t.read long = .error .nameTooLong := by
    have size : FileTree.maxPathBytes < long.utf8ByteSize := by
      refine Nat.lt_of_lt_of_le ?_ (FileTree.length_le_utf8ByteSize _)
      simp only [List.length_append, List.length_cons, List.length_replicate]
      decide
    rw [FileTree.read_of_components slashes there, if_pos size]
  exact ⟨m, (both slash read_slash).1, (both slash read_slash).2, (both slashes read_slashes).1,
    (both slashes read_slashes).2⟩

end Stencil.Workspace
