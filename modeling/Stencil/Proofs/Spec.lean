import Stencil.Proofs.Outline.Inclusion
import Stencil.Proofs.Path
import Stencil.Workspace

/-! # Reading specifications

What a specification is compiled to depends on its key, unless a path cannot be opened as it is
written.
-/

/-! ## Reading files

A file is found by the segments of its path that take a step. Another path with the same components
leads to it as well, unless it is too long or ends like the path of a directory. Main statement:
`read_of_components`.
-/

namespace Stencil.FileTree

open Stencil.Path (components endsIdle isIdle segments taken)

variable {t : FileTree} {place final : Location}

theorem follow_of_idle {segment : List Char} (idle : isIdle segment = true) :
    t.follow place segment = (t.checkDirectory place).map fun _ => place := by
  rw [follow, if_pos idle]
  cases t.checkDirectory place <;> rfl

theorem checkDirectory_of_follow {segment : List Char} (went : t.follow place segment = .ok final) :
    t.checkDirectory place = .ok () := by
  rw [follow] at went
  obtain ⟨_, directory, -⟩ := Except.bind_eq_ok_iff.1 went
  exact directory

theorem followAll_cons_eq_ok_iff {s : List Char} {ss : List (List Char)} :
    t.followAll place (s :: ss) = .ok final ↔
      ∃ next, t.follow place s = .ok next ∧ t.followAll next ss = .ok final := by
  rw [followAll]
  cases t.follow place s <;> simp

/-- Segments that take no step are not needed. -/
theorem followAll_taken {ss : List (List Char)} (went : t.followAll place ss = .ok final) :
    t.followAll place (taken ss) = .ok final := by
  induction ss generalizing place with
  | nil => exact went
  | cons s ss ih =>
    obtain ⟨next, first, rest⟩ := followAll_cons_eq_ok_iff.1 went
    cases idle : isIdle s with
    | true =>
      rw [follow_of_idle idle] at first
      obtain ⟨_, -, rfl⟩ := Except.map_eq_ok_iff.1 first
      rw [taken, List.filter_cons_of_neg (by simp [idle])]
      exact ih rest
    | false =>
      rw [taken, List.filter_cons_of_pos (by simp [idle])]
      exact followAll_cons_eq_ok_iff.2 ⟨next, first, ih rest⟩

/-- Nor do they matter on the way to a file, except at the end, where a directory would have to
be. -/
theorem followAll_of_taken {ss : List (List Char)} {content : ByteArray}
    (file : t.entry? final = some (.file content))
    (went : t.followAll place (taken ss) = .ok final) :
    t.followAll place ss =
      if ss.getLast?.any isIdle then .error .notDirectory else .ok final := by
  induction ss generalizing place with
  | nil => exact went
  | cons s ss ih =>
    cases idle : isIdle s with
    | false =>
      rw [taken, List.filter_cons_of_pos (by simp [idle])] at went
      obtain ⟨next, first, rest⟩ := followAll_cons_eq_ok_iff.1 went
      have last : (s :: ss).getLast?.any isIdle = ss.getLast?.any isIdle := by
        cases ss with
        | nil => exact idle
        | cons s' ss => rw [List.getLast?_cons_cons]
      rw [followAll, first, last]
      exact ih rest
    | true =>
      rw [taken, List.filter_cons_of_neg (by simp [idle])] at went
      rw [followAll, follow_of_idle idle]
      cases steps : taken ss with
      | nil =>
        -- the file has been reached, and a directory is asked for
        obtain rfl : place = final := by
          rw [← taken, steps] at went
          exact Except.ok.inj went
        have last : (s :: ss).getLast?.any isIdle = true := by
          have all : ∀ s' ∈ s :: ss, isIdle s' = true := by
            refine List.forall_mem_cons.2 ⟨idle, fun s' mem => ?_⟩
            simpa using List.filter_eq_nil_iff.1 steps s' mem
          rw [List.getLast?_eq_some_getLast (List.cons_ne_nil s ss), Option.any_some]
          exact all _ (List.getLast_mem _)
        rw [checkDirectory, file, last]
        rfl
      | cons s' ss' =>
        -- the next step starts from here
        have directory : t.checkDirectory place = .ok () := by
          rw [← taken, steps] at went
          obtain ⟨next, first, -⟩ := followAll_cons_eq_ok_iff.1 went
          exact checkDirectory_of_follow first
        have last : (s :: ss).getLast?.any isIdle = ss.getLast?.any isIdle := by
          cases ss with
          | nil => cases steps
          | cons s' ss => rw [List.getLast?_cons_cons]
        rw [directory, last]
        exact ih went

/-- A path has at least as many bytes as characters. -/
theorem length_le_utf8ByteSize (cs : List Char) : cs.length ≤ (String.ofList cs).utf8ByteSize := by
  induction cs with
  | nil => exact Nat.zero_le _
  | cons c cs ih =>
    have split : String.ofList (c :: cs) = String.singleton c ++ String.ofList cs :=
      @String.ofList_append [c] cs
    rw [split, String.utf8ByteSize_append, String.utf8ByteSize_singleton, List.length_cons,
      Nat.add_comm]
    exact Nat.add_le_add c.utf8Size_pos ih

/-- What a path must be, in terms of its characters. -/
theorem checkPath_eq_ok_iff {path : String} :
    checkPath path = .ok () ↔
      '\x00' ∉ path.toList ∧ path ≠ "" ∧ path.utf8ByteSize ≤ maxPathBytes := by
  rw [checkPath]
  split
  · next nul => simp_all
  · next clean =>
    split
    · next empty => simp_all
    · next nonempty =>
      split
      · next long => simp_all
      · next short => simp_all

/-- A file that can be read is found by its path, and its content is a text. -/
theorem read_eq_ok_iff {path text : String} :
    t.read path = .ok text ↔ checkPath path = .ok () ∧ ∃ place content,
      t.followAll (t.origin path) (segments path.toList) = .ok place ∧
        t.entry? place = some (.file content) ∧ String.fromUTF8? content = some text := by
  constructor
  · intro h
    rw [read, readBytes, resolve] at h
    obtain ⟨content, found, decoded⟩ := Except.bind_eq_ok_iff.1 h
    obtain ⟨place, went, here⟩ := Except.bind_eq_ok_iff.1 found
    obtain ⟨_, checked, went⟩ := Except.bind_eq_ok_iff.1 went
    refine ⟨checked, place, content, went, ?_, ?_⟩
    · split at here
      · cases here
      · cases here
      · next file =>
        cases here
        exact file
    · split at decoded
      · next decodes =>
        cases decoded
        exact decodes
      · cases decoded
  · rintro ⟨checked, place, content, went, file, decoded⟩
    have resolved : t.resolve path = .ok place := by
      rw [resolve, checked]
      exact went
    have found : t.readBytes path = .ok content := by
      simp only [readBytes, resolved, file, bind, Except.bind]
    simp only [read, found, decoded, bind, Except.bind]

theorem read_of_components {path path' text : String} (same : components path = components path')
    (there : t.read path' = .ok text) :
    t.read path =
      if maxPathBytes < path.utf8ByteSize then .error .nameTooLong
      else if endsIdle path then .error .notDirectory
      else .ok text := by
  obtain ⟨checked', place, content, went', file, decoded⟩ := read_eq_ok_iff.1 there
  obtain ⟨clean', nonempty', -⟩ := checkPath_eq_ok_iff.1 checked'
  obtain ⟨-, steps⟩ := Path.components_eq_iff.1 same
  have clean : '\x00' ∉ path.toList := by
    rw [← Path.mem_taken_iff (by decide) (by decide), steps,
      Path.mem_taken_iff (by decide) (by decide)]
    exact clean'
  have nonempty : path ≠ "" := by
    rw [Ne, ← Path.components_eq_nil_iff, same, Path.components_eq_nil_iff]
    exact nonempty'
  have origin : t.origin path = t.origin path' := by
    rw [FileTree.origin, FileTree.origin, Path.isAbsolute_eq_of_components same]
  have went := followAll_taken went'
  rw [← steps, ← origin] at went
  have walk : t.followAll (t.origin path) (segments path.toList) =
      if endsIdle path then .error .notDirectory else .ok place :=
    followAll_of_taken file went
  by_cases long : maxPathBytes < path.utf8ByteSize
  · have failed : checkPath path = .error .nameTooLong := by
      simp [checkPath, clean, nonempty, long]
    rw [if_pos long, read, readBytes, resolve, failed]
    rfl
  · have checked : checkPath path = .ok () :=
      checkPath_eq_ok_iff.2 ⟨clean, nonempty, Nat.le_of_not_lt long⟩
    rw [if_neg long]
    by_cases ends : endsIdle path = true
    · rw [if_pos ends] at walk
      have failed : t.resolve path = .error .notDirectory := by
        rw [resolve, checked]
        exact walk
      rw [if_pos ends, read, readBytes, failed]
      rfl
    · rw [if_neg ends] at walk ⊢
      exact read_eq_ok_iff.2 ⟨checked, place, content, walk, file, decoded⟩

/-- A file is not read by a path that ends like that of a directory. -/
theorem endsIdle_of_read {path text : String} (there : t.read path = .ok text) :
    endsIdle path = false := by
  have again := read_of_components rfl there
  rw [there] at again
  split at again
  · cases again
  · split at again
    · cases again
    · next ends => exact Bool.eq_false_iff.2 ends

end Stencil.FileTree

/-! ## Specifications with the same key

Specifications with the same key differ in how their paths are written only. If one of them
compiles, the other one compiles to the same model, unless a path of it cannot be opened as it is
written. Main statements: `key_eq_iff`, `compile_of_key`.
-/

namespace Stencil.Spec

variable {s s' : Spec} {t : FileTree}

/-- The load errors that come from how a path is written and not from where it leads: the path is
too long, or the file of the specification is written like a directory. -/
inductive Misspelled (s : Spec) : LoadError → Prop
  | tooLong {path : String} : FileTree.maxPathBytes < path.utf8ByteSize →
      Misspelled s ⟨path, .nameTooLong⟩
  | asDirectory {path : String} : s.source = .file path → Path.endsIdle path = true →
      Misspelled s ⟨path, .notDirectory⟩

def Excused (s : Spec) (e : Error) : Prop :=
  ∃ cause, s.Misspelled cause ∧ e = .load cause

/-- The same text, or files with the same components: what `Source` comes to in a key. -/
inductive Source.Alike : Source → Source → Prop
  | text {content : String} : Alike (.text content) (.text content)
  | file {path path' : String} : Path.components path = Path.components path' →
      Alike (.file path) (.file path')

theorem source_key_eq_iff : s.key.source = s'.key.source ↔ s.source.Alike s'.source := by
  obtain ⟨source, _, _, _⟩ := s
  obtain ⟨source', _, _, _⟩ := s'
  constructor
  · intro same
    cases source with
    | text content =>
      cases source' with
      | text content' =>
        cases same
        exact .text
      | file path' => cases same
    | file path =>
      cases source' with
      | text content' => cases same
      | file path' => exact .file (SourceKey.file.inj same)
  · intro alike
    cases alike with
    | text => rfl
    | file here => exact congrArg SourceKey.file here

/-- Nothing else distinguishes specifications, and all of this does. -/
theorem key_eq_iff : s.key = s'.key ↔
    s.source.Alike s'.source ∧ s.flags = s'.flags ∧
      s.base.map Path.components = s'.base.map Path.components ∧ s.options = s'.options := by
  rw [← source_key_eq_iff]
  constructor
  · intro same
    exact ⟨congrArg Key.source same, congrArg Key.flags same, congrArg Key.base same,
      congrArg Key.options same⟩
  · rintro ⟨sources, flags, bases, options⟩
    exact Key.ext sources flags bases options

/-- Subtemplates are looked up in the same place for the same key. -/
theorem components_loaderBase? (same : s.key = s'.key) :
    s.loaderBase?.map Path.components = s'.loaderBase?.map Path.components := by
  obtain ⟨alike, -, bases, -⟩ := key_eq_iff.1 same
  rw [loaderBase?, loaderBase?]
  cases base : s.base with
  | some _ =>
    cases base' : s'.base with
    | some _ => rwa [base, base'] at bases
    | none =>
      rw [base, base'] at bases
      cases bases
  | none =>
    cases base' : s'.base with
    | some _ =>
      rw [base, base'] at bases
      cases bases
    | none =>
      generalize s.source = source, s'.source = source' at alike
      cases alike with
      | text => rfl
      | file here => simp only [Option.map_some, Path.components_parent, here]

theorem load_nearly (same : s.key = s'.key) {text : String} (loaded : s'.load t = .ok text) :
    Nearly s.Excused (s.load t) text := by
  rw [load] at loaded ⊢
  have alike := (key_eq_iff.1 same).1
  generalize source : s.source = origin, s'.source = origin' at alike loaded
  cases alike with
  | text => exact .inl loaded
  | file here =>
    simp only [FileTree.read_of_components here (Except.mapError_eq_ok_iff.1 loaded)]
    split
    · next long => exact .inr ⟨_, ⟨_, .tooLong long, rfl⟩, rfl⟩
    · split
      · next ends => exact .inr ⟨_, ⟨_, .asDirectory source ends, rfl⟩, rfl⟩
      · exact .inl rfl

theorem loader_nearly {base base' name text : String}
    (same : Path.components base = Path.components base')
    (loaded : t.loader base' name = .ok text) :
    t.loader base name = .ok text ∨ ∃ e, s.Excused e ∧ t.loader base name = .error e := by
  rw [FileTree.loader] at loaded ⊢
  have there := Except.mapError_eq_ok_iff.1 loaded
  obtain ⟨joined, ends⟩ := Path.components_join same name
  have file : Path.endsIdle (Path.join base name) = false := by
    rw [ends]
    exact FileTree.endsIdle_of_read there
  simp only [FileTree.read_of_components joined there, file]
  split
  · next long => exact .inr ⟨_, ⟨_, .tooLong long, rfl⟩, rfl⟩
  · exact .inl rfl

theorem compile_of_key (same : s.key = s'.key) {m : Model} (compiled : s'.compile t = .ok m) :
    Nearly s.Excused (s.compile t) m := by
  rw [compile] at compiled ⊢
  obtain ⟨text, loaded, made⟩ := Except.bind_eq_ok_iff.1 compiled
  refine (load_nearly same loaded).bind ?_
  obtain ⟨-, flags, -, options⟩ := key_eq_iff.1 same
  have bases := components_loaderBase? same
  rw [loader?] at made ⊢
  rw [flags, options]
  cases base : s.loaderBase? with
  | none =>
    cases base' : s'.loaderBase? with
    | none =>
      rw [base'] at made
      exact .inl made
    | some _ => simp [base, base'] at bases
  | some base =>
    cases base' : s'.loaderBase? with
    | none => simp [base, base'] at bases
    | some base' =>
      rw [base, base'] at bases
      rw [base'] at made
      exact compile_nearly (fun name text => loader_nearly (Option.some.inj bases)) made

/-- A specification whose file cannot be read does not compile. -/
theorem compile_of_unreadable {path : String} {fault : StorageFault}
    (source : s.source = .file path) (failed : t.read path = .error fault) :
    s.compile t = .error (.load ⟨path, fault⟩) := by
  have loaded : s.load t = .error (.load ⟨path, fault⟩) := by
    simp only [load, source]
    exact Except.mapError_eq_error_iff.2 ⟨fault, failed, rfl⟩
  rw [compile, loaded]
  rfl

end Stencil.Spec
