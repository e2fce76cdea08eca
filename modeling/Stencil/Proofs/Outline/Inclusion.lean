import Stencil.Proofs.Item.Inclusion
import Stencil.Proofs.Outline.Compilation

/-! # Includes

An include marker does the same wherever it stands and however it is written.
-/

/-! ## Including is substitution

A subtemplate is expanded where its marker stands, from the same state and with the same loader, so
a template in which the line of the marker is replaced by the included text compiles to the same
model. The included text then stands one include less deep, which makes no difference to an
expansion that succeeds. Main statement: `compile_include`.
-/

namespace Stencil

namespace Expansion

variable {flags : FlagSet} {options : Options} {loader : Option Loader}
  {origin origin' : Option String} {splice splice' : Splice} {st st' : State}

/-! ### Expansions that succeed -/

/-- Whatever the first one includes is included by the second one in the same way, wherever the
marker stands. -/
def Splice.Below (splice splice' : Splice) : Prop :=
  ∀ name position marker position' marker' st after,
    splice name position marker st = .ok after → splice' name position' marker' st = .ok after

theorem step_of_bare (below : splice.Below splice') {item item' : Item}
    (same : item.bare = item'.bare) {after : State}
    (h : step flags origin splice st item = .ok after) :
    step flags origin' splice' st item' = .ok after := by
  cases item with
  | beginBlock name position =>
    cases item' <;> cases same
    simp only [step, State.openBlock] at h ⊢
    split at h
    · next discarded =>
      rw [if_pos discarded]
      exact h
    · next kept =>
      split at h
      · cases h
      · next fresh =>
        rw [if_neg kept, if_neg fresh]
        exact h
  | inclusion name position marker =>
    cases item' <;> cases same
    simp only [step] at h ⊢
    split at h
    · next kept =>
      rw [if_pos kept]
      exact below _ _ _ _ _ _ _ h
    · next discarded =>
      rw [if_neg discarded]
      exact h
  | _ =>
    cases item' <;> cases same
    exact h

theorem step_of_alike (below : splice.Below splice') {item item' : Item} (alike : item.Alike item')
    {after : State} (h : step flags origin splice st item = .ok after) :
    step flags origin' splice' st item' = .ok after := by
  cases alike with
  | bare same => exact step_of_bare below same h
  | ifCond same => rwa [step, same]
  | elseIf same => rwa [step, same]

theorem steps_of_alike (below : splice.Below splice') {items items' : List Item}
    (alike : List.Forall₂ Item.Alike items items')
    (h : steps flags origin splice st items = .ok st') :
    steps flags origin' splice' st items' = .ok st' := by
  induction alike generalizing st with
  | nil => exact h
  | cons here _ ih =>
    rw [steps_cons] at h ⊢
    obtain ⟨between, first, onward⟩ := Except.bind_eq_ok_iff.1 h
    exact Except.bind_eq_ok_iff.2 ⟨between, step_of_alike below here first, ih onward⟩

/-! ### Expansions at a depth -/

def spliceAt (flags : FlagSet) (options : Options) (loader : Option Loader) :
    (depth : Nat) → Option String → Splice
  | 0, origin => fun _ position marker _ =>
    .error (.malformed ⟨.includeTooDeep options.maxIncludeDepth, position, marker, origin⟩)
  | depth + 1, origin => fun name position marker st =>
    match loader with
    | none => .error (.malformed ⟨.includeUnavailable, position, marker, origin⟩)
    | some load =>
      match load name with
      | .error e => .error e
      | .ok text =>
        match Item.ofText options.trim text with
        | .error e => .error (.malformed (e.within name))
        | .ok items => expand flags options loader depth (some name) st items

theorem expand_eq_steps (depth : Nat) :
    expand flags options loader depth origin =
      steps flags origin (spliceAt flags options loader depth origin) := by
  cases depth <;> rfl

/-- An include succeeds with the expansion of the text that is loaded. -/
theorem spliceAt_ok {depth : Nat} {name marker : String} {position : Position}
    (h : spliceAt flags options loader depth origin name position marker st = .ok st') :
    ∃ shallower load text items, depth = shallower + 1 ∧ loader = some load ∧
      load name = .ok text ∧ Item.ofText options.trim text = .ok items ∧
      expand flags options loader shallower (some name) st items = .ok st' := by
  cases depth with
  | zero => cases h
  | succ depth =>
    cases loader with
    | none => cases h
    | some load =>
      cases loaded : load name with
      | error e => simp [spliceAt, loaded] at h
      | ok text =>
        cases read : Item.ofText options.trim text with
        | error e => simp [spliceAt, loaded, read] at h
        | ok items =>
          simp only [spliceAt, loaded, read] at h
          exact ⟨depth, load, text, items, rfl, rfl, loaded, read, h⟩

/-- An expansion that succeeds does so where includes may nest deeper, with items that are alike. -/
theorem expand_of_alike {depth depth' : Nat} (le : depth ≤ depth') {items items' : List Item}
    (alike : List.Forall₂ Item.Alike items items')
    (h : expand flags options loader depth origin st items = .ok st') :
    expand flags options loader depth' origin' st items' = .ok st' := by
  induction depth generalizing depth' origin origin' st st' items items' with
  | zero =>
    rw [expand_eq_steps] at h ⊢
    refine steps_of_alike (fun name position marker position' marker' before after included => ?_)
      alike h
    cases included
  | succ depth ih =>
    rw [expand_eq_steps] at h ⊢
    refine steps_of_alike ?_ alike h
    intro name position marker position' marker' before after included
    obtain ⟨shallower, load, text, inner, ⟨⟩, rfl, loaded, read, inside⟩ := spliceAt_ok included
    obtain ⟨shallower', rfl⟩ := Nat.exists_eq_add_of_le' (Nat.le_of_add_left_le le)
    simp only [spliceAt, loaded, read]
    exact ih (Nat.le_of_succ_le_succ le) (Item.forall₂_alike_of_bare rfl) inside

/-- An expansion that succeeds does so where includes may nest deeper, wherever the markers
stand. -/
theorem expand_deeper {depth depth' : Nat} (le : depth ≤ depth') {items items' : List Item}
    (same : items.map Item.bare = items'.map Item.bare)
    (h : expand flags options loader depth origin st items = .ok st') :
    expand flags options loader depth' origin' st items' = .ok st' :=
  expand_of_alike le (Item.forall₂_alike_of_bare same) h

/-! ### Replacing a marker -/

/-- In text that is not kept, items that nest change nothing. -/
theorem steps_of_discarded (discarded : st.kept = false) (tree : Item.Tree .body) :
    steps flags origin splice st tree.items = .ok st := by
  obtain ⟨scopes, names, kept, pieces⟩ := st
  cases discarded
  have skipped : Skips (steps flags origin splice) tree := skips ignores_steps tree
  have h := skipped scopes names pieces []
  rwa [List.append_nil] at h

/-- The items of the included text do what the marker does. -/
theorem expand_include {depth : Nat} {name marker text : String} {position : Position}
    {first last parts : List Item} (loads : ∀ load ∈ loader, load name = .ok text)
    (read : Item.ofText options.trim text = .ok parts)
    (h : expand flags options loader depth origin st
      (first ++ .inclusion name position marker :: last) = .ok st') :
    expand flags options loader depth origin st (first ++ parts ++ last) = .ok st' := by
  rw [expand_eq_steps, steps_append] at h
  obtain ⟨reached, leads, h⟩ := Except.bind_eq_ok_iff.1 h
  rw [steps_cons] at h
  obtain ⟨after, included, onward⟩ := Except.bind_eq_ok_iff.1 h
  have inside : steps flags origin (spliceAt flags options loader depth origin) reached parts =
      .ok after := by
    rw [step] at included
    split at included
    · obtain ⟨shallower, load, found, items, rfl, rfl, loaded, read', inside⟩ :=
        spliceAt_ok included
      cases (loads load rfl).symm.trans loaded
      cases read.symm.trans read'
      rw [← expand_eq_steps]
      exact expand_deeper (Nat.le_succ shallower) rfl inside
    · next discarded =>
      cases included
      obtain ⟨tree, rfl⟩ := Item.exists_tree_of_ofText read
      exact steps_of_discarded (by simpa using discarded) tree
  rw [expand_eq_steps, steps_append, steps_append, leads]
  show (steps flags origin _ reached parts >>= fun after => _) = _
  rw [inside]
  exact onward

end Expansion

/-- With trimming, an include marker on a line of its own stands for the text that is loaded: if the
template compiles, the template with the included text for the line compiles to the same model. -/
theorem compile_include {before line ending after included name : String} {flags : FlagSet}
    {depth : Nat} {loader : Option Loader} {m : Model}
    (complete : Line.Complete before.toList) (holds : Line.Includes name line.toList)
    (one_line : '\n' ∉ line.toList)
    (ends : ending = "\n" ∨ ending = "\r\n" ∨ ending = "" ∧ after = "")
    (loads : ∀ load ∈ loader, load name = .ok included)
    (nests : ∃ parts, Item.ofText true included = .ok parts)
    (complete' : Line.Complete included.toList ∨ after = "")
    (compiled : compile (before ++ line ++ ending ++ after) flags ⟨true, depth⟩ loader = .ok m) :
    compile (before ++ included ++ after) flags ⟨true, depth⟩ loader = .ok m := by
  obtain ⟨parts, read⟩ := nests
  rw [compile] at compiled
  cases accepted : Item.ofText true (before ++ line ++ ending ++ after) with
  | error e =>
    rw [accepted] at compiled
    cases compiled
  | ok items =>
    obtain ⟨first, last, position, marker, whole, rfl, accepted', same⟩ :=
      Item.exists_ofText_include complete holds one_line ends complete' accepted read
    simp only [accepted] at compiled
    rw [compile, accepted']
    obtain ⟨pieces, made, rfl⟩ := Except.map_eq_ok_iff.1 compiled
    obtain ⟨st, expanded, rfl⟩ := Except.map_eq_ok_iff.1 made
    have replaced := Expansion.expand_include loads read expanded
    have expanded' : Expansion.expand flags ⟨true, depth⟩ loader depth none .start whole = .ok st :=
      Expansion.expand_deeper (Nat.le_refl depth) same.symm replaced
    have made' : Piece.ofItems flags ⟨true, depth⟩ loader whole = .ok st.pieces.reverse :=
      Except.map_eq_ok_iff.2 ⟨st, expanded', rfl⟩
    exact Except.map_eq_ok_iff.2 ⟨_, made', rfl⟩

theorem compile_include_variable :
    ∃ m, Line.Complete "a\n".toList ∧ Line.Includes "x" " [include:x] ".toList ∧
      (∃ parts, Item.ofText true "{y}\n" = .ok parts) ∧ Line.Complete "{y}\n".toList ∧
      compile ("a\n" ++ " [include:x] " ++ "\r\n" ++ "b") .empty ⟨true, 1⟩
        (some fun _ => .ok "{y}\n") = .ok m ∧
      compile ("a\n" ++ "{y}\n" ++ "b") .empty ⟨true, 1⟩ (some fun _ => .ok "{y}\n") = .ok m := by
  have complete : Line.Complete "a\n".toList := fun c last => (Option.some.inj last).symm
  have complete' : Line.Complete "{y}\n".toList := fun c last => (Option.some.inj last).symm
  have blank : ∀ c ∈ [' '], Text.isBlank c = true := List.forall_mem_singleton.2 rfl
  have holds : Line.Includes "x" " [include:x] ".toList :=
    ⟨[' '], ['x'], [' '], rfl, blank, blank, by decide, rfl⟩
  have items : Item.ofText true ("a\n" ++ " [include:x] " ++ "\r\n" ++ "b") =
      .ok [.text "a\n", .inclusion "x" ⟨2, 2⟩ "[include:x]", .text "b"] :=
    Item.ofText_of_drainWithin rfl rfl
  have parts : Item.ofText true "{y}\n" = .ok [.var "y", .text "\n"] :=
    Item.ofText_of_drainWithin rfl rfl
  have loads : ∀ load ∈ some (fun _ => .ok "{y}\n" : Loader), load "x" = .ok "{y}\n" := by
    intro load mem
    cases mem
    rfl
  obtain ⟨m, compiled⟩ : ∃ m, compile ("a\n" ++ " [include:x] " ++ "\r\n" ++ "b") .empty
      ⟨true, 1⟩ (some fun _ => .ok "{y}\n") = .ok m := by
    rw [compile, items]
    simp only [Piece.ofItems, Expansion.expand, Expansion.steps, Expansion.step, parts]
    exact ⟨_, rfl⟩
  have substituted := compile_include complete holds (by decide) (.inr (.inl rfl)) loads
    ⟨_, parts⟩ (.inl complete') compiled
  exact ⟨m, complete, holds, ⟨_, parts⟩, complete', compiled, substituted⟩

/-! ## Loaders that fail more often

A loader that gives the texts of another one, except where it fails in some excused way, gives the
same models, except where it fails in that way. Main statement: `compile_nearly`.
-/

namespace Expansion

variable {Excused : Error → Prop} {flags : FlagSet} {options : Options} {origin : Option String}
  {splice splice' : Splice} {load load' : Loader} {st st' : State}

/-- The second one includes what the first one includes, up to excused errors. -/
def Splice.Near (Excused : Error → Prop) (splice splice' : Splice) : Prop :=
  ∀ name position marker st after, splice name position marker st = .ok after →
    Nearly Excused (splice' name position marker st) after

theorem steps_nearly (near : Splice.Near Excused splice splice') {items : List Item}
    (h : steps flags origin splice st items = .ok st') :
    Nearly Excused (steps flags origin splice' st items) st' := by
  induction items generalizing st with
  | nil => exact .inl h
  | cons item items ih =>
    rw [steps_cons] at h ⊢
    obtain ⟨between, here, onward⟩ := Except.bind_eq_ok_iff.1 h
    refine .bind ?_ (ih onward)
    cases item with
    | inclusion name position marker =>
      simp only [step] at here ⊢
      split at here
      · next kept =>
        rw [if_pos kept]
        exact near _ _ _ _ _ here
      · next discarded =>
        rw [if_neg discarded]
        exact .inl here
    | _ => exact .inl here

theorem expand_nearly
    (loads : ∀ name text, load name = .ok text →
      load' name = .ok text ∨ ∃ e, Excused e ∧ load' name = .error e)
    {depth : Nat} {items : List Item}
    (h : expand flags options (some load) depth origin st items = .ok st') :
    Nearly Excused (expand flags options (some load') depth origin st items) st' := by
  induction depth generalizing origin st st' items with
  | zero =>
    rw [expand_eq_steps] at h ⊢
    exact steps_nearly (fun _ _ _ _ _ taken => .inl taken) h
  | succ depth ih =>
    rw [expand_eq_steps] at h ⊢
    refine steps_nearly (fun name position marker st after taken => ?_) h
    obtain ⟨shallower, _, text, items, ⟨⟩, ⟨⟩, loaded, read, inside⟩ := spliceAt_ok taken
    rcases loads name text loaded with loaded' | ⟨e, excused, failed⟩
    · simp only [spliceAt, loaded', read]
      exact ih inside
    · simp only [spliceAt, failed]
      exact .inr ⟨_, excused, rfl⟩

end Expansion

/-- A template that compiles with one loader compiles to the same model with another one that gives
the same texts, unless that one fails in an excused way. -/
theorem compile_nearly {Excused : Error → Prop} {source : String} {flags : FlagSet}
    {options : Options} {load load' : Loader} {m : Model}
    (loads : ∀ name text, load name = .ok text →
      load' name = .ok text ∨ ∃ e, Excused e ∧ load' name = .error e)
    (h : compile source flags options (some load) = .ok m) :
    Nearly Excused (compile source flags options (some load')) m := by
  rw [compile] at h ⊢
  cases read : Item.ofText options.trim source with
  | error e =>
    rw [read] at h
    cases h
  | ok items =>
    simp only [read] at h
    obtain ⟨pieces, made, rfl⟩ := Except.map_eq_ok_iff.1 h
    obtain ⟨st, expanded, rfl⟩ := Except.map_eq_ok_iff.1 made
    exact ((Expansion.expand_nearly loads expanded).map _).map _

end Stencil
