import Stencil.Proofs.Session.Refinement

/-! # Templates one after another

A text of whole lines and a text after it are compiled and filled in as they are on their own.
-/

/-! ## Runs of documents

Filling in a document with commands, of which those that the template has no variable or block for
change nothing. The document stays of its edition, and its bindings are those after the commands.
-/

namespace Stencil.Document

def step (d : Document) : Command → Document
  | .set name value => (d.set? name value).getD d
  | .add name => (d.add? name).getD d
  | .clear => d.reset

def after (d : Document) (commands : List Command) : Document :=
  commands.foldl step d

theorem step_eq (d : Document) (command : Command) :
    d.step command = { d with bindings := d.bindings.step d.model command } := by
  cases command with
  | set name value =>
    rw [step, set?, set, Bindings.step_set, Model.variableNumber]
    cases d.model.findVariable? name <;> rfl
  | add name =>
    rw [step, add?, add, Bindings.step_add, Model.blockNumbers]
    cases d.model.blocksNamed name <;> rfl
  | clear => rfl

theorem after_eq (d : Document) (commands : List Command) :
    d.after commands =
      { d with bindings := commands.foldl (Bindings.step d.model) d.bindings } := by
  induction commands generalizing d with
  | nil => rfl
  | cons command commands ih =>
    have first : d.after (command :: commands) = (d.step command).after commands := rfl
    rw [first, ih, step_eq]
    rfl

/-- A new document is written as the bindings after the same commands. -/
theorem render_after (e : Edition) (commands : List Command) :
    ((ofEdition e).after commands).render =
      ((Bindings.after e.model commands).render e.model).mapError .unbound := by
  rw [after_eq]
  rfl

end Stencil.Document

/-! ## Outlines of texts made of two

The walk over a template does not look at the places of its markers unless it fails. So the outline
of a text of whole lines and a text after it is that of the one followed by that of the other.
-/

namespace Stencil

open Item (Tree Part)

namespace Item.Tree

def append : Tree .body → Tree .body → Tree .body
  | nil, after => after
  | text content rest, after => text content (rest.append after)
  | var name rest, after => var name (rest.append after)
  | inclusion name position marker rest, after =>
    inclusion name position marker (rest.append after)
  | block name position inner rest, after => block name position inner (rest.append after)
  | conditional condition first others rest, after =>
    conditional condition first others (rest.append after)

theorem items_append (tree after : Tree .body) :
    (tree.append after).items = tree.items ++ after.items := by
  fun_induction append tree after <;> simp_all [items]

end Item.Tree

namespace Outline

variable {flags : FlagSet} {origin : Option String} {inclusion : Inclusion}

theorem append_assoc {α : Type} (first second third : Outline α) :
    (first.append second).append third = first.append (second.append third) := by
  induction first <;> simp_all [append]

/-- An include marker stands for the same wherever it is found and however it is written. -/
def Placeless (inclusion : Inclusion) : Prop :=
  ∀ name position marker position' marker' around o,
    inclusion name position marker around = .ok o →
      inclusion name position' marker' around = .ok o

theorem walk_bare (placeless : Placeless inclusion) {part : Part} {tree : Tree part}
    {around : List String} {o : Outline Unit} :
    walk flags origin inclusion around tree.bare = .ok o ↔
      walk flags origin inclusion around tree = .ok o := by
  induction tree generalizing around o with
  | nil => rfl
  | text content rest ih => simp only [Tree.bare, walk, Except.bind_eq_ok_iff, ih]
  | var name rest ih => simp only [Tree.bare, walk, Except.bind_eq_ok_iff, ih]
  | inclusion name position marker rest ih =>
    have same (included : Outline Unit) : inclusion name ⟨0, 0⟩ "" around = .ok included ↔
        inclusion name position marker around = .ok included :=
      ⟨placeless _ _ _ _ _ _ _, placeless _ _ _ _ _ _ _⟩
    simp only [Tree.bare, walk, Except.bind_eq_ok_iff, ih, same]
  | block name position inner rest ihInner ihRest =>
    simp only [Tree.bare, walk]
    split
    · simp
    · simp only [Except.bind_eq_ok_iff, ihInner, ihRest]
  | conditional condition first others rest ihFirst ihOthers ihRest =>
    simp only [Tree.bare, walk]
    split <;> simp only [Except.bind_eq_ok_iff, ihFirst, ihOthers, ihRest]
  | endIf => rfl
  | otherwise last ih => simp only [Tree.bare, walk, ih]
  | elseIf condition branch others ihBranch ihOthers =>
    simp only [Tree.bare, walk]
    split
    · exact ihBranch
    · exact ihOthers

theorem walk_append {tree after : Tree .body} {around : List String} {o o' : Outline Unit}
    (h : walk flags origin inclusion around tree = .ok o)
    (h' : walk flags origin inclusion around after = .ok o') :
    walk flags origin inclusion around (tree.append after) = .ok (o.append o') := by
  fun_induction Tree.append tree after generalizing o with
  | case1 after =>
    cases h
    exact h'
  | case2 content rest after ih =>
    obtain ⟨beyond, hrest, h⟩ := Except.bind_eq_ok_iff.1 h
    cases h
    exact Except.bind_eq_ok_iff.2 ⟨_, ih hrest h', rfl⟩
  | case3 name rest after ih =>
    obtain ⟨beyond, hrest, h⟩ := Except.bind_eq_ok_iff.1 h
    cases h
    exact Except.bind_eq_ok_iff.2 ⟨_, ih hrest h', rfl⟩
  | case4 name position marker rest after ih =>
    obtain ⟨included, hincluded, h⟩ := Except.bind_eq_ok_iff.1 h
    obtain ⟨beyond, hrest, h⟩ := Except.bind_eq_ok_iff.1 h
    cases h
    rw [append_assoc]
    exact Except.bind_eq_ok_iff.2 ⟨_, hincluded, Except.bind_eq_ok_iff.2 ⟨_, ih hrest h', rfl⟩⟩
  | case5 name position inner rest after ih =>
    rw [walk] at h ⊢
    split at h
    · cases h
    · next fresh =>
      obtain ⟨inside, hinside, h⟩ := Except.bind_eq_ok_iff.1 h
      obtain ⟨beyond, hrest, h⟩ := Except.bind_eq_ok_iff.1 h
      cases h
      rw [if_neg fresh]
      exact Except.bind_eq_ok_iff.2 ⟨_, hinside, Except.bind_eq_ok_iff.2 ⟨_, ih hrest h', rfl⟩⟩
  | case6 condition first others rest after ih =>
    obtain ⟨kept, hkept, h⟩ := Except.bind_eq_ok_iff.1 h
    obtain ⟨beyond, hrest, h⟩ := Except.bind_eq_ok_iff.1 h
    cases h
    rw [append_assoc]
    exact Except.bind_eq_ok_iff.2 ⟨_, hkept, Except.bind_eq_ok_iff.2 ⟨_, ih hrest h', rfl⟩⟩

variable {options : Options} {loader : Option Loader}

theorem placeless_inclusionAt (depth : Nat) :
    Placeless (inclusionAt flags options loader depth origin) := by
  intro name position marker position' marker' around o h
  rw [inclusionAt.eq_def] at h ⊢
  split at h
  · cases h
  · next within =>
    rw [if_neg within]
    cases loader with
    | none => cases h
    | some load => exact h

/-- The outline of a text of whole lines and a text after it. -/
theorem ofSource_append {first second : String} (complete : Line.Complete first.toList)
    {o o' : Outline Unit} (h : ofSource first flags options loader = .ok o)
    (h' : ofSource second flags options loader = .ok o') :
    ofSource (first ++ second) flags options loader = .ok (o.append o') := by
  unfold ofSource at h h' ⊢
  cases hfirst : Tree.ofText options.trim first with
  | error e => simp [hfirst] at h
  | ok tree =>
    cases hsecond : Tree.ofText options.trim second with
    | error e => simp [hsecond] at h'
    | ok tree' =>
      simp only [hfirst] at h
      simp only [hsecond] at h'
      obtain ⟨both, accepted, same⟩ := Item.ofText_append complete
        (Tree.ofText_eq_ok_iff.1 hfirst) (Tree.ofText_eq_ok_iff.1 hsecond)
      obtain ⟨whole, rfl⟩ := Item.exists_tree_of_ofText accepted
      rw [← List.map_append, ← Tree.items_append] at same
      rw [Tree.ofText_eq_ok_iff.2 accepted]
      have placeless : Placeless (inclusionAt flags options loader 0 none) :=
        placeless_inclusionAt 0
      rw [← walk_bare placeless, Tree.bare_eq_of_items same, walk_bare placeless]
      exact walk_append h h'

end Outline

end Stencil

/-! ## Documents of texts made of two

The document of a text of whole lines and a text after it is filled in as the two are on their own,
and its text is that of the one followed by that of the other. On outlines this is plain: blocks are
sealed where they stand, and the current values are the same.
-/

namespace Stencil

namespace Outline

variable {α β : Type}

theorem map_append (f : α → β) (first second : Outline α) :
    (first.append second).map f = (first.map f).append (second.map f) := by
  induction first <;> simp_all [append, map]

theorem marks_append (first second : Outline α) :
    (first.append second).marks = first.marks ++ second.marks := by
  induction first <;> simp_all [append, marks]

theorem sealAll_append (values : String → Option String) (target : String) (taken : Bool)
    (first second : Outline (List Sealed)) :
    (first.append second).sealAll values target taken =
      (first.sealAll values target taken).append (second.sealAll values target taken) := by
  induction first with
  | nil => rfl
  | text content rest ih => exact congrArg (text content) ih
  | var name rest ih => exact congrArg (var name) ih
  | block name pending inner rest _ ih =>
    simp only [append, sealAll, ih]
    split <;> rfl

/-- What is written of both, when the instances of the first one's blocks are given. -/
theorem render_append (values : String → Option String) (scopes : List (String → Option String))
    {parts : List (List Sealed)} (others : List (List Sealed)) {first : Outline α}
    (second : Outline α) (count : parts.length = first.marks.length) :
    (first.append second).render values scopes (parts ++ others) = (do
      let here ← first.render values scopes parts
      let beyond ← second.render values scopes others
      .ok (here ++ beyond)) := by
  induction first generalizing parts with
  | nil =>
    cases List.length_eq_zero_iff.1 count
    show second.render values scopes others =
      (do let beyond ← second.render values scopes others; .ok ("" ++ beyond))
    cases second.render values scopes others <;> simp [bind, Except.bind]
  | text content rest ih =>
    simp only [append, render, ih count]
    cases rest.render values scopes parts with
    | error e => rfl
    | ok here =>
      cases second.render values scopes others <;> simp [bind, Except.bind, String.append_assoc]
  | var name rest ih =>
    simp only [append, render, ih count]
    cases lookup values scopes name with
    | none => rfl
    | some value =>
      cases rest.render values scopes parts with
      | error e => rfl
      | ok here =>
        cases second.render values scopes others <;> simp [bind, Except.bind, String.append_assoc]
  | block name mark inner rest _ ih =>
    rcases parts with _ | ⟨made, parts⟩
    · simp [marks] at count
    · simp only [append, render, List.cons_append, List.headD_cons, List.tail_cons,
        ih (Nat.succ.inj count)]
      cases concat (made.map fun one => inner.render values (one.values :: scopes) one.parts) with
      | error e => rfl
      | ok text =>
        cases rest.render values scopes parts with
        | error e => rfl
        | ok here =>
          cases second.render values scopes others <;>
            simp [bind, Except.bind, String.append_assoc]

end Outline

namespace Session

structure Joins (whole first second : Session) : Prop where
  document : whole.document = first.document.append second.document
  first_values : first.values = whole.values
  second_values : second.values = whole.values

theorem Joins.start {α : Type} (o o' : Outline α) :
    Joins (.start (o.append o')) (.start o) (.start o') where
  document := Outline.map_append _ o o'
  first_values := rfl
  second_values := rfl

theorem Joins.step {whole first second : Session} (h : Joins whole first second)
    (command : Command) :
    Joins (whole.step command) (first.step command) (second.step command) := by
  cases command with
  | set name value =>
    refine ⟨h.document, ?_, ?_⟩
    · simp only [Session.step, h.first_values]
    · simp only [Session.step, h.second_values]
  | add name =>
    refine ⟨?_, h.first_values, h.second_values⟩
    simp only [Session.step, h.first_values, h.second_values, h.document, Outline.sealAll_append]
  | clear =>
    simp only [Session.step, h.document]
    exact .start _ _

theorem Joins.after {whole first second : Session} (h : Joins whole first second)
    (commands : List Command) :
    Joins (whole.after commands) (first.after commands) (second.after commands) := by
  induction commands generalizing whole first second with
  | nil => exact h
  | cons command commands ih => exact ih (h.step command)

theorem Joins.render {whole first second : Session} (h : Joins whole first second) :
    whole.render = (do
      let here ← first.render
      let beyond ← second.render
      .ok (here ++ beyond)) := by
  rw [Session.render, h.document, Outline.marks_append, Outline.render_append _ _ _ _ rfl,
    Session.render, Session.render, h.first_values, h.second_values]

end Session

/-- The bindings of a model are written as the session on its outline. -/
theorem Model.Outlined.render_after {α : Type} {m : Model} {o : Outline α}
    (outlined : m.Outlined (o.number 1)) (commands : List Command) :
    (Bindings.after m commands).render m = ((Session.start o).after commands).render := by
  have start : Session.start (o.number 1) = Session.start o := by
    rw [Session.start, Outline.map_number, Session.start]
  have ledger := Bindings.Ledger.of_after outlined.wellFormed commands
  rw [(Bindings.Represents.of_after outlined commands).render_eq outlined ledger, start]

/-- If a text of whole lines and another text compile, so does the one followed by the other. The
three documents being filled in alike, the text of the last is that of the first two one after the
other, and its error is the error of the first or else of the second. -/
theorem render_compile_append {first second : String} {flags : FlagSet} {options : Options}
    {loader : Option Loader} {m n : Model} (complete : Line.Complete first.toList)
    (compiled : compile first flags options loader = .ok m)
    (compiled' : compile second flags options loader = .ok n) :
    ∃ both, compile (first ++ second) flags options loader = .ok both ∧
      ∀ (serial serial' serial'' : Nat) (commands : List Command),
        ((Document.ofEdition ⟨serial, both⟩).after commands).render = (do
          let here ← ((Document.ofEdition ⟨serial', m⟩).after commands).render
          let beyond ← ((Document.ofEdition ⟨serial'', n⟩).after commands).render
          .ok (here ++ beyond)) := by
  obtain ⟨o, found, outlined⟩ := exists_outlined_of_compile compiled
  obtain ⟨o', found', outlined'⟩ := exists_outlined_of_compile compiled'
  have together : compile (first ++ second) flags options loader =
      .ok (Model.ofPieces (o.append o').pieces) := by
    rw [compile_eq_map_ofSource, Outline.ofSource_append complete found found']
    rfl
  obtain ⟨whole, found'', outlined''⟩ := exists_outlined_of_compile together
  cases (Outline.ofSource_append complete found found').symm.trans found''
  refine ⟨_, together, fun serial serial' serial'' commands => ?_⟩
  have joins := (Session.Joins.start o o').after commands
  rw [Document.render_after, Document.render_after, Document.render_after,
    outlined.render_after, outlined'.render_after, outlined''.render_after, joins.render]
  cases ((Session.start o).after commands).render with
  | error e => rfl
  | ok here => cases ((Session.start o').after commands).render <;> rfl

theorem render_compile_append_rows :
    ∃ m n both, Line.Complete "{x}\n".toList ∧ compile "{x}\n" .empty {} none = .ok m ∧
      compile "[beginblock:row]{x}[endblock:row]" .empty {} none = .ok n ∧
      compile ("{x}\n" ++ "[beginblock:row]{x}[endblock:row]") .empty {} none = .ok both ∧
      ∀ (serial serial' serial'' : Nat) (commands : List Command),
        ((Document.ofEdition ⟨serial, both⟩).after commands).render = (do
          let here ← ((Document.ofEdition ⟨serial', m⟩).after commands).render
          let beyond ← ((Document.ofEdition ⟨serial'', n⟩).after commands).render
          .ok (here ++ beyond)) := by
  have complete : Line.Complete "{x}\n".toList := by
    intro c mem
    cases mem
    rfl
  have items : Item.ofText true "{x}\n" = .ok [.var "x", .text "\n"] :=
    Item.ofText_of_drainWithin rfl rfl
  obtain ⟨m, compiled⟩ : ∃ m, compile "{x}\n" .empty {} none = .ok m := by
    rw [compile, items]
    exact ⟨_, rfl⟩
  obtain ⟨n, compiled'⟩ := compile_rows
  obtain ⟨both, together, renders⟩ := render_compile_append complete compiled compiled'
  exact ⟨m, n, both, complete, compiled, compiled', together, renders⟩

end Stencil
