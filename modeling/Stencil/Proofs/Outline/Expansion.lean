import Stencil.Proofs.Item.Acceptance
import Stencil.Proofs.Outline.Layout

/-! # Elaborating templates

The outline of a template, found by one walk over its tree from left to right. Of a conditional
only the first branch whose condition holds is walked, an include stands for the outline of the
subtemplate, and the first error met is the result. Main statement: the pieces of a template are
those of its outline.
-/

namespace Stencil

open Item (Tree Part)

namespace Outline

/-- What an include marker stands for: its name, its place and its text, and the names of the
blocks around it. -/
abbrev Inclusion :=
  String → Position → String → List String → Except Error (Outline Unit)

def walk (flags : FlagSet) (origin : Option String) (inclusion : Inclusion)
    (around : List String) : {part : Part} → Tree part → Except Error (Outline Unit)
  | _, .nil => .ok nil
  | _, .text content rest => do
    let after ← walk flags origin inclusion around rest
    .ok (text content after)
  | _, .var name rest => do
    let after ← walk flags origin inclusion around rest
    .ok (var name after)
  | _, .inclusion name position marker rest => do
    let included ← inclusion name position marker around
    let after ← walk flags origin inclusion around rest
    .ok (included.append after)
  | _, .block name position inner rest =>
    if name ∈ around then
      .error (.malformed ⟨.nestedSameName name, position, "[beginblock:" ++ name ++ "]", origin⟩)
    else do
      let inside ← walk flags origin inclusion (name :: around) inner
      let after ← walk flags origin inclusion around rest
      .ok (block name () inside after)
  | _, .conditional condition first others rest => do
    let kept ← (
      if condition.eval flags then walk flags origin inclusion around first
      else walk flags origin inclusion around others)
    let after ← walk flags origin inclusion around rest
    .ok (kept.append after)
  | _, .endIf => .ok nil
  | _, .otherwise last => walk flags origin inclusion around last
  | _, .elseIf condition branch others =>
    if condition.eval flags then walk flags origin inclusion around branch
    else walk flags origin inclusion around others

/-- Includes in a text that stands in `depth` subtemplates, the innermost of which is `origin`. -/
def inclusionAt (flags : FlagSet) (options : Options) (loader : Option Loader) (depth : Nat)
    (origin : Option String) : Inclusion := fun name position marker around =>
  if options.maxIncludeDepth ≤ depth then
    .error (.malformed ⟨.includeTooDeep options.maxIncludeDepth, position, marker, origin⟩)
  else
    match loader with
    | none => .error (.malformed ⟨.includeUnavailable, position, marker, origin⟩)
    | some load =>
      match load name with
      | .error e => .error e
      | .ok source =>
        match Tree.ofText options.trim source with
        | .error e => .error (.malformed { e with origin := some name })
        | .ok tree =>
          walk flags (some name) (inclusionAt flags options loader (depth + 1) (some name))
            around tree
termination_by options.maxIncludeDepth - depth

def ofSource (source : String) (flags : FlagSet) (options : Options) (loader : Option Loader) :
    Except Error (Outline Unit) :=
  match Tree.ofText options.trim source with
  | .error e => .error (.malformed e)
  | .ok tree => walk flags none (inclusionAt flags options loader 0 none) [] tree

/-! ### What holds of every outline -/

/-- What elaborating templates keeps, of an outline that stands in blocks of the names `around`. -/
structure Closed (P : List String → Outline Unit → Prop) : Prop where
  nil (around : List String) : P around nil
  text {around : List String} {rest : Outline Unit} (content : String) (h : P around rest) :
    P around (text content rest)
  var {around : List String} {name : String} {rest : Outline Unit}
    (named : Name.isValid name.toList = true) (h : P around rest) : P around (var name rest)
  block {around : List String} {name : String} {inner rest : Outline Unit}
    (named : Name.isValid name.toList = true) (fresh : name ∉ around)
    (inside : P (name :: around) inner) (h : P around rest) : P around (block name () inner rest)
  append {around : List String} {first second : Outline Unit} (h : P around first)
    (h' : P around second) : P around (first.append second)

namespace Closed

variable {P : List String → Outline Unit → Prop}

theorem walk (closed : Closed P) {flags : FlagSet} {origin : Option String} {inclusion : Inclusion}
    (included : ∀ name position marker around o,
      inclusion name position marker around = .ok o → P around o)
    {part : Part} {tree : Tree part} (named : ∀ item ∈ tree.items, item.Named)
    {around : List String} {o : Outline Unit}
    (h : walk flags origin inclusion around tree = .ok o) : P around o := by
  induction tree generalizing around o with
  | nil =>
    cases h
    exact closed.nil around
  | text content rest ih =>
    obtain ⟨after, hafter, h⟩ := Except.bind_eq_ok_iff.1 h
    cases h
    exact closed.text content (ih (fun item mem => named item (List.mem_cons_of_mem _ mem)) hafter)
  | var name rest ih =>
    obtain ⟨after, hafter, h⟩ := Except.bind_eq_ok_iff.1 h
    cases h
    exact closed.var (named _ List.mem_cons_self)
      (ih (fun item mem => named item (List.mem_cons_of_mem _ mem)) hafter)
  | inclusion name position marker rest ih =>
    obtain ⟨spliced, hspliced, h⟩ := Except.bind_eq_ok_iff.1 h
    obtain ⟨after, hafter, h⟩ := Except.bind_eq_ok_iff.1 h
    cases h
    exact closed.append (included _ _ _ _ _ hspliced)
      (ih (fun item mem => named item (List.mem_cons_of_mem _ mem)) hafter)
  | block name position inner rest ihInner ihRest =>
    simp only [Tree.items, List.mem_cons, List.mem_append] at named
    rw [Outline.walk] at h
    split at h
    · cases h
    · next fresh =>
      obtain ⟨inside, hinside, h⟩ := Except.bind_eq_ok_iff.1 h
      obtain ⟨after, hafter, h⟩ := Except.bind_eq_ok_iff.1 h
      cases h
      exact closed.block (named _ (.inl rfl)) fresh
        (ihInner (fun item mem => named item (.inr (.inl mem))) hinside)
        (ihRest (fun item mem => named item (.inr (.inr (.inr mem)))) hafter)
  | conditional condition first others rest ihFirst ihOthers ihRest =>
    simp only [Tree.items, List.mem_cons, List.mem_append] at named
    obtain ⟨kept, hkept, h⟩ := Except.bind_eq_ok_iff.1 h
    obtain ⟨after, hafter, h⟩ := Except.bind_eq_ok_iff.1 h
    cases h
    refine closed.append ?_ (ihRest (fun item mem => named item (.inr (.inr (.inr mem)))) hafter)
    split at hkept
    · exact ihFirst (fun item mem => named item (.inr (.inl mem))) hkept
    · exact ihOthers (fun item mem => named item (.inr (.inr (.inl mem)))) hkept
  | endIf =>
    cases h
    exact closed.nil around
  | otherwise last ih =>
    simp only [Tree.items, List.mem_cons, List.mem_append] at named
    exact ih (fun item mem => named item (.inr (.inl mem))) h
  | elseIf condition branch others ihBranch ihOthers =>
    simp only [Tree.items, List.mem_cons, List.mem_append] at named
    rw [Outline.walk] at h
    split at h
    · exact ihBranch (fun item mem => named item (.inr (.inl mem))) h
    · exact ihOthers (fun item mem => named item (.inr (.inr mem))) h

variable {flags : FlagSet} {options : Options} {loader : Option Loader}

theorem inclusionAt (closed : Closed P) {depth : Nat} {origin : Option String} {name : String}
    {position : Position} {marker : String} {around : List String} {o : Outline Unit}
    (h : inclusionAt flags options loader depth origin name position marker around = .ok o) :
    P around o := by
  induction hleft : options.maxIncludeDepth - depth
    generalizing depth origin name position marker around o with
  | zero =>
    rw [Outline.inclusionAt.eq_def, if_pos (by omega)] at h
    cases h
  | succ left ih =>
    rw [Outline.inclusionAt.eq_def, if_neg (by omega)] at h
    split at h
    · cases h
    · split at h
      · cases h
      · split at h
        · cases h
        · next tree htree =>
          have named := Item.named_of_ofText (Tree.ofText_eq_ok_iff.1 htree)
          exact closed.walk (fun _ _ _ _ _ deeper => ih deeper (by omega)) named h

/-- What is kept holds of the outline of a template. -/
theorem ofSource (closed : Closed P) {source : String} {o : Outline Unit}
    (h : ofSource source flags options loader = .ok o) : P [] o := by
  unfold Outline.ofSource at h
  split at h
  · cases h
  · next tree htree =>
    have named := Item.named_of_ofText (Tree.ofText_eq_ok_iff.1 htree)
    exact closed.walk (fun _ _ _ _ _ => closed.inclusionAt) named h

end Closed

theorem closed_proper : Closed fun around o => o.Proper around where
  nil _ := trivial
  text _ h := h
  var _ h := h
  block named fresh inside h := ⟨named, fresh, inside, h⟩
  append := Proper.append

/-- In the outline of a template no block stands in a block of its name. -/
theorem proper_of_ofSource {flags : FlagSet} {options : Options} {loader : Option Loader}
    {source : String} {o : Outline Unit}
    (h : ofSource source flags options loader = .ok o) : o.Proper [] :=
  closed_proper.ofSource h

end Outline

end Stencil

/-! ## Expansion follows the walk

Expanding the items of a tree does to the state what the walk over the tree says, and nothing else:
it adds the pieces of the outline, or stops at the error of the walk. In text that is not kept it
does nothing.
-/

namespace Stencil.Expansion

open Item (Tree Part)

def Records (names : Std.ExtTreeSet String compare) (around : List String) : Prop :=
  ∀ name, name ∈ names ↔ name ∈ around

theorem Records.insert {names : Std.ExtTreeSet String compare} {around : List String}
    (h : Records names around) (name : String) : Records (names.insert name) (name :: around) := by
  intro other
  rw [Std.ExtTreeSet.mem_insert, List.mem_cons, h other, Std.compare_eq_iff_eq, eq_comm]

/-- A name that is added to a set and taken out again leaves the set as it was. -/
theorem erase_insert_of_not_mem {names : Std.ExtTreeSet String compare} {name : String}
    (fresh : name ∉ names) : (names.insert name).erase name = names := by
  apply Std.ExtTreeSet.ext_mem
  intro other
  simp only [Std.ExtTreeSet.mem_erase, Std.ExtTreeSet.mem_insert, ne_eq, Std.compare_eq_iff_eq]
  constructor
  · rintro ⟨differs, same | mem⟩
    · exact absurd same differs
    · exact mem
  · intro mem
    exact ⟨fun same => fresh (same ▸ mem), .inr mem⟩

theorem Records.erase_insert {names : Std.ExtTreeSet String compare} {around : List String}
    (h : Records names around) {name : String} (fresh : name ∉ around) :
    (names.insert name).erase name = names :=
  erase_insert_of_not_mem fun mem => fresh ((h name).1 mem)

theorem Records.erase {names : Std.ExtTreeSet String compare} {name : String}
    {around : List String} (h : Records names (name :: around)) (fresh : name ∉ around) :
    Records (names.erase name) around := by
  intro other
  simp only [Std.ExtTreeSet.mem_erase, ne_eq, Std.compare_eq_iff_eq, h other, List.mem_cons]
  constructor
  · rintro ⟨differs, same | mem⟩
    · exact absurd same.symm differs
    · exact mem
  · exact fun mem => ⟨fun same => fresh (same ▸ mem), .inr mem⟩

section Steps

variable {flags : FlagSet} {origin : Option String} {splice : Splice}

theorem steps_cons (st : State) (item : Item) (items : List Item) :
    steps flags origin splice st (item :: items) =
      step flags origin splice st item >>= fun after => steps flags origin splice after items := by
  rw [steps]
  cases step flags origin splice st item <;> rfl

theorem steps_append (st : State) (items more : List Item) :
    steps flags origin splice st (items ++ more) =
      steps flags origin splice st items >>= fun after => steps flags origin splice after more := by
  induction items generalizing st with
  | nil => rfl
  | cons item items ih =>
    rw [List.cons_append, steps_cons, steps_cons, bind_assoc]
    exact congrArg _ (funext fun after => ih after)

/-! ### Discarded text -/

/-- What an item does in discarded text, or to a conditional of which no branch can be taken any
more: it opens and closes scopes, and no more. -/
inductive Passes : State → Item → State → Prop
  | text (content : String) (scopes names pieces) :
    Passes ⟨scopes, names, false, pieces⟩ (.text content) ⟨scopes, names, false, pieces⟩
  | var (name : String) (scopes names pieces) :
    Passes ⟨scopes, names, false, pieces⟩ (.var name) ⟨scopes, names, false, pieces⟩
  | inclusion (name : String) (position : Position) (marker : String) (scopes names pieces) :
    Passes ⟨scopes, names, false, pieces⟩ (.inclusion name position marker)
      ⟨scopes, names, false, pieces⟩
  | beginBlock (name : String) (position : Position) (scopes names pieces) :
    Passes ⟨scopes, names, false, pieces⟩ (.beginBlock name position)
      ⟨.skipped :: scopes, names, false, pieces⟩
  | endBlock (scopes names pieces) :
    Passes ⟨.skipped :: scopes, names, false, pieces⟩ .endBlock ⟨scopes, names, false, pieces⟩
  | ifCond (condition : Condition) (scopes names pieces) :
    Passes ⟨scopes, names, false, pieces⟩ (.ifCond condition)
      ⟨.conditional false false :: scopes, names, false, pieces⟩
  | elseIf {decided outerKept : Bool} (passed : (outerKept && !decided) = false)
    (condition : Condition) (outer names kept pieces) :
    Passes ⟨.conditional decided outerKept :: outer, names, kept, pieces⟩ (.elseIf condition)
      ⟨.conditional decided outerKept :: outer, names, false, pieces⟩
  | otherwise {decided outerKept : Bool} (passed : (outerKept && !decided) = false)
    (outer names kept pieces) :
    Passes ⟨.conditional decided outerKept :: outer, names, kept, pieces⟩ .otherwise
      ⟨.conditional decided outerKept :: outer, names, false, pieces⟩
  | endIf (decided outerKept : Bool) (outer names kept pieces) :
    Passes ⟨.conditional decided outerKept :: outer, names, kept, pieces⟩ .endIf
      ⟨outer, names, outerKept, pieces⟩

theorem step_of_passes {st after : State} {item : Item} (h : Passes st item after) :
    step flags origin splice st item = .ok after := by
  cases h with
  | elseIf passed => simp [step, State.nextBranch, passed]
  | otherwise passed => simp [step, State.nextBranch, passed]
  | _ => rfl

/-- A run that takes note of nothing but what items do to the state. -/
def Ignores {β : Type} (run : State → List Item → β) : Prop :=
  ∀ st item after items, Passes st item after → run st (item :: items) = run after items

theorem ignores_steps : Ignores (steps flags origin splice) := by
  intro st item after items passes
  rw [steps, step_of_passes passes]

def Skips {β : Type} (run : State → List Item → β) : {part : Part} → Tree part → Prop
  | .body, tree => ∀ scopes names pieces after,
      run ⟨scopes, names, false, pieces⟩ (tree.items ++ after) =
        run ⟨scopes, names, false, pieces⟩ after
  | .branches, others => ∀ decided outerKept outer names kept pieces after,
      (outerKept && !decided) = false →
      run ⟨.conditional decided outerKept :: outer, names, kept, pieces⟩ (others.items ++ after) =
        run ⟨outer, names, outerKept, pieces⟩ after

theorem skips {β : Type} {run : State → List Item → β} (ignores : Ignores run) {part : Part}
    (tree : Tree part) : Skips run tree := by
  induction tree with
  | nil =>
    intro scopes names pieces after
    rfl
  | text content rest ih =>
    intro scopes names pieces after
    exact (ignores _ _ _ _ (.text ..)).trans (ih scopes names pieces after)
  | var name rest ih =>
    intro scopes names pieces after
    exact (ignores _ _ _ _ (.var ..)).trans (ih scopes names pieces after)
  | inclusion name position marker rest ih =>
    intro scopes names pieces after
    exact (ignores _ _ _ _ (.inclusion ..)).trans (ih scopes names pieces after)
  | block name position inner rest ihInner ihRest =>
    intro scopes names pieces after
    have inside := ihInner (.skipped :: scopes) names pieces (.endBlock :: (rest.items ++ after))
    have closed := ignores _ _ _ (rest.items ++ after) (.endBlock scopes names pieces)
    simp only [Tree.items, List.cons_append, List.append_assoc]
    rw [ignores _ _ _ _ (.beginBlock ..), inside, closed]
    exact ihRest scopes names pieces after
  | conditional condition first others rest ihFirst ihOthers ihRest =>
    intro scopes names pieces after
    have inFirst := ihFirst (.conditional false false :: scopes) names pieces
      (others.items ++ (rest.items ++ after))
    have inOthers := ihOthers false false scopes names false pieces (rest.items ++ after) rfl
    simp only [Tree.items, List.cons_append, List.append_assoc]
    rw [ignores _ _ _ _ (.ifCond ..), inFirst, inOthers]
    exact ihRest scopes names pieces after
  | endIf =>
    intro decided outerKept outer names kept pieces after _
    exact ignores _ _ _ _ (.endIf ..)
  | otherwise last ih =>
    intro decided outerKept outer names kept pieces after passed
    have inLast := ih (.conditional decided outerKept :: outer) names pieces (.endIf :: after)
    simp only [Tree.items, List.cons_append, List.append_assoc, List.nil_append]
    rw [ignores _ _ _ _ (.otherwise passed ..), inLast]
    exact ignores _ _ _ _ (.endIf ..)
  | elseIf condition branch others ihBranch ihOthers =>
    intro decided outerKept outer names kept pieces after passed
    have inBranch := ihBranch (.conditional decided outerKept :: outer) names pieces
      (others.items ++ after)
    simp only [Tree.items, List.cons_append, List.append_assoc]
    rw [ignores _ _ _ _ (.elseIf passed ..), inBranch]
    exact ihOthers decided outerKept outer names false pieces after passed

/-! ### Kept text -/

def Splices (splice : Splice) (inclusion : Outline.Inclusion) : Prop :=
  ∀ name position marker scopes names pieces around, Records names around →
    splice name position marker ⟨scopes, names, true, pieces⟩ =
      (inclusion name position marker around).map fun o =>
        ⟨scopes, names, true, o.pieces.reverse ++ pieces⟩

/-- Expanding the items of a tree in kept text adds the pieces of the tree's outline. -/
def Keeps (flags : FlagSet) (origin : Option String) (splice : Splice)
    (inclusion : Outline.Inclusion) : {part : Part} → Tree part → Prop
  | .body, tree => ∀ scopes names pieces after around, Records names around →
      steps flags origin splice ⟨scopes, names, true, pieces⟩ (tree.items ++ after) =
        Outline.walk flags origin inclusion around tree >>= fun o =>
          steps flags origin splice ⟨scopes, names, true, o.pieces.reverse ++ pieces⟩ after
  | .branches, others => ∀ outer names kept pieces after around, Records names around →
      steps flags origin splice ⟨.conditional false true :: outer, names, kept, pieces⟩
          (others.items ++ after) =
        Outline.walk flags origin inclusion around others >>= fun o =>
          steps flags origin splice ⟨outer, names, true, o.pieces.reverse ++ pieces⟩ after

/-- Going on after a part: the outline of what comes next, with the part put before it by `f`, adds
the pieces of the part first. -/
theorem steps_after_part {scopes : List Scope} {names : Std.ExtTreeSet String compare}
    {pieces : List Piece} {after : List Item} {walked : Except Error (Outline Unit)}
    {f : Outline Unit → Outline Unit} (part : List Piece)
    (before : ∀ o, (f o).pieces = part ++ o.pieces) :
    (walked >>= fun o => steps flags origin splice
        ⟨scopes, names, true, o.pieces.reverse ++ (part.reverse ++ pieces)⟩ after) =
      (walked >>= fun o => .ok (f o)) >>= fun o =>
        steps flags origin splice ⟨scopes, names, true, o.pieces.reverse ++ pieces⟩ after := by
  rw [bind_assoc]
  refine bind_congr fun o => ?_
  show _ = steps flags origin splice ⟨scopes, names, true, (f o).pieces.reverse ++ pieces⟩ after
  rw [before, List.reverse_append, List.append_assoc]

theorem keeps {inclusion : Outline.Inclusion} (splices : Splices splice inclusion)
    {part : Part} (tree : Tree part) : Keeps flags origin splice inclusion tree := by
  induction tree with
  | nil =>
    intro scopes names pieces after around records
    rfl
  | text content rest ih =>
    intro scopes names pieces after around records
    exact (ih _ _ _ _ _ records).trans (steps_after_part [.text content] fun _ => rfl)
  | var name rest ih =>
    intro scopes names pieces after around records
    exact (ih _ _ _ _ _ records).trans (steps_after_part [.var name] fun _ => rfl)
  | inclusion name position marker rest ih =>
    intro scopes names pieces after around records
    simp only [Tree.items, List.cons_append, steps, step, if_true, Outline.walk,
      splices name position marker scopes names pieces around records]
    cases inclusion name position marker around with
    | error e => rfl
    | ok included =>
      exact (ih _ _ _ _ _ records).trans (steps_after_part included.pieces included.pieces_append)
  | block name position inner rest ihInner ihRest =>
    intro scopes names pieces after around records
    simp only [Tree.items, List.cons_append, List.append_assoc, steps, step, State.openBlock,
      Bool.not_true, Bool.false_eq_true, if_false, Std.ExtTreeSet.contains_iff_mem, records name,
      Outline.walk]
    by_cases nested : name ∈ around
    · simp only [if_pos nested]
      rfl
    · simp only [if_neg nested]
      refine (ihInner _ _ _ _ _ (records.insert name)).trans ?_
      rw [bind_assoc]
      refine bind_congr fun inside => ?_
      -- Closing the block restores the set of open names.
      simp only [steps, step, State.closeBlock, records.erase_insert nested]
      refine (ihRest _ _ _ _ _ records).trans ?_
      have closed : .endBlock :: (inside.pieces.reverse ++ .beginBlock name :: pieces) =
          (.beginBlock name :: (inside.pieces ++ [.endBlock])).reverse ++ pieces := by simp
      rw [closed]
      exact steps_after_part _ fun o => by simp [Outline.pieces]
  | conditional condition first others rest ihFirst ihOthers ihRest =>
    intro scopes names pieces after around records
    simp only [Tree.items, List.cons_append, List.append_assoc, steps, step,
      State.openConditional, Bool.true_and, Outline.walk]
    have beyond (kept : Outline Unit) := (ihRest scopes names (kept.pieces.reverse ++ pieces) after
      around records).trans (steps_after_part kept.pieces kept.pieces_append)
    cases condition.eval flags with
    | true =>
      refine (ihFirst _ _ _ _ _ records).trans ?_
      rw [if_pos rfl, bind_assoc]
      refine bind_congr fun kept => ?_
      exact (skips ignores_steps others _ _ _ _ _ _ _ rfl).trans (beyond kept)
    | false =>
      refine (skips ignores_steps first _ _ _ _).trans ((ihOthers _ _ _ _ _ _ records).trans ?_)
      rw [if_neg Bool.false_ne_true, bind_assoc]
      exact bind_congr beyond
  | endIf =>
    intro outer names kept pieces after around records
    rfl
  | otherwise last ih =>
    intro outer names kept pieces after around records
    simp only [Tree.items, List.cons_append, List.append_assoc, List.nil_append, steps, step,
      State.nextBranch, Bool.not_false, Bool.and_true, Bool.or_true, Outline.walk]
    exact ih _ _ _ _ _ records
  | elseIf condition branch others ihBranch ihOthers =>
    intro outer names kept pieces after around records
    simp only [Tree.items, List.cons_append, List.append_assoc, steps, step, State.nextBranch,
      Bool.not_false, Bool.and_true, Bool.true_and, Bool.false_or, Outline.walk]
    cases condition.eval flags with
    | true =>
      refine (ihBranch _ _ _ _ _ records).trans ?_
      exact bind_congr fun kept => skips ignores_steps others _ _ _ _ _ _ _ rfl
    | false =>
      refine (skips ignores_steps branch _ _ _ _).trans ?_
      exact ihOthers _ _ _ _ _ _ records

end Steps

/-! ### Includes -/

variable {flags : FlagSet} {options : Options} {loader : Option Loader}

def Follows (flags : FlagSet) (options : Options) (loader : Option Loader) (left depth : Nat)
    (origin : Option String) : Prop :=
  ∀ (tree : Tree .body) scopes names pieces around, Records names around →
    expand flags options loader left origin ⟨scopes, names, true, pieces⟩ tree.items =
      (Outline.walk flags origin (Outline.inclusionAt flags options loader depth origin) around
        tree).map fun o => ⟨scopes, names, true, o.pieces.reverse ++ pieces⟩

theorem follows_of_splices {splice : Splice} {inclusion : Outline.Inclusion}
    {origin : Option String} (splices : Splices splice inclusion) (tree : Tree .body)
    {scopes : List Scope} {names : Std.ExtTreeSet String compare} {pieces : List Piece}
    {around : List String} (records : Records names around) :
    steps flags origin splice ⟨scopes, names, true, pieces⟩ tree.items =
      (Outline.walk flags origin inclusion around tree).map fun o =>
        ⟨scopes, names, true, o.pieces.reverse ++ pieces⟩ := by
  have whole : Keeps flags origin splice inclusion tree := keeps splices tree
  have h := whole scopes names pieces [] around records
  rw [List.append_nil] at h
  rw [h]
  cases Outline.walk flags origin inclusion around tree <;> rfl

theorem follows {left depth : Nat} (total : left + depth = options.maxIncludeDepth)
    (origin : Option String) : Follows flags options loader left depth origin := by
  induction left generalizing depth origin with
  | zero =>
    intro tree scopes names pieces around records
    refine follows_of_splices ?_ tree records
    intro name position marker scopes names pieces around _
    rw [Outline.inclusionAt.eq_def, if_pos (by omega)]
    rfl
  | succ left ih =>
    intro tree scopes names pieces around records
    refine follows_of_splices ?_ tree records
    intro name position marker scopes names pieces around records
    rw [Outline.inclusionAt.eq_def, if_neg (by omega)]
    cases loader with
    | none => rfl
    | some load =>
      simp only
      cases load name with
      | error e => rfl
      | ok source =>
        simp only
        cases hitems : Item.ofText options.trim source with
        | error e =>
          have within : e.within name = { e with origin := some name } := by
            simp [SyntaxError.within, Item.origin_of_ofText hitems]
          rw [Tree.ofText_eq_error_iff.2 hitems]
          simp only [within]
          rfl
        | ok items =>
          obtain ⟨tree, rfl⟩ := Item.exists_tree_of_ofText hitems
          rw [Tree.ofText_eq_ok_iff.2 hitems]
          exact ih (by omega) (some name) tree scopes names pieces around records

end Stencil.Expansion

namespace Stencil.Piece

open Expansion

/-- The pieces of a template's items are the pieces of its outline. -/
theorem ofItems_items (flags : FlagSet) (options : Options) (loader : Option Loader)
    (tree : Item.Tree .body) :
    ofItems flags options loader tree.items =
      (Outline.walk flags none (Outline.inclusionAt flags options loader 0 none) [] tree).map
        Outline.pieces := by
  have none_open : Records ∅ [] := by simp [Records]
  have followed : Follows flags options loader options.maxIncludeDepth 0 none :=
    follows (Nat.add_zero _) none
  rw [ofItems, State.start, followed tree [] ∅ [] [] none_open]
  cases Outline.walk flags none (Outline.inclusionAt flags options loader 0 none) [] tree with
  | error e => rfl
  | ok o => simp [Except.map]

end Stencil.Piece
