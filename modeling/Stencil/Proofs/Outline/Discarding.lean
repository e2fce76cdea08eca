import Stencil.Proofs.Condition.Derivation
import Stencil.Proofs.Outline.Inclusion

/-! # Discarded text

Text that the flags discard is neither loaded nor asked about.
-/

/-! ## What an expansion asks

An expansion asks the flags about the conditions it has to decide and the loader for the
subtemplates it has to include, and nothing else. Main statement: flags and loaders that answer
alike what is asked have the same expansion, `expand_eq_of_alike`.
-/

namespace Stencil

/-! ### Conditions -/

namespace Condition

mutual

def flags : Condition → List String
  | flag name => [name]
  | not inner => inner.flags
  | and terms => flagsOfTerms terms
  | or terms => flagsOfTerms terms

def flagsOfTerms : List Condition → List String
  | [] => []
  | c :: cs => c.flags ++ flagsOfTerms cs

end

variable {set set' : FlagSet}

mutual

/-- A condition depends on the flags that it names. -/
theorem eval_congr : ∀ c : Condition, (∀ name ∈ c.flags, set.contains name = set'.contains name) →
    c.eval set = c.eval set'
  | flag name, h => h name (List.mem_singleton_self name)
  | not inner, h => congrArg (!·) (eval_congr inner h)
  | and terms, h => (eval_congr_terms terms h).1
  | or terms, h => (eval_congr_terms terms h).2

theorem eval_congr_terms : ∀ cs : List Condition,
    (∀ name ∈ flagsOfTerms cs, set.contains name = set'.contains name) →
    allHold set cs = allHold set' cs ∧ someHolds set cs = someHolds set' cs
  | [], _ => ⟨rfl, rfl⟩
  | c :: cs, h => by
    have first := eval_congr c fun name mem => h name (List.mem_append_left _ mem)
    have rest := eval_congr_terms cs fun name mem => h name (List.mem_append_right _ mem)
    rw [allHold, allHold, someHolds, someHolds, first, rest.1, rest.2]
    exact ⟨rfl, rfl⟩

end

end Condition

/-! ### Queries -/

inductive Query
  | flag (name : String)
  | subtemplate (name : String)
  deriving DecidableEq

/-- Two sets of flags and two loaders, where there are any, answer a query in the same way. -/
def Query.Alike (flags flags' : FlagSet) (loader loader' : Option Loader) : Query → Prop
  | flag name => flags.contains name = flags'.contains name
  | subtemplate name => (loader.map fun load => load name) = loader'.map fun load => load name

namespace Expansion

/-- What an item asks for. The condition of a first branch is decided in kept text only, that of a
later branch only if the text around the conditional is kept and no branch has been taken. -/
def asksOf (inside : String → State → List Query) (st : State) : Item → List Query
  | .ifCond condition => if st.kept then condition.flags.map .flag else []
  | .elseIf condition =>
    match st.scopes with
    | .conditional false true :: _ => condition.flags.map .flag
    | _ => []
  | .inclusion name _ _ => if st.kept then inside name st else []
  | _ => []

def asksAlong (flags : FlagSet) (origin : Option String) (splice : Splice)
    (inside : String → State → List Query) : State → List Item → List Query
  | _, [] => []
  | st, item :: items =>
    asksOf inside st item ++
      match step flags origin splice st item with
      | .error _ => []
      | .ok after => asksAlong flags origin splice inside after items

/-- What the expansion of a template or subtemplate asks for, and that of everything it includes.
Without a loader an include asks as well, and the expansion ends there. -/
def asks (flags : FlagSet) (options : Options) (loader : Option Loader) :
    (depth : Nat) → Option String → State → List Item → List Query
  | 0, origin =>
    asksAlong flags origin (spliceAt flags options loader 0 origin) fun _ _ => []
  | depth + 1, origin =>
    asksAlong flags origin (spliceAt flags options loader (depth + 1) origin) fun name st =>
      .subtemplate name ::
        match loader with
        | none => []
        | some load =>
          match load name with
          | .error _ => []
          | .ok text =>
            match Item.ofText options.trim text with
            | .error _ => []
            | .ok items => asks flags options loader depth (some name) st items

section Steps

variable {flags flags' : FlagSet} {loader loader' : Option Loader} {origin : Option String}
  {splice splice' : Splice} {inside : String → State → List Query}

/-- Whatever is included is included alike, if what is asked inside is answered alike. -/
def Splice.Follows (flags flags' : FlagSet) (loader loader' : Option Loader)
    (inside : String → State → List Query) (splice splice' : Splice) : Prop :=
  ∀ name position marker st, (∀ query ∈ inside name st, query.Alike flags flags' loader loader') →
    splice' name position marker st = splice name position marker st

theorem eval_eq_of_alike {condition : Condition}
    (alike : ∀ query ∈ condition.flags.map Query.flag, query.Alike flags flags' loader loader') :
    condition.eval flags' = condition.eval flags :=
  condition.eval_congr fun name mem => (alike (.flag name) (List.mem_map_of_mem mem)).symm

/-- Only a branch that can still be taken depends on its condition. -/
theorem State.nextBranch_congr {st : State} {holds holds' : Bool}
    (same : ∀ outer, st.scopes = .conditional false true :: outer → holds = holds') :
    st.nextBranch holds = st.nextBranch holds' := by
  obtain ⟨scopes, names, kept, pieces⟩ := st
  cases scopes with
  | nil => rfl
  | cons scope outer =>
    cases scope with
    | conditional decided outerKept =>
      cases decided with
      | true => simp [nextBranch]
      | false =>
        cases outerKept with
        | true => rw [same outer rfl]
        | false => simp [nextBranch]
    | _ => rfl

theorem step_eq_of_alike
    (follows : Splice.Follows flags flags' loader loader' inside splice splice') (st : State)
    (item : Item)
    (alike : ∀ query ∈ asksOf inside st item, query.Alike flags flags' loader loader') :
    step flags' origin splice' st item = step flags origin splice st item := by
  cases item with
  | ifCond condition =>
    rw [step, step]
    cases kept : st.kept with
    | true =>
      rw [asksOf, kept] at alike
      rw [eval_eq_of_alike alike]
    | false => simp [State.openConditional, kept]
  | elseIf condition =>
    rw [step, step]
    refine congrArg Except.ok (State.nextBranch_congr fun outer undecided => ?_)
    rw [asksOf, undecided] at alike
    exact eval_eq_of_alike alike
  | inclusion name position marker =>
    rw [step, step]
    by_cases kept : st.kept = true
    · rw [asksOf, if_pos kept] at alike
      rw [if_pos kept, if_pos kept, follows name position marker st alike]
    · rw [if_neg kept, if_neg kept]
  | _ => rfl

theorem steps_eq_of_alike
    (follows : Splice.Follows flags flags' loader loader' inside splice splice') (st : State)
    (items : List Item)
    (alike : ∀ query ∈ asksAlong flags origin splice inside st items,
      query.Alike flags flags' loader loader') :
    steps flags' origin splice' st items = steps flags origin splice st items := by
  induction items generalizing st with
  | nil => rfl
  | cons item items ih =>
    rw [asksAlong, List.forall_mem_append] at alike
    rw [steps, steps, step_eq_of_alike follows st item alike.1]
    cases taken : step flags origin splice st item with
    | error e => rfl
    | ok after =>
      rw [taken] at alike
      exact ih after alike.2

end Steps

/-- Flags and loaders that answer alike what an expansion asks for have the same expansion. -/
theorem expand_eq_of_alike {flags flags' : FlagSet} {options : Options}
    {loader loader' : Option Loader} (depth : Nat) (origin : Option String) (st : State)
    (items : List Item)
    (alike : ∀ query ∈ asks flags options loader depth origin st items,
      query.Alike flags flags' loader loader') :
    expand flags' options loader' depth origin st items =
      expand flags options loader depth origin st items := by
  induction depth generalizing origin st items with
  | zero =>
    rw [expand_eq_steps, expand_eq_steps]
    exact steps_eq_of_alike (fun _ _ _ _ _ => rfl) st items alike
  | succ depth ih =>
    rw [expand_eq_steps, expand_eq_steps]
    refine steps_eq_of_alike (fun name position marker st alike => ?_) st items alike
    obtain ⟨answer, alike⟩ := List.forall_mem_cons.1 alike
    rw [Query.Alike] at answer
    cases loader with
    | none =>
      cases loader' with
      | none => rfl
      | some load' => cases answer
    | some load =>
      cases loader' with
      | none => cases answer
      | some load' =>
        have same : load' name = load name := (Option.some.inj answer).symm
        simp only [spliceAt, same]
        cases loaded : load name with
        | error e => rfl
        | ok text =>
          simp only
          cases read : Item.ofText options.trim text with
          | error e => rfl
          | ok items =>
            simp only [loaded, read] at alike
            exact ih (some name) st items alike

end Expansion

/-! ## Templates without discarded text

The branches that are not taken have no influence. A template has the same result as the template
with these branches emptied, and asks the same of flags and loader on the way, so that two templates
which differ in discarded branches only have the same result, with flags and loaders that answer
alike what the first of them asks. Main statement: `compile_discarded`.
-/

open Item (Tree Part)

namespace Item.Tree

/-- A template without the text of the branches that are discarded when some flags are set. Of a
conditional of which a branch is taken, nothing is left after that branch. -/
def kept (flags : FlagSet) : {part : Part} → Tree part → Tree part
  | _, nil => nil
  | _, text content rest => text content (rest.kept flags)
  | _, var name rest => var name (rest.kept flags)
  | _, inclusion name position marker rest => inclusion name position marker (rest.kept flags)
  | _, block name position inner rest => block name position (inner.kept flags) (rest.kept flags)
  | _, conditional condition first others rest =>
    if condition.eval flags then conditional condition (first.kept flags) endIf (rest.kept flags)
    else conditional condition nil (others.kept flags) (rest.kept flags)
  | _, endIf => endIf
  | _, otherwise last => otherwise (last.kept flags)
  | _, elseIf condition branch others =>
    if condition.eval flags then elseIf condition (branch.kept flags) endIf
    else elseIf condition nil (others.kept flags)

end Item.Tree

/-! ### Results -/

/-- The walk over a template does not enter the discarded branches. -/
theorem Outline.walk_kept {flags : FlagSet} {origin : Option String} {inclusion : Inclusion}
    {part : Part} (tree : Tree part) (around : List String) :
    walk flags origin inclusion around (tree.kept flags) =
      walk flags origin inclusion around tree := by
  induction tree generalizing around with
  | nil => rfl
  | text content rest ih => rw [Tree.kept, walk, walk, ih]
  | var name rest ih => rw [Tree.kept, walk, walk, ih]
  | inclusion name position marker rest ih => simp only [Tree.kept, walk, ih]
  | block name position inner rest ihInner ihRest => simp only [Tree.kept, walk, ihInner, ihRest]
  | conditional condition first others rest ihFirst ihOthers ihRest =>
    by_cases holds : condition.eval flags = true
    · simp only [Tree.kept, if_pos holds, walk, ihFirst, ihRest]
    · simp only [Tree.kept, if_neg holds, walk, ihOthers, ihRest]
  | endIf => rfl
  | otherwise last ih => exact ih around
  | elseIf condition branch others ihBranch ihOthers =>
    by_cases holds : condition.eval flags = true
    · simp only [Tree.kept, if_pos holds, walk, ihBranch]
    · simp only [Tree.kept, if_neg holds, walk, ihOthers]

theorem Piece.ofItems_kept (flags : FlagSet) (options : Options) (loader : Option Loader)
    (tree : Tree .body) :
    ofItems flags options loader (tree.kept flags).items =
      ofItems flags options loader tree.items := by
  rw [ofItems_items, ofItems_items, Outline.walk_kept]

/-! ### Queries -/

namespace Expansion

section Along

variable {flags : FlagSet} {origin : Option String} {splice : Splice}
  {inside : String → State → List Query}

/-- Nothing is asked in discarded text. -/
theorem ignores_asksAlong : Ignores (asksAlong flags origin splice inside) := by
  intro st item after items passes
  have nothing : asksOf inside st item = [] := by
    cases passes with
    | @elseIf decided outerKept passed => cases decided <;> cases outerKept <;> trivial
    | _ => rfl
  rw [asksAlong, step_of_passes passes, nothing, List.nil_append]

/-- What an include marker in kept text leaves as it is: the open scopes, and that text is kept. -/
def Splice.Steady (splice : Splice) : Prop :=
  ∀ name position marker scopes names pieces after,
    splice name position marker ⟨scopes, names, true, pieces⟩ = .ok after →
      ∃ names' pieces', after = ⟨scopes, names', true, pieces'⟩

def AsksSame (flags : FlagSet) (origin : Option String) (splice : Splice)
    (inside : String → State → List Query) (scopes : List Scope) (items items' : List Item) :
    Prop :=
  ∀ names pieces, asksAlong flags origin splice inside ⟨scopes, names, true, pieces⟩ items =
    asksAlong flags origin splice inside ⟨scopes, names, true, pieces⟩ items'

/-- A tree asks the same without its discarded branches, if what follows it asks the same. -/
def AsksKept (flags : FlagSet) (origin : Option String) (splice : Splice)
    (inside : String → State → List Query) : {part : Part} → Tree part → Prop
  | .body, tree => ∀ scopes after after',
      AsksSame flags origin splice inside scopes after after' →
      AsksSame flags origin splice inside scopes (tree.items ++ after)
        ((tree.kept flags).items ++ after')
  | .branches, others => ∀ outer after after',
      AsksSame flags origin splice inside outer after after' → ∀ names kept pieces,
      asksAlong flags origin splice inside ⟨.conditional false true :: outer, names, kept, pieces⟩
          (others.items ++ after) =
        asksAlong flags origin splice inside
          ⟨.conditional false true :: outer, names, kept, pieces⟩
          ((others.kept flags).items ++ after')

theorem asksKept (steady : splice.Steady) {part : Part} (tree : Tree part) :
    AsksKept flags origin splice inside tree := by
  induction tree with
  | nil =>
    intro scopes after after' same
    exact same
  | text content rest ih =>
    intro scopes after after' same names pieces
    exact ih scopes after after' same names (.text content :: pieces)
  | var name rest ih =>
    intro scopes after after' same names pieces
    exact ih scopes after after' same names (.var name :: pieces)
  | inclusion name position marker rest ih =>
    intro scopes after after' same names pieces
    simp only [Tree.kept, Tree.items, List.cons_append, asksAlong, step, if_true]
    cases included : splice name position marker ⟨scopes, names, true, pieces⟩ with
    | error e => rfl
    | ok st =>
      obtain ⟨names', pieces', rfl⟩ := steady _ _ _ _ _ _ _ included
      exact congrArg (asksOf inside _ _ ++ ·) (ih scopes after after' same names' pieces')
  | block name position inner rest ihInner ihRest =>
    intro scopes after after' same names pieces
    simp only [Tree.kept, Tree.items, List.cons_append, List.append_assoc, asksAlong, step]
    cases opened : State.openBlock ⟨scopes, names, true, pieces⟩ origin name position with
    | error e => rfl
    | ok st =>
      obtain ⟨names', pieces', rfl⟩ : ∃ names' pieces',
          st = ⟨.block name :: scopes, names', true, pieces'⟩ := by
        simp only [State.openBlock, Bool.not_true, Bool.false_eq_true, if_false] at opened
        split at opened
        · cases opened
        · cases opened
          exact ⟨_, _, rfl⟩
      refine congrArg ([] ++ ·) (ihInner _ _ _ (fun names pieces => ?_) names' pieces')
      exact ihRest scopes after after' same _ _
  | conditional condition first others rest ihFirst ihOthers ihRest =>
    intro scopes after after' same names pieces
    cases holds : condition.eval flags with
    | true =>
      simp only [Tree.kept, holds, if_true, Tree.items, List.cons_append, List.append_assoc,
        asksAlong, step, State.openConditional, Bool.true_and]
      refine congrArg (asksOf inside _ _ ++ ·) (ihFirst _ _ _ (fun names pieces => ?_) names pieces)
      exact (skips ignores_asksAlong others _ _ _ _ _ _ _ rfl).trans
        (ihRest scopes after after' same names pieces)
    | false =>
      simp only [Tree.kept, holds, Bool.false_eq_true, if_false, Tree.items, List.cons_append,
        List.append_assoc, List.nil_append, asksAlong, step, State.openConditional, Bool.true_and]
      refine congrArg (asksOf inside _ _ ++ ·) ((skips ignores_asksAlong first _ _ _ _).trans ?_)
      exact ihOthers scopes _ _ (ihRest scopes after after' same) names false pieces
  | endIf =>
    intro outer after after' same names kept pieces
    exact same names pieces
  | otherwise last ih =>
    intro outer after after' same names kept pieces
    simp only [Tree.kept, Tree.items, List.cons_append, List.append_assoc, List.nil_append,
      asksAlong, step, State.nextBranch, Bool.not_false, Bool.and_true, Bool.or_true]
    exact congrArg (asksOf inside _ _ ++ ·)
      (ih (.conditional true true :: outer) (.endIf :: after) (.endIf :: after')
        (fun names pieces => same names pieces) names pieces)
  | elseIf condition branch others ihBranch ihOthers =>
    intro outer after after' same names kept pieces
    cases holds : condition.eval flags with
    | true =>
      simp only [Tree.kept, holds, if_true, Tree.items, List.cons_append, List.append_assoc,
        asksAlong, step, State.nextBranch, Bool.not_false, Bool.and_true, Bool.or_true]
      refine congrArg (asksOf inside _ _ ++ ·)
        (ihBranch _ _ _ (fun names pieces => ?_) names pieces)
      exact (skips ignores_asksAlong others _ _ _ _ _ _ _ rfl).trans (same names pieces)
    | false =>
      simp only [Tree.kept, holds, Bool.false_eq_true, if_false, Tree.items, List.cons_append,
        List.append_assoc, List.nil_append, asksAlong, step, State.nextBranch, Bool.not_false,
        Bool.and_true, Bool.true_and, Bool.false_or]
      refine congrArg (asksOf inside _ _ ++ ·) ((skips ignores_asksAlong branch _ _ _ _).trans ?_)
      exact ihOthers outer after after' same names false pieces

end Along

variable {flags : FlagSet} {options : Options} {loader : Option Loader}

/-- An include leaves the scopes open that were open before. -/
theorem steady_spliceAt (origin : Option String) :
    (spliceAt flags options loader options.maxIncludeDepth origin).Steady := by
  intro name position marker scopes names pieces after included
  obtain ⟨shallower, load, text, items, depth, rfl, -, read, inside⟩ := spliceAt_ok included
  obtain ⟨tree, rfl⟩ := Item.exists_tree_of_ofText read
  have records : Records names names.toList := fun name => Std.ExtTreeSet.mem_toList.symm
  have followed : Follows flags options (some load) shallower 1 (some name) :=
    follows depth.symm (some name)
  rw [followed tree scopes names pieces names.toList records] at inside
  obtain ⟨o, -, rfl⟩ := Except.map_eq_ok_iff.1 inside
  exact ⟨names, _, rfl⟩

/-- A template asks the same without its discarded branches. -/
theorem asks_kept (flags : FlagSet) (options : Options) (loader : Option Loader)
    (tree : Tree .body) :
    asks flags options loader options.maxIncludeDepth none .start (tree.kept flags).items =
      asks flags options loader options.maxIncludeDepth none .start tree.items := by
  let splice := spliceAt flags options loader options.maxIncludeDepth none
  have same (inside : String → State → List Query) :
      asksAlong flags none splice inside .start (tree.kept flags).items =
        asksAlong flags none splice inside .start tree.items := by
    have along : AsksKept flags none splice inside tree := asksKept (steady_spliceAt none) tree
    simpa only [List.append_nil, State.start] using (along [] [] [] (fun _ _ => rfl) ∅ []).symm
  cases deep : options.maxIncludeDepth with
  | zero =>
    simp only [splice, deep] at same
    exact same _
  | succ depth =>
    simp only [splice, deep] at same
    exact same _

end Expansion

/-! ### Discarded text has no influence -/

/-- A template that differs in discarded branches only, compiled with flags and a loader that answer
alike what is asked, has the same result. That result and what is asked are those of the template
without the discarded branches, in which nothing else can be loaded, declared or checked. -/
theorem compile_discarded {source source' : String} {flags flags' : FlagSet} {options : Options}
    {loader loader' : Option Loader} {tree tree' : Tree .body}
    (read : Item.ofText options.trim source = .ok tree.items)
    (read' : Item.ofText options.trim source' = .ok tree'.items)
    (same : tree.kept flags = tree'.kept flags)
    (alike : ∀ query ∈ Expansion.asks flags options loader options.maxIncludeDepth none .start
      tree.items, query.Alike flags flags' loader loader') :
    compile source' flags' options loader' = compile source flags options loader ∧
      compile source flags options loader =
        (Piece.ofItems flags options loader (tree.kept flags).items).map Model.ofPieces ∧
      Expansion.asks flags options loader options.maxIncludeDepth none .start
          (tree.kept flags).items =
        Expansion.asks flags options loader options.maxIncludeDepth none .start tree.items := by
  have compiled : compile source flags options loader =
      (Piece.ofItems flags options loader (tree.kept flags).items).map Model.ofPieces := by
    rw [compile, read, Piece.ofItems_kept]
  have asked := Expansion.asks_kept flags options loader tree
  refine ⟨?_, compiled, asked⟩
  have alike' : ∀ query ∈ Expansion.asks flags options loader options.maxIncludeDepth none .start
      tree'.items, query.Alike flags flags' loader loader' := by
    rw [← Expansion.asks_kept, ← same, asked]
    exact alike
  have followed : Piece.ofItems flags' options loader' tree'.items =
      Piece.ofItems flags options loader tree'.items :=
    congrArg _ (Expansion.expand_eq_of_alike _ _ _ _ alike')
  rw [compiled, same, Piece.ofItems_kept, compile, read', ← followed]

theorem compile_discarded_include :
    ∃ tree tree' : Tree .body,
      Item.ofText true "[include:q][if:a][include:p][endif]" = .ok tree.items ∧
      Item.ofText true "[include:q][if:a]{y}[endif]" = .ok tree'.items ∧
      tree.kept .empty = tree'.kept .empty ∧
      (∀ query ∈ Expansion.asks .empty ⟨true, 1⟩ (some fun _ => .ok "{x}") 1 none .start tree.items,
        query.Alike .empty (.ofList ["b"]) (some fun _ => .ok "{x}")
          (some fun name => if name = "q" then .ok "{x}" else .ok "{y}")) ∧
      compile "[include:q][if:a]{y}[endif]" (.ofList ["b"]) ⟨true, 1⟩
          (some fun name => if name = "q" then .ok "{x}" else .ok "{y}") =
        compile "[include:q][if:a][include:p][endif]" .empty ⟨true, 1⟩
          (some fun _ => .ok "{x}") := by
  have condition : Condition.parse "a" = .ok (.flag "a") :=
    Condition.parse_eq_ok_iff.2 ⟨.single (.single (.flag "a")),
      @Condition.Token.Splits.token [] [] (.flag "a") [] nofun ⟨rfl, nofun⟩ (.blank nofun),
      Nat.zero_le _, rfl⟩
  have items : Item.ofText true "[include:q][if:a][include:p][endif]" =
      .ok (Tree.inclusion "q" ⟨1, 1⟩ "[include:q]" (.conditional (.flag "a")
        (.inclusion "p" ⟨1, 18⟩ "[include:p]" .nil) .endIf .nil)).items := by
    refine Item.ofText_of_drainWithin
      (show _ = ([⟨.inclusion "q", ⟨1, 1⟩, "[include:q]"⟩, ⟨.ifCond "a", ⟨1, 12⟩, "[if:a]"⟩,
        ⟨.inclusion "p", ⟨1, 18⟩, "[include:p]"⟩, ⟨.endIf, ⟨1, 29⟩, "[endif]"⟩], none) from rfl) ?_
    simp only [Item.ofLexemes, Item.ofLexeme, Item.readCondition, condition]
    rfl
  have items' : Item.ofText true "[include:q][if:a]{y}[endif]" =
      .ok (Tree.inclusion "q" ⟨1, 1⟩ "[include:q]" (.conditional (.flag "a")
        (.var "y" .nil) .endIf .nil)).items := by
    refine Item.ofText_of_drainWithin
      (show _ = ([⟨.inclusion "q", ⟨1, 1⟩, "[include:q]"⟩, ⟨.ifCond "a", ⟨1, 12⟩, "[if:a]"⟩,
        ⟨.var "y", ⟨1, 18⟩, "{y}"⟩, ⟨.endIf, ⟨1, 21⟩, "[endif]"⟩], none) from rfl) ?_
    simp only [Item.ofLexemes, Item.ofLexeme, Item.readCondition, condition]
    rfl
  have included : Item.ofText true "{x}" = .ok [.var "x"] := Item.ofText_of_drainWithin rfl rfl
  have alike : ∀ query ∈ Expansion.asks .empty ⟨true, 1⟩ (some fun _ => .ok "{x}") 1 none .start
      (Tree.inclusion "q" ⟨1, 1⟩ "[include:q]" (.conditional (.flag "a")
        (.inclusion "p" ⟨1, 18⟩ "[include:p]" .nil) .endIf .nil)).items,
      query.Alike .empty (.ofList ["b"]) (some fun _ => .ok "{x}")
        (some fun name => if name = "q" then .ok "{x}" else .ok "{y}") := by
    have asked : Expansion.asks .empty ⟨true, 1⟩ (some fun _ => .ok "{x}") 1 none .start
        (Tree.inclusion "q" ⟨1, 1⟩ "[include:q]" (.conditional (.flag "a")
          (.inclusion "p" ⟨1, 18⟩ "[include:p]" .nil) .endIf .nil)).items =
        [.subtemplate "q", .flag "a"] := by
      simp only [Expansion.asks, Expansion.asksAlong, Expansion.asksOf, Expansion.step,
        Expansion.spliceAt, Tree.items, included]
      rfl
    rw [asked]
    intro query mem
    rcases List.mem_cons.1 mem with rfl | mem
    · rfl
    · obtain rfl := List.mem_singleton.1 mem
      show FlagSet.contains .empty "a" = FlagSet.contains (.ofList ["b"]) "a"
      decide
  have discarded := compile_discarded items items' (by rfl) alike
  exact ⟨_, _, items, items', rfl, alike, discarded.1⟩

end Stencil
