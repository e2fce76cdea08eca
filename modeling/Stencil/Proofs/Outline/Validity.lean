import Stencil.Proofs.Outline.Placement
import Stencil.Proofs.Outline.Discarding

/-! # What makes a template invalid

A template without includes is found wrong in one of two ways. Its markers are malformed or do not
nest: then it is wrong whichever flags are set, even if the mistake lies in a branch that they
discard. Or a block begins in a block of its name: this is seen in kept text only, so that it may be
wrong with some flags and right with others. Main statement: `compile_validity`.
-/

namespace Stencil

open Item (Tree Part)

def Item.isInclusion : Item → Bool
  | .inclusion _ _ _ => true
  | _ => false

namespace Item.Tree

/-- The first block of a tree, in any branch, that begins in a block of its name, when the tree
itself stands in blocks of the names `around`. -/
def clash? (around : List String) : {part : Part} → Tree part → Option (String × Position)
  | _, nil => none
  | _, text _ rest => rest.clash? around
  | _, var _ rest => rest.clash? around
  | _, inclusion _ _ _ rest => rest.clash? around
  | _, block name position inner rest =>
    if name ∈ around then some (name, position)
    else (inner.clash? (name :: around)).or (rest.clash? around)
  | _, conditional _ first others rest =>
    ((first.clash? around).or (others.clash? around)).or (rest.clash? around)
  | _, endIf => none
  | _, otherwise last => last.clash? around
  | _, elseIf _ branch others => (branch.clash? around).or (others.clash? around)

/-- Where no block stands in a block of its name, none does in the text that is kept. -/
theorem clash?_kept {flags : FlagSet} {part : Part} {tree : Tree part} {around : List String}
    (free : tree.clash? around = none) : (tree.kept flags).clash? around = none := by
  induction tree generalizing around with
  | nil => rfl
  | text content rest ih => exact ih free
  | var name rest ih => exact ih free
  | inclusion name position marker rest ih => exact ih free
  | block name position inner rest ihInner ihRest =>
    rw [clash?] at free
    split at free
    · cases free
    · next fresh =>
      obtain ⟨inside, after⟩ := Option.or_eq_none_iff.1 free
      rw [kept, clash?, if_neg fresh, ihInner inside, ihRest after]
      rfl
  | conditional condition first others rest ihFirst ihOthers ihRest =>
    obtain ⟨branches, after⟩ := Option.or_eq_none_iff.1 free
    obtain ⟨here, further⟩ := Option.or_eq_none_iff.1 branches
    rw [kept]
    split
    · rw [clash?, ihFirst here, ihRest after]
      rfl
    · rw [clash?, ihOthers further, ihRest after]
      rfl
  | endIf => rfl
  | otherwise last ih => exact ih free
  | elseIf condition branch others ihBranch ihOthers =>
    obtain ⟨here, further⟩ := Option.or_eq_none_iff.1 free
    rw [kept]
    split
    · rw [clash?, ihBranch here]
      rfl
    · rw [clash?, ihOthers further]
      rfl

end Item.Tree

def Error.nestedAt (origin : Option String) (clash : String × Position) : Error :=
  .malformed
    ⟨.nestedSameName clash.1, clash.2, "[beginblock:" ++ clash.1 ++ "]", origin⟩

/-- Without includes, the walk over a template fails just at the first block of the kept text that
begins in a block of its name. -/
theorem Outline.error?_walk {flags : FlagSet} {origin : Option String} {inclusion : Inclusion}
    {part : Part} (tree : Tree part)
    (plain : ∀ item ∈ tree.items, item.isInclusion = false)
    (around : List String) :
    Except.error? (walk flags origin inclusion around tree) =
      ((tree.kept flags).clash? around).map (.nestedAt origin) := by
  induction tree generalizing around with
  | nil => rfl
  | text content rest ih =>
    rw [walk, Except.error?_bind]
    exact ih (fun item mem => plain item (List.mem_cons_of_mem _ mem)) around
  | var name rest ih =>
    rw [walk, Except.error?_bind]
    exact ih (fun item mem => plain item (List.mem_cons_of_mem _ mem)) around
  | inclusion name position marker rest ih => cases plain _ List.mem_cons_self
  | block name position inner rest ihInner ihRest =>
    rw [walk, Tree.kept, Tree.clash?]
    by_cases inside : name ∈ around
    · rw [if_pos inside, if_pos inside]
      rfl
    · rw [if_neg inside, if_neg inside, Except.error?_bind_bind, Option.map_or,
        ihInner (fun item mem => plain item (by simp [Tree.items, mem])),
        ihRest (fun item mem => plain item (by simp [Tree.items, mem]))]
  | conditional condition first others rest ihFirst ihOthers ihRest =>
    have after := ihRest (fun item mem => plain item (by simp [Tree.items, mem])) around
    rw [walk, Except.error?_bind_bind, after, Tree.kept]
    split
    · rw [ihFirst (fun item mem => plain item (by simp [Tree.items, mem])), Tree.clash?,
        Option.map_or, Tree.clash?, Option.or_none]
    · rw [ihOthers (fun item mem => plain item (by simp [Tree.items, mem])), Tree.clash?,
        Option.map_or, Tree.clash?, Option.none_or]
  | endIf => rfl
  | otherwise last ih => exact ih (fun item mem => plain item (by simp [Tree.items, mem])) around
  | elseIf condition branch others ihBranch ihOthers =>
    rw [walk, Tree.kept]
    split
    · rw [ihBranch (fun item mem => plain item (by simp [Tree.items, mem])), Tree.clash?,
        Tree.clash?, Option.or_none]
    · rw [ihOthers (fun item mem => plain item (by simp [Tree.items, mem])), Tree.clash?,
        Tree.clash?, Option.none_or]

section

variable {source : String} {options : Options}

/-- A template that cannot be read is wrong whichever flags are set. -/
theorem compile_of_rejected {e : SyntaxError} (read : Item.ofText options.trim source = .error e)
    (flags : FlagSet) (loader : Option Loader) :
    compile source flags options loader = .error (.malformed e) := by
  rw [compile, read]

theorem error?_compile {tree : Tree .body} (read : Item.ofText options.trim source = .ok tree.items)
    (plain : ∀ item ∈ tree.items, item.isInclusion = false)
    (flags : FlagSet) (loader : Option Loader) :
    Except.error? (compile source flags options loader) =
      ((tree.kept flags).clash? []).map (.nestedAt none) := by
  rw [compile_eq_map_ofSource, Except.error?_map, Outline.ofSource, Tree.ofText_eq_ok_iff.2 read]
  exact Outline.error?_walk tree plain []

/-- Whether a template without includes is right depends on the flags only as far as they decide
which blocks stand in blocks of their names. What cannot be read is wrong with the same error for
all flags. What can be read is wrong just if some block of the text that the flags keep begins in a
block of its name, with the first such block; it is right for all flags if no block of the template
does, in whichever branch. -/
theorem compile_validity
    (plain : ∀ l ∈ (Tokenizer.ofText options.trim source).drain.1, ∀ name,
      l.token ≠ .inclusion name) :
    (∀ e, Item.ofText options.trim source = .error e → ∀ flags loader,
      compile source flags options loader = .error (.malformed e)) ∧
    ∀ tree : Tree .body, Item.ofText options.trim source = .ok tree.items →
      (∀ flags loader, Except.error? (compile source flags options loader) =
        ((tree.kept flags).clash? []).map (.nestedAt none)) ∧
      (∀ flags flags' loader loader',
        (tree.kept flags).clash? [] = (tree.kept flags').clash? [] →
        Except.error? (compile source flags options loader) =
          Except.error? (compile source flags' options loader')) ∧
      (tree.clash? [] = none → ∀ flags loader, ∃ m,
        compile source flags options loader = .ok m) := by
  refine ⟨fun e rejected => compile_of_rejected rejected, fun tree read => ?_⟩
  have bare : ∀ item ∈ tree.items, item.isInclusion = false := by
    intro item mem
    obtain ⟨l, delivered, same⟩ := Item.exists_lexeme_of_mem read mem
    cases item with
    | inclusion name position marker =>
      exact absurd (Item.inclusion_of_item? same).1 (plain l delivered name)
    | _ => rfl
  have fails := error?_compile read bare
  refine ⟨fails, fun flags flags' loader loader' same => ?_, fun free flags loader => ?_⟩
  · rw [fails, fails, same]
  · apply Except.error?_eq_none_iff.1
    rw [fails, Tree.clash?_kept free]
    rfl

end

/-! ## A template that is wrong with one flag -/

theorem lexes_clash :
    (Tokenizer.ofText true
        "[beginblock:a][if:x][beginblock:a][endblock][endif][endblock]").drain =
      ([⟨.beginBlock "a", ⟨1, 1⟩, "[beginblock:a]"⟩, ⟨.ifCond "x", ⟨1, 15⟩, "[if:x]"⟩,
        ⟨.beginBlock "a", ⟨1, 21⟩, "[beginblock:a]"⟩, ⟨.endBlock none, ⟨1, 35⟩, "[endblock]"⟩,
        ⟨.endIf, ⟨1, 45⟩, "[endif]"⟩, ⟨.endBlock none, ⟨1, 52⟩, "[endblock]"⟩], none) :=
  (Tokenizer.drain_ofText ..).trans rfl

theorem ofText_clash :
    Item.ofText true "[beginblock:a][if:x][beginblock:a][endblock][endif][endblock]" =
      .ok (Tree.block "a" ⟨1, 1⟩ (.conditional (.flag "x") (.block "a" ⟨1, 21⟩ .nil .nil) .endIf
        .nil) .nil).items := by
  have condition : Condition.parse "x" = .ok (.flag "x") := Condition.parse_name rfl
  rw [Item.ofText, lexes_clash]
  simp only [Item.ofLexemes, Item.ofLexeme, Item.readCondition, condition]
  rfl

theorem compile_validity_clash :
    ∃ tree : Tree .body,
      Item.ofText true "[beginblock:a][if:x][beginblock:a][endblock][endif][endblock]" =
        .ok tree.items ∧
      ∀ flags loader, Except.error? (compile
          "[beginblock:a][if:x][beginblock:a][endblock][endif][endblock]" flags {} loader) =
        ((tree.kept flags).clash? []).map (.nestedAt none) := by
  have plain : ∀ l ∈ (Tokenizer.ofText true
      "[beginblock:a][if:x][beginblock:a][endblock][endif][endblock]").drain.1, ∀ name,
      l.token ≠ .inclusion name := by
    rw [lexes_clash]
    simp
  exact ⟨_, ofText_clash, ((compile_validity plain).2 _ ofText_clash).1⟩

/-- A block that begins in a block of its name is not seen in a branch that the flags discard. -/
theorem compile_clash :
    (∃ m, compile "[beginblock:a][if:x][beginblock:a][endblock][endif][endblock]" .empty {} none =
      .ok m) ∧
    compile "[beginblock:a][if:x][beginblock:a][endblock][endif][endblock]" (.ofList ["x"]) {}
        none =
      .error (.malformed ⟨.nestedSameName "a", ⟨1, 21⟩, "[beginblock:a]", none⟩) := by
  have plain : ∀ item ∈ (Tree.block "a" ⟨1, 1⟩ (.conditional (.flag "x")
      (.block "a" ⟨1, 21⟩ .nil .nil) .endIf .nil) .nil).items, item.isInclusion = false := by
    decide
  have fails := @error?_compile _ {} _ ofText_clash plain
  constructor
  · exact Except.error?_eq_none_iff.1 ((fails _ _).trans (by rfl))
  · exact Except.error?_eq_some_iff.1 ((fails _ _).trans (by rfl))

end Stencil
