import Stencil.Proofs.Outline.Inclusion

/-! # Expanding in a loop

An expansion need not recurse. One loop keeps a stack of the texts that are open: in each round it
reads an item of the innermost one, opens the subtemplate of an include on top of it, or closes a
text whose items are used up. The loop may have a limit on how deep includes nest, or none. Main
statement: with a limit it ends, and with what the expansion gives, `ends_expand`.
-/

namespace Stencil.Expansion

structure Source where
  /-- The items still to be read. -/
  items : List Item
  origin : Option String
  /-- The number of includes that the text stands in. -/
  depth : Nat

structure Loop where
  /-- The open texts, innermost first. -/
  sources : List Source
  st : State

namespace Loop

def start (items : List Item) : Loop :=
  ⟨[⟨items, none, 0⟩], .start⟩

section Rounds

variable (flags : FlagSet) (trim : Bool) (loader : Option Loader) (limit : Option Nat)

/-- The text that a kept include marker opens. It is an error if the marker stands as deep as the
limit allows texts to be. -/
def opening (origin : Option String) (depth : Nat) (name : String) (position : Position)
    (marker : String) : Except Error Source :=
  match limit.filter (· ≤ depth) with
  | some reached => .error (.malformed ⟨.includeTooDeep reached, position, marker, origin⟩)
  | none =>
    match loader with
    | none => .error (.malformed ⟨.includeUnavailable, position, marker, origin⟩)
    | some load =>
      match load name with
      | .error e => .error e
      | .ok text =>
        match Item.ofText trim text with
        | .error e => .error (.malformed (e.within name))
        | .ok items => .ok ⟨items, some name, depth + 1⟩

def round : Source → List Source → State → Except Error Loop
  | ⟨[], _, _⟩, outer, st => .ok ⟨outer, st⟩
  | ⟨.inclusion name position marker :: items, origin, depth⟩, outer, st =>
    if st.kept then
      (opening trim loader limit origin depth name position marker).map fun source =>
        ⟨source :: ⟨items, origin, depth⟩ :: outer, st⟩
    else
      .ok ⟨⟨items, origin, depth⟩ :: outer, st⟩
  | ⟨item :: items, origin, depth⟩, outer, st =>
    (step flags origin (fun _ _ _ st => .ok st) st item).map fun after =>
      ⟨⟨items, origin, depth⟩ :: outer, after⟩

inductive Reaches : Loop → Loop → Prop
  | refl (l : Loop) : Reaches l l
  | round {source : Source} {outer : List Source} {st : State} {l l' : Loop} :
    round flags trim loader limit source outer st = .ok l → Reaches l l' →
      Reaches ⟨source :: outer, st⟩ l'

/-- The loop ends, as no text is open any more or at an error. -/
inductive Ends : Loop → Except Error State → Prop
  | closed (st : State) : Ends ⟨[], st⟩ (.ok st)
  | failed {source : Source} {outer : List Source} {st : State} {e : Error} :
    round flags trim loader limit source outer st = .error e →
      Ends ⟨source :: outer, st⟩ (.error e)
  | round {source : Source} {outer : List Source} {st : State} {l : Loop}
    {r : Except Error State} :
    round flags trim loader limit source outer st = .ok l → Ends l r →
      Ends ⟨source :: outer, st⟩ r

/-- How the loop ends from where the innermost of the texts `sources` is read on, in the given state
if there is one. -/
def EndsFrom (sources : List Source) (r : Except Error State) : Except Error State → Prop
  | .ok st => Ends flags trim loader limit ⟨sources, st⟩ r
  | .error e => r = .error e

end Rounds

variable {flags : FlagSet} {trim : Bool} {loader : Option Loader} {limit : Option Nat}

theorem Ends.unique {l : Loop} {r r' : Except Error State} (h : Ends flags trim loader limit l r)
    (h' : Ends flags trim loader limit l r') : r = r' := by
  induction h with
  | closed st =>
    cases h'
    rfl
  | failed here =>
    cases h' with
    | failed here' =>
      cases here.symm.trans here'
      rfl
    | round here' => cases here.symm.trans here'
  | round here _ ih =>
    cases h' with
    | failed here' => cases here.symm.trans here'
    | round here' later =>
      cases here.symm.trans here'
      exact ih later

/-! ### The loop and the recursion -/

variable {options : Options} {origin : Option String} {depth : Nat} {outer : List Source}
  {st : State} {r : Except Error State}

theorem EndsFrom.bind {source : Source} {x : Except Error State}
    {rest : State → Except Error State}
    (onward : ∀ after, EndsFrom flags trim loader limit outer r (rest after) →
      Ends flags trim loader limit ⟨source :: outer, after⟩ r)
    (h : EndsFrom flags trim loader limit outer r (x >>= rest)) :
    EndsFrom flags trim loader limit (source :: outer) r x := by
  cases x with
  | error e => exact h
  | ok after => exact onward after h

theorem Ends.of_round {source : Source} {sources : List Source} {x : Except Error State}
    (taken : Loop.round flags trim loader limit source outer st =
      x.map fun after => ⟨sources, after⟩)
    (h : EndsFrom flags trim loader limit sources r x) :
    Ends flags trim loader limit ⟨source :: outer, st⟩ r := by
  cases x with
  | error e =>
    cases h
    exact .failed taken
  | ok after => exact .round taken h

/-- Reading a text to its end takes the steps of its items, if this is so of include markers. -/
theorem ends_of_steps {splice : Splice}
    (splices : ∀ name position marker items outer st r, st.kept = true →
      EndsFrom flags trim loader limit (⟨items, origin, depth⟩ :: outer) r
        (splice name position marker st) →
      Ends flags trim loader limit
        ⟨⟨.inclusion name position marker :: items, origin, depth⟩ :: outer, st⟩ r)
    {items : List Item}
    (h : EndsFrom flags trim loader limit outer r (steps flags origin splice st items)) :
    Ends flags trim loader limit ⟨⟨items, origin, depth⟩ :: outer, st⟩ r := by
  induction items generalizing st with
  | nil => exact .round rfl h
  | cons item items ih =>
    rw [steps_cons] at h
    have here : EndsFrom flags trim loader limit (⟨items, origin, depth⟩ :: outer) r
        (step flags origin splice st item) := h.bind fun _ => ih
    cases item with
    | inclusion name position marker =>
      rw [step] at here
      split at here
      · next kept => exact splices _ _ _ _ _ _ _ kept here
      · next discarded => exact .round (if_neg discarded) here
    | _ => exact .of_round rfl here

/-- A text that is opened stands one include deeper, which the limit allows. -/
theorem opening_ok {name marker : String} {position : Position} {source : Source}
    (h : opening trim loader limit origin depth name position marker = .ok source) :
    source.depth = depth + 1 ∧ ∀ d ∈ limit, depth < d := by
  unfold opening at h
  split at h
  · cases h
  · next allowed =>
    split at h
    · cases h
    · split at h
      · cases h
      · split at h <;> cases h
        refine ⟨rfl, fun d mem => ?_⟩
        simpa using Option.filter_eq_none_iff.1 allowed d mem

/-- An include in the recursion opens a text and expands it. -/
theorem spliceAt_eq_opening {left : Nat} (total : left + depth = options.maxIncludeDepth)
    (name marker : String) (position : Position) :
    spliceAt flags options loader left origin name position marker st =
      opening options.trim loader (some options.maxIncludeDepth) origin depth name position
          marker >>= fun source =>
        expand flags options loader (left - 1) source.origin st source.items := by
  cases left with
  | zero =>
    have reached : (some options.maxIncludeDepth).filter (· ≤ depth) =
        some options.maxIncludeDepth := by simp; omega
    simp only [opening, reached]
    rfl
  | succ left =>
    have allowed : (some options.maxIncludeDepth).filter (· ≤ depth) = none := by simp; omega
    cases loader with
    | none =>
      simp only [opening, allowed]
      rfl
    | some load =>
      simp only [spliceAt, opening, allowed]
      cases load name with
      | error e => rfl
      | ok text =>
        simp only
        cases Item.ofText options.trim text <;> rfl

/-- Reading a text to its end is expanding it, wherever the text stands. -/
theorem ends_of_expand {left : Nat} (total : left + depth = options.maxIncludeDepth)
    {items : List Item}
    (h : EndsFrom flags options.trim loader (some options.maxIncludeDepth) outer r
      (expand flags options loader left origin st items)) :
    Ends flags options.trim loader (some options.maxIncludeDepth)
      ⟨⟨items, origin, depth⟩ :: outer, st⟩ r := by
  induction left using Nat.strongRecOn generalizing depth origin items outer st r with
  | ind left deeper =>
    rw [expand_eq_steps] at h
    refine ends_of_steps (fun name position marker items outer st r kept h => ?_) h
    rw [spliceAt_eq_opening total] at h
    cases opened : opening options.trim loader (some options.maxIncludeDepth) origin depth name
      position marker with
    | error e =>
      rw [opened] at h
      cases h
      refine .failed ?_
      rw [Loop.round, if_pos kept, opened]
      rfl
    | ok source =>
      rw [opened] at h
      obtain ⟨below, within⟩ := opening_ok opened
      have room : depth < options.maxIncludeDepth := within _ rfl
      refine .round ?_ (deeper (left - 1) (by omega) (by omega : left - 1 + source.depth = _) h)
      rw [Loop.round, if_pos kept, opened]
      rfl

/-- With a limit, the loop ends with what expanding the template gives. -/
theorem ends_expand (flags : FlagSet) (options : Options) (loader : Option Loader)
    (items : List Item) :
    Ends flags options.trim loader (some options.maxIncludeDepth) (start items)
      (expand flags options loader options.maxIncludeDepth none .start items) := by
  refine ends_of_expand (Nat.add_zero _) ?_
  cases expand flags options loader options.maxIncludeDepth none .start items with
  | error e => rfl
  | ok st => exact .closed st

end Loop

/-! ## The limit on includes

The limit on how deep includes nest makes every expansion end, whatever the loader gives: no more
texts are open at once than one more than the limit. It does so without changing any other result,
since a loop with the limit and one without go the same way up to the first include that stands too
deep. Main statement: `compile_include_limit`.
-/

namespace Loop

/-- The loop has come to an include in kept text that stands in `d` others. -/
inductive Meets (d : Nat) : Loop → Prop
  | intro {name marker : String} {position : Position} {items : List Item} {origin : Option String}
    {depth : Nat} {outer : List Source} {st : State} : st.kept = true → outer.length = d →
    Meets d ⟨⟨.inclusion name position marker :: items, origin, depth⟩ :: outer, st⟩

/-- The loop has come to an include in kept text for which the loader gives an error. -/
inductive Refused (loader : Option Loader) (e : Error) : Loop → Prop
  | intro {load : Loader} {name marker : String} {position : Position} {items : List Item}
    {origin : Option String} {depth : Nat} {outer : List Source} {st : State} : st.kept = true →
    loader = some load → load name = .error e →
    Refused loader e ⟨⟨.inclusion name position marker :: items, origin, depth⟩ :: outer, st⟩

/-! ### How many texts are open -/

/-- Each text stands in as many includes as there are texts around it. -/
def Stacked : List Source → Prop
  | [] => True
  | source :: outer => source.depth = outer.length ∧ Stacked outer

structure Within (d : Nat) (sources : List Source) : Prop where
  stacked : Stacked sources
  length_le : sources.length ≤ d + 1

theorem within_start (d : Nat) (items : List Item) : Within d (start items).sources :=
  ⟨⟨rfl, trivial⟩, Nat.succ_le_succ (Nat.zero_le d)⟩

variable {flags : FlagSet} {trim : Bool} {loader : Option Loader} {limit : Option Nat} {d : Nat}
  {source : Source} {outer : List Source} {st : State} {l l' : Loop}

/-- A round reads an item of the innermost text, closes it, or opens another. -/
theorem round_ok (h : round flags trim loader limit source outer st = .ok l) :
    l.sources = outer ∨ ∃ items, l.sources = ⟨items, source.origin, source.depth⟩ :: outer ∨
      ∃ opened, l.sources = opened :: ⟨items, source.origin, source.depth⟩ :: outer ∧
        opened.depth = source.depth + 1 ∧ ∀ d ∈ limit, source.depth < d := by
  unfold Loop.round at h
  split at h
  · cases h
    exact .inl rfl
  · split at h
    · obtain ⟨opened, given, rfl⟩ := Except.map_eq_ok_iff.1 h
      exact .inr ⟨_, .inr ⟨opened, rfl, opening_ok given⟩⟩
    · cases h
      exact .inr ⟨_, .inl rfl⟩
  · obtain ⟨after, -, rfl⟩ := Except.map_eq_ok_iff.1 h
    exact .inr ⟨_, .inl rfl⟩

theorem Within.round (within : Within d (source :: outer))
    (h : round flags trim loader (some d) source outer st = .ok l) : Within d l.sources := by
  obtain ⟨⟨place, stacked⟩, length_le⟩ := within
  rw [List.length_cons] at length_le
  rcases round_ok h with closed | ⟨items, read | ⟨opened, pushed, deeper, room⟩⟩
  · rw [closed]
    exact ⟨stacked, Nat.le_of_succ_le length_le⟩
  · rw [read]
    exact ⟨⟨place, stacked⟩, length_le⟩
  · rw [pushed]
    have room : source.depth < d := room d rfl
    refine ⟨⟨by rw [deeper, place, List.length_cons], place, stacked⟩, ?_⟩
    simp only [List.length_cons]
    omega

theorem Reaches.within (h : Reaches flags trim loader (some d) l l')
    (within : Within d l.sources) : Within d l'.sources := by
  induction h with
  | refl => exact within
  | round here _ ih => exact ih (within.round here)

/-! ### Up to the limit -/

/-- At an include that stands as deep as the limit, the loop fails for the limit. -/
theorem round_of_meets (stacked : Stacked (source :: outer))
    (meets : Meets d ⟨source :: outer, st⟩) :
    ∃ e, round flags trim loader (some d) source outer st = .error (.malformed e) ∧
      e.kind = .includeTooDeep d := by
  cases meets with
  | @intro name marker position items origin depth _ _ kept deep =>
    have reached : (some d).filter (· ≤ depth) = some d := by
      have : depth = outer.length := stacked.1
      simp; omega
    refine ⟨⟨.includeTooDeep d, position, marker, origin⟩, ?_, rfl⟩
    simp only [Loop.round, kept, if_true, opening, reached, Except.map]

/-- Elsewhere it takes the same round as with any larger limit or none. -/
theorem round_of_not_meets (within : Within d (source :: outer))
    (further : ¬Meets d ⟨source :: outer, st⟩) (larger : ∀ d' ∈ limit, d ≤ d') :
    round flags trim loader (some d) source outer st =
      round flags trim loader limit source outer st := by
  obtain ⟨⟨place, -⟩, length_le⟩ := within
  unfold Loop.round
  split
  · rfl
  · next name position marker items origin depth =>
    by_cases kept : st.kept = true
    · have shallow : depth < d := by
        have : outer.length ≠ d := fun deep => further (.intro kept deep)
        have : depth = outer.length := place
        rw [List.length_cons] at length_le
        omega
      have allowed : (some d).filter (· ≤ depth) = none := by simp; omega
      have allowed' : limit.filter (· ≤ depth) = none := by
        refine Option.filter_eq_none_iff.2 fun d' mem => ?_
        have := larger d' mem
        simp; omega
      simp only [kept, if_true, opening, allowed, allowed']
    · rw [if_neg kept, if_neg kept]
  · rfl

theorem refuses_of_opening {origin : Option String} {depth : Nat} {name marker : String}
    {position : Position} {e : SyntaxError} (deep : e.kind.isTooDeep = true)
    (h : opening trim loader none origin depth name position marker = .error (.malformed e)) :
    ∃ load, loader = some load ∧ load name = .error (.malformed e) := by
  simp only [opening, Option.filter_none] at h
  split at h
  · cases h
    cases deep
  · next load =>
    split at h
    · next refused =>
      cases h
      exact ⟨load, rfl, refused⟩
    · split at h
      · next wrong read =>
        cases h
        have shallow : wrong.kind.isTooDeep = false := Item.isTooDeep_of_ofText read
        exact absurd deep (by simp [SyntaxError.within, shallow])
      · cases h

/-- Without a limit an error about includes that stand too deep is the loader's own. -/
theorem refused_of_round {e : SyntaxError} (deep : e.kind.isTooDeep = true)
    (h : round flags trim loader none source outer st = .error (.malformed e)) :
    Refused loader (.malformed e) ⟨source :: outer, st⟩ := by
  obtain ⟨items, origin, depth⟩ := source
  cases items with
  | nil => cases h
  | cons item items =>
    cases item with
    | inclusion name position marker =>
      rw [Loop.round] at h
      split at h
      · next kept =>
        obtain ⟨load, given, refused⟩ := refuses_of_opening deep (Except.map_eq_error_iff.1 h)
        exact .intro kept given refused
      · cases h
    | beginBlock name position =>
      simp only [Loop.round, step, State.openBlock, Except.map_eq_error_iff] at h
      split at h
      · cases h
      · split at h
        · cases h
          cases deep
        · cases h
    | _ => cases h

/-- Without a limit the loop fails where the loader does. -/
theorem round_of_refused {e : Error} (refused : Refused loader e ⟨source :: outer, st⟩) :
    round flags trim loader none source outer st = .error e := by
  cases refused with
  | intro kept given refused =>
    subst given
    simp only [Loop.round, kept, if_true, opening, Option.filter_none, refused]
    rfl

/-- A loop that does not fail for the limit ends in the same way with a larger limit. -/
theorem Ends.of_le {d' : Nat} (le : d ≤ d') {r : Except Error State}
    (h : Ends flags trim loader (some d) l r) (within : Within d l.sources)
    (other : ∀ e, r = .error (.malformed e) → e.kind ≠ .includeTooDeep d) :
    Ends flags trim loader (some d') l r := by
  have larger : ∀ d'' ∈ some d', d ≤ d'' := by simpa using le
  induction h with
  | closed st => exact .closed st
  | @failed source outer st e here =>
    have further : ¬Meets d ⟨source :: outer, st⟩ := by
      intro meets
      obtain ⟨e', failed, deep⟩ := round_of_meets within.stacked meets
      cases here.symm.trans failed
      exact other e' rfl deep
    exact .failed (round_of_not_meets within further larger ▸ here)
  | @round source outer st l r here _ ih =>
    have further : ¬Meets d ⟨source :: outer, st⟩ := by
      intro meets
      obtain ⟨e, failed, -⟩ := round_of_meets within.stacked meets
      cases here.symm.trans failed
    exact .round (round_of_not_meets within further larger ▸ here) (ih (within.round here) other)

/-- The loop fails as if for the limit just if it comes, without one, to an include that stands
that deep, or to one for which the loader says so itself. -/
theorem ends_tooDeep_iff (within : Within d l.sources) :
    (∃ e, Ends flags trim loader (some d) l (.error (.malformed e)) ∧
      e.kind = .includeTooDeep d) ↔
    ∃ l', Reaches flags trim loader none l l' ∧
      (l'.Meets d ∨ ∃ e, l'.Refused loader (.malformed e) ∧ e.kind = .includeTooDeep d) := by
  have larger : ∀ d' ∈ (none : Option Nat), d ≤ d' := by simp
  constructor
  · rintro ⟨e, ends, deep⟩
    generalize failed : Except.error (Error.malformed e) = r at ends
    induction ends with
    | closed => cases failed
    | @failed source outer st _ here =>
      cases failed
      by_cases meets : Meets d ⟨source :: outer, st⟩
      · exact ⟨_, .refl _, .inl meets⟩
      · rw [round_of_not_meets within meets larger] at here
        exact ⟨_, .refl _, .inr ⟨e, refused_of_round (by rw [deep]; rfl) here, deep⟩⟩
    | @round source outer st l r here _ ih =>
      by_cases meets : Meets d ⟨source :: outer, st⟩
      · exact ⟨_, .refl _, .inl meets⟩
      · obtain ⟨l', reaches, there⟩ := ih (within.round here) failed
        exact ⟨l', .round (round_of_not_meets within meets larger ▸ here) reaches, there⟩
  · rintro ⟨l', reaches, there⟩
    induction reaches with
    | refl l =>
      by_cases meets : Meets d l
      · cases meets with
        | intro kept deep =>
          obtain ⟨e, failed, kind⟩ := round_of_meets within.stacked (.intro kept deep)
          exact ⟨e, .failed failed, kind⟩
      · obtain ⟨e, refused, deep⟩ := there.resolve_left meets
        cases refused with
        | intro kept given refused =>
          refine ⟨e, .failed ?_, deep⟩
          rw [round_of_not_meets within meets larger]
          exact round_of_refused (.intro kept given refused)
    | @round source outer st l l' here _ ih =>
      by_cases meets : Meets d ⟨source :: outer, st⟩
      · obtain ⟨e, failed, kind⟩ := round_of_meets within.stacked meets
        exact ⟨e, .failed failed, kind⟩
      · rw [← round_of_not_meets within meets larger] at here
        obtain ⟨e, ends, kind⟩ := ih (within.round here) there
        exact ⟨e, .round here ends, kind⟩

end Loop

end Stencil.Expansion

namespace Stencil

open Expansion

theorem compile_of_items {source : String} {items : List Item} {flags : FlagSet}
    {options : Options} {loader : Option Loader}
    (read : Item.ofText options.trim source = .ok items) :
    compile source flags options loader =
      (expand flags options loader options.maxIncludeDepth none .start items).map
        fun st => Model.ofPieces st.pieces.reverse := by
  rw [compile, read]
  simp only [Piece.ofItems]
  cases expand flags options loader options.maxIncludeDepth none .start items <;> rfl

section

variable {source : String} {flags : FlagSet} {trim : Bool} {loader : Option Loader}

/-- Includes nest too deep just if the loop would come to one that does, or if the loader gives that
very error. -/
theorem compile_tooDeep_iff (d : Nat) :
    (∃ e, compile source flags ⟨trim, d⟩ loader = .error (.malformed e) ∧
        e.kind = .includeTooDeep d) ↔
      ∃ items l, Item.ofText trim source = .ok items ∧
        Loop.Reaches flags trim loader none (.start items) l ∧
        (l.Meets d ∨ ∃ e, l.Refused loader (.malformed e) ∧ e.kind = .includeTooDeep d) := by
  cases read : Item.ofText trim source with
  | error wrong =>
    have rejected : compile source flags ⟨trim, d⟩ loader = .error (.malformed wrong) := by
      rw [compile, read]
    constructor
    · rintro ⟨e, failed, deep⟩
      cases rejected.symm.trans failed
      have := Item.isTooDeep_of_ofText read
      rw [deep] at this
      cases this
    · rintro ⟨items, l, ⟨⟩, -, -⟩
  | ok items =>
    have compiled : compile source flags ⟨trim, d⟩ loader =
        (expand flags ⟨trim, d⟩ loader d none .start items).map
          fun st => Model.ofPieces st.pieces.reverse := compile_of_items read
    have ends := Loop.ends_expand flags ⟨trim, d⟩ loader items
    have limited := @Loop.ends_tooDeep_iff flags trim loader d _ (Loop.within_start d items)
    constructor
    · rintro ⟨e, failed, deep⟩
      rw [compiled, Except.map_eq_error_iff] at failed
      obtain ⟨l, reaches, there⟩ := limited.1 ⟨e, failed ▸ ends, deep⟩
      exact ⟨items, l, rfl, reaches, there⟩
    · rintro ⟨_, l, ⟨⟩, reaches, there⟩
      obtain ⟨e, failed, deep⟩ := limited.2 ⟨l, reaches, there⟩
      refine ⟨e, ?_, deep⟩
      rw [compiled, ends.unique failed]
      rfl

/-- A loader that never says of itself that includes nest too deep leaves no other reason. -/
theorem compile_tooDeep_iff_meets {d : Nat}
    (honest : ∀ load ∈ loader, ∀ name e, load name = .error (.malformed e) →
      e.kind ≠ .includeTooDeep d) :
    (∃ e, compile source flags ⟨trim, d⟩ loader = .error (.malformed e) ∧
        e.kind = .includeTooDeep d) ↔
      ∃ items l, Item.ofText trim source = .ok items ∧
        Loop.Reaches flags trim loader none (.start items) l ∧ l.Meets d := by
  rw [compile_tooDeep_iff]
  constructor
  · rintro ⟨items, l, read, reaches, meets | ⟨e, refused, deep⟩⟩
    · exact ⟨items, l, read, reaches, meets⟩
    · cases refused with
      | intro _ given refused => exact absurd deep (honest _ given _ e refused)
  · rintro ⟨items, l, read, reaches, meets⟩
    exact ⟨items, l, read, reaches, .inl meets⟩

end

/-- Whatever a template includes, the loop that expands it ends, and of the texts no more than one
more than the limit are open at once. A result other than that includes nest too deep is the same
with every larger limit. That they do is the result just if an include that stands in as many others
as the limit is the first trouble that the loop would come to without a limit, or if the loader
gives that very error there; and just in the first case if the loader never does. -/
theorem compile_include_limit (source : String) (flags : FlagSet) (trim : Bool)
    (loader : Option Loader) (d : Nat) :
    (∀ items, Item.ofText trim source = .ok items →
      (∃ r, Loop.Ends flags trim loader (some d) (.start items) r ∧
        compile source flags ⟨trim, d⟩ loader =
          r.map fun st => Model.ofPieces st.pieces.reverse) ∧
      ∀ l, Loop.Reaches flags trim loader (some d) (.start items) l →
        l.sources.length ≤ d + 1) ∧
    (∀ d', d ≤ d' →
      (∀ e, compile source flags ⟨trim, d⟩ loader = .error (.malformed e) →
        e.kind ≠ .includeTooDeep d) →
      compile source flags ⟨trim, d'⟩ loader = compile source flags ⟨trim, d⟩ loader) ∧
    ((∃ e, compile source flags ⟨trim, d⟩ loader = .error (.malformed e) ∧
        e.kind = .includeTooDeep d) ↔
      ∃ items l, Item.ofText trim source = .ok items ∧
        Loop.Reaches flags trim loader none (.start items) l ∧
        (l.Meets d ∨ ∃ e, l.Refused loader (.malformed e) ∧ e.kind = .includeTooDeep d)) ∧
    ((∀ load ∈ loader, ∀ name e, load name = .error (.malformed e) →
        e.kind ≠ .includeTooDeep d) →
      ((∃ e, compile source flags ⟨trim, d⟩ loader = .error (.malformed e) ∧
          e.kind = .includeTooDeep d) ↔
        ∃ items l, Item.ofText trim source = .ok items ∧
          Loop.Reaches flags trim loader none (.start items) l ∧ l.Meets d)) := by
  refine ⟨fun items read => ?_, fun d' le other => ?_, compile_tooDeep_iff d,
    compile_tooDeep_iff_meets⟩
  · have ends := Loop.ends_expand flags ⟨trim, d⟩ loader items
    have within := Loop.within_start d items
    exact ⟨⟨_, ends, compile_of_items read⟩, fun l reaches => (reaches.within within).length_le⟩
  · cases read : Item.ofText trim source with
    | error wrong => rw [compile, compile, read]
    | ok items =>
      have compiled (d : Nat) : compile source flags ⟨trim, d⟩ loader =
          (expand flags ⟨trim, d⟩ loader d none .start items).map
            fun st => Model.ofPieces st.pieces.reverse := compile_of_items read
      have ends (d : Nat) := Loop.ends_expand flags ⟨trim, d⟩ loader items
      have same := ((ends d).of_le le (Loop.within_start d items) fun e failed =>
        other e (by rw [compiled, failed]; rfl)).unique (ends d')
      rw [compiled, compiled, same]

theorem ofText_self :
    Item.ofText true "[include:self]" = .ok [.inclusion "self" ⟨1, 1⟩ "[include:self]"] :=
  Item.ofText_of_drainWithin rfl rfl

/-- A subtemplate that includes itself is expanded up to the limit, and any limit but zero finds out
that there is no loader. -/
theorem compile_include_limit_self :
    ((∃ r, Loop.Ends .empty true (some fun _ => .ok "[include:self]") (some 1)
          (.start [.inclusion "self" ⟨1, 1⟩ "[include:self]"]) r ∧
        compile "[include:self]" .empty ⟨true, 1⟩ (some fun _ => .ok "[include:self]") =
          r.map fun st => Model.ofPieces st.pieces.reverse) ∧
      ∀ l, Loop.Reaches .empty true (some fun _ => .ok "[include:self]") (some 1)
        (.start [.inclusion "self" ⟨1, 1⟩ "[include:self]"]) l → l.sources.length ≤ 2) ∧
    (∃ l, l.Meets 1 ∧ Loop.Reaches .empty true (some fun _ => .ok "[include:self]") none
      (.start [.inclusion "self" ⟨1, 1⟩ "[include:self]"]) l) ∧
    compile "[include:self]" .empty ⟨true, 1⟩ (some fun _ => .ok "[include:self]") =
      .error (.malformed ⟨.includeTooDeep 1, ⟨1, 1⟩, "[include:self]", some "self"⟩) ∧
    compile "[include:self]" .empty ⟨true, 7⟩ none =
      .error (.malformed ⟨.includeUnavailable, ⟨1, 1⟩, "[include:self]", none⟩) := by
  have tooDeep :
      compile "[include:self]" .empty ⟨true, 1⟩ (some fun _ => .ok "[include:self]") =
        .error (.malformed ⟨.includeTooDeep 1, ⟨1, 1⟩, "[include:self]", some "self"⟩) := by
    rw [compile_of_items ofText_self]
    simp only [expand, steps, step, State.start, ofText_self, if_true]
    rfl
  have unavailable : compile "[include:self]" .empty ⟨true, 1⟩ none =
      .error (.malformed ⟨.includeUnavailable, ⟨1, 1⟩, "[include:self]", none⟩) := by
    rw [compile_of_items ofText_self]
    rfl
  have honest : ∀ load ∈ some (fun _ => .ok "[include:self]" : Loader), ∀ name e,
      load name = .error (.malformed e) → e.kind ≠ .includeTooDeep 1 := by
    intro load given name e refused
    cases given
    cases refused
  obtain ⟨ends, -, -, limited⟩ :=
    compile_include_limit "[include:self]" .empty true (some fun _ => .ok "[include:self]") 1
  obtain ⟨items, l, read, reaches, meets⟩ := (limited honest).1 ⟨_, tooDeep, rfl⟩
  cases ofText_self.symm.trans read
  have larger := (compile_include_limit "[include:self]" .empty true none 1).2.1 7 (by decide)
    fun e failed deep => by
      cases unavailable.symm.trans failed
      cases deep
  exact ⟨ends _ ofText_self, ⟨l, meets, reaches⟩, tooDeep, larger.trans unavailable⟩

end Stencil
