import Stencil.Proofs.Outline.Loop

/-! # What stands open in a loop

The history of the loop tells which scopes are open and where they were opened.
-/

/-! ## What a loop has come through

The loop that expands a template keeps a flag and a stack of scopes, which say little about how they
came about. Its history says it: for every text that is open, the state in which it was opened, and
for every scope that is open, the state in which its marker was read and what has become of its
branches. Scopes are told from the markers alone: a marker that opens is matched by the next one
that closes what is open by then.
-/

namespace Stencil.Expansion

def State.builder (st : State) : Model.Builder :=
  st.pieces.reverse.foldl .add .start

def Scope.name? : Scope → Option String
  | .block name => some name
  | _ => none

structure Mark where
  /-- The name of the block; none for a conditional. -/
  block : Option String
  /-- The state in which the marker that opens the scope was read. -/
  before : State
  /-- Whether the text of the scope is kept, which in a conditional is that of the last branch. -/
  kept : Bool
  /-- Whether the text of the scope or of an earlier branch is kept. -/
  taken : Bool

namespace Mark

def scope (mark : Mark) : Scope :=
  match mark.block with
  | none => .conditional mark.taken mark.before.kept
  | some name => if mark.before.kept then .block name else .skipped

theorem scope_of_kept {mark : Mark} {name : String} (block : mark.block = some name)
    (kept : mark.before.kept = true) : mark.scope = .block name := by
  simp [scope, block, kept]

theorem scope_of_discarded {mark : Mark} {name : String} (block : mark.block = some name)
    (discarded : mark.before.kept = false) : mark.scope = .skipped := by
  simp [scope, block, discarded]

theorem scope_of_conditional {mark : Mark} (conditional : mark.block = none) :
    mark.scope = .conditional mark.taken mark.before.kept := by
  simp [scope, conditional]

def name? (mark : Mark) : Option String :=
  if mark.before.kept then mark.block else none

theorem name?_scope (mark : Mark) : mark.scope.name? = mark.name? := by
  obtain ⟨_ | name, ⟨scopes, openNames, _ | _, pieces⟩, kept, taken⟩ := mark <;> rfl

/-- The number and the name of the block that is built for the scope, if one is. -/
def built? (mark : Mark) : Option (Nat × String) :=
  mark.name?.map fun name => (mark.before.builder.model.blockCount, name)

theorem built?_of_kept {mark : Mark} {name : String} (block : mark.block = some name)
    (kept : mark.before.kept = true) :
    mark.built? = some (mark.before.builder.model.blockCount, name) := by
  simp [built?, name?, block, kept]

theorem built?_of_discarded {mark : Mark} (discarded : mark.before.kept = false) :
    mark.built? = none := by
  simp [built?, name?, discarded]

theorem built?_of_conditional {mark : Mark} (conditional : mark.block = none) :
    mark.built? = none := by
  simp [built?, name?, conditional]

def nextBranch (kept : Bool) (mark : Mark) : Mark :=
  { mark with kept, taken := mark.taken || kept }

/-- The scopes that are open after an item, innermost first, given the states before and after
it. -/
def afterItem (st after : State) (marks : List Mark) : Item → List Mark
  | .beginBlock name _ => ⟨some name, st, after.kept, after.kept⟩ :: marks
  | .ifCond _ => ⟨none, st, after.kept, after.kept⟩ :: marks
  | .elseIf _ => marks.modifyHead (nextBranch after.kept)
  | .otherwise => marks.modifyHead (nextBranch after.kept)
  | .endBlock => marks.tail
  | .endIf => marks.tail
  | _ => marks

end Mark

structure History where
  /-- For every open text, innermost first, the state in which it was opened. -/
  opened : List State
  /-- The open scopes, innermost first. -/
  marks : List Mark

namespace History

def start : History :=
  ⟨[.start], []⟩

def next (h : History) (source : Source) (st after : State) : History :=
  match source.items with
  | [] => { h with opened := h.opened.tail }
  | .inclusion _ _ _ :: _ => if st.kept then { h with opened := st :: h.opened } else h
  | item :: _ => { h with marks := Mark.afterItem st after h.marks item }

end History

namespace Loop

section

variable (flags : FlagSet) (trim : Bool) (loader : Option Loader) (limit : Option Nat)

/-- The loop comes from the start of a template to a state without an error, with this history. -/
inductive Traced (items : List Item) : Loop → History → Prop
  | start : Traced items (start items) .start
  | round {source : Source} {outer : List Source} {st : State} {h : History} {l : Loop} :
    Traced items ⟨source :: outer, st⟩ h → round flags trim loader limit source outer st = .ok l →
      Traced items l (h.next source st l.st)

end

variable {flags : FlagSet} {trim : Bool} {loader : Option Loader} {limit : Option Nat}
  {items : List Item} {source : Source} {outer : List Source} {st : State} {l l' : Loop}
  {h : History}

theorem Reaches.snoc (reaches : Reaches flags trim loader limit l ⟨source :: outer, st⟩)
    (taken : Loop.round flags trim loader limit source outer st = .ok l') :
    Reaches flags trim loader limit l l' := by
  generalize last : Loop.mk (source :: outer) st = between at reaches
  induction reaches with
  | refl =>
    subst last
    exact .round taken (.refl l')
  | round here _ ih => exact .round here (ih last)

theorem Ends.reaches {r : Except Error State} (ends : Ends flags trim loader limit l r)
    (done : r = .ok st) : Reaches flags trim loader limit l ⟨[], st⟩ := by
  induction ends with
  | closed =>
    cases done
    exact .refl _
  | failed => cases done
  | round taken _ ih => exact .round taken (ih done)

theorem Traced.reaches (traced : Traced flags trim loader limit items l h) :
    Reaches flags trim loader limit (.start items) l := by
  induction traced with
  | start => exact .refl _
  | round _ taken ih => exact ih.snoc taken

theorem Traced.exists_of_reaches (traced : Traced flags trim loader limit items l h)
    (reaches : Reaches flags trim loader limit l l') :
    ∃ h', Traced flags trim loader limit items l' h' := by
  induction reaches generalizing h with
  | refl => exact ⟨h, traced⟩
  | round taken _ ih => exact ih (traced.round taken)

/-- Wherever the loop comes, it has a history there. -/
theorem reaches_iff_exists_traced : Reaches flags trim loader limit (.start items) l ↔
    ∃ h, Traced flags trim loader limit items l h :=
  ⟨Traced.start.exists_of_reaches, fun ⟨_, traced⟩ => traced.reaches⟩

end Loop

/-! ## Scopes that stand in each other

An expansion knows the scopes that are open, the names of the kept blocks among them, and whether
text is kept. All three are what the open scopes make of them, one inside the next, and closing a
scope restores them: a name is noted for one block at a time, and whether text is kept after a
conditional was noted when it began.
-/

open Item (openAfter)

variable {flags : FlagSet} {trim : Bool} {loader : Option Loader} {limit : Option Nat}

/-! ### Inside a scope -/

namespace State

/-- In both states the same scopes are open. -/
structure Level (st st' : State) : Prop where
  scopes : st'.scopes = st.scopes
  openNames : st'.openNames = st.openNames
  kept : st'.kept = st.kept

variable {st st' st'' : State}

theorem Level.refl (st : State) : st.Level st :=
  ⟨rfl, rfl, rfl⟩

theorem Level.symm (h : st.Level st') : st'.Level st :=
  ⟨h.scopes.symm, h.openNames.symm, h.kept.symm⟩

theorem Level.trans (h : st.Level st') (h' : st'.Level st'') : st.Level st'' :=
  ⟨h'.scopes.trans h.scopes, h'.openNames.trans h.openNames, h'.kept.trans h.kept⟩

theorem level_addPiece (st : State) (piece : Piece) : st.Level (st.addPiece piece) := by
  unfold addPiece
  split <;> exact ⟨rfl, rfl, rfl⟩

theorem Level.closeBlock (h : st.Level st') : st.closeBlock.Level st'.closeBlock := by
  obtain ⟨scopes, openNames, kept⟩ := h
  unfold State.closeBlock
  rw [scopes]
  split
  · exact ⟨rfl, by rw [openNames], kept⟩
  · exact ⟨rfl, openNames, kept⟩
  · exact ⟨scopes, openNames, kept⟩

theorem Level.closeConditional (h : st.Level st') :
    st.closeConditional.Level st'.closeConditional := by
  obtain ⟨scopes, openNames, kept⟩ := h
  unfold State.closeConditional
  rw [scopes]
  split
  · exact ⟨rfl, openNames, rfl⟩
  · exact ⟨rfl, openNames, kept⟩
  · exact ⟨scopes, openNames, kept⟩

theorem Level.nextBranch (h : st.Level st') (holds : Bool) :
    (st.nextBranch holds).Level (st'.nextBranch holds) := by
  obtain ⟨scopes, openNames, kept⟩ := h
  unfold State.nextBranch
  rw [scopes]
  split
  · exact ⟨rfl, openNames, rfl⟩
  · exact ⟨scopes, openNames, kept⟩

end State

open State (Level)

namespace Mark

/-- The state is one inside the scope, and outside all scopes opened in it. -/
inductive Inside : Mark → State → Prop
  -- The pieces play no part in which scopes are open.
  | block {name : String} {before st : State} : before.kept = true → name ∉ before.openNames →
    Level ⟨.block name :: before.scopes, before.openNames.insert name, true, []⟩ st →
    Inside ⟨some name, before, true, true⟩ st
  | skipped {name : String} {before st : State} : before.kept = false →
    Level ⟨.skipped :: before.scopes, before.openNames, false, []⟩ st →
    Inside ⟨some name, before, false, false⟩ st
  | conditional {before st : State} {kept taken : Bool} : (kept = true → before.kept = true) →
    Level ⟨.conditional taken before.kept :: before.scopes, before.openNames, kept, []⟩ st →
    Inside ⟨none, before, kept, taken⟩ st

variable {mark : Mark} {st st' : State}

theorem Inside.of_level (h : mark.Inside st) (level : st.Level st') : mark.Inside st' := by
  cases h with
  | block kept fresh here => exact .block kept fresh (here.trans level)
  | skipped discarded here => exact .skipped discarded (here.trans level)
  | conditional outer here => exact .conditional outer (here.trans level)

theorem Inside.level (h : mark.Inside st) (h' : mark.Inside st') : st.Level st' := by
  cases h with
  | block _ _ here => cases h' with | block _ _ here' => exact here.symm.trans here'
  | skipped _ here => cases h' with | skipped _ here' => exact here.symm.trans here'
  | conditional _ here => cases h' with | conditional _ here' => exact here.symm.trans here'

theorem inside_openBlock {after : State} {origin : Option String} {name : String}
    {position : Position} (h : st.openBlock origin name position = .ok after) :
    Inside ⟨some name, st, after.kept, after.kept⟩ after := by
  unfold State.openBlock at h
  split at h
  · next discarded =>
    cases h
    have discarded : st.kept = false := by simpa using discarded
    simp only [discarded]
    exact .skipped discarded ⟨rfl, rfl, rfl⟩
  · next kept =>
    split at h
    · cases h
    · next fresh =>
      cases h
      have kept : st.kept = true := by simpa using kept
      simp only [kept]
      exact .block kept (by simpa using fresh) ⟨rfl, rfl, rfl⟩

theorem inside_openConditional (st : State) (holds : Bool) :
    Inside ⟨none, st, (st.openConditional holds).kept, (st.openConditional holds).kept⟩
      (st.openConditional holds) :=
  .conditional (fun kept => (Bool.and_eq_true_iff.1 kept).1) ⟨rfl, rfl, rfl⟩

theorem Inside.nextBranch (h : mark.Inside st) (conditional : mark.block = none) (holds : Bool) :
    (mark.nextBranch (st.nextBranch holds).kept).Inside (st.nextBranch holds) := by
  cases h with
  | block => cases conditional
  | skipped => cases conditional
  | conditional outer here =>
    have onward := here.nextBranch holds
    refine .conditional (fun kept => ?_) ?_
    · rw [onward.kept] at kept
      simp only [State.nextBranch, Bool.and_eq_true] at kept
      exact kept.1.1
    · refine Level.trans ?_ onward
      exact ⟨by rw [onward.kept]; rfl, rfl, onward.kept.symm⟩

/-- Closing a block leads back to where it was opened. -/
theorem Inside.closeBlock {name : String} (h : mark.Inside st) (block : mark.block = some name) :
    mark.before.Level st.closeBlock := by
  cases h with
  | block kept fresh here =>
    refine Level.trans ?_ here.closeBlock
    exact ⟨rfl, erase_insert_of_not_mem fresh, kept.symm⟩
  | skipped discarded here =>
    refine Level.trans ?_ here.closeBlock
    exact ⟨rfl, rfl, discarded.symm⟩
  | conditional => cases block

theorem Inside.closeConditional (h : mark.Inside st) (conditional : mark.block = none) :
    mark.before.Level st.closeConditional := by
  cases h with
  | block => cases conditional
  | skipped => cases conditional
  | conditional _ here =>
    refine Level.trans ?_ here.closeConditional
    exact ⟨rfl, rfl, rfl⟩

theorem Inside.scopes (h : mark.Inside st) : st.scopes = mark.scope :: mark.before.scopes := by
  cases h with
  | block kept _ here => rw [here.scopes, scope_of_kept rfl kept]
  | skipped discarded here => rw [here.scopes, scope_of_discarded rfl discarded]
  | conditional _ here => rw [here.scopes, scope_of_conditional rfl]

theorem Inside.kept (h : mark.Inside st) : st.kept = mark.kept := by
  cases h with
  | block _ _ here => exact here.kept
  | skipped _ here => exact here.kept
  | conditional _ here => exact here.kept

theorem Inside.kept_of_discarded (h : mark.Inside st) (discarded : mark.before.kept = false) :
    st.kept = false := by
  cases h with
  | block kept => cases kept.symm.trans discarded
  | skipped _ here => exact here.kept
  | conditional outer here =>
    rw [here.kept, ← Bool.not_eq_true]
    exact fun kept => Bool.false_ne_true (discarded.symm.trans (outer kept))

theorem Inside.count_block (h : mark.Inside st) {name : String}
    (before : mark.before.scopes.count (.block name) =
      if name ∈ mark.before.openNames then 1 else 0) :
    st.scopes.count (.block name) = if name ∈ st.openNames then 1 else 0 := by
  cases h with
  | @block own _ _ _ fresh here =>
    rw [here.scopes, here.openNames, List.count_cons, before]
    by_cases same : own = name
    · subst same
      simp [fresh]
    · simp [same]
  | skipped _ here => rw [here.scopes, here.openNames, List.count_cons, before]; simp
  | conditional _ here => rw [here.scopes, here.openNames, List.count_cons, before]; simp

/-- A kept block is noted under its name. -/
theorem Inside.mem_openNames {name : String} (h : mark.Inside st) (block : mark.block = some name)
    (kept : mark.before.kept = true) : name ∈ st.openNames := by
  cases h with
  | block _ _ here =>
    cases block
    rw [here.openNames]
    simp
  | skipped discarded => cases kept.symm.trans discarded
  | conditional => cases block

end Mark

/-- The scopes of the marks are open in the state, each inside the next. -/
inductive Stands : List Mark → State → Prop
  | outside {st : State} : State.start.Level st → Stands [] st
  | inside {mark : Mark} {below : List Mark} {st : State} :
    Stands below mark.before → mark.Inside st → Stands (mark :: below) st

section

variable {marks : List Mark} {st st' : State}

/-- The marks tell which scopes are open in a state. -/
theorem Stands.level (h : Stands marks st) (h' : Stands marks st') : st.Level st' := by
  cases h with
  | outside here => cases h' with | outside here' => exact here.symm.trans here'
  | inside _ here => cases h' with | inside _ here' => exact here.level here'

theorem Stands.of_level (h : Stands marks st) (level : st.Level st') : Stands marks st' := by
  cases h with
  | outside here => exact .outside (here.trans level)
  | inside before here => exact .inside before (here.of_level level)

end

/-! ### One item -/

/-- An item leaves the scopes around those that it fits as they are. -/
theorem Mark.afterItem_append {segment : List Mark} {item : Item} {opened : List (Option String)}
    (fits : openAfter (segment.map Mark.block) item = some opened) (st after : State)
    (below : List Mark) :
    ∃ left, afterItem st after (segment ++ below) item = left ++ below ∧
      left.map Mark.block = opened := by
  cases item with
  | text content => cases fits; exact ⟨segment, rfl, rfl⟩
  | var name => cases fits; exact ⟨segment, rfl, rfl⟩
  | inclusion name position marker => cases fits; exact ⟨segment, rfl, rfl⟩
  | beginBlock name position => cases fits; exact ⟨_ :: segment, rfl, rfl⟩
  | ifCond condition => cases fits; exact ⟨_ :: segment, rfl, rfl⟩
  | endBlock =>
    rcases segment with _ | ⟨⟨_ | name, before, kept, taken⟩, segment⟩ <;> cases fits
    exact ⟨segment, rfl, rfl⟩
  | elseIf condition =>
    rcases segment with _ | ⟨⟨_ | name, before, kept, taken⟩, segment⟩ <;> cases fits
    exact ⟨_ :: segment, rfl, rfl⟩
  | otherwise =>
    rcases segment with _ | ⟨⟨_ | name, before, kept, taken⟩, segment⟩ <;> cases fits
    exact ⟨_ :: segment, rfl, rfl⟩
  | endIf =>
    rcases segment with _ | ⟨⟨_ | name, before, kept, taken⟩, segment⟩ <;> cases fits
    exact ⟨segment, rfl, rfl⟩

section

variable {marks : List Mark} {st after : State} {origin : Option String} {item : Item}
  {opened : List (Option String)}

theorem Stands.read (stands : Stands marks st)
    (fits : openAfter (marks.map Mark.block) item = some opened)
    (h : step flags origin (fun _ _ _ st => .ok st) st item = .ok after) :
    Stands (Mark.afterItem st after marks item) after := by
  cases item with
  | text content =>
    cases h
    exact stands.of_level (st.level_addPiece _)
  | var name =>
    cases h
    exact stands.of_level (st.level_addPiece _)
  | inclusion name position marker =>
    rw [step, ite_self] at h
    cases h
    exact stands
  | beginBlock name position => exact .inside stands (Mark.inside_openBlock h)
  | ifCond condition =>
    cases h
    exact .inside stands (Mark.inside_openConditional st _)
  | endBlock =>
    cases h
    rcases marks with _ | ⟨⟨_ | name, before, kept, taken⟩, below⟩ <;> cases fits
    cases stands with
    | inside around here => exact around.of_level (here.closeBlock rfl)
  | elseIf condition =>
    cases h
    rcases marks with _ | ⟨⟨_ | name, before, kept, taken⟩, below⟩ <;> cases fits
    cases stands with
    | inside around here => exact .inside around (here.nextBranch rfl _)
  | otherwise =>
    cases h
    rcases marks with _ | ⟨⟨_ | name, before, kept, taken⟩, below⟩ <;> cases fits
    cases stands with
    | inside around here => exact .inside around (here.nextBranch rfl _)
  | endIf =>
    cases h
    rcases marks with _ | ⟨⟨_ | name, before, kept, taken⟩, below⟩ <;> cases fits
    cases stands with
    | inside around here => exact around.of_level (here.closeConditional rfl)

/-! ### What the scopes tell -/

theorem Stands.scopes (h : Stands marks st) : st.scopes = marks.map Mark.scope := by
  induction h with
  | outside here => exact here.scopes
  | inside _ here ih => rw [here.scopes, List.map_cons, ih]

theorem Stands.kept (h : Stands marks st) : st.kept = (marks.head?.map Mark.kept).getD true := by
  cases h with
  | outside here => exact here.kept
  | inside _ here => exact here.kept

/-- A name is noted as open just if a kept block of that name is, and there is no second one. -/
theorem Stands.count_block (h : Stands marks st) (name : String) :
    st.scopes.count (.block name) = if name ∈ st.openNames then 1 else 0 := by
  induction h with
  | outside here =>
    rw [here.scopes, here.openNames]
    simp [State.start]
  | inside _ here ih => exact here.count_block ih

/-- In text that is not kept no block is kept, however deep. -/
theorem Stands.discarded {above below : List Mark} {mark : Mark}
    (h : Stands (above ++ mark :: below) st) (discarded : mark.kept = false) :
    st.kept = false ∧ ∀ other ∈ above, other.before.kept = false := by
  induction above generalizing st with
  | nil =>
    refine ⟨?_, by simp⟩
    rw [h.kept]
    exact discarded
  | cons first above ih =>
    cases h with
    | inside before here =>
      obtain ⟨outside, rest⟩ := ih before
      refine ⟨here.kept_of_discarded outside, ?_⟩
      simpa [outside] using rest

end

end Stencil.Expansion
