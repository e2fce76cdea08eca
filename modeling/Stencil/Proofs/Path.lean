import Mathlib.Data.List.Basic
import Stencil.FileTree

/-! # Paths by their components

A path is told by where it starts and by the segments that take a step. Paths are equal by their
components if these are, and then what is joined to them and the directories they stand in are equal
as well.
-/

namespace Stencil.Path

/-! ## Segments -/

@[simp]
theorem segments_nil : segments [] = [[]] :=
  rfl

@[simp]
theorem segments_slash (cs : List Char) : segments ('/' :: cs) = [] :: segments cs :=
  rfl

theorem exists_segments_eq_cons (cs : List Char) : ∃ s rest, segments cs = s :: rest := by
  refine List.exists_cons_of_ne_nil ?_
  cases cs with
  | nil => exact List.cons_ne_nil _ _
  | cons c cs =>
    show addToSegments c (segments cs) ≠ []
    unfold addToSegments
    split
    · exact List.cons_ne_nil _ _
    · split <;> exact List.cons_ne_nil _ _

theorem segments_cons {c : Char} (other : c ≠ '/') (cs : List Char) :
    ∃ s rest, segments cs = s :: rest ∧ segments (c :: cs) = (c :: s) :: rest := by
  obtain ⟨s, rest, there⟩ := exists_segments_eq_cons cs
  refine ⟨s, rest, there, ?_⟩
  show addToSegments c (segments cs) = _
  rw [there, addToSegments, if_neg (by simpa using other)]

theorem segments_append_slash (before after : List Char) :
    segments (before ++ '/' :: after) = segments before ++ segments after := by
  induction before with
  | nil => rfl
  | cons c before ih =>
    by_cases slash : c = '/'
    · subst slash
      rw [List.cons_append, segments_slash, segments_slash, ih, List.cons_append]
    · obtain ⟨s, rest, there, here⟩ := segments_cons slash before
      obtain ⟨s', rest', there', here'⟩ := segments_cons slash (before ++ '/' :: after)
      rw [ih, there, List.cons_append] at there'
      obtain ⟨rfl, rfl⟩ := List.cons.inj there'
      rw [List.cons_append, here', here, List.cons_append]

/-- The characters of a path but its slashes are those of its segments. -/
theorem mem_segments_iff {c : Char} (other : c ≠ '/') {cs : List Char} :
    (∃ s ∈ segments cs, c ∈ s) ↔ c ∈ cs := by
  induction cs with
  | nil => simp
  | cons d cs ih =>
    by_cases slash : d = '/'
    · subst slash
      simp [other, ih]
    · obtain ⟨s, rest, there, here⟩ := segments_cons slash cs
      rw [there] at ih
      rw [here, List.mem_cons, ← ih]
      simp [or_assoc]

theorem slash_not_mem {s cs : List Char} (mem : s ∈ segments cs) : '/' ∉ s := by
  induction cs generalizing s with
  | nil => simp_all
  | cons c cs ih =>
    by_cases slash : c = '/'
    · subst slash
      rcases List.mem_cons.1 mem with rfl | mem
      · exact List.not_mem_nil
      · exact ih mem
    · obtain ⟨first, rest, there, here⟩ := segments_cons slash cs
      rw [here] at mem
      rw [there] at ih
      rcases List.mem_cons.1 mem with rfl | mem
      · exact fun inside => (List.mem_cons.1 inside).elim (fun same => slash same.symm)
          (ih List.mem_cons_self)
      · exact ih (List.mem_cons_of_mem _ mem)

theorem segments_of_not_mem {s : List Char} (clean : '/' ∉ s) : segments s = [s] := by
  induction s with
  | nil => rfl
  | cons c s ih =>
    obtain ⟨other, clean⟩ := List.ne_and_not_mem_of_not_mem_cons clean
    obtain ⟨first, rest, there, here⟩ := segments_cons (Ne.symm other) s
    rw [ih clean] at there
    obtain ⟨rfl, rfl⟩ := List.cons.inj there
    exact here

theorem segments_ofSegments {ss : List (List Char)} (some : ss ≠ [])
    (clean : ∀ s ∈ ss, '/' ∉ s) : segments (ofSegments ss) = ss := by
  induction ss with
  | nil => exact absurd rfl some
  | cons s ss ih =>
    obtain ⟨first, clean⟩ := List.forall_mem_cons.1 clean
    cases ss with
    | nil =>
      have single : ofSegments [s] = s := by simp [ofSegments]
      rw [single, segments_of_not_mem first]
    | cons s' ss =>
      have joined : ofSegments (s :: s' :: ss) = s ++ '/' :: ofSegments (s' :: ss) := by
        rw [ofSegments, List.intercalate_cons_cons, List.append_assoc]
        rfl
      rw [joined, segments_append_slash, segments_of_not_mem first, ih (List.cons_ne_nil _ _) clean,
        List.singleton_append]

theorem segments_ne_nil (cs : List Char) : segments cs ≠ [] := by
  obtain ⟨s, rest, there⟩ := exists_segments_eq_cons cs
  rw [there]
  exact List.cons_ne_nil _ _

theorem segments_eq_singleton_nil_iff {path : String} :
    segments path.toList = [[]] ↔ path = "" := by
  rw [← String.toList_eq_nil_iff]
  refine ⟨fun alone => ?_, fun empty => by rw [empty, segments_nil]⟩
  cases chars : path.toList with
  | nil => rfl
  | cons c cs =>
    rw [chars] at alone
    by_cases slash : c = '/'
    · subst slash
      exact absurd (List.cons.inj alone).2 (segments_ne_nil cs)
    · obtain ⟨s, rest, there, here⟩ := segments_cons slash cs
      rw [here] at alone
      cases alone

/-! ## Components -/

/-- Where a path of some segments starts, if it does not start at the working directory in the plain
way. -/
def lead : List (List Char) → Option Component
  | [] :: _ :: _ => some .root
  | ['.'] :: _ => some .current
  | _ => none

/-- Where a path starts depends on its first segment and, if that is empty, on whether there are
others. -/
theorem lead_cons_congr {s : List Char} {ss ss' : List (List Char)}
    (alike : s = [] → (ss = [] ↔ ss' = [])) : lead (s :: ss) = lead (s :: ss') := by
  cases s with
  | nil => cases ss <;> cases ss' <;> simp_all [lead]
  | cons c s =>
    simp only [lead]
    split <;> split <;> simp_all

def taken (ss : List (List Char)) : List (List Char) :=
  ss.filter fun s => !isIdle s

def step (segment : List Char) : Component :=
  if segment = ['.', '.'] then .parent else .name (String.ofList segment)

theorem step_injective {s s' : List Char} (same : step s = step s') : s = s' := by
  simp only [step] at same
  split at same
  · next parent =>
    split at same
    · next parent' => rw [parent, parent']
    · cases same
  · split at same
    · cases same
    · exact String.ofList_injective (Component.name.inj same)

theorem componentOf?_eq (s : List Char) :
    componentOf? s = if isIdle s then none else some (step s) := by
  simp only [componentOf?, step, beq_iff_eq]
  split
  · rfl
  · split <;> rfl

theorem filterMap_componentOf? (ss : List (List Char)) :
    ss.filterMap componentOf? = (taken ss).map step := by
  induction ss with
  | nil => rfl
  | cons s ss ih =>
    rw [List.filterMap_cons, componentOf?_eq, taken, List.filter_cons]
    cases idle : isIdle s with
    | true => exact ih
    | false => exact congrArg (step s :: ·) ih

theorem isAbsolute_iff {path : String} :
    isAbsolute path = true ↔ lead (segments path.toList) = some .root := by
  rw [isAbsolute]
  cases chars : path.toList with
  | nil => exact ⟨nofun, nofun⟩
  | cons c cs =>
    obtain ⟨s, rest, there⟩ := exists_segments_eq_cons cs
    by_cases slash : c = '/'
    · subst slash
      rw [segments_slash, there]
      exact iff_of_true rfl rfl
    · obtain ⟨s, rest, there, here⟩ := segments_cons slash cs
      rw [here]
      refine iff_of_false (by simpa using slash) ?_
      simp only [lead]
      split <;> simp_all

theorem components_eq (path : String) :
    components path =
      (lead (segments path.toList)).toList ++ (taken (segments path.toList)).map step := by
  rw [components, filterMap_componentOf?]
  split
  · next absolute =>
    rw [isAbsolute_iff.1 absolute]
    rfl
  · next relative =>
    rw [isAbsolute_iff] at relative
    obtain ⟨s, rest, there⟩ := exists_segments_eq_cons path.toList
    rw [there] at relative ⊢
    split
    · next dot =>
      obtain rfl : s = ['.'] := by simpa using dot
      rfl
    · next other =>
      have none : lead (s :: rest) = none := by
        simp only [lead] at relative ⊢
        split at relative <;> simp_all
      rw [none]
      rfl

def Component.isLead : Component → Bool
  | root => true
  | current => true
  | _ => false

theorem filter_isLead_components (path : String) :
    (components path).filter Component.isLead = (lead (segments path.toList)).toList := by
  have steps (ss : List (List Char)) : (ss.map step).filter Component.isLead = [] := by
    refine List.filter_eq_nil_iff.2 fun c mem => ?_
    obtain ⟨s, -, rfl⟩ := List.mem_map.1 mem
    rw [step]
    split <;> exact Bool.false_ne_true
  have start (ss : List (List Char)) :
      (lead ss).toList.filter Component.isLead = (lead ss).toList := by
    simp only [lead]
    split <;> rfl
  rw [components_eq, List.filter_append, steps, start, List.append_nil]

/-- Paths have the same components if they start in the same place and take the same steps. -/
theorem components_eq_iff {path path' : String} :
    components path = components path' ↔
      lead (segments path.toList) = lead (segments path'.toList) ∧
        taken (segments path.toList) = taken (segments path'.toList) := by
  constructor
  · intro same
    have start : (lead (segments path.toList)).toList = (lead (segments path'.toList)).toList := by
      rw [← filter_isLead_components, ← filter_isLead_components, same]
    rw [components_eq, components_eq, start] at same
    exact ⟨by simpa using congrArg List.head? start,
      List.map_injective_iff.2 (fun _ _ => step_injective) (List.append_cancel_left same)⟩
  · rintro ⟨start, steps⟩
    rw [components_eq, components_eq, start, steps]

theorem isAbsolute_eq_of_components {path path' : String}
    (same : components path = components path') : isAbsolute path = isAbsolute path' := by
  rw [Bool.eq_iff_iff, isAbsolute_iff, isAbsolute_iff, (components_eq_iff.1 same).1]

theorem components_eq_nil_iff {path : String} : components path = [] ↔ path = "" := by
  constructor
  · intro none
    rw [components_eq, List.append_eq_nil_iff, List.map_eq_nil_iff, taken,
      List.filter_eq_nil_iff] at none
    obtain ⟨start, steps⟩ := none
    rw [← segments_eq_singleton_nil_iff]
    obtain ⟨s, rest, there⟩ := exists_segments_eq_cons path.toList
    rw [there] at start steps ⊢
    have idle : s = [] ∨ s = ['.'] := by
      have taken := steps s List.mem_cons_self
      rw [Bool.not_eq_true', Bool.not_eq_false, isIdle, Bool.or_eq_true] at taken
      exact taken.imp beq_iff_eq.1 beq_iff_eq.1
    rcases idle with rfl | rfl
    · cases rest with
      | nil => rfl
      | cons _ _ => cases start
    · cases start
  · rintro rfl
    rfl

/-- The characters of a path but its slashes and dots are those of the segments that take a step. -/
theorem mem_taken_iff {c : Char} (slash : c ≠ '/') (dot : c ≠ '.') {cs : List Char} :
    (∃ s ∈ taken (segments cs), c ∈ s) ↔ c ∈ cs := by
  rw [← mem_segments_iff slash]
  refine exists_congr fun s => and_congr_left fun inside => ?_
  have steps : isIdle s = false := by
    rw [isIdle, Bool.or_eq_false_iff]
    refine ⟨beq_eq_false_iff_ne.2 (List.ne_nil_of_mem inside), beq_eq_false_iff_ne.2 ?_⟩
    rintro rfl
    exact dot (List.mem_singleton.1 inside)
  rw [taken, List.mem_filter, steps]
  exact and_iff_left rfl

/-- Repeated slashes do not count. -/
theorem components_slashes (before after : List Char) (n : Nat) :
    components (String.ofList (before ++ '/' :: (List.replicate n '/' ++ after))) =
      components (String.ofList (before ++ '/' :: after)) := by
  have repeated : segments (List.replicate n '/' ++ after) =
      List.replicate n [] ++ segments after := by
    induction n with
    | zero => rfl
    | succ n ih =>
      rw [List.replicate_succ, List.cons_append, segments_slash, ih]
      rfl
  have idle : taken (List.replicate n []) = [] := by
    rw [taken, List.filter_replicate_of_neg (by simp [isIdle])]
  rw [components_eq_iff, String.toList_ofList, String.toList_ofList, segments_append_slash,
    segments_append_slash, repeated]
  constructor
  · obtain ⟨s, rest, there⟩ := exists_segments_eq_cons before
    rw [there]
    exact lead_cons_congr fun _ => by simp [segments_ne_nil after]
  · simp only [taken, List.filter_append] at idle ⊢
    rw [idle, List.nil_append]

/-- The path ends like that of a directory: with a slash, or with a dot that takes no step. -/
def endsIdle (path : String) : Bool :=
  (segments path.toList).getLast?.any isIdle

/-! ## Joined paths -/

/-- A name joined to a base stands behind the segments of the base, of which an empty one at the end
may be left out. -/
theorem exists_segments_join {base name : String} (some : base ≠ "")
    (relative : isAbsolute name = false) :
    ∃ front, segments (join base name).toList = front ++ segments name.toList ∧
      taken front = taken (segments base.toList) ∧
      lead (segments (join base name).toList) = lead (segments base.toList) := by
  have more := segments_ne_nil name.toList
  by_cases slash : base.toList.getLast? = Option.some '/'
  · obtain ⟨before, ends⟩ := List.getLast?_eq_some_iff.1 slash
    have joined : (join base name).toList = before ++ '/' :: name.toList := by
      rw [join, relative, slash]
      simp [ends]
    have split : segments base.toList = segments before ++ [[]] := by
      rw [ends, segments_append_slash, segments_nil]
    rw [joined, segments_append_slash, split]
    refine ⟨segments before, rfl, ?_, ?_⟩
    · simp [taken, isIdle]
    · obtain ⟨s, rest, there⟩ := exists_segments_eq_cons before
      rw [there]
      exact lead_cons_congr fun _ => by simp [more]
  · have joined : (join base name).toList = base.toList ++ '/' :: name.toList := by
      rw [join, relative]
      simp [slash, some]
    rw [joined, segments_append_slash]
    refine ⟨segments base.toList, rfl, rfl, ?_⟩
    obtain ⟨s, rest, there⟩ := exists_segments_eq_cons base.toList
    rw [there]
    refine lead_cons_congr fun none => ?_
    subst none
    refine iff_of_false (by simp [more]) fun alone => ?_
    rw [alone] at there
    exact some (segments_eq_singleton_nil_iff.1 there)

/-- What is joined to equal bases is equal, and ends alike. -/
theorem components_join {base base' : String} (same : components base = components base')
    (name : String) :
    components (join base name) = components (join base' name) ∧
      endsIdle (join base name) = endsIdle (join base' name) := by
  by_cases empty : base = ""
  · have empty' : base' = "" := by
      rw [← components_eq_nil_iff, ← same, components_eq_nil_iff, empty]
    rw [empty, empty']
    exact ⟨rfl, rfl⟩
  · have empty' : base' ≠ "" := by
      rw [Ne, ← components_eq_nil_iff, ← same, components_eq_nil_iff]
      exact empty
    cases relative : isAbsolute name with
    | true => simp [join, relative]
    | false =>
      obtain ⟨start, steps⟩ := components_eq_iff.1 same
      obtain ⟨front, split, walked, starts⟩ := exists_segments_join empty relative
      obtain ⟨front', split', walked', starts'⟩ := exists_segments_join empty' relative
      refine ⟨components_eq_iff.2 ⟨?_, ?_⟩, ?_⟩
      · rw [starts, starts', start]
      · rw [split, split', taken, taken, List.filter_append, List.filter_append]
        exact congrArg (· ++ _) ((walked.trans steps).trans walked'.symm)
      · have more := segments_ne_nil name.toList
        rw [endsIdle, endsIdle, split, split', List.getLast?_append_of_ne_nil _ more,
          List.getLast?_append_of_ne_nil _ more]

/-! ## The directory of a file -/

theorem taken_dropWhile (ss : List (List Char)) : taken (ss.dropWhile isIdle) = taken ss := by
  induction ss with
  | nil => rfl
  | cons s ss ih =>
    rw [List.dropWhile_cons]
    split
    · next idle =>
      rw [ih, taken, taken, List.filter_cons_of_neg (by simp [idle])]
    · rfl

theorem taken_reverse (ss : List (List Char)) : taken ss.reverse = (taken ss).reverse :=
  List.filter_reverse

/-- The segments before the last one that takes a step, without those at their end that take
none. -/
theorem taken_front {ss before : List (List Char)} {last : List Char}
    (ends : ss.reverse.dropWhile isIdle = last :: before) :
    (before.dropWhile isIdle).reverse <+: ss ∧
      taken ss = taken (before.dropWhile isIdle).reverse ++ [last] := by
  constructor
  · have whole : last :: before <:+ ss.reverse := ends ▸ List.dropWhile_suffix isIdle
    have inner : before.dropWhile isIdle <:+ ss.reverse :=
      (List.dropWhile_suffix isIdle).trans ((List.suffix_cons last before).trans whole)
    simpa using inner.reverse
  · have steps : isIdle last = false := by
      have first := List.head?_dropWhile_not isIdle ss.reverse
      rwa [ends] at first
    have backwards : (taken ss).reverse = last :: taken before := by
      rw [← taken_reverse, ← taken_dropWhile, ends, taken,
        List.filter_cons_of_pos (by simp [steps])]
      rfl
    rw [taken_reverse, taken_dropWhile, ← List.reverse_cons, ← backwards, List.reverse_reverse]

/-- Some of the segments of a path, from the first one on, are the segments of a path. -/
theorem segments_front {front : List (List Char)} {cs : List Char} (part : front <+: segments cs) :
    front = [] ∧ segments (ofSegments front) = [[]] ∨ segments (ofSegments front) = front := by
  by_cases none : front = []
  · subst none
    exact .inl ⟨rfl, rfl⟩
  · exact .inr (segments_ofSegments none fun s mem => slash_not_mem (part.subset mem))

theorem taken_segments_front {front : List (List Char)} {cs : List Char}
    (part : front <+: segments cs) : taken (segments (ofSegments front)) = taken front := by
  rcases segments_front part with ⟨rfl, none⟩ | same
  · rw [none]
    rfl
  · rw [same]

/-- A path that starts at the working directory in the plain way does so when it is shortened. -/
theorem lead_front {front : List (List Char)} {cs : List Char} (part : front <+: segments cs)
    (plain : lead (segments cs) = none) : lead (segments (ofSegments front)) = none := by
  rcases segments_front part with ⟨-, empty⟩ | same
  · rw [empty]
    rfl
  · rw [same]
    cases front with
    | nil => rfl
    | cons s front =>
      obtain ⟨rest, split, part⟩ : ∃ rest, segments cs = s :: rest ∧ front <+: rest := by
        obtain ⟨after, split⟩ := part
        exact ⟨front ++ after, split.symm, List.prefix_append front after⟩
      rw [split] at plain
      rw [← plain]
      refine lead_cons_congr fun empty => ?_
      subst empty
      cases rest with
      | nil => rw [List.prefix_nil.1 part]
      | cons _ _ => cases plain

/-- A dot in front of a path whose first segment is empty is a segment of its own. -/
theorem segments_dot {front : List (List Char)} {cs : List Char} (part : front <+: segments cs)
    (first : (segments cs).head? = some []) :
    lead (segments ('.' :: ofSegments front)) = some .current ∧
      taken (segments ('.' :: ofSegments front)) = taken front := by
  obtain ⟨s, rest, there, here⟩ := segments_cons (c := '.') (by decide) (ofSegments front)
  have empty : s = [] := by
    rcases segments_front part with ⟨-, empty⟩ | same
    · rw [empty] at there
      exact (List.cons.inj there).1.symm
    · obtain ⟨after, split⟩ := part
      rw [← same, there] at split
      rw [← split] at first
      exact Option.some.inj first
  rw [here, ← taken_segments_front part, there, empty]
  exact ⟨rfl, rfl⟩

theorem lead_eq_none {cs : List Char} (relative : ∀ rest, cs ≠ '/' :: rest) (dot : cs ≠ ['.'])
    (dotted : ∀ rest, cs ≠ '.' :: '/' :: rest) : lead (segments cs) = none := by
  cases cs with
  | nil => rfl
  | cons c cs =>
    have slash : c ≠ '/' := fun slash => relative cs (slash ▸ rfl)
    obtain ⟨s, rest, there, here⟩ := segments_cons slash cs
    rw [here]
    simp only [lead]
    split
    · next absolute => cases absolute
    · next dots =>
      obtain ⟨⟨rfl, rfl⟩, rfl⟩ := by simpa using dots
      cases cs with
      | nil => exact absurd rfl dot
      | cons d cs =>
        by_cases slash : d = '/'
        · subst slash
          exact absurd rfl (dotted cs)
        · obtain ⟨_, _, -, more⟩ := segments_cons slash cs
          rw [more] at there
          cases there
    · rfl

/-- The path splits into its start and the segments behind it; shortening these leaves the start. -/
theorem components_splitHead (path : String) :
    ∃ start : Option Component,
      components path =
          start.toList ++ (taken (segments (splitHead path.toList).2)).map step ∧
        ∀ front, front <+: segments (splitHead path.toList).2 →
          components (String.ofList ((splitHead path.toList).1 ++ ofSegments front)) =
            start.toList ++ (taken front).map step := by
  have parts (cs : List Char) : components (String.ofList cs) =
      (lead (segments cs)).toList ++ (taken (segments cs)).map step := by
    rw [components_eq, String.toList_ofList]
  rw [components_eq]
  generalize path.toList = cs
  unfold splitHead
  split
  · next rest =>
    have absolute (cs : List Char) : lead (segments ('/' :: cs)) = some .root := by
      obtain ⟨s, more, there⟩ := exists_segments_eq_cons cs
      rw [segments_slash, there]
      rfl
    refine ⟨some .root, ?_, fun front part => ?_⟩
    · rw [absolute, segments_slash]
      rfl
    · rw [parts, List.singleton_append, absolute, ← taken_segments_front part, segments_slash]
      rfl
  · refine ⟨some .current, rfl, fun front part => ?_⟩
    obtain ⟨start, steps⟩ := segments_dot part rfl
    rw [parts, List.singleton_append, start, steps]
  · next rest =>
    refine ⟨some .current, ?_, fun front part => ?_⟩
    · have split : segments ('.' :: '/' :: rest) = ['.'] :: segments rest :=
        segments_append_slash ['.'] rest
      rw [split]
      rfl
    · obtain ⟨start, steps⟩ := segments_dot part rfl
      rw [parts, List.singleton_append, start, steps]
  · next relative dot dotted =>
    have plain : lead (segments cs) = none := lead_eq_none relative dot dotted
    refine ⟨none, by rw [plain], fun front part => ?_⟩
    rw [parts, List.nil_append, lead_front part plain, taken_segments_front part]

/-- The text of a path without its last component has the components before that one. -/
theorem components_parent (path : String) :
    components ((parent? path).getD "") = (components path).dropLast := by
  obtain ⟨start, whole, shortened⟩ := components_splitHead path
  rw [parent?]
  simp only
  split
  · next all =>
    have idle : taken (segments (splitHead path.toList).2) = [] := by
      rw [← List.reverse_eq_nil_iff, ← taken_reverse, ← taken_dropWhile, all]
      rfl
    have empty : (if (splitHead path.toList).1 == ['.'] then some "" else none).getD "" = "" := by
      split <;> rfl
    rw [empty, whole, idle]
    cases start <;> rfl
  · next last before ends =>
    obtain ⟨part, steps⟩ := taken_front ends
    rw [Option.getD_some, shortened _ part, whole, steps, List.map_append, ← List.append_assoc]
    exact List.dropLast_concat.symm

end Stencil.Path
