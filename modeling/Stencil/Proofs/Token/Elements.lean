import Mathlib.Data.List.DropRight
import Mathlib.Data.List.TakeWhile
import Stencil.Proofs.Token.Delivery

/-! # Elements and how they are written

Tokens come down to elements, and those that are delivered can be written.
-/

/-! ## The elements of tokens

Tokens come down to elements: a text to its characters, and every other token to itself. A marker is
read by its keyword, in whichever case that is spelled, and by its argument.
-/

namespace Stencil

namespace Name

/-- Name characters are visible. -/
theorem bounds_of_isChar {c : Char} (h : isChar c = true) : 0x21 ≤ c.toNat ∧ c.toNat < 0x7F := by
  simp only [isChar, Bool.or_eq_true, beq_iff_eq] at h
  rcases h with ((h | rfl) | rfl) | rfl
  · have ranges : c.isAlphanum = ((decide ('A' ≤ c ∧ c ≤ 'Z') ||
        decide ('a' ≤ c) && decide (c ≤ 'z')) || decide ('0' ≤ c) && decide (c ≤ '9')) := rfl
    have value : c.val.toNat = c.toNat := rfl
    simp only [ranges, Bool.or_eq_true, Bool.and_eq_true, decide_eq_true_eq, Char.le_def,
      UInt32.le_iff_toNat_le, value, Char.reduceVal, UInt32.reduceToNat] at h
    omega
  all_goals decide

theorem isBlank_of_isChar {c : Char} (h : isChar c = true) : Text.isBlank c = false := by
  have := bounds_of_isChar h
  simp only [Text.isBlank, Bool.or_eq_false_iff, Bool.and_eq_false_iff, decide_eq_false_iff_not,
    beq_eq_false_iff_ne]
  omega

theorem forall_isChar_of_isValid {cs : List Char} (h : isValid cs = true) :
    ∀ c ∈ cs, isChar c = true := by
  cases cs with
  | nil => cases h
  | cons first rest =>
    rw [isValid, Bool.and_eq_true, List.all_eq_true] at h
    exact h.2

end Name

namespace Text

theorem dropWhile_isBlank {cs : List Char} (h : ∀ c ∈ cs, isBlank c = false) :
    cs.dropWhile isBlank = cs := by
  cases cs with
  | nil => rfl
  | cons first rest => exact List.dropWhile_cons_of_neg (by simp [h first List.mem_cons_self])

theorem trim_eq_self {cs : List Char} (h : ∀ c ∈ cs, isBlank c = false) : trim cs = cs := by
  have backwards : cs.reverse.dropWhile isBlank = cs.reverse :=
    dropWhile_isBlank fun c mem => h c (List.mem_reverse.1 mem)
  rw [trim, trimStart, dropWhile_isBlank h, backwards, List.reverse_reverse]

theorem toLower_eq_self {c : Char} (h : ¬('A' ≤ c ∧ c ≤ 'Z')) : c.toLower = c :=
  dif_neg h

/-- Only letters have letters for their lower case. -/
theorem isAlpha_of_toLower {c : Char} (h : c.toLower.isAlpha = true) : c.isAlpha = true := by
  by_cases upper : 'A' ≤ c ∧ c ≤ 'Z'
  · have range : c.isAlpha = (decide ('A' ≤ c ∧ c ≤ 'Z') || c.isLower) := rfl
    rw [range, decide_eq_true upper, Bool.true_or]
  · rwa [toLower_eq_self upper] at h

end Text

namespace Token

/-- A text that a marker gives back as its argument. -/
structure IsArgument (cs : List Char) : Prop where
  nonempty : cs ≠ []
  unclosed : ']' ∉ cs
  one_line : '\n' ∉ cs
  trimmed : Text.trim cs = cs

theorem isArgument_of_isValid {cs : List Char} (h : Name.isValid cs = true) : IsArgument cs := by
  have chars := Name.forall_isChar_of_isValid h
  refine ⟨?_, fun mem => ?_, fun mem => ?_, ?_⟩
  · rintro rfl
    cases h
  · cases chars _ mem
  · cases chars _ mem
  · exact Text.trim_eq_self fun c mem => Name.isBlank_of_isChar (chars c mem)

def Legible : Token → Prop
  | .ifCond condition => IsArgument condition.toList
  | .elseIf condition => IsArgument condition.toList
  | .inclusion name => IsArgument name.toList
  | token => token.Named

/-! ### Variables and markers -/

theorem readVariable?_append {name : String} (h : Name.isValid name.toList = true)
    (rest : List Char) :
    readVariable? (name.toList ++ '}' :: rest) = some (.var name, name.toList.length + 1) := by
  have taken : (name.toList ++ '}' :: rest).takeWhile Name.isChar = name.toList := by
    rw [List.takeWhile_append_of_pos (Name.forall_isChar_of_isValid h),
      List.takeWhile_cons_of_neg (by decide), List.append_nil]
  simp only [readVariable?, taken, List.drop_left, h, List.head?_cons, beq_self_eq_true,
    Bool.and_self, if_true, String.ofList_toList]

namespace Keyword

def Spells (keyword : Keyword) (word : List Char) : Prop :=
  word.map Char.toLower = keyword.spelling.toList

theorem spells_spelling (keyword : Keyword) : keyword.Spells keyword.spelling.toList := by
  cases keyword <;> rfl

namespace Spells

variable {keyword : Keyword} {word : List Char}

theorem isAlpha (h : keyword.Spells word) : ∀ c ∈ word, c.isAlpha = true := by
  have letters : keyword.spelling.toList.all Char.isAlpha = true := by cases keyword <;> rfl
  intro c mem
  refine Text.isAlpha_of_toLower (List.all_eq_true.1 letters _ ?_)
  rw [← h]
  exact List.mem_map_of_mem mem

theorem ofWord? (h : keyword.Spells word) : Keyword.ofWord? word = some keyword := by
  rw [Keyword.ofWord?, h]
  cases keyword <;> rfl

theorem takeWhile (h : keyword.Spells word) {c : Char} (ends : c.isAlpha = false)
    (rest : List Char) : (word ++ c :: rest).takeWhile Char.isAlpha = word := by
  rw [List.takeWhile_append_of_pos h.isAlpha, List.takeWhile_cons_of_neg (by simp [ends]),
    List.append_nil]

/-- A marker without an argument is read up to its closing bracket. -/
theorem readMarker?_bare (h : keyword.Spells word) {token : Token}
    (read : keyword.token [] = .ok token) (rest : List Char) :
    readMarker? (word ++ ']' :: rest) = .ok (some (token, word.length + 1)) := by
  simp only [readMarker?, h.takeWhile (show (']').isAlpha = false from rfl), h.ofWord?,
    List.drop_left, read]

/-- A marker with an argument is read up to its closing bracket, and the argument is trimmed. -/
theorem readMarker?_trim (h : keyword.Spells word) {argument : List Char}
    (unclosed : ']' ∉ argument) (rest : List Char) :
    readMarker? (word ++ ':' :: (argument ++ ']' :: rest)) =
      let length := word.length + argument.length + 2
      match keyword.token (Text.trim argument) with
      | .ok token => .ok (some (token, length))
      | .error kind => .error ⟨kind,
          '[' :: (word ++ ':' :: (argument ++ ']' :: rest)).take length⟩ := by
  have taken : (argument ++ ']' :: rest).takeWhile (· != ']') = argument := by
    rw [List.takeWhile_append_of_pos, List.takeWhile_cons_of_neg (by simp), List.append_nil]
    intro c mem
    simpa using fun same : c = ']' => unclosed (same ▸ mem)
  cases token : keyword.token (Text.trim argument) <;>
    simp only [readMarker?, h.takeWhile (show (':').isAlpha = false from rfl), h.ofWord?,
      List.drop_left, taken, token]

end Spells

theorem blockName_of_isValid {name : String} (h : Name.isValid name.toList = true) :
    blockName name.toList = .ok name := by
  rw [blockName, if_pos h, String.ofList_toList]

/-- The token of a keyword with an argument. -/
theorem token_of_ne_nil (keyword : Keyword) {argument : List Char} (h : argument ≠ []) :
    keyword.token argument =
      match keyword with
      | .beginBlock => (blockName argument).map .beginBlock
      | .endBlock => (blockName argument).map fun name => .endBlock (some name)
      | .ifCond => .ok (.ifCond (String.ofList argument))
      | .elseIf => .ok (.elseIf (String.ofList argument))
      | .inclusion => .ok (.inclusion (String.ofList argument))
      | .otherwise | .endIf => .error .malformedMarker := by
  cases argument with
  | nil => exact absurd rfl h
  | cons first rest => cases keyword <;> rfl

/-- A marker is written with a keyword and an argument that stand for it. -/
theorem exists_marker {token : Token} (legible : token.Legible) (h : token.isMarker = true) :
    ∃ keyword argument, token.print = marker keyword argument ∧
      (∀ text ∈ argument, IsArgument text.toList) ∧
      keyword.token ((argument.map String.toList).getD []) = .ok token := by
  cases token with
  | text content => cases h
  | var name => cases h
  | beginBlock name =>
    have argument := isArgument_of_isValid legible
    refine ⟨.beginBlock, some name, rfl, by simpa using argument, ?_⟩
    simp [token_of_ne_nil _ argument.nonempty, blockName_of_isValid legible, Except.map]
  | endBlock found =>
    cases found with
    | none => exact ⟨.endBlock, none, rfl, by simp, rfl⟩
    | some name =>
      have argument := isArgument_of_isValid legible
      refine ⟨.endBlock, some name, rfl, by simpa using argument, ?_⟩
      simp [token_of_ne_nil _ argument.nonempty, blockName_of_isValid legible, Except.map]
  | ifCond condition =>
    have argument : IsArgument condition.toList := legible
    refine ⟨.ifCond, some condition, rfl, by simpa using argument, ?_⟩
    simp [token_of_ne_nil _ argument.nonempty]
  | elseIf condition =>
    have argument : IsArgument condition.toList := legible
    refine ⟨.elseIf, some condition, rfl, by simpa using argument, ?_⟩
    simp [token_of_ne_nil _ argument.nonempty]
  | otherwise => exact ⟨.otherwise, none, rfl, by simp, rfl⟩
  | endIf => exact ⟨.endIf, none, rfl, by simp, rfl⟩
  | inclusion name =>
    have argument : IsArgument name.toList := legible
    refine ⟨.inclusion, some name, rfl, by simpa using argument, ?_⟩
    simp [token_of_ne_nil _ argument.nonempty]

end Keyword

/-! ### Elements -/

def elements : Token → List Element
  | .text content => content.toList.map .literal
  | token => [.marked token]

theorem elements_of_ne_text {token : Token} (h : ∀ content, token ≠ .text content) :
    token.elements = [.marked token] := by
  cases token with
  | text content => exact absurd rfl (h content)
  | _ => rfl

theorem eq_of_marked_mem {token other : Token} (mem : .marked token ∈ other.elements) :
    other = token := by
  cases other with
  | text content => simp [elements] at mem
  | _ =>
    cases List.mem_singleton.1 mem
    rfl

namespace Element

def print : Element → List Char
  | literal c => escapeChar c
  | marked token => token.print

def Legible : Element → Prop
  | literal _ => True
  | marked token => (∀ content, token ≠ .text content) ∧ token.Legible

end Element

theorem print_eq (token : Token) : token.print = token.elements.flatMap Element.print := by
  cases token with
  | text content => simp [Token.print, elements, escape, List.flatMap_map, Element.print]
  | _ => simp [elements, Element.print]

theorem legible_elements {token : Token} (h : token.Legible) :
    ∀ element ∈ token.elements, element.Legible := by
  intro element mem
  cases token with
  | text content =>
    obtain ⟨c, -, rfl⟩ := List.mem_map.1 mem
    trivial
  | _ =>
    cases List.mem_singleton.1 mem
    exact ⟨by simp, h⟩

theorem Element.read_bracket {cs : List Char} {token : Token} {length : Nat}
    (h : readMarker? cs = .ok (some (token, length))) :
    Element.read '[' cs = .ok (.marked token, length) := by
  simp [Element.read, h]

end Token

/-! ## What is read can be written

The tokens that a tokenizer delivers are legible: the argument of a marker has no closing bracket,
stays on its line and has been trimmed. Main statement: `legible_drain`.
-/

namespace Text

theorem trim_eq_rdropWhile (cs : List Char) :
    trim cs = (cs.dropWhile isBlank).rdropWhile isBlank := rfl

theorem mem_of_mem_trim {c : Char} {cs : List Char} (h : c ∈ trim cs) : c ∈ cs := by
  rw [trim_eq_rdropWhile] at h
  exact (List.dropWhile_suffix _).subset ((List.rdropWhile_prefix _ _).subset h)

/-- Cutting off the blanks at the end uncovers none at the beginning. -/
theorem trim_trim (cs : List Char) : trim (trim cs) = trim cs := by
  have start : (trim cs).dropWhile isBlank = trim cs := by
    rw [List.dropWhile_eq_self_iff]
    intro nonempty
    have kept : trim cs <+: cs.dropWhile isBlank := List.rdropWhile_prefix isBlank _
    have within : 0 < (cs.dropWhile isBlank).length := nonempty.trans_le kept.length_le
    rw [kept.getElem nonempty]
    exact List.dropWhile_get_zero_not _ _ within
  rw [trim_eq_rdropWhile (trim cs), start, trim_eq_rdropWhile, List.rdropWhile_idempotent]

end Text

namespace Token

theorem Keyword.legible_token {keyword : Keyword} {argument : List Char} {token : Token}
    (h : keyword.token argument = .ok token) (given : argument ≠ [] → IsArgument argument) :
    (Element.marked token).Legible := by
  have named := named_token h
  by_cases bare : argument = []
  · subst bare
    cases keyword <;> cases h
    all_goals exact ⟨by simp, trivial⟩
  · have text : (String.ofList argument).toList = argument := String.toList_ofList
    rw [token_of_ne_nil keyword bare] at h
    cases keyword with
    | beginBlock | endBlock =>
      cases name : blockName argument with
      | error e =>
        rw [name] at h
        cases h
      | ok name' =>
        rw [name] at h
        cases h
        exact ⟨by simp, named⟩
    | ifCond | elseIf | inclusion =>
      cases h
      exact ⟨by simp, by simpa [Legible, text] using given bare⟩
    | otherwise | endIf => cases h

/-- What is read on a line can be written. -/
theorem Element.legible_of_read {c : Char} {cs : List Char} {element : Element} {more : Nat}
    (h : Element.read c cs = .ok (element, more)) (one_line : '\n' ∉ cs) : element.Legible := by
  cases reading_of_read h with
  | escaped | single => trivial
  | var _ read =>
    obtain ⟨name, rfl, valid, -⟩ := exists_name_of_readVariable? read
    exact ⟨by simp, valid⟩
  | marker _ read =>
    obtain ⟨keyword, argument, read, within, unclosed, -⟩ := exists_keyword_of_readMarker? read
    refine Keyword.legible_token read fun given => ⟨given, fun mem => ?_, fun mem => ?_, ?_⟩
    · exact unclosed (Text.mem_of_mem_trim mem)
    · exact one_line (within (Text.mem_of_mem_trim mem))
    · exact Text.trim_trim argument

end Token

namespace Line

theorem legible_lexemes {trim : Bool} {number : Nat} {line : Line} {found : List Lexeme}
    (h : line.lexemes trim number = .ok found) (one_line : '\n' ∉ line.content) :
    ∀ l ∈ found, l.token.Legible := by
  have invariant : Invariant number line.content fun l => l.token.Legible :=
    ⟨fun _ _ => trivial, fun _ _ => trivial, fun _ within read =>
      (Token.Element.legible_of_read read fun mem =>
        one_line (within.subset (List.mem_cons_of_mem _ mem))).2⟩
  exact invariant.lexemes h

end Line

namespace Tokenizer

/-- Whatever is delivered can be written, and is read again then. -/
theorem legible_drain (trim : Bool) (text : String) :
    ∀ l ∈ (ofText trim text).drain.1, l.token.Legible :=
  (forall_drain (Q := fun _ => True) (fun _ _ _ one_line _ read =>
    Line.legible_lexemes read one_line) (fun _ _ _ _ => trivial) text.toList (Nat.le_refl 1)).1

end Tokenizer

end Stencil
