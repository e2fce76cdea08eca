import Stencil.Proofs.Item.Acceptance
import Stencil.Proofs.Token.Elements
import Stencil.Proofs.Token.Trimming

/-! # Lines with an include marker

With trimming, a line that holds an include marker and otherwise blanks comes down to the marker
alone. So the tokens of a template with such a line are those before it, the marker, and those after
it. Main statement: `lexes_include`.
-/

namespace Stencil

/-! ### Tokens of texts -/

namespace Tokenizer

def Lexes (trim : Bool) (cs : List Char) (tokens : List Token) : Prop :=
  ∃ ls, drain ⟨trim, cs, 1, []⟩ = (ls, none) ∧ ls.map Lexeme.token = tokens

variable {trim : Bool} {cs more : List Char} {tokens : List Token}

/-- The tokens of a text are the same further down. -/
theorem lexes_iff_down (lines : Nat) :
    Lexes trim cs tokens ↔
      ∃ ls, drain ⟨trim, cs, 1 + lines, []⟩ = (ls, none) ∧ ls.map Lexeme.token = tokens := by
  rw [drain_down]
  constructor
  · rintro ⟨ls, drained, rfl⟩
    exact ⟨_, by rw [drained]; rfl, Lexeme.token_down lines ls⟩
  · rintro ⟨ls, drained, rfl⟩
    rcases here : drain ⟨trim, cs, 1, []⟩ with ⟨found, stopped | e⟩
    · rw [here] at drained
      cases drained
      exact ⟨found, here, (Lexeme.token_down lines found).symm⟩
    · rw [here] at drained
      cases drained

/-- The tokens of whole lines and a text after them. -/
theorem lexes_append_iff (complete : Line.Complete cs) :
    Lexes trim (cs ++ more) tokens ↔
      ∃ first second, tokens = first ++ second ∧ Lexes trim cs first ∧ Lexes trim more second := by
  rw [Lexes, drain_append trim complete]
  constructor
  · rintro ⟨ls, drained, rfl⟩
    rcases here : drain ⟨trim, cs, 1, []⟩ with ⟨found, stopped | e⟩
    · rw [here] at drained
      rcases later : drain ⟨trim, more, 1 + cs.count '\n', []⟩ with ⟨others, stopped | e⟩
      · simp only [later] at drained
        cases drained
        exact ⟨_, _, List.map_append, ⟨found, here, rfl⟩,
          (lexes_iff_down (cs.count '\n')).2 ⟨others, later, rfl⟩⟩
      · simp only [later] at drained
        cases drained
    · rw [here] at drained
      cases drained
  · rintro ⟨first, second, rfl, ⟨found, here, rfl⟩, after⟩
    obtain ⟨others, later, rfl⟩ := (lexes_iff_down (cs.count '\n')).1 after
    refine ⟨found ++ others, ?_, List.map_append⟩
    rw [here]
    simp only [later]

end Tokenizer

/-! ### Reading a line of blanks and a marker -/

namespace Lexeme

/-- Every lexeme may stand on a line of markers. -/
def Standing (ls : List Lexeme) : Prop :=
  ∀ l ∈ ls, l.isMarkerOrBlank Text.isBlank = true

theorem Standing.addText {done : List Lexeme} (h : Standing done) {content : String}
    (blank : ∀ c ∈ content.toList, Text.isBlank c = true) (position : Position) :
    Standing (Lexeme.addText position content done) := by
  have all : content.toList.all Text.isBlank = true := List.all_eq_true.2 blank
  rcases done with _ | ⟨⟨token, start, raw⟩, done⟩
  · exact List.forall_mem_cons.2 ⟨all, nofun⟩
  · obtain ⟨first, others⟩ := List.forall_mem_cons.1 h
    cases token with
    | text before =>
      have joined : (before ++ content).toList.all Text.isBlank = true := by
        rw [String.toList_append, List.all_append, all, Bool.and_true]
        exact first
      exact List.forall_mem_cons.2 ⟨joined, others⟩
    | _ => exact List.forall_mem_cons.2 ⟨all, h⟩

end Lexeme

namespace Token

open Lexeme (Standing)

theorem Element.read_blank {c : Char} (blank : Text.isBlank c = true) (cs : List Char) :
    Element.read c cs = .ok (.literal c, 0) := by
  have other (d : Char) (visible : Text.isBlank d = false) : (c == d) = false := by
    rw [beq_eq_false_iff_ne]
    rintro rfl
    rw [blank] at visible
    cases visible
  simp [Element.read, other '\\' rfl, other '{' rfl, other '[' rfl]

/-- Reading blanks finds no marker, and nothing that a line of markers must not hold. -/
theorem exists_readContent_blanks {cs : List Char} (blank : ∀ c ∈ cs, Text.isBlank c = true)
    (line column : Nat) {done : List Lexeme} (standing : Standing done) (rest : List Char) :
    ∃ column' done', readContent line column done (cs ++ rest) =
        readContent line column' done' rest ∧ Standing done' ∧
      done'.filter (·.token.isMarker) = done.filter (·.token.isMarker) := by
  induction cs generalizing column done with
  | nil => exact ⟨column, done, rfl, standing, rfl⟩
  | cons c cs ih =>
    have here := blank c List.mem_cons_self
    have single : ∀ d ∈ (String.singleton c).toList, Text.isBlank d = true := by simpa using here
    obtain ⟨column', done', read, standing', markers⟩ :=
      ih (fun d mem => blank d (List.mem_cons_of_mem c mem)) (column + 1 + 0)
        (standing.addText single ⟨line, column⟩)
    refine ⟨column', done', ?_, standing', markers.trans (Line.filter_isMarker_addText _ _ _)⟩
    rw [List.cons_append, readContent, Element.read_blank here]
    exact read

theorem readContent_blanks {cs : List Char} (blank : ∀ c ∈ cs, Text.isBlank c = true)
    {line column : Nat} {done found : List Lexeme} (standing : Standing done)
    (read : readContent line column done cs = .ok found) :
    Standing found ∧ found.filter (·.token.isMarker) = done.filter (·.token.isMarker) := by
  obtain ⟨column', done', onward, standing', markers⟩ :=
    exists_readContent_blanks blank line column standing []
  rw [List.append_nil, read, readContent, Except.ok.injEq] at onward
  rw [onward]
  exact ⟨standing', markers⟩

end Token

/-- The text is an include marker for the name, with blanks around it. -/
def Line.Includes (name : String) (cs : List Char) : Prop :=
  ∃ before argument after, cs = before ++ "[include:".toList ++ argument ++ ']' :: after ∧
    (∀ c ∈ before, Text.isBlank c = true) ∧ (∀ c ∈ after, Text.isBlank c = true) ∧
    ']' ∉ argument ∧ name = String.ofList (Text.trim argument)

namespace Line

open Lexeme (Standing)
open Token (Keyword)

variable {name : String} {cs : List Char}

/-- More blanks make no difference. -/
theorem Includes.append (h : Includes name cs) {more : List Char}
    (blank : ∀ c ∈ more, Text.isBlank c = true) : Includes name (cs ++ more) := by
  obtain ⟨before, argument, after, rfl, leading, trailing, unclosed, named⟩ := h
  refine ⟨before, argument, after ++ more, by simp, leading, fun c mem => ?_, unclosed, named⟩
  exact (List.mem_append.1 mem).elim (trailing c) (blank c)

/-- A carriage return at the end belongs to the end of the line. -/
theorem Includes.ended (h : Includes name cs) : Includes name (ended cs).content := by
  rw [Line.ended]
  split
  · next last =>
    obtain ⟨before, argument, after, rfl, leading, trailing, unclosed, named⟩ := h
    rcases List.eq_nil_or_concat after with rfl | ⟨init, c, rfl⟩
    · rw [List.getLast?_concat] at last
      cases last
    · refine ⟨before, argument, init, ?_, leading, fun d mem => trailing d ?_, unclosed, named⟩
      · rw [List.concat_eq_append, ← List.cons_append, ← List.append_assoc, List.dropLast_concat]
      · rw [List.concat_eq_append]
        exact List.mem_append_left _ mem
  · exact h

/-- Reading an include marker and blanks around it finds the marker and blank texts. -/
theorem Includes.readContent (h : Includes name cs) (number : Nat) {found : List Lexeme}
    (read : Token.readContent number 1 [] cs = .ok found) :
    Standing found ∧ (found.filter (·.token.isMarker)).map Lexeme.token = [.inclusion name] := by
  obtain ⟨before, argument, after, rfl, leading, trailing, unclosed, rfl⟩ := h
  have cut : before ++ "[include:".toList ++ argument ++ ']' :: after = before ++
      '[' :: (Keyword.inclusion.spelling.toList ++ ':' :: (argument ++ ']' :: after)) := by
    simp [Keyword.spelling]
  have marker := Keyword.inclusion.spells_spelling.readMarker?_trim unclosed after
  have nothing : Standing [] := nofun
  obtain ⟨column, done, start, standing, bare⟩ :=
    Token.exists_readContent_blanks leading number 1 nothing
      ('[' :: (Keyword.inclusion.spelling.toList ++ ':' :: (argument ++ ']' :: after)))
  rw [cut, start, Token.readContent] at read
  by_cases named : Text.trim argument = []
  · rw [named] at marker
    simp [Token.Element.read, marker, Keyword.token] at read
  · rw [Keyword.token_of_ne_nil .inclusion named] at marker
    have rest : (Keyword.inclusion.spelling.toList ++ ':' :: (argument ++ ']' :: after)).drop
        (Keyword.inclusion.spelling.toList.length + argument.length + 2) = after := by
      have whole : Keyword.inclusion.spelling.toList ++ ':' :: (argument ++ ']' :: after) =
          (Keyword.inclusion.spelling.toList ++ ':' :: (argument ++ [']'])) ++ after := by simp
      rw [whole]
      exact List.drop_left' (by simp [Nat.add_assoc])
    simp only [Token.Element.read_bracket marker, rest, Token.Element.add] at read
    obtain ⟨standing, markers⟩ := Token.readContent_blanks trailing
      (List.forall_mem_cons.2 ⟨rfl, standing⟩) read
    refine ⟨standing, ?_⟩
    rw [markers, List.filter_cons_of_pos rfl, bare]
    rfl

/-- With trimming, a line with an include marker comes down to the marker. -/
theorem Includes.lexemes {line : Line} (h : Includes name line.content) (number : Nat)
    {found : List Lexeme} (read : line.lexemes true number = .ok found) :
    found.map Lexeme.token = [.inclusion name] := by
  rw [Line.lexemes] at read
  cases here : Token.readContent number 1 [] line.content with
  | error e =>
    rw [here] at read
    cases read
  | ok all =>
    obtain ⟨standing, markers⟩ := h.readContent number here
    have holds : isMarkerLine all = true := by
      obtain ⟨l, others, same, -⟩ := List.map_eq_cons_iff.1 markers
      have there : l ∈ all.filter (·.token.isMarker) := same ▸ List.mem_cons_self
      rw [isMarkerLine, Bool.and_eq_true, List.any_eq_true, List.all_eq_true]
      exact ⟨⟨l, List.mem_filter.1 there⟩, standing⟩
    rw [here] at read
    simp only [holds, Bool.and_self, if_true, Except.ok.injEq] at read
    rw [← read, List.map_reverse, markers]
    rfl

end Line

namespace Tokenizer

variable {name : String} {line ending after : List Char} {tokens : List Token}

/-- With trimming, a template that starts with a line that holds an include marker comes down to the
marker and what follows the line. -/
theorem lexes_include (holds : Line.Includes name line) (one_line : '\n' ∉ line)
    (ends : ending = ['\n'] ∨ ending = ['\r', '\n'] ∨ ending = [] ∧ after = [])
    (h : Lexes true (line ++ ending ++ after) tokens) :
    ∃ others, tokens = .inclusion name :: others ∧ Lexes true after others := by
  -- A line that a line feed ends; the carriage return may belong to the blanks.
  have ended {cs : List Char} (holds : Line.Includes name cs) (one_line : '\n' ∉ cs)
      (h : Lexes true (cs ++ '\n' :: after) tokens) :
      ∃ others, tokens = .inclusion name :: others ∧ Lexes true after others := by
    obtain ⟨ls, drained, rfl⟩ := h
    rw [drain_line one_line] at drained
    cases read : (Line.ended cs).lexemes true 1 with
    | error e =>
      rw [read] at drained
      cases drained
    | ok found =>
      simp only [read, Prod.mk.injEq] at drained
      obtain ⟨rfl, finished⟩ := drained
      refine ⟨_, ?_, (lexes_iff_down 1).2 ⟨_, Prod.ext rfl finished, rfl⟩⟩
      rw [List.map_append, holds.ended.lexemes 1 read]
      rfl
  rcases ends with rfl | rfl | ⟨rfl, rfl⟩
  · rw [List.append_assoc] at h
    exact ended holds one_line h
  · have blank : ∀ c ∈ ['\r'], Text.isBlank c = true := List.forall_mem_singleton.2 rfl
    refine ended (holds.append blank) (by simp [one_line]) ?_
    simpa using h
  · obtain ⟨ls, drained, rfl⟩ := h
    rw [List.append_nil, List.append_nil, drain_last one_line] at drained
    cases read : Line.lexemes true 1 ⟨line, []⟩ with
    | error e =>
      rw [read] at drained
      cases drained
    | ok found =>
      rw [read] at drained
      cases drained
      have content : Line.Includes name (Line.mk line []).content := holds
      exact ⟨[], content.lexemes 1 read, [], drain_nil true 1, rfl⟩

end Tokenizer

/-! ## Items of an included text

A token that stands by itself can be replaced by tokens that nest. So the items of a template in
which a line with an include marker is replaced by the included text are its items with those of the
included text for the marker. Main statement: `exists_ofText_include`.
-/

def Token.bareItem? (token : Token) : Option Item :=
  (Lexeme.mk token ⟨0, 0⟩ "").item?.map Item.bare

namespace Item

open Tokenizer (Lexes)

/-! ### Replacing a token -/

theorem Leads.of_append {scopes after : List Scope} {ls more : List Lexeme}
    (h : Leads scopes (ls ++ more) after) :
    ∃ between, Leads scopes ls between ∧ Leads between more after := by
  induction ls generalizing scopes with
  | nil => exact ⟨scopes, .nil, h⟩
  | cons l ls ih =>
    cases h with
    | cons fits h =>
      obtain ⟨between, leads, onward⟩ := ih h
      exact ⟨between, .cons fits leads, onward⟩

theorem Fits.eq_of_isPlain {scopes after : List Scope} {l : Lexeme} (h : Fits scopes l after)
    (plain : isPlain l.token = true) : after = scopes := by
  cases h <;> simp_all [isPlain]

/-- Tokens that nest can stand wherever a token that stands by itself can. -/
theorem Balanced.replace {before inner after : List Token} {token : Token}
    (h : Balanced .body (before ++ token :: after)) (plain : isPlain token = true)
    (h' : Balanced .body inner) : Balanced .body (before ++ inner ++ after) := by
  -- Where the tokens stand makes no difference.
  let place (tokens : List Token) : List Lexeme := tokens.map fun token => ⟨token, ⟨0, 0⟩, ""⟩
  have tokens (tokens : List Token) : (place tokens).map Lexeme.token = tokens := by
    simp [place, Function.comp_def]
  rw [← tokens (before ++ _), balanced_iff_leads] at h
  rw [← tokens (before ++ inner ++ after), balanced_iff_leads]
  simp only [place, List.map_append, List.map_cons] at h ⊢
  obtain ⟨scopes, leads, h⟩ := h.of_append
  cases h with
  | cons fits onward =>
    cases fits.eq_of_isPlain plain
    have inside : Passes .body (place inner) := h'.passes (tokens inner)
    exact (leads.append (inside scopes)).append onward

/-! ### Items and tokens -/

theorem exists_lexes_of_ofText {trim : Bool} {text : String} {items : List Item}
    (h : ofText trim text = .ok items) :
    ∃ tokens, Lexes trim text.toList tokens ∧ Balanced .body tokens ∧
      (items.map bare).map some = tokens.map Token.bareItem? := by
  obtain ⟨ls, lexes⟩ := exists_drain_of_ofText h
  refine ⟨_, ⟨ls, lexes, rfl⟩, (exists_ofText_iff lexes).1 ⟨items, h⟩, ?_⟩
  rw [bare_of_ofText lexes h, List.map_map]
  exact List.map_congr_left fun l _ => bare_item? rfl

theorem exists_ofText_of_lexes {trim : Bool} {text : String} {tokens : List Token}
    (h : Lexes trim text.toList tokens) (balanced : Balanced .body tokens) :
    ∃ items, ofText trim text = .ok items ∧
      (items.map bare).map some = tokens.map Token.bareItem? := by
  obtain ⟨ls, lexes, rfl⟩ := h
  obtain ⟨items, accepted⟩ := (exists_ofText_iff lexes).2 balanced
  refine ⟨items, accepted, ?_⟩
  rw [bare_of_ofText lexes accepted, List.map_map]
  exact List.map_congr_left fun l _ => bare_item? rfl

theorem eq_inclusion_of_bare {item : Item} {name marker : String} {position : Position}
    (h : item.bare = .inclusion name position marker) :
    ∃ position' marker', item = .inclusion name position' marker' := by
  cases item <;> cases h
  exact ⟨_, _, rfl⟩

/-- The items of a template with the included text for the line of its marker are those of the
template with the items of the included text for the marker. -/
theorem exists_ofText_include {before line ending after included name : String}
    (complete : Line.Complete before.toList) (holds : Line.Includes name line.toList)
    (one_line : '\n' ∉ line.toList)
    (ends : ending = "\n" ∨ ending = "\r\n" ∨ ending = "" ∧ after = "")
    (complete' : Line.Complete included.toList ∨ after = "") {items parts : List Item}
    (h : ofText true (before ++ line ++ ending ++ after) = .ok items)
    (h' : ofText true included = .ok parts) :
    ∃ first last position marker whole, items = first ++ .inclusion name position marker :: last ∧
      ofText true (before ++ included ++ after) = .ok whole ∧
      whole.map bare = (first ++ parts ++ last).map bare := by
  obtain ⟨tokens, lexes, balanced, read⟩ := exists_lexes_of_ofText h
  obtain ⟨inner, lexes', balanced', read'⟩ := exists_lexes_of_ofText h'
  have cut : (before ++ line ++ ending ++ after).toList =
      before.toList ++ (line.toList ++ ending.toList ++ after.toList) := by simp
  rw [cut, Tokenizer.lexes_append_iff complete] at lexes
  obtain ⟨leading, rest, rfl, lexesBefore, lexes⟩ := lexes
  have ends' : ending.toList = ['\n'] ∨ ending.toList = ['\r', '\n'] ∨
      ending.toList = [] ∧ after.toList = [] := by
    rcases ends with rfl | rfl | ⟨rfl, rfl⟩
    · exact .inl rfl
    · exact .inr (.inl rfl)
    · exact .inr (.inr ⟨rfl, rfl⟩)
  obtain ⟨trailing, rfl, lexesAfter⟩ := Tokenizer.lexes_include holds one_line ends' lexes
  have onward : Lexes true (included.toList ++ after.toList) (inner ++ trailing) := by
    rcases complete' with complete' | rfl
    · exact (Tokenizer.lexes_append_iff complete').2 ⟨inner, trailing, rfl, lexes', lexesAfter⟩
    · obtain ⟨ls, drained, rfl⟩ := lexesAfter
      cases (Tokenizer.drain_nil true 1).symm.trans drained
      simpa using lexes'
  have whole : Lexes true (before ++ included ++ after).toList (leading ++ inner ++ trailing) := by
    rw [String.toList_append, String.toList_append, List.append_assoc, List.append_assoc]
    exact (Tokenizer.lexes_append_iff complete).2 ⟨leading, _, rfl, lexesBefore, onward⟩
  obtain ⟨items', accepted, read''⟩ :=
    exists_ofText_of_lexes whole (balanced.replace rfl balanced')
  rw [List.map_map, List.map_append, List.map_cons] at read
  obtain ⟨first, rest, rfl, readFirst, read⟩ := List.map_eq_append_iff.1 read
  obtain ⟨item, last, rfl, marker, readLast⟩ := List.map_eq_cons_iff.1 read
  obtain ⟨position, raw, rfl⟩ := eq_inclusion_of_bare (Option.some.inj marker)
  refine ⟨first, last, position, raw, items', rfl, accepted, ?_⟩
  apply List.map_injective_iff.2 fun _ _ => Option.some.inj
  rw [read'', List.map_append, List.map_append, ← readFirst, ← readLast, ← read']
  simp only [List.map_append, List.map_map]

end Item

end Stencil
